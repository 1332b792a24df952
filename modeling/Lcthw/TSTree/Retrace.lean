import Lcthw.TSTree.Dirs

/-!
# Lcthw — re-tracing by name

The pointers that `update_tracer` and the counters follow lead to nodes that have a name, so what
they do to a tree is a sequence of changes to named records.

* **`updateTracer_eq`**: the two loops of `update_tracer` are one recursion, `retrace`, along the
  names of the list.
* **`statFor_retrace_of_not_mem`**, **`statFor_retrace_last`**, **`statFor_retrace_prev`**: what
  it does to the other nodes, to the last node and to the one before it.
* **`foldlM_addCount_eq`**, **`uncountPrev_eq`**: the counters.
* **`deleteAllSubnodes_eq`**: the whole of a deletion.
-/

namespace Lcthw.TSTree

open Ternary Ternary.Tree Paths

variable {ν : Type}

/-! ## Records by name

Every node on a list has a name. Reading and changing a record through its pointer is the same by name,
as long as the shape of the tree stays. -/

/-- The record of the node of a string. -/
def statFor (t : TSTree ν) (q : List CChar) : Option Stats :=
  (t.get? q).bind Cell.stat

/-- The mean `update_tracer` takes of a node. -/
def meanAt (t : TSTree ν) (q : List CChar) : ℚ :=
  (statFor t q).elim 0 Stats.meanOrZero

/-- Change the record of a cell that has one. -/
def restat (f : Stats → Stats) (c : Cell ν) : Cell ν :=
  { c with stat := c.stat.map f }

/-- `stat->n += d` -/
def bump (d : UInt64) (st : Stats) : Stats :=
  { st with n := st.n + d }

@[simp] theorem value_restat (f : Stats → Stats) (c : Cell ν) : (restat f c).value = c.value := rfl

theorem ne_nil_of_statFor {t : TSTree ν} {q : List CChar} (h : (statFor t q).isSome) : q ≠ [] := by
  rintro rfl
  simp [statFor] at h

theorem isSome_get?_of_statFor {t : TSTree ν} {q : List CChar} (h : (statFor t q).isSome) :
    (t.get? q).isSome := by
  rw [statFor] at h
  cases hq : t.get? q with
  | none => simp [hq] at h
  | some c => rfl

theorem statOf_route (t : TSTree ν) {q : List CChar} (hq : q ≠ []) :
    statOf t (t.route q) = statFor t q := by
  rw [statOf, statFor, follow_route, t.get?_of_ne_nil hq]

theorem statAt_route {t : TSTree ν} {q : List CChar} (h : (statFor t q).isSome) :
    statAt t (t.route q) = .ok (statFor t q) := by
  have hroute := statOf_route t (ne_nil_of_statFor h)
  rw [← hroute] at h ⊢
  exact statAt_eq (isSome_data?_of_isSome_statOf h)

theorem setStat_route {t : TSTree ν} {q : List CChar} {st : Stats} (h : statFor t q = some st)
    (f : Stats → Stats) : setStat t (t.route q) (f st) = t.alter (restat f) q := by
  have hsome : (statFor t q).isSome := by simp [h]
  rw [alter_eq_modify _ (isSome_get?_of_statFor hsome), setStat]
  refine modify_congr fun d hd => ?_
  rw [follow_route, ← t.get?_of_ne_nil (ne_nil_of_statFor hsome)] at hd
  have hst : d.stat = some st := by simpa [statFor, hd] using h
  simp [restat, hst]

theorem statFor_alter (t : TSTree ν) (f : Stats → Stats) (q p : List CChar) :
    statFor (t.alter (restat f) q) p = if p = q then (statFor t q).map f else statFor t p := by
  rw [statFor, get?_alter]
  split
  · cases hq : t.get? q <;> simp [statFor, hq, restat]
  · rfl

theorem isSome_statFor_alter {t : TSTree ν} {p : List CChar} (h : (statFor t p).isSome)
    (f : Stats → Stats) (q : List CChar) : (statFor (t.alter (restat f) q) p).isSome := by
  rw [statFor_alter]
  split
  · next hp => simpa [← hp] using h
  · exact h

theorem route_of_shape {t u : TSTree ν} (h : t.shape = u.shape) : t.route = u.route := by
  funext q
  rw [← route_shape, h, route_shape]

@[simp] theorem route_alter (t : TSTree ν) (f : Cell ν → Cell ν) (q : List CChar) :
    (t.alter f q).route = t.route :=
  route_of_shape (shape_alter f t q)

/-! ## Re-tracing

Two loops, one down and one up, come to one recursion along the list: what a node does on the way down
and on the way up involves only the node behind it. -/

/-- Along a list of names: every node gives up the old mean of the next one, the last node gets
the new record, and every node takes the new mean of the next one. -/
def retrace (new : Stats) : List (List CChar) → TSTree ν → TSTree ν
  | [], t => t
  | [q], t => t.alter (restat fun _ => new) q
  | a :: b :: rest, t =>
      let u := retrace new (b :: rest) (t.alter (restat (subMean · (meanAt t b))) a)
      u.alter (restat (addMean · (meanAt u b))) a

theorem retrace_cons_cons (new : Stats) (a b : List CChar) (rest : List (List CChar))
    (t : TSTree ν) :
    retrace new (a :: b :: rest) t =
      (retrace new (b :: rest) (t.alter (restat (subMean · (meanAt t b))) a)).alter
        (restat (addMean · (meanAt (retrace new (b :: rest)
          (t.alter (restat (subMean · (meanAt t b))) a)) b))) a := rfl

@[simp] theorem shape_retrace (new : Stats) (qs : List (List CChar)) (t : TSTree ν) :
    (retrace new qs t).shape = t.shape := by
  fun_induction retrace new qs t with
  | case1 t => rfl
  | case2 q t => simp
  | case3 a b rest t u ih =>
    rw [shape_alter]
    exact ih.trans (shape_alter ..)

theorem isSome_statFor_retrace {new : Stats} {qs : List (List CChar)} {t : TSTree ν}
    {p : List CChar} (h : (statFor t p).isSome) : (statFor (retrace new qs t) p).isSome := by
  fun_induction retrace new qs t with
  | case1 t => exact h
  | case2 q t => exact isSome_statFor_alter h _ q
  | case3 a b rest t u ih => exact isSome_statFor_alter (ih (isSome_statFor_alter h _ a)) _ a

theorem statAt_of_statOf {t : TSTree ν} {r : Route} {st : Stats} (h : statOf t r = some st) :
    statAt t r = .ok (some st) := by
  rw [statAt_eq (isSome_data?_of_isSome_statOf (by simp [h])), h]

/-- The upward loop hands over to its last step. -/
theorem traceUp_snoc {t : TSTree ν} {l : List Route} {x y : Route}
    (h : ∀ r ∈ l ++ [x, y], (statOf t r).isSome) :
    traceUp t (l ++ [x, y]) = traceUp t (l ++ [x]) >>= fun u => traceUp u [x, y] := by
  induction l generalizing t with
  | nil => rfl
  | cons z l ih =>
    -- the step from `z` needs the next node of the list, which is `x` when `l` is empty
    obtain ⟨v, hv⟩ := Option.isSome_iff_exists.mp (h z (by simp))
    obtain ⟨n, l', hn⟩ : ∃ n l', l ++ [x] = n :: l' :=
      List.exists_cons_of_ne_nil (by simp)
    have hfull : l ++ [x, y] = n :: (l' ++ [y]) := by
      rw [← List.cons_append, ← hn, List.append_assoc]
      rfl
    obtain ⟨w, hw⟩ := Option.isSome_iff_exists.mp (h n (by simp [hfull]))
    have hset := ih (t := setStat t n (addMean w v.meanOrZero)) fun r hr =>
      isSome_statOf_setStat (h r (by simp [hr])) n _
    rw [List.cons_append, List.cons_append, hn, hfull, traceUp, traceUp, statAt_of_statOf hv,
      statAt_of_statOf hw]
    simp only [ok_bind]
    rwa [hn, hfull] at hset

/-- Its last step: the record at `b` hands its mean to the one at `a`. -/
theorem traceUp_pair {t u : TSTree ν} {a b : List CChar} (hu : u.shape = t.shape)
    (hb : (statFor u b).isSome) (ha : (statFor u a).isSome) :
    traceUp u [t.route b, t.route a] = .ok (u.alter (restat (addMean · (meanAt u b))) a) := by
  obtain ⟨va, hva⟩ := Option.isSome_iff_exists.mp ha
  obtain ⟨vb, hvb⟩ := Option.isSome_iff_exists.mp hb
  have hmean : meanAt u b = vb.meanOrZero := by simp [meanAt, hvb]
  rw [← route_of_shape hu, traceUp, statAt_route hb, statAt_route ha, hva, hvb]
  simp only [ok_bind]
  rw [← hmean, setStat_route hva (addMean · (meanAt u b))]
  rfl

theorem Restated.isSome_statOf {t u : TSTree ν} (h : Restated t u) {r : Route}
    (hr : (statOf t r).isSome) : (statOf u r).isSome := by
  induction h with
  | refl => exact hr
  | tail _ hstep ih =>
    obtain ⟨s, st, rfl⟩ := hstep
    exact isSome_statOf_setStat ih s st

/-- **Both loops by name.** Along a list of stored names with records neither of them stops early. -/
theorem traces_eq (new : Stats) (a : List CChar) (rest : List (List CChar)) {t : TSTree ν}
    (h : ∀ q ∈ a :: rest, (statFor t q).isSome) :
    ∃ u, traceDown t ((a :: rest).map t.route) = .ok u ∧ Restated t u ∧
      traceUp (setStat u (t.route ((a :: rest).getLast (by simp))) new)
        ((a :: rest).map t.route).reverse = .ok (retrace new (a :: rest) t) := by
  induction rest generalizing a t with
  | nil =>
    obtain ⟨st, hst⟩ := Option.isSome_iff_exists.mp (h a (by simp))
    refine ⟨t, rfl, Restated.refl t, ?_⟩
    show Except.ok (setStat t (t.route a) new) = _
    rw [setStat_route hst fun _ => new, retrace]
  | cons b rest ih =>
    obtain ⟨va, hva⟩ := Option.isSome_iff_exists.mp (h a (by simp))
    obtain ⟨vb, hvb⟩ := Option.isSome_iff_exists.mp (h b (by simp))
    have hmean : meanAt t b = vb.meanOrZero := by simp [meanAt, hvb]
    -- the downward step at `a`, then the rest of the list, then the upward step back to `a`
    obtain ⟨u, hdown, hres, hup⟩ := ih b (t := t.alter (restat (subMean · (meanAt t b))) a)
      fun q hq => isSome_statFor_alter (h q (by simp [hq])) _ a
    have hstep := setStat_route hva (subMean · (meanAt t b))
    rw [route_alter] at hdown hup
    have hfirst : Restated t (t.alter (restat (subMean · (meanAt t b))) a) :=
      hstep ▸ restated_setStat t _ _
    refine ⟨u, ?_, hfirst.trans hres, ?_⟩
    · rw [List.map_cons, List.map_cons, traceDown, statAt_route (h a (by simp)),
        statAt_route (h b (by simp)), hva, hvb]
      simp only [ok_bind]
      rw [← hmean, hstep]
      exact hdown
    · have hrev : ((a :: b :: rest).map t.route).reverse =
          (rest.map t.route).reverse ++ [t.route b, t.route a] := by simp
      have hrev' : ((b :: rest).map t.route).reverse =
          (rest.map t.route).reverse ++ [t.route b] := by simp
      rw [hrev'] at hup
      have hlist : ∀ r ∈ (rest.map t.route).reverse ++ [t.route b, t.route a],
          (statOf (setStat u (t.route ((b :: rest).getLast (by simp))) new) r).isSome := by
        intro r hr
        obtain ⟨q, hq, rfl⟩ : ∃ q ∈ a :: b :: rest, t.route q = r := by
          rw [← hrev] at hr
          simpa only [List.mem_reverse, List.mem_map] using hr
        apply ((hfirst.trans hres).trans (restated_setStat u _ new)).isSome_statOf
        rw [statOf_route t (ne_nil_of_statFor (h q hq))]
        exact h q hq
      rw [hrev, List.getLast_cons (by simp), traceUp_snoc hlist, hup, ok_bind]
      exact traceUp_pair (by simp) (isSome_statFor_retrace (isSome_statFor_alter (h b (by simp)) _ a))
        (isSome_statFor_retrace (isSome_statFor_alter (h a (by simp)) _ a))

/-- **`update_tracer` by name.** -/
theorem updateTracer_eq (new : Stats) {qs : List (List CChar)} {t : TSTree ν}
    (h : ∀ q ∈ qs, (statFor t q).isSome) :
    updateTracer t (qs.map t.route) new =
      .ok (if qs = [] then -1 else 0, retrace new qs t) := by
  cases qs with
  | nil => rfl
  | cons a rest =>
    obtain ⟨u, hdown, -, hup⟩ := traces_eq new a rest h
    have hlast : ((a :: rest).map t.route).getLast? =
        some (t.route ((a :: rest).getLast (by simp))) := by
      rw [List.getLast?_map, List.getLast?_eq_some_getLast (by simp), Option.map_some]
    rw [updateTracer, hlast, if_neg (by simp)]
    simp only [hdown, ok_bind, hup]
    rfl

section Retrace

variable {new : Stats} {qs : List (List CChar)} {t : TSTree ν} {p : List CChar}

/-- Only records change. -/
theorem value_retrace :
    ((retrace new qs t).get? p).map Cell.value = (t.get? p).map Cell.value := by
  have halter : ∀ (u : TSTree ν) (f : Stats → Stats) (q : List CChar),
      ((u.alter (restat f) q).get? p).map Cell.value = (u.get? p).map Cell.value := by
    intro u f q
    rw [get?_alter]
    split
    · next hp => simp [hp, Function.comp_def]
    · rfl
  fun_induction retrace new qs t with
  | case1 t => rfl
  | case2 q t => exact halter t _ q
  | case3 a b rest t u ih => exact (halter u _ a).trans (ih.trans (halter t _ a))

/-- The nodes outside the list keep their records. -/
theorem statFor_retrace_of_not_mem (h : p ∉ qs) :
    statFor (retrace new qs t) p = statFor t p := by
  fun_induction retrace new qs t with
  | case1 t => rfl
  | case2 q t => rw [statFor_alter, if_neg (by simpa using h)]
  | case3 a b rest t u ih =>
    obtain ⟨ha, hrest⟩ := List.ne_and_not_mem_of_not_mem_cons h
    rw [statFor_alter, if_neg ha]
    exact (ih hrest).trans (by rw [statFor_alter, if_neg ha])

/-- The last node gets the new record. -/
theorem statFor_retrace_last (hqs : qs.Nodup) (hp : qs.getLast? = some p)
    (h : (statFor t p).isSome) : statFor (retrace new qs t) p = some new := by
  fun_induction retrace new qs t with
  | case1 t => simp at hp
  | case2 q t =>
    obtain rfl : q = p := by simpa using hp
    obtain ⟨st, hst⟩ := Option.isSome_iff_exists.mp h
    rw [statFor_alter, if_pos rfl, hst, Option.map_some]
  | case3 a b rest t u ih =>
    obtain ⟨ha, hrest⟩ := List.nodup_cons.mp hqs
    rw [List.getLast?_cons_cons] at hp
    have hne : p ≠ a := by
      rintro rfl
      exact ha (List.mem_of_getLast? hp)
    rw [statFor_alter, if_neg hne]
    exact ih hrest hp (isSome_statFor_alter h _ a)

/-- No node but the last one changes more than its sums. -/
theorem map_retrace {γ : Type} {g : Stats → γ} (hsub : ∀ st m, g (subMean st m) = g st)
    (hadd : ∀ st m, g (addMean st m) = g st) (hp : qs.getLast? ≠ some p) :
    (statFor (retrace new qs t) p).map g = (statFor t p).map g := by
  have halter : ∀ (u : TSTree ν) (f : Stats → Stats) (q : List CChar), (∀ st, g (f st) = g st) →
      (statFor (u.alter (restat f) q) p).map g = (statFor u p).map g := by
    intro u f q hf
    rw [statFor_alter]
    split
    · next hq => simp [hq, Function.comp_def, hf]
    · rfl
  fun_induction retrace new qs t with
  | case1 t => rfl
  | case2 q t => rw [statFor_alter, if_neg (by simpa [eq_comm] using hp)]
  | case3 a b rest t u ih =>
    rw [List.getLast?_cons_cons] at hp
    exact (halter u (addMean · (meanAt u b)) a fun st => hadd st _).trans
      ((ih hp).trans (halter t (subMean · (meanAt t b)) a fun st => hsub st _))

/-- The node before the last one exchanges one mean. -/
theorem statFor_retrace_prev {l : List (List CChar)} {m q : List CChar} {st : Stats}
    (hqs : (l ++ [m, q]).Nodup) (hm : statFor t m = some st) (hq : (statFor t q).isSome) :
    statFor (retrace new (l ++ [m, q]) t) m =
      some (addMean (subMean st (meanAt t q)) new.meanOrZero) := by
  induction l generalizing t with
  | nil =>
    have hne : m ≠ q := by simpa using hqs
    obtain ⟨w, hw⟩ := Option.isSome_iff_exists.mp hq
    simp [retrace, statFor_alter, meanAt, hne, hne.symm, hm, hw]
  | cons a l ih =>
    obtain ⟨ha, hrest⟩ := List.nodup_cons.mp hqs
    obtain ⟨b, rest, hb⟩ : ∃ b rest, l ++ [m, q] = b :: rest :=
      List.exists_cons_of_ne_nil (by simp)
    have hma : m ≠ a := by
      rintro rfl
      exact ha (by simp)
    have hqa : q ≠ a := by
      rintro rfl
      exact ha (by simp)
    have h := ih (t := t.alter (restat (subMean · (meanAt t b))) a) hrest
      (by rw [statFor_alter, if_neg hma, hm]) (isSome_statFor_alter hq _ a)
    rw [List.cons_append, hb, retrace_cons_cons, statFor_alter, if_neg hma, ← hb, h, meanAt,
      statFor_alter, if_neg hqa, meanAt]

end Retrace

/-! ## Counters

Counting by pointers is counting by names. -/

theorem addCount_route (d : UInt64) {t : TSTree ν} {q : List CChar} (h : (statFor t q).isSome) :
    addCount d t (t.route q) = .ok (t.alter (restat (bump d)) q) := by
  obtain ⟨st, hst⟩ := Option.isSome_iff_exists.mp h
  obtain ⟨c, hc⟩ := Option.isSome_iff_exists.mp (isSome_get?_of_statFor h)
  have hstat : c.stat = some st := by simpa [statFor, hc] using hst
  have hdata : (t.follow (t.route q)).data? = some ⟨some st, c.value⟩ := by
    rw [follow_route, ← t.get?_of_ne_nil (ne_nil_of_statFor h), hc, ← hstat]
  rw [addCount, hdata, ← setStat_route hst (bump d)]
  rfl

/-- Incrementing the counts of a list of nodes. -/
theorem foldlM_addCount_eq (d : UInt64) {qs : List (List CChar)} {t : TSTree ν}
    (h : ∀ q ∈ qs, (statFor t q).isSome) :
    (qs.map t.route).foldlM (addCount d) t =
      .ok (qs.foldl (fun t q => t.alter (restat (bump d)) q) t) := by
  induction qs generalizing t with
  | nil => rfl
  | cons q qs ih =>
    have hrest := ih (t := t.alter (restat (bump d)) q) fun p hp =>
      isSome_statFor_alter (h p (by simp [hp])) _ q
    rw [route_alter] at hrest
    rw [List.map_cons, List.foldlM_cons, addCount_route d (h q (by simp)), ok_bind, hrest,
      List.foldl_cons]

/-- The parent of a deleted url counts one child less. -/
def uncount (parent : Option (List CChar)) (t : TSTree ν) : TSTree ν :=
  match parent with
  | none => t
  | some m => t.alter (restat (bump (-1))) m

/-- The count that a deletion takes down is that of the node before the last one. -/
theorem uncountPrev_eq {key : List CChar} (hkey : key.getLast? ≠ some delim) {t : TSTree ν}
    (h : ∀ q ∈ dirs delim key, (statFor t q).isSome) :
    uncountPrev t ((dirs delim key ++ [key]).map t.route) =
      .ok (uncount (parent delim key) t) := by
  rw [parent_eq hkey]
  rcases List.eq_nil_or_concat' (dirs delim key) with hdirs | ⟨ds, m, hdirs⟩
  · rw [hdirs]
    rfl
  · have hm : (statFor t m).isSome := h m (by simp [hdirs])
    rw [hdirs, List.getLast?_concat, uncount, ← addCount_route (-1) hm, uncountPrev]
    simp

/-- **A deletion by name**, of a stored url that does not end in '/'. -/
theorem deleteAllSubnodes_eq {t : TSTree ν} {key : List CChar} (h : (t.get? key).isSome)
    (hkey : key.getLast? ≠ some delim)
    (hstat : ∀ q ∈ dirs delim key ++ [key], (statFor t q).isSome) :
    deleteAllSubnodes t key =
      .ok (0, (uncount (parent delim key) (retrace Stats.create (dirs delim key ++ [key]) t)).alter
        (fun c => { c with value := none }) key) := by
  obtain ⟨d, hd⟩ := Option.isSome_iff_exists.mp h
  obtain ⟨c, low, high, equal, hw⟩ := walk_of_get? hd
  have hc : c ≠ delim := by
    rintro rfl
    exact hkey (getLast?_of_walk (ne_nil_of_get? hd) hw)
  have hroute : (retrace Stats.create (dirs delim key ++ [key]) t).route = t.route :=
    route_of_shape (shape_retrace ..)
  have huncount := uncountPrev_eq hkey (t := retrace Stats.create (dirs delim key ++ [key]) t)
    fun q hq => isSome_statFor_retrace (hstat q (by simp [hq]))
  rw [hroute] at huncount
  have hshape : (uncount (parent delim key)
      (retrace Stats.create (dirs delim key ++ [key]) t)).shape = t.shape := by
    cases parent delim key <;> simp [uncount]
  -- the node is where it was: only records have changed
  have hstored : ((uncount (parent delim key)
      (retrace Stats.create (dirs delim key ++ [key]) t)).get? key).isSome := by
    rw [isSome_get?_of_shape hshape, h]
  rw [deleteAllSubnodes_node hw, trail_eq h hkey, updateTracer_eq _ hstat, ok_bind, huncount,
    ok_bind, release, if_neg hc, alter_eq_modify _ hstored, route_of_shape hshape]
  rfl

end Lcthw.TSTree
