import Lcthw.TSTree.Delim

/-!
# Lcthw — collecting a path and re-tracing its means

* **`delimSearch_eq`**, **`deleteAllSubnodes_node`**: both walk their key, collect its `trail`, and
  dereference the link they end at.
* **`Restated`**: a tree in which the records of some nodes were replaced and nothing else. All
  that a re-tracing or a counter does to a tree is of this kind.
* **`updateTracer_restated`**: re-tracing a list of nodes completes.
-/

namespace Lcthw.TSTree

open Ternary Ternary.Tree

variable {ν : Type}

/-! ## The nodes of a list

A list that a walk has collected leads to nodes. Whether it does so to records is another matter, and
depends on the tree. -/

/-- The record of the node at a route. -/
def statOf (t : TSTree ν) (r : Route) : Option Stats :=
  (t.follow r).data?.bind Cell.stat

theorem isSome_data?_of_isSome_statOf {t : TSTree ν} {r : Route} (h : (statOf t r).isSome) :
    (t.follow r).data?.isSome := by
  rw [statOf] at h
  cases hd : (t.follow r).data? with
  | none => simp [hd] at h
  | some c => rfl

theorem statAt_eq {t : TSTree ν} {r : Route} (h : (t.follow r).data?.isSome) :
    statAt t r = .ok (statOf t r) := by
  obtain ⟨c, hc⟩ := Option.isSome_iff_exists.mp h
  simp [statAt, statOf, hc, pure, Except.pure]

theorem isSome_data?_setStat (t : TSTree ν) (r s : Route) (st : Stats) :
    ((setStat t r st).follow s).data?.isSome = (t.follow s).data?.isSome := by
  rw [setStat, data?_follow_modify]
  split
  · next h => simp [h]
  · rfl

theorem statOf_setStat (t : TSTree ν) (r s : Route) (st : Stats) :
    statOf (setStat t r st) s =
      if s = r ∧ (t.follow r).data?.isSome then some st else statOf t s := by
  rw [statOf, setStat, data?_follow_modify]
  by_cases hs : s = r
  · subst hs
    cases hd : (t.follow s).data? <;> simp [statOf, hd]
  · simp [hs, statOf]

theorem isSome_statOf_setStat {t : TSTree ν} {s : Route} (h : (statOf t s).isSome) (r : Route)
    (st : Stats) : (statOf (setStat t r st) s).isSome := by
  rw [statOf_setStat]
  split
  · rfl
  · exact h

/-- The pointers that a walk collects lead to nodes. -/
theorem isSome_data?_of_mem_matched {t : TSTree ν} {key : List CChar} {r : Route}
    (h : r ∈ matched t key) : (t.follow r).data?.isSome := by
  induction t generalizing key r with
  | nil => simp [matched] at h
  | dead => simp [matched] at h
  | node c low high equal d ihl ihh ihe =>
    cases key with
    | nil => simp [matched] at h
    | cons k ks =>
      rw [matched] at h
      split_ifs at h with hlt hk hc
      · obtain ⟨r', hr', rfl⟩ := List.mem_map.mp h
        exact ihl hr'
      · rcases List.mem_append.mp h with h | h
        · obtain rfl : r = [] := by simpa using h
          rfl
        · obtain ⟨r', hr', rfl⟩ := List.mem_map.mp h
          exact ihe hr'
      · obtain ⟨r', hr', rfl⟩ := List.mem_map.mp (by simpa using h)
        exact ihe hr'
      · obtain ⟨r', hr', rfl⟩ := List.mem_map.mp h
        exact ihh hr'

/-! ## Collecting a path

The walk of both functions ends at a link, with the list of the '/' nodes at which a character matched.
What they do then depends on that link: NULL, a freed node, or a node. -/

/-- The nodes that `TSTree_delim_search` and `TSTree_delete_all_subnodes` collect for a key: the
'/' nodes it matches, and the node it ends at. -/
def trail (t : TSTree ν) (key : List CChar) : List Route :=
  match t.walk key with
  | node c _ _ _ _ => if c = delim then matched t key else matched t key ++ [t.route key]
  | nil => matched t key
  | dead => matched t key

theorem delimWalk_root (t : TSTree ν) (key : List CChar) (hdead : t.walk key ≠ dead) :
    delimWalk t [] [] key = .ok (t.walk key, t.route key, matched t key) := by
  by_cases hkey : key = []
  · subst hkey
    cases t <;> rfl
  · rw [delimWalk_eq t [] [] hkey, unlessDead_of_ne hdead]
    simp

theorem delimWalk_root_dead (t : TSTree ν) (key : List CChar) (hdead : t.walk key = dead) :
    delimWalk t [] [] key = .error .useAfterFree ∨
      ∃ here list, delimWalk t [] [] key = .ok (dead, here, list) := by
  by_cases hkey : key = []
  · subst hkey
    obtain rfl : t = dead := by simpa [walk] using hdead
    exact Or.inr ⟨[], [], rfl⟩
  · rw [delimWalk_eq t [] [] hkey, hdead]
    exact Or.inl rfl

/-- **`TSTree_delim_search`** dereferences the link its walk ends at, and returns the trail. -/
theorem delimSearch_eq (t : TSTree ν) (key : List CChar) :
    delimSearch t [] key = (deref (t.walk key)).map fun c => (c.bind Cell.value, trail t key) := by
  rw [delimSearch, trail]
  cases hw : t.walk key with
  | nil =>
    rw [delimWalk_root t key (by simp [hw]), hw]
    rfl
  | dead =>
    rcases delimWalk_root_dead t key hw with h | ⟨here, list, h⟩ <;> rw [h] <;> rfl
  | node c low high equal d =>
    rw [delimWalk_root t key (by simp [hw]), hw]
    by_cases hc : c = delim <;> simp [hc, deref, pure, Except.pure, Except.map]

theorem deleteAllSubnodes_nil {t : TSTree ν} {key : List CChar} (h : t.walk key = nil) :
    deleteAllSubnodes t key = .ok (-1, t) := by
  rw [deleteAllSubnodes, delimWalk_root t key (by simp [h]), h]
  rfl

theorem deleteAllSubnodes_dead {t : TSTree ν} {key : List CChar} (h : t.walk key = dead) :
    deleteAllSubnodes t key = .error .useAfterFree := by
  rw [deleteAllSubnodes]
  rcases delimWalk_root_dead t key h with h | ⟨here, list, h⟩ <;> rw [h] <;> rfl

/-- What `TSTree_delete_all_subnodes` does to the node its walk ends at. -/
def release (t : TSTree ν) (here : Route) (splitchar : CChar) (equal : TSTree ν) :
    Except Fault (TSTree ν) :=
  if splitchar = delim then (destroy equal).map fun _ => t.graft here dead
  else .ok (t.modify (fun c => { c with value := none }) here)

/-- A deletion whose walk ends at a node re-traces the trail, counts, and releases the node. -/
theorem deleteAllSubnodes_node {t : TSTree ν} {key : List CChar} {c : CChar}
    {low high equal : TSTree ν} {d : Cell ν} (h : t.walk key = node c low high equal d) :
    deleteAllSubnodes t key =
      updateTracer t (trail t key) Stats.create >>= fun r =>
        uncountPrev r.2 (trail t key) >>= fun u =>
          (release u (t.route key) c equal).map fun v => (0, v) := by
  rw [deleteAllSubnodes, delimWalk_root t key (by simp [h]), trail, h]
  by_cases hc : c = delim
  · simp only [hc, release, if_true, ok_bind]
    cases updateTracer t (matched t key) Stats.create with
    | error e => rfl
    | ok r => cases uncountPrev r.2 (matched t key) <;> cases destroy equal <;> rfl
  · simp only [hc, release, if_false, ok_bind]
    cases updateTracer t (matched t key ++ [t.route key]) Stats.create with
    | error e => rfl
    | ok r => cases uncountPrev r.2 (matched t key ++ [t.route key]) <;> rfl

/-- The nodes of a trail whose walk ends at a node. -/
theorem isSome_data?_of_mem_trail {t : TSTree ν} {key : List CChar} {r : Route}
    (h : r ∈ trail t key) : (t.follow r).data?.isSome := by
  rw [trail] at h
  cases hw : t.walk key with
  | nil =>
    rw [hw] at h
    exact isSome_data?_of_mem_matched h
  | dead =>
    rw [hw] at h
    exact isSome_data?_of_mem_matched h
  | node c low high equal d =>
    simp only [hw] at h
    split_ifs at h with hc
    · exact isSome_data?_of_mem_matched h
    · rcases List.mem_append.mp h with h | h
      · exact isSome_data?_of_mem_matched h
      · obtain rfl : r = t.route key := by simpa using h
        rw [follow_route, hw]
        rfl

/-- A walk that ends at a '/' node has collected it. -/
theorem route_mem_matched {t : TSTree ν} {key : List CChar} {low high equal : TSTree ν} {d : Cell ν}
    (hkey : key ≠ []) (h : t.walk key = node delim low high equal d) :
    t.route key ∈ matched t key := by
  induction t generalizing key with
  | nil => simp at h
  | dead => simp at h
  | node c low' high' equal' d' ihl ihh ihe =>
    obtain ⟨k, ks, rfl⟩ := List.exists_cons_of_ne_nil hkey
    rcases lt_trichotomy k c with hlt | rfl | hgt
    · rw [walk_lt hlt] at h
      rw [route_lt hlt, matched, if_pos hlt]
      exact List.mem_map_of_mem (ihl hkey h)
    · rw [matched, if_neg (lt_irrefl k), if_pos rfl]
      cases ks with
      | nil =>
        obtain ⟨rfl, -⟩ : k = delim ∧ _ := by simpa using h
        simp
      | cons j js =>
        rw [walk_self_cons] at h
        rw [route_self_cons]
        exact List.mem_append_right _ (List.mem_map_of_mem (ihe (by simp) h))
    · rw [walk_gt hgt] at h
      rw [route_gt hgt, matched, if_neg hgt.not_gt, if_neg hgt.ne']
      exact List.mem_map_of_mem (ihh hkey h)

/-- A trail that ends at a node contains that node. -/
theorem route_mem_trail {t : TSTree ν} {key : List CChar} (h : (t.get? key).isSome) :
    t.route key ∈ trail t key := by
  obtain ⟨d, hd⟩ := Option.isSome_iff_exists.mp h
  obtain ⟨c, low, high, equal, hw⟩ := walk_of_get? hd
  rw [trail, hw]
  by_cases hc : c = delim
  · subst hc
    simpa using route_mem_matched (ne_nil_of_get? hd) hw
  · simp [hc]

/-! ## Restated trees

Replacing records keeps the shape and the values. So a walk, a route and a binding are the same before
and after, whatever the loops do to the numbers. -/

/-- Some records were replaced. -/
def Restated : TSTree ν → TSTree ν → Prop :=
  Relation.ReflTransGen fun t u => ∃ r st, u = setStat t r st

theorem Restated.refl (t : TSTree ν) : Restated t t :=
  Relation.ReflTransGen.refl

theorem Restated.trans {t u v : TSTree ν} (h : Restated t u) (h' : Restated u v) : Restated t v :=
  Relation.ReflTransGen.trans h h'

theorem restated_setStat (t : TSTree ν) (r : Route) (st : Stats) : Restated t (setStat t r st) :=
  Relation.ReflTransGen.single ⟨r, st, rfl⟩

theorem Restated.shape_eq {t u : TSTree ν} (h : Restated t u) : u.shape = t.shape := by
  induction h with
  | refl => rfl
  | tail _ hstep ih =>
    obtain ⟨r, st, rfl⟩ := hstep
    rw [setStat, shape_modify, ih]

/-- What no `Stats` matters to holds of every entry as before. -/
theorem Restated.every {P : List CChar → Cell ν → Prop}
    (hP : ∀ p c st, P p c → P p { c with stat := some st }) {t u : TSTree ν} (h : Restated t u) (ht : t.Every P) : u.Every P := by
  induction h with
  | refl => exact ht
  | tail _ hstep ih =>
    obtain ⟨r, st, rfl⟩ := hstep
    exact ih.modify (fun p d hd => hP p d st hd) r

theorem Restated.isSome_data? {t u : TSTree ν} (h : Restated t u) (r : Route) :
    (u.follow r).data?.isSome = (t.follow r).data?.isSome := by
  induction h with
  | refl => rfl
  | tail _ hstep ih =>
    obtain ⟨s, st, rfl⟩ := hstep
    rw [isSome_data?_setStat, ih]

/-- No value changes. -/
theorem Restated.value_eq {t u : TSTree ν} (h : Restated t u) (r : Route) :
    (u.follow r).data?.map Cell.value = (t.follow r).data?.map Cell.value := by
  induction h with
  | refl => rfl
  | tail _ hstep ih =>
    obtain ⟨s, st, rfl⟩ := hstep
    rw [← ih, setStat, data?_follow_modify]
    split
    · next h => simp [h, Function.comp_def]
    · rfl

theorem addCount_restated {d : UInt64} {t u : TSTree ν} {r : Route} (h : addCount d t r = .ok u) :
    Restated t u := by
  rw [addCount] at h
  split at h
  · cases h
    exact restated_setStat _ r _
  · cases h
  · cases h

theorem foldlM_addCount_restated {d : UInt64} {t u : TSTree ν} {rs : List Route}
    (h : rs.foldlM (addCount d) t = .ok u) : Restated t u := by
  induction rs generalizing t with
  | nil =>
    cases h
    exact Restated.refl _
  | cons r rs ih =>
    rw [List.foldlM_cons, bind_eq_ok] at h
    obtain ⟨m, hm, hrest⟩ := h
    exact (addCount_restated hm).trans (ih hrest)

theorem uncountPrev_restated {t u : TSTree ν} {list : List Route} (h : uncountPrev t list = .ok u) :
    Restated t u := by
  rw [uncountPrev] at h
  split at h
  · cases h
  · cases h
    exact Restated.refl t
  · exact addCount_restated h

/-- The way down changes records of the list, and stops at the first node without one. -/
theorem traceDown_restated {t : TSTree ν} {list : List Route}
    (hlist : ∀ r ∈ list, (t.follow r).data?.isSome) :
    ∃ u, traceDown t list = .ok u ∧ Restated t u := by
  induction list generalizing t with
  | nil => exact ⟨t, rfl, Restated.refl t⟩
  | cons cur rest ih =>
    cases rest with
    | nil => exact ⟨t, rfl, Restated.refl t⟩
    | cons next rest =>
      rw [traceDown, statAt_eq (hlist cur (by simp)), statAt_eq (hlist next (by simp))]
      simp only [ok_bind]
      split
      · next v w _ _ =>
        obtain ⟨u, hu, hres⟩ := ih (t := setStat t cur (subMean v w.meanOrZero))
          fun r hr => by rw [isSome_data?_setStat]; exact hlist r (by simp [hr])
        exact ⟨u, hu, (restated_setStat t cur _).trans hres⟩
      · exact ⟨t, rfl, Restated.refl t⟩

/-- So does the way up. -/
theorem traceUp_restated (t : TSTree ν) (list : List Route)
    (hlist : ∀ r ∈ list, (t.follow r).data?.isSome) :
    ∃ u, traceUp t list = .ok u ∧ Restated t u := by
  induction list generalizing t with
  | nil => exact ⟨t, rfl, Restated.refl t⟩
  | cons cur rest ih =>
    cases rest with
    | nil => exact ⟨t, rfl, Restated.refl t⟩
    | cons prev rest =>
      rw [traceUp, statAt_eq (hlist cur (by simp)), statAt_eq (hlist prev (by simp))]
      simp only [ok_bind]
      split
      · next v w _ _ =>
        obtain ⟨u, hu, hres⟩ := ih (setStat t prev (addMean w v.meanOrZero))
          fun r hr => by rw [isSome_data?_setStat]; exact hlist r (by simp [hr])
        exact ⟨u, hu, (restated_setStat t prev _).trans hres⟩
      · exact ⟨t, rfl, Restated.refl t⟩

/-- **Re-tracing completes and replaces records only.** -/
theorem updateTracer_restated (t : TSTree ν) (list : List Route) (new_stat : Stats)
    (hlist : ∀ r ∈ list, (t.follow r).data?.isSome) :
    ∃ u, updateTracer t list new_stat = .ok (if list = [] then -1 else 0, u) ∧ Restated t u := by
  cases hlast : list.getLast? with
  | none =>
    obtain rfl := List.getLast?_eq_none_iff.mp hlast
    exact ⟨t, rfl, Restated.refl t⟩
  | some last =>
    have hne : list ≠ [] := by
      rintro rfl
      simp at hlast
    obtain ⟨u, hdown, hu⟩ := traceDown_restated hlist
    have hset := restated_setStat u last new_stat
    obtain ⟨v, hup, hv⟩ := traceUp_restated (setStat u last new_stat) list.reverse
      fun r hr => by
        rw [hset.isSome_data?, hu.isSome_data?]
        exact hlist r (List.mem_reverse.mp hr)
    refine ⟨v, ?_, hu.trans (hset.trans hv)⟩
    rw [updateTracer, hlast, if_neg hne]
    simp only [hdown, ok_bind, hup]
    rfl

/-- **What a completed deletion did.** -/
theorem deleteAllSubnodes_cases {t u : TSTree ν} {key : List CChar} {rc : ℤ}
    (h : deleteAllSubnodes t key = .ok (rc, u)) :
    (t.walk key = nil ∧ rc = -1 ∧ u = t) ∨
      ∃ c low high equal d v, t.walk key = node c low high equal d ∧ rc = 0 ∧ Restated t v ∧
        ((c = delim ∧ u = v.graft (t.route key) dead) ∨
          (c ≠ delim ∧ u = v.modify (fun c => { c with value := none }) (t.route key))) := by
  cases hw : t.walk key with
  | nil =>
    rw [deleteAllSubnodes_nil hw] at h
    cases h
    exact Or.inl ⟨rfl, rfl, rfl⟩
  | dead =>
    rw [deleteAllSubnodes_dead hw] at h
    cases h
  | node c low high equal d =>
    rw [deleteAllSubnodes_node hw] at h
    obtain ⟨⟨rc', v⟩, hv, h⟩ := bind_eq_ok.mp h
    obtain ⟨w, hw', hrel⟩ := bind_eq_ok.mp h
    obtain ⟨v', hv', hres⟩ := updateTracer_restated t (trail t key) Stats.create
      fun r hr => isSome_data?_of_mem_trail hr
    obtain rfl : v' = v := (Prod.mk.inj (Except.ok.inj (hv'.symm.trans hv))).2
    have hres := hres.trans (uncountPrev_restated hw')
    refine Or.inr ⟨c, low, high, equal, d, w, ?_⟩
    obtain ⟨x, hx, hxu⟩ := map_eq_ok.mp hrel
    obtain ⟨rfl, rfl⟩ := Prod.mk.inj hxu
    -- a directory goes with all that is below it
    by_cases hc : c = delim
    · rw [release.eq_def, if_pos hc] at hx
      obtain ⟨-, -, rfl⟩ := map_eq_ok.mp hx
      exact ⟨rfl, rfl, hres, Or.inl ⟨hc, rfl⟩⟩
    · rw [release.eq_def, if_neg hc] at hx
      obtain rfl := Except.ok.inj hx
      exact ⟨rfl, rfl, hres, Or.inr ⟨hc, rfl⟩⟩

end Lcthw.TSTree
