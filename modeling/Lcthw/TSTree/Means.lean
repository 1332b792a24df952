import Lcthw.TSTree.Counts

/-!
# Lcthw — the sums of '/' nodes

The `sum` and `sumsq` of a '/' node are meant to be the sums of its direct children's means and of
their squares. A record that changes its mean, through its sum or through its count, owes the
difference to its parent.

* **`balance`**: what a '/' node holds beyond what its children add up to.
* **`balance_retrace`**: re-tracing along a url and its directories keeps every balance.
* **`rollsUp_created_iff`**, **`rollsUp_deleted_iff`**: an insertion and a deletion change a count
  as well, and hand nothing up; they keep the balances exactly when that changes no mean below
  another directory.
-/

namespace Lcthw.TSTree

open Ternary Ternary.Tree Paths

variable {ν : Type}

/-- The mean of a node. -/
def meanOf (c : Cell ν) : ℚ :=
  c.stat.elim 0 Stats.meanOrZero

/-- Every '/' node holds the sums of its direct children's means and of their squares. -/
def RollsUp (t : TSTree ν) : Prop :=
  ∀ p c, (p, c) ∈ t.entries → p.getLast? = some delim →
    ∃ st, c.stat = some st ∧
      st.sum = ((children p t).map fun e => meanOf e.2).sum ∧
      st.sumsq = ((children p t).map fun e => meanOf e.2 ^ 2).sum

theorem rollsUp_nil : RollsUp (nil : TSTree ν) := by
  intro p c h
  simp [entries] at h

/-! ## Balances

What a directory has in its sums beyond the means of its children is its balance, and the sums are right
when every balance is zero. An operation that changes a record moves two balances: its own, and that of
the directory it lies in. -/

/-- What a mean adds to the two sums of the parent. -/
def weight (m : ℚ) : ℚ × ℚ :=
  (m, m * m)

/-- What a record adds. -/
def worth (stat : Option Stats) : ℚ × ℚ :=
  weight (stat.elim 0 Stats.meanOrZero)

/-- The two sums a record holds. -/
def sums (st : Stats) : ℚ × ℚ :=
  (st.sum, st.sumsq)

/-- What the node at `p` holds beyond what its children add up to. -/
def balance (t : TSTree ν) (p : List CChar) : ℚ × ℚ :=
  (statFor t p).elim 0 sums - t.total (share worth p)

theorem weight_inj {m m' : ℚ} : weight m = weight m' ↔ m = m' :=
  ⟨fun h => congrArg Prod.fst h, congrArg weight⟩

theorem worth_some (st : Stats) : worth (some st) = weight st.meanOrZero := rfl

@[simp] theorem worth_create : worth (some Stats.create) = 0 := by
  simp [worth, weight]

theorem sums_subMean (st : Stats) (m : ℚ) : sums (subMean st m) = sums st - weight m := rfl

theorem sums_addMean (st : Stats) (m : ℚ) : sums (addMean st m) = sums st + weight m := rfl

theorem sums_bump (d : UInt64) (st : Stats) : sums (bump d st) = sums st := rfl

/-- Counting changes the mean, unless the sum is zero. -/
theorem meanOrZero_bump_eq_iff {d : UInt64} (hd : d ≠ 0) {st : Stats} :
    (bump d st).meanOrZero = st.meanOrZero ↔ st.sum = 0 := by
  refine Stats.meanOrZero_eq_iff_of_sum_eq rfl fun h => hd ?_
  have hn := congrArg UInt64.toNat h
  have hlt := st.n.toNat_lt
  have hlt' := d.toNat_lt
  rw [bump, UInt64.toNat_add] at hn
  apply UInt64.toNat_inj.mp
  rw [UInt64.toNat_zero]
  omega

theorem sum_pair {β : Type} (l : List β) (f g : β → ℚ) :
    (l.map fun e => (f e, g e)).sum = ((l.map f).sum, (l.map g).sum) := by
  induction l with
  | nil => rfl
  | cons e l ih => simp [ih]

/-- The sums over the children, in two columns. -/
theorem total_worth {p : List CChar} (hp : p.getLast? = some delim) (t : TSTree ν) :
    t.total (share worth p) =
      (((children p t).map fun e => meanOf e.2).sum,
        ((children p t).map fun e => meanOf e.2 ^ 2).sum) := by
  rw [total_share worth p hp, ← sum_pair]
  congr 2
  funext e
  rw [pow_two]
  rfl

/-- The sums are right when no directory has a balance. -/
theorem rollsUp_iff {t : TSTree ν} (ht : Recorded t) :
    RollsUp t ↔ ∀ p, p.getLast? = some delim → balance t p = 0 := by
  constructor
  · intro h p hp
    have hne : p ≠ [] := by
      rintro rfl
      simp at hp
    rw [balance, sub_eq_zero]
    cases hc : t.get? p with
    | none => simp [statFor, hc, total_share_of_get?_eq_none worth p ht.ordered hne hc]
    | some c =>
      obtain ⟨st, hst, hsum, hsumsq⟩ := h p c (mem_entries_of_get? hc) hp
      rw [total_worth hp, ← hsum, ← hsumsq]
      simp [statFor, hc, hst, sums]
  · intro h p c hmem hp
    have hc := (mem_entries ht.ordered).mp hmem
    obtain ⟨st, hst⟩ := Option.isSome_iff_exists.mp (ht.cells.get? hc (Or.inl hp))
    have hbalance := h p hp
    rw [balance, sub_eq_zero, total_worth hp, statFor, hc, Option.bind_some, hst] at hbalance
    exact ⟨st, hst, congrArg Prod.fst hbalance, congrArg Prod.snd hbalance⟩

/-- A '/' node or a bound url, with a record: what a list of `update_tracer` holds. -/
def Listed (t : TSTree ν) (q : List CChar) : Prop :=
  ∃ c st, t.get? q = some c ∧ c.stat = some st ∧ IsItem q c

theorem Listed.restat {t : TSTree ν} {q : List CChar} (h : Listed t q) (f : Stats → Stats)
    (p : List CChar) : Listed (t.alter (restat f) p) q := by
  obtain ⟨c, st, hc, hst, hitem⟩ := h
  by_cases hq : q = p
  · subst hq
    exact ⟨TSTree.restat f c, f st, by simp [get?_alter, hc], by simp [TSTree.restat, hst], hitem⟩
  · exact ⟨c, st, by rw [get?_alter, if_neg hq, hc], hst, hitem⟩

theorem Listed.retrace {t : TSTree ν} {q : List CChar} (h : Listed t q) (new : Stats)
    (qs : List (List CChar)) : Listed (retrace new qs t) q := by
  fun_induction TSTree.retrace new qs t with
  | case1 t => exact h
  | case2 p t => exact h.restat _ p
  | case3 a b rest t u ih => exact (ih (h.restat _ a)).restat _ a

section Balance

variable {t : TSTree ν} {p : List CChar}

/-- A changed record moves its own balance by its sums, and its parent's by its mean. -/
theorem balance_restat {q : List CChar} {c : Cell ν} {st : Stats} (hc : t.get? q = some c)
    (hst : c.stat = some st) (hitem : IsItem q c) (f : Stats → Stats) :
    balance (t.alter (restat f) q) p =
      balance t p + (if p = q then sums (f st) - sums st else 0) -
        (if parent delim q = some p then
          weight (f st).meanOrZero - weight st.meanOrZero else 0) := by
  have hstat : statFor t q = some st := by rw [statFor, hc]; exact hst
  have htotal : (t.alter (restat f) q).total (share worth p) =
      t.total (share worth p) + (if parent delim q = some p then
        weight (f st).meanOrZero - weight st.meanOrZero else 0) := by
    have h := total_share_restat worth p hc hst hitem f
    by_cases hparent : parent delim q = some p
    · simp only [hparent, if_true, worth_some] at h ⊢
      rw [← add_sub_assoc, ← h, add_sub_cancel_right]
    · simpa [hparent] using h
  have hown : (statFor (t.alter (restat f) q) p).elim 0 sums =
      (statFor t p).elim 0 sums + if p = q then sums (f st) - sums st else 0 := by
    rw [statFor_alter]
    by_cases hp : p = q
    · rw [if_pos hp, if_pos hp, hp, hstat]
      simp
    · rw [if_neg hp, if_neg hp, add_zero]
  rw [balance, balance, htotal, hown]
  abel

/-- **Re-tracing keeps every balance.** Each node gives back the old mean of the next one and takes
the new one, so only the first node's mean can be owed to anyone. -/
theorem balance_retrace (new : Stats) {a : List CChar} {rest : List (List CChar)}
    (hchain : (a :: rest).IsChain fun x y => parent delim y = some x) (hnodup : (a :: rest).Nodup)
    (hnodes : ∀ q ∈ a :: rest, Listed t q)
    (hp : (a :: rest).getLast? ≠ some p) :
    balance (retrace new (a :: rest) t) p =
      balance t p - if parent delim a = some p then
        weight (meanAt (retrace new (a :: rest) t) a) - weight (meanAt t a) else 0 := by
  induction rest generalizing a t with
  | nil =>
    obtain ⟨c, st, hc, hst, hitem⟩ := hnodes a (by simp)
    have hne : p ≠ a := by simpa [eq_comm] using hp
    have hstat : statFor t a = some st := by rw [statFor, hc]; exact hst
    rw [retrace, balance_restat hc hst hitem, if_neg hne, add_zero]
    simp [meanAt, statFor_alter, hstat]
  | cons b rest ih =>
    obtain ⟨hab, hchain⟩ := List.isChain_cons_cons.mp hchain
    obtain ⟨ha, hnodup⟩ := List.nodup_cons.mp hnodup
    rw [List.getLast?_cons_cons] at hp
    have hba : b ≠ a := fun h => ha (by simp [h])
    -- down: `a` gives up the old mean of `b`
    obtain ⟨c, st, hc, hst, hitem⟩ := hnodes a (by simp)
    have hdown := balance_restat (p := p) hc hst hitem (subMean · (meanAt t b))
    have hstat : statFor t a = some st := by rw [statFor, hc]; exact hst
    -- below: the rest of the list
    have hrest := ih (t := t.alter (restat (subMean · (meanAt t b))) a) hchain hnodup
      (fun q hq => (hnodes q (by simp [hq])).restat _ a) hp
    have hmeanb : meanAt (t.alter (restat (subMean · (meanAt t b))) a) b = meanAt t b := by
      rw [meanAt, statFor_alter, if_neg hba, meanAt]
    rw [hab, hmeanb] at hrest
    -- up: `a` takes the new mean of `b`
    rw [retrace_cons_cons]
    generalize hu : retrace new (b :: rest) (t.alter (restat (subMean · (meanAt t b))) a) = u at *
    have hstatu : statFor u a = some (subMean st (meanAt t b)) := by
      rw [← hu, statFor_retrace_of_not_mem ha, statFor_alter, if_pos rfl, hstat, Option.map_some]
    obtain ⟨cu, stu, hcu, hstu, hitemu⟩ : Listed u a := by
      rw [← hu]
      exact ((hnodes a (by simp)).restat _ a).retrace new (b :: rest)
    obtain rfl : stu = subMean st (meanAt t b) := by
      rw [statFor, hcu, Option.bind_some, hstu] at hstatu
      exact Option.some.inj hstatu
    have hup := balance_restat (p := p) hcu hstu hitemu (addMean · (meanAt u b))
    have hmean : meanAt t a = st.meanOrZero := by rw [meanAt, hstat]; rfl
    have hmean' : meanAt (u.alter (restat (addMean · (meanAt u b))) a) a =
        (addMean (subMean st (meanAt t b)) (meanAt u b)).meanOrZero := by
      rw [meanAt, statFor_alter, if_pos rfl, hstatu]
      rfl
    rw [hup, hrest, hdown, hmean, hmean']
    simp only [sums_subMean, sums_addMean, Option.some.injEq, @eq_comm _ a p]
    by_cases hparent : parent delim a = some p
    · simp only [hparent, if_true]
      by_cases hpa : p = a <;> simp only [hpa, if_true, if_false] <;> abel
    · simp only [hparent, if_false]
      by_cases hpa : p = a <;> simp only [hpa, if_true, if_false] <;> abel

/-- A change of one mean below another directory is the only thing a balance can tell. -/
theorem forall_balance_iff {q : List CChar} {m m' : ℚ} {t u : TSTree ν}
    (ht : ∀ p, p.getLast? = some delim → balance t p = 0)
    (hu : ∀ p, p.getLast? = some delim →
      balance u p = balance t p - if parent delim q = some p then weight m' - weight m else 0) :
    (∀ p, p.getLast? = some delim → balance u p = 0) ↔ ((parent delim q).isSome → m' = m) := by
  constructor
  · intro h hq
    obtain ⟨d, hd⟩ := Option.isSome_iff_exists.mp hq
    have hlast := (parent_eq_some_iff.mp hd).1
    have hbalance := hu d hlast
    rw [h d hlast, ht d hlast, if_pos hd, zero_sub, eq_comm, neg_eq_zero, sub_eq_zero] at hbalance
    exact weight_inj.mp hbalance
  · intro h p hp
    rw [hu p hp, ht p hp, zero_sub, neg_eq_zero]
    split
    · next hq => rw [h (by rw [hq]; rfl), sub_self]
    · rfl

end Balance

/-! ## Updates

Re-tracing moves each balance twice, by the same amount and in opposite directions. -/

section Bound

variable {t : TSTree ν} {key : List CChar} {c : Cell ν} {p : List CChar}

theorem Recorded.listed (ht : Recorded t) (hc : t.get? key = some c) (hv : c.value.isSome) :
    ∀ q ∈ dirs delim key ++ [key], Listed t q := by
  intro q hq
  have hsome := ht.isSome_statFor_of_bound hc hv q hq
  obtain ⟨d, hd⟩ := Option.isSome_iff_exists.mp (isSome_get?_of_statFor hsome)
  obtain ⟨st, hst⟩ := Option.isSome_iff_exists.mp hsome
  refine ⟨d, st, hd, by simpa [statFor, hd] using hst, ?_⟩
  rcases List.mem_append.mp hq with hq | hq
  · exact Or.inl (mem_dirs.mp hq).2
  · obtain rfl : q = key := by simpa using hq
    obtain rfl : c = d := Option.some.inj (hc.symm.trans hd)
    exact Or.inr hv

/-- Along a bound url and its directories, nothing is owed to anyone. -/
theorem balance_retrace_bound (ht : Recorded t) (hc : t.get? key = some c) (hv : c.value.isSome)
    (hkey : key.getLast? ≠ some delim) (new : Stats) (hp : p.getLast? = some delim) :
    balance (retrace new (dirs delim key ++ [key]) t) p = balance t p := by
  have hne : key ≠ p := by
    rintro rfl
    exact hkey hp
  obtain ⟨a, rest, ha⟩ : ∃ a rest, dirs delim key ++ [key] = a :: rest :=
    List.exists_cons_of_ne_nil (by simp)
  have hhead : parent delim a = none := parent_eq_getLast? hkey (ha.trans (List.nil_append _).symm)
  have hchain := isChain_dirs_append hkey
  have hnodup := nodup_dirs_append hkey
  have hlisted := ht.listed hc hv
  have hlast : (dirs delim key ++ [key]).getLast? ≠ some p := by simpa using hne
  rw [ha] at hchain hnodup hlisted hlast ⊢
  rw [balance_retrace new hchain hnodup hlisted hlast, hhead, if_neg (by simp), sub_zero]

/-- **An update keeps the sums right.** -/
theorem rollsUp_retrace (ht : Recorded t) (hsums : RollsUp t) (hc : t.get? key = some c)
    (hv : c.value.isSome) (hkey : key.getLast? ≠ some delim) (new : Stats) :
    RollsUp (retrace new (dirs delim key ++ [key]) t) := by
  rw [rollsUp_iff ht] at hsums
  rw [rollsUp_iff (ht.retrace _ _)]
  intro p hp
  rw [balance_retrace_bound ht hc hv hkey new hp, hsums p hp]

/-- **Collecting a path and re-tracing it**, for any bound url and any new record. -/
theorem update_rollsUp {s : TSTree ν} {u : List CChar} (hs : Recorded s) (hsums : RollsUp s)
    (hu : (valueAt s u).isSome) (hlast : u.getLast? ≠ some delim) (new : Stats) :
    ∃ list s', delimSearch s [] u = .ok (valueAt s u, list) ∧
      updateTracer s list new = .ok (0, s') ∧ statFor s' u = some new ∧ RollsUp s' ∧
      (∀ d, d <+: u → d.getLast? = some delim → ∃ old st, statFor s d = some old ∧
        statFor s' d = some st ∧ st.n = old.n ∧ st.min = old.min ∧ st.max = old.max) ∧
      (∀ q, q ≠ u → ¬ (q <+: u ∧ q.getLast? = some delim) → statFor s' q = statFor s q) := by
  obtain ⟨v, hv⟩ := Option.isSome_iff_exists.mp hu
  obtain ⟨c, hc, hcv⟩ := Option.bind_eq_some_iff.mp hv
  have hbound : c.value.isSome := by rw [hcv]; rfl
  have hstat := hs.isSome_statFor_of_bound hc hbound
  have hnode : (s.get? u).isSome := by rw [hc]; rfl
  have hwalk : deref (s.walk u) = .ok (some c) := by
    obtain ⟨k, low, high, equal, hw⟩ := walk_of_get? hc
    rw [hw]
    rfl
  refine ⟨trail s u, retrace new (dirs delim u ++ [u]) s, ?_, ?_, ?_, ?_, ?_, ?_⟩
  · rw [delimSearch_eq, hwalk, hv, ← hcv]
    rfl
  · rw [trail_eq hnode hlast, updateTracer_eq new hstat, if_neg (by simp)]
  · exact statFor_retrace_last (nodup_dirs_append hlast) List.getLast?_concat
      (hstat u (by simp))
  · exact rollsUp_retrace hs hsums hc hbound hlast new
  · intro d hd hdir
    have hmem : d ∈ dirs delim u := mem_dirs.mpr ⟨hd, hdir⟩
    have hdu : d ≠ u := by
      rintro rfl
      exact hlast hdir
    obtain ⟨old, hold⟩ := Option.isSome_iff_exists.mp (hstat d (List.mem_append_left _ hmem))
    -- a mean goes into a directory by its sums, which leaves the other fields
    let kept : Stats → UInt64 × ℚ × ℚ := fun st => (st.n, st.min, st.max)
    have hkept : (statFor (retrace new (dirs delim u ++ [u]) s) d).map kept =
        (statFor s d).map kept :=
      map_retrace (fun _ _ => rfl) (fun _ _ => rfl) (by simpa [eq_comm] using hdu)
    rw [hold, Option.map_some] at hkept
    obtain ⟨st, hst, heq⟩ := Option.map_eq_some_iff.mp hkept
    obtain ⟨hn, hmin, hmax⟩ := Prod.ext_iff.mp heq |>.imp id Prod.ext_iff.mp
    exact ⟨old, st, hold, hst, hn, hmin, hmax⟩
  · intro q hq hdir
    refine statFor_retrace_of_not_mem fun hmem => ?_
    rcases List.mem_append.mp hmem with hmem | hmem
    · exact hdir (mem_dirs.mp hmem)
    · exact hq (List.mem_singleton.mp hmem)

/-- The directory "a/" with the url "a/b", whose mean is 3. -/
def oneUrl : TSTree ℕ :=
  node 97 nil nil
    (node delim nil nil
      (node 98 nil nil nil ⟨some (Stats.recreate 6 20 2 2 4), some 7⟩)
      ⟨some (Stats.recreate 3 9 1 0 0), none⟩)
    ⟨none, none⟩

theorem update_rollsUp_oneUrl :
    ∃ list s', delimSearch oneUrl [] (cstr "a/b") = .ok (valueAt oneUrl (cstr "a/b"), list) ∧
      updateTracer oneUrl list (Stats.recreate 10 60 5 0 6) = .ok (0, s') ∧
      statFor s' (cstr "a/b") = some (Stats.recreate 10 60 5 0 6) ∧ RollsUp s' ∧
      (∀ d, d <+: cstr "a/b" → d.getLast? = some delim → ∃ old st, statFor oneUrl d = some old ∧
        statFor s' d = some st ∧ st.n = old.n ∧ st.min = old.min ∧ st.max = old.max) ∧
      (∀ q, q ≠ cstr "a/b" → ¬ (q <+: cstr "a/b" ∧ q.getLast? = some delim) →
        statFor s' q = statFor oneUrl q) := by
  have hrecorded : Recorded oneUrl := by
    refine ⟨by simp [oneUrl, Ordered, level], fun e he hitem => ?_⟩
    simp only [oneUrl, entries, List.map_nil, List.map_cons, List.nil_append, List.mem_cons,
      List.not_mem_nil, or_false] at he
    rcases he with rfl | rfl | rfl
    · exact absurd hitem (by decide)
    · rfl
    · rfl
  have hsums : RollsUp oneUrl := by
    intro p c hmem hp
    simp only [oneUrl, entries, List.map_nil, List.map_cons, List.nil_append, List.mem_cons,
      List.not_mem_nil, or_false, Prod.mk.injEq] at hmem
    rcases hmem with ⟨rfl, rfl⟩ | ⟨rfl, rfl⟩ | ⟨rfl, rfl⟩
    · exact absurd hp (by decide)
    · exact ⟨_, rfl, by decide +kernel, by decide +kernel⟩
    · exact absurd hp (by decide)
  exact update_rollsUp hrecorded hsums (by decide) (by decide) (Stats.recreate 10 60 5 0 6)

/-! ## Deletion

A deletion re-traces the means with an empty record for the url, and takes one off the count of the
directory behind that. The mean of the directory has changed then, and the directory above is not told. -/

/-- The record of the url's parent after the re-tracing of a deletion: without the url's mean. -/
theorem statFor_retrace_parent (ht : Regular t) (hc : t.get? key = some c) (hv : c.value.isSome)
    {m : List CChar} {st : Stats} (hm : parent delim key = some m) (hst : statFor t m = some st) :
    statFor (retrace Stats.create (dirs delim key ++ [key]) t) m =
      some (addMean (subMean st (meanAt t key)) 0) := by
  have hkey := ht.getLast?_ne_of_bound hc hv
  rw [parent_eq hkey] at hm
  obtain ⟨l, hl⟩ := List.getLast?_eq_some_iff.mp hm
  have hsplit : dirs delim key ++ [key] = l ++ [m, key] := by rw [hl, List.append_assoc]; rfl
  have hnodup := nodup_dirs_append hkey
  rw [hsplit] at hnodup ⊢
  exact statFor_retrace_prev hnodup hst (ht.isSome_statFor_of_bound hc hv key (by simp))

/-- Freeing the url's value changes no sum: its record is a fresh one by then. -/
theorem balance_deleted (ht : Regular t) (hc : t.get? key = some c) (hv : c.value.isSome) :
    balance (deleted t key) p =
      balance (uncount (parent delim key)
        (retrace Stats.create (dirs delim key ++ [key]) t)) p := by
  obtain ⟨d, hd, hstat, hdv⟩ := get?_deleted_leaf ht hc hv
  have hclear := total_share_clear worth p hd hstat hdv (ht.getLast?_ne_of_bound hc hv)
  rw [worth_create, ite_self, add_zero] at hclear
  rw [balance, balance, deleted, statFor_clear, hclear]

/-- The directory of the url loses one from its count, and the one above it is owed the difference of
the means. -/
theorem balance_deleted_of_parent (ht : Regular t) (hc : t.get? key = some c)
    (hv : c.value.isSome) {m : List CChar} {st : Stats} (hm : parent delim key = some m)
    (hst : statFor t m = some st) (hp : p.getLast? = some delim) :
    balance (deleted t key) p = balance t p - if parent delim m = some p then
      weight (bump (-1) (addMean (subMean st (meanAt t key)) 0)).meanOrZero -
        weight (addMean (subMean st (meanAt t key)) 0).meanOrZero else 0 := by
  have hmem : m ∈ dirs delim key ++ [key] := List.mem_append_left _ (mem_dirs_of_parent hm)
  obtain ⟨d, st', hd, hst', hitem⟩ :=
    (ht.recorded.listed hc hv m hmem).retrace Stats.create (dirs delim key ++ [key])
  obtain rfl : st' = addMean (subMean st (meanAt t key)) 0 := by
    have h := statFor_retrace_parent ht hc hv hm hst
    rw [statFor, hd, Option.bind_some, hst'] at h
    exact Option.some.inj h
  rw [balance_deleted ht hc hv, hm, uncount, balance_restat hd hst' hitem, sums_bump, sub_self,
    ite_self, add_zero,
    balance_retrace_bound ht.recorded hc hv (ht.getLast?_ne_of_bound hc hv) _ hp]

/-- **When a deletion keeps the sums right.** The parent of the url loses one from its count; if it
lies in another directory, the means of its other children have to add up to zero. -/
theorem rollsUp_deleted_iff (ht : Regular t) (hsums : RollsUp t) (hc : t.get? key = some c)
    (hv : c.value.isSome) :
    RollsUp (deleted t key) ↔
      ∀ m st, parent delim key = some m → (parent delim m).isSome → statFor t m = some st →
        st.sum = meanAt t key := by
  rw [rollsUp_iff ht.recorded] at hsums
  rw [rollsUp_iff (ht.deleted key).recorded]
  cases hm : parent delim key with
  | none =>
    -- without a directory there is no count to take down
    refine ⟨fun _ m st h => by simp at h, fun _ p hp => ?_⟩
    rw [balance_deleted ht hc hv, hm, uncount,
      balance_retrace_bound ht.recorded hc hv (ht.getLast?_ne_of_bound hc hv) _ hp, hsums p hp]
  | some m =>
    obtain ⟨st, hst⟩ := Option.isSome_iff_exists.mp (ht.isSome_statFor_of_bound hc hv m
      (List.mem_append_left _ (mem_dirs_of_parent hm)))
    rw [forall_balance_iff hsums fun p hp => balance_deleted_of_parent ht hc hv hm hst hp,
      meanOrZero_bump_eq_iff (by decide)]
    -- one less to count changes the mean, unless what is left of the sum is zero
    have hsum : (addMean (subMean st (meanAt t key)) 0).sum = 0 ↔ st.sum = meanAt t key := by
      simp [addMean, subMean, sub_eq_zero]
    rw [hsum]
    constructor
    · intro h m' st' hm' hparent hst'
      obtain rfl := Option.some.inj hm'
      obtain rfl := Option.some.inj (hst.symm.trans hst')
      exact h hparent
    · intro h hparent
      exact h m st rfl hparent hst

end Bound

/-! ## Insertion

An insertion counts and does not re-trace. A directory that it creates has zero sums, so counting there
changes no mean; the one that was there before may have a mean, and may lie in a directory. -/

section Insert

variable {t : TSTree ν} {key : List CChar} (value : ν) {p : List CChar}

theorem sums_created (ht : Regular t) (hkey : key.getLast? ≠ some delim)
    (hv : valueAt t key = none) (hp : p.getLast? = some delim) :
    (statFor (created t key value) p).elim 0 sums = (statFor t p).elim 0 sums := by
  rw [statFor_created value ht hkey hv hp]
  split
  · next habsent =>
    rw [statFor, (mem_absent.mp habsent).2]
    rfl
  · split
    · cases statFor t p <;> rfl
    · rfl

/-- Counting at nodes that hold no sum changes no mean. -/
theorem total_worth_foldl_absent (t : TSTree ν) (key p : List CChar) (u : TSTree ν)
    (hu : ∀ q ∈ absent t key, statFor u q = some Stats.create) :
    ((absent t key).foldl (fun t q => t.alter (restat (bump 1)) q) u).total (share worth p) =
      u.total (share worth p) := by
  refine total_foldl_alter_of_eq (nodup_absent t key) fun q hq d hd => ?_
  have hstat : d.stat = some Stats.create := by simpa [statFor, hd] using hu q hq
  have hbump : worth (some (bump 1 Stats.create)) = 0 := by
    simp [worth, weight, Stats.meanOrZero_eq_div, bump, Stats.create, Stats.recreate]
  have hstat' : (restat (bump 1) d).stat = some (bump 1 Stats.create) := by simp [restat, hstat]
  simp only [share, hstat, hstat', hbump, worth_create, ite_self]

/-- What an insertion adds to the sums over the children is nothing: a new node has no mean. -/
theorem total_worth_upsert (ht : Regular t) (hne : key ≠ []) (hkey : key.getLast? ≠ some delim)
    (hv : valueAt t key = none) :
    (upsert freshCell (bindFresh value) key t).total (share worth p) =
      t.total (share worth p) := by
  rw [total_share_upsert worth p ht value hne hkey hv, worth_create, smul_zero, add_zero]

/-- Without a '/' node on its way, an insertion changes no record that was there. -/
theorem balance_created_of_credited_eq_none (ht : Regular t) (hne : key ≠ [])
    (hkey : key.getLast? ≠ some delim) (hv : valueAt t key = none) (hx : credited t key = none)
    (hp : p.getLast? = some delim) : balance (created t key value) p = balance t p := by
  have habsent := total_worth_foldl_absent t key p
    (upsert freshCell (bindFresh value) key t) fun q hq => by
      rw [statFor_upsert value ht.live hkey (mem_dirs.mp (mem_absent.mp hq).1).2, if_pos hq]
  rw [balance, sums_created value ht hkey hv hp, created, hv, hx, if_neg (by simp), Option.toList,
    List.nil_append, habsent, total_worth_upsert value ht hne hkey hv, balance]

/-- With one, the mean of that node may change, and its directory is owed the difference. -/
theorem balance_created_of_credited (ht : Regular t) (hne : key ≠ [])
    (hkey : key.getLast? ≠ some delim) (hv : valueAt t key = none) {x : List CChar} {st : Stats}
    (hx : credited t key = some x) (hst : statFor t x = some st) (hp : p.getLast? = some delim) :
    balance (created t key value) p = balance t p - if parent delim x = some p then
      weight (bump 1 st).meanOrZero - weight st.meanOrZero else 0 := by
  obtain ⟨hlast, -, -⟩ := credited_spec ht.ordered hx
  have hpresent : x ∉ absent t key := by
    intro h
    rw [statFor, (mem_absent.mp h).2] at hst
    simp at hst
  have hstat := statFor_upsert value ht.live hkey hlast
  rw [if_neg hpresent, hst] at hstat
  obtain ⟨d, hd, hdst⟩ := Option.bind_eq_some_iff.mp hstat
  have hcredit := total_share_restat worth p hd hdst (Or.inl hlast) (bump 1)
  rw [total_worth_upsert value ht hne hkey hv] at hcredit
  -- the new directories are counted at too, but have no mean to change
  have habsent := total_worth_foldl_absent t key p
    ((upsert freshCell (bindFresh value) key t).alter (restat (bump 1)) x) fun q hq => by
      have hqx : q ≠ x := fun h => hpresent (h ▸ hq)
      rw [statFor_alter, if_neg hqx,
        statFor_upsert value ht.live hkey (mem_dirs.mp (mem_absent.mp hq).1).2, if_pos hq]
  rw [balance, sums_created value ht hkey hv hp, created, hv, hx, if_neg (by simp), Option.toList,
    List.singleton_append, List.foldl_cons, habsent, balance]
  rw [← eq_sub_iff_add_eq] at hcredit
  rw [hcredit]
  simp only [worth_some]
  split <;> abel

/-- **When an insertion keeps the sums right.** It adds one to the count of the last '/' node its
walk passes; if that node lies in another directory, its sum has to be zero. -/
theorem rollsUp_created_iff (ht : Regular t) (hsums : RollsUp t) (hne : key ≠ [])
    (hkey : key.getLast? ≠ some delim) :
    RollsUp (created t key value) ↔
      (valueAt t key).isSome ∨
        ∀ x st, credited t key = some x → (parent delim x).isSome → statFor t x = some st →
          st.sum = 0 := by
  by_cases hbound : (valueAt t key).isSome
  · simp [created, hbound, hsums]
  have hv : valueAt t key = none := by simpa using hbound
  rw [rollsUp_iff ht.recorded] at hsums
  rw [rollsUp_iff (ht.created value hkey).recorded]
  simp only [hbound, Bool.false_eq_true, false_or]
  cases hx : credited t key with
  | none =>
    refine ⟨fun _ x st h => by simp at h, fun _ p hp => ?_⟩
    rw [balance_created_of_credited_eq_none value ht hne hkey hv hx hp, hsums p hp]
  | some x =>
    -- only the directory that is credited with a child changes its mean
    obtain ⟨hlast, -, -⟩ := credited_spec ht.ordered hx
    obtain ⟨st, hst⟩ := Option.isSome_iff_exists.mp
      (ht.isSome_statFor_dir hlast (isSome_get?_of_credited ht.ordered hx))
    rw [forall_balance_iff hsums fun p hp =>
        balance_created_of_credited value ht hne hkey hv hx hst hp,
      meanOrZero_bump_eq_iff (by decide)]
    constructor
    · intro h x' st' hx' hparent hst'
      obtain rfl := Option.some.inj hx'
      obtain rfl := Option.some.inj (hst.symm.trans hst')
      exact h hparent
    · intro h hparent
      exact h x st rfl hparent hst

end Insert

end Lcthw.TSTree
