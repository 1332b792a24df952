import Lcthw.DArray.Quicksort

/-!
# Lcthw — `DArray_heapsort` (`darray_algos.c`)

A pass of `build_maxheap` goes once over all pairs of siblings, from the last one up, and never down
again. So it leaves no heap; but the largest element, wherever it stands, is moved in front of every
pair that is passed.

* **`Tops`**: a largest element stands among the first `k`.
* **`heapsort_sorts`**: each pass brings a largest element to the front, and the passes over ever fewer
  elements sort them.
-/

namespace Lcthw.DArray

variable {α : Type}

/-! ## The code

The two loops of `build_maxheap` differ in how they find the sibling of a slot, by the number of slots
being odd or even. Each round compares a pair of siblings with each other, and the larger of them with
the parent. -/

/-- The larger of the siblings `i` and `i - 1`, when the number of slots is odd. -/
def largeOdd (cmp : Option α → Option α → ℤ) (array : List (Option α)) (i : ℕ) : Except Fault ℕ := do
  let x ← readAt array i
  let y ← readAt array (i - 1 : ℕ)
  return if cmp x y > 0 then i else i - 1

/-- The larger of the siblings `i` and `i + 1`, when the number of slots is even. The last one has no
sibling. -/
def largeEven (cmp : Option α → Option α → ℤ) (heapsize : ℤ) (array : List (Option α)) (i : ℕ) :
    Except Fault ℕ :=
  if i = heapsize - 1 then pure i
  else do
    let x ← readAt array i
    let y ← readAt array (i + 1 : ℕ)
    return if cmp x y > 0 then i else i + 1

/-- The body of the two loops of `build_maxheap`. -/
def raise (cmp : Option α → Option α → ℤ) (large : List (Option α) → ℕ → Except Fault ℕ)
    (array : List (Option α)) (i : ℕ) : Except Fault (List (Option α)) := do
  let large ← large array i
  let x ← readAt array ((i - 1) / 2 : ℕ)
  let y ← readAt array large
  if cmp x y < 0 then swap array ((i - 1) / 2 : ℕ) large else pure array

/-- Both loops count down by 2. -/
def sweep (cmp : Option α → Option α → ℤ) (large : List (Option α) → ℕ → Except Fault ℕ) :
    ℕ → List (Option α) → Except Fault (List (Option α))
  | 0, array => pure array
  | 1, array => raise cmp large array 1
  | i + 2, array => do
    let array ← raise cmp large array (i + 2)
    sweep cmp large i array

/-- `build_maxheap` -/
def buildMaxheap (cmp : Option α → Option α → ℤ) (array : List (Option α)) (heapsize : ℤ) :
    Except Fault (List (Option α)) :=
  if (heapsize - 1).tmod 2 = 0 then sweep cmp (largeOdd cmp) (heapsize - 1).toNat array
  else sweep cmp (largeEven cmp heapsize) (heapsize - 1).toNat array

/-- The loop of `heapsort`. -/
def drain (cmp : Option α → Option α → ℤ) :
    ℕ → List (Option α) → Except Fault (List (Option α))
  | 0, array => pure array
  | i + 1, array => do
    let array ← swap array 0 (i + 1 : ℕ)
    let array ← buildMaxheap cmp array (i + 1 : ℕ)
    drain cmp i array

/-- The static `heapsort`. -/
def Algos.heapsort (cmp : Option α → Option α → ℤ) (array : List (Option α)) (heapsize : ℤ) :
    Except Fault (List (Option α)) := do
  let array ← buildMaxheap cmp array heapsize
  drain cmp (heapsize - 1).toNat array

/-- `DArray_heapsort` -/
def heapsort (array : DArray α) (cmp : Option α → Option α → ℤ) : Except Fault (DArray α) := do
  let contents ← Algos.heapsort cmp array.contents array.end
  return { array with contents }

/-! ## Slots behind those in use

A pass works on the first slots. What is behind them is carried along unchanged, so the lemmas about a
pass need not mention it. -/

section Append

variable {cmp : Option α → Option α → ℤ} {large : List (Option α) → ℕ → Except Fault ℕ}
  {xs ys rest : List (Option α)} {i j : ℕ} {x : Option α}

theorem readAt_append {i : ℤ} (h : readAt xs i = .ok x) : readAt (xs ++ rest) i = .ok x := by
  unfold readAt at h ⊢
  split at h
  · next hi =>
    rw [if_pos hi]
    split at h
    · next y hy =>
      rw [List.getElem?_append_left (List.getElem?_eq_some_iff.mp hy).1, hy]
      exact h
    · cases h
  · cases h

theorem writeAt_append {i : ℤ} (h : writeAt xs i x = .ok ys) :
    writeAt (xs ++ rest) i x = .ok (ys ++ rest) := by
  unfold writeAt at h ⊢
  split at h
  · next hi =>
    obtain rfl := Except.ok.inj h
    have hlt : i.toNat < xs.length := by omega
    rw [List.length_append, if_pos (by omega), List.set_append_left _ _ hlt]
    rfl
  · cases h

theorem swap_append {a b : ℤ} (h : swap xs a b = .ok ys) :
    swap (xs ++ rest) a b = .ok (ys ++ rest) := by
  obtain ⟨x, hx, h⟩ := bind_eq_ok.mp h
  obtain ⟨y, hy, h⟩ := bind_eq_ok.mp h
  obtain ⟨zs, hzs, h⟩ := bind_eq_ok.mp h
  unfold swap
  rw [readAt_append hx, ok_bind, readAt_append hy, ok_bind, writeAt_append hzs, ok_bind]
  exact writeAt_append h

theorem largeOdd_append (h : largeOdd cmp xs i = .ok j) : largeOdd cmp (xs ++ rest) i = .ok j := by
  obtain ⟨x, hx, h⟩ := bind_eq_ok.mp h
  obtain ⟨y, hy, h⟩ := bind_eq_ok.mp h
  unfold largeOdd
  rw [readAt_append hx, ok_bind, readAt_append hy, ok_bind]
  exact h

theorem largeEven_append {heapsize : ℤ} (h : largeEven cmp heapsize xs i = .ok j) :
    largeEven cmp heapsize (xs ++ rest) i = .ok j := by
  unfold largeEven at h ⊢
  split at h
  · next hlast =>
    rw [if_pos hlast]
    exact h
  · next hlast =>
    obtain ⟨x, hx, h⟩ := bind_eq_ok.mp h
    obtain ⟨y, hy, h⟩ := bind_eq_ok.mp h
    rw [if_neg hlast, readAt_append hx, ok_bind, readAt_append hy, ok_bind]
    exact h

variable (hlarge : ∀ {xs : List (Option α)} {i j}, large xs i = .ok j → large (xs ++ rest) i = .ok j)

include hlarge

/-- A step in front of an index does not see what is behind it. -/
theorem raise_append (h : raise cmp large xs i = .ok ys) :
    raise cmp large (xs ++ rest) i = .ok (ys ++ rest) := by
  obtain ⟨j, hj, h⟩ := bind_eq_ok.mp h
  obtain ⟨x, hx, h⟩ := bind_eq_ok.mp h
  obtain ⟨y, hy, h⟩ := bind_eq_ok.mp h
  unfold raise
  rw [hlarge hj, ok_bind, readAt_append hx, ok_bind, readAt_append hy, ok_bind]
  split at h
  · next hlt =>
    rw [if_pos hlt]
    exact swap_append h
  · next hlt =>
    obtain rfl := Except.ok.inj h
    rw [if_neg hlt]
    rfl

theorem sweep_append (h : sweep cmp large i xs = .ok ys) :
    sweep cmp large i (xs ++ rest) = .ok (ys ++ rest) := by
  induction i, xs using sweep.induct with
  | case1 xs =>
    obtain rfl := Except.ok.inj h
    rfl
  | case2 xs => exact raise_append hlarge h
  | case3 i xs ih =>
    obtain ⟨zs, hzs, h⟩ := bind_eq_ok.mp h
    unfold sweep
    rw [raise_append hlarge hzs, ok_bind]
    exact ih zs h

end Append

/-- A pass over the first slots has no use for the others. -/
theorem buildMaxheap_append {cmp : Option α → Option α → ℤ} {xs ys rest : List (Option α)}
    {heapsize : ℤ} (h : buildMaxheap cmp xs heapsize = .ok ys) :
    buildMaxheap cmp (xs ++ rest) heapsize = .ok (ys ++ rest) := by
  unfold buildMaxheap at h ⊢
  split at h
  · next hodd =>
    rw [if_pos hodd]
    exact sweep_append largeOdd_append h
  · next heven =>
    rw [if_neg heven]
    exact sweep_append largeEven_append h

/-! ## One pass

A pass builds no heap, but it keeps a largest element in front of what it has passed. At the end only
the first slot is in front. -/

/-- One of the first `k` elements is a largest one. -/
def Tops (cmp : Option α → Option α → ℤ) (xs : List (Option α)) (k : ℕ) : Prop :=
  ∃ j < k, ∃ top, xs[j]? = some top ∧ ∀ x ∈ xs, cmp x top ≤ 0

section Pass

variable {cmp : Option α → Option α → ℤ} {large : List (Option α) → ℕ → Except Fault ℕ}
  {xs ys : List (Option α)} {i k : ℕ}

/-- Some element is a largest one. -/
theorem exists_top (order : Comparator (Option α)) (h : xs ≠ []) :
    ∃ top ∈ xs, ∀ x ∈ xs, order.compare x top ≤ 0 := by
  induction xs with
  | nil => exact absurd rfl h
  | cons x xs ih =>
    by_cases hxs : xs = []
    · subst hxs
      refine ⟨x, List.mem_singleton_self x, fun y hy => ?_⟩
      rw [List.mem_singleton.mp hy, order.self]
    · obtain ⟨top, hmem, htop⟩ := ih hxs
      rcases le_total (order.compare x top) 0 with hle | hge
      · refine ⟨top, List.mem_cons_of_mem x hmem, fun y hy => ?_⟩
        rcases List.mem_cons.mp hy with rfl | hy
        · exact hle
        · exact htop y hy
      · have hge' : order.compare top x ≤ 0 := order.le_iff_ge.mpr hge
        refine ⟨x, List.mem_cons_self, fun y hy => ?_⟩
        rcases List.mem_cons.mp hy with rfl | hy
        · exact (order.self y).le
        · exact order.le_trans y top x (htop y hy) hge'

theorem Tops.mono {l : ℕ} (h : Tops cmp xs k) (hkl : k ≤ l) : Tops cmp xs l := by
  obtain ⟨j, hj, htop⟩ := h
  exact ⟨j, hj.trans_le hkl, htop⟩

/-- The first element is a largest one. -/
theorem Tops.head {top : Option α} (h : Tops cmp xs 1) (htop : xs[0]? = some top) :
    ∀ x ∈ xs, cmp x top ≤ 0 := by
  obtain ⟨j, hj, y, hy, hmax⟩ := h
  obtain rfl : j = 0 := by omega
  obtain rfl := Option.some.inj (hy.symm.trans htop)
  exact hmax

theorem tops_length (order : Comparator (Option α)) (h : xs ≠ []) :
    Tops order.compare xs xs.length := by
  obtain ⟨top, hmem, htop⟩ := exists_top order h
  obtain ⟨j, hj⟩ := List.mem_iff_getElem?.mp hmem
  exact ⟨j, (List.getElem?_eq_some_iff.mp hj).1, top, hj, htop⟩

/-- **The body of the loops**, for a pair of siblings between `lo` and `hi` and their parent in front
of them. -/
theorem raise_eq {l : ℕ} (lo hi : ℕ) (hlarge : large xs i = .ok l) (hl : l < xs.length) (hlo : lo ≤ l)
    (hparent : (i - 1) / 2 < lo) :
    ∃ ys, raise cmp large xs i = .ok ys ∧ ys.Perm xs ∧
      ∀ order : Comparator (Option α), order.compare = cmp →
        (∀ j x y, lo ≤ j → j ≤ hi → xs[j]? = some x → xs[l]? = some y → cmp x y ≤ 0) →
        Tops cmp xs (hi + 1) → Tops cmp ys lo := by
  obtain ⟨p, hp⟩ : ∃ p, (i - 1) / 2 = p := ⟨_, rfl⟩
  rw [hp] at hparent
  have hplt : p < xs.length := by omega
  obtain ⟨x, hx⟩ : ∃ x, xs[p]? = some x := ⟨_, List.getElem?_eq_getElem hplt⟩
  obtain ⟨y, hy⟩ : ∃ y, xs[l]? = some y := ⟨_, List.getElem?_eq_getElem hl⟩
  unfold raise
  rw [hlarge, ok_bind, hp, readAt_eq hx, ok_bind, readAt_eq hy, ok_bind]
  by_cases hlt : cmp x y < 0
  · rw [if_pos hlt, swap_eq hx hy]
    have hperm := swap_perm hx hy
    refine ⟨_, rfl, hperm, ?_⟩
    rintro order rfl hpair ⟨j, hj, top, htop, hmax⟩
    by_cases hjlo : j < lo
    · -- a largest element in front of the pair is not the parent, which is below its larger child
      have hjp : p ≠ j := by
        rintro rfl
        obtain rfl := Option.some.inj (hx.symm.trans htop)
        have := order.le_iff_ge.mp (hmax y (List.mem_of_getElem? hy))
        omega
      refine ⟨j, hjlo, top, ?_, fun z hz => hmax z (hperm.mem_iff.mp hz)⟩
      rw [List.getElem?_set_ne (by omega), List.getElem?_set_ne hjp, htop]
    · -- the larger sibling is a largest element, and comes to the place of its parent
      refine ⟨p, hparent, y, ?_, fun z hz => ?_⟩
      · rw [List.getElem?_set_ne (by omega), List.getElem?_set_self hplt]
      · have hty := hpair j top y (not_lt.mp hjlo) (Nat.le_of_lt_succ hj) htop hy
        exact order.le_trans z top y (hmax z (hperm.mem_iff.mp hz)) hty
  · rw [if_neg hlt]
    refine ⟨xs, rfl, List.Perm.refl xs, ?_⟩
    rintro order rfl hpair ⟨j, hj, top, htop, hmax⟩
    by_cases hjlo : j < lo
    · exact ⟨j, hjlo, top, htop, hmax⟩
    · -- the larger sibling is a largest element, and its parent is as large
      refine ⟨p, hparent, x, hx, fun z hz => ?_⟩
      have hty := hpair j top y (not_lt.mp hjlo) (Nat.le_of_lt_succ hj) htop hy
      have hyx := order.le_iff_ge.mpr (not_lt.mp hlt)
      exact order.le_trans z y x (order.le_trans z top y (hmax z hz) hty) hyx

/-- The larger of two siblings. -/
theorem le_larger (order : Comparator (Option α)) {a b j : ℕ} {x y u v : Option α}
    (hx : xs[a]? = some x) (hy : xs[b]? = some y) (hj : j = a ∨ j = b) (hu : xs[j]? = some u)
    (hv : xs[if order.compare x y > 0 then a else b]? = some v) : order.compare u v ≤ 0 := by
  split at hv
  · next hgt =>
    obtain rfl := Option.some.inj (hx.symm.trans hv)
    rcases hj with rfl | rfl
    · obtain rfl := Option.some.inj (hu.symm.trans hx)
      exact (order.self u).le
    · obtain rfl := Option.some.inj (hu.symm.trans hy)
      exact order.le_iff_ge.mpr hgt.le
  · next hle =>
    obtain rfl := Option.some.inj (hy.symm.trans hv)
    rcases hj with rfl | rfl
    · obtain rfl := Option.some.inj (hu.symm.trans hx)
      exact not_lt.mp hle
    · obtain rfl := Option.some.inj (hu.symm.trans hy)
      exact (order.self u).le

/-- The siblings `i - 1` and `i` of an odd number of slots. -/
theorem raise_odd (cmp : Option α → Option α → ℤ) (hi : i < xs.length) (hpos : 2 ≤ i) :
    ∃ ys, raise cmp (largeOdd cmp) xs i = .ok ys ∧ ys.Perm xs ∧
      ∀ order : Comparator (Option α), order.compare = cmp →
        Tops cmp xs (i + 1) → Tops cmp ys (i - 1) := by
  obtain ⟨x, hx⟩ : ∃ x, xs[i]? = some x := ⟨_, List.getElem?_eq_getElem hi⟩
  obtain ⟨y, hy⟩ : ∃ y, xs[i - 1]? = some y := ⟨_, List.getElem?_eq_getElem (by omega)⟩
  have hlarge : largeOdd cmp xs i = .ok (if cmp x y > 0 then i else i - 1) := by
    unfold largeOdd
    rw [readAt_eq hx, ok_bind, readAt_eq hy]
    rfl
  obtain ⟨ys, hrun, hperm, htops⟩ := raise_eq (i - 1) i hlarge
    (by split <;> omega) (by split <;> omega) (by omega)
  refine ⟨ys, hrun, hperm, ?_⟩
  rintro order rfl htop
  refine htops order rfl ?_ htop
  intro j u v hlo hhi hu hv
  exact le_larger order hx hy (by omega) hu hv

/-- The siblings `i` and `i + 1` of an even number of slots, or the last slot. -/
theorem raise_even (cmp : Option α → Option α → ℤ) (hi : i < xs.length) (hpos : 1 ≤ i) :
    ∃ ys, raise cmp (largeEven cmp xs.length) xs i = .ok ys ∧ ys.Perm xs ∧
      ∀ order : Comparator (Option α), order.compare = cmp →
        Tops cmp xs (i + 2) → Tops cmp ys i := by
  obtain ⟨x, hx⟩ : ∃ x, xs[i]? = some x := ⟨_, List.getElem?_eq_getElem hi⟩
  by_cases hlast : i + 1 = xs.length
  · -- the last slot has no sibling behind it
    have hlarge : largeEven cmp xs.length xs i = .ok i := if_pos (by omega)
    obtain ⟨ys, hrun, hperm, htops⟩ := raise_eq i (i + 1) hlarge hi le_rfl (by omega)
    refine ⟨ys, hrun, hperm, ?_⟩
    rintro order rfl htop
    refine htops order rfl ?_ htop
    intro j u v hlo hhi hu hv
    have hj : j < xs.length := (List.getElem?_eq_some_iff.mp hu).1
    obtain rfl : j = i := by omega
    obtain rfl := Option.some.inj (hu.symm.trans hv)
    exact (order.self u).le
  · obtain ⟨y, hy⟩ : ∃ y, xs[i + 1]? = some y := ⟨_, List.getElem?_eq_getElem (by omega)⟩
    have hlarge : largeEven cmp xs.length xs i = .ok (if cmp x y > 0 then i else i + 1) := by
      unfold largeEven
      rw [if_neg (by omega), readAt_eq hx, ok_bind, readAt_eq hy]
      rfl
    obtain ⟨ys, hrun, hperm, htops⟩ := raise_eq i (i + 1) hlarge
      (by split <;> omega) (by split <;> omega) (by omega)
    refine ⟨ys, hrun, hperm, ?_⟩
    rintro order rfl htop
    refine htops order rfl ?_ htop
    intro j u v hlo hhi hu hv
    exact le_larger order hx hy (by omega) hu hv

/-- **The loops.** A largest element among the first `i + 1 + b` ends up in front; `b` is 1 where the
siblings of `i` come behind it. -/
theorem sweep_eq (cmp : Option α → Option α → ℤ) (large : List (Option α) → ℕ → Except Fault ℕ)
    (xs : List (Option α)) (b : ℕ)
    (hraise : ∀ (zs : List (Option α)) (i : ℕ), zs.length = xs.length → 1 ≤ i → i < xs.length →
      i % 2 = b → ∃ ys, raise cmp large zs i = .ok ys ∧ ys.Perm zs ∧
        ∀ order : Comparator (Option α), order.compare = cmp →
          Tops cmp zs (i + 1 + b) → Tops cmp ys (i - 1 + b)) :
    ∀ (i : ℕ) (zs : List (Option α)), zs.length = xs.length → (1 ≤ i → i < xs.length) → i % 2 = b →
      ∃ ys, sweep cmp large i zs = .ok ys ∧ ys.Perm zs ∧
        ∀ order : Comparator (Option α), order.compare = cmp →
          Tops cmp zs (i + 1 + b) → Tops cmp ys 1
  | 0, zs, _, _, hb => by
    subst hb
    exact ⟨zs, rfl, List.Perm.refl zs, fun _ _ htop => htop⟩
  | 1, zs, hlength, hi, hb => by
    obtain ⟨ys, hrun, hperm, htops⟩ := hraise zs 1 hlength le_rfl (hi le_rfl) hb
    subst hb
    exact ⟨ys, hrun, hperm, htops⟩
  | i + 2, zs, hlength, hi, hb => by
    have hlt := hi (by omega)
    obtain ⟨ys, hrun, hperm, htops⟩ := hraise zs (i + 2) hlength (by omega) hlt hb
    obtain ⟨ws, hrun', hperm', htops'⟩ := sweep_eq cmp large xs b hraise i ys
      (hperm.length_eq.trans hlength) (fun _ => by omega) (by omega)
    refine ⟨ws, ?_, hperm'.trans hperm, fun order horder htop => ?_⟩
    · rw [sweep, hrun, ok_bind, hrun']
    · exact htops' order horder (htops order horder htop)

/-- **A pass over an odd number of slots** -/
theorem sweep_odd (cmp : Option α → Option α → ℤ) (hodd : xs.length % 2 = 1) :
    ∃ ys, sweep cmp (largeOdd cmp) (xs.length - 1) xs = .ok ys ∧ ys.Perm xs ∧
      ∀ order : Comparator (Option α), order.compare = cmp → Tops cmp ys 1 := by
  have hne : xs ≠ [] := by
    rintro rfl
    cases hodd
  obtain ⟨ys, hrun, hperm, htops⟩ := sweep_eq cmp (largeOdd cmp) xs 0
    (fun zs i hlength hpos hi hb => raise_odd cmp (hlength ▸ hi) (by omega)) (xs.length - 1) xs rfl
    (fun _ => by omega) (by omega)
  refine ⟨ys, hrun, hperm, ?_⟩
  rintro order rfl
  exact htops order rfl ((tops_length order hne).mono (by omega))

/-- **A pass over an even number of slots** -/
theorem sweep_even (cmp : Option α → Option α → ℤ) (heven : xs.length % 2 = 0) (hne : xs ≠ []) :
    ∃ ys, sweep cmp (largeEven cmp xs.length) (xs.length - 1) xs = .ok ys ∧ ys.Perm xs ∧
      ∀ order : Comparator (Option α), order.compare = cmp → Tops cmp ys 1 := by
  have hpos := List.length_pos_iff.mpr hne
  have hraise : ∀ (zs : List (Option α)) (i : ℕ), zs.length = xs.length → 1 ≤ i → i < xs.length →
      i % 2 = 1 → ∃ ys, raise cmp (largeEven cmp xs.length) zs i = .ok ys ∧ ys.Perm zs ∧
        ∀ order : Comparator (Option α), order.compare = cmp →
          Tops cmp zs (i + 1 + 1) → Tops cmp ys (i - 1 + 1) := by
    intro zs i hlength hi hlt hb
    rw [← hlength] at hlt ⊢
    rw [Nat.sub_add_cancel hi]
    exact raise_even cmp hlt hi
  obtain ⟨ys, hrun, hperm, htops⟩ := sweep_eq cmp (largeEven cmp xs.length) xs 1 hraise
    (xs.length - 1) xs rfl (fun _ => by omega) (by omega)
  refine ⟨ys, hrun, hperm, ?_⟩
  rintro order rfl
  exact htops order rfl ((tops_length order hne).mono (by omega))

/-- **One pass** over all of some elements leaves a largest one in front. -/
theorem buildMaxheap_eq (cmp : Option α → Option α → ℤ) (xs : List (Option α)) :
    ∃ ys, ys.Perm xs ∧ (∀ rest, buildMaxheap cmp (xs ++ rest) xs.length = .ok (ys ++ rest)) ∧
      ∀ order : Comparator (Option α), order.compare = cmp →
        ∀ top, ys[0]? = some top → ∀ x ∈ ys, cmp x top ≤ 0 := by
  have hcount : ((xs.length : ℤ) - 1).toNat = xs.length - 1 := by omega
  by_cases hne : xs = []
  · subst hne
    exact ⟨[], List.Perm.refl _, fun rest => rfl, fun _ _ top htop => by cases htop⟩
  have hpos := List.length_pos_iff.mpr hne
  have hrem : ((xs.length : ℤ) - 1).tmod 2 = (xs.length - 1) % 2 :=
    Int.tmod_eq_emod_of_nonneg (by omega)
  by_cases hodd : xs.length % 2 = 1
  · obtain ⟨ys, hrun, hperm, htops⟩ := sweep_odd cmp hodd
    refine ⟨ys, hperm, fun rest => buildMaxheap_append ?_, fun order horder top htop => ?_⟩
    · unfold buildMaxheap
      rw [if_pos (by omega), hcount, hrun]
    · exact (htops order horder).head htop
  · obtain ⟨ys, hrun, hperm, htops⟩ := sweep_even cmp (by omega) hne
    refine ⟨ys, hperm, fun rest => buildMaxheap_append ?_, fun order horder top htop => ?_⟩
    · unfold buildMaxheap
      rw [if_neg (by omega), hcount, hrun]
    · exact (htops order horder).head htop

end Pass

/-! ## All passes

Each pass over the first `k` slots brings a largest element to the front, which is then put behind them,
where the larger ones are already. That it is a permutation and in order is carried along together. -/

/-- **The loop of `heapsort`** on some elements, of which the first is a largest one. -/
theorem drain_eq (cmp : Option α → Option α → ℤ) {i : ℕ} {xs : List (Option α)}
    (hlength : xs.length = i + 1) :
    ∃ ys, ys.Perm xs ∧ (∀ rest, drain cmp i (xs ++ rest) = .ok (ys ++ rest)) ∧
      ∀ order : Comparator (Option α), order.compare = cmp →
        (∀ top, xs[0]? = some top → ∀ x ∈ xs, cmp x top ≤ 0) → Ascending cmp ys := by
  induction i generalizing xs with
  | zero =>
    obtain ⟨x, rfl⟩ := List.length_eq_one_iff.mp hlength
    exact ⟨[x], List.Perm.refl _, fun _ => rfl, fun _ _ _ => List.pairwise_singleton _ x⟩
  | succ i ih =>
    obtain ⟨top, tail, rfl⟩ := List.exists_cons_of_length_eq_add_one hlength
    obtain rfl | ⟨mid, x, rfl⟩ := List.eq_nil_or_concat' tail
    · cases hlength
    have hmid : (x :: mid).length = i + 1 := by
      simp only [List.length_cons, List.length_append, List.length_nil] at hlength ⊢
      omega
    -- the largest element goes to the end, and a pass over the others brings the next one to the front
    obtain ⟨zs, hzs, hpass, hfront⟩ := buildMaxheap_eq cmp (x :: mid)
    obtain ⟨ys, hys, hrun, hsort⟩ := ih (hzs.length_eq.trans hmid)
    have hperm : ys.Perm (x :: mid) := hys.trans hzs
    have hall : (ys ++ [top]).Perm (top :: (mid ++ [x])) :=
      (List.perm_append_singleton top ys).trans
        ((hperm.trans (List.perm_append_singleton x mid).symm).cons top)
    refine ⟨ys ++ [top], hall, fun rest => ?_, ?_⟩
    · have harray : top :: (mid ++ [x]) ++ rest = top :: mid ++ x :: rest := by simp
      have hswap : swap (top :: mid ++ x :: rest) 0 (i + 1 : ℕ) = .ok (x :: mid ++ top :: rest) := by
        rw [← hmid]
        exact swap_apart [] mid rest top x
      have hpass' := hpass (top :: rest)
      rw [hmid] at hpass'
      rw [harray, drain, hswap, ok_bind, hpass', ok_bind, hrun, List.append_assoc]
      rfl
    · rintro order rfl htop
      refine List.pairwise_append.mpr ⟨hsort order rfl (hfront order rfl),
        List.pairwise_singleton _ top, fun y hy z hz => ?_⟩
      rw [List.mem_singleton.mp hz]
      exact htop top rfl y (hall.mem_iff.mp (List.mem_append_left _ hy))

/-- **`heapsort`** on some elements that have others behind them. -/
theorem heapsort_eq (cmp : Option α → Option α → ℤ) (xs : List (Option α)) :
    ∃ ys, ys.Perm xs ∧ (∀ order : Comparator (Option α), order.compare = cmp → Ascending cmp ys) ∧
      ∀ rest, Algos.heapsort cmp (xs ++ rest) xs.length = .ok (ys ++ rest) := by
  obtain ⟨zs, hzs, hpass, hfront⟩ := buildMaxheap_eq cmp xs
  by_cases hne : xs = []
  · subst hne
    exact ⟨[], List.Perm.refl _, fun _ _ => List.Pairwise.nil, fun rest => rfl⟩
  obtain ⟨i, hi⟩ : ∃ i, xs.length = i + 1 := Nat.exists_eq_add_one.mpr (List.length_pos_iff.mpr hne)
  have hlength : zs.length = i + 1 := hzs.length_eq.trans hi
  have hcount : ((xs.length : ℤ) - 1).toNat = i := by omega
  obtain ⟨ys, hys, hrun, hsort⟩ := drain_eq cmp hlength
  refine ⟨ys, hys.trans hzs, fun order horder => hsort order horder (hfront order horder), ?_⟩
  intro rest
  unfold Algos.heapsort
  rw [hpass, ok_bind, hcount, hrun]

/-- **`DArray_heapsort` sorts**, for each pass leaves a largest element in front. What is said about a
block is said about the slots in use and any others behind them. -/
theorem heapsort_sorts (order : Comparator (Option α)) :
    (∀ xs : List (Option α), ∃ ys, ys.Perm xs ∧
      (∀ rest, buildMaxheap order.compare (xs ++ rest) xs.length = .ok (ys ++ rest)) ∧
      ∀ top, ys[0]? = some top → ∀ x ∈ ys, order.compare x top ≤ 0) ∧
    ∀ array : DArray α, 0 ≤ array.end → array.end ≤ array.contents.length →
      ∃ ys, ys.Perm (array.contents.take array.end.toNat) ∧ Ascending order.compare ys ∧
        array.heapsort order.compare =
          .ok { array with contents := ys ++ array.contents.drop array.end.toNat } := by
  constructor
  · intro xs
    obtain ⟨ys, hperm, hrun, hfront⟩ := buildMaxheap_eq order.compare xs
    exact ⟨ys, hperm, hrun, hfront order rfl⟩
  · intro array hend hslots
    have hcount : ((array.contents.take array.end.toNat).length : ℤ) = array.end := by
      rw [List.length_take]
      omega
    obtain ⟨ys, hperm, hsort, hrun⟩ :=
      heapsort_eq order.compare (array.contents.take array.end.toNat)
    have hall := hrun (array.contents.drop array.end.toNat)
    rw [hcount, List.take_append_drop] at hall
    refine ⟨ys, hperm, hsort order rfl, ?_⟩
    unfold heapsort
    rw [hall]
    rfl

/-- Two elements out of order, and a free slot. -/
theorem heapsort_sorts_two :
    ∃ ys : List (Option ℕ), ys.Perm [some 2, some 1] ∧ Ascending Comparator.numbers.compare ys ∧
      heapsort { «end» := 2, max := 3, contents := [some 2, some 1, none] } Comparator.numbers.compare =
        .ok { «end» := 2, max := 3, contents := ys ++ [none] } :=
  (heapsort_sorts _).2 { «end» := 2, max := 3, contents := [some 2, some 1, none] } (by decide)
    (by decide)

end Lcthw.DArray
