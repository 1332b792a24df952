import Lcthw.DArray.Quicksort
import Lcthw.DArray.Stack

/-!
# Lcthw — `DArray_bin_search` (`darray.c`)

`DArray_push_sort` keeps an array in ascending order. The search goes to the right of an element that is
above the one it looks for, which would be right for a descending one.

* **`filled`**: what `DArray_push_sort` builds.
* **`binSearch_finds_iff`**: the search finds an element in the middle slot, and any that is not there.
-/

namespace Lcthw.DArray

variable {α : Type}

/-- The loop of `DArray_bin_search`. -/
def binSearchLoop (cmp : Option α → Option α → ℤ) (contents : List (Option α)) (el : Option α)
    (start «end» : ℤ) : Except Fault ℤ :=
  if start ≤ «end» then do
    let middle := start + («end» - start) / 2
    let x ← readAt contents middle
    if cmp x el = 0 then pure middle
    else if cmp x el > 0 then binSearchLoop cmp contents el (middle + 1) «end»
    else binSearchLoop cmp contents el start (middle - 1)
  else pure (-1)
termination_by («end» - start + 1).toNat
decreasing_by all_goals omega

/-- `DArray_bin_search` -/
def binSearch (array : DArray α) (el : Option α) (cmp : Option α → Option α → ℤ) : Except Fault ℤ :=
  binSearchLoop cmp array.contents el 0 (array.end - 1)

/-- `DArray_push_sort`, with the element and what `realloc` answers. An array is filled by calls that
return 0. -/
def pushInto (cmp : Option α → Option α → ℤ) (array : DArray α)
    (call : Option α × Option (Junk α)) : Except Failure (DArray α) :=
  checked (array.pushSort call.2 call.1 fun x y => .ok (cmp x y))

variable {array array' : DArray α} {xs : List (Option α)} {el : Option α}

/-! ## What `DArray_push_sort` builds

An array that only sorted pushes have filled holds its elements in ascending order. A push that returns
-1 is not among them; the caller looks at the result. -/

/-- Nothing is above the last element. -/
theorem Ascending.le_last (order : Comparator (Option α)) (h : Ascending order.compare xs)
    {x last : Option α} (hlast : xs.getLast? = some last) (hx : x ∈ xs) : order.compare x last ≤ 0 := by
  obtain ⟨front, rfl⟩ := List.getLast?_eq_some_iff.mp hlast
  rcases List.mem_append.mp hx with hx | hx
  · exact (List.pairwise_append.mp h).2.2 x hx last (List.mem_singleton_self last)
  · rw [List.mem_singleton.mp hx]
    exact (order.self last).le

/-- An element that moves down to its place leaves the array in order. -/
theorem ascending_insertBack (order : Comparator (Option α)) (h : Ascending order.compare xs)
    (el : Option α) : Ascending order.compare (insertBack order.compare el xs) := by
  obtain ⟨l, hl⟩ : ∃ l, xs.rdropWhile (fun y => order.compare el y ≤ 0) = l := ⟨_, rfl⟩
  obtain ⟨r, hr⟩ : ∃ r, xs.rtakeWhile (fun y => order.compare el y ≤ 0) = r := ⟨_, rfl⟩
  have hxs : l ++ r = xs := by
    rw [← hl, ← hr]
    exact List.rdropWhile_append_rtakeWhile ..
  rw [← hxs] at h
  obtain ⟨hlasc, hrasc, hcross⟩ := List.pairwise_append.mp h
  have habove : ∀ y ∈ r, order.compare el y ≤ 0 := by
    intro y hy
    rw [← hr] at hy
    simpa using List.mem_rtakeWhile_imp hy
  have hbelow : ∀ x ∈ l, order.compare x el ≤ 0 := by
    intro x hx
    -- the last element in front is below `el`
    obtain ⟨last, hlast⟩ : ∃ last, l.getLast? = some last :=
      Option.isSome_iff_exists.mp (List.getLast?_isSome.mpr (List.ne_nil_of_mem hx))
    have hstop := List.rdropWhile_last_not (fun y => decide (order.compare el y ≤ 0)) xs
      (by rw [hl]; exact List.ne_nil_of_mem hx)
    obtain ⟨front, rfl⟩ := List.getLast?_eq_some_iff.mp hlast
    simp only [hl, List.getLast_append_singleton] at hstop
    have hbelow : order.compare last el < 0 := by
      rw [order.lt_iff_gt]
      simpa using hstop
    exact order.le_trans x last el (Ascending.le_last order hlasc hlast hx) hbelow.le
  unfold insertBack
  rw [hl, hr]
  refine List.pairwise_append.mpr ⟨hlasc, List.pairwise_cons.mpr ⟨habove, hrasc⟩, fun x hx y hy => ?_⟩
  rcases List.mem_cons.mp hy with rfl | hy
  · exact hbelow x hx
  · exact hcross x hx y hy

/-- A sorted push that returns 0 has got the block that it may have asked for. -/
theorem allocates_of_pushSort {cmp : Option α → Option α → Except Fault ℤ} {block : Option (Junk α)}
    (h : array.Holds xs) (hsort : array.pushSort block el cmp = .ok (0, array')) :
    array.Allocates block := by
  intro hfull
  by_contra hnone
  rw [pushSort_full h el hfull (Option.not_isSome_iff_eq_none.mp hnone)] at hsort
  exact absurd (Prod.mk.inj (Except.ok.inj hsort)).1 (by decide)

/-- **The array holds its elements in ascending order.** -/
theorem filled (order : Comparator (Option α)) {initial_max : ℤ} (h : 0 < initial_max)
    (hmax : initial_max ≤ INT_MAX) {calls : List (Option α × Option (Junk α))}
    (hrun : Run.run (pushInto order.compare) (create initial_max) calls = .ok array) :
    ∃ xs, array.Holds xs ∧ Ascending order.compare xs := by
  have hinit : ∃ xs, (create initial_max).Holds xs ∧ Ascending order.compare xs :=
    ⟨[], holds_create h hmax, List.Pairwise.nil⟩
  refine Run.run_invariant _ (I := fun array : DArray α =>
    ∃ xs, array.Holds xs ∧ Ascending order.compare xs) ?_ hinit hrun
  rintro array ⟨el, block⟩ array' ⟨xs, hholds, hasc⟩ hpush
  have hsort := checked_eq_ok.mp hpush
  obtain ⟨array₁, l, r, hsort₁, rfl, hr, hl, hholds'⟩ :=
    @pushSort_eq α array xs (fun x y => .ok (order.compare x y)) block hholds el (order.compare el)
      (fun _ _ => rfl) (allocates_of_pushSort hholds hsort)
  obtain ⟨-, rfl⟩ := Prod.mk.inj (Except.ok.inj (hsort₁.symm.trans hsort))
  rw [← insertBack_append hr hl] at hholds'
  exact ⟨_, hholds', ascending_insertBack order hasc el⟩

/-! ## What the loop finds

Where an element compares unequal the search goes on in the half where it cannot be. So it finds an
element only in the first slot it looks at, and is right otherwise only when no slot holds one. -/

/-- Where no element compares equal, the loop finds none. -/
theorem binSearchLoop_none {cmp : Option α → Option α → ℤ} {contents : List (Option α)}
    {start «end» : ℤ} (hstart : 0 ≤ start) (hend : «end» < contents.length)
    (hnone : ∀ (i : ℕ) (x : Option α), start ≤ i → (i : ℤ) ≤ «end» → contents[i]? = some x →
      cmp x el ≠ 0) :
    binSearchLoop cmp contents el start «end» = .ok (-1) := by
  induction start, «end» using binSearchLoop.induct with
  | case1 start «end» hle middle ihright ihleft =>
    obtain ⟨i, hi⟩ : ∃ i : ℕ, start + («end» - start) / 2 = i := Int.eq_ofNat_of_zero_le (by omega)
    have hx := List.getElem?_eq_getElem (show i < contents.length by omega)
    have hne := hnone i _ (by omega) (by omega) hx
    have hmiddle : middle = i := hi
    rw [binSearchLoop, if_pos hle]
    simp only []
    rw [hi, readAt_eq hx, ok_bind, if_neg hne]
    rw [hmiddle] at ihright ihleft
    split
    · exact ihright (by omega) hend fun j x hj hj' => hnone j x (by omega) hj'
    · exact ihleft hstart (by omega) fun j x hj hj' => hnone j x hj (by omega)
  | case2 start «end» hgt =>
    rw [binSearchLoop, if_neg hgt]
    rfl

/-- What the search answers. -/
structure Finds (cmp : Option α → Option α → ℤ) (xs : List (Option α)) (el : Option α)
    (result : Except Fault ℤ) : Prop where
  found : (∃ x ∈ xs, cmp x el = 0) → ∃ (i : ℕ) (x : Option α), result = .ok i ∧ xs[i]? = some x ∧
    cmp x el = 0
  missing : (∀ x ∈ xs, cmp x el ≠ 0) → result = .ok (-1)

/-- The first slot that is looked at. -/
theorem binSearch_middle (h : array.Holds xs) (cmp : Option α → Option α → ℤ) (el : Option α)
    {x : Option α} (hx : xs[(xs.length - 1) / 2]? = some x) :
    array.binSearch el cmp =
      if cmp x el = 0 then .ok ((xs.length - 1) / 2 : ℕ)
      else if cmp x el > 0 then
        binSearchLoop cmp array.contents el (((xs.length - 1) / 2 : ℕ) + 1) (array.end - 1)
      else binSearchLoop cmp array.contents el 0 (((xs.length - 1) / 2 : ℕ) - 1) := by
  have hlt := (List.getElem?_eq_some_iff.mp hx).1
  have hend := h.end
  have hmiddle : (0 : ℤ) + (array.end - 1 - 0) / 2 = ((xs.length - 1) / 2 : ℕ) := by omega
  unfold binSearch
  rw [binSearchLoop, if_pos (by omega)]
  simp only []
  rw [hmiddle, h.readAt hx]
  rfl

theorem Ascending.getElem? {cmp : Option α → Option α → ℤ} (hasc : Ascending cmp xs) {i j : ℕ}
    {x y : Option α} (hij : i < j) (hx : xs[i]? = some x) (hy : xs[j]? = some y) : cmp x y ≤ 0 := by
  obtain ⟨hi, rfl⟩ := List.getElem?_eq_some_iff.mp hx
  obtain ⟨hj, rfl⟩ := List.getElem?_eq_some_iff.mp hy
  exact List.pairwise_iff_getElem.mp hasc i j hi hj hij

/-- The half that the search goes on with has no element that compares equal. -/
theorem binSearch_astray (order : Comparator (Option α)) (h : array.Holds xs)
    (hasc : Ascending order.compare xs) {el x : Option α} (hx : xs[(xs.length - 1) / 2]? = some x)
    (hne : order.compare x el ≠ 0) : array.binSearch el order.compare = .ok (-1) := by
  have hlt := (List.getElem?_eq_some_iff.mp hx).1
  have hend := h.end
  have hroom := h.room
  have hlength := h.length
  rw [binSearch_middle h order.compare el hx, if_neg hne]
  by_cases hpos : order.compare x el > 0
  · rw [if_pos hpos]
    refine binSearchLoop_none (by omega) (by omega) fun i y hi hi' hy heq => ?_
    rw [h.getElem? (by omega)] at hy
    have hxy := hasc.getElem? (show (xs.length - 1) / 2 < i by omega) hx hy
    have hlt := order.lt_of_lt_of_le ((order.lt_iff_gt el x).mpr hpos) hxy
    have := order.eq_comm.mp heq
    omega
  · rw [if_neg hpos]
    refine binSearchLoop_none le_rfl (by omega) fun i y hi hi' hy heq => ?_
    rw [h.getElem? (by omega)] at hy
    have hyx := hasc.getElem? (show i < (xs.length - 1) / 2 by omega) hy hx
    have := order.lt_of_le_of_lt hyx (lt_of_le_of_ne (not_lt.mp hpos) hne)
    omega

/-- **A search in an ascending array** goes the wrong way from the middle slot. -/
theorem binSearch_ascending (order : Comparator (Option α)) (h : array.Holds xs)
    (hasc : Ascending order.compare xs) (el : Option α) :
    Finds order.compare xs el (array.binSearch el order.compare) ↔
      (∀ x ∈ xs, order.compare x el ≠ 0) ∨
        ∃ x, xs[(xs.length - 1) / 2]? = some x ∧ order.compare x el = 0 := by
  have hend := h.end
  have hroom := h.room
  have hlength := h.length
  constructor
  · intro hfinds
    by_contra hnone
    obtain ⟨hall, hmiddle⟩ := not_or.mp hnone
    obtain ⟨y, hy, heq⟩ : ∃ y ∈ xs, order.compare y el = 0 := by
      by_contra hno
      exact hall fun y hy heq => hno ⟨y, hy, heq⟩
    obtain ⟨i, -, hrun, -, -⟩ := hfinds.found ⟨y, hy, heq⟩
    have hpos := List.length_pos_of_mem hy
    have hx := List.getElem?_eq_getElem (show (xs.length - 1) / 2 < xs.length by omega)
    -- after a middle that is not equal the search goes the wrong way
    have hmiss := binSearch_astray order h hasc hx fun heq => hmiddle ⟨_, hx, heq⟩
    have := Except.ok.inj (hrun.symm.trans hmiss)
    omega
  · rintro (hnone | ⟨x, hx, heq⟩)
    · refine ⟨fun ⟨x, hx, heq⟩ => absurd heq (hnone x hx), fun _ => ?_⟩
      refine binSearchLoop_none le_rfl (by omega) fun i x hi hi' hx => ?_
      rw [h.getElem? (by omega)] at hx
      exact hnone x (List.mem_of_getElem? hx)
    · have hrun := binSearch_middle h order.compare el hx
      rw [if_pos heq] at hrun
      refine ⟨fun _ => ⟨_, x, hrun, hx, heq⟩, fun hnone => ?_⟩
      exact absurd heq (hnone x (List.mem_of_getElem? hx))

/-- **What a search finds** in an array that `DArray_push_sort` has filled: what is in the middle slot,
and that there is nothing. -/
theorem binSearch_finds_iff (order : Comparator (Option α)) {initial_max : ℤ} (h : 0 < initial_max)
    (hmax : initial_max ≤ INT_MAX) {calls : List (Option α × Option (Junk α))}
    (hrun : Run.run (pushInto order.compare) (create initial_max) calls = .ok array) (el : Option α) :
    Finds order.compare (array.contents.take array.end.toNat) el (array.binSearch el order.compare) ↔
      (∀ x ∈ array.contents.take array.end.toNat, order.compare x el ≠ 0) ∨
        ∃ x, (array.contents.take array.end.toNat)[((array.end - 1) / 2).toNat]? = some x ∧
          order.compare x el = 0 := by
  obtain ⟨xs, hholds, hasc⟩ := filled order h hmax hrun
  have helements : array.contents.take array.end.toNat = xs := by
    rw [hholds.end, Int.toNat_natCast]
    exact hholds.elements
  have hmiddle : ((array.end - 1) / 2).toNat = (xs.length - 1) / 2 := by
    have hend := hholds.end
    omega
  rw [helements, hmiddle]
  exact binSearch_ascending order hholds hasc el

/-- The middle one of three elements. -/
theorem binSearch_finds_iff_three :
    let array : DArray ℕ := { «end» := 3, max := 4, contents := [some 3, some 5, some 8, none] }
    Finds Comparator.numbers.compare (array.contents.take array.end.toNat) (some 5)
        (array.binSearch (some 5) Comparator.numbers.compare) ↔
      (∀ x ∈ array.contents.take array.end.toNat, Comparator.numbers.compare x (some 5) ≠ 0) ∨
        ∃ x, (array.contents.take array.end.toNat)[((array.end - 1) / 2).toNat]? = some x ∧
          Comparator.numbers.compare x (some 5) = 0 :=
  binSearch_finds_iff _ (by decide) (by decide)
    (show Run.run _ (create 4) [(some 5, none), (some 8, none), (some 3, none)] = .ok _ from rfl)
    (some 5)

/-- The array is filled with 1 and 2, and the 2 is not found. -/
theorem binSearch_misses : ∃ array : DArray ℕ,
    Run.run (pushInto Comparator.numbers.compare) (create 5)
      [(some 1, none), (some 2, none)] = .ok array ∧
    ¬ Finds Comparator.numbers.compare (array.contents.take array.end.toNat) (some 2)
      (array.binSearch (some 2) Comparator.numbers.compare) := by
  refine ⟨{ «end» := 2, max := 5, contents := [some 1, some 2, none, none, none] }, rfl, fun h => ?_⟩
  have hholds : Holds ({ «end» := 2, max := 5, contents := [some 1, some 2, none, none, none] } : DArray ℕ)
      [some 1, some 2] := ⟨rfl, by decide, by decide, rfl, rfl⟩
  have hasc : Ascending Comparator.numbers.compare [some 1, some 2] := by
    simp [Ascending, Comparator.numbers]
  have hmiss := binSearch_astray _ hholds hasc rfl
    (show Comparator.numbers.compare (some 1) (some 2) ≠ 0 by decide)
  obtain ⟨i, -, hrun, -, -⟩ := h.found ⟨some 2, by decide, by decide⟩
  have := Except.ok.inj (hrun.symm.trans hmiss)
  omega

end Lcthw.DArray
