import Lcthw.DArray.Heapsort
import Lcthw.DArray.Merging
import Lcthw.DArray.Slots

/-!
# Lcthw — an array after it was sorted (`darray_algos.c`)

`DArray_qsort` and `DArray_heapsort` move elements within the slots. `DArray_mergesort` puts a block with
no free slot in their place, and leaves `max` as it was.

* **`Granted`**: every push but the last finds a free slot or gets a larger block.
* **`run_pushes_iff`**: the pushes that stay inside a well-formed array are these.
* **`usable_iff`**: after which sorts an array can still be pushed to.
-/

namespace Lcthw.DArray

variable {α : Type}

/-- The `xsort` of `DArray_sort`. -/
inductive Sorting where
  | qsort
  | heapsort
  | mergesort
  deriving DecidableEq

/-- `DArray_sort` -/
def sort (bytes : α → List UInt8) (array : DArray α) (cmp : Option α → Option α → ℤ) (fuel : ℕ) :
    Sorting → Except Stop (DArray α)
  | .qsort => array.qsort bytes cmp fuel
  | .heapsort => (array.heapsort cmp).mapError .fault
  | .mergesort => (array.mergesort cmp).mapError .fault

/-! ## Pushes

The caller of a push need not look at its result, so that a push that got no block may be followed by
another. -/

/-- An element, and the block that `realloc` gives back for it. -/
def pushAny (array : DArray α) (call : Option α × Option (Junk α)) : Except Fault (DArray α) := do
  let (_, array) ← array.push call.2 call.1
  return array

/-- Pushes that stay inside the slots of an array with `end` elements and `max` slots. Only the last of
them may be left without a block. -/
def Granted : List (Option (Junk α)) → ℤ → ℤ → Prop
  | [], _, _ => True
  | block :: blocks, «end», max =>
    if «end» + 1 < max then Granted blocks («end» + 1) max
    else if max + DEFAULT_EXPAND_RATE ≤ INT_MAX ∧ block.isSome then
      Granted blocks («end» + 1) (max + DEFAULT_EXPAND_RATE)
    else blocks = []

/-- All slots up to `max` are there, and the pushes write to slots that are. -/
structure Usable (array : DArray α) (calls : List (Option α × Option (Junk α))) : Prop where
  slots : array.max ≤ array.contents.length
  pushes : ∃ array', Run.run pushAny array calls = .ok array'

variable {array array' : DArray α} {xs ys : List (Option α)} {cmp : Option α → Option α → ℤ}

theorem pushAny_of_push {block : Option (Junk α)} {el : Option α} {rc : ℤ}
    (h : array.push block el = .ok (rc, array')) : array.pushAny (el, block) = .ok array' := by
  unfold pushAny
  rw [h]
  rfl

/-- A push into a free slot. -/
theorem pushAny_room (h : array.Holds xs) (el : Option α) (block : Option (Junk α))
    (hroom : array.end + 1 < array.max) :
    array.pushAny (el, block) = .ok (array.stored xs.length el) ∧
      (array.stored xs.length el).Holds (xs ++ [el]) := by
  obtain ⟨hend', hlength', helements'⟩ := h.stored el
  have hpush : array.push block el = .ok (0, array.stored xs.length el) := by
    rw [push_stored block h el, if_neg (not_le.mpr hroom)]
  exact ⟨pushAny_of_push hpush, hend', hroom, h.max, hlength', helements'⟩

/-- A push into the last slot, with a larger block. -/
theorem pushAny_grown (h : array.Holds xs) (el : Option α) (junk : Junk α)
    (hfull : array.max ≤ array.end + 1) (hfit : array.max + DEFAULT_EXPAND_RATE ≤ INT_MAX) :
    ∃ array', array.pushAny (el, some junk) = .ok array' ∧ array'.Holds (xs ++ [el]) ∧
      array'.max = array.max + DEFAULT_EXPAND_RATE := by
  obtain ⟨array', hpush, hholds⟩ := push_eq h el (h.allocates junk (Or.inr hfit))
  refine ⟨array', pushAny_of_push hpush, hholds, ?_⟩
  rw [push_max junk h (Or.inr hfit) hpush, if_pos hfull]

/-- A push into the last slot, without one: the next push writes behind the block. -/
theorem pushAny_full (h : array.Holds xs) (el : Option α) {block : Option (Junk α)}
    (hfull : array.max ≤ array.end + 1)
    (hnone : ¬ (array.max + DEFAULT_EXPAND_RATE ≤ INT_MAX ∧ block.isSome)) :
    ∃ array', array.pushAny (el, block) = .ok array' ∧
      ∀ call, array'.pushAny call = .error .outOfBounds := by
  have hgiven : given block (toInt (array.max + DEFAULT_EXPAND_RATE)) = none := by
    rw [← Option.not_isSome_iff_eq_none]
    intro hsome
    have halloc : array.Allocates block := fun _ => hsome
    obtain hroom | ⟨hfit, junk, rfl⟩ := (allocates_iff h).mp halloc
    · exact not_lt.mpr hfull hroom
    · exact hnone ⟨hfit, rfl⟩
  refine ⟨_, pushAny_of_push (push_full block h el hfull hgiven), fun call => ?_⟩
  have hbehind : ((array.overfull xs.length el).contents.length : ℤ) ≤
      (array.overfull xs.length el).end := (h.stored el).2.1.trans_le hfull
  unfold pushAny
  rw [push_behind call.2 call.1 hbehind]
  rfl

/-- **Which pushes stay inside the slots** of a well-formed array. -/
theorem Holds.run_pushes_iff (h : array.Holds xs) (calls : List (Option α × Option (Junk α))) :
    (∃ array', Run.run pushAny array calls = .ok array') ↔
      Granted (calls.map Prod.snd) array.end array.max := by
  induction calls generalizing array xs with
  | nil => exact iff_of_true ⟨array, rfl⟩ trivial
  | cons call calls ih =>
    obtain ⟨el, block⟩ := call
    rw [List.map_cons, Granted, Run.run_cons]
    by_cases hroom : array.end + 1 < array.max
    · obtain ⟨hpush, hholds⟩ := pushAny_room h el block hroom
      rw [if_pos hroom, hpush]
      exact ih hholds
    · have hfull := not_lt.mp hroom
      rw [if_neg hroom]
      by_cases hgrow : array.max + DEFAULT_EXPAND_RATE ≤ INT_MAX ∧ block.isSome
      · obtain ⟨hfit, hsome⟩ := hgrow
        obtain ⟨junk, rfl⟩ := Option.isSome_iff_exists.mp hsome
        obtain ⟨array', hpush, hholds, hmax⟩ := pushAny_grown h el junk hfull hfit
        have hend : array'.end = array.end + 1 := by
          rw [hholds.end, h.end, List.length_append, List.length_singleton]
          rfl
        rw [if_pos ⟨hfit, hsome⟩, hpush, ← hend, ← hmax]
        exact ih hholds
      · obtain ⟨array', hpush, hbehind⟩ := pushAny_full h el hfull hgrow
        rw [if_neg hgrow, hpush]
        -- a push without a block is the last one
        cases calls with
        | nil => exact iff_of_true ⟨array', rfl⟩ rfl
        | cons call calls =>
          refine iff_of_false ?_ (List.cons_ne_nil _ _)
          rintro ⟨array'', hrun⟩
          obtain ⟨m, hm, -⟩ := (Run.run_cons_ok _).mp hrun
          exact nomatch (hbehind call).symm.trans hm

theorem Holds.usable_iff_granted (h : array.Holds xs) (calls : List (Option α × Option (Junk α))) :
    array.Usable calls ↔ Granted (calls.map Prod.snd) array.end array.max := by
  rw [← h.run_pushes_iff calls]
  exact ⟨fun husable => husable.pushes, fun hrun => ⟨h.length.ge, hrun⟩⟩

/-! ## A sort within the slots

Quicksort and heapsort permute the elements and leave everything else as it is. Such an array is as
usable as it was before. -/

theorem Holds.permuted (h : array.Holds xs) (hperm : ys.Perm xs) :
    { array with contents := ys ++ array.contents.drop xs.length }.Holds ys := by
  have hlength := hperm.length_eq
  have hroom := h.room
  have hend := h.end
  have hslots := h.length
  refine ⟨?_, hroom, h.max, ?_, ?_⟩
  · rw [hlength]
    exact hend
  · show ((ys ++ array.contents.drop xs.length).length : ℤ) = array.max
    rw [List.length_append, List.length_drop]
    omega
  · exact List.take_left

/-- The sort of the library, behind the reads of two elements for the log. -/
theorem Holds.qsort_eq (h : array.Holds xs) (bytes : α → List UInt8)
    (cmp : Option α → Option α → ℤ) {fuel : ℕ} (hfuel : xs.length < fuel) :
    ((∀ x, Pivot cmp xs x → Printable bytes x) ∧ ∃ ys, ys.Perm xs ∧ array.qsort bytes cmp fuel =
        .ok { array with contents := ys ++ array.contents.drop xs.length }) ∨
      (¬ (∀ x, Pivot cmp xs x → Printable bytes x) ∧
        array.qsort bytes cmp fuel = .error (.fault .outOfBounds)) := by
  have hcontents : xs ++ array.contents.drop xs.length = array.contents := by
    conv_rhs => rw [← List.take_append_drop xs.length array.contents, h.elements]
  rcases quicksort_slots bytes cmp hfuel with ⟨hprint, ys, hperm, -, hrun⟩ | ⟨⟨x, hx, hbad⟩, hrun⟩
  · have hall := hrun (array.contents.drop xs.length)
    refine Or.inl ⟨hprint, ys, hperm, ?_⟩
    unfold qsort
    rw [hcontents] at hall
    rw [h.end, hall]
    rfl
  · have hall := hrun (array.contents.drop xs.length)
    refine Or.inr ⟨fun hprint => hbad (hprint x hx), ?_⟩
    unfold qsort
    rw [hcontents] at hall
    rw [h.end, hall]
    rfl

theorem Holds.heapsort_eq (h : array.Holds xs) (cmp : Option α → Option α → ℤ) :
    ∃ ys, ys.Perm xs ∧
      array.heapsort cmp = .ok { array with contents := ys ++ array.contents.drop xs.length } := by
  obtain ⟨ys, hperm, -, hrun⟩ := DArray.heapsort_eq cmp xs
  have hall := hrun (array.contents.drop xs.length)
  refine ⟨ys, hperm, ?_⟩
  unfold heapsort
  rw [h.end, ← List.take_append_drop xs.length array.contents, h.elements, hall, List.drop_left' rfl]
  rfl

/-! ## The block that a merge allocates

A merge allocates as many slots as there are elements, and `max` is not told. The first push then writes
behind the block. -/

namespace Algos

theorem length_writeAt {i : ℤ} {x : Option α} (h : writeAt xs i x = .ok ys) : ys.length = xs.length := by
  unfold writeAt at h
  split at h
  · obtain rfl := Except.ok.inj h
    exact List.length_set
  · cases h

theorem length_copyHalf {contents : List (Option α)} {j n : ℕ} (h : copyHalf contents j n = .ok xs) :
    xs.length = n := by
  unfold copyHalf at h
  induction n generalizing j xs with
  | zero =>
    obtain rfl := Except.ok.inj h
    rfl
  | succ n ih =>
    rw [List.range'_succ, List.mapM_cons] at h
    obtain ⟨x, -, h⟩ := bind_eq_ok.mp h
    obtain ⟨zs, hzs, h⟩ := bind_eq_ok.mp h
    obtain rfl := Except.ok.inj h
    rw [List.length_cons, ih hzs]

variable {ar1 ar2 ar ar' : List (Option α)} {num1 num2 order i j n k : ℕ}

theorem length_fillRight (h : fillRight ar2 j n ar k = .ok ar') : ar'.length = ar.length := by
  induction n generalizing ar k with
  | zero =>
    obtain rfl := Except.ok.inj h
    rfl
  | succ n ih =>
    obtain ⟨y, -, h⟩ := bind_eq_ok.mp h
    obtain ⟨ar₁, hwrite, h⟩ := bind_eq_ok.mp h
    exact (ih h).trans (length_writeAt hwrite)

theorem length_fillLeft (h : fillLeft ar1 n ar k i = .ok ar') : ar'.length = ar.length := by
  induction n generalizing ar k i with
  | zero =>
    obtain rfl := Except.ok.inj h
    rfl
  | succ n ih =>
    obtain ⟨x, -, h⟩ := bind_eq_ok.mp h
    obtain ⟨ar₁, hwrite, h⟩ := bind_eq_ok.mp h
    exact (ih h).trans (length_writeAt hwrite)

/-- The merge fills its block and does not change its length. -/
theorem length_mergeLoop {order' i' j' : ℕ}
    (h : mergeLoop cmp ar1 ar2 num1 num2 ar order i j = .ok (ar', order', i', j')) :
    ar'.length = ar.length := by
  induction ar, order, i, j using mergeLoop.induct num1 num2 with
  | case1 ar order i j hboth ihr ihl =>
    rw [mergeLoop, if_pos hboth] at h
    obtain ⟨x, -, h⟩ := bind_eq_ok.mp h
    obtain ⟨y, -, h⟩ := bind_eq_ok.mp h
    split at h
    · obtain ⟨ar₁, hwrite, h⟩ := bind_eq_ok.mp h
      exact (ihr ar₁ h).trans (length_writeAt hwrite)
    · obtain ⟨ar₁, hwrite, h⟩ := bind_eq_ok.mp h
      exact (ihl ar₁ h).trans (length_writeAt hwrite)
  | case2 ar order i j hone =>
    rw [mergeLoop, if_neg hone] at h
    obtain ⟨rfl, -⟩ := Prod.mk.inj (Except.ok.inj h)
    rfl

theorem length_mergeBlocks (h : mergeBlocks cmp ar1 ar2 num1 num2 = .ok ar) :
    ar.length = num1 + num2 := by
  obtain ⟨⟨ar₁, order, i, j⟩, hloop, h⟩ := bind_eq_ok.mp h
  have hlength := length_mergeLoop hloop
  rw [List.length_replicate] at hlength
  simp only [fillRest] at h
  split at h
  · exact (length_fillRight h).trans hlength
  · exact (length_fillLeft h).trans hlength

theorem length_mergeLists_le (h : mergeLists cmp ar1 ar2 num1 num2 = .ok ar) (h1 : ar1.length ≤ num1)
    (h2 : ar2.length ≤ num2) : ar.length ≤ num1 + num2 := by
  obtain ⟨x, -, h⟩ := bind_eq_ok.mp h
  split at h
  · obtain rfl := Except.ok.inj h
    omega
  · obtain ⟨y, -, h⟩ := bind_eq_ok.mp h
    split at h
    · obtain rfl := Except.ok.inj h
      omega
    · exact (length_mergeBlocks h).le

/-- **The block has no more slots than there are elements.** It has fewer where a NULL has stopped a
merge. -/
theorem length_sortBlock_le {contents block : List (Option α)} {count : ℕ}
    (h : sortBlock cmp contents count = .ok block) (hcount : 2 ≤ count ∨ contents.length ≤ count) :
    block.length ≤ count := by
  induction count using Nat.strong_induction_on generalizing contents block with
  | _ count ih =>
    rw [sortBlock] at h
    split at h
    · obtain rfl := Except.ok.inj h
      omega
    · obtain ⟨left, hleft, h⟩ := bind_eq_ok.mp h
      obtain ⟨right, hright, h⟩ := bind_eq_ok.mp h
      obtain ⟨ls, hls, h⟩ := bind_eq_ok.mp h
      obtain ⟨rs, hrs, h⟩ := bind_eq_ok.mp h
      have hl := ih (count / 2) (by omega) hls (Or.inr (length_copyHalf hleft).le)
      have hr := ih (count - count / 2) (by omega) hrs (Or.inr (length_copyHalf hright).le)
      have := length_mergeLists_le h hl hr
      omega

end Algos

/-- `max` is as before, and the block has no slot behind the last element. -/
theorem Holds.not_usable (h : array.Holds xs) (hbig : 1 < array.end)
    (hsort : array.mergesort cmp = .ok array') (calls : List (Option α × Option (Junk α))) :
    ¬ array'.Usable calls := by
  intro husable
  obtain ⟨block, hblock, rfl⟩ := mergesort_ok_iff.mp hsort
  have hroom := h.room
  have hslots : array.max ≤ (block.length : ℤ) := husable.slots
  have hlength := Algos.length_sortBlock_le hblock (Or.inl (by omega))
  omega

/-! ## After which sorts an array is usable

The three sorts together. A merge sort of one element or none allocates nothing, and a quicksort must
get to its end. -/

/-- A quicksort can print its pivots, and a merge sort allocates no block. -/
def Sortable (bytes : α → List UInt8) (array : DArray α) (cmp : Option α → Option α → ℤ) :
    Sorting → Prop
  | .qsort => ∀ x, Pivot cmp (array.contents.take array.end.toNat) x → Printable bytes x
  | .heapsort => True
  | .mergesort => array.end ≤ 1

/-- **After which sorts an array is usable**, for some pushes. -/
theorem usable_iff (h : array.Holds xs) (bytes : α → List UInt8) (cmp : Option α → Option α → ℤ)
    {fuel : ℕ} (hfuel : array.end < fuel) (xsort : Sorting)
    (calls : List (Option α × Option (Junk α))) :
    (∃ array', array.sort bytes cmp fuel xsort = .ok array' ∧ array'.Usable calls) ↔
      array.Sortable bytes cmp xsort ∧ Granted (calls.map Prod.snd) array.end array.max := by
  have hend := h.end
  have hfuel' : xs.length < fuel := by omega
  cases xsort with
  | qsort =>
    have hxs : array.contents.take array.end.toNat = xs := by
      rw [hend, Int.toNat_natCast, h.elements]
    unfold Sortable sort
    rw [hxs]
    rcases h.qsort_eq bytes cmp hfuel' with ⟨hprint, ys, hperm, hsort⟩ | ⟨hprint, hsort⟩
    · rw [and_iff_right hprint, hsort, ← (h.permuted hperm).usable_iff_granted calls]
      simp
    · rw [hsort]
      exact iff_of_false (nomatch ·) fun hsortable => hprint hsortable.1
  | heapsort =>
    obtain ⟨ys, hperm, hsort⟩ := h.heapsort_eq cmp
    unfold Sortable sort
    rw [true_and, hsort, mapError_ok, ← (h.permuted hperm).usable_iff_granted calls]
    simp
  | mergesort =>
    unfold Sortable sort
    -- a merged block has slots for the elements only
    by_cases hbig : array.end ≤ 1
    · have hblock : Algos.sortBlock cmp array.contents array.end.toNat = .ok array.contents := by
        rw [Algos.sortBlock, if_pos (by omega)]
        rfl
      rw [and_iff_right hbig, mergesort_ok_iff.mpr ⟨_, hblock, rfl⟩, mapError_ok,
        ← h.usable_iff_granted calls]
      simp
    · refine iff_of_false ?_ fun hsortable => hbig hsortable.1
      rintro ⟨array', hrun, husable⟩
      cases hsort : array.mergesort cmp with
      | error e =>
        rw [hsort] at hrun
        cases hrun
      | ok sorted =>
        rw [hsort] at hrun
        obtain rfl := Except.ok.inj hrun
        exact h.not_usable (not_le.mp hbig) hsort calls husable

/-- Three numbers in four slots, and two pushes. The first makes the block larger, and the second finds
a free slot in it. -/
theorem usable_iff_three :
    (∃ array', sort intBytes { «end» := 3, max := 4, contents := [some 3, some 1, some 2, none] }
        Comparator.numbers.compare 4 .qsort = .ok array' ∧
      array'.Usable [(some 5, some Junk.null), (some 4, none)]) ↔
    Sortable intBytes { «end» := 3, max := 4, contents := [some 3, some 1, some 2, none] }
        Comparator.numbers.compare .qsort ∧
      Granted [some (Junk.null : Junk ℕ), none] 3 4 := by
  have h : Holds ({ «end» := 3, max := 4, contents := [some 3, some 1, some 2, none] } : DArray ℕ)
      [some 3, some 1, some 2] := ⟨rfl, by decide, by decide, rfl, rfl⟩
  exact usable_iff h intBytes Comparator.numbers.compare (by decide) .qsort
    [(some 5, some Junk.null), (some 4, none)]

/-- Two elements of five slots get merged, and the array cannot be pushed to. -/
theorem mergesort_unusable : ∃ array', sort intBytes
      { «end» := 2, max := 5, contents := [some 2, some 1, none, none, none] }
      Comparator.numbers.compare 3 .mergesort = .ok array' ∧
    ¬ array'.Usable [(some 3, none)] := by
  have h : Holds ({ «end» := 2, max := 5, contents := [some 2, some 1, none, none, none] } : DArray ℕ)
      [some 2, some 1] := ⟨rfl, by decide, by decide, rfl, rfl⟩
  have hsort := mergesort_eq Comparator.numbers.compare _ _ h.end h.elements (by decide)
  refine ⟨_, ?_, h.not_usable (by decide) hsort _⟩
  unfold sort
  rw [hsort]
  rfl

end Lcthw.DArray
