import Lcthw.DArray.Quicksort

/-!
# Lcthw — `DArray_mergesort` (`darray_algos.c`)

The halves are copied to blocks of their own, and merged to one more. The loop behind a merge that copies
what is left of the right half goes on with the wrong index, and writes the first of it over and over.

* **`mergesort_simulates`**: the blocks that `mergesort` allocates and frees hold what `sortBlock` computes
  without a heap.
-/

namespace Lcthw.DArray

variable {α : Type}

/-! ## The code

Blocks are allocated for the two halves, for what is sorted, and for the merge. `mergesort` frees a copy
when it has got another block back for it, and the pointers tell whether it has. -/

namespace Algos

/-- The main loop of `merger`. -/
def mergeLoop (cmp : Option α → Option α → ℤ) (ar1 ar2 : List (Option α)) (num1 num2 : ℕ)
    (ar : List (Option α)) (order i j : ℕ) : Except Fault (List (Option α) × ℕ × ℕ × ℕ) :=
  if i < num1 ∧ j < num2 then do
    let x ← readAt ar1 i
    let y ← readAt ar2 j
    if cmp x y > 0 then
      let ar ← writeAt ar order y
      mergeLoop cmp ar1 ar2 num1 num2 ar (order + 1) i (j + 1)
    else
      let ar ← writeAt ar order x
      mergeLoop cmp ar1 ar2 num1 num2 ar (order + 1) (i + 1) j
  else pure (ar, order, i, j)
termination_by (num1 - i) + (num2 - j)

/-- The loop of `merger` for the rest of the right half. It counts up `i`, and reads from `j`. -/
def fillRight (ar2 : List (Option α)) (j : ℕ) : ℕ → List (Option α) → ℕ → Except Fault (List (Option α))
  | 0, ar, _ => pure ar
  | n + 1, ar, k => do
    let y ← readAt ar2 j
    let ar ← writeAt ar k y
    fillRight ar2 j n ar (k + 1)

/-- The loop of `merger` for the rest of the left half. -/
def fillLeft (ar1 : List (Option α)) : ℕ → List (Option α) → ℕ → ℕ → Except Fault (List (Option α))
  | 0, ar, _, _ => pure ar
  | n + 1, ar, k, i => do
    let x ← readAt ar1 i
    let ar ← writeAt ar k x
    fillLeft ar1 n ar (k + 1) (i + 1)

/-- One of the two loops, whichever half is left. -/
def fillRest (ar1 ar2 : List (Option α)) (num1 num2 : ℕ) (ar : List (Option α)) (order i j : ℕ) :
    Except Fault (List (Option α)) :=
  if i = num1 then fillRight ar2 j (num1 + num2 - order) ar order
  else fillLeft ar1 (num1 + num2 - order) ar order i

/-- What `merger` writes to the block that it allocates. -/
def mergeBlocks (cmp : Option α → Option α → ℤ) (ar1 ar2 : List (Option α)) (num1 num2 : ℕ) :
    Except Fault (List (Option α)) := do
  let (ar, order, i, j) ←
    mergeLoop cmp ar1 ar2 num1 num2 (List.replicate (num1 + num2) none) 0 0 0
  fillRest ar1 ar2 num1 num2 ar order i j

/-- `merger`. Its `check` negates the first test alone. -/
def merger (cmp : Option α → Option α → ℤ) (heap : Heap (List (Option α))) (ar1 ar2 : Ptr)
    (num1 num2 : ℕ) : Except Fault (Heap (List (Option α)) × Ptr) :=
  if ar1 = none ∧ ar2 ≠ none then pure (heap, none)
  else do
    let left ← heap.load ar1
    let x ← readAt left (0 : ℕ)
    if x.isNone then pure (heap, ar2)
    else do
      let right ← heap.load ar2
      let y ← readAt right (0 : ℕ)
      if y.isNone then pure (heap, ar1)
      else do
        let block ← mergeBlocks cmp left right num1 num2
        let ar : Ptr := some heap.brk
        let heap ← (heap.alloc block).free ar1
        let heap ← heap.free ar2
        return (heap, ar)

/-- One of the loops that copy a half: `n` slots from `j` on. -/
def copyHalf (array : List (Option α)) (j n : ℕ) : Except Fault (List (Option α)) :=
  (List.range' j n).mapM fun k => readAt array (k : ℕ)

/-- What `mergesort` does with a copy of a half, when it was not sorted in place. -/
def freeCopy (heap : Heap (List (Option α))) (sorted copy : Ptr) :
    Except Fault (Heap (List (Option α))) :=
  if sorted ≠ copy then heap.free copy else pure heap

/-- The static `mergesort`. -/
def mergesort (cmp : Option α → Option α → ℤ) (heap : Heap (List (Option α))) (array : Ptr)
    (count : ℕ) : Except Fault (Heap (List (Option α)) × Ptr) :=
  if count ≤ 1 then pure (heap, array)
  else do
    let middle := count / 2
    let contents ← heap.load array
    let left ← copyHalf contents 0 middle
    let right ← copyHalf contents middle (count - middle)
    let array1 : Ptr := some heap.brk
    let heap := heap.alloc left
    let array2 : Ptr := some heap.brk
    let heap := heap.alloc right
    let (heap, sort_left) ← mergesort cmp heap array1 middle
    let (heap, sort_right) ← mergesort cmp heap array2 (count - middle)
    let heap ← freeCopy heap sort_left array1
    let heap ← freeCopy heap sort_right array2
    merger cmp heap sort_left sort_right middle (count - middle)
termination_by count

end Algos

/-- `DArray_mergesort` -/
def mergesort (array : DArray α) (cmp : Option α → Option α → ℤ) : Except Fault (DArray α) := do
  let heap : Heap (List (Option α)) := Heap.empty
  let contents : Ptr := some heap.brk
  let heap := heap.alloc array.contents
  let (heap, ar1) ← Algos.mergesort cmp heap contents array.end.toNat
  let contents ← heap.load ar1
  return { array with contents }

namespace Algos

/-! ## Without a heap

Which block is returned where is of no interest to the caller, as long as its slots are right and
nothing else has changed. The simulation says that the heap is used for that and can be forgotten. -/

/-- What `merger` returns. -/
def mergeLists (cmp : Option α → Option α → ℤ) (left right : List (Option α)) (num1 num2 : ℕ) :
    Except Fault (List (Option α)) := do
  let x ← readAt left (0 : ℕ)
  if x.isNone then pure right
  else do
    let y ← readAt right (0 : ℕ)
    if y.isNone then pure left else mergeBlocks cmp left right num1 num2

/-- The block that `mergesort` returns. -/
def sortBlock (cmp : Option α → Option α → ℤ) (contents : List (Option α)) (count : ℕ) :
    Except Fault (List (Option α)) :=
  if count ≤ 1 then pure contents
  else do
    let left ← copyHalf contents 0 (count / 2)
    let right ← copyHalf contents (count / 2) (count - count / 2)
    let left ← sortBlock cmp left (count / 2)
    let right ← sortBlock cmp right (count - count / 2)
    mergeLists cmp left right (count / 2) (count - count / 2)
termination_by count

/-- A run returns a pointer to a block, or faults where the block cannot be computed. -/
def Returns (run : Except Fault (Heap (List (Option α)) × Ptr))
    (result : Except Fault (List (Option α))) (post : Heap (List (Option α)) → ℕ → Prop) : Prop :=
  match result with
  | .error e => run = .error e
  | .ok block => ∃ heap a, run = .ok (heap, some a) ∧ heap.cells a = some block ∧ post heap a

section Heap

variable {cmp : Option α → Option α → ℤ} {heap heap' : Heap (List (Option α))}
  {left right block contents : List (Option α)} {num1 num2 count a p q : ℕ}

theorem Returns.imp {run : Except Fault (Heap (List (Option α)) × Ptr)}
    {result : Except Fault (List (Option α))} {post post' : Heap (List (Option α)) → ℕ → Prop}
    (h : Returns run result post) (himp : ∀ heap a, post heap a → post' heap a) :
    Returns run result post' := by
  cases result with
  | error e => exact h
  | ok block =>
    obtain ⟨heap, a, hrun, hcell, hpost⟩ := h
    exact ⟨heap, a, hrun, hcell, himp heap a hpost⟩

/-- What follows a run goes on with its block. -/
theorem Returns.bind {run : Except Fault (Heap (List (Option α)) × Ptr)}
    {result : Except Fault (List (Option α))} {post post' : Heap (List (Option α)) → ℕ → Prop}
    {f : Heap (List (Option α)) × Ptr → Except Fault (Heap (List (Option α)) × Ptr)}
    {g : List (Option α) → Except Fault (List (Option α))} (h : Returns run result post)
    (hnext : ∀ heap a block, heap.cells a = some block → post heap a →
      Returns (f (heap, some a)) (g block) post') :
    Returns (run >>= f) (result >>= g) post' := by
  cases result with
  | error e =>
    have hrun : run = .error e := h
    rw [hrun]
    rfl
  | ok block =>
    obtain ⟨heap, a, hrun, hcell, hpost⟩ := h
    rw [hrun]
    exact hnext heap a block hcell hpost

/-- **One merge.** It returns a new block, or one of the two. -/
theorem merger_returns (hleft : heap.cells p = some left) (hright : heap.cells q = some right)
    (hpq : p ≠ q) :
    Returns (merger cmp heap (some p) (some q) num1 num2) (mergeLists cmp left right num1 num2)
      fun heap' a => heap.brk ≤ heap'.brk ∧
        (∀ b < heap.brk, b ≠ p → b ≠ q → heap'.cells b = heap.cells b) ∧
        (a = p ∨ a = q ∨ a = heap.brk) := by
  have hload : ∀ {r block}, heap.cells r = some block →
      (heap.load (some r) : Except Fault (List (Option α))) = .ok block := Heap.load_eq
  unfold merger mergeLists
  rw [if_neg (fun h => by cases h.1), hload hleft, ok_bind]
  cases hx : readAt left (0 : ℕ) with
  | error e => rfl
  | ok x =>
    simp only [ok_bind]
    split
    · -- an empty half, and the other one is returned as it is
      exact ⟨heap, q, rfl, hright, le_rfl, fun _ _ _ _ => rfl, Or.inr (Or.inl rfl)⟩
    rw [hload hright, ok_bind]
    cases hy : readAt right (0 : ℕ) with
    | error e => rfl
    | ok y =>
      simp only [ok_bind]
      split
      · exact ⟨heap, p, rfl, hleft, le_rfl, fun _ _ _ _ => rfl, Or.inl rfl⟩
      cases hblock : mergeBlocks cmp left right num1 num2 with
      | error e => rfl
      | ok block =>
        have hp : p ≠ heap.brk := Heap.ne_brk hleft
        have hq : q ≠ heap.brk := Heap.ne_brk hright
        -- both halves are freed, and the new block stays
        have hright' : ((heap.alloc block).drop p).cells q = some right := by
          rw [Heap.cells_drop_of_ne hpq.symm, Heap.cells_alloc_of_some hright]
        refine ⟨((heap.alloc block).drop p).drop q, heap.brk, ?_, ?_, ?_, ?_, Or.inr (Or.inr rfl)⟩
        · rw [ok_bind, Heap.free_eq (Heap.cells_alloc_of_some hleft), ok_bind, Heap.free_eq hright']
          rfl
        · rw [Heap.cells_drop_of_ne hq.symm, Heap.cells_drop_of_ne hp.symm, Heap.cells_alloc_self]
        · exact Nat.le_succ _
        · intro b hb hbp hbq
          rw [Heap.cells_drop_of_ne hbq, Heap.cells_drop_of_ne hbp, Heap.cells_alloc_of_ne hb.ne]

theorem freeCopy_eq {r : ℕ} (a : ℕ) (hcell : heap.cells r = some block) :
    ∃ heap', freeCopy heap (some a) (some r) = .ok heap' ∧ heap'.brk = heap.brk ∧
      heap'.cells a = heap.cells a ∧ ∀ b, b ≠ r → heap'.cells b = heap.cells b := by
  unfold freeCopy
  by_cases har : a = r
  · subst har
    rw [if_neg (fun h => h rfl)]
    exact ⟨heap, rfl, rfl, rfl, fun _ _ => rfl⟩
  · rw [if_pos (fun h => har (Option.some.inj h)), Heap.free_eq hcell]
    exact ⟨heap.drop r, rfl, rfl, Heap.cells_drop_of_ne har, fun b hb => Heap.cells_drop_of_ne hb⟩

/-- The end of `mergesort`: the sorted halves are at `p` and `q`, their unsorted copies at `r` and `s`. -/
theorem merge_halves {r s : ℕ} {copy1 copy2 : List (Option α)} (hp : heap.cells p = some left)
    (hq : heap.cells q = some right) (hr : heap.cells r = some copy1) (hs : heap.cells s = some copy2)
    (hrs : r ≠ s) (hps : p ≠ s) (hqr : q ≠ r) (hpq : p ≠ q) :
    Returns
      (do
        let heap ← freeCopy heap (some p) (some r)
        let heap ← freeCopy heap (some q) (some s)
        merger cmp heap (some p) (some q) num1 num2)
      (mergeLists cmp left right num1 num2)
      fun heap' a => heap.brk ≤ heap'.brk ∧
        (∀ b < heap.brk, b ≠ p → b ≠ q → b ≠ r → b ≠ s → heap'.cells b = heap.cells b) ∧
        (a = p ∨ a = q ∨ a = heap.brk) := by
  obtain ⟨heap₁, hfree₁, hbrk₁, hp₁, hold₁⟩ := freeCopy_eq p hr
  obtain ⟨heap₂, hfree₂, hbrk₂, hq₂, hold₂⟩ := freeCopy_eq q ((hold₁ s hrs.symm).trans hs)
  rw [hfree₁, ok_bind, hfree₂, ok_bind]
  have hleft : heap₂.cells p = some left := by rw [hold₂ p hps, hp₁, hp]
  have hright : heap₂.cells q = some right := by rw [hq₂, hold₁ q hqr, hq]
  refine (merger_returns hleft hright hpq).imp fun heap' a => ?_
  rw [hbrk₂, hbrk₁]
  rintro ⟨hbrk, hold, ha⟩
  refine ⟨hbrk, fun b hb hbp hbq hbr hbs => ?_, ha⟩
  rw [hold b hb hbp hbq, hold₂ b hbs, hold₁ b hbr]

/-- The copies of the halves are at the next two addresses. -/
theorem alloc_halves (heap : Heap (List (Option α))) (left right : List (Option α)) :
    ∃ heap', (heap.alloc left).alloc right = heap' ∧ heap'.brk = heap.brk + 2 ∧
      heap'.cells heap.brk = some left ∧ heap'.cells (heap.brk + 1) = some right ∧
      ∀ b < heap.brk, heap'.cells b = heap.cells b := by
  refine ⟨_, rfl, rfl, Heap.cells_alloc_of_some Heap.cells_alloc_self, Heap.cells_alloc_self, ?_⟩
  intro b hb
  have hne : b ≠ (heap.alloc left).brk := by
    show b ≠ heap.brk + 1
    omega
  rw [Heap.cells_alloc_of_ne hne, Heap.cells_alloc_of_ne hb.ne]

/-- **The heap** is used for the blocks and for nothing else. Those that were there before stay as they
are. -/
theorem mergesort_simulates (cmp : Option α → Option α → ℤ) (count : ℕ)
    (hcontents : heap.cells a = some contents) :
    Returns (mergesort cmp heap (some a) count) (sortBlock cmp contents count)
      fun heap' p => heap.brk ≤ heap'.brk ∧ (∀ b < heap.brk, heap'.cells b = heap.cells b) ∧
        (p = a ∨ heap.brk ≤ p) := by
  induction count using Nat.strong_induction_on generalizing heap a contents with
  | _ count ih =>
    rw [mergesort, sortBlock]
    by_cases hcount : count ≤ 1
    · rw [if_pos hcount, if_pos hcount]
      exact ⟨heap, a, rfl, hcontents, le_rfl, fun _ _ => rfl, Or.inl rfl⟩
    rw [if_neg hcount, if_neg hcount]
    simp only []
    have hload : (heap.load (some a) : Except Fault (List (Option α))) = .ok contents :=
      Heap.load_eq hcontents
    rw [hload, ok_bind]
    cases hl : copyHalf contents 0 (count / 2) with
    | error e => rfl
    | ok left =>
    cases hr : copyHalf contents (count / 2) (count - count / 2) with
    | error e => rfl
    | ok right =>
    simp only [ok_bind]
    obtain ⟨heap₀, hheap₀, hbrk₀, hleft₀, hright₀, hold₀⟩ := alloc_halves heap left right
    have hbrk₁ : (heap.alloc left).brk = heap.brk + 1 := rfl
    rw [hheap₀, hbrk₁]
    apply (ih (count / 2) (by omega) hleft₀).bind
    rintro heap₁ p ls hp ⟨hbrk₁, hold₁, hp₁⟩
    have hright₁ : heap₁.cells (heap.brk + 1) = some right := by
      rw [hold₁ _ (by omega), hright₀]
    -- sorting the right half leaves both copies and the sorted left half where they are
    apply (ih (count - count / 2) (by omega) hright₁).bind
    rintro heap₂ q rs hq ⟨hbrk₂, hold₂, hq₂⟩
    have hplt : p < heap₁.brk := Heap.lt_brk hp
    have hp' : heap₂.cells p = some ls := by rw [hold₂ p hplt, hp]
    have hleft₂ : heap₂.cells heap.brk = some left := by
      rw [hold₂ _ (by omega), hold₁ _ (by omega), hleft₀]
    have hright₂ : heap₂.cells (heap.brk + 1) = some right := by
      rw [hold₂ _ (by omega), hright₁]
    apply (merge_halves hp' hq hleft₂ hright₂ (by omega) (by omega) (by omega) (by omega)).imp
    rintro heap₃ r ⟨hbrk₃, hold₃, hr₃⟩
    refine ⟨by omega, fun b hb => ?_, by omega⟩
    rw [hold₃ b (by omega) (by omega) (by omega) (by omega) (by omega), hold₂ b (by omega),
      hold₁ b (by omega), hold₀ b hb]

end Heap

end Algos

/-- **`DArray_mergesort`** replaces the slots by the block that comes back. -/
theorem mergesort_ok_iff {array array' : DArray α} {cmp : Option α → Option α → ℤ} :
    array.mergesort cmp = .ok array' ↔
      ∃ block, Algos.sortBlock cmp array.contents array.end.toNat = .ok block ∧
        array' = { array with contents := block } := by
  have hcell : (Heap.empty.alloc array.contents).cells Heap.empty.brk = some array.contents :=
    Heap.cells_alloc_self
  have hsim := Algos.mergesort_simulates cmp array.end.toNat hcell
  unfold mergesort
  simp only []
  -- both fail, or both leave the same block
  cases hblock : Algos.sortBlock cmp array.contents array.end.toNat with
  | error e =>
    rw [hblock] at hsim
    have hrun : Algos.mergesort cmp _ _ _ = .error e := hsim
    rw [hrun]
    constructor
    · rintro h
      cases h
    · rintro ⟨block, h, -⟩
      cases h
  | ok block =>
    rw [hblock] at hsim
    obtain ⟨heap, a, hrun, hcell, -⟩ := hsim
    have hload : (heap.load (some a) : Except Fault (List (Option α))) = .ok block := Heap.load_eq hcell
    rw [hrun]
    simp only [ok_bind]
    rw [hload]
    constructor
    · rintro h
      exact ⟨block, rfl, (Except.ok.inj h).symm⟩
    · rintro ⟨block', h, rfl⟩
      obtain rfl := Except.ok.inj h
      rfl

end Lcthw.DArray
