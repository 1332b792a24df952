import Mathlib

/-!
# Heap — blocks, pointers and their faults

A heap maps addresses to the blocks in use. An address that has been handed out is not handed out
again, so a pointer to a block that was freed stays dangling for good.

* **`alloc`**, **`put`**, **`drop`** change the block at one address and no other.
* **`load`**, **`modify`**, **`free`** go through a pointer, and fault on the null pointer and on one
  that dangles; `HeapFault` says which faults those are in a given setting.
* **`inUse`**: the addresses of the blocks in use, of which there is one more after an `alloc` and one
  less after a `drop`.
-/

/-- The faults of accesses through a pointer. -/
class HeapFault (ε : Type*) where
  null : ε
  dangling : ε

/-- A pointer to a block; `none` is the null pointer. -/
abbrev Ptr := Option ℕ

structure Heap (α : Type*) where
  /-- the blocks in use -/
  cells : ℕ → Option α
  /-- the next address to be handed out -/
  brk : ℕ
  fresh : ∀ a, brk ≤ a → cells a = none

namespace Heap

variable {α ε : Type*}

def empty : Heap α :=
  { cells := fun _ => none, brk := 0, fresh := fun _ _ => rfl }

/-- The heap with one more block, at the address `brk`. -/
def alloc (h : Heap α) (x : α) : Heap α where
  cells := Function.update h.cells h.brk (some x)
  brk := h.brk + 1
  fresh a ha := by
    rw [Function.update_of_ne (by omega)]
    exact h.fresh a (by omega)

/-- The heap with the block at `a`, when there is one, changed by `f`. -/
def put (h : Heap α) (a : ℕ) (f : α → α) : Heap α where
  cells := Function.update h.cells a ((h.cells a).map f)
  brk := h.brk
  fresh b hb := by
    by_cases hba : b = a
    · subst hba
      rw [Function.update_self, h.fresh b hb]
      rfl
    · rw [Function.update_of_ne hba]
      exact h.fresh b hb

/-- The heap without the block at `a`. -/
def drop (h : Heap α) (a : ℕ) : Heap α where
  cells := Function.update h.cells a none
  brk := h.brk
  fresh b hb := by
    by_cases hba : b = a
    · subst hba
      exact Function.update_self ..
    · rw [Function.update_of_ne hba]
      exact h.fresh b hb

variable [HeapFault ε]

def load (h : Heap α) (p : Ptr) : Except ε α :=
  match p with
  | none => .error HeapFault.null
  | some a =>
    match h.cells a with
    | none => .error HeapFault.dangling
    | some x => .ok x

def modify (h : Heap α) (p : Ptr) (f : α → α) : Except ε (Heap α) :=
  match p with
  | none => .error HeapFault.null
  | some a => if (h.cells a).isSome then .ok (h.put a f) else .error HeapFault.dangling

/-- Freeing the null pointer does nothing. -/
def free (h : Heap α) (p : Ptr) : Except ε (Heap α) :=
  match p with
  | none => .ok h
  | some a => if (h.cells a).isSome then .ok (h.drop a) else .error HeapFault.dangling

/-! ## One block at a time

Every operation is about one address. What the cells are at that address and at any other one is a lemma
each, so that no later proof unfolds an operation. The accesses through a pointer have one lemma for the
case that they succeed, and one that says what block an access went to that did not fault. -/

variable {h : Heap α} {a b : ℕ} {x : α}

@[simp] theorem cells_empty : (empty : Heap α).cells a = none := rfl

@[simp] theorem cells_alloc_self : (h.alloc x).cells h.brk = some x :=
  Function.update_self ..

theorem cells_alloc_of_ne (hab : b ≠ h.brk) : (h.alloc x).cells b = h.cells b :=
  Function.update_of_ne hab ..

theorem cells_put_self {f : α → α} (hx : h.cells a = some x) : (h.put a f).cells a = some (f x) := by
  show Function.update h.cells a ((h.cells a).map f) a = some (f x)
  rw [Function.update_self, hx]
  rfl

theorem cells_put_of_ne {f : α → α} (hab : b ≠ a) : (h.put a f).cells b = h.cells b :=
  Function.update_of_ne hab ..

@[simp] theorem cells_drop_self : (h.drop a).cells a = none :=
  Function.update_self ..

theorem cells_drop_of_ne (hab : b ≠ a) : (h.drop a).cells b = h.cells b :=
  Function.update_of_ne hab ..

/-- A block in use lies below the next address to be handed out. -/
theorem lt_brk (hx : h.cells a = some x) : a < h.brk := by
  by_contra hge
  rw [h.fresh a (by omega)] at hx
  cases hx

theorem ne_brk (hx : h.cells a = some x) : a ≠ h.brk :=
  (lt_brk hx).ne

/-- A block that was in use before an allocation still is. -/
theorem cells_alloc_of_some {y : α} (hx : h.cells a = some x) : (h.alloc y).cells a = some x := by
  rw [cells_alloc_of_ne (ne_brk hx), hx]

theorem load_eq (hx : h.cells a = some x) : (h.load (some a) : Except ε α) = .ok x := by
  simp only [load, hx]

theorem modify_eq {f : α → α} (hx : h.cells a = some x) :
    (h.modify (some a) f : Except ε (Heap α)) = .ok (h.put a f) := by
  simp only [modify, hx, Option.isSome_some, if_true]

theorem free_eq (hx : h.cells a = some x) :
    (h.free (some a) : Except ε (Heap α)) = .ok (h.drop a) := by
  simp only [free, hx, Option.isSome_some, if_true]

/-- An access that does not fault goes to a block in use. -/
theorem of_load {p : Ptr} (hload : (h.load p : Except ε α) = .ok x) :
    ∃ a, p = some a ∧ h.cells a = some x := by
  cases p with
  | none => cases hload
  | some a =>
    cases hcell : h.cells a with
    | none =>
      simp only [load, hcell] at hload
      cases hload
    | some y =>
      rw [load_eq hcell] at hload
      exact ⟨a, rfl, hcell.trans (congrArg some (Except.ok.inj hload))⟩

theorem of_modify {p : Ptr} {f : α → α} {h' : Heap α}
    (hmodify : (h.modify p f : Except ε (Heap α)) = .ok h') :
    ∃ a x, p = some a ∧ h.cells a = some x ∧ h' = h.put a f := by
  cases p with
  | none => cases hmodify
  | some a =>
    cases hcell : h.cells a with
    | none =>
      simp only [modify, hcell] at hmodify
      cases hmodify
    | some x =>
      rw [modify_eq hcell] at hmodify
      exact ⟨a, x, rfl, hcell, (Except.ok.inj hmodify).symm⟩

/-! ## The blocks in use

The blocks in use lie below the next address to be handed out, so they are a finite set and can be
counted. An allocation puts one address in and giving a block back takes one out. This is what says that
memory is not lost. -/

/-- Where the blocks in use are. -/
def inUse (h : Heap α) : Finset ℕ :=
  (Finset.range h.brk).filter fun a => (h.cells a).isSome

theorem mem_inUse : a ∈ h.inUse ↔ ∃ x, h.cells a = some x := by
  rw [inUse, Finset.mem_filter, Finset.mem_range, ← Option.isSome_iff_exists]
  refine and_iff_right_of_imp fun hsome => ?_
  obtain ⟨x, hx⟩ := Option.isSome_iff_exists.mp hsome
  exact lt_brk hx

@[simp] theorem inUse_empty : (empty : Heap α).inUse = ∅ := rfl

theorem brk_notMem_inUse : h.brk ∉ h.inUse := by
  rw [mem_inUse]
  rintro ⟨x, hx⟩
  exact ne_brk hx rfl

theorem inUse_alloc : (h.alloc x).inUse = insert h.brk h.inUse := by
  ext b
  rw [Finset.mem_insert, mem_inUse, mem_inUse]
  by_cases hb : b = h.brk
  · subst hb
    exact iff_of_true ⟨x, cells_alloc_self⟩ (Or.inl rfl)
  · rw [cells_alloc_of_ne hb]
    exact (or_iff_right hb).symm

theorem card_inUse_alloc : (h.alloc x).inUse.card = h.inUse.card + 1 := by
  rw [inUse_alloc, Finset.card_insert_of_notMem brk_notMem_inUse]

@[simp] theorem inUse_put {f : α → α} : (h.put a f).inUse = h.inUse := by
  ext b
  rw [mem_inUse, mem_inUse]
  by_cases hb : b = a
  · subst hb
    cases hx : h.cells b with
    | none =>
      have hput : (h.put b f).cells b = none := by
        show Function.update h.cells b ((h.cells b).map f) b = none
        rw [Function.update_self, hx]
        rfl
      rw [hput]
    | some x => exact iff_of_true ⟨f x, cells_put_self hx⟩ ⟨x, rfl⟩
  · rw [cells_put_of_ne hb]

theorem inUse_drop : (h.drop a).inUse = h.inUse.erase a := by
  ext b
  rw [Finset.mem_erase, mem_inUse, mem_inUse]
  by_cases hb : b = a
  · subst hb
    refine iff_of_false ?_ fun hne => hne.1 rfl
    rintro ⟨x, hx⟩
    rw [cells_drop_self] at hx
    cases hx
  · rw [cells_drop_of_ne hb]
    exact (and_iff_right hb).symm

/-- A block in use is one less when it is given back. -/
theorem card_inUse_drop (hx : h.cells a = some x) : (h.drop a).inUse.card + 1 = h.inUse.card := by
  rw [inUse_drop]
  exact Finset.card_erase_add_one (mem_inUse.mpr ⟨x, hx⟩)

theorem inUse_of_modify {p : Ptr} {f : α → α} {h' : Heap α}
    (hmodify : (h.modify p f : Except ε (Heap α)) = .ok h') : h'.inUse = h.inUse := by
  obtain ⟨a, x, -, -, rfl⟩ := of_modify hmodify
  exact inUse_put

end Heap
