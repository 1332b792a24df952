import Lcthw.Base

/-!
# Lcthw — the dynamic array (`darray.c`)

An array of pointers: `contents` are its allocated slots, `max` is how many there are to be, and the
first `end` are in use. A slot is NULL or points to an element. What `realloc` answers is a parameter:
no block, or one that has any `Junk` in the slots that it appends.

* **`Holds`**: the array is well formed and its elements are these.
* **`push_eq`**, **`pop_eq`**, **`set_eq`**, **`pushSort_eq`**: the operations on the elements, when an
  array that has to grow gets a block.
* **`push_full`**: what a push leaves of an array that cannot grow.
-/

namespace Lcthw

structure DArray (α : Type) where
  «end» : ℤ
  max : ℤ
  contents : List (Option α)

def DEFAULT_EXPAND_RATE : ℤ := 300

namespace DArray

variable {α : Type}

/-! ## The operations

The ones that may need another block return the result of the source beside the array: 0, or -1 when
`realloc` has failed. The array is then as the source leaves it. -/

/-- `DArray_create`, with `calloc`. -/
def create (initial_max : ℤ) : DArray α :=
  { «end» := 0, max := initial_max, contents := List.replicate initial_max.toNat none }

/-- `DArray_get` -/
def get (array : DArray α) (i : ℤ) : Except Fault (Option α) :=
  if i < array.max then readAt array.contents i else pure none

/-- `DArray_set` -/
def set (array : DArray α) (i : ℤ) (el : Option α) : Except Fault (DArray α) :=
  if i < array.max then do
    let contents ← writeAt array.contents i el
    pure { array with «end» := if i > array.end then i else array.end, contents }
  else pure array

/-- What `realloc` finds in the slots that it appends: the pointer in each slot, and what is left of it
without its five low bytes. -/
structure Junk (α : Type) where
  slot : ℕ → Option α
  high : ℕ → Option α
  high_null : ∀ i, slot i = none → high i = none

/-- Memory that holds nothing but zeros. -/
def Junk.null : Junk α where
  slot _ := none
  high _ := none
  high_null _ _ := rfl

/-- `realloc` of a block of pointers. -/
def realloc (junk : Junk α) (contents : List (Option α)) (n : ℕ) : List (Option α) :=
  contents.take n ++ (List.range' contents.length (n - contents.length)).map junk.slot

/-- 301 bytes from the slot `n` on are 37 pointers, and the five low bytes of one more. -/
def zeroed (high : Option α) (contents : List (Option α)) (n : ℕ) : List (Option α) :=
  contents.take n ++ List.replicate 37 none ++ high :: contents.drop (n + 38)

section Realloc

variable (block : Option (Junk α))

/-- The block of `max` slots that `realloc` gives back. A negative number of slots is a size that no
block has. -/
def given (max : ℤ) : Option (Junk α) :=
  if max < 0 then none else block

/-- `DArray_resize`. The new size is stored before there is a block for it, and is an `int`; the check
negates `array->max` alone, so it stops at 0 only. -/
def resize (array : DArray α) (newsize : ℤ) : ℤ × DArray α :=
  let array := { array with max := toInt newsize }
  if array.max = 0 then (-1, array)
  else
    match given block array.max with
    | none => (-1, array)
    | some junk => (0, { array with contents := realloc junk array.contents array.max.toNat })

/-- `memset(array->contents + old_max, 0, array->expand_rate + 1)`, which counts bytes. -/
def clear (contents : List (Option α)) (old_max : ℤ) : Except Fault (List (Option α)) :=
  if 0 ≤ old_max ∧ old_max + 38 ≤ contents.length then
    let n := old_max.toNat
    pure (zeroed (block.bind fun junk => junk.high (n + 37)) contents n)
  else throw .outOfBounds

/-- `DArray_expand` -/
def expand (array : DArray α) : Except Fault (ℤ × DArray α) := do
  let old_max := array.max
  let (rc, array) := resize block array (array.max + DEFAULT_EXPAND_RATE)
  if rc = 0 then do
    let contents ← clear block array.contents old_max
    pure (0, { array with contents })
  else pure (-1, array)

/-- `DArray_contract` -/
def contract (array : DArray α) : Except Fault (ℤ × DArray α) := do
  let new_size := if array.end < DEFAULT_EXPAND_RATE then DEFAULT_EXPAND_RATE else array.end
  let newsize ← int (new_size + 1)
  pure (resize block array newsize)

/-- `DArray_push` -/
def push (array : DArray α) (el : Option α) : Except Fault (ℤ × DArray α) := do
  let contents ← writeAt array.contents array.end el
  let «end» ← int (array.end + 1)
  let array := { array with contents, «end» }
  if array.end ≥ array.max then expand block array else pure (0, array)

/-- `DArray_pop`. The `check` negates `array->end` alone, so it stops at an empty array only. Whether
the block could be made smaller is not looked at. -/
def pop (array : DArray α) : Except Fault (Option α × DArray α) :=
  if array.end = 0 then pure (none, array)
  else do
    let el ← readAt array.contents (array.end - 1)
    let contents ← writeAt array.contents (array.end - 1) none
    let array := { array with contents, «end» := array.end - 1 }
    if array.end > DEFAULT_EXPAND_RATE ∧ array.end % DEFAULT_EXPAND_RATE ≠ 0 then do
      let (_, array) ← contract block array
      pure (el, array)
    else pure (el, array)

/-- The loop of `DArray_push_sort`, from the slot `i` down. -/
def sink (cmp : Option α → Option α → Except Fault ℤ) (contents : List (Option α)) :
    ℕ → Except Fault (List (Option α))
  | 0 => pure contents
  | i + 1 => do
      let x ← readAt contents (i + 1 : ℕ)
      let y ← readAt contents (i : ℕ)
      if (← cmp x y) > 0 then pure contents
      else sink cmp ((contents.set (i + 1) y).set i x) i

/-- `DArray_push_sort`. An element that is pushed with an error stays at the end. -/
def pushSort (array : DArray α) (el : Option α) (cmp : Option α → Option α → Except Fault ℤ) :
    Except Fault (ℤ × DArray α) := do
  let (rc, array) ← push block array el
  if rc = 0 then do
    let contents ← sink cmp array.contents (array.end - 1).toNat
    pure (0, { array with contents })
  else pure (-1, array)

end Realloc

/-! ## What an array holds

`Holds` is the invariant of all operations: as many slots as `max` says, the elements in the first of
them, and one slot more than that. It determines the elements (`Holds.unique`), so a statement about the
elements of an array is one about the array. -/

/-- The elements of a well-formed array. -/
structure Holds (array : DArray α) (xs : List (Option α)) : Prop where
  «end» : array.end = xs.length
  room : array.end < array.max
  max : array.max ≤ INT_MAX
  length : (array.contents.length : ℤ) = array.max
  elements : array.contents.take xs.length = xs

theorem holds_create {initial_max : ℤ} (h : 0 < initial_max) (hmax : initial_max ≤ INT_MAX) :
    (create initial_max : DArray α).Holds [] where
  «end» := rfl
  room := h
  max := hmax
  length := by
    show ((List.replicate initial_max.toNat (none : Option α)).length : ℤ) = initial_max
    rw [List.length_replicate]
    omega
  elements := rfl

variable {array : DArray α} {xs : List (Option α)}

theorem Holds.getElem? (h : array.Holds xs) {i : ℕ} (hi : i < xs.length) :
    array.contents[i]? = xs[i]? := by
  rw [← h.elements, List.getElem?_take_of_lt hi]

theorem Holds.readAt (h : array.Holds xs) {i : ℕ} {el : Option α} (hi : xs[i]? = some el) :
    readAt array.contents i = .ok el :=
  readAt_eq (by rw [h.getElem? (List.getElem?_eq_some_iff.mp hi).1, hi])

theorem Holds.get (h : array.Holds xs) {i : ℕ} {el : Option α} (hi : xs[i]? = some el) :
    array.get i = .ok el := by
  have hlt := (List.getElem?_eq_some_iff.mp hi).1
  have hend := h.end
  have hroom := h.room
  unfold DArray.get
  rw [if_pos (by omega)]
  exact h.readAt hi

theorem Holds.lt_length (h : array.Holds xs) {i : ℕ} (hi : i < xs.length) :
    i < array.contents.length := by
  have hend := h.end
  have hroom := h.room
  have hlength := h.length
  omega

theorem Holds.unique {ys : List (Option α)} (hx : array.Holds xs) (hy : array.Holds ys) :
    xs = ys := by
  have hlength : xs.length = ys.length := by exact_mod_cast hx.end.symm.trans hy.end
  rw [← hx.elements, ← hy.elements, hlength]

/-- An element is overwritten. -/
theorem Holds.write (h : array.Holds xs) (i : ℕ) (el : Option α) :
    { array with contents := array.contents.set i el }.Holds (xs.set i el) where
  «end» := by
    rw [List.length_set]
    exact h.end
  room := h.room
  max := h.max
  length := by
    rw [List.length_set]
    exact h.length
  elements := by
    rw [List.length_set, List.take_set, h.elements]

/-- An element is replaced. -/
theorem set_eq (h : array.Holds xs) {i : ℕ} (hi : i < xs.length) (el : Option α) :
    ∃ array', array.set i el = .ok array' ∧ array'.Holds (xs.set i el) := by
  have hend := h.end
  have hroom := h.room
  refine ⟨_, ?_, h.write i el⟩
  unfold DArray.set
  rw [if_pos (by omega), writeAt_eq (h.lt_length hi), ok_bind, if_neg (by omega)]
  rfl

/-! ## Another block

An array that gets the block it asks for is `expanded` or `contracted`. One that does not keeps its slots
and has the size of the block it asked for. -/

section Realloc

variable (junk : Junk α) {block : Option (Junk α)} {n : ℤ}

theorem take_realloc {contents : List (Option α)} {n k : ℕ} (hk : k ≤ n)
    (hkc : k ≤ contents.length) : (realloc junk contents n).take k = contents.take k := by
  unfold realloc
  rw [List.take_append_of_le_length (by rw [List.length_take]; omega), List.take_take,
    Nat.min_eq_left hk]

theorem length_realloc (contents : List (Option α)) (n : ℕ) :
    (realloc junk contents n).length = n := by
  unfold realloc
  rw [List.length_append, List.length_take, List.length_map, List.length_range']
  omega

theorem length_zeroed (high : Option α) {contents : List (Option α)} {n : ℕ}
    (hn : n + 38 ≤ contents.length) : (zeroed high contents n).length = contents.length := by
  simp only [zeroed, List.length_append, List.length_take, List.length_cons, List.length_drop,
    List.length_replicate]
  omega

/-- The slots in front of those that `memset` clears stay as they are. -/
theorem take_zeroed (high : Option α) {contents : List (Option α)} {n k : ℕ} (hk : k ≤ n)
    (hn : n ≤ contents.length) : (zeroed high contents n).take k = contents.take k := by
  unfold zeroed
  rw [List.append_assoc, List.take_append_of_le_length (by rw [List.length_take]; omega),
    List.take_take, Nat.min_eq_left hk]

theorem resize_some (array : DArray α) (hpos : 0 < n) (hmax : n ≤ INT_MAX) :
    resize (some junk) array n =
      (0, { array with max := n, contents := realloc junk array.contents n.toNat }) := by
  have hmin : INT_MAX = 2 ^ 31 - 1 := rfl
  unfold resize given
  simp only []
  rw [toInt_eq (by omega) hmax, if_neg (by omega), if_neg (by omega)]

/-- The new size stays although there is no block for it. -/
theorem resize_none (array : DArray α) (h : given block (toInt n) = none) :
    resize block array n = (-1, { array with max := toInt n }) := by
  unfold resize
  simp only []
  rw [h, ite_self]

theorem given_of_neg (block : Option (Junk α)) (h : n < 0) : given block n = none :=
  if_pos h

/-- More slots than an `int` counts come out as a negative number of them. -/
theorem toInt_expanded_neg {array : DArray α} (hmax : array.max ≤ INT_MAX)
    (hbig : INT_MAX < array.max + DEFAULT_EXPAND_RATE) :
    toInt (array.max + DEFAULT_EXPAND_RATE) < 0 := by
  have hrate : DEFAULT_EXPAND_RATE = 300 := rfl
  have hint : INT_MAX = 2 ^ 31 - 1 := rfl
  have hwrap : toInt (array.max + DEFAULT_EXPAND_RATE) =
      toInt (array.max + DEFAULT_EXPAND_RATE - 2 ^ 32) := by
    unfold toInt
    exact (Int.sub_mul_bmod_self_right _ 1 (2 ^ 32)).symm
  rw [hwrap, toInt_eq (by omega) (by omega)]
  omega

/-- The array with 300 slots more. -/
def expanded (array : DArray α) : DArray α :=
  { array with
    max := array.max + DEFAULT_EXPAND_RATE
    contents := zeroed (junk.high (array.contents.length + 37))
      (realloc junk array.contents (array.contents.length + 300)) array.contents.length }

/-- **`DArray_expand`** of an array that gets its block. -/
theorem expand_some {array : DArray α} (hlength : (array.contents.length : ℤ) = array.max)
    (hroom : array.max + DEFAULT_EXPAND_RATE ≤ INT_MAX) :
    array.expand (some junk) = .ok (0, array.expanded junk) := by
  have hrate : DEFAULT_EXPAND_RATE = 300 := rfl
  have hsize : (array.max + DEFAULT_EXPAND_RATE).toNat = array.contents.length + 300 := by omega
  have hinside : (0 : ℤ) ≤ array.contents.length ∧ (array.contents.length : ℤ) + 38 ≤
      (realloc junk array.contents (array.contents.length + 300)).length := by
    rw [length_realloc]
    omega
  unfold expand clear
  simp only []
  rw [resize_some junk array (by omega) hroom, ← hlength, if_pos rfl, hlength, hsize, ← hlength]
  simp only []
  rw [if_pos hinside, Int.toNat_natCast, expanded, ← hlength]
  rfl

theorem expand_none (array : DArray α)
    (h : given block (toInt (array.max + DEFAULT_EXPAND_RATE)) = none) :
    array.expand block = .ok (-1, { array with max := toInt (array.max + DEFAULT_EXPAND_RATE) }) := by
  unfold expand
  simp only []
  rw [resize_none array h]
  rfl

/-- As many slots as `DArray_contract` asks for. -/
def contractedSize (array : DArray α) : ℤ :=
  (if array.end < DEFAULT_EXPAND_RATE then DEFAULT_EXPAND_RATE else array.end) + 1

theorem contract_some {array : DArray α} (hmax : array.contractedSize ≤ INT_MAX) :
    array.contract (some junk) = .ok (0, { array with
      max := array.contractedSize
      contents := realloc junk array.contents array.contractedSize.toNat }) := by
  have hrate : DEFAULT_EXPAND_RATE = 300 := rfl
  have hmin : INT_MAX = 2 ^ 31 - 1 := rfl
  have hpos : 0 < array.contractedSize := by
    unfold contractedSize
    split <;> omega
  have hint : int array.contractedSize = .ok array.contractedSize := int_ok (by omega) hmax
  show (int array.contractedSize >>= fun newsize => pure (resize (some junk) array newsize)) = _
  rw [hint, ok_bind, resize_some junk array hpos hmax]
  rfl

variable {array : DArray α} {xs : List (Option α)}

/-- **`DArray_expand`** keeps the elements, also when all slots are in use. -/
theorem holds_expanded (hend : array.end = xs.length) (hle : array.end ≤ array.max)
    (hlength : (array.contents.length : ℤ) = array.max) (helements : array.contents.take xs.length = xs)
    (hroom : array.max + DEFAULT_EXPAND_RATE ≤ INT_MAX) : (array.expanded junk).Holds xs := by
  have hrate : DEFAULT_EXPAND_RATE = 300 := rfl
  have hsize : (realloc junk array.contents (array.contents.length + 300)).length =
      array.contents.length + 300 := length_realloc ..
  refine ⟨hend, ?_, hroom, ?_, ?_⟩
  · show array.end < array.max + DEFAULT_EXPAND_RATE
    omega
  · show ((zeroed _ _ _).length : ℤ) = array.max + DEFAULT_EXPAND_RATE
    rw [length_zeroed _ (by omega), hsize]
    omega
  · show (zeroed _ _ _).take xs.length = xs
    rw [take_zeroed _ (by omega) (by omega), take_realloc junk (by omega) (by omega), helements]

theorem expand_eq (h : array.Holds xs) (hroom : array.max + DEFAULT_EXPAND_RATE ≤ INT_MAX) :
    ∃ array', array.expand (some junk) = .ok (0, array') ∧ array'.Holds xs :=
  ⟨_, expand_some junk h.length hroom,
    holds_expanded junk h.end h.room.le h.length h.elements hroom⟩

theorem Holds.contractedSize_le (h : array.Holds xs) : array.contractedSize ≤ INT_MAX := by
  have hrate : DEFAULT_EXPAND_RATE = 300 := rfl
  have hmin : INT_MAX = 2 ^ 31 - 1 := rfl
  have hroom := h.room
  have hmax := h.max
  unfold contractedSize
  split <;> omega

/-- **`DArray_contract`** keeps the elements. -/
theorem contract_eq (h : array.Holds xs) :
    ∃ array', array.contract (some junk) = .ok (0, array') ∧ array'.Holds xs := by
  have hrate : DEFAULT_EXPAND_RATE = 300 := rfl
  have hfit := h.contractedSize_le
  obtain ⟨hend, hlt, hmax, hlength, helements⟩ := h
  have hsize : array.end < array.contractedSize := by
    unfold contractedSize
    split <;> omega
  refine ⟨_, contract_some junk hfit, ⟨hend, hsize, hfit, ?_, ?_⟩⟩
  · show ((realloc junk array.contents array.contractedSize.toNat).length : ℤ) = array.contractedSize
    rw [length_realloc]
    omega
  · show (realloc junk array.contents array.contractedSize.toNat).take xs.length = xs
    rw [take_realloc junk (by omega) (by omega), helements]

end Realloc

/-! ## Pushing and popping

A push stores its element first and then looks whether all slots are in use. What it leaves when the
array cannot grow is an array that is overfull: no later push can store anything in it. -/

section Push

variable {array : DArray α} {xs : List (Option α)} (junk : Junk α) (block : Option (Junk α))

/-- Allocation succeeds: a push that asks for a block gets one. -/
def Allocates (array : DArray α) (block : Option (Junk α)) : Prop :=
  array.max ≤ array.end + 1 → (given block (toInt (array.max + DEFAULT_EXPAND_RATE))).isSome

/-- There is a free slot behind the push, or room for 300 more. -/
theorem allocates_iff {block : Option (Junk α)} (h : array.Holds xs) : array.Allocates block ↔
    array.end + 1 < array.max ∨
      array.max + DEFAULT_EXPAND_RATE ≤ INT_MAX ∧ ∃ junk, block = some junk := by
  have hrate : DEFAULT_EXPAND_RATE = 300 := rfl
  have hmin : INT_MAX = 2 ^ 31 - 1 := rfl
  have hend := h.end
  have hlt := h.room
  unfold Allocates
  by_cases hfull : array.max ≤ array.end + 1
  · rw [imp_iff_right hfull, or_iff_right (not_lt.mpr hfull)]
    by_cases hfit : array.max + DEFAULT_EXPAND_RATE ≤ INT_MAX
    · rw [toInt_eq (by omega) hfit, given, if_neg (by omega), Option.isSome_iff_exists,
        and_iff_right hfit]
    · rw [given_of_neg block (toInt_expanded_neg h.max (not_le.mp hfit))]
      exact iff_of_false (by simp) fun hroom => hfit hroom.1
  · exact iff_of_true (fun hle => absurd hle hfull) (Or.inl (not_le.mp hfull))

theorem Holds.allocates (h : array.Holds xs)
    (hroom : array.end + 1 < array.max ∨ array.max + DEFAULT_EXPAND_RATE ≤ INT_MAX) :
    array.Allocates (some junk) :=
  (allocates_iff h).mpr (hroom.imp_right fun hfit => ⟨hfit, junk, rfl⟩)

/-- The array with an element behind its `n` elements, and counted. -/
def stored (array : DArray α) (n : ℕ) (el : Option α) : DArray α :=
  { array with contents := array.contents.set n el, «end» := array.end + 1 }

/-- A push stores its element, and makes the array larger when that took the last slot. -/
theorem push_stored (h : array.Holds xs) (el : Option α) :
    array.push block el =
      if array.end + 1 ≥ array.max then (array.stored xs.length el).expand block
      else .ok (0, array.stored xs.length el) := by
  have hmin : INT_MAX = 2 ^ 31 - 1 := rfl
  obtain ⟨hend, hlt, hmax, hlength, -⟩ := h
  have hint : int (array.end + 1) = .ok (array.end + 1) := int_ok (by omega) (by omega)
  unfold push
  rw [hend, writeAt_eq (by omega), ok_bind, ← hend, hint, ok_bind]
  rfl

/-- What is in the slots by then. -/
theorem Holds.stored (h : array.Holds xs) (el : Option α) :
    (array.stored xs.length el).end = ((xs ++ [el]).length : ℤ) ∧
      ((array.stored xs.length el).contents.length : ℤ) = array.max ∧
      (array.stored xs.length el).contents.take (xs ++ [el]).length = xs ++ [el] := by
  obtain ⟨hend, hlt, hmax, hlength, helements⟩ := h
  have hlen : (xs ++ [el]).length = xs.length + 1 := by
    rw [List.length_append, List.length_singleton]
  refine ⟨?_, ?_, ?_⟩
  · show array.end + 1 = _
    rw [hlen, hend]
    rfl
  · show ((array.contents.set xs.length el).length : ℤ) = array.max
    rw [List.length_set]
    exact hlength
  · show (array.contents.set xs.length el).take _ = _
    rw [hlen, List.take_add_one, List.take_set_of_le le_rfl, helements,
      List.getElem?_set_self (by omega)]
    rfl

/-- **One push.** -/
theorem push_eq {block : Option (Junk α)} (h : array.Holds xs) (el : Option α)
    (halloc : array.Allocates block) :
    ∃ array', array.push block el = .ok (0, array') ∧ array'.Holds (xs ++ [el]) := by
  obtain ⟨hend', hlength', helements'⟩ := h.stored el
  rw [push_stored block h el]
  -- the array grows once the new element has taken its last slot
  by_cases hfull : array.end + 1 ≥ array.max
  · have hlt := h.room
    have hle : array.end + 1 ≤ array.max := by omega
    obtain ⟨hfit, junk, rfl⟩ := ((allocates_iff h).mp halloc).resolve_left (not_lt.mpr hfull)
    rw [if_pos hfull]
    exact ⟨_, expand_some junk hlength' hfit, holds_expanded junk hend' hle hlength' helements' hfit⟩
  · rw [if_neg hfull]
    exact ⟨_, rfl, hend', not_le.mp hfull, h.max, hlength', helements'⟩

/-- A push that fills the array makes it larger. -/
theorem push_max (h : array.Holds xs) {array' : DArray α} {el : Option α} {rc : ℤ}
    (hroom : array.end + 1 < array.max ∨ array.max + DEFAULT_EXPAND_RATE ≤ INT_MAX)
    (hpush : array.push (some junk) el = .ok (rc, array')) :
    array'.max =
      if array.end + 1 ≥ array.max then array.max + DEFAULT_EXPAND_RATE else array.max := by
  rw [push_stored (some junk) h el] at hpush
  by_cases hfull : array.end + 1 ≥ array.max
  · rw [if_pos hfull] at hpush ⊢
    have hfit : array.max + DEFAULT_EXPAND_RATE ≤ INT_MAX := hroom.resolve_left (not_lt.mpr hfull)
    rw [expand_some junk (h.stored el).2.1 hfit] at hpush
    obtain ⟨-, rfl⟩ := Prod.mk.inj (Except.ok.inj hpush)
    rfl
  · rw [if_neg hfull] at hpush ⊢
    obtain ⟨-, rfl⟩ := Prod.mk.inj (Except.ok.inj hpush)
    rfl

/-- The array after a push that could not make it larger: the element is counted, all slots are in use,
and `max` is what it was to become. -/
def overfull (array : DArray α) (n : ℕ) (el : Option α) : DArray α :=
  { array.stored n el with max := toInt (array.max + DEFAULT_EXPAND_RATE) }

/-- **A push that finds no block** has stored its element. -/
theorem push_full (h : array.Holds xs) (el : Option α) (hfull : array.max ≤ array.end + 1)
    (hnone : given block (toInt (array.max + DEFAULT_EXPAND_RATE)) = none) :
    array.push block el = .ok (-1, array.overfull xs.length el) := by
  rw [push_stored block h el, if_pos hfull]
  exact expand_none (array.stored xs.length el) hnone

/-- No push works on an array whose slots are all in use. -/
theorem push_behind {array : DArray α} (block : Option (Junk α)) (el : Option α)
    (h : (array.contents.length : ℤ) ≤ array.end) :
    array.push block el = .error .outOfBounds := by
  have hwrite : writeAt array.contents array.end el = .error .outOfBounds :=
    if_neg fun hi => not_lt.mpr h hi.2
  unfold push
  rw [hwrite]
  rfl

/-- **One pop.** -/
theorem pop_eq {el : Option α} (h : array.Holds (xs ++ [el])) :
    ∃ array', array.pop (some junk) = .ok (el, array') ∧ array'.Holds xs := by
  have hrate : DEFAULT_EXPAND_RATE = 300 := rfl
  have hmin : INT_MAX = 2 ^ 31 - 1 := rfl
  have hread : readAt array.contents xs.length = .ok el := h.readAt (by simp)
  obtain ⟨hend, hlt, hmax, hlength, helements⟩ := h
  rw [List.length_append, List.length_singleton] at hend helements
  have hlast : array.end - 1 = (xs.length : ℕ) := by omega
  have hcontents : (array.contents.set xs.length none).take xs.length = xs := by
    rw [List.take_set_of_le le_rfl]
    have htake := congrArg (List.take xs.length) helements
    rwa [List.take_take, Nat.min_eq_left (Nat.le_succ _), List.take_left] at htake
  have hlength' : ((array.contents.set xs.length none).length : ℤ) = array.max := by
    rw [List.length_set]
    exact hlength
  have hholds : Holds { array with contents := array.contents.set xs.length none, «end» := xs.length }
      xs := ⟨rfl, by show (xs.length : ℤ) < array.max; omega, hmax, hlength', hcontents⟩
  unfold pop
  rw [if_neg (by omega), hlast, hread, ok_bind, writeAt_eq (by omega), ok_bind]
  simp only []
  -- above 300 elements the block shrinks, unless their number is a multiple of 300
  by_cases hshrink : (xs.length : ℤ) > DEFAULT_EXPAND_RATE ∧
      (xs.length : ℤ) % DEFAULT_EXPAND_RATE ≠ 0
  · rw [if_pos hshrink]
    obtain ⟨array', hcontract, hholds'⟩ := contract_eq junk hholds
    rw [hcontract]
    exact ⟨array', rfl, hholds'⟩
  · rw [if_neg hshrink]
    exact ⟨_, rfl, hholds⟩

end Push

/-! ## Pushing in order

A sorted push is a push, behind which the new element sinks past those that it is not above. Only the
push can fail, and then nothing sinks. -/

section Sink

variable {array : DArray α} {xs : List (Option α)}

/-- **Sinking.** The element behind `ys` moves down past those it is not above. -/
theorem sink_eq {cmp : Option α → Option α → Except Fault ℤ} {el : Option α} {f : Option α → ℤ}
    (ys : List (Option α)) (hcmp : ∀ y ∈ ys, cmp el y = .ok (f y)) (zs : List (Option α)) :
    ∃ l r, ys = l ++ r ∧ (∀ y ∈ r, f y ≤ 0) ∧ (∀ y, l.getLast? = some y → 0 < f y) ∧
      sink cmp (ys ++ el :: zs) ys.length = .ok (l ++ el :: (r ++ zs)) := by
  induction ys using List.reverseRecOn generalizing zs with
  | nil => exact ⟨[], [], rfl, by simp, by simp, rfl⟩
  | append_singleton ys y ih =>
    have hx : readAt (ys ++ [y] ++ el :: zs) (ys.length + 1 : ℕ) = .ok el :=
      readAt_eq (by rw [List.getElem?_append_right (by simp)]; simp)
    have hy : readAt (ys ++ [y] ++ el :: zs) (ys.length : ℕ) = .ok y :=
      readAt_eq (by simp)
    have hswap : ((ys ++ [y] ++ el :: zs).set (ys.length + 1) y).set ys.length el =
        ys ++ el :: (y :: zs) := by
      simp
    rw [List.length_append, List.length_singleton, sink, hx, ok_bind, hy, ok_bind,
      hcmp y (by simp), ok_bind]
    -- the element sinks past those that it is not above
    by_cases hpos : f y > 0
    · rw [if_pos hpos]
      refine ⟨ys ++ [y], [], by simp, by simp, ?_, by simp [pure, Except.pure]⟩
      intro z hz
      obtain rfl : y = z := by simpa using hz
      exact hpos
    · rw [if_neg hpos, hswap]
      obtain ⟨l, r, hlr, hr, hl, hsink⟩ := ih (fun z hz => hcmp z (by simp [hz])) (y :: zs)
      refine ⟨l, r ++ [y], by rw [hlr, List.append_assoc], ?_, hl, ?_⟩
      · intro z hz
        rcases List.mem_append.mp hz with hz | hz
        · exact hr z hz
        · rw [List.mem_singleton.mp hz]
          exact not_lt.mp hpos
      · rw [hsink, List.append_assoc]
        rfl

/-- A sorted push sinks the element it has pushed, and leaves the slots behind as they are. -/
theorem pushSort_of_push {cmp : Option α → Option α → Except Fault ℤ} {block : Option (Junk α)}
    {pushed : DArray α} {el : Option α} {f : Option α → ℤ} (hcmp : ∀ y ∈ xs, cmp el y = .ok (f y))
    (hpush : array.push block el = .ok (0, pushed)) (h : pushed.Holds (xs ++ [el])) :
    ∃ l r, xs = l ++ r ∧ (∀ y ∈ r, f y ≤ 0) ∧ (∀ y, l.getLast? = some y → 0 < f y) ∧
      array.pushSort block el cmp = .ok (0, { pushed with
        contents := l ++ el :: (r ++ pushed.contents.drop (xs.length + 1)) }) := by
  obtain ⟨hend, hlt, hmax, hlength, helements⟩ := h
  rw [List.length_append, List.length_singleton] at hend helements
  obtain ⟨l, r, hxs, hr, hl, hsink⟩ := sink_eq xs hcmp (pushed.contents.drop (xs.length + 1))
  have hsplit : xs ++ el :: pushed.contents.drop (xs.length + 1) = pushed.contents := by
    conv_rhs => rw [← List.take_append_drop (xs.length + 1) pushed.contents, helements]
    simp
  have hindex : (pushed.end - 1).toNat = xs.length := by omega
  refine ⟨l, r, hxs, hr, hl, ?_⟩
  unfold pushSort
  rw [hpush, ok_bind]
  simp only []
  rw [hsplit] at hsink
  rw [if_pos trivial, hindex, hsink]
  rfl

/-- **One sorted push.** -/
theorem pushSort_eq {cmp : Option α → Option α → Except Fault ℤ} {block : Option (Junk α)}
    (h : array.Holds xs) {el : Option α} {f : Option α → ℤ} (hcmp : ∀ y ∈ xs, cmp el y = .ok (f y))
    (halloc : array.Allocates block) :
    ∃ array' l r, array.pushSort block el cmp = .ok (0, array') ∧ xs = l ++ r ∧
      (∀ y ∈ r, f y ≤ 0) ∧ (∀ y, l.getLast? = some y → 0 < f y) ∧
      array'.Holds (l ++ el :: r) := by
  obtain ⟨pushed, hpush, hpushed⟩ := push_eq h el halloc
  obtain ⟨l, r, hxs, hr, hl, hsort⟩ := pushSort_of_push hcmp hpush hpushed
  obtain ⟨hend, hlt, hmax, hlength, -⟩ := hpushed
  rw [List.length_append, List.length_singleton] at hend
  have hparts : xs.length = l.length + r.length := by rw [hxs, List.length_append]
  have hlen : (l ++ el :: r).length = xs.length + 1 := by
    rw [List.length_append, List.length_cons]
    omega
  refine ⟨_, l, r, hsort, hxs, hr, hl, ⟨?_, hlt, hmax, ?_, ?_⟩⟩
  · rw [hlen]
    exact hend
  · simp only [List.length_append, List.length_cons, List.length_drop]
    omega
  · show (l ++ el :: (r ++ _)).take (l ++ el :: r).length = l ++ el :: r
    rw [← List.cons_append, ← List.append_assoc]
    exact List.take_left

/-- A sorted push that finds no block leaves the element at the end. -/
theorem pushSort_full {cmp : Option α → Option α → Except Fault ℤ} {block : Option (Junk α)}
    (h : array.Holds xs) (el : Option α) (hfull : array.max ≤ array.end + 1)
    (hnone : given block (toInt (array.max + DEFAULT_EXPAND_RATE)) = none) :
    array.pushSort block el cmp = .ok (-1, array.overfull xs.length el) := by
  unfold pushSort
  rw [push_full block h el hfull hnone, ok_bind]
  rfl

end Sink

/-! ## Calls that succeed

A caller that looks at the result of a call goes on only when it is 0. For such a caller a call that
returned -1 ends the run, as undefined behaviour does, but it is told apart from that. -/

/-- Why a run of calls ends early: undefined behaviour, or a call that returned -1. -/
inductive Failure where
  | fault (f : Fault)
  | reported

/-- What a caller goes on with that looks at the result of a call. -/
def checked {β : Type} : Except Fault (ℤ × β) → Except Failure β
  | .error f => .error (.fault f)
  | .ok (rc, b) => if rc = 0 then .ok b else .error .reported

theorem checked_eq_ok {β : Type} {x : Except Fault (ℤ × β)} {b : β} :
    checked x = .ok b ↔ x = .ok (0, b) := by
  rcases x with f | ⟨rc, c⟩
  · exact iff_of_false (nomatch ·) (nomatch ·)
  · unfold checked
    simp only [Except.ok.injEq, Prod.mk.injEq]
    by_cases hrc : rc = 0
    · rw [if_pos hrc]
      simp [hrc]
    · rw [if_neg hrc]
      exact iff_of_false (nomatch ·) fun h => hrc h.1

end DArray

end Lcthw
