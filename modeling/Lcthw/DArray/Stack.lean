import Lcthw.DArray
import Lcthw.Run

/-!
# Lcthw — an array as a stack (`darray.c`)

What `DArray_push`, `DArray_pop`, `DArray_push_sort`, `DArray_expand` and `DArray_contract` do, against a
list of elements that has no slots, no size and no `realloc`.

* **`exec`**, **`serve`**: a call on the array, and on the list.
* **`stack_of_fits`**: over every sequence of calls whose sizes are `int`s, the array holds what the list
  holds, and each pop returns the same.
-/

namespace Lcthw.DArray

variable {α : Type}

/-! ## Calls

On the side of the list a call has no slots to fill and no block to get, so expanding and contracting do
nothing there. A sorted push puts its element behind the last one that it is above. -/

inductive Op (α : Type) where
  | push (el : Option α)
  | pop
  | pushSort (el : Option α) (cmp : Option α → Option α → ℤ)
  | expand
  | contract

/-- A call, and what its `realloc` finds in the slots that it appends. -/
structure Call (α : Type) where
  op : Op α
  junk : Junk α

/-- The array after a call, and what a pop returns. -/
def exec (array : DArray α) (call : Call α) : Except Fault (DArray α × Option (Option α)) :=
  match call.op with
  | .push el => do
    let (_, array) ← array.push (some call.junk) el
    return (array, none)
  | .pop => do
    let (el, array) ← array.pop (some call.junk)
    return (array, some el)
  | .pushSort el cmp => do
    let (_, array) ← array.pushSort (some call.junk) el fun x y => .ok (cmp x y)
    return (array, none)
  | .expand => do
    let (_, array) ← array.expand (some call.junk)
    return (array, none)
  | .contract => do
    let (_, array) ← array.contract (some call.junk)
    return (array, none)

/-- Behind the last element that `el` is above. -/
def insertBack (cmp : Option α → Option α → ℤ) (el : Option α) (xs : List (Option α)) :
    List (Option α) :=
  xs.rdropWhile (fun y => cmp el y ≤ 0) ++ el :: xs.rtakeWhile fun y => cmp el y ≤ 0

/-- What a call does to a list of elements. A pop returns the last one, and NULL when there is none. -/
def serve (xs : List (Option α)) : Op α → List (Option α) × Option (Option α)
  | .push el => (xs ++ [el], none)
  | .pop => (xs.dropLast, some xs.getLast?.join)
  | .pushSort el cmp => (insertBack cmp el xs, none)
  | .expand => (xs, none)
  | .contract => (xs, none)

/-- The size that a call asks for is an `int`. -/
def Fits (array : DArray α) : Op α → Prop
  | .push _ => array.end + 1 < array.max ∨ array.max + DEFAULT_EXPAND_RATE ≤ INT_MAX
  | .pop => True
  | .pushSort _ _ => array.end + 1 < array.max ∨ array.max + DEFAULT_EXPAND_RATE ≤ INT_MAX
  | .expand => array.max + DEFAULT_EXPAND_RATE ≤ INT_MAX
  | .contract => True

/-! ## One call

A call whose size is an `int` does to the elements what it does to the list. The statement has the two
results of a call together: what is held, and what a pop returns. -/

variable {array array' : DArray α} {xs l r : List (Option α)} {el : Option α} {call : Call α}

section Exec

variable {junk : Junk α} {rc : ℤ}

theorem exec_push (h : array.push (some junk) el = .ok (rc, array')) :
    array.exec ⟨.push el, junk⟩ = .ok (array', none) := by
  show (array.push (some junk) el >>= _) = _
  rw [h]
  rfl

theorem exec_pop (h : array.pop (some junk) = .ok (el, array')) :
    array.exec ⟨.pop, junk⟩ = .ok (array', some el) := by
  show (array.pop (some junk) >>= _) = _
  rw [h]
  rfl

theorem exec_pushSort {cmp : Option α → Option α → ℤ}
    (h : array.pushSort (some junk) el (fun x y => .ok (cmp x y)) = .ok (rc, array')) :
    array.exec ⟨.pushSort el cmp, junk⟩ = .ok (array', none) := by
  show (array.pushSort (some junk) el (fun x y => .ok (cmp x y)) >>= _) = _
  rw [h]
  rfl

theorem exec_expand (h : array.expand (some junk) = .ok (rc, array')) :
    array.exec ⟨.expand, junk⟩ = .ok (array', none) := by
  show (array.expand (some junk) >>= _) = _
  rw [h]
  rfl

theorem exec_contract (h : array.contract (some junk) = .ok (rc, array')) :
    array.exec ⟨.contract, junk⟩ = .ok (array', none) := by
  show (array.contract (some junk) >>= _) = _
  rw [h]
  rfl

end Exec

/-- What is sunk below `r` comes behind the last element that it is above. -/
theorem insertBack_append {cmp : Option α → Option α → ℤ} (hr : ∀ y ∈ r, cmp el y ≤ 0)
    (hl : ∀ y, l.getLast? = some y → 0 < cmp el y) : insertBack cmp el (l ++ r) = l ++ el :: r := by
  have hpos : ∀ y ∈ r.reverse, decide (cmp el y ≤ 0) = true := by
    intro y hy
    exact decide_eq_true (hr y (List.mem_reverse.mp hy))
  have hstop : ∀ y, l.reverse.head? = some y → decide (cmp el y ≤ 0) = false := by
    intro y hy
    rw [List.head?_reverse] at hy
    exact decide_eq_false (not_le.mpr (hl y hy))
  have hdrop : l.reverse.dropWhile (fun y => decide (cmp el y ≤ 0)) = l.reverse := by
    cases hrev : l.reverse with
    | nil => rfl
    | cons y ys => rw [List.dropWhile_cons_of_neg (by simp [hstop y (by rw [hrev]; rfl)])]
  have htake : l.reverse.takeWhile (fun y => decide (cmp el y ≤ 0)) = [] := by
    cases hrev : l.reverse with
    | nil => rfl
    | cons y ys => rw [List.takeWhile_cons_of_neg (by simp [hstop y (by rw [hrev]; rfl)])]
  unfold insertBack List.rdropWhile List.rtakeWhile
  rw [List.reverse_append, List.dropWhile_append_of_pos hpos, hdrop, List.reverse_reverse,
    List.takeWhile_append_of_pos hpos, htake, List.append_nil, List.reverse_reverse]

/-- An empty array stays as it is. -/
theorem pop_nil (h : array.Holds []) (block : Option (Junk α)) :
    array.pop block = .ok (none, array) := by
  have hempty : array.end = 0 := h.end
  unfold pop
  rw [if_pos hempty]
  rfl

/-- **One call** does to the array what it does to the list. -/
theorem exec_eq (h : array.Holds xs) (hfits : array.Fits call.op) :
    ∃ array', array.exec call = .ok (array', (serve xs call.op).2) ∧
      array'.Holds (serve xs call.op).1 := by
  obtain ⟨op, junk⟩ := call
  cases op with
  | push el =>
    obtain ⟨array', hpush, hholds⟩ := push_eq h el (h.allocates junk hfits)
    exact ⟨array', exec_push hpush, hholds⟩
  | pop =>
    -- on the empty array and on one with a last element
    obtain rfl | ⟨ys, el, rfl⟩ := List.eq_nil_or_concat' xs
    · exact ⟨array, exec_pop (pop_nil h _), h⟩
    · obtain ⟨array', hpop, hholds⟩ := pop_eq junk h
      have hserve : serve (ys ++ [el]) .pop = (ys, some el) := by
        unfold serve
        rw [List.dropLast_concat, List.getLast?_concat]
        rfl
      rw [hserve]
      exact ⟨array', exec_pop hpop, hholds⟩
  | pushSort el cmp =>
    obtain ⟨array', l, r, hpush, rfl, hr, hl, hholds⟩ :=
      @pushSort_eq α array xs (fun x y => .ok (cmp x y)) _ h el (cmp el) (fun _ _ => rfl)
        (h.allocates junk hfits)
    refine ⟨array', exec_pushSort hpush, ?_⟩
    show array'.Holds (insertBack cmp el (l ++ r))
    rw [insertBack_append hr hl]
    exact hholds
  | expand =>
    obtain ⟨array', hexpand, hholds⟩ := expand_eq junk h hfits
    exact ⟨array', exec_expand hexpand, hholds⟩
  | contract =>
    obtain ⟨array', hcontract, hholds⟩ := contract_eq junk h
    exact ⟨array', exec_contract hcontract, hholds⟩

/-- What a call has done whose size is an `int`. -/
theorem of_exec {out : Option (Option α)} (h : array.Holds xs) (hfits : array.Fits call.op)
    (hexec : array.exec call = .ok (array', out)) :
    out = (serve xs call.op).2 ∧ array'.Holds (serve xs call.op).1 := by
  obtain ⟨array₁, hexec₁, hholds⟩ := exec_eq h hfits
  obtain ⟨rfl, rfl⟩ := Prod.mk.inj (Except.ok.inj (hexec₁.symm.trans hexec))
  exact ⟨rfl, hholds⟩

/-! ## All calls

The array and the list go through the calls side by side. The condition is on the sizes of the array,
which are known before each call. -/

/-- The array and the list, given the same calls. -/
structure Twin (α : Type) where
  array : DArray α
  model : List (Option α)
  returned : List (Option (Option α))
  wanted : List (Option (Option α))

namespace Twin

def init (initial_max : ℤ) : Twin α :=
  { array := create initial_max, model := [], returned := [], wanted := [] }

def step (t : Twin α) (call : Call α) : Except Fault (Twin α) := do
  let (array, out) ← t.array.exec call
  let (model, want) := serve t.model call.op
  return { array, model, returned := t.returned ++ [out], wanted := t.wanted ++ [want] }

/-- The array holds what the list holds, in slots that are all allocated, and has answered every pop like
it. `memset` stays inside the block that an expansion gets, and NULL is what a pop returns exactly when
there is no element, as long as no element is NULL itself. -/
structure Agrees (t : Twin α) : Prop where
  bounds : 0 ≤ t.array.end ∧ t.array.end < t.array.max ∧
    (t.array.contents.length : ℤ) = t.array.max
  contents : t.array.contents.take t.array.end.toNat = t.model
  returned : t.returned = t.wanted
  cleared : ∀ junk array', t.array.resize (some junk) (t.array.max + DEFAULT_EXPAND_RATE) =
      (0, array') → 8 * t.array.max + (DEFAULT_EXPAND_RATE + 1) ≤ 8 * array'.contents.length
  empty : none ∉ t.model → ∀ junk el array', t.array.pop (some junk) = .ok (el, array') →
    (el = none ↔ t.model = [])

end Twin

/-- `memset` counts bytes, so it clears less than what was appended. -/
theorem Holds.cleared (h : array.Holds xs) {junk : Junk α}
    (hresize : array.resize (some junk) (array.max + DEFAULT_EXPAND_RATE) = (0, array')) :
    8 * array.max + (DEFAULT_EXPAND_RATE + 1) ≤ 8 * array'.contents.length := by
  have hrate : DEFAULT_EXPAND_RATE = 300 := rfl
  have hend := h.end
  have hroom := h.room
  by_cases hfit : array.max + DEFAULT_EXPAND_RATE ≤ INT_MAX
  · rw [resize_some junk array (by omega) hfit] at hresize
    obtain ⟨-, rfl⟩ := Prod.mk.inj hresize
    show _ ≤ 8 * ((realloc junk array.contents (array.max + DEFAULT_EXPAND_RATE).toNat).length : ℤ)
    rw [length_realloc]
    omega
  · have hneg := toInt_expanded_neg h.max (not_le.mp hfit)
    rw [resize_none array (given_of_neg _ hneg)] at hresize
    exact absurd (Prod.mk.inj hresize).1 (by decide)

theorem Holds.pop_none (h : array.Holds xs) (hnull : none ∉ xs) {junk : Junk α}
    (hpop : array.pop (some junk) = .ok (el, array')) : el = none ↔ xs = [] := by
  obtain rfl | ⟨ys, x, rfl⟩ := List.eq_nil_or_concat' xs
  · rw [pop_nil h] at hpop
    obtain ⟨rfl, -⟩ := Prod.mk.inj (Except.ok.inj hpop)
    exact ⟨fun _ => rfl, fun _ => rfl⟩
  · obtain ⟨array₁, hpop₁, -⟩ := pop_eq junk h
    obtain ⟨rfl, -⟩ := Prod.mk.inj (Except.ok.inj (hpop₁.symm.trans hpop))
    refine ⟨?_, fun hnil => absurd hnil (by simp)⟩
    rintro rfl
    exact absurd (by simp) hnull

theorem Holds.agrees {t : Twin α} (h : t.array.Holds t.model) (hret : t.returned = t.wanted) :
    t.Agrees where
  bounds := by
    have hend := h.end
    exact ⟨by omega, h.room, h.length⟩
  contents := by
    rw [h.end, Int.toNat_natCast]
    exact h.elements
  returned := hret
  cleared _ _ hresize := h.cleared hresize
  empty hnull _ _ _ hpop := h.pop_none hnull hpop

/-- **An array is a stack.** In every sequence of calls whose sizes are `int`s no call leaves the
allocated slots, and after each the array holds the elements that the list holds. -/
theorem stack_of_fits {initial_max : ℤ} (h : 1 ≤ initial_max) (hmax : initial_max ≤ INT_MAX)
    (calls : List (Call α))
    (hfits : Run.Along Twin.step (fun t call => t.array.Fits call.op) (Twin.init initial_max) calls) :
    Run.Sustained Twin.step Twin.Agrees (Twin.init initial_max) calls := by
  have hstep : ∀ (t : Twin α) call, t.array.Holds t.model ∧ t.returned = t.wanted →
      t.array.Fits call.op → ∃ t', Twin.step t call = .ok t' ∧
        (t'.array.Holds t'.model ∧ t'.returned = t'.wanted) := by
    rintro t call ⟨hholds, hret⟩ hfit
    obtain ⟨array', hexec, hholds'⟩ := exec_eq hholds hfit
    have hret' : t.returned ++ [(serve t.model call.op).2] = t.wanted ++ [(serve t.model call.op).2] := by
      rw [hret]
    refine ⟨⟨array', _, _, _⟩, ?_, hholds', hret'⟩
    unfold Twin.step
    rw [hexec]
    rfl
  refine (Run.sustained_of_along hstep ⟨holds_create (by omega) hmax, rfl⟩ hfits).mono ?_
  rintro t ⟨hholds, hret⟩
  exact hholds.agrees hret

theorem stack_of_fits_two :
    Run.Sustained Twin.step Twin.Agrees (Twin.init 1 : Twin ℕ)
      [⟨.push (some 7), .null⟩, ⟨.pop, .null⟩] := by
  refine stack_of_fits le_rfl (by decide) _ ⟨Or.inr (by decide), fun t _ => ⟨trivial, ?_⟩⟩
  exact fun _ _ => trivial

end Lcthw.DArray
