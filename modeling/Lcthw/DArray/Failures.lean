import Lcthw.DArray

/-!
# Lcthw — growth that fails (`darray.c`)

`DArray_resize` sets `max` before it asks `realloc` for the block, and does not set it back when there is
none; `DArray_push` has written its element by then.

* **`attempt`**: the calls that may grow an array.
* **`unharmed_iff`**: which of their failures leave the array as it was.
-/

namespace Lcthw.DArray

variable {α : Type}

/-- A call that may grow an array. -/
inductive Growth (α : Type) where
  | expand
  | contract
  | push (el : Option α)

/-- A call, its result, and the array behind it. -/
def attempt (block : Option (Junk α)) (array : DArray α) : Growth α → Except Fault (ℤ × DArray α)
  | .expand => array.expand block
  | .contract => array.contract block
  | .push el => array.push block el

/-- The block is to have as many slots as it has, or none is asked for. -/
def Unharmed (array : DArray α) : Growth α → Prop
  | .expand => False
  | .contract => array.contractedSize = array.max
  | .push _ => array.end + 1 < array.max

variable {array : DArray α} {xs : List (Option α)}

theorem toInt_expanded (n : ℤ) : toInt (n + DEFAULT_EXPAND_RATE) ≠ n := by
  have hrate : DEFAULT_EXPAND_RATE = 300 := rfl
  have hmod := Int.bmod_emod (x := n + DEFAULT_EXPAND_RATE) (m := 2 ^ 32)
  intro h
  change (toInt (n + DEFAULT_EXPAND_RATE)) % _ = _ at hmod
  rw [h] at hmod
  push_cast at hmod
  omega

/-- There is no block of any size. -/
theorem given_none (n : ℤ) : given (none : Option (Junk α)) n = none :=
  ite_self _

theorem contract_none (h : array.Holds xs) :
    array.contract none = .ok (-1, { array with max := array.contractedSize }) := by
  have hrate : DEFAULT_EXPAND_RATE = 300 := rfl
  have hmin : INT_MAX = 2 ^ 31 - 1 := rfl
  have hfit := h.contractedSize_le
  have hpos : 0 < array.contractedSize := by
    unfold contractedSize
    split <;> omega
  have hint : int array.contractedSize = .ok array.contractedSize := int_ok (by omega) hfit
  show (int array.contractedSize >>= fun newsize => pure (resize none array newsize)) = _
  rw [hint, ok_bind, resize_none array (given_none _), toInt_eq (by omega) hfit]
  rfl

/-- **A failed growth leaves the array as it was only when it would not have changed its size.** -/
theorem unharmed_iff (h : array.Holds xs) (call : Growth α) :
    (∀ array', array.attempt none call = .ok (-1, array') → array' = array) ↔ array.Unharmed call := by
  cases call with
  | expand =>
    refine ⟨fun hsame => ?_, False.elim⟩
    have hmaxes := congrArg DArray.max (hsame _ (expand_none _ (given_none _)))
    exact toInt_expanded array.max hmaxes
  | contract =>
    have hattempt : array.attempt none .contract = _ := contract_none h
    rw [hattempt]
    constructor
    · intro hsame
      exact congrArg DArray.max (hsame _ rfl)
    · intro hsize array' hret
      obtain ⟨-, rfl⟩ := Prod.mk.inj (Except.ok.inj hret)
      rw [show array.contractedSize = array.max from hsize]
  | push el =>
    show _ ↔ array.end + 1 < array.max
    by_cases hfull : array.end + 1 ≥ array.max
    · -- the element has been counted
      refine ⟨fun hsame => ?_, fun hfree => absurd hfull (not_le.mpr hfree)⟩
      have hends := congrArg DArray.end (hsame _ (push_full none h el hfull (given_none _)))
      change array.end + 1 = array.end at hends
      omega
    · refine ⟨fun _ => not_le.mp hfull, fun _ array' hret => ?_⟩
      change array.push none el = _ at hret
      rw [push_stored none h el, if_neg hfull] at hret
      exact absurd (Prod.mk.inj (Except.ok.inj hret)).1 (by decide)

/-- Two elements in 301 slots: a contraction asks for as many. -/
theorem unharmed_iff_two :
    let array : DArray ℕ :=
      { «end» := 2, max := 301, contents := some 7 :: some 8 :: List.replicate 299 none }
    (∀ array', array.attempt none .contract = .ok (-1, array') → array' = array) ↔
      array.Unharmed .contract := by
  intro array
  have h : array.Holds [some 7, some 8] := by
    refine ⟨rfl, by decide, by decide, ?_, rfl⟩
    show ((some 7 :: some 8 :: List.replicate 299 none : List (Option ℕ)).length : ℤ) = 301
    rw [List.length_cons, List.length_cons, List.length_replicate]
    rfl
  exact unharmed_iff h .contract

/-- An array with one slot that could not be expanded says that it has 301. -/
theorem expand_fails : ∃ array', (create 1 : DArray ℕ).attempt none .expand = .ok (-1, array') ∧
    array'.max = 301 ∧ array'.contents.length = 1 :=
  ⟨_, rfl, rfl, rfl⟩

end Lcthw.DArray
