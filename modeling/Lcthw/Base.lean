import Lcthw.Heap

/-!
# Lcthw — characters, C strings and faults

The vocabulary the models of the library share. A C `char` is signed on the platforms the code
is built for, so it is an `Int8`, and the comparisons of the source are comparisons of `Int8`.
A run of C code ends with a value or in undefined behaviour; `Fault` names the kinds of
undefined behaviour that the models tell apart.
-/

namespace Lcthw

/-- A C `char`: one signed byte. -/
abbrev CChar := Int8

instance : LinearOrder CChar where
  le_refl := Int8.le_refl
  le_trans _ _ _ := Int8.le_trans
  le_antisymm _ _ := Int8.le_antisymm
  le_total := Int8.le_total
  lt_iff_le_not_ge a b := by
    rw [Int8.lt_iff_le_and_ne]
    constructor
    · rintro ⟨hle, hne⟩
      exact ⟨hle, fun hge => hne (Int8.le_antisymm hle hge)⟩
    · rintro ⟨hle, hnge⟩
      exact ⟨hle, fun heq => hnge (heq ▸ Int8.le_refl a)⟩
  toDecidableLE := inferInstance
  toDecidableEq := inferInstance
  toDecidableLT := inferInstance

/-- The characters of a string literal, without the terminating NUL. -/
def cstr (s : String) : List CChar :=
  s.toList.map fun c => c.toNat.toInt8

/-- A string without the spaces at its right end, and then without those at its left. -/
def trim {α : Type} (space : α → Bool) (s : List α) : List α :=
  (s.rdropWhile space).dropWhile space

/-- The undefined behaviour a run can end in. -/
inductive Fault where
  /-- a NULL pointer was dereferenced -/
  | nullDeref
  /-- a block that is not in use, or not any more, was dereferenced or freed -/
  | useAfterFree
  /-- an access left the object it was made to -/
  | outOfBounds
  /-- signed arithmetic left the range of `int` -/
  | intOverflow
  /-- division or remainder by zero -/
  | divByZero
  deriving DecidableEq

/-- Why a function with a bound on its steps ends without a result. -/
inductive Stop where
  | fault (f : Fault)
  | outOfFuel
  deriving DecidableEq

instance : HeapFault Fault where
  null := .nullDeref
  dangling := .useAfterFree

instance : HeapFault Stop where
  null := .fault .nullDeref
  dangling := .fault .useAfterFree

section Except

variable {ε α β : Type}

@[simp] theorem ok_bind (a : α) (f : α → Except ε β) : ((.ok a : Except ε α) >>= f) = f a :=
  rfl

@[simp] theorem error_bind (e : ε) (f : α → Except ε β) :
    ((.error e : Except ε α) >>= f) = .error e := rfl

theorem bind_eq_ok {x : Except ε α} {f : α → Except ε β} {b : β} :
    (x >>= f) = .ok b ↔ ∃ a, x = .ok a ∧ f a = .ok b := by
  cases x <;> simp

@[simp] theorem mapError_ok {ε' : Type} (f : ε → ε') (a : α) :
    (.ok a : Except ε α).mapError f = .ok a := rfl

theorem map_eq_ok {x : Except ε α} {f : α → β} {b : β} :
    x.map f = .ok b ↔ ∃ a, x = .ok a ∧ f a = b := by
  cases x <;> simp [Except.map]

end Except

/-- The largest `int`. -/
def INT_MAX : ℤ := 2 ^ 31 - 1

/-- The value of an `int` expression whose exact value is `x`. -/
def int (x : ℤ) : Except Fault ℤ :=
  if -INT_MAX - 1 ≤ x ∧ x ≤ INT_MAX then .ok x else .error .intOverflow

theorem int_ok {x : ℤ} (hlo : -INT_MAX - 1 ≤ x) (hhi : x ≤ INT_MAX) : int x = .ok x :=
  if_pos ⟨hlo, hhi⟩

theorem int_overflow {x : ℤ} (h : INT_MAX < x) : int x = .error .intOverflow :=
  if_neg fun hx => absurd hx.2 h.not_ge

theorem eq_of_int {x y : ℤ} (h : int x = .ok y) : x = y := by
  unfold int at h
  split at h
  · exact Except.ok.inj h
  · cases h

/-- An `int` made from a `size_t`. -/
def toInt (x : ℤ) : ℤ :=
  Int.bmod x (2 ^ 32)

theorem toInt_eq {x : ℤ} (hlo : -INT_MAX - 1 ≤ x) (hhi : x ≤ INT_MAX) : toInt x = x := by
  have hmax : INT_MAX = 2 ^ 31 - 1 := rfl
  unfold toInt
  rw [Int.bmod_eq_of_le (by omega) (by omega)]

/-- `xs[i]`, for an array and an `int`. -/
def readAt {α : Type} (xs : List α) (i : ℤ) : Except Fault α :=
  if 0 ≤ i then
    match xs[i.toNat]? with
    | some x => pure x
    | none => throw .outOfBounds
  else throw .outOfBounds

/-- `xs[i] = x` -/
def writeAt {α : Type} (xs : List α) (i : ℤ) (x : α) : Except Fault (List α) :=
  if 0 ≤ i ∧ i < xs.length then pure (xs.set i.toNat x) else throw .outOfBounds

theorem readAt_eq {α : Type} {xs : List α} {i : ℕ} {x : α} (h : xs[i]? = some x) :
    readAt xs i = .ok x := by
  unfold readAt
  rw [if_pos (Int.natCast_nonneg i), Int.toNat_natCast, h]
  rfl

theorem writeAt_eq {α : Type} {xs : List α} {i : ℕ} (hi : i < xs.length) (x : α) :
    writeAt xs i x = .ok (xs.set i x) := by
  unfold writeAt
  rw [if_pos ⟨Int.natCast_nonneg i, by exact_mod_cast hi⟩, Int.toNat_natCast]
  rfl

/-- The remainder of two `int`s, which takes the sign of the dividend. -/
def rem (x y : ℤ) : Except Fault ℤ :=
  if y = 0 then .error .divByZero else .ok (x.tmod y)

theorem rem_ok {x y : ℤ} (hx : 0 ≤ x) (hy : 0 < y) : rem x y = .ok (x % y) := by
  rw [rem, if_neg hy.ne', Int.tmod_eq_emod_of_nonneg hx]

end Lcthw
