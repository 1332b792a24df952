import Lcthw.Base

/-!
# Lcthw — comparing `bstring`s (`bstrlib.c`)

`bstrcmp` compares two strings like `strcmp` on signed characters, but knows their lengths: it
stops at a NUL that both have, and a string that ends first is the smaller one.

* **`upToNul`**: what of a string the comparison can see.
* **`bstrcmp_lt`**, **`bstrcmp_eq`**, **`bstrcmp_gt`**: the sign of `bstrcmp` is the lexicographic
  order of what it sees, so `bstrcmp` is a total preorder.
-/

namespace Lcthw

/-- `bstrcmp`, for strings that are not NULL. -/
def bstrcmp : List CChar → List CChar → ℤ
  | [], [] => 0
  | _ :: _, [] => 1
  | [], _ :: _ => -1
  | a :: as, b :: bs =>
      let v := a.toInt - b.toInt
      if v ≠ 0 then v else if a = 0 then 0 else bstrcmp as bs

/-- A string up to its first NUL, the NUL included. -/
def upToNul : List CChar → List CChar
  | [] => []
  | a :: as => if a = 0 then [0] else a :: upToNul as

theorem toInt_sub_neg {a b : CChar} : a.toInt - b.toInt < 0 ↔ a < b := by
  rw [Int8.lt_iff_toInt_lt, sub_neg]

theorem toInt_sub_eq {a b : CChar} : a.toInt - b.toInt = 0 ↔ a = b := by
  rw [sub_eq_zero, Int8.toInt_inj]

/-- The strings up to their NUL are compared in the order of their bytes. -/
theorem bstrcmp_lt {a b : List CChar} : bstrcmp a b < 0 ↔ upToNul a < upToNul b := by
  induction a generalizing b with
  | nil =>
    cases b with
    | nil => simp [bstrcmp]
    | cons y ys => by_cases hy : y = 0 <;> simp [bstrcmp, upToNul, hy]
  | cons x xs ih =>
    cases b with
    | nil => simp [bstrcmp, upToNul]
    | cons y ys =>
      by_cases hxy : x = y
      · subst hxy
        by_cases hx : x = 0
        · simp [bstrcmp, upToNul, hx]
        · simp [bstrcmp, upToNul, hx, ih]
      · have hne : x.toInt - y.toInt ≠ 0 := fun h => hxy (toInt_sub_eq.mp h)
        have hstep : bstrcmp (x :: xs) (y :: ys) = x.toInt - y.toInt := by simp [bstrcmp, hne]
        rw [hstep, toInt_sub_neg]
        by_cases hx : x = 0
        · subst hx
          simp [upToNul, Ne.symm hxy, hxy, List.cons_lt_cons_iff]
        · by_cases hy : y = 0
          · subst hy
            simp [upToNul, hxy, List.cons_lt_cons_iff]
          · simp [upToNul, hx, hy, hxy, List.cons_lt_cons_iff]

/-- Turned around, the answer changes its sign. -/
theorem bstrcmp_neg (a b : List CChar) : bstrcmp b a = -bstrcmp a b := by
  induction a generalizing b with
  | nil => cases b <;> simp [bstrcmp]
  | cons x xs ih =>
    cases b with
    | nil => simp [bstrcmp]
    | cons y ys =>
      by_cases hxy : x = y
      · subst hxy
        by_cases hx : x = 0
        · simp [bstrcmp, hx]
        · simp [bstrcmp, hx, ih]
      · have hne : x.toInt - y.toInt ≠ 0 := fun h => hxy (toInt_sub_eq.mp h)
        have hne' : y.toInt - x.toInt ≠ 0 := fun h => hxy (toInt_sub_eq.mp h).symm
        simp [bstrcmp, hne, hne']

theorem bstrcmp_gt {a b : List CChar} : 0 < bstrcmp a b ↔ upToNul b < upToNul a := by
  rw [← bstrcmp_lt, bstrcmp_neg a b]
  omega

/-- Strings that are equal up to their NUL compare equal. -/
theorem bstrcmp_eq {a b : List CChar} : bstrcmp a b = 0 ↔ upToNul a = upToNul b := by
  have hlt := bstrcmp_lt (a := a) (b := b)
  have hgt := bstrcmp_gt (a := a) (b := b)
  constructor
  · intro h
    refine le_antisymm (not_lt.mp fun h' => ?_) (not_lt.mp fun h' => ?_)
    · have := hgt.mpr h'
      omega
    · have := hlt.mpr h'
      omega
  · intro h
    rw [h] at hlt hgt
    have h1 : ¬ bstrcmp a b < 0 := fun h' => lt_irrefl _ (hlt.mp h')
    have h2 : ¬ 0 < bstrcmp a b := fun h' => lt_irrefl _ (hgt.mp h')
    omega

end Lcthw
