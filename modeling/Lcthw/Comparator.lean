import Lcthw.Bstr

/-!
# Lcthw — comparators

The comparison that a container is created with, where it is a total order. The containers take any
function; `default_compare` is `bstrcmp`.
-/

namespace Lcthw

/-- A comparison that is a total order on keys. Keys that compare as 0 count as the same key. -/
structure Comparator (K : Type) where
  compare : K → K → ℤ
  lt_iff_gt : ∀ a b, compare a b < 0 ↔ 0 < compare b a
  le_trans : ∀ a b c, compare a b ≤ 0 → compare b c ≤ 0 → compare a c ≤ 0

namespace Comparator

variable {K : Type} (cmp : Comparator K) {a b c : K}

theorem le_iff_ge : cmp.compare a b ≤ 0 ↔ 0 ≤ cmp.compare b a := by
  have := cmp.lt_iff_gt b a
  omega

theorem eq_comm : cmp.compare a b = 0 ↔ cmp.compare b a = 0 := by
  have hab := cmp.lt_iff_gt a b
  have hba := cmp.lt_iff_gt b a
  omega

theorem self (a : K) : cmp.compare a a = 0 := by
  have := cmp.lt_iff_gt a a
  omega

theorem lt_of_lt_of_le (hab : cmp.compare a b < 0) (hbc : cmp.compare b c ≤ 0) :
    cmp.compare a c < 0 := by
  by_contra hge
  have hba : cmp.compare b a ≤ 0 := cmp.le_trans b c a hbc (cmp.le_iff_ge.mpr (by omega))
  have := (cmp.lt_iff_gt a b).mp hab
  omega

theorem lt_of_le_of_lt (hab : cmp.compare a b ≤ 0) (hbc : cmp.compare b c < 0) :
    cmp.compare a c < 0 := by
  by_contra hge
  have hcb : cmp.compare c b ≤ 0 := cmp.le_trans c a b (cmp.le_iff_ge.mpr (by omega)) hab
  have := (cmp.lt_iff_gt b c).mp hbc
  omega

theorem eq_trans (hab : cmp.compare a b = 0) (hbc : cmp.compare b c = 0) : cmp.compare a c = 0 := by
  have hle := cmp.le_trans a b c hab.le hbc.le
  have hge := cmp.le_trans c b a (cmp.eq_comm.mp hbc).le (cmp.eq_comm.mp hab).le
  have := cmp.le_iff_ge.mp hge
  omega

/-- The same keys in the opposite order. -/
def reverse : Comparator K where
  compare a b := -cmp.compare a b
  lt_iff_gt a b := by
    have := cmp.lt_iff_gt b a
    omega
  le_trans a b c hab hbc := by
    have hba : cmp.compare b a ≤ 0 := cmp.le_iff_ge.mpr (by omega)
    have hcb : cmp.compare c b ≤ 0 := cmp.le_iff_ge.mpr (by omega)
    have := cmp.le_iff_ge.mp (cmp.le_trans c b a hcb hba)
    omega

/-- Pointers to numbers in the order of these, NULL in the place of 0. -/
def numbers : Comparator (Option ℕ) where
  compare a b := (a.getD 0 : ℤ) - b.getD 0
  lt_iff_gt a b := by omega
  le_trans a b c hab hbc := by omega

end Comparator

/-- `default_compare`. -/
def defaultCompare : Comparator (List CChar) where
  compare := bstrcmp
  lt_iff_gt a b := by rw [bstrcmp_lt, bstrcmp_gt]
  le_trans a b c hab hbc := by
    rw [← not_lt, bstrcmp_gt, not_lt] at *
    exact hab.trans hbc

end Lcthw
