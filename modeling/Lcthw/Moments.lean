import Mathlib

/-!
# Moments — mean and variance of a sample

Over any ordered field, for samples given as a list.

* **`sum_sq_sub_mean`**: the squared distances from the mean can be summed without knowing the mean
  beforehand, from the sum and the sum of squares.
* **`le_mean`**, **`mean_le`**: the mean lies between any two bounds of the sample.
-/

namespace Moments

variable {K : Type*} [Field K]

def mean (xs : List K) : K :=
  xs.sum / xs.length

/-- The sample variance, which divides by one less than the number of samples. -/
def variance (xs : List K) : K :=
  (xs.map fun x => (x - mean xs) ^ 2).sum / (xs.length - 1)

/-- The squared distances from any point. -/
theorem sum_sq_sub (xs : List K) (c : K) :
    (xs.map fun x => (x - c) ^ 2).sum =
      (xs.map fun x => x * x).sum - 2 * c * xs.sum + xs.length * c ^ 2 := by
  induction xs with
  | nil => simp
  | cons x xs ih =>
    rw [List.map_cons, List.sum_cons, ih, List.map_cons, List.sum_cons, List.sum_cons,
      List.length_cons]
    push_cast
    ring

variable [LinearOrder K] [IsStrictOrderedRing K] {xs : List K}

theorem length_pos (hne : xs ≠ []) : (0 : K) < xs.length := by
  apply Nat.cast_pos.mpr
  exact List.length_pos_iff.mpr hne

/-- **One pass is enough.** -/
theorem sum_sq_sub_mean (hne : xs ≠ []) :
    (xs.map fun x => (x - mean xs) ^ 2).sum = (xs.map fun x => x * x).sum - xs.sum * mean xs := by
  have hlen : (xs.length : K) ≠ 0 := (length_pos hne).ne'
  rw [sum_sq_sub, mean]
  field_simp
  ring

theorem le_mean (hne : xs ≠ []) {m : K} (h : ∀ x ∈ xs, m ≤ x) : m ≤ mean xs := by
  have hsum := List.card_nsmul_le_sum xs m h
  rw [nsmul_eq_mul] at hsum
  apply (le_div_iff₀ (length_pos hne)).mpr
  rwa [mul_comm]

theorem mean_le (hne : xs ≠ []) {m : K} (h : ∀ x ∈ xs, x ≤ m) : mean xs ≤ m := by
  have hsum := List.sum_le_card_nsmul xs m h
  rw [nsmul_eq_mul] at hsum
  apply (div_le_iff₀ (length_pos hne)).mpr
  rwa [mul_comm]

theorem variance_nonneg (hlen : 1 ≤ xs.length) : 0 ≤ variance xs := by
  have hcast : (1 : K) ≤ xs.length := Nat.one_le_cast.mpr hlen
  apply div_nonneg
  · apply List.sum_nonneg
    intro y hy
    obtain ⟨x, -, rfl⟩ := List.mem_map.mp hy
    exact sq_nonneg _
  · exact sub_nonneg.mpr hcast

end Moments
