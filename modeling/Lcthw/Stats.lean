import Lcthw.Base
import Lcthw.Moments

/-!
# Lcthw — running statistics (`stats.c`, `stats.h`)

The `double` fields are exact rationals here; `n` is the `unsigned long` of the source, with its
wrap-around.

* **`sampleAll_create_eq_create`**: which sequences of samples leave a record as it was created.
* **`sampleAll_describes`**: what a record says of its samples, as long as `n` counts them.
-/

namespace Lcthw

structure Stats where
  sum : ℚ
  sumsq : ℚ
  n : UInt64
  min : ℚ
  max : ℚ
  deriving DecidableEq

namespace Stats

def recreate (sum sumsq : ℚ) (n : UInt64) (min max : ℚ) : Stats :=
  { sum, sumsq, n, min, max }

def create : Stats :=
  recreate 0 0 0 0 0

def sample (st : Stats) (s : ℚ) : Stats :=
  { sum := st.sum + s
    sumsq := st.sumsq + s * s
    min := if st.n = 0 then s else if st.min > s then s else st.min
    max := if st.n = 0 then s else if st.max < s then s else st.max
    n := st.n + 1 }

/-- Folding a list of samples, oldest first. -/
def sampleAll (st : Stats) (xs : List ℚ) : Stats :=
  xs.foldl sample st

@[simp] theorem sampleAll_nil (st : Stats) : st.sampleAll [] = st := rfl

@[simp] theorem sampleAll_cons (st : Stats) (x : ℚ) (xs : List ℚ) :
    st.sampleAll (x :: xs) = (st.sample x).sampleAll xs := rfl

theorem sampleAll_sumsq (st : Stats) (xs : List ℚ) :
    (st.sampleAll xs).sumsq = st.sumsq + (xs.map fun x => x * x).sum := by
  induction xs generalizing st with
  | nil => simp
  | cons x xs ih =>
    rw [sampleAll_cons, ih, List.map_cons, List.sum_cons, sample, add_assoc]

theorem sampleAll_n (st : Stats) (xs : List ℚ) :
    (st.sampleAll xs).n = st.n + UInt64.ofNat xs.length := by
  induction xs generalizing st with
  | nil => simp
  | cons x xs ih =>
    rw [sampleAll_cons, ih, List.length_cons, UInt64.ofNat_add, sample, add_assoc]
    rw [add_comm (UInt64.ofNat xs.length)]
    rfl

/-- Sampling zeros alone leaves an empty record's sums and bounds at zero. -/
theorem sampleAll_zeros {xs : List ℚ} (h : ∀ x ∈ xs, x = 0) (st : Stats)
    (hst : st.sum = 0 ∧ st.sumsq = 0 ∧ st.min = 0 ∧ st.max = 0) :
    let st' := st.sampleAll xs
    st'.sum = 0 ∧ st'.sumsq = 0 ∧ st'.min = 0 ∧ st'.max = 0 := by
  induction xs generalizing st with
  | nil => exact hst
  | cons x xs ih =>
    obtain ⟨hsum, hsumsq, hmin, hmax⟩ := hst
    obtain rfl : x = 0 := h x (by simp)
    refine ih (fun y hy => h y (by simp [hy])) _ ⟨?_, ?_, ?_, ?_⟩ <;>
      simp [sample, hsum, hsumsq, hmin, hmax]

/-- **When a folded record cannot be told from a fresh one.** Besides the empty fold, only a
number of zero samples that wraps the counter around leaves the record as it was created. -/
theorem sampleAll_create_eq_create (xs : List ℚ) :
    create.sampleAll xs = create ↔ (∀ x ∈ xs, x = 0) ∧ 2 ^ 64 ∣ xs.length := by
  constructor
  · intro h
    -- no square is negative, so that a sum of zero has zeros only
    have hsumsq : (xs.map fun x => x * x).sum = 0 := by
      have := congrArg Stats.sumsq h
      simpa [sampleAll_sumsq, create, recreate] using this
    have hn : UInt64.ofNat xs.length = 0 := by
      have := congrArg Stats.n h
      simpa [sampleAll_n, create, recreate] using this
    refine ⟨fun x hx => ?_, ?_⟩
    · have hnonneg : ∀ y ∈ xs.map (fun x => x * x), 0 ≤ y := by
        intro y hy
        obtain ⟨z, -, rfl⟩ := List.mem_map.mp hy
        exact mul_self_nonneg z
      have hzero := List.all_zero_of_le_zero_le_of_sum_eq_zero hnonneg hsumsq
        (List.mem_map_of_mem (f := fun x => x * x) hx)
      exact mul_self_eq_zero.mp hzero
    · have := congrArg UInt64.toNat hn
      rw [UInt64.toNat_ofNat'] at this
      exact Nat.dvd_of_mod_eq_zero (by simpa using this)
  · rintro ⟨hzero, hlen⟩
    have hrest := sampleAll_zeros hzero create ⟨rfl, rfl, rfl, rfl⟩
    have hn : (create.sampleAll xs).n = 0 := by
      rw [sampleAll_n]
      have : UInt64.ofNat xs.length = 0 := by
        apply UInt64.toNat_inj.mp
        rw [UInt64.toNat_ofNat']
        simpa using Nat.mod_eq_zero_of_dvd hlen
      rw [this]
      rfl
    obtain ⟨hsum, hsumsq, hmin, hmax⟩ := hrest
    cases hst : create.sampleAll xs
    simp_all [create, recreate]

/-- The mean as `update_tracer` takes it: zero for a record without samples. -/
def meanOrZero (st : Stats) : ℚ :=
  if st.n = 0 then 0 else st.sum / st.n.toNat

theorem meanOrZero_eq_div (st : Stats) : st.meanOrZero = st.sum / st.n.toNat := by
  rw [meanOrZero]
  split
  · next h => simp [h]
  · rfl

@[simp] theorem meanOrZero_create : create.meanOrZero = 0 := rfl

/-- A changed counter changes the mean, unless the sum is zero. -/
theorem meanOrZero_eq_iff_of_sum_eq {st st' : Stats} (hsum : st'.sum = st.sum)
    (hn : st'.n ≠ st.n) : st'.meanOrZero = st.meanOrZero ↔ st.sum = 0 := by
  have hne : (st'.n.toNat : ℚ) ≠ st.n.toNat := by
    rw [Ne, Nat.cast_inj]
    exact fun h => hn (UInt64.toNat_inj.mp h)
  rw [meanOrZero_eq_div, meanOrZero_eq_div, hsum, div_eq_mul_inv, div_eq_mul_inv]
  constructor
  · intro h
    by_contra hzero
    exact hne (inv_injective (mul_left_cancel₀ hzero h))
  · intro h
    rw [h, zero_mul, zero_mul]

/-! ## The moments of the samples

The five fields are sums, a counter and bounds, and `Stats_mean` and `Stats_stddev` compute from them.
What they compute is the mean and the variance of the samples, as long as the counter has counted them
all. -/

/-- `Stats_mean` -/
def mean (st : Stats) : ℚ :=
  st.sum / st.n.toNat

/-- What `Stats_stddev` takes the root of. -/
def stddevSquared (st : Stats) : ℚ :=
  (st.sumsq - st.sum * st.mean) / (st.n - 1).toNat

/-- The divisors of `Stats_mean` and of `Stats_stddev`, which calls it: `n` and `n - 1`, which is to be
one less than `n`. -/
structure Divisible (st : Stats) : Prop where
  mean : st.n ≠ 0
  stddev : st.n - 1 ≠ 0
  unwrapped : (st.n - 1).toNat + 1 = st.n.toNat

/-- A record describes its samples. -/
structure Describes (st : Stats) (xs : List ℚ) : Prop where
  n : st.n.toNat = xs.length
  sum : st.sum = xs.sum
  sumsq : st.sumsq = (xs.map fun x => x * x).sum
  min : IsLeast {x | x ∈ xs} st.min
  max : IsGreatest {x | x ∈ xs} st.max
  mean : st.mean = Moments.mean xs
  min_le_mean : st.min ≤ st.mean
  mean_le_max : st.mean ≤ st.max
  variance : 2 ≤ xs.length → st.stddevSquared = Moments.variance xs
  nonneg : 2 ≤ xs.length → 0 ≤ st.stddevSquared

/-- The last sample is folded in last. -/
theorem sampleAll_concat (st : Stats) (xs : List ℚ) (x : ℚ) :
    st.sampleAll (xs ++ [x]) = (st.sampleAll xs).sample x := by
  rw [sampleAll, List.foldl_append]
  rfl

/-- The sum of a fresh record. -/
theorem sampleAll_sum (st : Stats) (xs : List ℚ) :
    (st.sampleAll xs).sum = st.sum + xs.sum := by
  induction xs generalizing st with
  | nil => simp
  | cons x xs ih =>
    rw [sampleAll_cons, ih, List.sum_cons, sample, add_assoc]

/-- The counter of a fresh record, after as many samples as it can count. -/
theorem n_eq_length {xs : List ℚ} (hlen : xs.length < 2 ^ 64) :
    (create.sampleAll xs).n.toNat = xs.length := by
  have hn : (create.sampleAll xs).n = UInt64.ofNat xs.length := by
    rw [sampleAll_n]
    exact zero_add _
  rw [hn, UInt64.toNat_ofNat']
  exact Nat.mod_eq_of_lt hlen

/-- The samples are those before the last one, and that. -/
theorem mem_concat (xs : List ℚ) (s : ℚ) : {x | x ∈ xs ++ [s]} = insert s {x | x ∈ xs} := by
  ext x
  simp [or_comm]

/-- **One sample** on the bounds: the first is both of them. -/
theorem sample_bounds {st : Stats} {xs : List ℚ} (hn : st.n = 0 ↔ xs = [])
    (hmin : xs ≠ [] → IsLeast {x | x ∈ xs} st.min)
    (hmax : xs ≠ [] → IsGreatest {x | x ∈ xs} st.max) (s : ℚ) :
    IsLeast {x | x ∈ xs ++ [s]} (st.sample s).min ∧
      IsGreatest {x | x ∈ xs ++ [s]} (st.sample s).max := by
  by_cases hnil : xs = []
  · -- what the fields hold before the first sample is not looked at
    have hzero : st.n = 0 := hn.mpr hnil
    have hsingle : {x | x ∈ ([] : List ℚ) ++ [s]} = {s} := by
      ext x
      simp
    rw [hnil, hsingle, sample]
    simp only [if_pos hzero]
    exact ⟨isLeast_singleton, isGreatest_singleton⟩
  · have hpos : st.n ≠ 0 := fun hzero => hnil (hn.mp hzero)
    have hless : (st.sample s).min = Min.min s st.min := by
      rw [sample, min_def]
      simp only [if_neg hpos]
      split <;> split <;> linarith
    have hmore : (st.sample s).max = Max.max s st.max := by
      rw [sample, max_def]
      simp only [if_neg hpos]
      split <;> split <;> linarith
    rw [mem_concat, hless, hmore]
    exact ⟨(hmin hnil).insert s, (hmax hnil).insert s⟩

/-- The bounds of a fresh record, by induction on the samples from the last one on. -/
theorem sampleAll_bounds {xs : List ℚ} (hlen : xs.length < 2 ^ 64) (hne : xs ≠ []) :
    IsLeast {x | x ∈ xs} (create.sampleAll xs).min ∧
      IsGreatest {x | x ∈ xs} (create.sampleAll xs).max := by
  induction xs using List.reverseRecOn with
  | nil => exact absurd rfl hne
  | append_singleton xs s ih =>
    rw [List.length_append, List.length_singleton] at hlen
    have hshort : xs.length < 2 ^ 64 := by omega
    have hn : (create.sampleAll xs).n = 0 ↔ xs = [] := by
      rw [← UInt64.toNat_inj, n_eq_length hshort]
      exact List.length_eq_zero_iff
    rw [sampleAll_concat]
    exact sample_bounds hn (fun h => (ih hshort h).1) (fun h => (ih hshort h).2) s

/-- **A record describes its samples**, when there are no more than it can count. -/
theorem sampleAll_describes {xs : List ℚ} (hne : xs ≠ []) (hlen : xs.length < 2 ^ 64) :
    (create.sampleAll xs).Describes xs := by
  have hn := n_eq_length hlen
  have hsum : (create.sampleAll xs).sum = xs.sum := by
    rw [sampleAll_sum]
    exact zero_add _
  have hsumsq : (create.sampleAll xs).sumsq = (xs.map fun x => x * x).sum := by
    rw [sampleAll_sumsq]
    exact zero_add _
  have hmean : (create.sampleAll xs).mean = Moments.mean xs := by
    rw [mean, hn, hsum, Moments.mean]
  obtain ⟨hmin, hmax⟩ := sampleAll_bounds hlen hne
  -- `n - 1` does not wrap, since there is a sample
  have hpred : (((create.sampleAll xs).n - 1).toNat : ℚ) = xs.length - 1 := by
    have hpos := List.length_pos_iff.mpr hne
    have hle : (1 : UInt64) ≤ (create.sampleAll xs).n := by
      rw [UInt64.le_iff_toNat_le, hn]
      exact hpos
    rw [UInt64.toNat_sub_of_le _ _ hle, hn]
    push_cast [Nat.cast_sub hpos]
    rfl
  have hvariance : (create.sampleAll xs).stddevSquared = Moments.variance xs := by
    rw [stddevSquared, hpred, hmean, hsum, hsumsq, Moments.variance, Moments.sum_sq_sub_mean hne]
  refine ⟨hn, hsum, hsumsq, hmin, hmax, hmean, ?_, ?_, fun _ => hvariance, fun htwo => ?_⟩
  · rw [hmean]
    exact Moments.le_mean hne hmin.2
  · rw [hmean]
    exact Moments.mean_le hne hmax.2
  · rw [hvariance]
    exact Moments.variance_nonneg (by omega)

theorem sampleAll_describes_two : (create.sampleAll [1, 4]).Describes [1, 4] :=
  sampleAll_describes (by decide) (by decide)

/-- The counter is back at zero after `2 ^ 64` samples. -/
theorem counter_wraps :
    ¬ (create.sampleAll (List.replicate (2 ^ 64) 0)).Describes (List.replicate (2 ^ 64) 0) := by
  intro h
  have hn := h.n
  rw [sampleAll_n, List.length_replicate] at hn
  exact absurd hn (by decide)

end Stats

end Lcthw
