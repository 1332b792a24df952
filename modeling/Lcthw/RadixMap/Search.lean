import Lcthw.RadixMap.Sorting
import Mathlib.Logic.Relation

/-!
# Lcthw — the two binary searches of the radix map

* **`find_cases`**: `RadixMap_find` finds an element with its key exactly if there is one.
* **`bisect_cases`**: the bisection of `RadixMap_add` ends at an index that the new key is not
  below, or overflows: it adds the ends of an interval before it halves the sum.
-/

namespace Lcthw.RadixMap

/-! ## `RadixMap_find`

The loop narrows an interval of indices and never adds its ends, so it stays in range. It ends at an
element with the key, or with an empty interval. -/

theorem Sorted.le {xs : List RMElement} (h : Sorted xs) {i j : ℕ} {x y : RMElement} (hij : i ≤ j)
    (hx : xs[i]? = some x) (hy : xs[j]? = some y) : x.key.toNat ≤ y.key.toNat := by
  rcases hij.eq_or_lt with rfl | hlt
  · rw [Option.some.inj (hx.symm.trans hy)]
  · obtain ⟨hi, rfl⟩ := List.getElem?_eq_some_iff.mp hx
    obtain ⟨hj, rfl⟩ := List.getElem?_eq_some_iff.mp hy
    exact UInt32.le_iff_toNat_le.mp (List.pairwise_iff_getElem.mp h i j hi hj hlt)

/-- An index in use, loaded from the array. -/
theorem readAt_live {m : RadixMap} {i : ℕ} {x : RMElement} (h : m.live[i]? = some x) :
    readAt m.contents i = .ok x := by
  apply readAt_eq
  rw [live, List.getElem?_take] at h
  split at h
  · exact h
  · cases h

theorem exists_live {m : RadixMap} (h : Valid m) {i : ℕ} (hi : i < m.end) :
    ∃ x, m.live[i]? = some x :=
  ⟨_, List.getElem?_eq_getElem (by rw [h.length_live]; exact hi)⟩

/-- The loop keeps what it looks for between `low` and `high`. -/
theorem findLoop_cases {m : RadixMap} (h : Valid m) (hs : Sorted m.live)
    (hsize : (m.end : ℤ) ≤ INT_MAX) (k : UInt32) {low high : ℕ} (hhigh : high ≤ m.end)
    (hlow : ∀ i x, m.live[i]? = some x → x.key = k → low ≤ i ∧ i < high) :
    (∃ (i : ℕ) (x : RMElement), findLoop m.contents k low (high - 1) = .ok (some (i : ℤ)) ∧
      m.live[i]? = some x ∧ x.key = k) ∨
    (findLoop m.contents k low (high - 1) = .ok none ∧ ∀ x ∈ m.live, x.key ≠ k) := by
  have hmax : INT_MAX = 2 ^ 31 - 1 := rfl
  induction hn : high - low using Nat.strong_induction_on generalizing low high with
  | _ n ih =>
    subst hn
    by_cases hle : low < high
    · obtain ⟨middle, hmiddle⟩ : ∃ middle, middle = low + (high - 1 - low) / 2 := ⟨_, rfl⟩
      have hcast : (low : ℤ) + ((high : ℤ) - 1 - low) / 2 = (middle : ℕ) := by omega
      obtain ⟨x, hx⟩ := exists_live h (show middle < m.end by omega)
      rw [findLoop, dif_pos (by omega), int_ok (by omega) (by omega), ok_bind]
      simp only [hcast, readAt_live hx, ok_bind]
      by_cases hlt : k < x.key
      · -- everything from `middle` on has a larger key
        rw [if_pos hlt]
        refine ih (middle - low) (by omega) (by omega) (fun i y hy hyk => ?_) rfl
        obtain ⟨hli, -⟩ := hlow i y hy hyk
        refine ⟨hli, Nat.lt_of_not_le fun hmi => ?_⟩
        have hxy := hs.le hmi hx hy
        rw [UInt32.lt_iff_toNat_lt, ← hyk] at hlt
        omega
      · rw [if_neg hlt]
        by_cases hgt : k > x.key
        · rw [if_pos hgt]
          have hnext : ((middle : ℕ) : ℤ) + 1 = (middle + 1 : ℕ) := by push_cast; rfl
          rw [hnext]
          refine ih (high - (middle + 1)) (by omega) hhigh (fun i y hy hyk => ?_) rfl
          obtain ⟨-, hih⟩ := hlow i y hy hyk
          refine ⟨Nat.succ_le_of_lt (Nat.lt_of_not_le fun him => ?_), hih⟩
          have hyx := hs.le him hy hx
          rw [gt_iff_lt, UInt32.lt_iff_toNat_lt, ← hyk] at hgt
          omega
        · rw [if_neg hgt]
          refine Or.inl ⟨middle, x, rfl, hx, ?_⟩
          rw [gt_iff_lt, UInt32.lt_iff_toNat_lt] at hgt
          rw [UInt32.lt_iff_toNat_lt] at hlt
          exact UInt32.toNat_inj.mp (by omega)
    · rw [findLoop, dif_neg (by omega)]
      refine Or.inr ⟨rfl, fun x hx hxk => ?_⟩
      obtain ⟨i, hi⟩ := List.getElem?_of_mem hx
      have hbetween := hlow i x hi hxk
      omega

/-- **`RadixMap_find` finds a key exactly if it is there.** -/
theorem find_cases {m : RadixMap} (h : Valid m) (hs : Sorted m.live)
    (hsize : (m.end : ℤ) ≤ INT_MAX) (k : UInt32) :
    (∃ (i : ℕ) (x : RMElement), m.find k = .ok (some (i : ℤ)) ∧ m.live[i]? = some x ∧ x.key = k) ∨
    (m.find k = .ok none ∧ ∀ x ∈ m.live, x.key ≠ k) := by
  have hmax : INT_MAX = 2 ^ 31 - 1 := rfl
  rw [find, toInt_eq (by omega) (by omega)]
  have hall : ∀ i x, m.live[i]? = some x → x.key = k → 0 ≤ i ∧ i < m.end := by
    intro i x hx _
    refine ⟨Nat.zero_le i, ?_⟩
    rw [← h.length_live]
    exact (List.getElem?_eq_some_iff.mp hx).1
  exact findLoop_cases h hs hsize k le_rfl hall

/-! ## The bisection of `RadixMap_add`

This one adds the ends of its interval. Which intervals it comes to is decided by the key; those that
enclose the key strictly are the ones it goes on with, so the condition that it stays in range can be
said of these intervals without running it. -/

/-- One round of the bisection, where the sum of the ends is an `int`. -/
theorem bisect_round {data : List RMElement} (key : UInt32) {b e : ℤ} (s : ℤ) {mid : ℕ}
    {x : RMElement} (hb : 0 ≤ b) (hlt : b < e - 1) (hover : b + e ≤ INT_MAX)
    (hmid : (b + e) / 2 = mid) (hx : readAt data mid = .ok x) :
    bisect data key b e s =
      if key > x.key then bisect data key mid e (e - 1)
      else if key < x.key then bisect data key b mid (mid - 1)
      else .ok (mid : ℤ) := by
  have hmin : -INT_MAX - 1 ≤ 0 := by decide
  have hsum : 0 ≤ b + e := add_nonneg hb (by omega)
  rw [bisect, if_neg (by omega), dif_pos hlt, int_ok (by omega) hover, ok_bind]
  simp only [hmid, hx, ok_bind]
  rfl

theorem bisect_round_overflow (data : List RMElement) (key : UInt32) {b e : ℤ} (s : ℤ) (hb : 0 ≤ b)
    (hlt : b < e - 1) (hover : INT_MAX < b + e) : bisect data key b e s = .error .intOverflow := by
  have hmin : -INT_MAX - 1 ≤ 0 := by decide
  rw [bisect, if_neg (by omega), dif_pos hlt, int_overflow hover]
  rfl

/-- An interval that is not bisected. -/
theorem bisect_done (data : List RMElement) (key : UInt32) {b e : ℤ} (s : ℤ)
    (hmin : -INT_MAX - 1 < e) (hge : e ≤ b + 1) : bisect data key b e s = .ok s := by
  rw [bisect, if_neg (by omega), dif_neg (by omega)]
  rfl

/-- An interval of at least two indices is halved into two. -/
inductive Half : ℕ × ℕ → ℕ × ℕ → Prop where
  | low {b e : ℕ} : b + 1 < e → Half (b, e) (b, (b + e) / 2)
  | high {b e : ℕ} : b + 1 < e → Half (b, e) ((b + e) / 2, e)

/-- The intervals that halving `i` again and again leads to. -/
abbrev Halves : ℕ × ℕ → ℕ × ℕ → Prop :=
  Relation.ReflTransGen Half

/-- A key is strictly between the elements at the ends of an interval; the ends of the array are
no bound. -/
def Encloses (xs : List RMElement) (key : UInt32) (b e : ℕ) : Prop :=
  (b = 0 ∨ ∃ x, xs[b]? = some x ∧ x.key < key) ∧
    (e = xs.length ∨ ∃ x, xs[e]? = some x ∧ key < x.key)

/-- **When a bisection stays in range.** No interval that encloses the key has ends whose sum is
too large for an `int`. -/
def Bisectable (xs : List RMElement) (key : UInt32) : Prop :=
  ∀ b e, Halves (0, xs.length) (b, e) → b + 1 < e → Encloses xs key b e →
    (b + e : ℤ) ≤ INT_MAX

/-- An index where sorting may start: the elements in front have no larger key. -/
def Place (xs : List RMElement) (key : UInt32) (p : ℕ) : Prop :=
  p = 0 ∨ ∃ x, xs[p]? = some x ∧ x.key ≤ key

theorem Halves.within {i j : ℕ × ℕ} (h : Halves i j) (hi : i.1 ≤ i.2) :
    i.1 ≤ j.1 ∧ j.1 ≤ j.2 ∧ j.2 ≤ i.2 := by
  induction h with
  | refl => exact ⟨le_rfl, hi, le_rfl⟩
  | tail _ hstep ih =>
    cases hstep with
    | low hlt => exact ⟨ih.1, by simp only; omega, by simp only at ih ⊢; omega⟩
    | high hlt => exact ⟨by simp only at ih ⊢; omega, by simp only; omega, ih.2.2⟩

/-- The intervals that the halving of an interval leads to: itself, and those of either half. -/
theorem halves_iff {b e : ℕ} {j : ℕ × ℕ} (hlt : b + 1 < e) :
    Halves (b, e) j ↔ j = (b, e) ∨ Halves (b, (b + e) / 2) j ∨ Halves ((b + e) / 2, e) j := by
  constructor
  · intro h
    rcases Relation.ReflTransGen.cases_head h with rfl | ⟨i, hi, hij⟩
    · exact Or.inl rfl
    · cases hi with
      | low _ => exact Or.inr (Or.inl hij)
      | high _ => exact Or.inr (Or.inr hij)
  · rintro (rfl | h | h)
    · exact Relation.ReflTransGen.refl
    · exact Relation.ReflTransGen.head (Half.low hlt) h
    · exact Relation.ReflTransGen.head (Half.high hlt) h

section Bisect

variable {xs data : List RMElement} {key : UInt32}

/-- What a bisection of the interval from `b` to `e` ends in. -/
def Bisects (xs data : List RMElement) (key : UInt32) (b e : ℕ) (s : ℤ) : Prop :=
  ((∃ p : ℕ, bisect data key b e s = .ok (p : ℤ) ∧ Place xs key p) ∧
    ∀ b' e', Halves (b, e) (b', e') → b' + 1 < e' → Encloses xs key b' e' →
      (b' + e' : ℤ) ≤ INT_MAX) ∨
  (bisect data key b e s = .error .intOverflow ∧
    ∃ b' e', Halves (b, e) (b', e') ∧ b' + 1 < e' ∧ Encloses xs key b' e' ∧
      INT_MAX < (b' + e' : ℤ))

/-- An interval in front of an element that the key is not below does not enclose the key. -/
theorem not_encloses_low (hs : Sorted xs) {mid : ℕ} {x : RMElement} (hx : xs[mid]? = some x)
    (hge : x.key ≤ key) {b : ℕ} (h : Halves (b, mid) (b', e')) (hb : b ≤ mid) :
    ¬ Encloses xs key b' e' := by
  obtain ⟨-, -, he⟩ := h.within hb
  have hmid : mid < xs.length := (List.getElem?_eq_some_iff.mp hx).1
  rintro ⟨-, heq | ⟨y, hy, hlt⟩⟩
  · simp only at he
    omega
  · have hyx := hs.le he hy hx
    rw [UInt32.lt_iff_toNat_lt] at hlt
    rw [UInt32.le_iff_toNat_le] at hge
    omega

/-- Nor does an interval behind an element that the key is not above. -/
theorem not_encloses_high (hs : Sorted xs) {mid : ℕ} {x : RMElement} (hx : xs[mid]? = some x)
    (hle : key ≤ x.key) (hpos : 0 < mid) {e : ℕ} (h : Halves (mid, e) (b', e')) (he : mid ≤ e) :
    ¬ Encloses xs key b' e' := by
  obtain ⟨hb, -, -⟩ := h.within he
  rintro ⟨heq | ⟨y, hy, hlt⟩, -⟩
  · simp only at hb
    omega
  · have hxy := hs.le hb hx hy
    rw [UInt32.lt_iff_toNat_lt] at hlt
    rw [UInt32.le_iff_toNat_le] at hle
    omega

/-- A half that the bisection goes on with decides, since no other interval below encloses the key. -/
theorem Bisects.of_half {b e lo hi : ℕ} {s s' : ℤ} (hnext : Bisects xs data key lo hi s')
    (heq : bisect data key b e s = bisect data key lo hi s') (hover : (b + e : ℤ) ≤ INT_MAX)
    (hhalf : ∀ p, Halves (lo, hi) p → Halves (b, e) p)
    (hrest : ∀ p, Halves (b, e) p → p = (b, e) ∨ Halves (lo, hi) p ∨ ¬ Encloses xs key p.1 p.2) :
    Bisects xs data key b e s := by
  unfold Bisects at hnext ⊢
  rw [heq]
  rcases hnext with ⟨hok, hall⟩ | ⟨herr, b', e', h, hlt', henc', hbig⟩
  · refine Or.inl ⟨hok, fun b' e' h hlt' henc' => ?_⟩
    rcases hrest (b', e') h with hself | hsame | hnot
    · obtain ⟨rfl, rfl⟩ := Prod.mk.inj hself
      exact hover
    · exact hall b' e' hsame hlt' henc'
    · exact absurd henc' hnot
  · exact Or.inr ⟨herr, b', e', hhalf _ h, hlt', henc', hbig⟩

/-- The key is in the middle, so no half encloses it. -/
theorem Bisects.of_middle {b e mid : ℕ} {s : ℤ} (heq : bisect data key b e s = .ok (mid : ℤ))
    (hplace : Place xs key mid) (hover : (b + e : ℤ) ≤ INT_MAX)
    (hrest : ∀ p, Halves (b, e) p → p = (b, e) ∨ ¬ Encloses xs key p.1 p.2) :
    Bisects xs data key b e s := by
  refine Or.inl ⟨⟨mid, heq, hplace⟩, fun b' e' h _ henc' => ?_⟩
  rcases hrest (b', e') h with hself | hnot
  · obtain ⟨rfl, rfl⟩ := Prod.mk.inj hself
    exact hover
  · exact absurd henc' hnot

section Round

variable {b e mid : ℕ} {s : ℤ} {x : RMElement}

/-- The key is above the middle. -/
theorem Bisects.above (hs : Sorted xs) (hlt : b + 1 < e) (hmid : mid = (b + e) / 2)
    (hx : xs[mid]? = some x) (hload : readAt data mid = .ok x) (hover : (b + e : ℤ) ≤ INT_MAX)
    (hgt : x.key < key) (hnext : Bisects xs data key mid e (e - 1)) :
    Bisects xs data key b e s := by
  have hstep := bisect_round key s (Int.natCast_nonneg b) (by omega) hover (by omega) hload
  have hle : x.key ≤ key := by
    rw [UInt32.lt_iff_toNat_lt] at hgt
    exact UInt32.le_iff_toNat_le.mpr hgt.le
  have hsplit := fun p => halves_iff (j := p) hlt
  rw [← hmid] at hsplit
  rw [if_pos hgt] at hstep
  refine hnext.of_half hstep hover (fun p h => (hsplit p).mpr (Or.inr (Or.inr h))) ?_
  intro p h
  rcases (hsplit p).mp h with hself | hl | hhigh
  · exact Or.inl hself
  · exact Or.inr (Or.inr (not_encloses_low hs hx hle hl (by omega)))
  · exact Or.inr (Or.inl hhigh)

/-- The key is below the middle. -/
theorem Bisects.below (hs : Sorted xs) (hlt : b + 1 < e) (hmid : mid = (b + e) / 2)
    (hx : xs[mid]? = some x) (hload : readAt data mid = .ok x) (hover : (b + e : ℤ) ≤ INT_MAX)
    (hlow : key < x.key) (hnext : Bisects xs data key b mid (mid - 1)) :
    Bisects xs data key b e s := by
  have hstep := bisect_round key s (Int.natCast_nonneg b) (by omega) hover (by omega) hload
  rw [UInt32.lt_iff_toNat_lt] at hlow
  have hle : key ≤ x.key := UInt32.le_iff_toNat_le.mpr hlow.le
  have hsplit := fun p => halves_iff (j := p) hlt
  rw [← hmid] at hsplit
  rw [if_neg (by rw [gt_iff_lt, UInt32.lt_iff_toNat_lt]; omega),
    if_pos (UInt32.lt_iff_toNat_lt.mpr hlow)] at hstep
  refine hnext.of_half hstep hover (fun p h => (hsplit p).mpr (Or.inr (Or.inl h))) ?_
  intro p h
  rcases (hsplit p).mp h with hself | hl | hhigh
  · exact Or.inl hself
  · exact Or.inr (Or.inl hl)
  · exact Or.inr (Or.inr (not_encloses_high hs hx hle (by omega) hhigh (by omega)))

/-- The key is in the middle. -/
theorem Bisects.at_middle (hs : Sorted xs) (hlt : b + 1 < e) (hmid : mid = (b + e) / 2)
    (hx : xs[mid]? = some x) (hload : readAt data mid = .ok x) (hover : (b + e : ℤ) ≤ INT_MAX)
    (heq : x.key = key) : Bisects xs data key b e s := by
  have hstep := bisect_round key s (Int.natCast_nonneg b) (by omega) hover (by omega) hload
  have hself : ¬ key < key := by
    rw [UInt32.lt_iff_toNat_lt]
    exact lt_irrefl _
  have hsplit := fun p => halves_iff (j := p) hlt
  rw [← hmid] at hsplit
  rw [heq, if_neg hself, if_neg hself] at hstep
  refine Bisects.of_middle hstep (Or.inr ⟨x, hx, heq ▸ UInt32.le_refl _⟩) hover fun p h => ?_
  rcases (hsplit p).mp h with hself | hl | hhigh
  · exact Or.inl hself
  · exact Or.inr (not_encloses_low hs hx (heq ▸ UInt32.le_refl _) hl (by omega))
  · exact Or.inr (not_encloses_high hs hx (heq ▸ UInt32.le_refl _) (by omega) hhigh (by omega))

end Round

/-- **The bisection.** From an interval that encloses the key it ends at a place for the key, or
overflows; it overflows exactly if some interval on its way does. -/
theorem bisect_cases (hs : Sorted xs) (hload : ∀ (i : ℕ) x, xs[i]? = some x → readAt data i = .ok x)
    {b e : ℕ} (hbe : b ≤ e) (he : e ≤ xs.length) (henc : Encloses xs key b e) {s : ℤ}
    (hstop : e ≤ b + 1 → s = b) : Bisects xs data key b e s := by
  induction hn : e - b using Nat.strong_induction_on generalizing b e s with
  | _ n ih =>
    subst hn
    by_cases hlt : b + 1 < e
    · by_cases hover : (b + e : ℤ) ≤ INT_MAX
      · obtain ⟨mid, hmid⟩ : ∃ mid, mid = (b + e) / 2 := ⟨_, rfl⟩
        obtain ⟨x, hx⟩ : ∃ x, xs[mid]? = some x := ⟨_, List.getElem?_eq_getElem (by omega)⟩
        have hread := hload mid x hx
        rcases lt_trichotomy x.key.toNat key.toNat with hgt | heq | hlow
        · -- above the middle
          have hgt' : x.key < key := UInt32.lt_iff_toNat_lt.mpr hgt
          have hnext := ih (e - mid) (by omega) (show mid ≤ e by omega) he
            ⟨Or.inr ⟨x, hx, hgt'⟩, henc.2⟩ (s := (e : ℤ) - 1) (by omega) rfl
          exact hnext.above hs hlt hmid hx hread hover hgt'
        · exact Bisects.at_middle hs hlt hmid hx hread hover (UInt32.toNat_inj.mp heq)
        · -- below the middle
          have hlow' : key < x.key := UInt32.lt_iff_toNat_lt.mpr hlow
          have hnext := ih (mid - b) (by omega) (show b ≤ mid by omega) (by omega)
            ⟨henc.1, Or.inr ⟨x, hx, hlow'⟩⟩ (s := (mid : ℤ) - 1) (by omega) rfl
          exact hnext.below hs hlt hmid hx hread hover hlow'
      · have herr := bisect_round_overflow data key s (Int.natCast_nonneg b)
          (show (b : ℤ) < e - 1 by omega) (by omega)
        exact Or.inr ⟨herr, b, e, Relation.ReflTransGen.refl, hlt, henc, by omega⟩
    · -- the interval is as narrow as it gets
      have hmin : -INT_MAX - 1 < 0 := by decide
      have hdone : bisect data key b e s = .ok (b : ℤ) := by
        rw [bisect_done data key s (by omega) (by omega), hstop (by omega)]
      refine Or.inl ⟨⟨b, hdone, ?_⟩, fun b' e' h hlt' => ?_⟩
      · refine henc.1.imp_right fun ⟨x, hx, hxk⟩ => ⟨x, hx, ?_⟩
        rw [UInt32.lt_iff_toNat_lt] at hxk
        exact UInt32.le_iff_toNat_le.mpr hxk.le
      · exfalso
        obtain ⟨h1, h2, h3⟩ := h.within hbe
        simp only at h1 h2 h3
        omega

end Bisect

end Lcthw.RadixMap
