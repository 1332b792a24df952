import Mathlib

/-!
# Horspool — string search that skips by the last character

The search compares a needle `w` with the text `h` at one position after the other. At a position
where they differ it looks at the character `c` of the text under the end of the needle, and moves
on by the distance from the end of the needle to the nearest earlier `c` in it.

* **`Occurs`**, **`Leftmost`**: where the needle stands, and the first such position.
* **`IsShift`**: the distance for one character; `IsShift.not_occurs` says that no occurrence lies
  closer, so moving on by at most that much is safe (`Leftmost.skip`).
* **`Leftmost.first_iff`**: a search that stops short of the end of the text misses the first
  occurrence only if that is at the very end.
* **`Slide`**: from one window to the next.
* **`exists_missed`**: for every distance there is a text in which moving on by more is not safe.
* **`Occurrences`**: the occurrences one after the other, without overlaps.
-/

namespace Horspool

variable {α : Type*}

/-- The needle `w` stands in the text `h` at position `p`. -/
def Occurs (w h : List α) (p : ℕ) : Prop :=
  ∀ i, i < w.length → h[p + i]? = w[i]?

/-- The result of a search from `p` on for an occurrence that is not a suffix of the text. -/
def Leftmost (w h : List α) (p : ℕ) : Option ℕ → Prop
  | some q => p ≤ q ∧ q + w.length < h.length ∧ Occurs w h q ∧ ∀ r, p ≤ r → r < q → ¬ Occurs w h r
  | none => ∀ q, p ≤ q → q + w.length < h.length → ¬ Occurs w h q

/-- The distance from the last position of `w` to the nearest earlier one that holds `c`, or the
length of `w` when there is none. -/
structure IsShift (w : List α) (c : α) (d : ℕ) : Prop where
  pos : 0 < d
  le_length : d ≤ w.length
  hits : d < w.length → w[w.length - 1 - d]? = some c
  nearest : ∀ e, 0 < e → e < d → w[w.length - 1 - e]? ≠ some c

variable {w h : List α} {p : ℕ}

theorem Leftmost.unique {r s : Option ℕ} (hr : Leftmost w h p r) (hs : Leftmost w h p s) : r = s := by
  cases r with
  | none =>
    cases s with
    | none => rfl
    | some q => exact absurd hs.2.2.1 (hr q hs.1 hs.2.1)
  | some q =>
    cases s with
    | none => exact absurd hr.2.2.1 (hs q hr.1 hr.2.1)
    | some q' =>
      rcases lt_trichotomy q q' with hlt | rfl | hgt
      · exact absurd hr.2.2.1 (hs.2.2.2 q hr.1 hlt)
      · rfl
      · exact absurd hs.2.2.1 (hr.2.2.2 q' hs.1 hgt)

/-- The first position of the needle, wherever it is, if there is one. -/
def First (w h : List α) : Option ℕ → Prop
  | some q => Occurs w h q ∧ ∀ r, r < q → ¬ Occurs w h r
  | none => ∀ q, ¬ Occurs w h q

/-- **What a search that stops short of the end misses.** -/
theorem Leftmost.first_iff {r : Option ℕ} (hr : Leftmost w h 0 r) :
    First w h r ↔ ∀ q, First w h (some q) → q + w.length < h.length := by
  classical
  cases r with
  | some q =>
    obtain ⟨-, hlen, hocc, hfirst⟩ := hr
    refine iff_of_true ⟨hocc, fun r hlt => hfirst r (Nat.zero_le r) hlt⟩ ?_
    rintro q' ⟨hocc', hfirst'⟩
    have hle : q' ≤ q := not_lt.mp fun hlt => hfirst' q hlt hocc
    omega
  | none =>
    constructor
    · intro hnone q hq
      exact absurd hq.1 (hnone q)
    · intro hshort q hocc
      have hex : ∃ q, Occurs w h q := ⟨q, hocc⟩
      have hfirst : First w h (some (Nat.find hex)) :=
        ⟨Nat.find_spec hex, fun r hlt => Nat.find_min hex hlt⟩
      exact hr _ (Nat.zero_le _) (hshort _ hfirst) hfirst.1

/-- One move of a search: a window that does not match, and has text behind it, is left by its
shift. -/
inductive Slide (w h : List α) : ℕ → ℕ → Prop
  | shift {p d : ℕ} {c : α} (hroom : p + w.length < h.length) (hnot : ¬ Occurs w h p)
      (hc : h[p + (w.length - 1)]? = some c) (hd : IsShift w c d) : Slide w h p (p + d)

/-- The windows that the shifts lead to. -/
abbrev Visits (w h : List α) : ℕ → ℕ → Prop :=
  Relation.ReflTransGen (Slide w h)

/-- Positions without an occurrence can be skipped. -/
theorem Leftmost.skip {d : ℕ} (hnone : ∀ q, p ≤ q → q < p + d → ¬ Occurs w h q) {r : Option ℕ}
    (hr : Leftmost w h (p + d) r) : Leftmost w h p r := by
  cases r with
  | none =>
    intro q hq hlen
    rcases lt_or_ge q (p + d) with hlt | hge
    · exact hnone q hq hlt
    · exact hr q hge hlen
  | some q =>
    obtain ⟨hq, hlen, hocc, hfirst⟩ := hr
    refine ⟨by omega, hlen, hocc, fun r hr hrq => ?_⟩
    rcases lt_or_ge r (p + d) with hlt | hge
    · exact hnone r hr hlt
    · exact hfirst r hge hrq

/-- **No occurrence lies closer than the shift.** It would put the character under the end of the
needle at an earlier position of the needle. -/
theorem IsShift.not_occurs {c : α} {d : ℕ} (hd : IsShift w c d)
    (hc : h[p + (w.length - 1)]? = some c) {q : ℕ} (hpq : p < q) (hq : q < p + d) :
    ¬ Occurs w h q := by
  have hle := hd.le_length
  intro hocc
  have hchar := hocc (w.length - 1 - (q - p)) (by omega)
  rw [show q + (w.length - 1 - (q - p)) = p + (w.length - 1) by omega, hc] at hchar
  exact hd.nearest (q - p) (by omega) (by omega) hchar.symm

theorem IsShift.unique {c : α} {d e : ℕ} (hd : IsShift w c d) (he : IsShift w c e) : d = e := by
  have hdle := hd.le_length
  have hele := he.le_length
  rcases lt_trichotomy d e with hlt | heq | hgt
  · exact absurd (hd.hits (by omega)) (he.nearest d hd.pos hlt)
  · exact heq
  · exact absurd (he.hits (by omega)) (hd.nearest e he.pos hgt)

/-- The start of a text that holds the needle at `d` and not at `0`: fill with `x`, but end with `c`
where the needle has no `c` to offer. -/
def lead (w : List α) (c x : α) (d : ℕ) : List α :=
  List.replicate (d - 1) x ++ [if d = w.length then c else x]

theorem length_lead (w : List α) (c x : α) {d : ℕ} (hd : 0 < d) : (lead w c x d).length = d := by
  rw [lead, List.length_append, List.length_replicate, List.length_singleton]
  omega

/-- **Moving on by more than the shift misses an occurrence.** The text has the needle exactly one
shift behind a mismatch. The one needle for which there is none is `c` itself, where `c` under the
end of the needle is no mismatch. -/
theorem exists_missed {c x : α} {d : ℕ} (hd : IsShift w c d) (hx : w.head? ≠ some x)
    (hc : w ≠ [c]) :
    ∃ h, h.length = d + w.length + 1 ∧ (∀ y ∈ h, y = c ∨ y = x ∨ y ∈ w) ∧
      h[w.length - 1]? = some c ∧ ¬ Occurs w h 0 ∧ Occurs w h d := by
  have hpos := hd.pos
  have hle := hd.le_length
  have hlead := length_lead w c x hpos
  refine ⟨lead w c x d ++ (w ++ [x]), ?_, ?_, ?_, ?_, ?_⟩
  · rw [List.length_append, List.length_append, hlead, List.length_singleton]
    omega
  · intro y hy
    rw [lead] at hy
    simp only [List.mem_append, List.mem_replicate, List.mem_singleton] at hy
    rcases hy with (⟨-, rfl⟩ | rfl) | hw | rfl
    · exact .inr (.inl rfl)
    · split
      · exact .inl rfl
      · exact .inr (.inl rfl)
    · exact .inr (.inr hw)
    · exact .inr (.inl rfl)
  · rcases lt_or_eq_of_le hle with hlt | heq
    · -- the character under the end is the needle's own `c`
      rw [List.getElem?_append_right (by omega), hlead, List.getElem?_append_left (by omega)]
      exact hd.hits hlt
    · rw [List.getElem?_append_left (by omega), lead, List.getElem?_append_right (by simp; omega),
        List.length_replicate, if_pos heq, show w.length - 1 - (d - 1) = 0 by omega]
      rfl
  · intro hocc
    have hfirst := hocc 0 (by omega)
    rw [zero_add, List.getElem?_append_left (by omega), ← List.head?_eq_getElem?,
      ← List.head?_eq_getElem?] at hfirst
    rcases Nat.lt_or_ge 1 d with hone | hone
    · rw [lead, show d - 1 = (d - 2) + 1 by omega, List.replicate_succ] at hfirst
      exact hx hfirst.symm
    · obtain rfl : d = 1 := by omega
      rw [lead] at hfirst
      by_cases hlen : 1 = w.length
      · -- a needle of one character other than `c`
        rw [if_pos hlen] at hfirst
        obtain ⟨y, rfl⟩ := List.length_eq_one_iff.mp hlen.symm
        cases hfirst
        exact hc rfl
      · rw [if_neg hlen] at hfirst
        exact hx hfirst.symm
  · intro i hi
    rw [List.getElem?_append_right (by omega), hlead, Nat.add_sub_cancel_left,
      List.getElem?_append_left hi]

/-! ## One occurrence after the other

The occurrences that do not overlap, each the first behind the end of the one before. There is one such
list for every needle and every start, and a search that is called again and again goes through it. -/

/-- The occurrences from `p` on, from left to right, each behind the end of the one before. -/
inductive Occurrences (w h : List α) : ℕ → List ℕ → Prop
  | done {p : ℕ} (hnone : ∀ q, p ≤ q → ¬ Occurs w h q) : Occurrences w h p []
  | next {p q : ℕ} {qs : List ℕ} (hle : p ≤ q) (hocc : Occurs w h q)
      (hfirst : ∀ r, p ≤ r → r < q → ¬ Occurs w h r)
      (hrest : Occurrences w h (q + w.length) qs) : Occurrences w h p (q :: qs)

theorem Occurs.le_length (hw : w ≠ []) {q : ℕ} (h' : Occurs w h q) : q + w.length ≤ h.length := by
  have hpos := List.length_pos_iff.mpr hw
  have hlast := h' (w.length - 1) (by omega)
  rw [List.getElem?_eq_getElem (show w.length - 1 < w.length by omega)] at hlast
  have hlt := (List.getElem?_eq_some_iff.mp hlast).1
  omega

/-- An occurrence is a way to cut the text. -/
theorem exists_occurs_iff (hw : w ≠ []) : (∃ p, Occurs w h p) ↔ w <:+: h := by
  constructor
  · rintro ⟨p, hocc⟩
    have hlen := hocc.le_length hw
    have hdrop : w = (h.drop p).take w.length := by
      refine List.ext_getElem? fun i => ?_
      rcases lt_or_ge i w.length with hlt | hge
      · rw [List.getElem?_take_of_lt hlt, List.getElem?_drop, hocc i hlt]
      · rw [List.getElem?_eq_none hge, List.getElem?_eq_none]
        rw [List.length_take]
        omega
    rw [hdrop]
    exact (List.take_prefix _ _).isInfix.trans (List.drop_suffix p h).isInfix
  · rintro ⟨before, after, rfl⟩
    refine ⟨before.length, fun i hi => ?_⟩
    rw [List.append_assoc, List.getElem?_append_right (by omega), Nat.add_sub_cancel_left,
      List.getElem?_append_left hi]

theorem exists_occurrences (hw : w ≠ []) (h : List α) (p : ℕ) : ∃ qs, Occurrences w h p qs := by
  classical
  have hpos := List.length_pos_iff.mpr hw
  induction hn : h.length + 1 - p using Nat.strong_induction_on generalizing p with
  | _ n ih =>
    by_cases hex : ∃ q, p ≤ q ∧ Occurs w h q
    · obtain ⟨hle, hocc⟩ := Nat.find_spec hex
      have hlen := hocc.le_length hw
      obtain ⟨qs, hqs⟩ := ih _ (by omega) (Nat.find hex + w.length) rfl
      exact ⟨_, .next hle hocc (fun r hr hlt hr' => Nat.find_min hex hlt ⟨hr, hr'⟩) hqs⟩
    · exact ⟨[], .done fun q hq hocc => hex ⟨q, hq, hocc⟩⟩

/-- There is one list of occurrences from a place on. -/
theorem Occurrences.unique {ps qs : List ℕ} (hp : Occurrences w h p ps)
    (hq : Occurrences w h p qs) : ps = qs := by
  induction hp generalizing qs with
  | done hnone =>
    cases hq with
    | done _ => rfl
    | next hle hocc _ _ => exact absurd hocc (hnone _ hle)
  | next hle hocc hfirst _ ih =>
    cases hq with
    | done hnone => exact absurd hocc (hnone _ hle)
    | next hle' hocc' hfirst' hrest' =>
      obtain rfl := le_antisymm
        (not_lt.mp fun hlt => hfirst _ hle' hlt hocc')
        (not_lt.mp fun hlt => hfirst' _ hle hlt hocc)
      rw [ih hrest']

/-- An occurrence in front of a limit is one in the text up to it. -/
theorem occurs_take {n q : ℕ} (hq : q + w.length ≤ n) : Occurs w (h.take n) q ↔ Occurs w h q := by
  refine forall_congr' fun i => imp_congr_right fun hi => ?_
  rw [List.getElem?_take_of_lt (by omega)]

/-- A search up to a limit finds the first of the occurrences. -/
theorem Occurrences.leftmost_some {n q : ℕ} {qs : List ℕ} (hqs : Occurrences w h p (q :: qs))
    (hn : n ≤ h.length) (hq : q + w.length < n) : Leftmost w (h.take n) p (some q) := by
  cases hqs with
  | next hle hocc hfirst _ =>
    refine ⟨hle, ?_, (occurs_take hq.le).mpr hocc, fun r hr hlt hr' => ?_⟩
    · rwa [List.length_take, Nat.min_eq_left hn]
    · exact hfirst r hr hlt ((occurs_take (by omega)).mp hr')

/-- Unless it is too close to the limit. -/
theorem Occurrences.leftmost_none {n : ℕ} {qs : List ℕ} (hqs : Occurrences w h p qs)
    (hn : n ≤ h.length) (hq : ∀ q, qs.head? = some q → n ≤ q + w.length) :
    Leftmost w (h.take n) p none := by
  intro r hr hlt hocc
  rw [List.length_take, Nat.min_eq_left hn] at hlt
  rw [occurs_take hlt.le] at hocc
  cases hqs with
  | done hnone => exact hnone r hr hocc
  | @next _ q _ _ _ hfirst _ =>
    have hfar := hq q rfl
    exact hfirst r hr (by omega) hocc

end Horspool
