import Lcthw.Horspool

/-!
# Replace — every occurrence of a word replaced

The occurrences are taken from left to right, each behind the end of the one before, and what stands
between them is kept.

* **`replaceAll`**: the plain way to do it, one character after the other.
* **`joined`**: the same from a list of the occurrences; `joined_eq` says that it is.
* **`replaceAll_singleton`**: a word of one character is replaced wherever it stands.
* **`overwrite`**: a part of a list written over, as a copy into a block does.
-/

namespace Replace

open Horspool

variable {α : Type*}

/-! ## Replacing

`replaceAll` says what is meant: one goes through the text and, where the word stands, puts in the other
one and goes on behind it. `joined` says how it is done with the places known beforehand, and that is
the form which the three loops of an implementation come to. -/

section Code

variable [DecidableEq α] (w r : List α)

/-- What becomes of a text, when `n` more of its characters belong to an occurrence. -/
def replaceFrom : ℕ → List α → List α
  | _, [] => []
  | n + 1, _ :: h => replaceFrom n h
  | 0, c :: h => if w <+: c :: h then r ++ replaceFrom (w.length - 1) h else c :: replaceFrom 0 h

/-- The text with every occurrence of `w` replaced by `r`. -/
def replaceAll (h : List α) : List α :=
  replaceFrom w r 0 h

end Code

/-- What becomes of the text `h` from `p` on, when the occurrences of a word of length `n` there are
those at `qs`. -/
def joined (h r : List α) (n : ℕ) : ℕ → List ℕ → List α
  | p, [] => h.drop p
  | p, q :: qs => (h.drop p).take (q - p) ++ (r ++ joined h r n (q + n) qs)

variable {w r h d : List α} {p q n : ℕ} {qs : List ℕ}

theorem occurs_iff_drop : Occurs w h p ↔ w <+: h.drop p := by
  rw [List.prefix_iff_getElem?]
  refine forall_congr' fun i => ?_
  constructor
  · intro hocc hi
    rw [List.getElem?_drop, hocc hi, List.getElem?_eq_getElem hi]
  · intro hocc hi
    rw [← List.getElem?_drop, hocc hi, List.getElem?_eq_getElem hi]

/-- Texts that agree from `p` on have the same occurrences there. -/
theorem occurs_congr (hdrop : d.drop p = h.drop p) (hpq : p ≤ q) : Occurs w d q ↔ Occurs w h q := by
  have heq : ∀ l : List α, l.drop q = (l.drop p).drop (q - p) := by
    intro l
    rw [List.drop_drop, Nat.add_sub_cancel' hpq]
  rw [occurs_iff_drop, occurs_iff_drop, heq d, heq h, hdrop]

section Decidable

variable [DecidableEq α]

theorem replaceFrom_eq (n : ℕ) (h : List α) : replaceFrom w r n h = replaceAll w r (h.drop n) := by
  induction h generalizing n with
  | nil =>
    rw [List.drop_nil]
    rfl
  | cons c h ih =>
    cases n with
    | zero => rfl
    | succ n => exact ih n

theorem replaceAll_cons (hw : w ≠ []) (c : α) (h : List α) : replaceAll w r (c :: h) =
    if w <+: c :: h then r ++ replaceAll w r ((c :: h).drop w.length) else c :: replaceAll w r h := by
  obtain ⟨x, w, rfl⟩ := List.exists_cons_of_ne_nil hw
  show (if x :: w <+: c :: h then r ++ replaceFrom (x :: w) r w.length h else _) = _
  rw [replaceFrom_eq]
  rfl

theorem replaceAll_none (hw : w ≠ []) (hnone : ∀ q, ¬ w <+: h.drop q) : replaceAll w r h = h := by
  induction h with
  | nil => rfl
  | cons c h ih =>
    have hc : ¬ w <+: c :: h := hnone 0
    rw [replaceAll_cons hw, if_neg hc, ih fun q => hnone (q + 1)]

/-- What stands before the first occurrence is kept. -/
theorem replaceAll_first (hw : w ≠ []) (hocc : w <+: h.drop n)
    (hfirst : ∀ q, q < n → ¬ w <+: h.drop q) :
    replaceAll w r h = h.take n ++ (r ++ replaceAll w r (h.drop (n + w.length))) := by
  have hne : h ≠ [] := by
    rintro rfl
    rw [List.drop_nil] at hocc
    exact hw (List.prefix_nil.mp hocc)
  induction n generalizing h with
  | zero =>
    obtain ⟨c, h, rfl⟩ := List.exists_cons_of_ne_nil hne
    have hc : w <+: c :: h := hocc
    rw [replaceAll_cons hw, if_pos hc, Nat.zero_add]
    rfl
  | succ n ih =>
    obtain ⟨c, h, rfl⟩ := List.exists_cons_of_ne_nil hne
    have hc : ¬ w <+: c :: h := hfirst 0 (Nat.succ_pos n)
    rw [replaceAll_cons hw, if_neg hc, Nat.add_right_comm n 1]
    show c :: replaceAll w r h = c :: (h.take n ++ (r ++ replaceAll w r (h.drop (n + w.length))))
    by_cases hh : h = []
    · subst hh
      rw [List.drop_succ_cons, List.drop_nil] at hocc
      exact absurd (List.prefix_nil.mp hocc) hw
    · rw [ih hocc (fun q hq => hfirst (q + 1) (Nat.succ_lt_succ hq)) hh]

/-- **Joining what is between the occurrences.** -/
theorem joined_eq (hw : w ≠ []) (hqs : Occurrences w h p qs) :
    joined h r w.length p qs = replaceAll w r (h.drop p) := by
  induction hqs with
  | @done p hnone =>
    have hkept : ∀ q, ¬ w <+: (h.drop p).drop q := by
      intro q hq
      rw [List.drop_drop] at hq
      exact hnone _ (Nat.le_add_right p q) (occurs_iff_drop.mpr hq)
    exact (replaceAll_none hw hkept).symm
  | @next p q qs hle hocc hfirst _ ih =>
    have hhere : w <+: (h.drop p).drop (q - p) := by
      rw [List.drop_drop, Nat.add_sub_cancel' hle]
      exact occurs_iff_drop.mp hocc
    have hbefore : ∀ j, j < q - p → ¬ w <+: (h.drop p).drop j := by
      intro j hj hprefix
      rw [List.drop_drop] at hprefix
      exact hfirst (p + j) (Nat.le_add_right p j) (by omega) (occurs_iff_drop.mpr hprefix)
    rw [joined, ih, replaceAll_first hw hhere hbefore, List.drop_drop, ← Nat.add_assoc,
      Nat.add_sub_cancel' hle]

theorem replaceAll_singleton (c : α) (r h : List α) :
    replaceAll [c] r h = h.flatMap fun x => if x = c then r else [x] := by
  induction h with
  | nil => rfl
  | cons x h ih =>
    rw [replaceAll_cons (List.cons_ne_nil c []), List.flatMap_cons]
    by_cases hx : x = c
    · rw [if_pos (by rw [hx]; exact List.prefix_append [c] h), if_pos hx]
      exact congrArg _ ih
    · rw [if_neg (fun hp => hx (List.cons_prefix_cons.mp hp).1.symm), if_neg hx, ih]
      rfl

end Decidable

/-! ## How long the text becomes

Every occurrence changes the length by the same amount, and occurrences that do not overlap are no more
than the text has characters. From this the sizes of blocks and tables are bounded. -/

theorem length_joined (hle : p ≤ h.length) (hqs : Occurrences w h p qs) (hw : w ≠ []) :
    (joined h r w.length p qs).length + qs.length * w.length =
      h.length - p + qs.length * r.length := by
  induction hqs with
  | done hnone => simp [joined]
  | @next p q qs hpq hocc _ _ ih =>
    have hlen := hocc.le_length hw
    have hrest := ih hlen
    rw [joined, List.length_append, List.length_append, List.length_take, List.length_drop,
      List.length_cons, Nat.add_mul, Nat.add_mul, Nat.one_mul, Nat.one_mul,
      Nat.min_eq_left (by omega)]
    omega

/-- There are at most as many occurrences as characters. -/
theorem length_occurrences_le (hle : p ≤ h.length) (hqs : Occurrences w h p qs) (hw : w ≠ []) :
    p + qs.length * w.length ≤ h.length := by
  induction hqs with
  | done _ => simpa using hle
  | @next p q qs hpq hocc _ _ ih =>
    have hrest := ih (hocc.le_length hw)
    rw [List.length_cons, Nat.add_mul, Nat.one_mul]
    omega

/-! ## Writing into a list

A copy into a block replaces a part of it and keeps its length when the part lies inside. -/

/-- The list `d` with `xs` written over it at `p`. -/
def overwrite (d : List α) (p : ℕ) (xs : List α) : List α :=
  d.take p ++ xs ++ d.drop (p + xs.length)

theorem overwrite_eq {a b c xs : List α} (hp : a.length = p) (hb : b.length = xs.length) :
    overwrite (a ++ (b ++ c)) p xs = a ++ (xs ++ c) := by
  subst hp
  rw [overwrite, List.take_left, ← hb, ← List.drop_drop, List.drop_left, List.drop_left,
    List.append_assoc]

theorem length_overwrite {xs : List α} (hp : p + xs.length ≤ d.length) :
    (overwrite d p xs).length = d.length := by
  rw [overwrite, List.length_append, List.length_append, List.length_take, List.length_drop]
  omega

end Replace
