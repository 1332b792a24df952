import Lcthw.Binstr
import Lcthw.Replace

/-!
# Lcthw — substring search from a position on (`binstr` of `bstrlib.c`)

A search from `pos` on takes the same rounds as a search from the beginning of what is left of the text
there, with both indices of the cursor greater by `pos`.

* **`Shifted`**: two cursors of the two searches; `round_shifted` is the step lemma.
* **`binstrFrom_found`**: the first occurrence from `pos` on is found.
* **`binstrFrom_next`**, **`binstrFrom_done`**: the same along a list of the occurrences, in a text that
  may have been changed before `pos`.
-/

namespace Lcthw

open Horspool

/-- `binstr(b1, pos, b2)`, for two strings that do not share their data and a position that is not
negative. -/
def binstrFrom (d1 : List UInt8) (pos : ℕ) (d0 : List UInt8) : ℤ :=
  if d1.length = pos then (if d0.length = 0 then pos else BSTR_ERR)
  else if d1.length < pos then BSTR_ERR
  else if d0.length = 0 then pos
  else if (d1.length : ℤ) - d0.length + 1 ≤ pos then BSTR_ERR
  else if d0.length = 1 then binstrOne d1 d0 (d1.length - d0.length + 1 - pos) pos
  else (binstrLoop d1 d0 ((d1.length + 1) * (d1.length + 2)) ⟨pos, 0, 0⟩).getD BSTR_ERR

/-! ## Two searches side by side

Every index of the search from `pos` on is greater by `pos`, except where it has the value that means
nothing. The two searches take the same branches, round by round. -/

/-- The cursor `n` of the search from `pos` on, beside the cursor `c` of the search in what is left of
the text there. The place of the first character means nothing before there is one. -/
structure Shifted (pos : ℕ) (n c : Cursor) : Prop where
  i_eq : n.i = pos + c.i
  j_eq : n.j = c.j
  ii_eq : 0 < c.j → n.ii = pos + c.ii

/-- What two searches return. -/
def ShiftedResult (pos : ℕ) (r' r : ℤ) : Prop :=
  (r = BSTR_ERR ∧ r' = BSTR_ERR) ∨ ∃ s : ℕ, r = s ∧ r' = (pos + s : ℕ)

/-- Where two rounds lead. -/
def ShiftedRound (pos : ℕ) : Cursor ⊕ ℤ → Cursor ⊕ ℤ → Prop
  | .inl n, .inl c => Shifted pos n c
  | .inr r', .inr r => ShiftedResult pos r' r
  | _, _ => False

variable {d1 d0 : List UInt8} {pos : ℕ} {n c : Cursor}

theorem atN0_shifted (hs : Shifted pos n c) (hj : 0 < c.j) (hle : c.j ≤ c.i) :
    ShiftedRound pos n.atN0 c.atN0 := by
  have hi := hs.i_eq
  have hii := hs.ii_eq hj
  unfold Cursor.atN0
  rw [hs.j_eq]
  by_cases hgap : c.i = c.ii + c.j
  · rw [if_pos hgap, if_pos (by omega)]
    exact Or.inr ⟨c.ii, rfl, by rw [hii]⟩
  · rw [if_neg hgap, if_neg (by omega)]
    refine ⟨?_, rfl, fun h => absurd h (lt_irrefl 0)⟩
    show n.i - c.j = pos + (c.i - c.j)
    omega

/-- A character that matches moves both searches on alike. -/
theorem hit_shifted (hs : Shifted pos n c) (hle : c.j ≤ c.i) :
    ShiftedRound pos (Cursor.hit d0 n) (Cursor.hit d0 c) := by
  have hi := hs.i_eq
  have hj := hs.j_eq
  -- from here on both know where the first character was found
  have hnext : Shifted pos ⟨n.i + 1, n.j + 1, if n.j = 0 then n.i else n.ii⟩
      ⟨c.i + 1, c.j + 1, if c.j = 0 then c.i else c.ii⟩ := by
    refine ⟨?_, congrArg (· + 1) hj, fun _ => ?_⟩
    · show n.i + 1 = pos + (c.i + 1)
      omega
    · show (if n.j = 0 then n.i else n.ii) = pos + if c.j = 0 then c.i else c.ii
      rw [hj]
      by_cases h0 : c.j = 0
      · rw [if_pos h0, if_pos h0, hi]
      · rw [if_neg h0, if_neg h0, hs.ii_eq (Nat.pos_of_ne_zero h0)]
  unfold Cursor.hit
  simp only [hj]
  rw [hj] at hnext
  by_cases hmore : c.j + 1 < d0.length
  · rw [if_pos hmore, if_pos hmore]
    exact hnext
  · rw [if_neg hmore, if_neg hmore]
    exact atN0_shifted hnext (Nat.succ_pos _) (Nat.succ_le_succ hle)

/-- **A round of both.** -/
theorem round_shifted (hpos : pos < d1.length) (hlong : 1 < d0.length) (hs : Shifted pos n c)
    (hc : c.Inv (d1.drop pos) d0) :
    ShiftedRound pos (n.round d1 d0) (c.round (d1.drop pos) d0) := by
  have hi := hs.i_eq
  have hj := hs.j_eq
  have hle : c.j ≤ c.i := by
    rcases Nat.eq_zero_or_pos c.j with h0 | hpos
    · omega
    · have := hc.behind hpos
      omega
  have hchar : ∀ k, (d1.drop pos)[k]? = d1[pos + k]? := fun k => List.getElem?_drop
  unfold Cursor.round
  simp only [hchar, List.length_drop, hj, hi, Nat.add_assoc]
  -- two characters of the string are left, or just one, or none
  by_cases hroom : c.i < d1.length - pos - 1
  · rw [if_pos hroom, if_pos (by omega)]
    by_cases hfirst : d0[c.j]? ≠ d1[pos + c.i]?
    · rw [if_pos hfirst, if_pos hfirst]
      by_cases hsecond : d0[c.j]? ≠ d1[pos + (c.i + 1)]?
      · rw [if_pos hsecond, if_pos hsecond]
        exact ⟨rfl, rfl, hs.ii_eq⟩
      · rw [if_neg hsecond, if_neg hsecond]
        refine hit_shifted ⟨rfl, rfl, hs.ii_eq⟩ ?_
        show c.j ≤ c.i + 1
        omega
    · rw [if_neg hfirst, if_neg hfirst]
      exact hit_shifted hs hle
  · rw [if_neg hroom, if_neg (by omega)]
    by_cases hend : c.i = d1.length - pos - 1 ∧ d0.length = c.j + 1 ∧ d0[c.j]? = d1[pos + c.i]?
    · obtain ⟨hlast, hlen, hmatch⟩ := hend
      rw [if_pos ⟨by omega, hlen, hmatch⟩, if_pos ⟨hlast, hlen, hmatch⟩]
      exact atN0_shifted hs (by omega) hle
    · rw [if_neg (fun h => hend ⟨by omega, h.2⟩), if_neg hend]
      exact Or.inl ⟨rfl, rfl⟩

/-- **The two loops.** -/
theorem binstrLoop_shifted (hpos : pos < d1.length) (hlong : 1 < d0.length) {fuel : ℕ}
    (hs : Shifted pos n c) (hc : c.Inv (d1.drop pos) d0) {r : ℤ}
    (hloop : binstrLoop (d1.drop pos) d0 fuel c = some r) :
    ∃ r', binstrLoop d1 d0 fuel n = some r' ∧ ShiftedResult pos r' r := by
  induction fuel generalizing n c with
  | zero => cases hloop
  | succ fuel ih =>
    have hround := round_shifted hpos hlong hs hc
    have hstep := round_inv hc hlong
    unfold binstrLoop at hloop ⊢
    cases hn : n.round d1 d0 with
    | inl n' =>
      -- both searches go on
      cases hc' : c.round (d1.drop pos) d0 with
      | inl c' =>
        rw [hn, hc'] at hround
        rw [hc'] at hstep hloop
        exact ih hround hstep.1 hloop
      | inr r =>
        rw [hn, hc'] at hround
        exact hround.elim
    | inr r' =>
      cases hc' : c.round (d1.drop pos) d0 with
      | inl c' =>
        rw [hn, hc'] at hround
        exact hround.elim
      | inr r₁ =>
        rw [hn, hc'] at hround
        rw [hc'] at hloop
        obtain rfl := Option.some.inj hloop
        exact ⟨r', rfl, hround⟩

/-! ## What is found

An occurrence in the rest of the text is one in the text, `pos` further on. What is in front of `pos` is
not read, so it may have been changed. -/

/-- The first occurrence from `pos` on, or an error when there is none. -/
def FoundFrom (d1 d0 : List UInt8) (pos : ℕ) (r : ℤ) : Prop :=
  (r = BSTR_ERR ∧ ∀ s, pos ≤ s → ¬ Occurs d0 d1 s) ∨
    ∃ s : ℕ, r = s ∧ pos ≤ s ∧ Occurs d0 d1 s ∧ ∀ q, pos ≤ q → q < s → ¬ Occurs d0 d1 q

theorem occurs_drop {s : ℕ} : Occurs d0 (d1.drop pos) s ↔ Occurs d0 d1 (pos + s) := by
  rw [Replace.occurs_iff_drop, Replace.occurs_iff_drop, List.drop_drop]

/-- What is found in the rest of the text is found in the text. -/
theorem foundFrom_of_shifted {r r' : ℤ} (hr : ShiftedResult pos r' r)
    (hfound : Found (d1.drop pos) d0 r) : FoundFrom d1 d0 pos r' := by
  have hback : ∀ q, pos ≤ q → Occurs d0 d1 q → Occurs d0 (d1.drop pos) (q - pos) := by
    intro q hq hocc
    rw [occurs_drop, Nat.add_sub_cancel' hq]
    exact hocc
  rcases hfound with ⟨herr, hnone⟩ | ⟨s, hs, hocc, hfirst⟩
  · rcases hr with ⟨-, herr'⟩ | ⟨s, hs, -⟩
    · exact Or.inl ⟨herr', fun q hq hocc => hnone _ (hback q hq hocc)⟩
    · rw [herr] at hs
      have hneg : (-1 : ℤ) = s := hs
      omega
  · rcases hr with ⟨herr, -⟩ | ⟨s', hs', hr'⟩
    · rw [herr] at hs
      have hneg : (-1 : ℤ) = s := hs
      omega
    · obtain rfl : s' = s := by omega
      refine Or.inr ⟨pos + s', hr', Nat.le_add_right _ _, occurs_drop.mp hocc, fun q hq hlt hocc' => ?_⟩
      have hle := hfirst _ (hback q hq hocc')
      omega

/-- The loop for one character. -/
theorem binstrOne_foundFrom (hone : d0.length = 1) (n i : ℕ) (hn : i + n = d1.length)
    (hpi : pos ≤ i) (hahead : ∀ s, pos ≤ s → Occurs d0 d1 s → i ≤ s) :
    FoundFrom d1 d0 pos (binstrOne d1 d0 n i) := by
  induction n generalizing i with
  | zero =>
    refine Or.inl ⟨rfl, fun s hps hs => ?_⟩
    have hlen := hs.le_length (List.ne_nil_of_length_pos (by omega))
    have := hahead s hps hs
    omega
  | succ n ih =>
    unfold binstrOne
    by_cases hchar : d0[0]? = d1[i]?
    · rw [if_pos hchar]
      refine Or.inr ⟨i, rfl, hpi, fun t ht => ?_, fun q hpq hlt hocc => ?_⟩
      · rw [show t = 0 by omega, Nat.add_zero, hchar]
      · have := hahead q hpq hocc
        omega
    · rw [if_neg hchar]
      refine ih (i + 1) (by omega) (by omega) fun s hps hs => ?_
      rcases (hahead s hps hs).eq_or_lt with rfl | hlt
      · exact absurd (hs 0 (by omega)).symm hchar
      · exact hlt

/-- **`binstr` finds the first occurrence from `pos` on** of a nonempty string. -/
theorem binstrFrom_found (hne : d0 ≠ []) (hle : pos ≤ d1.length) :
    FoundFrom d1 d0 pos (binstrFrom d1 pos d0) := by
  have hpos : 0 < d0.length := List.length_pos_iff.mpr hne
  have hshort : d1.length < pos + d0.length → FoundFrom d1 d0 pos BSTR_ERR := by
    intro hlt
    refine Or.inl ⟨rfl, fun s hs hocc => ?_⟩
    have := hocc.le_length hne
    omega
  unfold binstrFrom
  by_cases hend : d1.length = pos
  · rw [if_pos hend, if_neg (by omega)]
    exact hshort (by omega)
  · rw [if_neg hend, if_neg (by omega), if_neg (by omega)]
    by_cases hlt : (d1.length : ℤ) - d0.length + 1 ≤ pos
    · rw [if_pos hlt]
      exact hshort (by omega)
    · rw [if_neg hlt]
      by_cases hone : d0.length = 1
      · rw [if_pos hone]
        exact binstrOne_foundFrom hone _ pos (by omega) le_rfl fun s hs _ => hs
      · rw [if_neg hone]
        -- the search in the rest of the text, from its beginning
        have hinv : Cursor.Inv (d1.drop pos) d0 ⟨0, 0, 0⟩ :=
          ⟨Nat.zero_le _, hpos, fun s _ => Nat.zero_le _, fun h => absurd h (lt_irrefl 0),
            fun h => absurd h (lt_irrefl 0)⟩
        have hlen : (d1.drop pos).length = d1.length - pos := List.length_drop
        have hleft : Cursor.left (d1.drop pos) ⟨0, 0, 0⟩ < (d1.length + 1) * (d1.length + 2) := by
          have hmul : (d1.length - pos) * (d1.length - pos + 2) ≤ d1.length * (d1.length + 2) :=
            Nat.mul_le_mul (by omega) (by omega)
          show ((d1.drop pos).length - 0) * ((d1.drop pos).length + 2) +
            ((d1.drop pos).length + 1 - 0) < _
          rw [hlen, Nat.add_mul, Nat.sub_zero, Nat.sub_zero]
          omega
        obtain ⟨r, hloop, hfound⟩ := binstrLoop_found (by omega) hinv hleft
        have hstart : Shifted pos ⟨pos, 0, 0⟩ ⟨0, 0, 0⟩ :=
          ⟨rfl, rfl, fun h => absurd h (lt_irrefl 0)⟩
        obtain ⟨r', hloop', hr⟩ := binstrLoop_shifted (by omega) (by omega) hstart hinv hloop
        rw [hloop']
        exact foundFrom_of_shifted hr hfound

/-- **The next occurrence**, in a text that was changed before `pos`. -/
theorem binstrFrom_next {d : List UInt8} {q : ℕ} {qs : List ℕ} (hne : d0 ≠ [])
    (hle : pos ≤ d.length) (hdrop : d.drop pos = d1.drop pos)
    (hqs : Occurrences d0 d1 pos (q :: qs)) : binstrFrom d pos d0 = q := by
  cases hqs with
  | next hpq hocc hfirst _ =>
    have hocc' := (Replace.occurs_congr hdrop hpq).mpr hocc
    rcases binstrFrom_found hne hle with ⟨-, hnone⟩ | ⟨s, hs, hps, hoccs, hfirsts⟩
    · exact absurd hocc' (hnone q hpq)
    · rw [hs]
      rcases lt_trichotomy s q with hlt | rfl | hgt
      · exact absurd ((Replace.occurs_congr hdrop hps).mp hoccs) (hfirst s hps hlt)
      · rfl
      · exact absurd hocc' (hfirsts q hpq hgt)

theorem binstrFrom_done {d : List UInt8} (hne : d0 ≠ []) (hle : pos ≤ d.length)
    (hdrop : d.drop pos = d1.drop pos) (hqs : Occurrences d0 d1 pos []) :
    binstrFrom d pos d0 = BSTR_ERR := by
  cases hqs with
  | done hnone =>
    rcases binstrFrom_found hne hle with ⟨herr, -⟩ | ⟨s, -, hps, hocc, -⟩
    · exact herr
    · exact absurd ((Replace.occurs_congr hdrop hps).mp hocc) (hnone s hps)

end Lcthw
