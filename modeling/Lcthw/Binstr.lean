import Lcthw.Base
import Lcthw.Horspool

/-!
# Lcthw — substring search (`binstr` of `bstrlib.c`)

`binstr` looks for the characters of the needle in their order, with gaps between them if need be,
and only when it has them all does it ask whether there were gaps. If so it goes back by the length
of the needle: no occurrence can start earlier, because the last character was found as early as it
can come.

* **`Cursor.Inv`**: what the cursor has ruled out; **`round_inv`** is the step lemma.
* **`binstrLoop_found`**: the loop ends, at the first occurrence or with an error.
* **`binstr_found`**: the whole function.
-/

namespace Lcthw

open Horspool

def BSTR_ERR : ℤ := -1

/-! ## The code

The source jumps between a loop that looks for the next character of the needle and the label `N0`,
where a character was found. A round of the model is one pass through that loop together with the jumps
that follow it, and the cursor holds the variables of the source between two rounds. -/

/-- The loop variables: the next character of the text is `i`, the next one of the needle is `j`,
and the first one was found at `ii`. -/
structure Cursor where
  i : ℕ
  j : ℕ
  ii : ℕ

section Code

variable (d1 d0 : List UInt8)

/-- From the label `N0` on: go on with a cursor, or return. -/
def Cursor.atN0 (c : Cursor) : Cursor ⊕ ℤ :=
  if c.i = c.ii + c.j then .inr c.ii else .inl ⟨c.i - c.j, 0, c.ii⟩

/-- The character at `i` is the one looked for. -/
def Cursor.hit (c : Cursor) : Cursor ⊕ ℤ :=
  let next : Cursor := ⟨c.i + 1, c.j + 1, if c.j = 0 then c.i else c.ii⟩
  if next.j < d0.length then .inl next else next.atN0

/-- One round of the loop, or what comes behind it. -/
def Cursor.round (c : Cursor) : Cursor ⊕ ℤ :=
  let lf := d1.length - 1
  if c.i < lf then
    if d0[c.j]? ≠ d1[c.i]? then
      if d0[c.j]? ≠ d1[c.i + 1]? then .inl { c with i := c.i + 2 }
      else Cursor.hit d0 { c with i := c.i + 1 }
    else c.hit d0
  else if c.i = lf ∧ d0.length = c.j + 1 ∧ d0[c.j]? = d1[c.i]? then c.atN0
  else .inr BSTR_ERR

/-- The rounds; `none` when the fuel runs out. -/
def binstrLoop : ℕ → Cursor → Option ℤ
  | 0, _ => none
  | fuel + 1, c =>
      match c.round d1 d0 with
      | .inl c => binstrLoop fuel c
      | .inr r => some r

/-- The loop for a needle of one character, which looks at `n` more places. -/
def binstrOne : ℕ → ℕ → ℤ
  | 0, _ => BSTR_ERR
  | n + 1, i => if d0[0]? = d1[i]? then i else binstrOne n (i + 1)

end Code

/-- `binstr(b1, 0, b2)`, for two strings that do not share their data. The fuel is enough
(`binstrLoop_found`). -/
def binstr (b1 b2 : Option (List UInt8)) : ℤ :=
  match b1, b2 with
  | some d1, some d0 =>
      if d1.length = 0 then (if d0.length = 0 then 0 else BSTR_ERR)
      else if d0.length = 0 then 0
      else if (d1.length : ℤ) - d0.length + 1 ≤ 0 then BSTR_ERR
      else if d0.length = 1 then binstrOne d1 d0 (d1.length - d0.length + 1) 0
      else (binstrLoop d1 d0 ((d1.length + 1) * (d1.length + 2)) ⟨0, 0, 0⟩).getD BSTR_ERR
  | _, _ => BSTR_ERR

/-! ## What it finds

The search skips places, and is right to do so. The invariant says what the cursor has ruled out and
which characters it has found, though perhaps with gaps between them. Every round keeps it and brings
the cursor nearer to its end, so that the fuel of the definition is enough. -/

/-- The first occurrence, or an error when there is none. -/
def Found (d1 d0 : List UInt8) (r : ℤ) : Prop :=
  (r = BSTR_ERR ∧ ∀ s, ¬ Occurs d0 d1 s) ∨
    ∃ s : ℕ, r = s ∧ Occurs d0 d1 s ∧ ∀ q, Occurs d0 d1 q → s ≤ q

variable {d1 d0 : List UInt8}

/-- The cursor's `ii`, or the place where the next first character can be. -/
def Cursor.base (c : Cursor) : ℕ :=
  if c.j = 0 then c.i else c.ii

/-- How far the search is from its end: a new `ii` counts for more than a full pass over the text. -/
def Cursor.left (d1 : List UInt8) (c : Cursor) : ℕ :=
  (d1.length - c.base) * (d1.length + 2) + (d1.length + 1 - c.i)

/-- What the cursor has ruled out and what it has found. -/
structure Cursor.Inv (d1 d0 : List UInt8) (c : Cursor) : Prop where
  in_text : c.i ≤ d1.length
  in_needle : c.j < d0.length
  /-- no occurrence has its character `j` in front of `i` -/
  ahead : ∀ s, Occurs d0 d1 s → c.i ≤ s + c.j
  behind : 0 < c.j → c.ii + c.j ≤ c.i
  /-- without gaps the characters found are a beginning of the needle -/
  beginning : 0 < c.j → c.i = c.ii + c.j → ∀ t, t < c.j → d1[c.ii + t]? = d0[t]?

/-- A round either ends the search or leads to a cursor that is nearer to the end. -/
def Cursor.Step (d1 d0 : List UInt8) (c : Cursor) : Cursor ⊕ ℤ → Prop
  | .inl c' => c'.Inv d1 d0 ∧ c'.left d1 < c.left d1
  | .inr r => Found d1 d0 r

theorem left_lt {c c' : Cursor} (hi : c.i < c'.i) (hin : c'.i ≤ d1.length)
    (hbase : c.base ≤ c'.base) : c'.left d1 < c.left d1 := by
  have hmul : (d1.length - c'.base) * (d1.length + 2) ≤ (d1.length - c.base) * (d1.length + 2) :=
    Nat.mul_le_mul_right _ (by omega)
  unfold Cursor.left
  omega

theorem left_lt_of_base {c c' : Cursor} (hin : c'.base ≤ d1.length) (hbase : c.base < c'.base) :
    c'.left d1 < c.left d1 := by
  have hmul : (d1.length - c'.base + 1) * (d1.length + 2) ≤
      (d1.length - c.base) * (d1.length + 2) := Nat.mul_le_mul_right _ (by omega)
  rw [Nat.add_mul, Nat.one_mul] at hmul
  unfold Cursor.left
  omega

/-- **All characters found**, up to `i`, which is where the last one ends or its own place. -/
theorem atN0_step {c n : Cursor} (hlong : 1 < d0.length) (hbase : c.base = n.ii)
    (hin : n.i ≤ d1.length) (hj : n.j ≤ d0.length) (hj' : d0.length ≤ n.j + 1)
    (hahead : ∀ s, Occurs d0 d1 s → n.i ≤ s + n.j) (hbehind : n.ii + n.j ≤ n.i)
    (hall : n.i = n.ii + n.j → Occurs d0 d1 n.ii) : c.Step d1 d0 n.atN0 := by
  unfold Cursor.atN0
  by_cases hgap : n.i = n.ii + n.j
  · rw [if_pos hgap]
    refine Or.inr ⟨n.ii, rfl, hall hgap, fun q hq => ?_⟩
    have := hahead q hq
    omega
  · rw [if_neg hgap]
    refine ⟨⟨by show n.i - n.j ≤ d1.length; omega, by show 0 < d0.length; omega, fun s hs => ?_,
      fun h => absurd h (lt_irrefl 0), fun h => absurd h (lt_irrefl 0)⟩, ?_⟩
    · have := hahead s hs
      show n.i - n.j ≤ s + 0
      omega
    · apply left_lt_of_base
      · show n.i - n.j ≤ d1.length
        omega
      · show c.base < n.i - n.j
        omega

/-- **A character found.** -/
theorem hit_step {c : Cursor} {i : ℕ} (hc : c.Inv d1 d0) (hlong : 1 < d0.length) (hi : c.i ≤ i)
    (hin : i < d1.length) (hahead : ∀ s, Occurs d0 d1 s → i ≤ s + c.j)
    (hchar : d0[c.j]? = d1[i]?) : c.Step d1 d0 (Cursor.hit d0 { c with i := i }) := by
  have hneedle := hc.in_needle
  have hbehind := hc.behind
  -- the characters found now
  have hnew : i + 1 = (if c.j = 0 then i else c.ii) + (c.j + 1) →
      ∀ t, t < c.j + 1 → d1[(if c.j = 0 then i else c.ii) + t]? = d0[t]? := by
    intro hgap t ht
    by_cases hj : c.j = 0
    · rw [if_pos hj, show t = 0 by omega, Nat.add_zero, ← hchar, hj]
    · rw [if_neg hj] at hgap ⊢
      rcases Nat.lt_succ_iff_lt_or_eq.mp ht with hlt | rfl
      · exact hc.beginning (by omega) (by omega) t hlt
      · rw [show c.ii + c.j = i by omega, hchar]
  have hbase : c.base ≤ if c.j = 0 then i else c.ii := by
    unfold Cursor.base
    split <;> omega
  unfold Cursor.hit
  simp only []
  by_cases hmore : c.j + 1 < d0.length
  · rw [if_pos hmore]
    refine ⟨⟨hin, hmore, fun s hs => ?_, fun _ => ?_, fun _ => hnew⟩, ?_⟩
    · have := hahead s hs
      show i + 1 ≤ s + (c.j + 1)
      omega
    · show (if c.j = 0 then i else c.ii) + (c.j + 1) ≤ i + 1
      split <;> omega
    · exact left_lt (Nat.lt_succ_of_le hi) hin hbase
  · rw [if_neg hmore]
    have hj : c.j ≠ 0 := by omega
    refine atN0_step hlong ?_ hin (by show c.j + 1 ≤ d0.length; omega)
      (by show d0.length ≤ c.j + 1 + 1; omega) ?_ ?_ ?_
    · show c.base = if c.j = 0 then i else c.ii
      rw [Cursor.base, if_neg hj, if_neg hj]
    · intro s hs
      have := hahead s hs
      show i + 1 ≤ s + (c.j + 1)
      omega
    · show (if c.j = 0 then i else c.ii) + (c.j + 1) ≤ i + 1
      rw [if_neg hj]
      omega
    · intro hgap t ht
      exact hnew hgap t (by omega)

/-- An occurrence has the needle's character where the cursor looks for it. -/
theorem ahead_succ {j i : ℕ} (hj : j < d0.length) (hahead : ∀ s, Occurs d0 d1 s → i ≤ s + j)
    (hmiss : d0[j]? ≠ d1[i]?) (s : ℕ) (hs : Occurs d0 d1 s) : i + 1 ≤ s + j := by
  have hle := hahead s hs
  rcases hle.eq_or_lt with heq | hlt
  · have hchar := hs j hj
    rw [← heq] at hchar
    exact absurd hchar.symm hmiss
  · exact hlt

/-- **One round.** -/
theorem round_inv {c : Cursor} (hc : c.Inv d1 d0) (hlong : 1 < d0.length) :
    c.Step d1 d0 (c.round d1 d0) := by
  have hneedle := hc.in_needle
  have hin := hc.in_text
  unfold Cursor.round
  simp only []
  by_cases hroom : c.i < d1.length - 1
  · rw [if_pos hroom]
    by_cases hfirst : d0[c.j]? ≠ d1[c.i]?
    · rw [if_pos hfirst]
      have hnext := ahead_succ hneedle hc.ahead hfirst
      by_cases hsecond : d0[c.j]? ≠ d1[c.i + 1]?
      · rw [if_pos hsecond]
        refine ⟨⟨by show c.i + 2 ≤ d1.length; omega, hneedle,
          ahead_succ hneedle hnext hsecond, fun hj => ?_, fun hj hgap => ?_⟩, ?_⟩
        · have := hc.behind hj
          show c.ii + c.j ≤ c.i + 2
          omega
        · have := hc.behind hj
          have hgap : c.i + 2 = c.ii + c.j := hgap
          omega
        · apply left_lt (by show c.i < c.i + 2; omega) (by show c.i + 2 ≤ d1.length; omega)
          show (if c.j = 0 then c.i else c.ii) ≤ if c.j = 0 then c.i + 2 else c.ii
          split <;> omega
      · rw [if_neg hsecond]
        exact hit_step hc hlong (by omega) (by omega) hnext (not_not.mp hsecond)
    · rw [if_neg hfirst]
      exact hit_step hc hlong le_rfl (by omega) hc.ahead (not_not.mp hfirst)
  · rw [if_neg hroom]
    -- at most one character of the text is left, which can only be the needle's last
    have hlast : ∀ s, Occurs d0 d1 s →
        c.i = d1.length - 1 ∧ d0.length = c.j + 1 ∧ d0[c.j]? = d1[c.i]? := by
      intro s hs
      have hlen := hs.le_length (List.ne_nil_of_length_pos (by omega))
      have hle := hc.ahead s hs
      have hchar := hs c.j hneedle
      rw [show s + c.j = c.i by omega] at hchar
      exact ⟨by omega, by omega, hchar.symm⟩
    by_cases hend : c.i = d1.length - 1 ∧ d0.length = c.j + 1 ∧ d0[c.j]? = d1[c.i]?
    · rw [if_pos hend]
      obtain ⟨hi, hj, hchar⟩ := hend
      have hpos : 0 < c.j := by omega
      refine atN0_step hlong ?_ hin hneedle.le (by omega) hc.ahead (hc.behind hpos) ?_
      · rw [Cursor.base, if_neg (by omega)]
      · intro hgap t ht
        rcases Nat.lt_succ_iff_lt_or_eq.mp (show t < c.j + 1 by omega) with hlt | rfl
        · exact hc.beginning hpos hgap t hlt
        · rw [← hgap, hchar]
    · rw [if_neg hend]
      exact Or.inl ⟨rfl, fun s hs => hend (hlast s hs)⟩

/-- **The loop ends**, and finds the first occurrence. -/
theorem binstrLoop_found (hlong : 1 < d0.length) {c : Cursor} (hc : c.Inv d1 d0) {fuel : ℕ}
    (hfuel : c.left d1 < fuel) : ∃ r, binstrLoop d1 d0 fuel c = some r ∧ Found d1 d0 r := by
  induction fuel generalizing c with
  | zero => exact absurd hfuel (Nat.not_lt_zero _)
  | succ fuel ih =>
    have hstep := round_inv hc hlong
    unfold binstrLoop
    cases hround : c.round d1 d0 with
    | inl c' =>
      rw [hround] at hstep
      exact ih hstep.1 (by have := hstep.2; omega)
    | inr r =>
      rw [hround] at hstep
      exact ⟨r, rfl, hstep⟩

/-- The loop for one character. -/
theorem binstrOne_found (hone : d0.length = 1) (n i : ℕ) (hn : i + n = d1.length)
    (hahead : ∀ s, Occurs d0 d1 s → i ≤ s) : Found d1 d0 (binstrOne d1 d0 n i) := by
  induction n generalizing i with
  | zero =>
    refine Or.inl ⟨rfl, fun s hs => ?_⟩
    have hlen := hs.le_length (List.ne_nil_of_length_pos (by omega))
    have := hahead s hs
    omega
  | succ n ih =>
    unfold binstrOne
    by_cases hchar : d0[0]? = d1[i]?
    · rw [if_pos hchar]
      refine Or.inr ⟨i, rfl, fun t ht => ?_, hahead⟩
      rw [show t = 0 by omega, Nat.add_zero, hchar]
    · rw [if_neg hchar]
      exact ih (i + 1) (by omega) (ahead_succ (by omega) hahead hchar)

/-- **`binstr` finds the first occurrence** of a nonempty string. -/
theorem binstr_found (hne : d0 ≠ []) : Found d1 d0 (binstr (some d1) (some d0)) := by
  have hpos : 0 < d0.length := List.length_pos_iff.mpr hne
  -- a text that is shorter than the pattern does not have it
  have hshort : d1.length < d0.length → Found d1 d0 BSTR_ERR := by
    intro hlt
    refine Or.inl ⟨rfl, fun s hs => ?_⟩
    have := hs.le_length hne
    omega
  unfold binstr
  simp only []
  by_cases hempty : d1.length = 0
  · rw [if_pos hempty, if_neg (by omega)]
    exact hshort (by omega)
  · rw [if_neg hempty, if_neg (by omega)]
    by_cases hlt : (d1.length : ℤ) - d0.length + 1 ≤ 0
    · rw [if_pos hlt]
      exact hshort (by omega)
    · rw [if_neg hlt]
      by_cases hone : d0.length = 1
      · rw [if_pos hone]
        exact binstrOne_found hone _ 0 (by omega) fun s _ => Nat.zero_le s
      · rw [if_neg hone]
        -- nothing is compared yet
        have hinv : Cursor.Inv d1 d0 ⟨0, 0, 0⟩ :=
          ⟨Nat.zero_le _, hpos, fun s _ => Nat.zero_le _, fun h => absurd h (lt_irrefl 0),
            fun h => absurd h (lt_irrefl 0)⟩
        obtain ⟨r, hr, hfound⟩ := binstrLoop_found (by omega) hinv
          (show Cursor.left d1 ⟨0, 0, 0⟩ < (d1.length + 1) * (d1.length + 2) by
            show (d1.length - 0) * (d1.length + 2) + (d1.length + 1 - 0) < _
            rw [Nat.add_mul, Nat.sub_zero, Nat.sub_zero]
            omega)
        rw [hr]
        exact hfound

/-- Whether there is an occurrence at all. -/
theorem binstr_eq_err_iff (hne : d0 ≠ []) :
    binstr (some d1) (some d0) = BSTR_ERR ↔ ¬ d0 <:+: d1 := by
  rw [← exists_occurs_iff hne]
  have hfound : Found d1 d0 (binstr (some d1) (some d0)) := binstr_found hne
  rcases hfound with ⟨herr, hnone⟩ | ⟨s, hs, hocc, -⟩
  · exact iff_of_true herr fun ⟨s, hs⟩ => hnone s hs
  · refine iff_of_false (fun herr => ?_) fun hnone => hnone ⟨s, hocc⟩
    rw [hs] at herr
    have hneg : (s : ℤ) = -1 := herr
    omega

end Lcthw
