import Lcthw.Bstrlib.Find
import Lcthw.Bstrlib.Growing

/-!
# Lcthw — `bfindreplace` (`bstrlib.c`)

`findreplaceengine` works inside the block of the string, in a way that depends on which of the two words
is longer. Words of one length are exchanged where they stand. A shorter word leaves a gap that grows
with every occurrence, and what is behind it is moved down. For a longer word all occurrences are found
first, then the block is made big enough once, and everything is moved up from the right end.

A word that is a part of the string is copied first, unless it ends in front of `pos`: no way writes there.
But the block may be given up for a longer text, and a word that was not copied is read all the same.

* **`replaceEqual`**, **`replaceShrinking`**, **`findAll`** and **`moveUp`**: the loops.
* **`replaceEqual_eq`**, **`replaceShrinking_eq`**, **`findAll_eq`** and **`moveUp_eq`**: what they do, along
  a list of the occurrences.
* **`bfindreplace_replaces`**: all three ways do what `replaceAll` does, inside the block and inside the
  range of `int`; or there is no memory of a size that is asked for, and nothing is changed.
-/

namespace Lcthw.Bstrlib

open Horspool Replace

/-! ## The code

The three ways of the engine are functions of their own. Whether a word that is a part of the string is
copied first is decided by tests on pointers, which are offsets here; `held` says that the word still
stands in the block. -/

def INITIAL_STATIC_FIND_INDEX_COUNT : ℕ := 32

/-- `INT_MAX / sizeof(int *) / 2` -/
def MAX_INDEX_COUNT : ℕ := 134217727

section Code

variable (find repl : List UInt8)

/-- In-place replacement, `delta == 0`. -/
def replaceEqual (slen : ℕ) : ℕ → List UInt8 → ℕ → Except Stop (List UInt8)
  | 0, _, _ => .error .outOfFuel
  | fuel + 1, data, pos => do
    let pos := binstrFrom (data.take slen) pos find
    if pos ≥ 0 then do
      let data ← copyTo data pos repl
      replaceEqual slen fuel data (pos.toNat + find.length)
    else
      return data

/-- Shrinking replacement, `delta > 0`: the block, and `pos` and `acc` behind the loop. -/
def replaceShrinking (slen : ℕ) : ℕ → List UInt8 → ℕ → ℤ → Except Stop (List UInt8 × ℕ × ℤ)
  | 0, _, _, _ => .error .outOfFuel
  | fuel + 1, data, pos, acc => do
    let i := binstrFrom (data.take slen) pos find
    if i ≥ 0 then do
      let data ←
        (if acc ≠ 0 ∧ i > pos then do
          let moved ← copyFrom data pos (i - pos)
          copyTo data (pos - acc) moved
        else
          return data)
      let data ← (if repl.length ≠ 0 then copyTo data (i - acc) repl else .ok data)
      replaceShrinking slen fuel data (i.toNat + find.length)
        (acc + ((find.length : ℤ) - repl.length))
    else
      return (data, pos, acc)

/-- What is behind the last occurrence, after the loop of a shrinking replacement. -/
def shrinkEnd (b : Bstring) (data : List UInt8) (pos : ℕ) (acc : ℤ) : Except Stop Bstring :=
  if acc ≠ 0 then do
    let data ←
      (if b.slen > pos then do
        let moved ← copyFrom data pos (b.slen - pos)
        copyTo data (pos - acc) moved
      else
        return data)
    let slen := ((b.slen : ℤ) - acc).toNat
    let data ← copyTo data slen [0]
    return { data, slen }
  else
    return { b with data }

/-- The loop that finds all occurrences for an expanding replacement: the array `d` of those found, and
`acc`; `none` on the way to `done`. -/
def findAll (m : Memory) (text : List UInt8) :
    ℕ → ℕ → ℕ → List ℕ → ℤ → Except Stop (Option (List ℕ × ℤ))
  | 0, _, _, _, _ => .error .outOfFuel
  | fuel + 1, mlen, pos, d, acc => do
    let pos := binstrFrom text pos find
    if pos ≥ 0 then
      if d.length ≥ mlen - 1 ∧ (mlen > MAX_INDEX_COUNT ∨ m.room (8 * (mlen + mlen : ℕ)) = false) then
        return none
      else do
        let mlen := if d.length ≥ mlen - 1 then mlen + mlen else mlen
        let acc ← cint (acc + ((repl.length : ℤ) - find.length))
        findAll m text fuel mlen (pos.toNat + find.length) (d ++ [pos.toNat]) acc
    else
      return some (d, acc)

/-- The moves of an expanding replacement, from the last occurrence to the first. -/
def moveUp (d : List ℕ) : ℕ → ℤ → List UInt8 → Except Stop (List UInt8)
  | 0, _, data => return data
  | i + 1, acc, data => do
    let s := (d[i]?.getD 0 : ℤ) + find.length
    let l := (d[i + 1]?.getD 0 : ℤ) - s
    let data ←
      (if l ≠ 0 then do
        let moved ← copyFrom data s l
        copyTo data (s + acc) moved
      else
        return data)
    let data ←
      (if repl.length ≠ 0 then copyTo data (s + acc - repl.length) repl else .ok data)
    moveUp d i (acc + ((find.length : ℤ) - repl.length)) data

/-- An expanding replacement, behind the loop that finds the occurrences. `held` says that the data of
`auxr` are in the block of the string. -/
def expandEnd (held : Bool) (m : Memory) (b : Bstring) (d : List ℕ) (acc : ℤ) :
    Except Stop (Bstring × ℤ) := do
  let olen ← cint (b.slen + acc + 1)
  let (grown, ret) ← balloc m b olen
  if ret = BSTR_OK then
    if held = true ∧ d ≠ [] ∧ Moves b olen then
      .error (.fault .useAfterFree)
    else do
      let slen := ((grown.slen : ℤ) + acc).toNat
      let data ← moveUp find repl (d ++ [b.slen]) d.length acc grown.data
      let data ← copyTo data slen [0]
      return ({ data, slen }, ret)
  else
    return (grown, ret)

/-- `findreplaceengine`, from `delta` on. A search comes to the end of the string in fewer rounds than
that has characters and one. -/
def exchange (held : Bool) (m : Memory) (b : Bstring) (pos : ℤ) : Except Stop (Bstring × ℤ) :=
  if find.length = repl.length then do
    let data ← replaceEqual find repl b.slen (b.slen + 1) b.data pos.toNat
    return ({ b with data }, BSTR_OK)
  else if find.length > repl.length then do
    let (data, pos, acc) ← replaceShrinking find repl b.slen (b.slen + 1) b.data pos.toNat 0
    let b ← shrinkEnd b data pos acc
    return (b, BSTR_OK)
  else do
    let found ← findAll find repl m b.contents (b.slen + 1) INITIAL_STATIC_FIND_INDEX_COUNT pos.toNat
      [] 0
    match found with
    | some (d, acc) => expandEnd find repl held m b d acc
    | none => return (b, BSTR_ERR)

end Code

/-- The tests for an alias, in a string of `slen` characters. -/
def Source.aliased (slen : ℕ) (pos : ℤ) : Source → Bool
  | .other _ => false
  | .own ofs len => pos - len < ofs ∧ ofs < slen

/-- `auxf` and `auxr` -/
def Source.auxFrom (m : Memory) (b : Bstring) (pos : ℤ) (src : Source) : Option (List UInt8) :=
  if src.aliased b.slen pos then bstrcpy m (src.bytes b) else some (src.bytes b)

/-- Its data are in the block of the string. -/
def Source.held (slen : ℕ) (pos : ℤ) (src : Source) : Bool :=
  src.isOwn && !src.aliased slen pos

def findreplaceengine (find repl : Source) (m : Memory) (b : Bstring) (pos : ℤ) :
    Except Stop (Bstring × ℤ) :=
  if pos < 0 ∨ (find.bytes b).length = 0 ∨ b.mlen = 0 ∨ b.slen > b.mlen then
    return (b, BSTR_ERR)
  else if pos > (b.slen : ℤ) - (find.bytes b).length then
    return (b, BSTR_OK)
  else
    match find.auxFrom m b pos, repl.auxFrom m b pos with
    | some auxf, some auxr => exchange auxf auxr (repl.held b.slen pos) m b pos
    | _, _ => return (b, BSTR_ERR)

def bfindreplace (m : Memory) (b : Bstring) (find repl : Source) (pos : ℤ) :
    Except Stop (Bstring × ℤ) :=
  findreplaceengine find repl m b pos

/-! ## Copies into a block

A block in the middle of a loop is a list in pieces: what is done, a gap, and what is still to be moved.
A copy replaces one of the pieces. -/

variable {w r s a g rest slack bytes : List UInt8} {m : Memory} {p q e n fuel : ℕ} {qs : List ℕ}

/-- A copy over a part `g` of the block that is at least as long. -/
theorem copyTo_over {x : ℤ} (hx : x = a.length) (hle : bytes.length ≤ g.length) (rest : List UInt8) :
    ∃ g', g'.length + bytes.length = g.length ∧
      copyTo (a ++ (g ++ rest)) x bytes = .ok (a ++ (bytes ++ (g' ++ rest))) := by
  refine ⟨g.drop bytes.length, ?_, ?_⟩
  · rw [List.length_drop]
    omega
  · have hparts : g ++ rest = g.take bytes.length ++ (g.drop bytes.length ++ rest) := by
      rw [← List.append_assoc, List.take_append_drop]
    rw [hparts]
    exact copyTo_eq hx (by rw [List.length_take]; omega)

/-- What is between two positions, and what is behind them. -/
theorem exists_between (hpq : p ≤ q) (hq : q ≤ s.length) :
    ∃ x, (s.drop p).take (q - p) = x ∧ x.length = q - p ∧ s.drop p = x ++ s.drop q := by
  refine ⟨_, rfl, ?_, ?_⟩
  · rw [List.length_take, List.length_drop]
    omega
  · have hdrop : s.drop q = (s.drop p).drop (q - p) := by
      rw [List.drop_drop, Nat.add_sub_cancel' hpq]
    rw [hdrop, List.take_append_drop]

/-- The characters of a string that is not changed from `p` on. -/
theorem take_contents (ha : a.length = p) (hp : p ≤ s.length) :
    (a ++ (s.drop p ++ slack)).take s.length = a ++ s.drop p := by
  rw [← List.append_assoc, List.take_left']
  rw [List.length_append, List.length_drop]
  omega

/-! ## Words of one length

What has been replaced stands in front of `pos`, and the rest of the text is as it was. The induction is
on the occurrences that are left. -/

/-- Where both have the same length, the loop overwrites one occurrence after the other. -/
theorem replaceEqual_eq (hw : w ≠ []) (hlen : w.length = r.length) (hqs : Occurrences w s p qs)
    (hp : p ≤ s.length) (ha : a.length = p) (hfuel : qs.length < fuel) (slack : List UInt8) :
    replaceEqual w r s.length fuel (a ++ (s.drop p ++ slack)) p =
      .ok (a ++ (joined s r w.length p qs ++ slack)) := by
  induction hqs generalizing a fuel with
  | @done p hnone =>
    obtain ⟨fuel, rfl⟩ := Nat.exists_eq_succ_of_ne_zero (Nat.ne_of_gt hfuel)
    have hlast : binstrFrom (a ++ s.drop p) p w = Lcthw.BSTR_ERR :=
      binstrFrom_done hw (by rw [List.length_append]; omega) (List.drop_left' ha) (.done hnone)
    rw [replaceEqual, take_contents ha hp, hlast]
    rfl
  | @next p q qs hpq hocc hfirst hrest ih =>
    obtain ⟨fuel, rfl⟩ := Nat.exists_eq_succ_of_ne_zero (Nat.ne_zero_of_lt hfuel)
    have hqlen := hocc.le_length hw
    have hnext : binstrFrom (a ++ s.drop p) p w = q :=
      binstrFrom_next hw (by rw [List.length_append]; omega) (List.drop_left' ha)
        (.next hpq hocc hfirst hrest)
    obtain ⟨x, hx, hxlen, hsplit⟩ := exists_between hpq (show q ≤ s.length by omega)
    obtain ⟨y, -, hylen, hsplit'⟩ := exists_between (Nat.le_add_right q w.length) hqlen
    -- the word is written over the occurrence
    have hcopy : copyTo (a ++ (s.drop p ++ slack)) q r =
        .ok ((a ++ x ++ r) ++ (s.drop (q + w.length) ++ slack)) := by
      rw [hsplit, hsplit', List.append_assoc, List.append_assoc y, ← List.append_assoc a,
        List.append_assoc (a ++ x) r]
      refine copyTo_eq ?_ (by omega)
      rw [List.length_append]
      omega
    rw [replaceEqual, take_contents ha hp, hnext]
    show (if (q : ℤ) ≥ 0 then _ else _) = _
    rw [if_pos (Int.natCast_nonneg q), hcopy, ok_bind, Int.toNat_natCast,
      ih hqlen (by rw [List.length_append, List.length_append]; omega)
        (by rw [List.length_cons] at hfuel; omega), joined, hx]
    simp only [List.append_assoc]

/-! ## A shorter word

In front of the rest of the text there is a gap, which grows with every occurrence by the difference of
the lengths. The gap is what `acc` counts, and what is behind the last occurrence closes it. -/

/-- Behind the last occurrence. -/
theorem shrinkEnd_eq {b : Bstring} (hb : b.slen = s.length) (hp : p ≤ s.length)
    (hg : a.length + g.length = p) (hslack : slack.head? = some 0) :
    ∃ rest, rest.head? = some 0 ∧
      shrinkEnd b (a ++ (g ++ (s.drop p ++ slack))) p g.length =
        .ok { data := a ++ (s.drop p ++ rest), slen := a.length + (s.drop p).length } := by
  have hdrop : (s.drop p).length = s.length - p := List.length_drop
  unfold shrinkEnd
  cases g with
  | nil =>
    refine ⟨slack, hslack, ?_⟩
    rw [if_neg (by simp), List.nil_append, hdrop, hb]
    rw [List.length_nil] at hg
    have hslen : s.length = a.length + (s.length - p) := by omega
    exact congrArg Except.ok (congrArg (Bstring.mk _) hslen)
  | cons y g =>
    have hgap : ((y :: g).length : ℤ) ≠ 0 := Int.natCast_ne_zero.mpr (Nat.succ_ne_zero _)
    rw [if_pos hgap]
    -- what is left is moved over the gap, if anything is left
    obtain ⟨g', hg', hmoved⟩ : ∃ g', g'.length = (y :: g).length ∧
        (if b.slen > p then do
          let moved ← copyFrom (a ++ (y :: g ++ (s.drop p ++ slack))) p (b.slen - p)
          copyTo (a ++ (y :: g ++ (s.drop p ++ slack))) (p - (y :: g).length) moved
        else
          return a ++ (y :: g ++ (s.drop p ++ slack)) : Except Stop _) =
        .ok (a ++ (s.drop p ++ (g' ++ slack))) := by
      by_cases hmore : b.slen > p
      · have hfrom : copyFrom (a ++ (y :: g ++ (s.drop p ++ slack))) p (b.slen - p) =
            .ok (s.drop p) := by
          rw [← List.append_assoc a]
          refine copyFrom_eq ?_ ?_
          · rw [List.length_append]
            omega
          · omega
        obtain ⟨g', hg', hto⟩ : ∃ g', g'.length + (s.drop p).length = (y :: g ++ s.drop p).length ∧
            copyTo (a ++ (y :: g ++ s.drop p ++ slack)) (p - (y :: g).length) (s.drop p) =
              .ok (a ++ (s.drop p ++ (g' ++ slack))) :=
          copyTo_over (by omega) (by rw [List.length_append]; omega) slack
        refine ⟨g', ?_, ?_⟩
        · rw [List.length_append] at hg'
          omega
        · rw [if_pos hmore, hfrom, ok_bind, ← List.append_assoc (y :: g), hto]
      · have hnil : s.drop p = [] := List.drop_eq_nil_of_le (by omega)
        refine ⟨y :: g, rfl, ?_⟩
        rw [if_neg hmore, hnil]
        rfl
    obtain ⟨y', g', rfl⟩ : ∃ y' g'', g' = y' :: g'' :=
      List.exists_cons_of_ne_nil (List.ne_nil_of_length_pos (by rw [hg']; exact Nat.succ_pos _))
    have hslen : ((b.slen : ℤ) - (y :: g).length).toNat = a.length + (s.drop p).length := by
      omega
    refine ⟨0 :: (g' ++ slack), rfl, ?_⟩
    rw [hmoved, ok_bind]
    simp only [hslen]
    have hnul : copyTo (a ++ (s.drop p ++ (y' :: g' ++ slack)))
        ((a.length + (s.drop p).length : ℕ) : ℤ) [0] =
        .ok (a ++ (s.drop p ++ (0 :: (g' ++ slack)))) := by
      rw [← List.append_assoc a, show y' :: g' ++ slack = [y'] ++ (g' ++ slack) from rfl]
      refine (copyTo_eq ?_ ?_).trans ?_
      · rw [List.length_append]
      · rfl
      · rw [List.append_assoc]
        rfl
    rw [hnul]
    rfl

/-- Where the replacement is shorter, the loop moves each piece down behind the one before it. -/
theorem replaceShrinking_eq {b : Bstring} (hw : w ≠ []) (hlen : r.length ≤ w.length)
    (hb : b.slen = s.length) (hslack : slack.head? = some 0) (hqs : Occurrences w s p qs)
    (hp : p ≤ s.length) (hg : a.length + g.length = p) (hfuel : qs.length < fuel) :
    ∃ rest, rest.head? = some 0 ∧
      (replaceShrinking w r s.length fuel (a ++ (g ++ (s.drop p ++ slack))) p g.length >>=
        fun out => shrinkEnd b out.1 out.2.1 out.2.2) =
      .ok { data := a ++ (joined s r w.length p qs ++ rest),
            slen := a.length + (joined s r w.length p qs).length } := by
  have htake : ∀ {p : ℕ} {a g : List UInt8}, a.length + g.length = p → p ≤ s.length →
      (a ++ (g ++ (s.drop p ++ slack))).take s.length = (a ++ g) ++ s.drop p := by
    intro p a g hg hp
    rw [← List.append_assoc a]
    exact take_contents (by rw [List.length_append]; exact hg) hp
  induction hqs generalizing a g fuel with
  | @done p hnone =>
    obtain ⟨fuel, rfl⟩ := Nat.exists_eq_succ_of_ne_zero (Nat.ne_of_gt hfuel)
    have hlast : binstrFrom ((a ++ g) ++ s.drop p) p w = Lcthw.BSTR_ERR :=
      binstrFrom_done hw (by rw [List.length_append, List.length_append]; omega)
        (List.drop_left' (by rw [List.length_append]; exact hg)) (.done hnone)
    rw [replaceShrinking, htake hg hp, hlast]
    exact shrinkEnd_eq hb hp hg hslack
  | @next p q qs hpq hocc hfirst hrest ih =>
    obtain ⟨fuel, rfl⟩ := Nat.exists_eq_succ_of_ne_zero (Nat.ne_zero_of_lt hfuel)
    have hqlen := hocc.le_length hw
    have hnext : binstrFrom ((a ++ g) ++ s.drop p) p w = q :=
      binstrFrom_next hw (by rw [List.length_append, List.length_append]; omega)
        (List.drop_left' (by rw [List.length_append]; exact hg)) (.next hpq hocc hfirst hrest)
    obtain ⟨x, hx, hxlen, hsplit⟩ := exists_between hpq (show q ≤ s.length by omega)
    obtain ⟨y, -, hylen, hsplit'⟩ := exists_between (Nat.le_add_right q w.length) hqlen
    -- what is between the occurrences is moved over the gap
    obtain ⟨g₁, hg₁, hmoved⟩ : ∃ g₁, g₁.length = g.length ∧
        (if (g.length : ℤ) ≠ 0 ∧ (q : ℤ) > p then do
          let moved ← copyFrom (a ++ (g ++ (s.drop p ++ slack))) p (q - p)
          copyTo (a ++ (g ++ (s.drop p ++ slack))) (p - g.length) moved
        else
          return a ++ (g ++ (s.drop p ++ slack)) : Except Stop _) =
        .ok (a ++ (x ++ (g₁ ++ (s.drop q ++ slack)))) := by
      rw [hsplit, List.append_assoc x]
      by_cases hmove : (g.length : ℤ) ≠ 0 ∧ (q : ℤ) > p
      · have hfrom : copyFrom (a ++ (g ++ (x ++ (s.drop q ++ slack)))) p (q - p) = .ok x := by
          rw [← List.append_assoc a]
          refine copyFrom_eq ?_ ?_
          · rw [List.length_append]
            omega
          · omega
        obtain ⟨g₁, hg₁, hto⟩ : ∃ g₁, g₁.length + x.length = (g ++ x).length ∧
            copyTo (a ++ (g ++ x ++ (s.drop q ++ slack))) (p - g.length) x =
              .ok (a ++ (x ++ (g₁ ++ (s.drop q ++ slack)))) :=
          copyTo_over (by omega) (by rw [List.length_append]; omega) _
        refine ⟨g₁, ?_, ?_⟩
        · rw [List.length_append] at hg₁
          omega
        · rw [if_pos hmove, hfrom, ok_bind, ← List.append_assoc g, hto]
      · rw [if_neg hmove]
        -- there is no gap yet, or nothing to move
        by_cases hgap : g.length = 0
        · obtain rfl := List.length_eq_zero_iff.mp hgap
          exact ⟨[], rfl, rfl⟩
        · obtain rfl : x = [] := List.length_eq_zero_iff.mp (by omega)
          exact ⟨g, rfl, rfl⟩
    -- and the word behind that
    obtain ⟨g₂, hg₂, hcopied⟩ : ∃ g₂, g₂.length + r.length = g.length + w.length ∧
        (if r.length ≠ 0 then copyTo (a ++ (x ++ (g₁ ++ (s.drop q ++ slack)))) (q - g.length) r
          else .ok (a ++ (x ++ (g₁ ++ (s.drop q ++ slack))))) =
        .ok ((a ++ x ++ r) ++ (g₂ ++ (s.drop (q + w.length) ++ slack))) := by
      have hy : y.length = w.length := by omega
      rw [hsplit', List.append_assoc y, ← List.append_assoc a x, ← List.append_assoc g₁]
      by_cases hr : r.length ≠ 0
      · rw [if_pos hr]
        obtain ⟨g₂, hg₂, hto⟩ := copyTo_over (a := a ++ x) (g := g₁ ++ y)
          (x := (q : ℤ) - g.length) (by rw [List.length_append]; omega)
          (show r.length ≤ _ by rw [List.length_append]; omega) (s.drop (q + w.length) ++ slack)
        refine ⟨g₂, ?_, ?_⟩
        · rw [List.length_append] at hg₂
          omega
        · rw [hto, List.append_assoc (a ++ x) r]
      · obtain rfl : r = [] := List.length_eq_zero_iff.mp (not_not.mp hr)
        refine ⟨g₁ ++ y, ?_, ?_⟩
        · rw [List.length_append, List.length_nil]
          omega
        · rw [if_neg hr, List.append_nil]
    have hgap : (a ++ x ++ r).length + g₂.length = q + w.length := by
      rw [List.length_append, List.length_append]
      omega
    obtain ⟨rest, hnul, hloop⟩ := ih hqlen hgap (Nat.lt_of_succ_lt_succ hfuel)
    refine ⟨rest, hnul, ?_⟩
    have hacc : (g.length : ℤ) + ((w.length : ℤ) - r.length) = g₂.length := by omega
    rw [replaceShrinking, htake hg hp, hnext]
    show (if (q : ℤ) ≥ 0 then _ else _) >>= _ = _
    rw [if_pos (Int.natCast_nonneg q), hmoved, ok_bind, hcopied, ok_bind, Int.toNat_natCast, hacc,
      hloop, joined, hx]
    simp only [List.append_assoc, List.length_append, Nat.add_assoc]

/-! ## A longer word

The occurrences are found in the text as it is, and only then the block is made larger. From the last
occurrence to the first, each piece is moved up by the growth of all the occurrences before it; what is
below has not been touched yet. -/

/-- **The search for all occurrences** ends with a list of them, or for want of memory. The array is
doubled as long as it is not greater than the greatest that may be. -/
theorem findAll_eq {d : List ℕ} {acc : ℤ} {k mlen : ℕ} (hw : w ≠ [])
    (hlen : r.length = w.length + k) (hqs : Occurrences w s p qs) (hp : p ≤ s.length)
    (hfuel : qs.length < fuel)
    (hcount : d.length + qs.length < MAX_INDEX_COUNT) (hacc : 0 ≤ acc)
    (hfit : acc + (qs.length * k : ℕ) ≤ INT_MAX) (hmlen : ∃ j, mlen = 32 * 2 ^ j) :
    findAll w r m s fuel mlen p d acc = .ok (some (d ++ qs, acc + (qs.length * k : ℕ))) ∨
      findAll w r m s fuel mlen p d acc = .ok none ∧
        ∃ j, 32 * 2 ^ j ≤ d.length + qs.length ∧ m.room (512 * 2 ^ j) = false := by
  induction hqs generalizing d mlen acc fuel with
  | @done p hnone =>
    obtain ⟨fuel, rfl⟩ := Nat.exists_eq_succ_of_ne_zero (Nat.ne_of_gt hfuel)
    left
    rw [findAll, binstrFrom_done hw hp rfl (.done hnone)]
    simp [Lcthw.BSTR_ERR]
    rfl
  | @next p q qs hpq hocc hfirst hrest ih =>
    obtain ⟨fuel, rfl⟩ := Nat.exists_eq_succ_of_ne_zero (Nat.ne_zero_of_lt hfuel)
    rw [List.length_cons] at hcount hfuel hfit
    rw [Nat.add_mul, Nat.one_mul, Nat.cast_add] at hfit
    rw [findAll, binstrFrom_next hw hp rfl (.next hpq hocc hfirst hrest)]
    show (if (q : ℤ) ≥ 0 then _ else _) = _ ∨ (if (q : ℤ) ≥ 0 then _ else _) = _ ∧ _
    rw [if_pos (Int.natCast_nonneg q)]
    by_cases hfull : d.length ≥ mlen - 1 ∧
        (mlen > MAX_INDEX_COUNT ∨ m.room (8 * (mlen + mlen : ℕ)) = false)
    · rw [if_pos hfull]
      obtain ⟨j, rfl⟩ := hmlen
      -- there are not as many occurrences as may not be
      have hroom : m.room (8 * (32 * 2 ^ j + 32 * 2 ^ j : ℕ)) = false :=
        hfull.2.resolve_left (by omega)
      have hsize : (8 * (32 * 2 ^ j + 32 * 2 ^ j : ℕ) : ℤ) = 512 * 2 ^ j := by
        push_cast
        ring
      rw [hsize] at hroom
      exact Or.inr ⟨rfl, j, by rw [List.length_cons]; omega, hroom⟩
    · have hstep : acc + ((r.length : ℤ) - w.length) = acc + k := by omega
      rw [if_neg hfull, hstep, cint_ok (by unfold INT_MAX; omega) (by omega), ok_bind,
        Int.toNat_natCast]
      have hsum : acc + (((q :: qs).length * k : ℕ) : ℤ) =
          acc + (k : ℤ) + ((qs.length * k : ℕ) : ℤ) := by
        rw [List.length_cons, Nat.add_mul, Nat.one_mul, Nat.cast_add]
        omega
      have hcount' : (d ++ [q]).length + qs.length < MAX_INDEX_COUNT := by
        rw [List.length_append, List.length_singleton]
        omega
      have hlist : d ++ q :: qs = d ++ [q] ++ qs := List.append_cons d q qs
      have hall : d.length + (q :: qs).length = (d ++ [q]).length + qs.length := by
        rw [List.length_append, List.length_singleton, List.length_cons]
        omega
      rw [hlist, hsum, hall]
      refine ih (hocc.le_length hw) (Nat.lt_of_succ_lt_succ hfuel) hcount' (by omega) (by omega) ?_
      obtain ⟨j, rfl⟩ := hmlen
      split
      · exact ⟨j + 1, by rw [Nat.pow_succ]; omega⟩
      · exact ⟨j, rfl⟩

/-- The text from the first of the occurrences `qs` on, with all of them replaced. -/
def joinedTail (s r : List UInt8) (n : ℕ) : List ℕ → List UInt8
  | [] => []
  | q :: qs => r ++ joined s r n (q + n) qs

/-- Where the first of the occurrences is, or the end of the text. -/
def firstOf (s : List UInt8) (qs : List ℕ) : ℕ :=
  qs.head?.getD s.length

theorem joined_eq_tail (p n : ℕ) (qs : List ℕ) :
    joined s r n p qs = (s.drop p).take (firstOf s qs - p) ++ joinedTail s r n qs := by
  cases qs with
  | nil =>
    show s.drop p = (s.drop p).take (s.length - p) ++ []
    rw [List.append_nil, List.take_of_length_le (by rw [List.length_drop])]
  | cons q qs => rfl

theorem firstOf_bounds (hw : w ≠ []) (hqs : Occurrences w s p qs) (hp : p ≤ s.length) :
    p ≤ firstOf s qs ∧ firstOf s qs ≤ s.length := by
  cases hqs with
  | done _ => exact ⟨hp, le_rfl⟩
  | @next p q qs hpq hocc _ _ =>
    have hlen := hocc.le_length hw
    exact ⟨hpq, show q ≤ s.length by omega⟩

/-- The next occurrence is at the end of the ones before, or the end of the text is there. -/
theorem getElem?_first (pre : List ℕ) (qs : List ℕ) :
    (pre ++ qs ++ [s.length])[pre.length]? = some (firstOf s qs) := by
  rw [List.append_assoc, List.getElem?_append_right le_rfl, Nat.sub_self]
  cases qs <;> rfl

/-- **One occurrence.** What stands behind it goes up by the growth up to it, with the word before. -/
theorem moveUp_succ {k i : ℕ} {d : List ℕ} {low : List UInt8} (hw : w ≠ [])
    (hlen : r.length = w.length + k) (hq : d[i]? = some q) (he : d[i + 1]? = some e)
    (hqe : q + w.length ≤ e) (hes : e ≤ s.length) (hlow : low.length = e + (i + 1) * k)
    (htake : low.take e = s.take e) (tail : List UInt8) :
    moveUp w r d (i + 1) (((i + 1) * k : ℕ) : ℤ) (low ++ tail) =
      moveUp w r d i ((i * k : ℕ) : ℤ) (low.take (q + i * k) ++
        (r ++ ((s.drop (q + w.length)).take (e - (q + w.length)) ++ tail))) := by
  have hpos : 0 < w.length := List.length_pos_iff.mpr hw
  rw [Nat.add_mul, Nat.one_mul] at hlow ⊢
  obtain ⟨x, hx, hxlen, hsplit⟩ := exists_between hqe hes
  rw [hx]
  -- what is to be moved is still where it was
  have hfrom : low = s.take (q + w.length) ++ (x ++ low.drop e) := by
    have hparts : s.take e = s.take (q + w.length) ++ x := by
      rw [← hx, ← List.take_add, Nat.add_sub_cancel' hqe]
    rw [← List.append_assoc, ← hparts, ← htake, List.take_append_drop]
  obtain ⟨u, v, huv, hu, hv⟩ : ∃ u v, low = u ++ v ∧ u.length = q + w.length + (i * k + k) ∧
      v.length = x.length := by
    refine ⟨_, _, (List.take_append_drop (q + w.length + (i * k + k)) low).symm, ?_, ?_⟩
    · rw [List.length_take]
      omega
    · rw [List.length_drop]
      omega
  have hmoved : (if (e : ℤ) - (q + w.length) ≠ 0 then do
        let moved ← copyFrom (low ++ tail) (q + w.length) (e - (q + w.length))
        copyTo (low ++ tail) (q + w.length + ((i * k + k : ℕ) : ℤ)) moved
      else
        return low ++ tail : Except Stop _) = .ok (u ++ (x ++ tail)) := by
    by_cases hl : (e : ℤ) - (q + w.length) ≠ 0
    · have hmove : copyFrom (low ++ tail) (q + w.length) (e - (q + w.length)) = .ok x := by
        rw [hfrom, List.append_assoc, List.append_assoc]
        refine copyFrom_eq ?_ (by omega)
        rw [List.length_take]
        omega
      rw [if_pos hl, hmove, ok_bind, huv, List.append_assoc]
      exact copyTo_eq (by omega) hv
    · obtain rfl : x = [] := List.length_eq_zero_iff.mp (by omega)
      obtain rfl : v = [] := List.length_eq_zero_iff.mp hv
      rw [if_neg hl, huv, List.append_nil]
      rfl
  obtain ⟨y, z, hyz, hy, hz⟩ : ∃ y z, u = y ++ z ∧ y = low.take (q + i * k) ∧
      z.length = r.length := by
    refine ⟨_, _, (List.take_append_drop (q + i * k) u).symm, ?_, ?_⟩
    · rw [huv, List.take_append_of_le_length (by omega)]
    · rw [List.length_drop]
      omega
  have hylen : y.length = q + i * k := by
    rw [hyz, List.length_append] at hu
    omega
  have hword : copyTo (u ++ (x ++ tail)) (q + w.length + ((i * k + k : ℕ) : ℤ) - r.length) r =
      .ok (y ++ (r ++ (x ++ tail))) := by
    rw [hyz, List.append_assoc]
    exact copyTo_eq (by omega) hz
  have hacc : ((i * k + k : ℕ) : ℤ) + ((w.length : ℤ) - r.length) = ((i * k : ℕ) : ℤ) := by omega
  rw [moveUp, hq, he]
  simp only [Option.getD_some]
  rw [hmoved, ok_bind, if_pos (by omega), hword, ok_bind, hacc, hy]

/-- **The moves of the occurrences from `p` on**, when there are `pre` before them. What is below is on
its way: it begins with the text up to the first of the occurrences. -/
theorem moveUp_eq {k : ℕ} (hw : w ≠ []) (hlen : r.length = w.length + k) (hqs : Occurrences w s p qs)
    (hp : p ≤ s.length) (pre : List ℕ) (hslack : (pre.length + qs.length) * k ≤ slack.length) :
    ∃ mid rest, mid.length = pre.length * k ∧
      rest.length + (pre.length + qs.length) * k = slack.length ∧
      moveUp w r (pre ++ qs ++ [s.length]) (pre.length + qs.length)
          (((pre.length + qs.length) * k : ℕ) : ℤ) (s ++ slack) =
        moveUp w r (pre ++ qs ++ [s.length]) pre.length ((pre.length * k : ℕ) : ℤ)
          (s.take (firstOf s qs) ++ mid ++ (joinedTail s r w.length qs ++ rest)) := by
  induction hqs generalizing pre with
  | done _ =>
    refine ⟨slack.take (pre.length * k), slack.drop (pre.length * k), ?_, ?_, ?_⟩
    · rw [List.length_take]
      exact Nat.min_eq_left hslack
    · rw [List.length_drop]
      exact Nat.sub_add_cancel hslack
    · rw [List.append_assoc (s.take _)]
      show moveUp w r _ _ _ (s ++ slack) = moveUp w r _ _ _ (s.take s.length ++ _)
      rw [List.take_length, joinedTail, List.nil_append, List.take_append_drop]
      rfl
  | @next p q qs hpq hocc hfirst hrest ih =>
    have hqlen := hocc.le_length hw
    have hcount : pre.length + (q :: qs).length = (pre ++ [q]).length + qs.length := by
      rw [List.length_append, List.length_cons, List.length_singleton]
      omega
    have hlist : pre ++ q :: qs ++ [s.length] = (pre ++ [q]) ++ qs ++ [s.length] := by
      rw [List.append_cons pre q qs]
    rw [hcount] at hslack ⊢
    rw [hlist]
    obtain ⟨mid, rest, hmid, hrestlen, hmoves⟩ := ih hqlen (pre ++ [q]) hslack
    have hsucc : (pre ++ [q]).length = pre.length + 1 := List.length_append
    obtain ⟨hlo, hhi⟩ := firstOf_bounds hw hrest hqlen
    have hhere : (pre ++ [q] ++ qs ++ [s.length])[pre.length]? = some q := by
      rw [← hlist]
      exact getElem?_first pre (q :: qs)
    have hnext : (pre ++ [q] ++ qs ++ [s.length])[pre.length + 1]? = some (firstOf s qs) := by
      rw [← hsucc]
      exact getElem?_first (pre ++ [q]) qs
    rw [hsucc] at hmid hmoves hrestlen ⊢
    have htaken : (s.take (firstOf s qs)).length = firstOf s qs := by
      rw [List.length_take]
      exact Nat.min_eq_left hhi
    have hlow : (s.take (firstOf s qs) ++ mid).length = firstOf s qs + (pre.length + 1) * k := by
      rw [List.length_append, htaken, hmid]
    have hstep := moveUp_succ hw hlen hhere hnext hlo hhi hlow (List.take_left' htaken)
      (joinedTail s r w.length qs ++ rest)
    -- what is below begins with the text up to this occurrence
    have hbelow : ((s.take (firstOf s qs) ++ mid).take (q + pre.length * k)).take q = s.take q := by
      rw [List.take_take, Nat.min_eq_left (Nat.le_add_right _ _),
        List.take_append_of_le_length (by omega), List.take_take, Nat.min_eq_left (by omega)]
    refine ⟨((s.take (firstOf s qs) ++ mid).take (q + pre.length * k)).drop q, rest, ?_, hrestlen, ?_⟩
    · rw [List.length_drop, List.length_take, hlow, Nat.add_mul]
      omega
    · show _ = moveUp w r _ _ _ (s.take q ++ _ ++ (r ++ joined s r w.length (q + w.length) qs ++ rest))
      rw [hmoves, hstep, ← hbelow, List.take_append_drop, joined_eq_tail]
      simp only [List.append_assoc]

/-- **All the moves.** -/
theorem moveUp_all {k : ℕ} (hw : w ≠ []) (hlen : r.length = w.length + k)
    (hqs : Occurrences w s p qs) (hp : p ≤ s.length) (hslack : qs.length * k ≤ slack.length) :
    ∃ rest, rest.length + qs.length * k = slack.length ∧
      moveUp w r (qs ++ [s.length]) qs.length ((qs.length * k : ℕ) : ℤ) (s ++ slack) =
        .ok (s.take p ++ joined s r w.length p qs ++ rest) := by
  obtain ⟨mid, rest, hmid, hrest, hmoves⟩ := moveUp_eq hw hlen hqs hp []
    (show (0 + qs.length) * k ≤ slack.length by rw [Nat.zero_add]; exact hslack)
  rw [List.length_nil, Nat.zero_mul] at hmid
  obtain rfl := List.length_eq_zero_iff.mp hmid
  rw [List.length_nil, Nat.zero_add] at hrest hmoves
  obtain ⟨hlo, -⟩ := firstOf_bounds hw hqs hp
  refine ⟨rest, hrest, ?_⟩
  rw [joined_eq_tail, ← List.append_assoc, ← List.take_add, Nat.add_sub_cancel' hlo,
    List.append_assoc]
  rw [List.nil_append, List.append_nil] at hmoves
  exact hmoves

/-! ## All three ways

The lengths of the words choose one of the ways. Only the third asks for memory: for the table of the
occurrences, once there are 32 of them, and for the block. -/

/-- The tables that are asked for when there are more and more occurrences of `w` from `p` on. -/
def tables (w s : List UInt8) (p : ℕ) : Set ℤ :=
  {size | ∃ qs j, Occurrences w s p qs ∧ 32 * 2 ^ j ≤ qs.length ∧ size = 512 * 2 ^ j}

/-- What the copy of a word asks for, where one is made. -/
def Source.asksFrom (slen : ℕ) (pos : ℤ) (src : Source) : Set ℤ :=
  {size | src.aliased slen pos = true ∧ size ∈ src.asks}

/-- The string now holds `text`. Or there is no memory for it and a NUL, or of one of the other sizes that
are asked for, and nothing is changed. -/
def Holds (m : Memory) (asked : Set ℤ) (b : Bstring) (text : List UInt8) : Bstring × ℤ → Prop
  | (b', rc) =>
    (rc = BSTR_OK ∧ b'.contents = text ∧ b'.slen = text.length ∧ b'.data[b'.slen]? = some 0) ∨
      (rc = BSTR_ERR ∧ b' = b ∧
        ∃ size : ℤ, (size = text.length + 1 ∨ size ∈ asked) ∧ m.room size = false)

theorem holds_text {asked : Set ℤ} {b : Bstring} {text : List UInt8} (hrest : rest.head? = some 0) :
    Holds m asked b text ({ data := text ++ rest, slen := text.length }, BSTR_OK) := by
  refine Or.inl ⟨rfl, List.take_left, rfl, ?_⟩
  show (text ++ rest)[text.length]? = some 0
  rw [List.getElem?_append_right le_rfl, Nat.sub_self, ← List.head?_eq_getElem?, hrest]

/-- The byte behind the characters becomes 0. -/
theorem copyTo_nul {text : List UInt8} {x : ℤ} (hx : x = text.length) (hrest : 0 < rest.length) :
    ∃ rest', rest'.head? = some 0 ∧ copyTo (text ++ rest) x [0] = .ok (text ++ rest') := by
  obtain ⟨y, rest, rfl⟩ := List.exists_cons_of_ne_nil (List.ne_nil_of_length_pos hrest)
  exact ⟨0 :: rest, rfl, copyTo_eq (b := [y]) hx rfl⟩

theorem length_contents {b : Bstring} (hb : b.slen ≤ b.mlen) : b.contents.length = b.slen := by
  rw [Bstring.contents, List.length_take]
  exact Nat.min_eq_left hb

/-- Where it is longer, the block grows first, and the pieces move up from the last one on. -/
theorem expandEnd_holds {asked : Set ℤ} {held : Bool} {b : Bstring} {k : ℕ} (hw : w ≠ [])
    (hlen : r.length = w.length + k) (hb : b.slen < b.mlen) (hbig : 8 * (b.mlen : ℤ) ≤ INT_MAX)
    (hqs : Occurrences w b.contents p qs) (hp : p ≤ b.slen)
    (hfit : (b.slen : ℤ) + (qs.length * k : ℕ) < INT_MAX)
    (hkeeps : held = true → qs ≠ [] → ¬ Moves b (b.slen + (qs.length * k : ℕ) + 1)) :
    ∃ out, expandEnd w r held m b qs ((qs.length * k : ℕ) : ℤ) = .ok out ∧
      Holds m asked b (b.contents.take p ++ joined b.contents r w.length p qs) out := by
  have hslen := length_contents hb.le
  -- each of the occurrences makes the string longer by `k`
  have htextlen : (b.contents.take p ++ joined b.contents r w.length p qs).length =
      b.slen + qs.length * k := by
    have hjoined := length_joined (r := r) (by omega) hqs hw
    rw [hlen, Nat.mul_add, hslen] at hjoined
    rw [List.length_append, List.length_take, hslen, Nat.min_eq_left hp]
    omega
  obtain ⟨⟨grown, rc⟩, hballoc, hgrown⟩ := balloc_spec (m := m) hb hbig
    (show (b.slen : ℤ) < b.slen + (qs.length * k : ℕ) + 1 by omega)
  unfold expandEnd
  rw [cint_ok (by unfold INT_MAX; omega) (by omega), ok_bind, hballoc, ok_bind]
  rcases hgrown with ⟨rfl, hsame, hroom, hcontents⟩ | ⟨rfl, rfl, -, hfull⟩
  · -- the pieces move up from the last one on, into the space behind the string
    have hparts : grown.data = b.contents ++ grown.data.drop b.slen := by
      rw [← hcontents, Bstring.contents, hsame, List.take_append_drop]
    have hslack : (grown.data.drop b.slen).length = grown.mlen - b.slen := List.length_drop
    obtain ⟨rest, hrest, hmoves⟩ := moveUp_all hw hlen hqs (by omega)
      (show qs.length * k ≤ (grown.data.drop b.slen).length by omega)
    rw [← hparts, hslen] at hmoves
    have hend : ((grown.slen : ℤ) + (qs.length * k : ℕ)).toNat =
        (b.contents.take p ++ joined b.contents r w.length p qs).length := by
      omega
    obtain ⟨rest', hnul, hcopy⟩ := copyTo_nul rfl (show 0 < rest.length by omega)
    refine ⟨_, ?_, holds_text hnul⟩
    refine (if_pos rfl).trans ((if_neg ?_).trans ?_)
    · rintro ⟨hheld, hne, hmoved⟩
      exact hkeeps hheld hne hmoved
    · simp only []
      rw [hmoves, ok_bind, hend, hcopy]
      rfl
  · -- no memory for the longer string
    refine ⟨_, rfl, Or.inr ⟨rfl, rfl, _, Or.inl ?_, hfull⟩⟩
    rw [htextlen]
    push_cast
    rfl

/-- **All three ways**, for a string in a block of up to 128 MiB. -/
theorem exchange_holds (m : Memory) {held : Bool} {b : Bstring} {find repl : List UInt8} {pos : ℕ}
    (hfind : find ≠ []) (hnul : b.data[b.slen]? = some 0) (hbig : 16 * (b.mlen : ℤ) ≤ INT_MAX)
    (hp : pos ≤ b.slen) (hqs : Occurrences find b.contents pos qs)
    (hfit : ((b.contents.take pos ++ joined b.contents repl find.length pos qs).length : ℤ) <
      INT_MAX)
    (hkeeps : held = true → find.length < repl.length → qs ≠ [] →
      ¬ Moves b ((b.contents.take pos ++ joined b.contents repl find.length pos qs).length + 1)) :
    ∃ out, exchange find repl held m b pos = .ok out ∧
      Holds m (tables find b.contents pos) b
        (b.contents.take pos ++ joined b.contents repl find.length pos qs) out := by
  have hb : b.slen < b.mlen := (List.getElem?_eq_some_iff.mp hnul).1
  have hslen := length_contents hb.le
  have hwpos : 0 < find.length := List.length_pos_iff.mpr hfind
  have hdata : b.data = b.contents ++ b.data.drop b.slen := (List.take_append_drop _ _).symm
  have hslack : (b.data.drop b.slen).head? = some 0 := by
    rw [List.head?_drop, hnul]
  have hp' : pos ≤ b.contents.length := by omega
  have htake : (b.contents.take pos).length = pos := by
    rw [List.length_take]
    exact Nat.min_eq_left hp'
  have hcount := length_occurrences_le hp' hqs hfind
  -- there are no more occurrences than characters, so the loops have fuel enough
  have hfew : qs.length ≤ qs.length * find.length := Nat.le_mul_of_pos_right _ hwpos
  have hfuel : qs.length < b.slen + 1 := by omega
  have hjoined := length_joined (r := repl) hp' hqs hfind
  have hstart : b.data = b.contents.take pos ++ (b.contents.drop pos ++ b.data.drop b.slen) := by
    rw [← List.append_assoc, List.take_append_drop, ← hdata]
  unfold exchange
  rw [Int.toNat_natCast]
  by_cases heq : find.length = repl.length
  · -- the occurrences are overwritten where they are
    have hloop : replaceEqual find repl b.slen (b.slen + 1) b.data pos = .ok
        (b.contents.take pos ++ (joined b.contents repl find.length pos qs ++
          b.data.drop b.slen)) := by
      have hloop := replaceEqual_eq hfind heq hqs hp' htake hfuel (b.data.drop b.slen)
      rw [← hstart, hslen] at hloop
      exact hloop
    have hlen : (b.contents.take pos ++ joined b.contents repl find.length pos qs).length =
        b.slen := by
      rw [List.length_append, htake]
      rw [heq] at hjoined ⊢
      omega
    refine ⟨_, ?_, holds_text hslack⟩
    rw [if_pos heq, hloop, ok_bind, hlen, List.append_assoc]
    rfl
  · by_cases hgt : find.length > repl.length
    · -- each piece moves down by what has been saved before it
      obtain ⟨rest, hrest, hloop⟩ := replaceShrinking_eq hfind hgt.le hslen.symm hslack hqs hp'
        (show (b.contents.take pos).length + ([] : List UInt8).length = pos from htake) hfuel
      rw [List.nil_append, ← hstart, hslen] at hloop
      refine ⟨_, ?_, holds_text hrest⟩
      obtain ⟨⟨data, p, acc⟩, hshrink, hend⟩ := bind_eq_ok.mp hloop
      rw [if_neg heq, if_pos hgt, show (0 : ℤ) = (([] : List UInt8).length : ℤ) from rfl, hshrink,
        ok_bind, List.length_append, List.append_assoc]
      show (do
        let b ← shrinkEnd b data p acc
        return (b, BSTR_OK) : Except Stop _) = _
      rw [hend]
      rfl
    · -- the places are collected first, in a table that may not find memory itself
      obtain ⟨k, hk⟩ := Nat.exists_eq_add_of_le (show find.length ≤ repl.length by omega)
      rw [hk, Nat.mul_add, hslen] at hjoined
      rw [List.length_append, htake] at hfit hkeeps
      have hmax : qs.length < MAX_INDEX_COUNT := by
        have hint : INT_MAX = 2147483647 := by decide
        unfold MAX_INDEX_COUNT
        omega
      have hsize : (((pos + (joined b.contents repl find.length pos qs).length : ℕ) : ℤ) + 1) =
          b.slen + (qs.length * k : ℕ) + 1 := by
        omega
      have hend : ∃ out, expandEnd find repl held m b qs ((qs.length * k : ℕ) : ℤ) = .ok out ∧
          Holds m (tables find b.contents pos) b _ out :=
        expandEnd_holds hfind hk hb (by omega) hqs hp
          (show (b.slen : ℤ) + (qs.length * k : ℕ) < INT_MAX by omega)
          fun hheld hne => hsize ▸ hkeeps hheld (by omega) hne
      have hall := findAll_eq (m := m) hfind hk hqs hp' hfuel
        (show ([] : List ℕ).length + qs.length < MAX_INDEX_COUNT by
          rw [List.length_nil, Nat.zero_add]; exact hmax)
        (show (0 : ℤ) ≤ 0 from le_rfl) (show (0 : ℤ) + (qs.length * k : ℕ) ≤ INT_MAX by omega)
        (show ∃ j, INITIAL_STATIC_FIND_INDEX_COUNT = 32 * 2 ^ j from ⟨0, rfl⟩)
      rw [if_neg heq, if_neg hgt]
      rcases hall with hall | ⟨hall, j, hj, hroom⟩
      · rw [hall, ok_bind, Int.zero_add]
        exact hend
      · rw [hall, ok_bind]
        rw [List.length_nil, Nat.zero_add] at hj
        exact ⟨_, rfl, Or.inr ⟨rfl, rfl, _, Or.inr ⟨qs, j, hqs, hj, rfl⟩, hroom⟩⟩

/-! ## Words that are parts of the string

A word that is a part of the string is copied when it could be written over. One that lies in front of
`pos` is not copied, and then the block must not be given up while it is still needed. -/

variable {b : Bstring} {find repl src : Source} {pos : ℕ}

/-- The text with all occurrences from `pos` on replaced. -/
def findreplaced (text : List UInt8) (find repl : Source) (pos : ℕ) : List UInt8 :=
  text.take pos ++ replaceAll (find.of text) (repl.of text) (text.drop pos)

/-- What is asked for besides a block for the text: copies of the words, and tables. -/
def findreplaceAsks (text : List UInt8) (find repl : Source) (pos : ℕ) : Set ℤ :=
  find.asksFrom text.length pos ∪ repl.asksFrom text.length pos ∪ tables (find.of text) text pos

/-- The word to put in is not read from a block that was given up: it is copied, or it is no longer than
the other one, or that does not occur, or the block stays. -/
def FindreplaceKeeps (b : Bstring) (find repl : Source) (pos : ℕ) : Prop :=
  repl.held b.slen pos = true →
    (repl.of b.contents).length ≤ (find.of b.contents).length ∨
      (findreplaced b.contents find repl pos).length = b.slen ∨
        ¬ Moves b ((findreplaced b.contents find repl pos).length + 1)

/-- What is a part of the string from `pos` on is copied, if there is memory for it. -/
theorem Source.auxFrom_cases (hs : b.slen ≤ b.mlen) (h : src.Within b) (pos : ℤ) :
    src.auxFrom m b pos = some (src.of b.contents) ∨
      src.auxFrom m b pos = none ∧ ∃ size ∈ src.asksFrom b.slen pos, m.room size = false := by
  rw [← Source.bytes_eq h]
  unfold Source.auxFrom
  by_cases halias : src.aliased b.slen pos = true
  · rw [if_pos halias]
    cases src with
    | other bytes => cases halias
    | own ofs len =>
      rcases bstrcpy_cases m ((b.data.drop ofs).take len) with hcopy | ⟨hcopy, size, hsize, hfull⟩
      · exact Or.inl hcopy
      · rw [Source.length_of h hs] at hsize
        exact Or.inr ⟨hcopy, size, ⟨halias, hsize⟩, hfull⟩
  · rw [if_neg halias]
    exact Or.inl rfl

/-- **The whole engine**, with the copies of the words in front of it. -/
theorem findreplaceengine_holds (m : Memory) (hfrom : find.Within b) (hto : repl.Within b)
    (hfind : find.of b.contents ≠ []) (hkeeps : FindreplaceKeeps b find repl pos)
    (hnul : b.data[b.slen]? = some 0) (hbig : 16 * (b.mlen : ℤ) ≤ INT_MAX)
    (hfit : ((findreplaced b.contents find repl pos).length : ℤ) < INT_MAX) :
    ∃ out, findreplaceengine find repl m b pos = .ok out ∧
      Holds m (findreplaceAsks b.contents find repl pos) b (findreplaced b.contents find repl pos)
        out := by
  have hb : b.slen < b.mlen := (List.getElem?_eq_some_iff.mp hnul).1
  have hslen := length_contents hb.le
  have hwpos : 0 < (find.of b.contents).length := List.length_pos_iff.mpr hfind
  obtain ⟨qs, hqs⟩ := exists_occurrences hfind b.contents pos
  have htext : findreplaced b.contents find repl pos = b.contents.take pos ++
      joined b.contents (repl.of b.contents) (find.of b.contents).length pos qs := by
    rw [findreplaced, joined_eq hfind hqs]
  unfold FindreplaceKeeps at hkeeps
  unfold findreplaceAsks findreplaceengine
  rw [htext] at hfit hkeeps ⊢
  rw [Source.bytes_eq hfrom, hslen, if_neg (by omega)]
  by_cases hshort : (pos : ℤ) > b.slen - (find.of b.contents).length
  · -- what is left of the text is shorter than the word
    have hnone : joined b.contents (repl.of b.contents) (find.of b.contents).length pos qs =
        b.contents.drop pos := by
      cases hqs with
      | done _ => rfl
      | next hpq hocc _ _ =>
        have := hocc.le_length hfind
        omega
    rw [if_pos hshort, hnone, List.take_append_drop]
    exact ⟨_, rfl, Or.inl ⟨rfl, rfl, hslen.symm, hnul⟩⟩
  · rw [if_neg hshort]
    rcases Source.auxFrom_cases (m := m) hb.le hfrom pos with hauxf | ⟨hauxf, size, hsize, hfull⟩
    · rcases Source.auxFrom_cases (m := m) hb.le hto pos with hauxr | ⟨hauxr, size, hsize, hfull⟩
      · -- where the word occurs, a longer one makes the text longer
        have hstays : repl.held b.slen pos = true →
            (find.of b.contents).length < (repl.of b.contents).length → qs ≠ [] →
            ¬ Moves b ((b.contents.take pos ++ joined b.contents (repl.of b.contents)
              (find.of b.contents).length pos qs).length + 1) := by
          intro hheld hlonger hne
          rcases hkeeps hheld with hle | hlen | hmoves
          · exact absurd hle (not_le.mpr hlonger)
          · have hjoined := length_joined (r := repl.of b.contents)
              (show pos ≤ b.contents.length by omega) hqs hfind
            obtain ⟨k, hk⟩ := Nat.exists_eq_add_of_lt hlonger
            have hmore : 0 < qs.length * (k + 1) :=
              Nat.mul_pos (List.length_pos_iff.mpr hne) (Nat.succ_pos k)
            rw [hk, Nat.add_assoc, Nat.mul_add] at hjoined
            rw [List.length_append, List.length_take] at hlen
            omega
          · exact hmoves
        obtain ⟨out, hrun, hholds⟩ := exchange_holds m hfind hnul hbig (by omega) hqs hfit hstays
        rw [hauxf, hauxr]
        refine ⟨out, hrun, hholds.imp_right ?_⟩
        rintro ⟨hrc, hsame, size, hasked, hfull⟩
        exact ⟨hrc, hsame, size, hasked.imp_right Or.inr, hfull⟩
      · rw [hauxf, hauxr]
        exact ⟨_, rfl, Or.inr ⟨rfl, rfl, size, Or.inr (Or.inl (Or.inr hsize)), hfull⟩⟩
    · rw [hauxf]
      exact ⟨_, rfl, Or.inr ⟨rfl, rfl, size, Or.inr (Or.inl (Or.inl hsize)), hfull⟩⟩

end Lcthw.Bstrlib
