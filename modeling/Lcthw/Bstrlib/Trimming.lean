import Lcthw.Bstrlib.Growing
import Mathlib.Data.List.DropRight

/-!
# Lcthw — making a `bstring` shorter (`bstrlib.c`)

These functions work in the block the string has. White space and letters are those of the C locale.

* **`bdelete`**, **`btrunc`**, **`bltrimws`**, **`brtrimws`**, **`btrimws`**, **`btoupper`**, **`btolower`**:
  the code, loop by loop.
* **`..._made`**: the text that is left.
-/

namespace Lcthw.Bstrlib

/-! ## The code

These functions ask for no memory. Their loops look at one character after the other, and what they
leave is a part of the text or has the same length. -/

def wspace (c : UInt8) : Bool :=
  c = 32 ∨ 9 ≤ c ∧ c ≤ 13

def upcase (c : UInt8) : UInt8 :=
  if 97 ≤ c ∧ c ≤ 122 then c - 32 else c

def downcase (c : UInt8) : UInt8 :=
  if 65 ≤ c ∧ c ≤ 90 then c + 32 else c

/-- `b->data[i]` -/
def byteAt (data : List UInt8) (i : ℕ) : Except Stop UInt8 :=
  (readAt data i).mapError .fault

/-- The end of a part to be deleted is an `int`, also where it is far behind the string. -/
def bdelete (b : Bstring) (pos len : ℤ) : Except Stop (Bstring × ℤ) := do
  let (pos, len) ←
    (if pos < 0 then do
      let len ← cint (len + pos)
      return (0, len)
    else
      return (pos, len) : Except Stop (ℤ × ℤ))
  if len < 0 ∨ b.mlen < b.slen ∨ b.mlen = 0 then
    return (b, BSTR_ERR)
  else if len > 0 ∧ pos < b.slen then do
    let e ← cint (pos + len)
    if e ≥ b.slen then
      putNul b.data pos
    else do
      let moved ← copyFrom b.data e (b.slen - e)
      let data ← bBlockCopy b.data pos moved
      putNul data (b.slen - len)
  else
    return (b, BSTR_OK)

def btrunc (b : Bstring) (n : ℤ) : Except Stop (Bstring × ℤ) :=
  if n < 0 ∨ b.mlen < b.slen ∨ b.mlen = 0 then
    return (b, BSTR_ERR)
  else if b.slen > n then
    putNul b.data n
  else
    return (b, BSTR_OK)

/-- The loop of `btoupper` and `btolower`, for the `k` characters from `i` on. -/
def caseLoop (f : UInt8 → UInt8) : ℕ → ℕ → List UInt8 → Except Stop (List UInt8)
  | 0, _, data => return data
  | k + 1, i, data => do
    let c ← byteAt data i
    let data ← copyTo data i [f c]
    caseLoop f k (i + 1) data

def changeCase (f : UInt8 → UInt8) (b : Bstring) : Except Stop (Bstring × ℤ) :=
  if b.mlen < b.slen ∨ b.mlen = 0 then
    return (b, BSTR_ERR)
  else do
    let data ← caseLoop f b.slen 0 b.data
    return ({ b with data }, BSTR_OK)

def btoupper (b : Bstring) : Except Stop (Bstring × ℤ) :=
  changeCase upcase b

def btolower (b : Bstring) : Except Stop (Bstring × ℤ) :=
  changeCase downcase b

/-- The loop of `bltrimws`, with `k` characters left from `i` on. -/
def bltrimLoop (b : Bstring) : ℕ → ℕ → Except Stop (Bstring × ℤ)
  | 0, _ => putNul b.data 0
  | k + 1, i => do
    let c ← byteAt b.data i
    if wspace c = false then bdelete b 0 i else bltrimLoop b k (i + 1)

def bltrimws (b : Bstring) : Except Stop (Bstring × ℤ) :=
  if b.mlen < b.slen ∨ b.mlen = 0 then return (b, BSTR_ERR) else bltrimLoop b b.slen 0

/-- The loop of `brtrimws` and `btrimws`, for the first `i` characters; `next` is what is done behind the
last character that stays. -/
def brtrimLoop (b : Bstring) (next : Bstring → Except Stop (Bstring × ℤ)) :
    ℕ → Except Stop (Bstring × ℤ)
  | 0 => putNul b.data 0
  | i + 1 => do
    let c ← byteAt b.data i
    if wspace c = false then do
      let (b, _) ← (if b.mlen > i then putNul b.data (i + 1) else
        return ({ b with slen := i + 1 }, BSTR_OK))
      next b
    else
      brtrimLoop b next i

def brtrimws (b : Bstring) : Except Stop (Bstring × ℤ) :=
  if b.mlen < b.slen ∨ b.mlen = 0 then return (b, BSTR_ERR)
  else brtrimLoop b (fun b => return (b, BSTR_OK)) b.slen

/-- `for (j = 0; wspace (b->data[j]); j++) {}` -/
def leading (data : List UInt8) : ℕ → ℕ → Except Stop ℕ
  | 0, _ => .error .outOfFuel
  | fuel + 1, j => do
    let c ← byteAt data j
    if wspace c then leading data fuel (j + 1) else return j

/-- What `btrimws` does behind its loop. -/
def trimFront (b : Bstring) : Except Stop (Bstring × ℤ) := do
  let j ← leading b.data b.mlen 0
  bdelete b 0 j

def btrimws (b : Bstring) : Except Stop (Bstring × ℤ) :=
  if b.mlen < b.slen ∨ b.mlen = 0 then return (b, BSTR_ERR) else brtrimLoop b trimFront b.slen

/-! ## Parts of the text

The text without a part of it: the rest is moved down and gets a NUL. The parts are given by `int`s, so
a position may lie in front of the string or far behind it. -/

variable {b : Bstring} {text slack : List UInt8} {n pos len : ℕ}

theorem byteAt_eq {data : List UInt8} {i : ℕ} {c : UInt8} (h : data[i]? = some c) :
    byteAt data i = .ok c := by
  rw [byteAt, readAt_eq h]
  rfl

/-- A character of the text is where it is in the block. -/
theorem WellFormed.byteAt_eq (hb : WellFormed b) {i : ℕ} (hi : i < b.slen) :
    ∃ c, byteAt b.data i = .ok c ∧ b.contents[i]? = some c := by
  have hlt := hb.slen_lt
  have hlen : i < b.data.length := lt_trans hi hlt
  refine ⟨b.data[i], Bstrlib.byteAt_eq (List.getElem?_eq_getElem hlen), ?_⟩
  rw [Bstring.contents, List.getElem?_take_of_lt hi, List.getElem?_eq_getElem hlen]

/-- The text cut off. -/
theorem putNul_take (hb : WellFormed b) (hn : n ≤ b.slen) :
    ∃ out, putNul b.data n = .ok out ∧ Made (b.contents.take n) out := by
  have hlen := hb.length_contents
  obtain ⟨slack, hdata, hpos, hmax, -⟩ := hb.data_eq
  have htake : (b.contents.take n).length = n := by
    rw [List.length_take, hlen]
    exact Nat.min_eq_left hn
  have hparts : b.data = b.contents.take n ++ (b.contents.drop n ++ slack) := by
    rw [← List.append_assoc, List.take_append_drop, hdata]
  have hrest : (b.contents.drop n ++ slack).length = b.slen - n + slack.length := by
    rw [List.length_append, List.length_drop, hlen]
  rw [hparts]
  exact putNul_made (by rw [htake]) (by omega) (by omega)

/-- **`bdelete` takes a piece out**, as much of it as there is. -/
theorem bdelete_made (hb : WellFormed b) (hfit : (pos : ℤ) + len ≤ INT_MAX) :
    ∃ out, bdelete b pos len = .ok out ∧
      Made (b.contents.take pos ++ b.contents.drop (pos + len)) out := by
  have hlen := hb.length_contents
  have hlt := hb.slen_lt
  have hmax : 0 < INT_MAX := by decide
  obtain ⟨slack, hdata, hpos, hle, -⟩ := hb.data_eq
  have hcode : bdelete b pos len =
      if (len : ℤ) > 0 ∧ (pos : ℤ) < b.slen then do
        let e ← cint (pos + len)
        if e ≥ b.slen then
          putNul b.data pos
        else do
          let moved ← copyFrom b.data e (b.slen - e)
          let data ← bBlockCopy b.data pos moved
          putNul data (b.slen - len)
      else
        return (b, BSTR_OK) := by
    unfold bdelete
    rw [if_neg (by omega)]
    show (if (len : ℤ) < 0 ∨ b.mlen < b.slen ∨ b.mlen = 0 then _ else _) = _
    rw [if_neg (by omega)]
  rw [hcode]
  by_cases hwork : (len : ℤ) > 0 ∧ (pos : ℤ) < b.slen
  · rw [if_pos hwork, cint_ok (by omega) hfit, ok_bind]
    by_cases hend : (pos : ℤ) + len ≥ b.slen
    · have hnone : b.contents.drop (pos + len) = [] := List.drop_eq_nil_of_le (by omega)
      rw [if_pos hend, hnone, List.append_nil]
      exact putNul_take hb (by omega)
    · -- what is behind the part moves down
      have htake : (b.contents.take pos).length = pos := by
        rw [List.length_take, hlen]
        omega
      have hdrop : (b.contents.drop (pos + len)).length = b.slen - (pos + len) := by
        rw [List.length_drop, hlen]
      have hmoved : copyFrom b.data (pos + len) (b.slen - (pos + len)) =
          .ok (b.contents.drop (pos + len)) := by
        rw [hdata, ← List.take_append_drop (pos + len) b.contents, List.append_assoc,
          List.take_append_drop]
        refine copyFrom_eq ?_ ?_
        · rw [List.length_take, hlen]
          omega
        · omega
      obtain ⟨c, r, hcr, hc, hr⟩ : ∃ c r, b.contents.drop pos ++ slack = c ++ r ∧
          c.length = b.slen - (pos + len) ∧ r.length = len + slack.length := by
        refine ⟨_, _, (List.take_append_drop (b.slen - (pos + len)) _).symm, ?_, ?_⟩
        · rw [List.length_take, List.length_append, List.length_drop, hlen]
          omega
        · rw [List.length_drop, List.length_append, List.length_drop, hlen]
          omega
      have hcopy : bBlockCopy b.data pos (b.contents.drop (pos + len)) =
          .ok (b.contents.take pos ++ b.contents.drop (pos + len) ++ r) := by
        have hparts : b.data = b.contents.take pos ++ (c ++ r) := by
          rw [← hcr, ← List.append_assoc, List.take_append_drop, hdata]
        rw [hparts, bBlockCopy_eq (congrArg Nat.cast htake.symm) (by omega), List.append_assoc]
      rw [if_neg hend, hmoved, ok_bind, hcopy, ok_bind]
      refine putNul_made ?_ ?_ ?_
      · rw [List.length_append, htake, hdrop]
        omega
      · omega
      · rw [List.length_append, htake, hdrop]
        omega
  · have hsame : b.contents.take pos ++ b.contents.drop (pos + len) = b.contents := by
      by_cases hzero : len = 0
      · rw [hzero, Nat.add_zero, List.take_append_drop]
      · rw [List.take_of_length_le (by omega), List.drop_eq_nil_of_le (by omega), List.append_nil]
    rw [if_neg hwork, hsame]
    exact ⟨_, rfl, rfl, rfl, hb⟩

/-- The text without its beginning. -/
theorem bdelete_zero (hb : WellFormed b) (hn : n ≤ b.slen) :
    ∃ out, bdelete b 0 n = .ok out ∧ Made (b.contents.drop n) out := by
  have hint : INT_MAX = 2147483647 := by decide
  have hlimit : LIMIT = 33554432 := rfl
  have hlt := hb.slen_lt
  have hmax := hb.mlen_le
  have hdelete : ∃ out, bdelete b (0 : ℕ) n = .ok out ∧
      Made (b.contents.take 0 ++ b.contents.drop (0 + n)) out :=
    bdelete_made hb (by omega)
  rw [List.take_zero, List.nil_append, Nat.zero_add] at hdelete
  exact hdelete

/-- A part that begins in front of the string. -/
theorem bdelete_front {pos len : ℤ} (hneg : pos < 0) (hlow : -INT_MAX - 1 ≤ len + pos)
    (hlen : len ≤ INT_MAX) : bdelete b pos len = bdelete b 0 (len + pos) := by
  unfold bdelete
  rw [if_pos hneg, cint_ok hlow (by omega), if_neg (lt_irrefl 0)]
  rfl

theorem btrunc_made (hb : WellFormed b) (n : ℕ) :
    ∃ out, btrunc b n = .ok out ∧ Made (b.contents.take n) out := by
  have hlt := hb.slen_lt
  unfold btrunc
  rw [if_neg (by omega)]
  by_cases hcut : (b.slen : ℤ) > n
  · rw [if_pos hcut]
    exact putNul_take hb (by omega)
  · rw [if_neg hcut, List.take_of_length_le (by rw [hb.length_contents]; omega)]
    exact ⟨_, rfl, rfl, rfl, hb⟩

/-! ## Upper and lower case

A loop over all characters, each of them written in its place. -/

/-- One byte after the other. -/
theorem caseLoop_eq (f : UInt8 → UInt8) (a xs rest : List UInt8) :
    caseLoop f xs.length a.length (a ++ (xs ++ rest)) = .ok (a ++ (xs.map f ++ rest)) := by
  induction xs generalizing a with
  | nil => rfl
  | cons c xs ih =>
    have hread : byteAt (a ++ (c :: xs ++ rest)) a.length = .ok c := by
      apply byteAt_eq
      rw [List.getElem?_append_right le_rfl, Nat.sub_self]
      rfl
    have hwrite : copyTo (a ++ (c :: xs ++ rest)) a.length [f c] =
        .ok ((a ++ [f c]) ++ (xs ++ rest)) := by
      have hone : [c].length = [f c].length := rfl
      rw [show c :: xs ++ rest = [c] ++ (xs ++ rest) from rfl, copyTo_eq rfl hone, List.append_assoc]
    have hnext := ih (a ++ [f c])
    rw [List.length_append, List.length_singleton] at hnext
    show caseLoop f (xs.length + 1) a.length _ = _
    rw [caseLoop, hread, ok_bind, hwrite, ok_bind, hnext, List.append_assoc]
    rfl

/-- **A change of case** keeps the length. -/
theorem changeCase_made (hb : WellFormed b) (f : UInt8 → UInt8) :
    ∃ out, changeCase f b = .ok out ∧ Made (b.contents.map f) out := by
  have hlen := hb.length_contents
  have hlt := hb.slen_lt
  obtain ⟨slack, hdata, hpos, hmax, hmlen⟩ := hb.data_eq
  have hloop := caseLoop_eq f [] b.contents slack
  rw [hlen, List.nil_append, List.nil_append, ← hdata] at hloop
  have hmap : (b.contents.map f).length = b.slen := by
    rw [List.length_map, hlen]
  unfold changeCase
  rw [if_neg (by omega)]
  show ∃ out, (caseLoop f b.slen 0 b.data >>= _) = _ ∧ _
  rw [show (0 : ℕ) = ([] : List UInt8).length from rfl, hloop, ok_bind]
  refine ⟨_, rfl, rfl, ?_, ?_, ?_⟩
  · show (b.contents.map f ++ slack).take b.slen = _
    rw [List.take_left' hmap]
  · -- the NUL stays where it was
    have hnul := hb.nul
    rw [hdata, List.getElem?_append_right hlen.le, hlen] at hnul
    show (b.contents.map f ++ slack)[b.slen]? = some 0
    rw [List.getElem?_append_right hmap.le, hmap]
    exact hnul
  · show (b.contents.map f ++ slack).length ≤ 2 * LIMIT
    rw [List.length_append, hmap]
    exact hmax

/-! ## White space

A loop from either end, up to the first character that is no white space. The second loop of `btrimws`
does not look at the length: it relies on the NUL, which is no white space either. -/

/-- What is left of the text from `i` on. -/
theorem drop_eq_cons {i : ℕ} {c : UInt8} (h : text[i]? = some c) :
    text.drop i = c :: text.drop (i + 1) := by
  obtain ⟨hi, rfl⟩ := List.getElem?_eq_some_iff.mp h
  exact List.drop_eq_getElem_cons hi

/-- The loop comes to the first character that is not blank, or to the end. -/
theorem bltrimLoop_made (hb : WellFormed b) {k i : ℕ} (hk : i + k = b.slen) :
    ∃ out, bltrimLoop b k i = .ok out ∧ Made ((b.contents.drop i).dropWhile wspace) out := by
  induction k generalizing i with
  | zero =>
    have hnone : b.contents.drop i = [] := List.drop_eq_nil_of_le (by rw [hb.length_contents]; omega)
    rw [hnone]
    exact putNul_take hb (Nat.zero_le _)
  | succ k ih =>
    obtain ⟨c, hread, hc⟩ := hb.byteAt_eq (show i < b.slen by omega)
    rw [bltrimLoop, hread, ok_bind, drop_eq_cons hc]
    by_cases hw : wspace c = false
    · have hdelete := bdelete_zero hb (show i ≤ b.slen by omega)
      rw [drop_eq_cons hc] at hdelete
      rw [if_pos hw, List.dropWhile_cons_of_neg (by simp [hw])]
      exact hdelete
    · rw [if_neg hw, List.dropWhile_cons_of_pos (by simpa using hw)]
      exact ih (by omega)

theorem bltrimws_made (hb : WellFormed b) :
    ∃ out, bltrimws b = .ok out ∧ Made (b.contents.dropWhile wspace) out := by
  have hlt := hb.slen_lt
  unfold bltrimws
  rw [if_neg (by omega)]
  exact bltrimLoop_made hb (Nat.zero_add _)

/-- **The loop from the right**: `next` gets the text without the white space at its end. -/
theorem brtrimLoop_made (hb : WellFormed b) {next : Bstring → Except Stop (Bstring × ℤ)}
    {f : List UInt8 → List UInt8} (hnil : f [] = [])
    (hnext : ∀ b', WellFormed b' → (∃ c ∈ b'.contents, wspace c = false) →
      ∃ out, next b' = .ok out ∧ Made (f b'.contents) out) {i : ℕ} (hi : i ≤ b.slen) :
    ∃ out, brtrimLoop b next i = .ok out ∧
      Made (f ((b.contents.take i).rdropWhile wspace)) out := by
  induction i with
  | zero =>
    rw [List.take_zero, List.rdropWhile_nil, hnil]
    exact putNul_take hb (Nat.zero_le _)
  | succ i ih =>
    obtain ⟨c, hread, hc⟩ := hb.byteAt_eq (show i < b.slen by omega)
    have hlt := hb.slen_lt
    have htake : b.contents.take (i + 1) = b.contents.take i ++ [c] := by
      rw [List.take_add_one, hc]
      rfl
    rw [brtrimLoop, hread, ok_bind, htake]
    by_cases hw : wspace c = false
    · -- the last character that is not blank stays, and the string ends behind it
      obtain ⟨⟨b', rc⟩, hcut, rfl, hcontents, hb'⟩ := putNul_take hb hi
      rw [htake] at hcontents
      rw [if_pos hw, if_pos (by omega), List.rdropWhile_concat_neg _ _ _ (by simp [hw]), ← hcontents]
      rw [Nat.cast_add, Nat.cast_one] at hcut
      rw [hcut]
      exact hnext b' hb' ⟨c, by rw [hcontents]; simp, hw⟩
    · rw [if_neg hw, List.rdropWhile_concat_pos _ _ _ (by simpa using hw)]
      exact ih (by omega)

theorem brtrimws_made (hb : WellFormed b) :
    ∃ out, brtrimws b = .ok out ∧ Made (b.contents.rdropWhile wspace) out := by
  have hlt := hb.slen_lt
  have hnext : ∀ b', WellFormed b' → (∃ c ∈ b'.contents, wspace c = false) →
      ∃ out, (return (b', BSTR_OK) : Except Stop (Bstring × ℤ)) = .ok out ∧
        Made (id b'.contents) out :=
    fun b' hb' _ => ⟨_, rfl, rfl, rfl, hb'⟩
  have hloop := brtrimLoop_made hb rfl hnext le_rfl
  rw [List.take_of_length_le hb.length_contents.le] at hloop
  unfold brtrimws
  rw [if_neg (by omega)]
  exact hloop

/-- The inner loop stops at the first character that is no white space. -/
theorem leading_eq (hb : WellFormed b) {fuel j : ℕ} (hfuel : b.slen < fuel + j)
    (hsome : ∃ c ∈ b.contents.drop j, wspace c = false) :
    ∃ n, leading b.data fuel j = .ok n ∧ n ≤ b.slen ∧
      b.contents.drop n = (b.contents.drop j).dropWhile wspace := by
  induction fuel generalizing j with
  | zero =>
    obtain ⟨c, hc, -⟩ := hsome
    rw [List.drop_eq_nil_of_le (by rw [hb.length_contents]; omega)] at hc
    cases hc
  | succ fuel ih =>
    -- a character that is not blank is still to come
    have hj : j < b.slen := by
      by_contra hge
      obtain ⟨c, hc, -⟩ := hsome
      rw [List.drop_eq_nil_of_le (by rw [hb.length_contents]; omega)] at hc
      cases hc
    obtain ⟨c, hread, hc⟩ := hb.byteAt_eq hj
    rw [drop_eq_cons hc] at hsome ⊢
    rw [leading, hread, ok_bind]
    by_cases hw : wspace c = true
    · obtain ⟨d, hd, hdw⟩ := hsome
      have hrest : ∃ c ∈ b.contents.drop (j + 1), wspace c = false := by
        rcases List.mem_cons.mp hd with rfl | hd
        · rw [hw] at hdw
          cases hdw
        · exact ⟨d, hd, hdw⟩
      rw [if_pos hw, List.dropWhile_cons_of_pos hw]
      exact ih (by omega) hrest
    · rw [if_neg hw, List.dropWhile_cons_of_neg hw, ← drop_eq_cons hc]
      exact ⟨j, rfl, hj.le, rfl⟩

theorem trimFront_made (hb : WellFormed b) (hsome : ∃ c ∈ b.contents, wspace c = false) :
    ∃ out, trimFront b = .ok out ∧ Made (b.contents.dropWhile wspace) out := by
  obtain ⟨n, hn, hle, hdrop⟩ := leading_eq hb (show b.slen < b.mlen + 0 from hb.slen_lt) hsome
  have hdelete := bdelete_zero hb hle
  rw [hdrop, List.drop_zero] at hdelete
  unfold trimFront
  rw [hn]
  exact hdelete

theorem btrimws_made (hb : WellFormed b) :
    ∃ out, btrimws b = .ok out ∧
      Made (trim wspace b.contents) out := by
  have hlt := hb.slen_lt
  have hloop := brtrimLoop_made hb (f := fun text => text.dropWhile wspace) rfl
    (fun _ => trimFront_made) le_rfl
  rw [List.take_of_length_le hb.length_contents.le] at hloop
  unfold btrimws
  rw [if_neg (by omega)]
  exact hloop

end Lcthw.Bstrlib
