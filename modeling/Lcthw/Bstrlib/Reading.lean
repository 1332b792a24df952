import Lcthw.Bstrlib.Growing

/-!
# Lcthw — making a `bstring` of a C string, of a block or of a file (`bstrlib.c`)

A new block has the next power of two as its size. `bread` asks for one byte more than it is going to
have read, so its block is doubled each time it is full, until `balloc` weighs a block of `2^29` bytes
in `int`s.

* **`bfromcstr_eq`**, **`blk2bstr_eq`**: the characters of a new string.
* **`Round`**: the sizes of the block and of what is to be read; **`round_balloc`** is the step lemma.
* **`bread_eq`**: a file is read whole up to a size, and from there on `balloc` overflows.
-/

namespace Lcthw.Bstrlib

open Replace (overwrite)

/-! ## The code

A new string gets a header and a block. `bread` works on a string that is new and empty, and appends to
it what `fread` delivers, round by round. -/

/-- The block of a new string, when there is memory for it and for the header. -/
def newBlock (m : Memory) (i : ℤ) : Option (List UInt8) :=
  if m.room 16 = true ∧ m.room i = true then some (m.bytes i.toNat) else none

/-- `bfromcstr`; `none` is the null pointer. The length is a `size_t` that is made an `int`. -/
def bfromcstr (m : Memory) (str : List UInt8) : Except Stop (Option Bstring) :=
  let j : ℤ := str.length
  let i := snapUpSize (toInt (j + (2 - if j ≠ 0 then 1 else 0)))
  if i ≤ toInt j then
    return none
  else
    match newBlock m i with
    | none => return none
    | some data => do
      let data ← copyTo data 0 (str ++ [0])
      return some { data, slen := (toInt j).toNat }

/-- `blk2bstr`, of the first `len` bytes of a block. -/
def blk2bstr (m : Memory) (blk : List UInt8) (len : ℤ) : Except Stop (Option Bstring) :=
  if len < 0 then
    return none
  else do
    let i ← cint (len + (2 - if len ≠ 0 then 1 else 0))
    match newBlock m (snapUpSize i) with
    | none => return none
    | some data => do
      let data ← bBlockCopy data 0 (blk.take len.toNat)
      let (b, _) ← putNul data len
      return some b

def BS_BUFF_SZ : ℤ := 1024

/-- The loop of `breada`, which goes on until a string of `n` characters would not be full. `rest` is
what `fread` has not delivered yet. -/
def breadLoop (m : Memory) : ℕ → Bstring → ℤ → List UInt8 → Except Stop (Bstring × ℤ)
  | 0, _, _, _ => .error .outOfFuel
  | fuel + 1, b, n, rest => do
    let size ← cint (n + 1)
    grown m b size fun b => do
      let l := rest.take (n - b.slen).toNat
      let data ← bBlockCopy b.data b.slen l
      let b : Bstring := { data, slen := b.slen + l.length }
      if (b.slen : ℤ) < n then
        putNul b.data b.slen
      else do
        let n ← cint (n + if n < BS_BUFF_SZ then n else BS_BUFF_SZ)
        breadLoop m fuel b n (rest.drop l.length)

/-- `breada`. A round reads 16 bytes at least, or it is the last one. -/
def breada (m : Memory) (b : Bstring) (file : List UInt8) : Except Stop (Bstring × ℤ) :=
  if b.mlen = 0 ∨ b.mlen < b.slen then
    return (b, BSTR_ERR)
  else do
    let n ← cint (b.slen + 16)
    breadLoop m (file.length + 1) b n file

/-- `bread` -/
def bread (m : Memory) (file : List UInt8) : Except Stop (Option Bstring) := do
  let buff ← bfromcstr m []
  match buff with
  | none => return none
  | some buff => do
    let (buff, rc) ← breada m buff file
    if 0 > rc then return none else return some buff

/-! ## New strings

The size of the block of a new string is computed in `int`s from its length. A string that is too long
for that is refused, or the block is too small for it. -/

variable {m : Memory} {b : Bstring} {str rest : List UInt8} {n : ℤ} {k : ℕ}

/-- A copy to the beginning of a block. -/
theorem copyTo_front {data xs : List UInt8} (hfit : xs.length ≤ data.length) :
    copyTo data 0 xs = .ok (xs ++ data.drop xs.length) := by
  have hcopy : copyTo ([] ++ data) 0 xs = _ := copyTo_text (p := 0) rfl le_rfl (by simpa using hfit)
  rw [show overwrite [] 0 xs = xs from overwrite_end, List.nil_append, List.length_nil, Nat.zero_add,
    Nat.sub_zero] at hcopy
  exact hcopy

theorem newBlock_ample (hm : m.Ample) (i : ℤ) : newBlock m i = some (m.bytes i.toNat) :=
  if_pos ⟨hm 16, hm i⟩

/-- **`bfromcstr`** of a string whose length is an `int` with another one above it. -/
theorem bfromcstr_eq (hm : m.Ample) (hlen : (str.length : ℤ) < INT_MAX) :
    ∃ b, bfromcstr m str = .ok (some b) ∧ b.contents = str ∧ b.slen = str.length ∧
      (b.mlen : ℤ) = snapUpSize (str.length + (2 - if (str.length : ℤ) ≠ 0 then 1 else 0)) := by
  have hint : INT_MAX = 2147483647 := by decide
  have hsnap := le_snapUpSize (str.length + (2 - if (str.length : ℤ) ≠ 0 then 1 else 0))
  have hroom : (str.length : ℤ) + 1 ≤ str.length + (2 - if (str.length : ℤ) ≠ 0 then 1 else 0) := by
    split <;> omega
  have hsize : (str.length : ℤ) + (2 - if (str.length : ℤ) ≠ 0 then 1 else 0) ≤ INT_MAX := by
    split <;> omega
  unfold bfromcstr
  simp only []
  rw [toInt_eq (by omega) hsize, toInt_eq (by omega) (by omega)]
  generalize snapUpSize (str.length + (2 - if (str.length : ℤ) ≠ 0 then 1 else 0)) = i at hsnap ⊢
  have hbytes : (m.bytes i.toNat).length = i.toNat := length_bytes m i.toNat
  have hlength : (str ++ [0]).length = str.length + 1 := by
    rw [List.length_append, List.length_singleton]
  -- the string is copied with its NUL, and there is room for both
  have hcopy : copyTo (m.bytes i.toNat) 0 (str ++ [0]) = _ := copyTo_front (by omega)
  rw [if_neg (by omega), newBlock_ample hm]
  simp only []
  rw [hcopy, ok_bind]
  refine ⟨_, rfl, ?_, Int.toNat_natCast _, ?_⟩
  · show (str ++ [(0 : UInt8)] ++ _).take (Int.toNat str.length) = str
    rw [Int.toNat_natCast, List.append_assoc, List.take_left]
  · show ((str ++ [(0 : UInt8)] ++ (m.bytes i.toNat).drop (str ++ [(0 : UInt8)]).length).length : ℤ) = i
    rw [List.length_append, List.length_drop, hbytes]
    omega

/-- A longer string makes `(int)j` wrap: it is refused, or written behind its block. -/
theorem bfromcstr_long (hm : m.Ample) (hlen : INT_MAX ≤ (str.length : ℤ)) :
    bfromcstr m str = .ok none ∧ toInt str.length = INT_MAX ∨
      bfromcstr m str = .error (.fault .outOfBounds) ∧ toInt str.length ≠ INT_MAX := by
  have hint : INT_MAX = 2147483647 := by decide
  have hmod : ∀ x : ℤ, toInt x = if x % 4294967296 < 2147483648 then x % 4294967296
      else x % 4294967296 - 4294967296 := fun x => Int.bmod_def x 4294967296
  have hnow := hmod str.length
  have hnext := hmod (str.length + 1)
  unfold bfromcstr
  simp only []
  rw [if_pos (show (str.length : ℤ) ≠ 0 by omega), show (2 : ℤ) - 1 = 1 from rfl]
  by_cases hwrap : toInt str.length = INT_MAX
  · -- the size wraps around to a negative one, which is refused
    left
    have hsmall : snapUpSize (toInt (str.length + 1)) = 8 := if_pos (by omega)
    rw [hsmall, hwrap, if_pos (by omega)]
    exact ⟨rfl, rfl⟩
  · right
    have hsnap := le_snapUpSize (toInt (str.length + 1))
    have hmax : snapUpSize (toInt (str.length + 1)) ≤ INT_MAX := snapUpSize_le_max (by omega)
    -- the block is as long as an `int` can say, and the string is longer
    have hover : copyTo (m.bytes (snapUpSize (toInt (str.length + 1))).toNat) 0 (str ++ [0]) =
        .error (.fault .outOfBounds) := by
      apply if_neg
      rw [length_bytes, List.length_append, List.length_singleton]
      omega
    rw [if_neg (by omega), newBlock_ample hm]
    simp only []
    rw [hover]
    exact ⟨rfl, hwrap⟩

/-- **`blk2bstr`** of a block that has the bytes. -/
theorem blk2bstr_eq (hm : m.Ample) {len : ℕ} (hlen : (len : ℤ) < INT_MAX) (hblk : len ≤ rest.length) :
    ∃ b, blk2bstr m rest len = .ok (some b) ∧ b.contents = rest.take len ∧ b.slen = len ∧
      b.data[b.slen]? = some 0 ∧
      (b.mlen : ℤ) = snapUpSize (len + (2 - if (len : ℤ) ≠ 0 then 1 else 0)) := by
  have hint : INT_MAX = 2147483647 := by decide
  have hroom : (len : ℤ) + 1 ≤ len + (2 - if (len : ℤ) ≠ 0 then 1 else 0) := by
    split <;> omega
  have hsize : (len : ℤ) + (2 - if (len : ℤ) ≠ 0 then 1 else 0) ≤ INT_MAX := by
    split <;> omega
  have hsnap := le_snapUpSize (len + (2 - if (len : ℤ) ≠ 0 then 1 else 0))
  have htake : (rest.take len).length = len := by
    rw [List.length_take]
    exact Nat.min_eq_left hblk
  unfold blk2bstr
  rw [if_neg (by omega), cint_ok (by omega) hsize, ok_bind, newBlock_ample hm]
  generalize snapUpSize (len + (2 - if (len : ℤ) ≠ 0 then 1 else 0)) = i at hsnap ⊢
  have hbytes : (m.bytes i.toNat).length = i.toNat := length_bytes m i.toNat
  have hcopy : bBlockCopy (m.bytes i.toNat) 0 (rest.take len) =
      .ok (rest.take len ++ (m.bytes i.toNat).drop len) := by
    unfold bBlockCopy
    rw [copyTo_front (by omega), htake]
    split
    · rfl
    · -- no bytes, and no call of `memcpy`
      obtain rfl : len = 0 := by omega
      rw [List.take_zero, List.drop_zero]
      rfl
  obtain ⟨slack, hslack, hzero, hnul⟩ := putNul_eq (congrArg Nat.cast htake.symm)
    (show 0 < ((m.bytes i.toNat).drop len).length by rw [List.length_drop]; omega)
  simp only [Int.toNat_natCast]
  rw [hcopy, ok_bind, hnul]
  refine ⟨_, rfl, List.take_left, htake, ?_, ?_⟩
  · show (rest.take len ++ slack)[(rest.take len).length]? = some 0
    rw [List.getElem?_append_right le_rfl, Nat.sub_self, hzero]
  · show ((rest.take len ++ slack).length : ℤ) = i
    rw [List.length_append, hslack, List.length_drop, htake, hbytes]
    omega

/-! ## One more character

`bconchar` asks for a block with room for one more character and the NUL. A block of `2^29` bytes that
has no such room cannot be made larger: `balloc` weighs it first, and its weight is no `int`. -/

/-- A block below `2^29` bytes has half as many at most. -/
theorem snapUpSize_le_half {n : ℕ} (h : snapUpSize n < 2 ^ 29) : snapUpSize n ≤ 2 ^ 28 := by
  have hle := le_snapUpSize n
  by_cases hsmall : n < 8
  · have height : snapUpSize n = 8 := if_pos (by omega)
    omega
  · have hlo : 2 ^ Nat.log 2 n ≤ n := Nat.pow_log_le_self 2 (by omega)
    have hhi : n < 2 ^ (Nat.log 2 n + 1) := Nat.lt_pow_succ_log_self (by decide) n
    have hmin : 3 ≤ Nat.log 2 n := Nat.le_log_of_pow_le (by decide) (by omega)
    have hmax : Nat.log 2 n < 29 := by
      by_contra hge
      have hpow : 2 ^ 29 ≤ 2 ^ Nat.log 2 n := Nat.pow_le_pow_right (by decide) (by omega)
      omega
    rw [snapUpSize_eq hlo hhi hmin (by omega)] at h ⊢
    have hlt : Nat.log 2 n + 1 < 29 := (pow_lt_pow_iff_right₀ (by decide)).mp h
    exact pow_le_pow_right₀ (by decide) (by omega)

/-- **`bconchar`** behind a `balloc` that keeps the block or finds another one. -/
theorem bconchar_eq (hm : m.Ample) (hslen : b.slen < b.mlen) (hint : (b.slen : ℤ) + 2 ≤ INT_MAX)
    (hbig : Moves b (b.slen + 2) → 7 * (b.mlen : ℤ) ≤ INT_MAX ∧ 8 * (b.slen : ℤ) ≤ INT_MAX)
    (c : UInt8) :
    ∃ b', bconchar m b c = .ok (b', BSTR_OK) ∧ b'.contents = b.contents ++ [c] := by
  have hmax : INT_MAX = 2147483647 := by decide
  have hsnap := le_snapUpSize (b.slen + 2)
  obtain ⟨b', hballoc, hsame, hroom, hcontents⟩ : ∃ b', balloc m b (b.slen + 2) = .ok (b', BSTR_OK) ∧
      b'.slen = b.slen ∧ b.slen + 2 ≤ b'.mlen ∧ b'.contents = b.contents := by
    -- the block is replaced by a larger one, or is large enough
    by_cases hmoves : Moves b (b.slen + 2)
    · obtain ⟨b', hballoc, hsame, hmlen, hcontents⟩ :=
        balloc_ample hm hslen hmoves (hbig hmoves).1 (hbig hmoves).2
      exact ⟨b', hballoc, hsame, by omega, hcontents⟩
    · refine ⟨b, balloc_keeps hslen (by omega) hmoves, rfl, ?_, rfl⟩
      by_contra hlt
      exact hmoves ⟨by omega, by omega⟩
  obtain ⟨slack, hdata, hslack⟩ : ∃ slack, b'.data = b.contents ++ slack ∧
      b.slen + slack.length = b'.mlen := by
    have hdrop : (b'.data.drop b'.slen).length = b'.mlen - b'.slen := List.length_drop
    refine ⟨b'.data.drop b'.slen, ?_, by omega⟩
    rw [← hcontents, Bstring.contents, List.take_append_drop]
  have htext : b.contents.length = b.slen := by
    rw [Bstring.contents, List.length_take]
    exact Nat.min_eq_left hslen.le
  have hcopy : copyTo (b.contents ++ slack) b'.slen [c] =
      .ok ((b.contents ++ [c]) ++ slack.drop 1) := by
    rw [copyTo_text (by rw [hsame, htext]) le_rfl (by rw [List.length_singleton]; omega),
      overwrite_end, Nat.add_sub_cancel_left]
    rfl
  obtain ⟨rest, -, -, hnul⟩ := putNul_eq
    (show (b'.slen : ℤ) + 1 = (b.contents ++ [c]).length by
      rw [List.length_append, htext, hsame, List.length_singleton, Nat.cast_add, Nat.cast_one])
    (show 0 < (slack.drop 1).length by rw [List.length_drop]; omega)
  unfold bconchar grown
  rw [if_neg (by omega), cint_ok (by omega) hint, ok_bind, hballoc, ok_bind]
  simp only [if_true]
  rw [hdata, hcopy, ok_bind, hnul]
  exact ⟨_, rfl, List.take_left⟩

/-- The largest file that is not read is as long as this. -/
def BREAD_MAX : ℤ := 536869888

/-- `bconchar` on a new string of the length of a file that can be read. A string that is not much longer
fills a block of `2^29` bytes, which `balloc` cannot weigh. -/
theorem bconchar_cstr (hm : m.Ample) (hcontents : b.contents = str) (hslen : b.slen = str.length)
    (hmlen : (b.mlen : ℤ) = snapUpSize (str.length + 1)) (c : UInt8) :
    (∃ b', bconchar m b c = .ok (b', BSTR_OK) ∧ b'.contents = str ++ [c]) ∨
      (BREAD_MAX ≤ (str.length : ℤ) ∧ bconchar m b c = .error (.fault .intOverflow)) := by
  have hint : INT_MAX = 2147483647 := by decide
  have hbread : BREAD_MAX = 536869888 := rfl
  have hsnap := le_snapUpSize (str.length + 1)
  have hmlen' : (b.mlen : ℤ) = snapUpSize ((str.length + 1 : ℕ) : ℤ) := by
    rw [hmlen]
    push_cast
    rfl
  have hhalf : (b.mlen : ℤ) < 2 ^ 29 → (b.mlen : ℤ) ≤ 2 ^ 28 := by
    rw [hmlen']
    exact snapUpSize_le_half
  rcases le_or_gt ((b.slen : ℤ) + 2) INT_MAX with hfits | hlong
  · by_cases hbig : Moves b (b.slen + 2) → 7 * (b.mlen : ℤ) ≤ INT_MAX ∧ 8 * (b.slen : ℤ) ≤ INT_MAX
    · obtain ⟨b', hcode, htext⟩ := bconchar_eq hm (by omega) hfits hbig c
      exact Or.inl ⟨b', hcode, by rw [htext, hcontents]⟩
    · obtain ⟨hmoves, hbig⟩ := Classical.not_imp.mp hbig
      have hge := hmoves.1
      -- a block of less than `2^29` bytes could be weighed
      have hlarge : (2 : ℤ) ^ 29 ≤ b.mlen := by
        by_contra hlt
        have := hhalf (not_le.mp hlt)
        omega
      right
      refine ⟨by omega, ?_⟩
      unfold bconchar grown
      rw [if_neg (by omega), cint_ok (by omega) hfits, ok_bind,
        balloc_overflow (by omega) hmoves (by omega)]
      rfl
  · right
    have hover : cint ((b.slen : ℤ) + 2) = .error (.fault .intOverflow) := by
      rw [cint, int_overflow hlong]
      rfl
    refine ⟨by omega, ?_⟩
    unfold bconchar
    rw [if_neg (by omega), hover]
    rfl

/-! ## Reading a file

`n` is 16 at first, in a block of 8 bytes, and then doubled up to 1024; after that it is a multiple of
1024. Whenever a round begins with a full block, that one is doubled. -/

/-- What a round is to read up to, and the size of the block it begins with. -/
inductive Round : ℤ → ℕ → Prop
  | first : Round 16 3
  | doubled {k : ℕ} (hlo : 5 ≤ k) (hhi : k ≤ 10) : Round (2 ^ k) k
  | buffered {n : ℤ} {k : ℕ} (hdvd : 1024 ∣ n) (hpos : 0 < n) (hhi : n ≤ 2 ^ k) (hk : 10 ≤ k) : Round n k

variable {fuel : ℕ}

/-- `balloc` in a round: the block is there, or is doubled, or is too big to be weighed. -/
theorem round_balloc (hm : m.Ample) (hround : Round n k) (hk : k ≤ 29) (hmlen : (b.mlen : ℤ) = 2 ^ k)
    (hslen : b.slen < b.mlen) (hlo : (b.slen : ℤ) < n) :
    (n = 2 ^ 29 ∧ balloc m b (n + 1) = .error (.fault .intOverflow)) ∨
      ∃ b' k', balloc m b (n + 1) = .ok (b', BSTR_OK) ∧ b'.slen = b.slen ∧
        b'.contents = b.contents ∧ (b'.mlen : ℤ) = 2 ^ k' ∧ k' ≤ 29 ∧ n + 1 < 2 ^ k' ∧
        Round (n + if n < BS_BUFF_SZ then n else BS_BUFF_SZ) k' := by
  have hint : INT_MAX = 2147483647 := by decide
  have hbuff : BS_BUFF_SZ = 1024 := rfl
  -- a block that is too small gets the next power of two
  have hdouble : ∀ top : ℕ, 3 ≤ top → top ≤ 28 → (2 : ℤ) ^ top ≤ n + 1 → n + 1 < 2 ^ (top + 1) →
      k ≤ top → ∃ b', balloc m b (n + 1) = .ok (b', BSTR_OK) ∧ b'.slen = b.slen ∧
        b'.contents = b.contents ∧ (b'.mlen : ℤ) = 2 ^ (top + 1) := by
    intro top hmin hmax hge hlt hktop
    obtain ⟨size, hsize⟩ := Int.eq_ofNat_of_zero_le (show 0 ≤ n + 1 by omega)
    have hsnap : snapUpSize (n + 1) = 2 ^ (top + 1) := by
      rw [hsize] at hge hlt ⊢
      exact snapUpSize_eq (by exact_mod_cast hge) (by exact_mod_cast hlt) hmin (by omega)
    have hpow : (2 : ℤ) ^ k ≤ 2 ^ top := pow_le_pow_right₀ (by decide) hktop
    have hpow' : (2 : ℤ) ^ top ≤ 2 ^ 28 := pow_le_pow_right₀ (by decide) hmax
    have hsucc : (2 : ℤ) ^ (top + 1) = 2 ^ top * 2 := pow_succ 2 top
    have hpos : (0 : ℤ) < 2 ^ top := by positivity
    obtain ⟨b', hballoc, hsame, hmlen', hcontents⟩ := balloc_ample hm hslen
      (show Moves b (n + 1) from ⟨by omega, by omega⟩) (by omega) (by omega)
    exact ⟨b', hballoc, hsame, hcontents, hmlen'.trans hsnap⟩
  cases hround with
  | first =>
    obtain ⟨b', hballoc, hsame, hcontents, hmlen'⟩ :=
      hdouble 4 (by decide) (by decide) (by decide) (by decide) (by decide)
    exact Or.inr ⟨b', 5, hballoc, hsame, hcontents, hmlen', by decide, by decide,
      .doubled le_rfl (by decide)⟩
  | doubled hmin hmax =>
    have hpos : (2 : ℤ) ^ 5 ≤ 2 ^ k := pow_le_pow_right₀ (by decide) hmin
    have hsucc : (2 : ℤ) ^ (k + 1) = 2 ^ k * 2 := pow_succ 2 k
    obtain ⟨b', hballoc, hsame, hcontents, hmlen'⟩ :=
      hdouble k (by omega) (by omega) (by omega) (by omega) le_rfl
    refine Or.inr ⟨b', k + 1, hballoc, hsame, hcontents, hmlen', by omega, by omega, ?_⟩
    by_cases hsmall : (2 : ℤ) ^ k < BS_BUFF_SZ
    · have hk' : k < 10 := by
        by_contra hge
        have hbig : (2 : ℤ) ^ 10 ≤ 2 ^ k := pow_le_pow_right₀ (by decide) (by omega)
        omega
      rw [if_pos hsmall, ← mul_two, ← hsucc]
      exact .doubled (by omega) (by omega)
    · have hk' : k = 10 := by
        by_contra hne
        have hbig : (2 : ℤ) ^ k ≤ 2 ^ 9 := pow_le_pow_right₀ (by decide) (by omega)
        omega
      subst hk'
      exact .buffered (by decide) (by decide) (by decide) (by decide)
  | buffered hdvd hpos hfits hmin =>
    have hblock : (1024 : ℤ) ∣ 2 ^ k := pow_dvd_pow (2 : ℤ) hmin
    have hsucc : (2 : ℤ) ^ (k + 1) = 2 ^ k * 2 := pow_succ 2 k
    have hstep : (if n < BS_BUFF_SZ then n else BS_BUFF_SZ) = 1024 := by
      rw [if_neg (by omega), hbuff]
    rw [hstep]
    rcases hfits.lt_or_eq with hless | hfull
    · -- there is room for another 1024 bytes
      have hstays : ¬ Moves b (n + 1) := by
        rintro ⟨hge, -⟩
        omega
      have hkeeps : balloc m b (n + 1) = .ok (b, BSTR_OK) := balloc_keeps hslen (by omega) hstays
      exact Or.inr ⟨b, k, hkeeps, rfl, rfl, hmlen, hk, by omega,
        .buffered (by omega) (by omega) (by omega) hmin⟩
    · rcases hk.lt_or_eq with hlt | rfl
      · obtain ⟨b', hballoc, hsame, hcontents, hmlen'⟩ :=
          hdouble k (by omega) (by omega) (by omega) (by omega) le_rfl
        exact Or.inr ⟨b', k + 1, hballoc, hsame, hcontents, hmlen', by omega, by omega,
          .buffered (by omega) (by omega) (by omega) (by omega)⟩
      · -- `7 * b->mlen` is too big for an `int`
        refine Or.inl ⟨hfull, balloc_overflow hslen ⟨by omega, ?_⟩ (by omega)⟩
        have hsnap := le_snapUpSize (n + 1)
        omega

/-- Only the first round begins with a block that is too small. -/
theorem Round.bound (h : Round n k) : n = 16 ∨ n ≤ 2 ^ k := by
  cases h with
  | first => exact Or.inl rfl
  | doubled hmin hmax => exact Or.inr le_rfl
  | buffered hdvd hpos hfits hmin => exact Or.inr hfits

/-- **A round and those after it** read what is left of the file, or come to a block that is too big. -/
theorem breadLoop_reads (hm : m.Ample) (hround : Round n k) (hk : k ≤ 29)
    (hmlen : (b.mlen : ℤ) = 2 ^ k) (hslen : b.slen < b.mlen) (hlo : (b.slen : ℤ) < n)
    (hhi : n ≤ b.slen + 1024) (hfuel : rest.length < fuel) :
    ((b.slen + rest.length : ℤ) < BREAD_MAX ∧
        ∃ b', breadLoop m fuel b n rest = .ok (b', BSTR_OK) ∧ b'.contents = b.contents ++ rest) ∨
      (BREAD_MAX ≤ (b.slen + rest.length : ℤ) ∧
        breadLoop m fuel b n rest = .error (.fault .intOverflow)) := by
  have hint : INT_MAX = 2147483647 := by decide
  have hbread : BREAD_MAX = 536869888 := rfl
  induction fuel generalizing b n k rest with
  | zero => exact absurd hfuel (Nat.not_lt_zero _)
  | succ fuel ih =>
    have hbound := hround.bound
    have hpow : (2 : ℤ) ^ k ≤ 2 ^ 29 := pow_le_pow_right₀ (by decide) hk
    unfold breadLoop grown
    rw [cint_ok (by omega) (by omega), ok_bind]
    rcases round_balloc hm hround hk hmlen hslen hlo with ⟨hbig, hover⟩ |
      ⟨b', k', hballoc, hsame, hcontents, hmlen', hk', hfits, hnext⟩
    · right
      rw [hover]
      exact ⟨by omega, rfl⟩
    · rw [hballoc, ok_bind]
      simp only [if_true]
      -- what is read goes behind the characters
      obtain ⟨slack, hdata, hslack⟩ : ∃ slack, b'.data = b.contents ++ slack ∧
          b.slen + slack.length = b'.mlen := by
        have hdrop : (b'.data.drop b'.slen).length = b'.mlen - b'.slen := List.length_drop
        refine ⟨b'.data.drop b'.slen, ?_, ?_⟩
        · rw [← hcontents, Bstring.contents, List.take_append_drop]
        · omega
      have htext : b.contents.length = b.slen := by
        rw [Bstring.contents, List.length_take]
        exact Nat.min_eq_left hslen.le
      have hpow' : (2 : ℤ) ^ k' ≤ 2 ^ 29 := pow_le_pow_right₀ (by decide) hk'
      have hbound' := hnext.bound
      have hgrowth : n + 1024 ≤ 2 ^ 29 ∨ n < BS_BUFF_SZ := by
        unfold BS_BUFF_SZ at hbound' ⊢
        split at hbound' <;> omega
      unfold BS_BUFF_SZ at hgrowth
      have hread : (rest.take (n - b'.slen).toNat).length = min (n - b.slen).toNat rest.length := by
        rw [List.length_take, hsame]
      have hcopy : bBlockCopy b'.data b'.slen (rest.take (n - b'.slen).toNat) =
          .ok ((b.contents ++ rest.take (n - b'.slen).toNat) ++
            slack.drop (rest.take (n - b'.slen).toNat).length) := by
        rw [hdata, hsame, ← htext, bBlockCopy_text rfl le_rfl, overwrite_end,
          Nat.add_sub_cancel_left]
        rw [htext, ← hsame]
        omega
      rw [hcopy, ok_bind]
      by_cases hlast : rest.length < (n - b.slen).toNat
      · -- the file has come to its end
        have hall : rest.take (n - b'.slen).toNat = rest := List.take_of_length_le (by omega)
        left
        rw [hall, if_pos (by omega)]
        obtain ⟨nul, -, -, hnul⟩ := putNul_eq
          (show ((b'.slen + rest.length : ℕ) : ℤ) = (b.contents ++ rest).length by
            rw [List.length_append, htext, hsame])
          (show 0 < (slack.drop rest.length).length by rw [List.length_drop]; omega)
        rw [hnul]
        exact ⟨by omega, _, rfl, List.take_left⟩
      · have hmin : (rest.take (n - b'.slen).toNat).length = (n - b.slen).toNat := by omega
        rw [if_neg (by omega), cint_ok (by unfold BS_BUFF_SZ; split <;> omega)
          (by unfold BS_BUFF_SZ; split <;> omega), ok_bind, hmin]
        have htake : (b.contents ++ rest.take (n - b'.slen).toNat).length =
            b'.slen + (n - b.slen).toNat := by
          rw [List.length_append, htext, hmin, hsame]
        have hrest : (rest.drop (n - b.slen).toNat).length = rest.length - (n - b.slen).toNat :=
          List.length_drop
        have hblock : (((b.contents ++ rest.take (n - b'.slen).toNat) ++
            slack.drop (n - b.slen).toNat).length : ℤ) = 2 ^ k' := by
          rw [List.length_append, htake, List.length_drop]
          omega
        have hstep : (0 : ℤ) < (if n < BS_BUFF_SZ then n else BS_BUFF_SZ) ∧
            (if n < BS_BUFF_SZ then n else BS_BUFF_SZ) ≤ 1024 := by
          unfold BS_BUFF_SZ
          split <;> omega
        have hslen' : ((b'.slen + (n - b.slen).toNat : ℕ) : ℤ) = n := by omega
        have hmore : (b'.slen + (n - b.slen).toNat : ℕ) + (rest.drop (n - b.slen).toNat).length =
            b.slen + rest.length := by
          omega
        have hfile : ((b.contents ++ rest.take (n - b'.slen).toNat) ++ slack.drop (n - b.slen).toNat).take
            (b'.slen + (n - b.slen).toNat) ++ rest.drop (n - b.slen).toNat = b.contents ++ rest := by
          rw [List.take_left' htake, List.append_assoc, hsame, List.take_append_drop]
        generalize (b.contents ++ rest.take (n - b'.slen).toNat) ++
          slack.drop (n - b.slen).toNat = data at hblock hfile ⊢
        rw [← hfile, ← Nat.cast_add, ← hmore, Nat.cast_add]
        exact ih (b := ⟨data, b'.slen + (n - b.slen).toNat⟩) hnext hk' hblock
          (show b'.slen + (n - b.slen).toNat < data.length by omega)
          (show ((b'.slen + (n - b.slen).toNat : ℕ) : ℤ) < _ by omega)
          (show _ ≤ ((b'.slen + (n - b.slen).toNat : ℕ) : ℤ) + 1024 by omega)
          (show (rest.drop (n - b.slen).toNat).length < fuel by omega)

/-- **`bread`** reads the whole file, as long as its block stays below `2^29` bytes. -/
theorem bread_eq (hm : m.Ample) (file : List UInt8) :
    ((file.length : ℤ) < BREAD_MAX ∧ ∃ b, bread m file = .ok (some b) ∧ b.contents = file) ∨
      (BREAD_MAX ≤ (file.length : ℤ) ∧ bread m file = .error (.fault .intOverflow)) := by
  have hint : INT_MAX = 2147483647 := by decide
  obtain ⟨b, hcstr, hcontents, hslen, hmlen⟩ := @bfromcstr_eq m [] hm (by decide)
  have hmlen' : (b.mlen : ℤ) = 2 ^ 3 := hmlen
  have hslen' : b.slen = 0 := hslen
  have hloop := breadLoop_reads hm .first (by decide) hmlen' (by omega)
    (by rw [hslen']; decide) (by rw [hslen']; decide) (Nat.lt_succ_self file.length)
  have hbread : breada m b file = breadLoop m (file.length + 1) b 16 file := by
    unfold breada
    rw [if_neg (by omega), hslen']
    rfl
  unfold bread
  rw [hcstr, ok_bind]
  simp only [hbread]
  rw [hslen', Nat.cast_zero, Int.zero_add, hcontents, List.nil_append] at hloop
  rcases hloop with ⟨hlt, b', hrun, hfile⟩ | ⟨hge, hrun⟩
  · left
    rw [hrun]
    exact ⟨hlt, b', rfl, hfile⟩
  · right
    rw [hrun]
    exact ⟨hge, rfl⟩

end Lcthw.Bstrlib
