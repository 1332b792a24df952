import Lcthw.Binstr
import Lcthw.Replace

/-!
# Lcthw — the memory of a `bstring` (`bstrlib.c`)

A `bstring` is a block of `mlen` bytes, of which the first `slen` are its characters; the byte behind
them is 0. Every access is checked against the block, and every `int` expression that the size of a
block can bring near `INT_MAX` against the range of `int`. What a run takes from the platform (which
blocks are to be had, and what is in a fresh one) is a parameter.

* **`copyTo`**, **`copyFrom`**: `memcpy` and `memmove`.
* **`balloc`**: a bigger block, in one of three ways; `balloc_spec` says what they have in common.
* **`snapUpSize_eq`**: the next power of two.
-/

namespace Lcthw.Bstrlib

open Replace (overwrite)

def BSTR_OK : ℤ := 0

/-- `mlen` is the length of the block. -/
structure Bstring where
  data : List UInt8
  slen : ℕ
  deriving DecidableEq

def Bstring.mlen (b : Bstring) : ℕ :=
  b.data.length

/-- The characters. -/
def Bstring.contents (b : Bstring) : List UInt8 :=
  b.data.take b.slen

/-- Which sizes can be allocated, and what is in a fresh block. -/
structure Memory where
  room : ℤ → Bool
  fresh : ℕ → UInt8

/-- `n` bytes of a fresh block. -/
def Memory.bytes (m : Memory) (n : ℕ) : List UInt8 :=
  (List.range n).map m.fresh

/-- There is always memory. -/
def Memory.Ample (m : Memory) : Prop :=
  ∀ size, m.room size = true

/-- Memory that never runs out. -/
def Memory.ample (fresh : ℕ → UInt8) : Memory :=
  { room := fun _ => true, fresh }

/-- An `int` expression in a function with a bound on its steps. -/
def cint (x : ℤ) : Except Stop ℤ :=
  (int x).mapError .fault

/-- `bstr__memcpy` and `bstr__memmove` into the block, at `p`. -/
def copyTo (data : List UInt8) (p : ℤ) (bytes : List UInt8) : Except Stop (List UInt8) :=
  if 0 ≤ p ∧ p + bytes.length ≤ data.length then .ok (overwrite data p.toNat bytes)
  else .error (.fault .outOfBounds)

/-- The `n` bytes of the block from `p` on, for a move. -/
def copyFrom (data : List UInt8) (p n : ℤ) : Except Stop (List UInt8) :=
  if 0 ≤ p ∧ 0 ≤ n ∧ p + n ≤ data.length then .ok ((data.drop p.toNat).take n.toNat)
  else .error (.fault .outOfBounds)

/-- The least power of two greater than `i`, or 8; or `i` itself where the power is no `int`. -/
def snapUpSize (i : ℤ) : ℤ :=
  if i < 8 then
    8
  else
    let j := BitVec.ofInt 32 i
    let j := j ||| (j >>> 1)
    let j := j ||| (j >>> 2)
    let j := j ||| (j >>> 4)
    let j := j ||| (j >>> 8)
    let j := j ||| (j >>> 16)
    let j := j + 1
    if j.toInt ≥ i then j.toInt else i

/-- The end of `balloc`, with a block of which the characters are a part. -/
def withBlock (b : Bstring) (x : List UInt8) : Except Stop (Bstring × ℤ) := do
  let data ← copyTo x b.slen [0]
  return ({ b with data }, BSTR_OK)

/-- `balloc`, from `reallocStrategy` on: a bigger block, and else the smallest that will do. -/
def reallocStrategy (m : Memory) (b : Bstring) (len olen : ℤ) : Except Stop (Bstring × ℤ) :=
  if m.room len then
    withBlock b (b.data ++ m.bytes (len.toNat - b.mlen))
  else if m.room olen then
    withBlock b (b.data ++ m.bytes (olen.toNat - b.mlen))
  else
    return (b, BSTR_ERR)

def balloc (m : Memory) (b : Bstring) (olen : ℤ) : Except Stop (Bstring × ℤ) :=
  if b.mlen = 0 ∨ b.mlen < b.slen ∨ olen ≤ 0 then
    return (b, BSTR_ERR)
  else if olen ≥ b.mlen then
    let len := snapUpSize olen
    if len ≤ b.mlen then
      return (b, BSTR_OK)
    else do
      let used ← cint (7 * b.mlen)
      let filled ← cint (8 * b.slen)
      if used < filled then
        reallocStrategy m b len olen
      else if m.room len then
        -- a block of its own, with the characters alone
        withBlock b (b.contents ++ m.bytes (len.toNat - b.slen))
      else
        reallocStrategy m b len olen
  else
    return (b, BSTR_OK)

/-- `balloc` gives up the block for another one, if it finds that. -/
def Moves (b : Bstring) (olen : ℤ) : Prop :=
  b.mlen ≤ olen ∧ b.mlen < snapUpSize olen

instance (b : Bstring) (olen : ℤ) : Decidable (Moves b olen) :=
  inferInstanceAs (Decidable (_ ∧ _))

/-! ## Copies

A copy inside the block replaces a part of it, and a move takes a part of it out. Both fault where they
leave the block. -/

variable {data a b c bytes : List UInt8} {m : Memory} {p n : ℤ}

theorem copyTo_eq (hp : p = a.length) (hb : b.length = bytes.length) :
    copyTo (a ++ (b ++ c)) p bytes = .ok (a ++ (bytes ++ c)) := by
  subst hp
  rw [copyTo, if_pos, Int.toNat_natCast, Replace.overwrite_eq rfl hb]
  rw [List.length_append, List.length_append]
  omega

theorem copyFrom_eq (hp : p = a.length) (hn : n = b.length) :
    copyFrom (a ++ (b ++ c)) p n = .ok b := by
  subst hp hn
  rw [copyFrom, if_pos, Int.toNat_natCast, Int.toNat_natCast, List.drop_left, List.take_left]
  rw [List.length_append, List.length_append]
  omega

theorem cint_ok (hlo : -INT_MAX - 1 ≤ p) (hhi : p ≤ INT_MAX) : cint p = .ok p := by
  rw [cint, int_ok hlo hhi]
  rfl

theorem length_bytes (m : Memory) (n : ℕ) : (m.bytes n).length = n := by
  rw [Memory.bytes, List.length_map, List.length_range]

theorem ample_ample (fresh : ℕ → UInt8) : (Memory.ample fresh).Ample :=
  fun _ => rfl

/-! ## A bigger block

Whichever way it is got, the characters are at its beginning and there is a byte for the NUL behind them.
-/

theorem le_snapUpSize (i : ℤ) : i ≤ snapUpSize i := by
  unfold snapUpSize
  by_cases hi : i < 8
  · rw [if_pos hi]
    omega
  · rw [if_neg hi]
    simp only []
    split
    · assumption
    · exact le_rfl

/-- A block for `olen` bytes with the same characters; or no memory for as many, which are more than there
are, and nothing changed. -/
def Grown (m : Memory) (b : Bstring) (olen : ℤ) : Bstring × ℤ → Prop
  | (b', rc) =>
    (rc = BSTR_OK ∧ b'.slen = b.slen ∧ olen ≤ b'.mlen ∧ b'.contents = b.contents) ∨
      (rc = BSTR_ERR ∧ b' = b ∧ b.mlen ≤ olen ∧ m.room olen = false)

/-- A string in its new block ends with its NUL again. -/
theorem withBlock_eq {s : Bstring} {olen : ℤ} {x rest : List UInt8} (hs : s.slen ≤ s.mlen)
    (hx : x = s.contents ++ rest) (hfit : olen ≤ x.length) (holen : s.slen < olen) :
    ∃ b', withBlock s x = .ok (b', BSTR_OK) ∧ b'.slen = s.slen ∧ b'.mlen = x.length ∧
      b'.contents = s.contents := by
  have hlen : s.contents.length = s.slen := by
    rw [Bstring.contents, List.length_take]
    exact Nat.min_eq_left hs
  have hrest : rest ≠ [] := by
    rintro rfl
    rw [hx, List.append_nil] at hfit
    omega
  obtain ⟨y, rest, rfl⟩ := List.exists_cons_of_ne_nil hrest
  subst hx
  -- the NUL goes behind the string
  have hcopy : copyTo (s.contents ++ ([y] ++ rest)) s.slen [0] = .ok (s.contents ++ ([0] ++ rest)) :=
    copyTo_eq (by rw [hlen]) rfl
  refine ⟨{ s with data := s.contents ++ ([0] ++ rest) }, ?_, rfl, ?_, ?_⟩
  · rw [withBlock]
    show (do
      let data ← copyTo (s.contents ++ ([y] ++ rest)) s.slen [0]
      return ({ s with data }, BSTR_OK) : Except Stop _) = _
    rw [hcopy]
    rfl
  · simp [Bstring.mlen]
  · show (s.contents ++ ([0] ++ rest)).take s.slen = s.contents
    rw [← hlen, List.take_left]

/-- A block that is made longer at its end. -/
theorem withBlock_longer {s : Bstring} {olen size : ℤ} (hs : s.slen ≤ s.mlen) (hsize : olen ≤ size)
    (hmlen : s.mlen ≤ size) (holen : s.slen < olen) :
    ∃ b', withBlock s (s.data ++ m.bytes (size.toNat - s.mlen)) = .ok (b', BSTR_OK) ∧
      b'.slen = s.slen ∧ (b'.mlen : ℤ) = size ∧ b'.contents = s.contents := by
  have hdata : s.data.length = s.mlen := rfl
  have hparts : s.data ++ m.bytes (size.toNat - s.mlen) =
      s.contents ++ (s.data.drop s.slen ++ m.bytes (size.toNat - s.mlen)) := by
    rw [Bstring.contents, ← List.append_assoc, List.take_append_drop]
  have hlength : ((s.data ++ m.bytes (size.toNat - s.mlen)).length : ℤ) = size := by
    rw [List.length_append, length_bytes, hdata]
    omega
  obtain ⟨b', hblock, hslen, hmlen', hcontents⟩ := withBlock_eq hs hparts (hsize.trans hlength.ge) holen
  exact ⟨b', hblock, hslen, by rw [hmlen', hlength], hcontents⟩

/-- The block grows to a size that is enough, or there is no memory for the least such size. -/
theorem reallocStrategy_grown {s : Bstring} {len olen : ℤ} (hs : s.slen < s.mlen)
    (hlen : olen ≤ len) (hge : s.mlen ≤ olen) :
    ∃ out, reallocStrategy m s len olen = .ok out ∧ Grown m s olen out := by
  have hgrown : ∀ size, olen ≤ size →
      ∃ out, withBlock s (s.data ++ m.bytes (size.toNat - s.mlen)) = .ok out ∧ Grown m s olen out := by
    intro size hsize
    obtain ⟨b', hblock, hslen, hmlen, hcontents⟩ :=
      withBlock_longer (m := m) hs.le hsize (by omega) (by omega)
    exact ⟨_, hblock, Or.inl ⟨rfl, hslen, hmlen ▸ hsize, hcontents⟩⟩
  unfold reallocStrategy
  by_cases hroom : m.room len
  · rw [if_pos hroom]
    exact hgrown len hlen
  · rw [if_neg hroom]
    by_cases hroom' : m.room olen
    · rw [if_pos hroom']
      exact hgrown olen le_rfl
    · rw [if_neg hroom']
      exact ⟨_, rfl, Or.inr ⟨rfl, rfl, hge, by simpa using hroom'⟩⟩

/-- The code of `balloc` for a block that is too small. -/
theorem balloc_eq {s : Bstring} {olen : ℤ} (hs : s.slen < s.mlen) (hmoves : Moves s olen)
    (hused : 7 * (s.mlen : ℤ) ≤ INT_MAX) (hfilled : 8 * (s.slen : ℤ) ≤ INT_MAX) :
    balloc m s olen =
      if 7 * (s.mlen : ℤ) < 8 * s.slen then
        reallocStrategy m s (snapUpSize olen) olen
      else if m.room (snapUpSize olen) then
        withBlock s (s.contents ++ m.bytes ((snapUpSize olen).toNat - s.slen))
      else
        reallocStrategy m s (snapUpSize olen) olen := by
  obtain ⟨hge, hsnap⟩ := hmoves
  unfold balloc
  rw [if_neg (by omega), if_pos hge]
  simp only []
  rw [if_neg (by omega), cint_ok (by unfold INT_MAX; omega) hused, ok_bind,
    cint_ok (by unfold INT_MAX; omega) hfilled, ok_bind]

/-- A block that is big enough. -/
theorem balloc_keeps {s : Bstring} {olen : ℤ} (hs : s.slen < s.mlen) (holen : 0 < olen)
    (hmoves : ¬ Moves s olen) : balloc m s olen = .ok (s, BSTR_OK) := by
  unfold balloc
  rw [if_neg (by omega)]
  by_cases hge : olen ≥ s.mlen
  · rw [if_pos hge]
    exact if_pos (not_lt.mp fun hsnap => hmoves ⟨hge, hsnap⟩)
  · rw [if_neg hge]
    rfl

/-- A block of its own, with the characters alone. -/
theorem withBlock_fresh {s : Bstring} {olen : ℤ} (hs : s.slen ≤ s.mlen) (holen : s.slen < olen) :
    ∃ b', withBlock s (s.contents ++ m.bytes ((snapUpSize olen).toNat - s.slen)) = .ok (b', BSTR_OK) ∧
      b'.slen = s.slen ∧ (b'.mlen : ℤ) = snapUpSize olen ∧ b'.contents = s.contents := by
  have hsnap := le_snapUpSize olen
  have hlength : ((s.contents ++ m.bytes ((snapUpSize olen).toNat - s.slen)).length : ℤ) =
      snapUpSize olen := by
    rw [List.length_append, length_bytes, Bstring.contents, List.length_take,
      Nat.min_eq_left (show s.slen ≤ s.data.length from hs)]
    omega
  obtain ⟨b', hblock, hslen, hmlen, hcontents⟩ := withBlock_eq hs rfl (hsnap.trans hlength.ge) holen
  exact ⟨b', hblock, hslen, by rw [hmlen, hlength], hcontents⟩

/-- **`balloc`.** The size of the block is weighed against the number of characters in `int`s, which is
defined as long as the block is not too big. -/
theorem balloc_spec {s : Bstring} {olen : ℤ} (hs : s.slen < s.mlen) (hbig : 8 * (s.mlen : ℤ) ≤ INT_MAX)
    (holen : s.slen < olen) :
    ∃ out, balloc m s olen = .ok out ∧ Grown m s olen out := by
  have hsnap := le_snapUpSize olen
  by_cases hmoves : Moves s olen
  · have hrealloc := reallocStrategy_grown (m := m) hs hsnap hmoves.1
    rw [balloc_eq hs hmoves (by omega) (by omega)]
    split
    · exact hrealloc
    · split
      · obtain ⟨b', hblock, hslen, hmlen, hcontents⟩ := withBlock_fresh (m := m) hs.le holen
        exact ⟨_, hblock, Or.inl ⟨rfl, hslen, hmlen ▸ hsnap, hcontents⟩⟩
      · exact hrealloc
  · have hroom : olen ≤ s.mlen := by
      by_contra hlt
      exact hmoves ⟨by omega, by omega⟩
    exact ⟨_, balloc_keeps hs (by omega) hmoves, Or.inl ⟨rfl, rfl, hroom, rfl⟩⟩

/-- With enough memory the block gets the next power of two as its size. -/
theorem balloc_ample (hm : m.Ample) {s : Bstring} {olen : ℤ} (hs : s.slen < s.mlen)
    (hmoves : Moves s olen) (hused : 7 * (s.mlen : ℤ) ≤ INT_MAX)
    (hfilled : 8 * (s.slen : ℤ) ≤ INT_MAX) :
    ∃ b', balloc m s olen = .ok (b', BSTR_OK) ∧ b'.slen = s.slen ∧
      (b'.mlen : ℤ) = snapUpSize olen ∧ b'.contents = s.contents := by
  have hsnap := le_snapUpSize olen
  have hge := hmoves.1
  rw [balloc_eq hs hmoves hused hfilled]
  split
  · unfold reallocStrategy
    rw [if_pos (hm _)]
    exact withBlock_longer hs.le hsnap (by omega) (by omega)
  · rw [if_pos (hm _)]
    exact withBlock_fresh hs.le (by omega)

/-- A block that is too big to be weighed. -/
theorem balloc_overflow {s : Bstring} {olen : ℤ} (hs : s.slen < s.mlen) (hmoves : Moves s olen)
    (hbig : INT_MAX < 7 * (s.mlen : ℤ)) : balloc m s olen = .error (.fault .intOverflow) := by
  obtain ⟨hge, hsnap⟩ := hmoves
  have hover : cint (7 * s.mlen) = .error (.fault .intOverflow) := by
    rw [cint, int_overflow hbig]
    rfl
  unfold balloc
  rw [if_neg (by omega), if_pos hge]
  simp only []
  rw [if_neg (by omega), hover]
  rfl

/-! ## The next power of two

Each step of `snapUpSize` doubles the number of bits that are set from the highest one down.
-/

/-- The bits from `top` down are set, `w` of them, and none above. -/
structure Filled (top w : ℕ) (j : BitVec 32) : Prop where
  set : ∀ p, p ≤ top → top < p + w → j.getLsbD p = true
  above : ∀ p, top < p → j.getLsbD p = false

theorem Filled.double {top w : ℕ} {j : BitVec 32} (h : Filled top w j) :
    Filled top (w + w) (j ||| (j >>> w)) where
  set p hp hw := by
    rw [BitVec.getLsbD_or, BitVec.getLsbD_ushiftRight]
    by_cases hnear : top < p + w
    · rw [h.set p hp hnear, Bool.true_or]
    · rw [h.set (w + p) (by omega) (by omega), Bool.or_true]
  above p hp := by
    rw [BitVec.getLsbD_or, BitVec.getLsbD_ushiftRight, h.above p hp, h.above (w + p) (by omega),
      Bool.or_false]

theorem filled_one {n top : ℕ} (hlo : 2 ^ top ≤ n) (hhi : n < 2 ^ (top + 1)) (htop : top < 32) :
    Filled top 1 (BitVec.ofNat 32 n) where
  set p hp hw := by
    obtain rfl : p = top := by omega
    have hdiv : n / 2 ^ p = 1 := Nat.div_eq_of_lt_le (by omega) (by rw [Nat.pow_succ] at hhi; omega)
    rw [BitVec.getLsbD_ofNat, Nat.testBit_eq_decide_div_mod_eq, hdiv]
    simp [htop]
  above p hp := by
    have hlt : n < 2 ^ p := lt_of_lt_of_le hhi (Nat.pow_le_pow_right (by omega) hp)
    rw [BitVec.getLsbD_ofNat, Nat.testBit_lt_two_pow hlt, Bool.and_false]

theorem Filled.toNat_eq {top w : ℕ} {j : BitVec 32} (h : Filled top w j) (hw : top < w) :
    j.toNat = 2 ^ (top + 1) - 1 := by
  apply Nat.eq_of_testBit_eq
  intro p
  rw [Nat.testBit_two_pow_sub_one]
  by_cases hp : p ≤ top
  · rw [decide_eq_true (by omega)]
    exact h.set p hp (by omega)
  · rw [decide_eq_false (by omega)]
    exact h.above p (by omega)

/-- **The next power of two**, where that is an `int`. -/
theorem snapUpSize_eq {n top : ℕ} (hlo : 2 ^ top ≤ n) (hhi : n < 2 ^ (top + 1)) (hmin : 3 ≤ top)
    (hmax : top < 30) : snapUpSize n = 2 ^ (top + 1) := by
  have h8 : 2 ^ 3 ≤ 2 ^ top := Nat.pow_le_pow_right (by decide) hmin
  have h30 : 2 ^ (top + 1) ≤ 2 ^ 30 := Nat.pow_le_pow_right (by decide) (by omega)
  have hfilled := (filled_one hlo hhi (by omega)).double.double.double.double.double
  have hones := hfilled.toNat_eq (by omega)
  unfold snapUpSize
  rw [if_neg (by omega), BitVec.ofInt_natCast]
  simp only []
  have hsum : ∀ j : BitVec 32, j.toNat = 2 ^ (top + 1) - 1 → (j + 1).toInt = 2 ^ (top + 1) := by
    intro j hj
    have hadd : (j + 1).toNat = 2 ^ (top + 1) := by
      rw [BitVec.toNat_add, hj, show (1 : BitVec 32).toNat = 1 from rfl,
        Nat.sub_add_cancel (Nat.one_le_two_pow), Nat.mod_eq_of_lt (by omega)]
    rw [BitVec.toInt_eq_toNat_of_lt (by omega), hadd]
    push_cast
    rfl
  have hle : (n : ℤ) ≤ 2 ^ (top + 1) := by exact_mod_cast hhi.le
  rw [hsum _ hones, if_pos hle]

end Lcthw.Bstrlib
