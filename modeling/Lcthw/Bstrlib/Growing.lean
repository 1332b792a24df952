import Lcthw.Bstrlib.Memory

/-!
# Lcthw — writing into a `bstring` (`bstrlib.c`)

Every function makes the block long enough, copies what it is given, and puts a NUL behind the characters.
What it is given can be a part of the string itself, which most functions copy first. `bcatblk` and
`bassignblk` do not, and read it where it stands, though `balloc` may have given up that block.

* **`bconchar`**, **`bcatblk`**, **`bconcat`**, **`bassignblk`**, **`bsetstr`**, **`binsertblk`**: the code.
* **`grown_edited`**: what follows a `balloc` is done in a block that begins with the characters.
* **`..._edited`**: what the text is afterwards, or that nothing is changed for want of memory of a size
  that was asked for.
-/

namespace Lcthw.Bstrlib

open Replace (overwrite)

/-! ## The code

Every function computes a size, calls `balloc`, and copies into the block. An argument that may be a
part of the string is a `Source`, so that the model sees when it is read from a block that is no longer
there. -/

/-- What a function is given: data of its own, or a part of the string it works on. -/
inductive Source where
  | other (bytes : List UInt8)
  | own (ofs len : ℕ)

def Source.bytes (b : Bstring) : Source → List UInt8
  | .other bytes => bytes
  | .own ofs len => (b.data.drop ofs).take len

def Source.isOwn : Source → Bool
  | .other _ => false
  | .own _ _ => true

/-- The bytes of an argument behind a `balloc` that has given up the block of the string. -/
def Source.reread : Source → Except Stop (List UInt8)
  | .other bytes => return bytes
  | .own _ len => if len > 0 then .error (.fault .useAfterFree) else return []

def bBlockCopy (data : List UInt8) (p : ℤ) (bytes : List UInt8) : Except Stop (List UInt8) :=
  if bytes.length > 0 then copyTo data p bytes else return data

/-- `memset` of the part from `p` up to `q`. -/
def fillUp (data : List UInt8) (p q : ℤ) (fill : UInt8) : Except Stop (List UInt8) :=
  copyTo data p (List.replicate (q - p).toNat fill)

/-- How the functions end: a NUL behind the `n` characters. -/
def putNul (data : List UInt8) (n : ℤ) : Except Stop (Bstring × ℤ) := do
  let data ← copyTo data n [0]
  return ({ data, slen := n.toNat }, BSTR_OK)

/-- `balloc`, what to do when it fails, and what follows. -/
def grown (m : Memory) (b : Bstring) (size : ℤ)
    (next : Bstring → Except Stop (Bstring × ℤ)) : Except Stop (Bstring × ℤ) := do
  let (b, rc) ← balloc m b size
  if rc = BSTR_OK then next b else return (b, BSTR_ERR)

/-- The characters of the copy that `bstrcpy` makes. -/
def bstrcpy (m : Memory) (bytes : List UInt8) : Option (List UInt8) :=
  if m.room 16 = true ∧
      (m.room (snapUpSize (bytes.length + 1)) = true ∨ m.room (bytes.length + 1) = true) then
    some bytes
  else
    none

/-- What is copied of an argument before the block is changed. -/
def Source.aux (m : Memory) (b : Bstring) : Source → Option (List UInt8)
  | .other bytes => some bytes
  | .own ofs len => bstrcpy m ((b.data.drop ofs).take len)

/-- The same where a null pointer may be given. -/
def auxOf (m : Memory) (b : Bstring) : Option Source → Option (List UInt8)
  | none => some []
  | some src => src.aux m b

def bconchar (m : Memory) (b : Bstring) (c : UInt8) : Except Stop (Bstring × ℤ) :=
  if b.mlen < b.slen then
    return (b, BSTR_ERR)
  else do
    let size ← cint (b.slen + 2)
    grown m b size fun b => do
      let data ← copyTo b.data b.slen [c]
      putNul data (b.slen + 1)

def bcatblk (m : Memory) (b : Bstring) (blk : Source) : Except Stop (Bstring × ℤ) :=
  let next (nl : ℤ) (s : List UInt8) (b : Bstring) : Except Stop (Bstring × ℤ) := do
    let data ← bBlockCopy b.data b.slen s
    putNul data nl
  if b.mlen < b.slen ∨ b.mlen = 0 then
    return (b, BSTR_ERR)
  else do
    let nl ← cint (b.slen + (blk.bytes b).length)
    if b.mlen ≤ nl then do
      let size ← cint (nl + 1)
      grown m b size fun b => do
        let s ← blk.reread
        next nl s b
    else
      next nl (blk.bytes b) b

/-- Only a string that has to grow is copied before it is appended to itself. -/
def bconcat (m : Memory) (b0 : Bstring) (b1 : Source) : Except Stop (Bstring × ℤ) :=
  let next (n : ℤ) (s : List UInt8) (b : Bstring) : Except Stop (Bstring × ℤ) := do
    let data ← bBlockCopy b.data b.slen s
    putNul data n
  if b0.mlen < b0.slen then
    return (b0, BSTR_ERR)
  else do
    let n ← cint (b0.slen + (b1.bytes b0).length)
    let size ← cint (n + 1)
    if b0.mlen ≤ size then
      match b1.aux m b0 with
      | none => return (b0, BSTR_ERR)
      | some aux => grown m b0 size (next n aux)
    else
      next n (b1.bytes b0) b0

def bassignblk (m : Memory) (b : Bstring) (blk : Source) : Except Stop (Bstring × ℤ) :=
  let next (s : List UInt8) (b : Bstring) : Except Stop (Bstring × ℤ) := do
    let data ← bBlockCopy b.data 0 s
    putNul data s.length
  if b.mlen < b.slen ∨ b.mlen = 0 ∨ (blk.bytes b).length ≥ INT_MAX then
    return (b, BSTR_ERR)
  else if (blk.bytes b).length + 1 > b.mlen then
    grown m b ((blk.bytes b).length + 1) fun b => do
      let s ← blk.reread
      next s b
  else
    next (blk.bytes b) b

def bsetstr (m : Memory) (b0 : Bstring) (pos : ℤ) (b1 : Option Source) (fill : UInt8) :
    Except Stop (Bstring × ℤ) :=
  if pos < 0 ∨ b0.mlen < b0.slen ∨ b0.mlen = 0 then
    return (b0, BSTR_ERR)
  else
    match auxOf m b0 b1 with
    | none => return (b0, BSTR_ERR)
    | some aux => do
      let d ← cint (pos + aux.length)
      let size ← cint (d + 1)
      grown m b0 size fun b0 => do
        let data ← (if pos > b0.slen then fillUp b0.data b0.slen pos fill else .ok b0.data)
        let newlen := if pos > b0.slen then pos else b0.slen
        let data ← bBlockCopy data pos aux
        putNul data (if d > newlen then d else newlen)

/-- A part of the string itself is always copied first. -/
def binsertblk (m : Memory) (b : Bstring) (pos : ℤ) (blk : Source) (fill : UInt8) :
    Except Stop (Bstring × ℤ) :=
  let s := blk.bytes b
  if pos < 0 ∨ b.mlen = 0 ∨ b.mlen < b.slen then
    return (b, BSTR_ERR)
  else do
    let d ← cint (b.slen + s.length)
    let l ← cint (pos + s.length)
    if blk.isOwn = true ∧ m.room s.length = false then
      return (b, BSTR_ERR)
    else if l > d then do
      let size ← cint (l + 1)
      grown m b size fun b => do
        let data ← fillUp b.data b.slen pos fill
        let data ← bBlockCopy data pos s
        putNul data l
    else do
      let size ← cint (d + 1)
      grown m b size fun b => do
        let moved ← copyFrom b.data pos (d - l)
        let data ← bBlockCopy b.data l moved
        let data ← bBlockCopy data pos s
        putNul data d

/-! ## What the copies do to a text and what is behind it

A block is a text and what is behind it. A copy that begins in the text or at its end makes another
text, and takes from what is behind as much as the text grows. -/

variable {m : Memory} {asked : Set ℤ} {b : Bstring} {text slack xs s : List UInt8} {p n : ℕ} {x : ℤ}
  {fill : UInt8}

/-- The text, made at least `n` characters long. -/
def padded (text : List UInt8) (n : ℕ) (fill : UInt8) : List UInt8 :=
  text ++ List.replicate (n - text.length) fill

theorem length_padded (text : List UInt8) (n : ℕ) (fill : UInt8) :
    (padded text n fill).length = max text.length n := by
  rw [padded, List.length_append, List.length_replicate]
  omega

theorem overwrite_append (hp : p ≤ text.length) : overwrite (text ++ slack) p xs =
    overwrite text p xs ++ slack.drop (p + xs.length - text.length) := by
  rw [overwrite, overwrite, List.take_append_of_le_length hp, List.drop_append, List.append_assoc]
  simp only [List.append_assoc]

theorem length_overwritten (hp : p ≤ text.length) :
    (overwrite text p xs).length = max text.length (p + xs.length) := by
  rw [overwrite, List.length_append, List.length_append, List.length_take, List.length_drop]
  omega

theorem overwrite_end : overwrite text text.length xs = text ++ xs := by
  rw [overwrite, List.take_length, List.drop_eq_nil_of_le (Nat.le_add_right _ _), List.append_nil]

/-- A copy that begins in the text or at its end. -/
theorem copyTo_text (hx : x = p) (hp : p ≤ text.length)
    (hfit : p + xs.length ≤ text.length + slack.length) :
    copyTo (text ++ slack) x xs =
      .ok (overwrite text p xs ++ slack.drop (p + xs.length - text.length)) := by
  subst hx
  rw [copyTo, if_pos, Int.toNat_natCast, overwrite_append hp]
  rw [List.length_append]
  omega

theorem bBlockCopy_text (hx : x = p) (hp : p ≤ text.length)
    (hfit : p + xs.length ≤ text.length + slack.length) :
    bBlockCopy (text ++ slack) x xs =
      .ok (overwrite text p xs ++ slack.drop (p + xs.length - text.length)) := by
  unfold bBlockCopy
  by_cases hxs : xs.length > 0
  · rw [if_pos hxs]
    exact copyTo_text hx hp hfit
  · obtain rfl : xs = [] := List.length_eq_zero_iff.mp (by omega)
    rw [if_neg hxs, List.length_nil, Nat.add_zero, Nat.sub_eq_zero_of_le hp, List.drop_zero, overwrite,
      List.append_nil, List.length_nil, Nat.add_zero, List.take_append_drop]
    rfl

/-- A copy over as much as is copied. -/
theorem bBlockCopy_eq {a c r : List UInt8} (hx : x = a.length) (hc : c.length = xs.length) :
    bBlockCopy (a ++ (c ++ r)) x xs = .ok (a ++ (xs ++ r)) := by
  unfold bBlockCopy
  by_cases hxs : xs.length > 0
  · rw [if_pos hxs]
    exact copyTo_eq hx hc
  · obtain rfl : xs = [] := List.length_eq_zero_iff.mp (by omega)
    obtain rfl : c = [] := List.length_eq_zero_iff.mp hc
    rw [if_neg hxs]
    rfl

theorem fillUp_text (hp : text.length ≤ n) (hfit : n ≤ text.length + slack.length) :
    fillUp (text ++ slack) text.length n fill =
      .ok (padded text n fill ++ slack.drop (n - text.length)) := by
  have hcount : ((n : ℤ) - text.length).toNat = n - text.length := by omega
  unfold fillUp
  rw [hcount, copyTo_text rfl le_rfl (by rw [List.length_replicate]; omega), overwrite_end,
    List.length_replicate, Nat.add_sub_cancel_left]
  rfl

/-! ## What a call leaves

A string is well formed when its characters end with a NUL and its block is not too big for `balloc` to
weigh. Every call leaves such a string, with the text it was to make or with the one there was. -/

/-- No text is longer than this. -/
def LIMIT : ℕ := 33554432

/-- The characters end with a NUL, in a block that is not too big. -/
structure WellFormed (b : Bstring) : Prop where
  nul : b.data[b.slen]? = some 0
  mlen_le : b.mlen ≤ 2 * LIMIT

/-- The text is made. -/
def Made (text : List UInt8) : Bstring × ℤ → Prop
  | (b, rc) => rc = BSTR_OK ∧ b.contents = text ∧ WellFormed b

/-- The text that a call was to make; or what there was before, when there is no memory for that text and
a NUL, or of one of the other sizes that are asked for. -/
def Edited (m : Memory) (asked : Set ℤ) (b : Bstring) (text : List UInt8) (out : Bstring × ℤ) : Prop :=
  Made text out ∨ out = (b, BSTR_ERR) ∧
    ∃ size : ℤ, (size = text.length + 1 ∨ size ∈ asked) ∧ m.room size = false

theorem WellFormed.slen_lt (hb : WellFormed b) : b.slen < b.mlen :=
  (List.getElem?_eq_some_iff.mp hb.nul).1

theorem WellFormed.length_contents (hb : WellFormed b) : b.contents.length = b.slen := by
  rw [Bstring.contents, List.length_take]
  exact Nat.min_eq_left hb.slen_lt.le

/-- The block is the characters, and at least one byte behind them. -/
theorem WellFormed.data_eq (hb : WellFormed b) :
    ∃ slack, b.data = b.contents ++ slack ∧ 0 < slack.length ∧
      b.slen + slack.length ≤ 2 * LIMIT ∧ b.mlen = b.slen + slack.length := by
  have hlt := hb.slen_lt
  have hle := hb.mlen_le
  have hlen : (b.data.drop b.slen).length = b.mlen - b.slen := List.length_drop
  exact ⟨b.data.drop b.slen, (List.take_append_drop _ _).symm, by omega, by omega, by omega⟩

/-- The NUL behind a text, in a block with a byte for it. -/
theorem putNul_eq (hx : x = text.length) (hslack : 0 < slack.length) :
    ∃ rest, rest.length = slack.length ∧ rest[0]? = some 0 ∧
      putNul (text ++ slack) x = .ok ({ data := text ++ rest, slen := text.length }, BSTR_OK) := by
  obtain ⟨y, slack, rfl⟩ := List.exists_cons_of_ne_nil (List.ne_nil_of_length_pos hslack)
  subst hx
  have hcopy : copyTo (text ++ ([y] ++ slack)) text.length [0] = .ok (text ++ ([0] ++ slack)) :=
    copyTo_eq rfl rfl
  refine ⟨0 :: slack, rfl, rfl, ?_⟩
  rw [putNul, show text ++ y :: slack = text ++ ([y] ++ slack) from rfl, hcopy]
  rfl

/-- **The end of a call** that has made a text. -/
theorem putNul_made (hx : x = text.length) (hslack : 0 < slack.length)
    (hle : text.length + slack.length ≤ 2 * LIMIT) :
    ∃ out, putNul (text ++ slack) x = .ok out ∧ Made text out := by
  obtain ⟨rest, hrest, hnul, hcode⟩ := putNul_eq hx hslack
  refine ⟨_, hcode, rfl, List.take_left, ?_, ?_⟩
  · show (text ++ rest)[text.length]? = some 0
    rw [List.getElem?_append_right le_rfl, Nat.sub_self, hnul]
  · show (text ++ rest).length ≤ 2 * LIMIT
    rw [List.length_append, hrest]
    exact hle

/-! ## A bigger block

`balloc` asks for the next power of two, which is at most twice as much, or for just what is needed. So
the block behind it stays within bounds that depend on the text alone. -/

theorem or_shiftRight_lt {i k : ℕ} (n : ℕ) (h : i < 2 ^ k) : i ||| (i >>> n) < 2 ^ k :=
  Nat.or_lt_two_pow h (lt_of_le_of_lt (Nat.shiftRight_le i n) h)

/-- The next power of two is at most twice as much. -/
theorem snapUpSize_le {i : ℤ} (hmax : i ≤ INT_MAX) : snapUpSize i ≤ max 8 (2 * i) := by
  have hint : INT_MAX = 2147483647 := by decide
  unfold snapUpSize
  by_cases hi : i < 8
  · rw [if_pos hi]
    omega
  · obtain ⟨n, rfl⟩ := Int.eq_ofNat_of_zero_le (show 0 ≤ i by omega)
    rw [if_neg hi]
    -- the power of two above `n` is at most twice `n`
    have hpow : 2 ^ n.size ≤ 2 * n := by
      have hpos : 0 < n.size := Nat.size_pos.mpr (by omega)
      have hlow : 2 ^ (n.size - 1) ≤ n := Nat.lt_size.mp (by omega)
      calc 2 ^ n.size = 2 ^ (n.size - 1) * 2 := by rw [← Nat.pow_succ, Nat.succ_eq_add_one]; congr; omega
        _ ≤ n * 2 := Nat.mul_le_mul_right 2 hlow
        _ = 2 * n := Nat.mul_comm n 2
    have hn : (BitVec.ofInt 32 (n : ℤ)).toNat = n := by
      rw [BitVec.toNat_ofInt]
      omega
    have hlt : (BitVec.ofInt 32 (n : ℤ)).toNat < 2 ^ n.size := by
      rw [hn]
      exact Nat.lt_size_self n
    -- setting lower bits does not go beyond that power
    have hor : ∀ {j : BitVec 32} (k : ℕ), j.toNat < 2 ^ n.size →
        (j ||| (j >>> k)).toNat < 2 ^ n.size := by
      intro j k hj
      rw [BitVec.toNat_or, BitVec.toNat_ushiftRight]
      exact or_shiftRight_lt k hj
    have hall := hor 16 (hor 8 (hor 4 (hor 2 (hor 1 hlt))))
    simp only []
    split
    · rw [BitVec.toInt_eq_toNat_cond, BitVec.toNat_add, show (1 : BitVec 32).toNat = 1 from rfl]
      split <;> omega
    · omega

theorem snapUpSize_le_max {i : ℤ} (hmax : i ≤ INT_MAX) : snapUpSize i ≤ INT_MAX := by
  have hint : INT_MAX = 2147483647 := by decide
  unfold snapUpSize
  by_cases hi : i < 8
  · rw [if_pos hi]
    omega
  · rw [if_neg hi]
    simp only []
    split
    · rw [hint]
      exact Int.le_of_lt_add_one BitVec.toInt_lt
    · exact hmax

theorem withBlock_size {block : List UInt8} {out : Bstring × ℤ} (h : withBlock b block = .ok out) :
    out.1.slen = b.slen ∧ out.1.mlen = block.length := by
  obtain ⟨data, hcopy, hout⟩ := bind_eq_ok.mp h
  cases hout
  unfold copyTo at hcopy
  split at hcopy
  · next hfit =>
    cases hcopy
    rw [List.length_singleton] at hfit
    exact ⟨rfl, Replace.length_overwrite (by rw [List.length_singleton]; omega)⟩
  · cases hcopy

/-- Whichever of its sizes is granted, none is larger than the first. -/
theorem reallocStrategy_size {len olen : ℤ} {out : Bstring × ℤ} (hlen : olen ≤ len)
    (h : reallocStrategy m b len olen = .ok out) :
    out.1.slen = b.slen ∧ (out.1.mlen : ℤ) ≤ max (b.mlen : ℤ) len := by
  have hblock : ∀ size : ℤ, size ≤ len →
      ((b.data ++ m.bytes (size.toNat - b.mlen)).length : ℤ) ≤ max (b.mlen : ℤ) len := by
    intro size hsize
    have hdata : b.data.length = b.mlen := rfl
    rw [List.length_append, length_bytes, hdata]
    omega
  unfold reallocStrategy at h
  split at h
  · obtain ⟨hslen, hmlen⟩ := withBlock_size h
    exact ⟨hslen, hmlen ▸ hblock len le_rfl⟩
  · split at h
    · obtain ⟨hslen, hmlen⟩ := withBlock_size h
      exact ⟨hslen, hmlen ▸ hblock olen hlen⟩
    · cases h
      exact ⟨rfl, le_max_left _ _⟩

/-- How big the block can become. -/
theorem balloc_size {olen : ℤ} {out : Bstring × ℤ} (h : balloc m b olen = .ok out) :
    out.1.slen = b.slen ∧ (out.1.mlen : ℤ) ≤ max (b.mlen : ℤ) (snapUpSize olen) := by
  have hsnap := le_snapUpSize olen
  unfold balloc at h
  split at h
  · cases h
    exact ⟨rfl, le_max_left _ _⟩
  · next hvalid =>
    split at h
    · simp only [] at h
      split at h
      · cases h
        exact ⟨rfl, le_max_left _ _⟩
      · next hbig =>
        obtain ⟨used, -, h⟩ := bind_eq_ok.mp h
        obtain ⟨filled, -, h⟩ := bind_eq_ok.mp h
        split at h
        · exact reallocStrategy_size hsnap h
        · split at h
          · -- a new block is as long as it was asked for
            obtain ⟨hslen, hmlen⟩ := withBlock_size h
            refine ⟨hslen, ?_⟩
            have hdata : b.data.length = b.mlen := rfl
            rw [hmlen, List.length_append, length_bytes, Bstring.contents, List.length_take]
            omega
          · exact reallocStrategy_size hsnap h
    · cases h
      exact ⟨rfl, le_max_left _ _⟩

/-- **What follows a `balloc`** is done in a block that begins with the characters and has the room that
was asked for. -/
theorem grown_edited (hb : WellFormed b) {size : ℤ} (hlo : 0 < size) (hhi : size ≤ LIMIT)
    (hsize : b.mlen ≤ size → size = text.length + 1) {next : Bstring → Except Stop (Bstring × ℤ)}
    (h : ∀ slack, 0 < slack.length → size ≤ b.slen + slack.length →
      b.slen + slack.length ≤ 2 * LIMIT →
      ∃ out, next { data := b.contents ++ slack, slen := b.slen } = .ok out ∧
        Edited m asked b text out) :
    ∃ out, grown m b size next = .ok out ∧ Edited m asked b text out := by
  have hint : INT_MAX = 2147483647 := by decide
  have hlimit : LIMIT = 33554432 := rfl
  have hlen := hb.length_contents
  have hlt := hb.slen_lt
  obtain ⟨slack, hdata, hpos, hmax, hmlen⟩ := hb.data_eq
  unfold grown
  by_cases hold : size ≤ b.slen
  · -- there is room for the characters already
    have hballoc : balloc m b size = .ok (b, BSTR_OK) := by
      unfold balloc
      rw [if_neg (by omega), if_neg (by omega)]
      rfl
    rw [hballoc, ok_bind]
    have hsame : b = { data := b.contents ++ slack, slen := b.slen } := by
      rw [← hdata]
    obtain ⟨out, hnext, hout⟩ := h slack hpos (by omega) hmax
    rw [← hsame] at hnext
    exact ⟨out, hnext, hout⟩
  · obtain ⟨⟨b', rc⟩, hballoc, hgrown⟩ := balloc_spec (m := m) hlt (by omega) (not_le.mp hold)
    obtain ⟨-, hbound⟩ := balloc_size hballoc
    have hsnap := snapUpSize_le (show size ≤ INT_MAX by omega)
    rw [hballoc, ok_bind]
    rcases hgrown with ⟨rfl, hsame, hroom, hcontents⟩ | ⟨rfl, rfl, hge, hfull⟩
    · have hdrop : (b'.data.drop b'.slen).length = b'.mlen - b'.slen := List.length_drop
      have hb' : b' = { data := b.contents ++ b'.data.drop b'.slen, slen := b.slen } := by
        rw [← hcontents, Bstring.contents, List.take_append_drop, ← hsame]
      simp only at hbound
      obtain ⟨out, hnext, hout⟩ := h (b'.data.drop b'.slen) (by omega) (by omega) (by omega)
      rw [← hb'] at hnext
      exact ⟨out, hnext, hout⟩
    · exact ⟨_, rfl, Or.inr ⟨rfl, size, Or.inl (hsize hge), hfull⟩⟩

/-- **A copy into a text and the NUL behind it.** -/
theorem copied_edited (hx : x = p) (hp : p ≤ text.length) {e : ℤ}
    (he : e = max text.length (p + xs.length)) (hfit : e < text.length + slack.length)
    (hle : text.length + slack.length ≤ 2 * LIMIT) :
    ∃ out, (do
      let data ← bBlockCopy (text ++ slack) x xs
      putNul data e) = .ok out ∧ Edited m asked b (overwrite text p xs) out := by
  have hlen : (overwrite text p xs).length = _ := length_overwritten hp
  rw [bBlockCopy_text hx hp (by omega), ok_bind]
  obtain ⟨out, hend, hmade⟩ := putNul_made (show e = ((overwrite text p xs).length : ℤ) by omega)
    (show 0 < (slack.drop (p + xs.length - text.length)).length by rw [List.length_drop]; omega)
    (by rw [List.length_drop]; omega)
  exact ⟨out, hend, Or.inl hmade⟩

/-! ## What the functions are given

An argument that is a part of the string is known by its offset and length. As long as the part is
there, its bytes are the same in the block and in the text. -/

/-- The part of the string that an argument is, if it is one. -/
def Source.Within (b : Bstring) : Source → Prop
  | .other _ => True
  | .own ofs len => ofs + len ≤ b.slen

/-- The bytes of an argument, by the text. -/
def Source.of (text : List UInt8) : Source → List UInt8
  | .other bytes => bytes
  | .own ofs len => (text.drop ofs).take len

variable {src : Source}

theorem Source.bytes_eq (h : src.Within b) : src.bytes b = src.of b.contents := by
  cases src with
  | other bytes => rfl
  | own ofs len =>
    have hfit : ofs + len ≤ b.slen := h
    show (b.data.drop ofs).take len = ((b.data.take b.slen).drop ofs).take len
    rw [List.drop_take, List.take_take, Nat.min_eq_left (by omega)]

/-- What the copy of an argument asks for: a header and the bytes with a NUL. -/
def Source.asks : Source → Set ℤ
  | .other _ => ∅
  | .own _ len => {16, (len : ℤ) + 1}

theorem bstrcpy_cases (m : Memory) (bytes : List UInt8) :
    bstrcpy m bytes = some bytes ∨
      bstrcpy m bytes = none ∧
        ∃ size : ℤ, (size = 16 ∨ size = bytes.length + 1) ∧ m.room size = false := by
  unfold bstrcpy
  split
  · exact Or.inl rfl
  · next h =>
    right
    refine ⟨rfl, ?_⟩
    by_cases hhead : m.room 16 = true
    · refine ⟨bytes.length + 1, Or.inr rfl, ?_⟩
      exact Bool.eq_false_iff.mpr fun hroom => h ⟨hhead, Or.inr hroom⟩
    · exact ⟨16, Or.inl rfl, Bool.eq_false_iff.mpr hhead⟩

theorem Source.length_of {ofs len : ℕ} (h : (Source.own ofs len).Within b) (hs : b.slen ≤ b.mlen) :
    ((b.data.drop ofs).take len).length = len := by
  have hfit : ofs + len ≤ b.slen := h
  have hdata : b.data.length = b.mlen := rfl
  rw [List.length_take, List.length_drop]
  omega

theorem Source.aux_cases (hs : b.slen ≤ b.mlen) (h : src.Within b) :
    src.aux m b = some (src.of b.contents) ∨
      src.aux m b = none ∧ ∃ size ∈ src.asks, m.room size = false := by
  rw [← bytes_eq h]
  cases src with
  | other bytes => exact Or.inl rfl
  | own ofs len =>
    have hcopy := bstrcpy_cases m ((b.data.drop ofs).take len)
    rw [Source.length_of h hs] at hcopy
    exact hcopy

/-! ## The functions

One theorem a function: which text it makes, and which sizes it asks for. The proofs are the same
throughout: the sizes are `int`s, the block has room, and each copy is one of the copies above. -/

/-- One character more. -/
theorem bconchar_edited (hb : WellFormed b) (hfit : b.slen + 2 ≤ LIMIT) (c : UInt8) :
    ∃ out, bconchar m b c = .ok out ∧ Edited m asked b (b.contents ++ [c]) out := by
  have hint : INT_MAX = 2147483647 := by decide
  have hlimit : LIMIT = 33554432 := rfl
  have hlen := hb.length_contents
  have hlt := hb.slen_lt
  unfold bconchar
  rw [if_neg (by omega), cint_ok (by omega) (by omega), ok_bind]
  have htext : b.contents ++ [c] = overwrite b.contents b.slen [c] := by
    rw [← hlen, overwrite_end]
  rw [htext]
  have hsize : (b.slen : ℤ) + 2 = (overwrite b.contents b.slen [c]).length + 1 := by
    rw [← htext, List.length_append, List.length_singleton]
    omega
  refine grown_edited hb (by omega) (by omega) (fun _ => hsize) fun slack hpos hroom hmax => ?_
  -- one character is copied like a block of one
  have hcopied : ∃ out, (do
      let data ← bBlockCopy (b.contents ++ slack) b.slen [c]
      putNul data (b.slen + 1)) = .ok out ∧
        Edited m asked b (overwrite b.contents b.slen [c]) out := by
    refine copied_edited rfl hlen.ge ?_ ?_ ?_
    · rw [List.length_singleton]
      omega
    · omega
    · omega
  exact hcopied

/-- Both ways to `next` of `bcatblk` and `bconcat`. -/
theorem append_edited (hb : WellFormed b) (hmax : b.slen + slack.length ≤ 2 * LIMIT) {nl : ℤ}
    (hnl : nl = b.slen + s.length) (hroom : nl < b.slen + slack.length) :
    ∃ out, (do
      let data ← bBlockCopy (b.contents ++ slack) b.slen s
      putNul data nl) = .ok out ∧ Edited m asked b (b.contents ++ s) out := by
  have hlen := hb.length_contents
  have htext : b.contents ++ s = overwrite b.contents b.slen s := by
    rw [← hlen, overwrite_end]
  rw [htext]
  refine copied_edited rfl hlen.ge ?_ ?_ ?_ <;> omega

/-- A part of the string is not read again, or is empty. -/
theorem Source.reread_eq (h : ∀ ofs len, src = .own ofs len → len = 0) :
    src.reread = .ok (src.of text) := by
  cases src with
  | other bytes => rfl
  | own ofs len =>
    obtain rfl := h ofs len rfl
    rfl

/-- A part of the string needs a block with room for it at its end. -/
theorem bcatblk_edited (hb : WellFormed b) (hsrc : src.Within b)
    (hkeeps : ∀ ofs len, src = .own ofs len → len = 0 ∨ b.slen + len < b.mlen)
    (hfit : b.slen + (src.of b.contents).length < LIMIT) :
    ∃ out, bcatblk m b src = .ok out ∧
      Edited m asked b (b.contents ++ src.of b.contents) out := by
  have hint : INT_MAX = 2147483647 := by decide
  have hlimit : LIMIT = 33554432 := rfl
  have hlt := hb.slen_lt
  have hlen := hb.length_contents
  obtain ⟨slack, hdata, hpos, hmax, hmlen⟩ := hb.data_eq
  unfold bcatblk
  simp only []
  rw [if_neg (by omega), Source.bytes_eq hsrc, cint_ok (by omega) (by omega), ok_bind]
  by_cases hgrow : (b.mlen : ℤ) ≤ b.slen + (src.of b.contents).length
  · have hreread : src.reread = .ok (src.of b.contents) := by
      apply Source.reread_eq
      rintro ofs len rfl
      refine (hkeeps ofs len rfl).resolve_right ?_
      rw [← Source.bytes_eq hsrc] at hgrow
      have hown := Source.length_of hsrc hlt.le
      simp only [Source.bytes] at hgrow
      omega
    rw [if_pos hgrow, cint_ok (by omega) (by omega), ok_bind]
    refine grown_edited hb (by omega) (by omega) (fun _ => ?_) fun slack hpos hroom hmax => ?_
    · rw [List.length_append, hlen]
      push_cast
      rfl
    · rw [hreread, ok_bind]
      exact append_edited hb hmax rfl (by omega)
  · rw [if_neg hgrow, hdata]
    exact append_edited hb hmax rfl (by omega)

/-- A part of the string itself is copied before the block may move. -/
theorem bconcat_edited (hb : WellFormed b) (hsrc : src.Within b)
    (hfit : b.slen + (src.of b.contents).length < LIMIT) :
    ∃ out, bconcat m b src = .ok out ∧
      Edited m src.asks b (b.contents ++ src.of b.contents) out := by
  have hint : INT_MAX = 2147483647 := by decide
  have hlimit : LIMIT = 33554432 := rfl
  have hlt := hb.slen_lt
  have hlen := hb.length_contents
  obtain ⟨slack, hdata, hpos, hmax, hmlen⟩ := hb.data_eq
  unfold bconcat
  simp only []
  rw [if_neg (by omega), Source.bytes_eq hsrc, cint_ok (by omega) (by omega), ok_bind,
    cint_ok (by omega) (by omega), ok_bind]
  by_cases hgrow : (b.mlen : ℤ) ≤ b.slen + (src.of b.contents).length + 1
  · rw [if_pos hgrow]
    rcases Source.aux_cases (m := m) hlt.le hsrc with haux | ⟨haux, size, hasked, hfull⟩
    · rw [haux]
      refine grown_edited hb (by omega) (by omega) (fun _ => ?_) fun slack hpos hroom hmax =>
        append_edited hb hmax rfl (by omega)
      rw [List.length_append, hlen]
      push_cast
      rfl
    · -- no memory for the copy of what is a part of the string
      rw [haux]
      exact ⟨_, rfl, Or.inr ⟨rfl, size, Or.inr hasked, hfull⟩⟩
  · rw [if_neg hgrow, hdata]
    exact append_edited hb hmax rfl (by omega)

/-- A part of the string always fits where it is. -/
theorem bassignblk_edited (hb : WellFormed b) (hsrc : src.Within b)
    (hfit : (src.of b.contents).length < LIMIT) :
    ∃ out, bassignblk m b src = .ok out ∧ Edited m asked b (src.of b.contents) out := by
  have hint : INT_MAX = 2147483647 := by decide
  have hlimit : LIMIT = 33554432 := rfl
  have hlt := hb.slen_lt
  have hlen := hb.length_contents
  have hover : overwrite [] 0 (src.of b.contents) = src.of b.contents := overwrite_end
  -- the whole block is written over
  have hnext : ∀ data : List UInt8, (src.of b.contents).length < data.length →
      data.length ≤ 2 * LIMIT → ∃ out, (do
        let data ← bBlockCopy data 0 (src.of b.contents)
        putNul data (src.of b.contents).length) = .ok out ∧
          Edited m asked b (src.of b.contents) out := by
    intro data hroom hmax
    have hcopied : ∃ out, (do
        let data ← bBlockCopy ([] ++ data) 0 (src.of b.contents)
        putNul data (src.of b.contents).length) = .ok out ∧
          Edited m asked b (overwrite [] 0 (src.of b.contents)) out :=
      copied_edited rfl le_rfl (by simp) (by simpa using hroom) (by simpa using hmax)
    rw [hover] at hcopied
    exact hcopied
  unfold bassignblk
  simp only []
  rw [Source.bytes_eq hsrc, if_neg (by omega)]
  by_cases hgrow : (src.of b.contents).length + 1 > b.mlen
  · have hreread : src.reread = .ok (src.of b.contents) := by
      apply Source.reread_eq
      rintro ofs len rfl
      rw [← Source.bytes_eq hsrc] at hgrow
      have hown := Source.length_of hsrc hlt.le
      have hwithin : ofs + len ≤ b.slen := hsrc
      simp only [Source.bytes] at hgrow
      omega
    rw [if_pos hgrow]
    refine grown_edited hb (by omega) (by omega) (fun _ => rfl) fun slack hpos hroom hmax => ?_
    have hblock : (b.contents ++ slack).length = b.slen + slack.length := by
      rw [List.length_append, hlen]
    rw [hreread, ok_bind]
    exact hnext (b.contents ++ slack) (by omega) (by omega)
  · rw [if_neg hgrow]
    exact hnext b.data (by show (src.of b.contents).length < b.mlen; omega) hb.mlen_le

/-- What a function is given that can be a null pointer. -/
def argument (text : List UInt8) : Option Source → List UInt8
  | none => []
  | some src => src.of text

def argumentAsks : Option Source → Set ℤ
  | none => ∅
  | some src => src.asks

theorem auxOf_cases (hs : b.slen ≤ b.mlen) {b1 : Option Source} (h : ∀ src ∈ b1, src.Within b) :
    auxOf m b b1 = some (argument b.contents b1) ∨
      auxOf m b b1 = none ∧ ∃ size ∈ argumentAsks b1, m.room size = false := by
  cases b1 with
  | none => exact Or.inl rfl
  | some src => exact Source.aux_cases hs (h src rfl)

/-- The gap in front of `pos` is filled, and what is behind it overwritten. -/
theorem bsetstr_edited (hb : WellFormed b) {pos : ℕ} {b1 : Option Source}
    (hsrc : ∀ src ∈ b1, src.Within b) (hfit : pos + (argument b.contents b1).length < LIMIT)
    (fill : UInt8) :
    ∃ out, bsetstr m b pos b1 fill = .ok out ∧
      Edited m (argumentAsks b1) b
        (overwrite (padded b.contents pos fill) pos (argument b.contents b1)) out := by
  have hint : INT_MAX = 2147483647 := by decide
  have hlimit : LIMIT = 33554432 := rfl
  have hlt := hb.slen_lt
  have hlen := hb.length_contents
  have hpadded := length_padded b.contents pos fill
  unfold bsetstr
  rw [if_neg (by omega)]
  rcases auxOf_cases (m := m) hlt.le hsrc with haux | ⟨haux, size, hasked, hfull⟩
  · rw [haux]
    simp only []
    rw [cint_ok (by omega) (by omega), ok_bind, cint_ok (by omega) (by omega), ok_bind]
    refine grown_edited hb (by omega) (by omega) (fun hge => ?_) fun slack hpos hroom hmax => ?_
    · -- a text for which the block has to grow ends with the argument
      rw [length_overwritten (by omega)]
      omega
    -- first the string is made long enough
    have hfill : (if (pos : ℤ) > b.slen then fillUp (b.contents ++ slack) b.slen pos fill
        else .ok (b.contents ++ slack)) =
        .ok (padded b.contents pos fill ++ slack.drop (pos - b.slen)) := by
      by_cases hgap : (pos : ℤ) > b.slen
      · rw [if_pos hgap, ← hlen]
        exact fillUp_text (by omega) (by omega)
      · rw [if_neg hgap, padded, Nat.sub_eq_zero_of_le (show pos ≤ b.contents.length by omega),
          Nat.sub_eq_zero_of_le (show pos ≤ b.slen by omega), List.replicate_zero, List.append_nil,
          List.drop_zero]
    simp only []
    rw [hfill, ok_bind]
    refine copied_edited rfl ?_ ?_ ?_ ?_
    · omega
    · split <;> split <;> omega
    · rw [List.length_drop]
      split <;> split <;> omega
    · rw [List.length_drop]
      omega
  · rw [haux]
    exact ⟨_, rfl, Or.inr ⟨rfl, size, Or.inr hasked, hfull⟩⟩

/-- The text with `s` put in at `pos`. -/
def inserted (text : List UInt8) (pos : ℕ) (s : List UInt8) (fill : UInt8) : List UInt8 :=
  (padded text pos fill).take pos ++ (s ++ (padded text pos fill).drop pos)

/-- **A gap in the middle**: what stands behind it is moved up, and the gap is written over. -/
theorem opened_made {pos : ℕ} (hp : pos ≤ text.length) (hroom : s.length < slack.length)
    (hmax : text.length + slack.length ≤ 2 * LIMIT) :
    ∃ out, (do
      let moved ← copyFrom (text ++ slack) pos (text.length - pos)
      let data ← bBlockCopy (text ++ slack) (pos + s.length) moved
      let data ← bBlockCopy data pos s
      putNul data (text.length + s.length)) = .ok out ∧
      Made (text.take pos ++ (s ++ text.drop pos)) out := by
  have htake : (text.take pos).length = pos := by
    rw [List.length_take]
    exact Nat.min_eq_left hp
  have hdrop : (text.drop pos).length = text.length - pos := List.length_drop
  have hdata : text ++ slack = text.take pos ++ (text.drop pos ++ slack) := by
    rw [← List.append_assoc, List.take_append_drop]
  -- behind the start: as much as the gap, as much as is moved, and the rest
  obtain ⟨g, v, hgv, hg, hv⟩ : ∃ g v, text.drop pos ++ slack = g ++ v ∧ g.length = s.length ∧
      v.length + s.length = text.length - pos + slack.length := by
    refine ⟨_, _, (List.take_append_drop s.length _).symm, ?_, ?_⟩
    · rw [List.length_take, List.length_append, hdrop]
      omega
    · rw [List.length_drop, List.length_append, hdrop]
      omega
  obtain ⟨u, rest, rfl, hu⟩ : ∃ u rest, v = u ++ rest ∧ u.length = text.length - pos := by
    refine ⟨_, _, (List.take_append_drop (text.length - pos) v).symm, ?_⟩
    rw [List.length_take]
    omega
  rw [List.length_append] at hv
  have hmoved : copyFrom (text ++ slack) pos (text.length - pos) = .ok (text.drop pos) := by
    rw [hdata]
    exact copyFrom_eq (by omega) (by omega)
  have hopen : bBlockCopy (text ++ slack) (pos + s.length) (text.drop pos) =
      .ok (text.take pos ++ (g ++ (text.drop pos ++ rest))) := by
    rw [hdata, hgv, ← List.append_assoc]
    refine (bBlockCopy_eq ?_ (by omega)).trans (by rw [List.append_assoc])
    rw [List.length_append]
    omega
  have hcopy : bBlockCopy (text.take pos ++ (g ++ (text.drop pos ++ rest))) pos s =
      .ok (text.take pos ++ (s ++ text.drop pos) ++ rest) := by
    rw [bBlockCopy_eq (congrArg Nat.cast htake.symm) hg]
    simp only [List.append_assoc]
  have htext : (text.take pos ++ (s ++ text.drop pos)).length = text.length + s.length := by
    rw [List.length_append, List.length_append, htake, hdrop]
    omega
  rw [hmoved, ok_bind, hopen, ok_bind, hcopy, ok_bind]
  exact putNul_made (by rw [htext, Nat.cast_add]) (by omega) (by omega)

/-- The copy that `binsertblk` makes has no header and no NUL. -/
def Source.blockAsks : Source → Set ℤ
  | .other _ => ∅
  | .own _ len => {(len : ℤ)}

theorem length_inserted (text : List UInt8) (pos : ℕ) (s : List UInt8) (fill : UInt8) :
    (inserted text pos s fill).length = max text.length pos + s.length := by
  rw [inserted, List.length_append, List.length_append, List.length_take, List.length_drop,
    length_padded]
  omega

/-- The gap is filled, or what is behind `pos` moves up, and the block goes in between. -/
theorem binsertblk_edited (hb : WellFormed b) {pos : ℕ} (hsrc : src.Within b)
    (hfit : max b.slen pos + (src.of b.contents).length < LIMIT) (fill : UInt8) :
    ∃ out, binsertblk m b pos src fill = .ok out ∧
      Edited m src.blockAsks b (inserted b.contents pos (src.of b.contents) fill) out := by
  have hint : INT_MAX = 2147483647 := by decide
  have hlimit : LIMIT = 33554432 := rfl
  have hlt := hb.slen_lt
  have hlen := hb.length_contents
  have hpadded := length_padded b.contents pos fill
  unfold binsertblk
  simp only []
  rw [Source.bytes_eq hsrc, if_neg (by omega), cint_ok (by omega) (by omega), ok_bind,
    cint_ok (by omega) (by omega), ok_bind]
  -- a part of the string itself is copied first
  by_cases hfull : src.isOwn = true ∧ m.room (src.of b.contents).length = false
  · rw [if_pos hfull]
    refine ⟨_, rfl, Or.inr ⟨rfl, (src.of b.contents).length, Or.inr ?_, hfull.2⟩⟩
    cases src with
    | other bytes => cases hfull.1
    | own ofs len =>
      rw [← Source.bytes_eq hsrc]
      exact congrArg Nat.cast (Source.length_of hsrc hlt.le)
  · rw [if_neg hfull]
    by_cases hgap : (pos : ℤ) + (src.of b.contents).length > b.slen + (src.of b.contents).length
    · rw [if_pos hgap, cint_ok (by omega) (by omega), ok_bind]
      -- behind the end: the gap is filled, and the insertion is an overwriting
      have htext : inserted b.contents pos (src.of b.contents) fill =
          overwrite (padded b.contents pos fill) pos (src.of b.contents) := by
        have hpos : (padded b.contents pos fill).length = pos := by omega
        rw [inserted, overwrite, List.take_of_length_le hpos.le, List.drop_eq_nil_of_le hpos.le,
          List.drop_eq_nil_of_le (by omega), List.append_nil, List.append_nil]
      have hsize := length_inserted b.contents pos (src.of b.contents) fill
      rw [htext] at hsize ⊢
      refine grown_edited hb (by omega) (by omega) (fun _ => by omega) fun slack hpos hroom hmax => ?_
      have hfill : fillUp (b.contents ++ slack) b.contents.length pos fill = _ :=
        fillUp_text (by omega) (by omega)
      rw [hlen] at hfill
      simp only []
      rw [hfill, ok_bind]
      refine copied_edited rfl ?_ ?_ ?_ ?_
      · omega
      · omega
      · rw [List.length_drop]
        omega
      · rw [List.length_drop]
        omega
    · have hsize := length_inserted b.contents pos (src.of b.contents) fill
      rw [if_neg hgap, cint_ok (by omega) (by omega), ok_bind]
      refine grown_edited hb (by omega) (by omega) (fun _ => by omega) fun slack hpos hroom hmax => ?_
      have hcount : (b.slen : ℤ) + (src.of b.contents).length - (pos + (src.of b.contents).length) =
          b.slen - pos := by
        omega
      -- inside the string: what is behind `pos` moves up
      have hpadnil : padded b.contents pos fill = b.contents := by
        rw [padded, Nat.sub_eq_zero_of_le (by omega), List.replicate_zero, List.append_nil]
      have hopened := opened_made (show pos ≤ b.contents.length by omega)
        (show (src.of b.contents).length < slack.length by omega) (by omega)
      obtain ⟨out, hcode, hmade⟩ := hopened
      rw [hlen] at hcode
      refine ⟨out, ?_, Or.inl (by rw [inserted, hpadnil]; exact hmade)⟩
      simp only []
      rw [hcount]
      exact hcode

end Lcthw.Bstrlib
