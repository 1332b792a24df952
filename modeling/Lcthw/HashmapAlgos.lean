import Lcthw.Hashmap.Defs

/-!
# Lcthw — hash functions (`hashmap_algos.c`)

The loops fetch their bytes with `bchare`, so a byte is an unsigned one. The loop of `default_hash` in
`hashmap.c` takes the same bytes through a `char *`, and a byte from 128 on is mixed in 256 smaller.

* **`defaultHash_agrees`**: the two `default_hash` agree where no byte is that great, and differ where
  one is. Every step from there on can be undone (`mix_inj`, `finish_inj`).
* **`adler32Hash_eq`**: `Hashmap_adler32_hash` is a sum and a weighted sum of the bytes, modulo 65521.
-/

namespace Lcthw.HashmapAlgos

/-- `bchare(s, p, 0)`, as it takes part in the arithmetic of a hash. -/
def bchare (s : List CChar) (p : ℕ) : UInt32 :=
  match s[p]? with
  | some c => c.toUInt8.toUInt32
  | none => 0

def MOD_ADLER : UInt32 := 65521

/-- The body of the loop of `Hashmap_adler32_hash`, on `a` and `b`. -/
def adlerStep (s : List CChar) (ab : UInt32 × UInt32) (i : ℕ) : UInt32 × UInt32 :=
  let a := (ab.1 + bchare s i) % MOD_ADLER
  let b := (ab.2 + a) % MOD_ADLER
  (a, b)

/-- `a` and `b` after `r` rounds of the loop. -/
def adlerRounds (s : List CChar) (r : ℕ) : UInt32 × UInt32 :=
  (List.range r).foldl (adlerStep s) (1, 0)

/-- `Hashmap_adler32_hash` -/
def adler32Hash (s : List CChar) : UInt32 :=
  let ab := adlerRounds s s.length
  (ab.2 <<< 16) ||| ab.1

/-- The body of the loop of `default_hash`. -/
def mix (hash byte : UInt32) : UInt32 :=
  let hash := hash + byte
  let hash := hash + (hash <<< 10)
  hash ^^^ (hash >>> 6)

/-- What `default_hash` does behind its loop. -/
def finish (hash : UInt32) : UInt32 :=
  let hash := hash + (hash <<< 3)
  let hash := hash ^^^ (hash >>> 11)
  hash + (hash <<< 15)

/-- `default_hash`, the one of `hashmap_algos.c`. -/
def defaultHash (s : List CChar) : UInt32 :=
  finish ((List.range s.length).foldl (fun hash i => mix hash (bchare s i)) 0)

/-! ## Steps that can be undone

Every step of the loop of `default_hash` maps different numbers to different numbers. So once two loops
have taken different numbers they do not meet again, as long as they take the same bytes from there on. -/

variable {x y k : UInt32} {hash hash' : UInt32} {s l r : List CChar} {c : CChar} {i n : ℕ}

/-- A number and a left shift of it make an odd multiple. -/
theorem add_shiftLeft_inj (hk : 0 < k.toNat) (hlt : k.toNat < 32)
    (h : x + x <<< k = y + y <<< k) : x = y := by
  have hmul : ∀ z : UInt32, (z + z <<< k).toNat = z.toNat * (1 + 2 ^ k.toNat) % 2 ^ 32 := by
    intro z
    rw [UInt32.toNat_add, UInt32.toNat_shiftLeft, Nat.mod_eq_of_lt hlt, Nat.shiftLeft_eq,
      Nat.add_mod_mod]
    congr 1
    ring
  have hmod : x.toNat * (1 + 2 ^ k.toNat) ≡ y.toNat * (1 + 2 ^ k.toNat) [MOD 2 ^ 32] := by
    show _ % _ = _ % _
    rw [← hmul, ← hmul, h]
  have hodd : Odd (1 + 2 ^ k.toNat) := by
    apply odd_one.add_even
    exact (Nat.even_pow.mpr ⟨even_two, hk.ne'⟩)
  have hcoprime : Nat.Coprime (2 ^ 32) (1 + 2 ^ k.toNat) :=
    Nat.Coprime.pow_left 32 (Nat.coprime_two_left.mpr hodd)
  have heq : x.toNat ≡ y.toNat [MOD 2 ^ 32] :=
    Nat.ModEq.cancel_right_of_coprime hcoprime hmod
  apply UInt32.toNat_inj.mp
  have hx := x.toNat_lt
  have hy := y.toNat_lt
  have hmod' : x.toNat % 2 ^ 32 = y.toNat % 2 ^ 32 := heq
  rwa [Nat.mod_eq_of_lt hx, Nat.mod_eq_of_lt hy] at hmod'

/-- The high bits are kept as they are, and give the lower ones back. -/
theorem xor_shiftRight_inj (hk : 0 < k.toNat) (hlt : k.toNat < 32)
    (h : x ^^^ x >>> k = y ^^^ y >>> k) : x = y := by
  have hnat := congrArg UInt32.toNat h
  rw [UInt32.toNat_xor, UInt32.toNat_xor, UInt32.toNat_shiftRight, UInt32.toNat_shiftRight,
    Nat.mod_eq_of_lt hlt] at hnat
  -- what the two differ in is its own shift, so it is nothing
  have hself : x.toNat ^^^ y.toNat = (x.toNat ^^^ y.toNat) >>> k.toNat := by
    rw [Nat.shiftRight_xor_distrib]
    have hxor : (x.toNat ^^^ x.toNat >>> k.toNat) ^^^ (y.toNat ^^^ y.toNat >>> k.toNat) = 0 := by
      rw [hnat, Nat.xor_self]
    apply Nat.xor_eq_zero_iff.mp
    rw [← hxor]
    ac_rfl
  have hzero : x.toNat ^^^ y.toNat = 0 := by
    by_contra hne
    have hdiv : (x.toNat ^^^ y.toNat) / 2 ^ k.toNat < x.toNat ^^^ y.toNat :=
      Nat.div_lt_self (Nat.pos_of_ne_zero hne) (Nat.one_lt_two_pow hk.ne')
    rw [← Nat.shiftRight_eq_div_pow, ← hself] at hdiv
    exact absurd hdiv (lt_irrefl _)
  exact UInt32.toNat_inj.mp (Nat.xor_eq_zero_iff.mp hzero)

theorem mix_inj (h : mix hash x = mix hash' y) : hash + x = hash' + y := by
  apply add_shiftLeft_inj (k := 10) (by decide) (by decide)
  exact xor_shiftRight_inj (k := 6) (by decide) (by decide) h

theorem finish_inj (h : finish x = finish y) : x = y := by
  apply add_shiftLeft_inj (k := 3) (by decide) (by decide)
  apply xor_shiftRight_inj (k := 11) (by decide) (by decide)
  exact add_shiftLeft_inj (k := 15) (by decide) (by decide) h

/-! ## The two `default_hash`

Both functions fold the same step over their bytes. They differ in the numbers that they make of a byte:
from 128 on one of them has it 256 smaller. -/

theorem bchare_eq (h : s[i]? = some c) : bchare s i = c.toUInt8.toUInt32 := by
  unfold bchare
  rw [h]

theorem map_bchare (s : List CChar) :
    (List.range s.length).map (bchare s) = s.map fun c => c.toUInt8.toUInt32 := by
  apply List.ext_getElem
  · simp
  · intro i hi hi'
    rw [List.length_map] at hi'
    rw [List.getElem_map, List.getElem_map, List.getElem_range]
    exact bchare_eq (List.getElem?_eq_getElem hi')

theorem defaultHash_eq_foldl (s : List CChar) :
    defaultHash s = finish (s.foldl (fun hash c => mix hash c.toUInt8.toUInt32) 0) := by
  unfold defaultHash
  rw [← List.foldl_map (f := bchare s), map_bchare, List.foldl_map]

theorem hashmap_defaultHash_eq_foldl (s : List CChar) :
    Hashmap.defaultHash s = finish (s.foldl (fun hash c => mix hash c.toInt32.toUInt32) 0) := rfl

/-- A byte below 128 is the same number either way, and no other is. -/
theorem byte_eq_iff (c : CChar) : c.toInt32.toUInt32 = c.toUInt8.toUInt32 ↔ 0 ≤ c := by
  have hall : ∀ b : BitVec 8, (Int8.ofBitVec b).toInt32.toUInt32 = (Int8.ofBitVec b).toUInt8.toUInt32 ↔
      0 ≤ Int8.ofBitVec b := by
    decide
  exact hall c.toBitVec

theorem foldl_mix_eq (h : ∀ c ∈ s, 0 ≤ c) (hash : UInt32) :
    s.foldl (fun hash c => mix hash c.toInt32.toUInt32) hash =
      s.foldl (fun hash c => mix hash c.toUInt8.toUInt32) hash := by
  apply List.foldl_ext
  intro hash c hc
  rw [(byte_eq_iff c).mpr (h c hc)]

theorem foldl_mix_inj (b : CChar → UInt32)
    (h : s.foldl (fun hash c => mix hash (b c)) hash = s.foldl (fun hash c => mix hash (b c)) hash') :
    hash = hash' := by
  induction s generalizing hash hash' with
  | nil => exact h
  | cons c s ih =>
    have hadd : hash + b c = hash' + b c := mix_inj (ih h)
    exact (UInt32.add_left_inj (b c)).mp hadd

/-- **The two `default_hash` agree on the bytes below 128**, and differ when one byte is above them. -/
theorem defaultHash_agrees (s : List CChar) :
    ((∀ c ∈ s, 0 ≤ c) → Hashmap.defaultHash s = defaultHash s) ∧
      ∀ l c r, s = l ++ c :: r → (∀ d ∈ l ++ r, 0 ≤ d) → c < 0 →
        Hashmap.defaultHash s ≠ defaultHash s := by
  rw [hashmap_defaultHash_eq_foldl, defaultHash_eq_foldl]
  constructor
  · intro hlow
    rw [foldl_mix_eq hlow]
  · rintro l c r rfl hlow hc heq
    have hfold := finish_inj heq
    have hl : ∀ d ∈ l, 0 ≤ d := fun d hd => hlow d (List.mem_append_left r hd)
    have hr : ∀ d ∈ r, 0 ≤ d := fun d hd => hlow d (List.mem_append_right l hd)
    rw [List.foldl_append, List.foldl_append, List.foldl_cons, List.foldl_cons, foldl_mix_eq hl,
      foldl_mix_eq hr] at hfold
    have hmix := mix_inj (foldl_mix_inj (fun c => c.toUInt8.toUInt32) hfold)
    have hbyte := (byte_eq_iff c).mp ((UInt32.add_right_inj _).mp hmix)
    exact absurd hbyte (not_le.mpr hc)

theorem defaultHash_differs : Hashmap.defaultHash [-128] ≠ defaultHash [-128] := by
  decide

/-- Two great bytes can make up for each other. -/
example : Hashmap.defaultHash [97, 103, 91, 74, -73, 88, 95, 102, -56] =
    defaultHash [97, 103, 91, 74, -73, 88, 95, 102, -56] := by
  decide

/-! ## Adler-32

The loop keeps two sums that are reduced in every round. No addition wraps, because both summands are
below the modulus or a byte; so the sums are the sums of the definition of Adler-32, modulo 65521. -/

theorem bchare_lt (s : List CChar) (i : ℕ) : (bchare s i).toNat < 256 := by
  unfold bchare
  cases s[i]? with
  | none => decide
  | some c =>
    show c.toUInt8.toUInt32.toNat < 256
    rw [UInt8.toNat_toUInt32]
    exact c.toUInt8.toNat_lt

/-- A round on numbers that are reduced wraps nowhere. -/
theorem adlerStep_toNat {ab : UInt32 × UInt32} (ha : ab.1.toNat < 65521) (hb : ab.2.toNat < 65521) :
    (adlerStep s ab i).1.toNat = (ab.1.toNat + (bchare s i).toNat) % 65521 ∧
      (adlerStep s ab i).2.toNat = (ab.2.toNat + (adlerStep s ab i).1.toNat) % 65521 := by
  have hbyte := bchare_lt s i
  have hfst : (adlerStep s ab i).1.toNat = (ab.1.toNat + (bchare s i).toNat) % 65521 := by
    show ((ab.1 + bchare s i) % MOD_ADLER).toNat = _
    have hlt : ab.1.toNat + (bchare s i).toNat < 2 ^ 32 := by omega
    rw [UInt32.toNat_mod, UInt32.toNat_add, Nat.mod_eq_of_lt hlt]
    rfl
  refine ⟨hfst, ?_⟩
  show ((ab.2 + (adlerStep s ab i).1) % MOD_ADLER).toNat = _
  have hlt : ab.2.toNat + (adlerStep s ab i).1.toNat < 2 ^ 32 := by omega
  rw [UInt32.toNat_mod, UInt32.toNat_add, Nat.mod_eq_of_lt hlt]
  rfl

theorem adlerRounds_succ (s : List CChar) (n : ℕ) :
    adlerRounds s (n + 1) = adlerStep s (adlerRounds s n) n := by
  unfold adlerRounds
  rw [List.range_succ, List.foldl_append]
  rfl

/-- **The rounds are a sum and a weighted sum.** -/
theorem adlerRounds_toNat (s : List CChar) (n : ℕ) :
    (adlerRounds s n).1.toNat = (1 + ∑ i ∈ Finset.range n, (bchare s i).toNat) % 65521 ∧
      (adlerRounds s n).2.toNat =
        (n + ∑ i ∈ Finset.range n, (n - i) * (bchare s i).toNat) % 65521 := by
  induction n with
  | zero => exact ⟨rfl, rfl⟩
  | succ n ih =>
    obtain ⟨iha, ihb⟩ := ih
    have ha : (adlerRounds s n).1.toNat < 65521 := iha ▸ Nat.mod_lt _ (by decide)
    have hb : (adlerRounds s n).2.toNat < 65521 := ihb ▸ Nat.mod_lt _ (by decide)
    obtain ⟨hstepa, hstepb⟩ := adlerStep_toNat (s := s) (i := n) ha hb
    -- every weight grows by one, so the weighted sum grows by the sum
    have hweights : ∑ i ∈ Finset.range (n + 1), (n + 1 - i) * (bchare s i).toNat =
        ∑ i ∈ Finset.range n, (n - i) * (bchare s i).toNat +
          ∑ i ∈ Finset.range (n + 1), (bchare s i).toNat := by
      rw [Finset.sum_range_succ, Finset.sum_range_succ (fun i => (bchare s i).toNat), ← add_assoc,
        ← Finset.sum_add_distrib]
      congr 1
      · apply Finset.sum_congr rfl
        intro i hi
        have hlt := Finset.mem_range.mp hi
        rw [show n + 1 - i = n - i + 1 by omega]
        ring
      · rw [show n + 1 - n = 1 by omega, one_mul]
    rw [adlerRounds_succ, hstepb, hstepa, iha, ihb, hweights, Finset.sum_range_succ]
    constructor
    · omega
    · omega

/-- A half that fits loses no bit in the shift. -/
theorem toNat_join (hx : x.toNat < 2 ^ 16) : ((x <<< 16) ||| y).toNat = x.toNat <<< 16 ||| y.toNat := by
  have h16 : (16 : UInt32).toNat % 32 = 16 := by decide
  have hshift : x.toNat <<< 16 < 2 ^ 32 := by
    rw [Nat.shiftLeft_eq]
    omega
  rw [UInt32.toNat_or, UInt32.toNat_shiftLeft, h16, Nat.mod_eq_of_lt hshift]

/-- **`Hashmap_adler32_hash` is Adler-32**: `B << 16 | A`, in two halves that do not overlap, and no
sum on the way there wraps. -/
theorem adler32Hash_eq (s : List CChar) :
    (adler32Hash s).toNat =
        ((s.length + ∑ i : Fin s.length, (s.length - i) * s[i].toUInt8.toNat) % 65521) <<< 16 |||
          (1 + ∑ i : Fin s.length, s[i].toUInt8.toNat) % 65521 ∧
      (s.length + ∑ i : Fin s.length, (s.length - i) * s[i].toUInt8.toNat) % 65521 < 2 ^ 16 ∧
      (1 + ∑ i : Fin s.length, s[i].toUInt8.toNat) % 65521 < 2 ^ 16 ∧
      ∀ n < s.length, (adlerRounds s n).1.toNat + (bchare s n).toNat < 2 ^ 32 ∧
        (adlerRounds s n).2.toNat + (adlerRounds s (n + 1)).1.toNat < 2 ^ 32 := by
  have hbyte : ∀ i : Fin s.length, s[i].toUInt8.toNat = (bchare s i).toNat := by
    intro i
    rw [bchare_eq (List.getElem?_eq_getElem i.isLt), UInt8.toNat_toUInt32]
    rfl
  -- both sums are remainders after every byte, so nothing ever wraps around
  have hlt : ∀ n, (adlerRounds s n).1.toNat < 65521 ∧ (adlerRounds s n).2.toNat < 65521 := by
    intro n
    rw [(adlerRounds_toNat s n).1, (adlerRounds_toNat s n).2]
    exact ⟨Nat.mod_lt _ (by decide), Nat.mod_lt _ (by decide)⟩
  obtain ⟨ha, hb⟩ := adlerRounds_toNat s s.length
  simp only [hbyte]
  rw [Fin.sum_univ_eq_sum_range (fun i => (bchare s i).toNat),
    Fin.sum_univ_eq_sum_range (fun i => (s.length - i) * (bchare s i).toNat), ← ha, ← hb]
  obtain ⟨hlta, hltb⟩ := hlt s.length
  refine ⟨?_, by omega, by omega, fun n hn => ?_⟩
  · exact toNat_join (by omega)
  · have hbound := bchare_lt s n
    obtain ⟨hltn, hltn'⟩ := hlt n
    obtain ⟨hlts, -⟩ := hlt (n + 1)
    constructor
    · omega
    · omega

end Lcthw.HashmapAlgos
