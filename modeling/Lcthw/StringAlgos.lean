import Lcthw.Base
import Lcthw.Horspool

/-!
# Lcthw — `String_find` (`string_algos.c`)

A bstring is the list of its bytes. The skip table and the flag that says whether it has been filled
are static, so they are the state that `find` passes on from one call to the next.

* **`setupSkipchars_spec`**: the table a needle fills holds the needle's shifts.
* **`search_leftmost`**: with a table that holds no more than the shifts the search ends, at the
  leftmost occurrence.
* **`search_misses`**: with any other table it misses that occurrence in some text.
* **`find_stable_iff`**: calls are independent of each other exactly when the first needle fills the
  table with skips that suit all later needles.
-/

namespace Lcthw.StringAlgos

open Horspool

/-! ## The code

The table has 256 entries, of which the first loop of the source fills 255. The search reads it by
unsigned bytes and the second loop writes it by plain `char`s; an index out of bounds is a fault. -/

/-- The bytes of a string literal. -/
def bytes (s : String) : List UInt8 :=
  s.toList.map fun c => c.toNat.toUInt8

def UCHAR_MAX : UInt8 := 255

/-- `String_setup_skipchars`: the last entry of the table is never written, and the needle is read
as plain `char`, so that a byte from 128 on is a negative index. -/
def setupSkipchars (needle : List UInt8) (skip : UInt8 → ℕ) : Except Fault (UInt8 → ℕ) :=
  let last := needle.length - 1
  (List.range last).foldlM
    (fun skip i =>
      let c := needle.getD i 0
      if c.toInt8 < 0 then .error .outOfBounds else .ok (Function.update skip c (last - i)))
    (fun c => if c < UCHAR_MAX then needle.length else skip c)

/-- The inner loop: compare from offset `i` down to the first character. -/
def compareDown (haystack needle : List UInt8) (pos : ℕ) : ℕ → Bool
  | 0 => haystack[pos + 0]? = needle[0]?
  | i + 1 => haystack[pos + (i + 1)]? = needle[i + 1]? && compareDown haystack needle pos i

/-- The outer loop, with `hlen` bytes left from `pos` on; `none` when the fuel runs out. -/
def search (skip : UInt8 → ℕ) (haystack needle : List UInt8) :
    ℕ → ℕ → ℤ → Option (Option ℕ)
  | 0, _, _ => none
  | fuel + 1, pos, hlen =>
    if hlen > needle.length then
      if compareDown haystack needle pos (needle.length - 1) then
        some (some pos)
      else
        let n := skip (haystack.getD (pos + (needle.length - 1)) 0)
        search skip haystack needle fuel (pos + n) (hlen - n)
    else
      some none

/-- `String_base_search`. Unless a skip is zero the loop is left after as many rounds as the
haystack has bytes. -/
def baseSearch (skip : UInt8 → ℕ) (haystack needle : List UInt8) : Option (Option ℕ) :=
  if needle.length > 0 ∧ haystack.length > 0 then
    search skip haystack needle (haystack.length + 1) 0 haystack.length
  else
    some none

/-- The static variables of `String_find`. -/
structure Finder where
  set : Bool
  skipChars : UInt8 → ℕ

def Finder.init : Finder :=
  { set := false, skipChars := fun _ => 0 }

/-- `String_find`: only the first call fills the table. The result is `none` when the search does
not end. -/
def find (st : Finder) (inp what : List UInt8) : Except Fault (Finder × Option ℤ) := do
  let st ←
    if st.set then
      pure st
    else do
      let skipChars ← setupSkipchars what st.skipChars
      pure { set := true, skipChars }
  return (st, (baseSearch st.skipChars inp what).map fun
    | some pos => (pos : ℤ)
    | none => -1)

/-- The results of a program's calls, each with its haystack and its needle. -/
def findAll : Finder → List (List UInt8 × List UInt8) → Except Fault (List (Option ℤ))
  | _, [] => return []
  | st, (inp, what) :: calls => do
    let (st, r) ← find st inp what
    let rs ← findAll st calls
    return r :: rs

/-! ## The table

The second loop goes through the needle without its last character and records for each character how
far it is from the end. The record after `k` rounds is that of the first `k` characters, and at the end
it is the shift. -/

/-- A nonempty ASCII string. -/
def Text (s : List UInt8) : Prop :=
  s ≠ [] ∧ ∀ c ∈ s, c < 128

instance (s : List UInt8) : Decidable (Text s) :=
  inferInstanceAs (Decidable (_ ∧ _))

/-- What the table holds for `c` once the needle has been read up to position `k`. -/
def Recorded (needle : List UInt8) (c : UInt8) (k n : ℕ) : Prop :=
  (n = needle.length ∧ ∀ j, j < k → needle[j]? ≠ some c) ∨
    ∃ j, j < k ∧ needle[j]? = some c ∧ n = needle.length - 1 - j ∧
      ∀ i, j < i → i < k → needle[i]? ≠ some c

theorem toInt8_nonneg {c : UInt8} (hc : c < 128) : ¬ c.toInt8 < 0 := by
  have hlt : c.toNat < 128 := UInt8.lt_iff_toNat_lt.mp hc
  have hint : c.toInt8.toInt = c.toNat := by
    show c.toBitVec.toInt = c.toNat
    rw [BitVec.toInt_eq_toNat_of_lt]
    · rfl
    · show 2 * c.toNat < 2 ^ 8
      omega
  rw [Int8.lt_iff_toInt_lt, hint]
  show ¬ (c.toNat : ℤ) < 0
  omega

/-- Reading one more character keeps the table's record. -/
theorem Recorded.step {needle : List UInt8} {c : UInt8} {k : ℕ} {skip : UInt8 → ℕ}
    (hk : k < needle.length) (h : Recorded needle c k (skip c)) :
    Recorded needle c (k + 1)
      (Function.update skip (needle.getD k 0) (needle.length - 1 - k) c) := by
  have hget : needle[k]? = some (needle.getD k 0) := by
    rw [List.getD_eq_getElem?_getD, List.getElem?_eq_getElem hk]
    rfl
  -- a later place of a character takes the entry from an earlier one
  by_cases hc : needle.getD k 0 = c
  · subst hc
    rw [Function.update_self]
    exact .inr ⟨k, by omega, hget, rfl, fun i hi hik => by omega⟩
  · have hmiss : needle[k]? ≠ some c := by
      intro heq
      rw [hget] at heq
      exact hc (Option.some.inj heq)
    rw [Function.update_of_ne (fun h => hc h.symm)]
    rcases h with ⟨hn, hnone⟩ | ⟨j, hj, hjc, hn, hlast⟩
    · refine .inl ⟨hn, fun j hj => ?_⟩
      rcases Nat.lt_succ_iff_lt_or_eq.mp hj with hlt | rfl
      · exact hnone j hlt
      · exact hmiss
    · refine .inr ⟨j, by omega, hjc, hn, fun i hi hik => ?_⟩
      rcases Nat.lt_succ_iff_lt_or_eq.mp hik with hlt | rfl
      · exact hlast i hi hlt
      · exact hmiss

/-- The record of a needle without its last character is its shift. -/
theorem Recorded.isShift {needle : List UInt8} {c : UInt8} {n : ℕ} (hne : needle ≠ [])
    (h : Recorded needle c (needle.length - 1) n) : IsShift needle c n := by
  have hpos : 0 < needle.length := List.length_pos_iff.mpr hne
  rcases h with ⟨rfl, hnone⟩ | ⟨j, hj, hjc, rfl, hlast⟩
  · exact ⟨hpos, le_rfl, fun hlt => absurd hlt (lt_irrefl _), fun e he hel => hnone _ (by omega)⟩
  · refine ⟨by omega, by omega, fun _ => ?_, fun e he hel => hlast _ (by omega) (by omega)⟩
    rwa [show needle.length - 1 - (needle.length - 1 - j) = j by omega]

/-- The first `k` rounds of the second loop. -/
theorem setup_rounds {needle : List UInt8} (skip : UInt8 → ℕ) {k : ℕ} (hk : k ≤ needle.length - 1)
    (hlow : ∀ i, i < k → needle.getD i 0 < 128) :
    ∃ table, (List.range k).foldlM (m := Except Fault)
        (fun skip i =>
          let c := needle.getD i 0
          if c.toInt8 < 0 then .error .outOfBounds
          else .ok (Function.update skip c (needle.length - 1 - i)))
        (fun c => if c < UCHAR_MAX then needle.length else skip c) = .ok table ∧
      table UCHAR_MAX = skip UCHAR_MAX ∧
      ∀ c : UInt8, c < UCHAR_MAX → Recorded needle c k (table c) := by
  induction k with
  | zero => exact ⟨_, rfl, rfl, fun c hc => .inl ⟨if_pos hc, fun j hj => absurd hj (Nat.not_lt_zero j)⟩⟩
  | succ k ih =>
    obtain ⟨table, htable, hlast, hrec⟩ := ih (by omega) fun i hi => hlow i (by omega)
    have hk' := hlow k (Nat.lt_succ_self k)
    have hne : UCHAR_MAX ≠ needle.getD k 0 := by
      rintro heq
      rw [← heq] at hk'
      exact absurd hk' (by decide)
    refine ⟨Function.update table (needle.getD k 0) (needle.length - 1 - k), ?_, ?_,
      fun c hc => (hrec c hc).step (by omega)⟩
    · rw [List.range_succ, List.foldlM_append, htable, ok_bind, List.foldlM_cons]
      simp only [if_neg (toInt8_nonneg hk'), ok_bind]
      rfl
    · rw [Function.update_of_ne hne, hlast]

/-- **The table of a needle holds its shifts**, if the needle is ASCII up to its last character: all
but the last entry, which stays as it was. -/
theorem setupSkipchars_table {needle : List UInt8} (hne : needle ≠ [])
    (hlow : ∀ i, i < needle.length - 1 → needle.getD i 0 < 128) (skip : UInt8 → ℕ) :
    ∃ table, setupSkipchars needle skip = .ok table ∧ table UCHAR_MAX = skip UCHAR_MAX ∧
      ∀ c : UInt8, c < UCHAR_MAX → IsShift needle c (table c) := by
  obtain ⟨table, htable, hlast, hrec⟩ := setup_rounds skip le_rfl hlow
  exact ⟨table, htable, hlast, fun c hc => (hrec c hc).isShift hne⟩

theorem Text.getD_lt {s : List UInt8} (hs : Text s) (i : ℕ) : s.getD i 0 < 128 := by
  rw [List.getD_eq_getElem?_getD]
  cases hi : s[i]? with
  | none => exact (by decide : (0 : UInt8) < 128)
  | some c => exact hs.2 c (List.mem_of_getElem? hi)

theorem lt_uchar_max {c : UInt8} (hc : c < 128) : c < UCHAR_MAX :=
  UInt8.lt_trans hc (by decide)

/-- The table of an ASCII needle on ASCII characters, whatever the table held before. -/
theorem setupSkipchars_spec {needle : List UInt8} (ht : Text needle) (skip : UInt8 → ℕ) :
    ∃ table, setupSkipchars needle skip = .ok table ∧
      ∀ c : UInt8, c < 128 → IsShift needle c (table c) := by
  obtain ⟨table, htable, -, hshift⟩ := setupSkipchars_table ht.1 (fun i _ => ht.getD_lt i) skip
  exact ⟨table, htable, fun c hc => hshift c (lt_uchar_max hc)⟩

/-! ## The search

A search with any table is a walk from window to window. When no entry is more than the shift it misses
nothing; when one is, there is a text in which it does, and this is what makes the condition exact. -/

/-- The inner loop looks whether the characters agree at the offsets up to `i`. -/
theorem compareDown_iff (h w : List UInt8) (p i : ℕ) :
    compareDown h w p i = true ↔ ∀ j, j ≤ i → h[p + j]? = w[j]? := by
  induction i with
  | zero =>
    rw [compareDown, decide_eq_true_iff]
    exact ⟨fun h j hj => by rw [Nat.le_zero.mp hj]; exact h, fun h => h 0 le_rfl⟩
  | succ i ih =>
    rw [compareDown, Bool.and_eq_true, decide_eq_true_iff, ih]
    constructor
    · rintro ⟨hi, hrest⟩ j hj
      rcases Nat.le_succ_iff.mp hj with hle | rfl
      · exact hrest j hle
      · exact hi
    · intro h
      exact ⟨h (i + 1) le_rfl, fun j hj => h j (by omega)⟩

theorem compareDown_occurs {h w : List UInt8} (hw : w ≠ []) (p : ℕ) :
    compareDown h w p (w.length - 1) = true ↔ Occurs w h p := by
  have hpos : 0 < w.length := List.length_pos_iff.mpr hw
  rw [compareDown_iff]
  exact ⟨fun h i hi => h i (by omega), fun h i hi => h i (by omega)⟩

/-- A table that suits the needle on some characters: it skips, and by no more than the shift,
unless the needle is just the character. -/
def Suits (skip : UInt8 → ℕ) (w : List UInt8) (c : UInt8) : Prop :=
  ∃ d, IsShift w c d ∧ 0 < skip c ∧ (skip c ≤ d ∨ w = [c])

/-- **A search with a suitable table ends at the leftmost occurrence.** By induction on the fuel,
which the bytes left never exceed. -/
theorem search_leftmost {skip : UInt8 → ℕ} {h w : List UInt8} (hw : w ≠ [])
    (hsuits : ∀ c ∈ h, Suits skip w c) (fuel pos : ℕ) (hlen : ℤ) (hpos : hlen = h.length - pos)
    (hfuel : hlen ≤ fuel + 1) :
    ∃ r, search skip h w (fuel + 1) pos hlen = some r ∧ Leftmost w h pos r := by
  have hwpos : 0 < w.length := List.length_pos_iff.mpr hw
  induction fuel generalizing pos hlen with
  | zero =>
    -- one byte is left at most, so no room for the needle and one more
    refine ⟨none, ?_, fun q hq hql => by omega⟩
    unfold search
    rw [if_neg (by omega)]
  | succ fuel ih =>
    unfold search
    by_cases hroom : hlen > w.length
    · rw [if_pos hroom]
      by_cases hcmp : compareDown h w pos (w.length - 1) = true
      · rw [if_pos hcmp]
        exact ⟨some pos, rfl, le_rfl, by omega, (compareDown_occurs hw pos).mp hcmp,
          fun r hr hrp => by omega⟩
      · rw [if_neg hcmp]
        have hnot : ¬ Occurs w h pos := fun hocc => hcmp ((compareDown_occurs hw pos).mpr hocc)
        have hin : pos + (w.length - 1) < h.length := by omega
        have hget : h[pos + (w.length - 1)]? = some (h.getD (pos + (w.length - 1)) 0) := by
          rw [List.getD_eq_getElem?_getD, List.getElem?_eq_getElem hin]
          rfl
        obtain ⟨d, hd, hskip, hle⟩ := hsuits _ (List.mem_of_getElem? hget)
        set c := h.getD (pos + (w.length - 1)) 0
        have hshort : skip c ≤ d := by
          rcases hle with hle | hsingle
          · exact hle
          · -- the needle is `c` itself, and then `c` is an occurrence
            refine absurd (fun i hi => ?_) hnot
            rw [hsingle, List.length_singleton] at hi hget
            rw [hsingle, show i = 0 by omega]
            exact hget
        obtain ⟨r, hr, hleft⟩ := ih (pos + skip c) (hlen - skip c) (by push_cast; omega) (by omega)
        refine ⟨r, hr, hleft.skip fun q hq hqd => ?_⟩
        rcases hq.eq_or_lt with rfl | hlt
        · exact hnot
        · exact hd.not_occurs hget hlt (by omega)
    · rw [if_neg hroom]
      exact ⟨none, rfl, fun q hq hql => by omega⟩

/-- A search finds nothing in front of where it starts. -/
theorem le_of_search {skip : UInt8 → ℕ} {h w : List UInt8} {fuel pos : ℕ} {hlen : ℤ} {q : ℕ}
    (hs : search skip h w fuel pos hlen = some (some q)) : pos ≤ q := by
  induction fuel generalizing pos hlen with
  | zero => cases hs
  | succ fuel ih =>
    unfold search at hs
    split at hs
    · split at hs
      · cases hs
        exact le_rfl
      · have := ih hs
        omega
    · cases hs

/-- **A search with a table that does not suit misses an occurrence**, in some text of the
characters given. -/
theorem search_misses (skip : UInt8 → ℕ) {w : List UInt8} {c x : UInt8} {d : ℕ}
    (hd : IsShift w c d) (hx : w.head? ≠ some x) (hlong : d < skip c) (hc : w ≠ [c]) :
    ∃ h, h ≠ [] ∧ (∀ y ∈ h, y = c ∨ y = x ∨ y ∈ w) ∧ Leftmost w h 0 (some d) ∧
      ∀ fuel, search skip h w fuel 0 h.length ≠ some (some d) := by
  have hw : w ≠ [] := List.ne_nil_of_length_pos (hd.pos.trans_le hd.le_length)
  obtain ⟨h, hlen, hchars, hlast, hzero, hocc⟩ := exists_missed hd hx hc
  refine ⟨h, List.ne_nil_of_length_pos (by omega), hchars, ⟨Nat.zero_le d, by omega, hocc, ?_⟩, ?_⟩
  · intro r _ hr
    rcases Nat.eq_zero_or_pos r with rfl | hpos
    · exact hzero
    · exact hd.not_occurs (p := 0) (by rwa [zero_add]) hpos (by omega)
  · intro fuel hs
    cases fuel with
    | zero => cases hs
    | succ fuel =>
      -- the first round moves on past the occurrence
      have hget : h.getD (0 + (w.length - 1)) 0 = c := by
        rw [zero_add, List.getD_eq_getElem?_getD, hlast]
        rfl
      unfold search at hs
      rw [if_pos (by omega), if_neg (fun hcmp => hzero ((compareDown_occurs hw 0).mp hcmp)), hget]
        at hs
      have := le_of_search hs
      omega

/-! ## Calls

The first call fills the static table with the shifts of its needle, and all later ones search by them.
A later needle is suited by these shifts or it is not, which depends on the characters of the two
needles alone. -/

/-- The skips of a table that the needle itself has filled. -/
def skips (needle : List UInt8) : UInt8 → ℕ :=
  match setupSkipchars needle Finder.init.skipChars with
  | .ok table => table
  | .error _ => Finder.init.skipChars

/-- The table of the program, once its first needle has filled it. -/
theorem setup_eq {w : List UInt8} (hw : Text w) :
    setupSkipchars w Finder.init.skipChars = .ok (skips w) := by
  obtain ⟨table, htable, -⟩ := setupSkipchars_spec hw Finder.init.skipChars
  rw [skips, htable]

/-- They are the shifts of the needle. -/
theorem skips_isShift {w : List UInt8} (hw : Text w) {c : UInt8} (hc : c < 128) :
    IsShift w c (skips w c) := by
  obtain ⟨table, htable, hshift⟩ := setupSkipchars_spec hw Finder.init.skipChars
  cases htable.symm.trans (setup_eq hw)
  exact hshift c hc

/-- The state of `find` once the needle `w` has filled the table. -/
def filled (w : List UInt8) : Finder :=
  { set := true, skipChars := skips w }

/-- What `find` returns for the result of a search. -/
def position (r : Option ℕ) : ℤ :=
  match r with
  | some pos => pos
  | none => -1

theorem position_inj {r s : Option ℕ} (h : position r = position s) : r = s := by
  cases r with
  | none =>
    cases s with
    | none => rfl
    | some q =>
      change (-1 : ℤ) = q at h
      omega
  | some p =>
    cases s with
    | none =>
      change (p : ℤ) = -1 at h
      omega
    | some q => rw [Int.natCast_inj.mp h]

/-- With a haystack and a needle that are not empty the function is its loop. -/
theorem baseSearch_eq (skip : UInt8 → ℕ) {h w : List UInt8} (hh : h ≠ []) (hw : w ≠ []) :
    baseSearch skip h w = search skip h w (h.length + 1) 0 h.length :=
  if_pos ⟨List.length_pos_iff.mpr hw, List.length_pos_iff.mpr hh⟩

/-- The first call fills the table. -/
theorem find_init {h w : List UInt8} (hh : h ≠ []) (hw : Text w) :
    find Finder.init h w =
      .ok (filled w, (search (skips w) h w (h.length + 1) 0 h.length).map position) := by
  rw [← baseSearch_eq _ hh hw.1]
  unfold find
  rw [if_neg (by decide), setup_eq hw]
  rfl

/-- A later call searches by the table that is there. -/
theorem find_filled (w₀ : List UInt8) {h w : List UInt8} (hh : h ≠ []) (hw : w ≠ []) :
    find (filled w₀) h w =
      .ok (filled w₀, (search (skips w₀) h w (h.length + 1) 0 h.length).map position) := by
  rw [← baseSearch_eq _ hh hw]
  rfl

/-- The skips that a needle leaves behind suit another needle. -/
def Suitable (w₀ w : List UInt8) : Prop :=
  ∀ c : UInt8, c < 128 → skips w₀ c ≤ skips w c ∨ w = [c]

/-- Each call returns what it would return as the first call of the program. -/
def Stable (calls : List (List UInt8 × List UInt8)) : Prop :=
  ∃ rs : List ℤ, findAll Finder.init calls = .ok (rs.map some) ∧
    List.Forall₂ (fun call r => (find Finder.init call.1 call.2).map Prod.snd = .ok (some r)) calls rs

/-- **One call with a suitable table** returns what it returns with its own. -/
theorem find_suitable {w₀ h w : List UInt8} (h₀ : Text w₀) (hh : Text h) (hw : Text w)
    (hs : Suitable w₀ w) :
    ∃ r : ℤ, find (filled w₀) h w = .ok (filled w₀, some r) ∧
      find Finder.init h w = .ok (filled w, some r) := by
  have hsuits (v : List UInt8) (hv : Text v) (hvs : Suitable v w) : ∀ c ∈ h, Suits (skips v) w c := by
    intro c hc
    have hlt := hh.2 c hc
    exact ⟨skips w c, skips_isShift hw hlt, (skips_isShift hv hlt).pos, hvs c hlt⟩
  obtain ⟨r, hr, hleft⟩ := search_leftmost hw.1 (hsuits w₀ h₀ hs) h.length 0 h.length (by omega)
    (by omega)
  obtain ⟨r', hr', hleft'⟩ := search_leftmost hw.1 (hsuits w hw fun _ _ => .inl le_rfl) h.length 0
    h.length (by omega) (by omega)
  obtain rfl := hleft.unique hleft'
  refine ⟨position r, ?_, ?_⟩
  · rw [find_filled w₀ hh.1 hw.1, hr]
    rfl
  · rw [find_init hh.1 hw, hr']
    rfl

/-- **A call with an unsuitable table** goes wrong on some haystack. -/
theorem find_unsuitable {w₀ w : List UInt8} (hw : Text w) (hs : ¬ Suitable w₀ w) :
    ∃ h, Text h ∧ ∀ r : ℤ, (find (filled w₀) h w).map Prod.snd = .ok (some r) →
      (find Finder.init h w).map Prod.snd ≠ .ok (some r) := by
  obtain ⟨c, hbad⟩ := not_forall.mp hs
  obtain ⟨hc, hbad⟩ := Classical.not_imp.mp hbad
  obtain ⟨hlong, hne⟩ := not_or.mp hbad
  -- a byte that is not the first of the needle, to fill gaps with
  obtain ⟨x, hx, hhead⟩ : ∃ x : UInt8, x < 128 ∧ w.head? ≠ some x := by
    by_cases h0 : w.head? = some 0
    · exact ⟨1, by decide, by rw [h0]; decide⟩
    · exact ⟨0, by decide, h0⟩
  obtain ⟨h, hh, hchars, hleft, hmiss⟩ :=
    search_misses (skips w₀) (skips_isShift hw hc) hhead (by omega) hne
  have htext : Text h := by
    refine ⟨hh, fun y hy => ?_⟩
    rcases hchars y hy with rfl | rfl | hyw
    · exact hc
    · exact hx
    · exact hw.2 y hyw
  refine ⟨h, htext, fun r hr hr' => ?_⟩
  -- the table that was set up for the needle finds what the other one misses
  have hsuits : ∀ y ∈ h, Suits (skips w) w y := by
    intro y hy
    have hshift := skips_isShift hw (htext.2 y hy)
    exact ⟨skips w y, hshift, hshift.pos, .inl le_rfl⟩
  obtain ⟨q, hq, hleft'⟩ := search_leftmost hw.1 hsuits h.length 0 h.length (by omega) (by omega)
  obtain rfl := hleft'.unique hleft
  rw [find_init hh hw, hq] at hr'
  cases hr'
  rw [find_filled w₀ hh hw.1] at hr
  obtain ⟨q', hq', hpos⟩ := Option.map_eq_some_iff.mp (Except.ok.inj hr)
  rw [position_inj hpos] at hq'
  exact hmiss _ hq'

/-! ## Runs

The table never changes after the first call, so the calls of a run are independent of each other once
that is known. All haystacks are allowed; so one needle that is not suited spoils the run for some
haystack. -/

theorem findAll_cons (st : Finder) (h w : List UInt8) (calls : List (List UInt8 × List UInt8)) :
    findAll st ((h, w) :: calls) = do
      let (st, r) ← find st h w
      let rs ← findAll st calls
      return r :: rs := rfl

/-- Once the table is filled, the calls with needles it suits return what they should. -/
theorem findAll_suitable {w₀ : List UInt8} (h₀ : Text w₀) (calls : List (List UInt8 × List UInt8))
    (htext : ∀ call ∈ calls, Text call.1 ∧ Text call.2) (hs : ∀ call ∈ calls, Suitable w₀ call.2) :
    ∃ rs : List ℤ, findAll (filled w₀) calls = .ok (rs.map some) ∧
      List.Forall₂ (fun call r => (find Finder.init call.1 call.2).map Prod.snd = .ok (some r))
        calls rs := by
  induction calls with
  | nil => exact ⟨[], rfl, .nil⟩
  | cons call calls ih =>
    obtain ⟨h, w⟩ := call
    obtain ⟨hh, hw⟩ := htext (h, w) List.mem_cons_self
    obtain ⟨rs, hrs, hall⟩ := ih (fun c hc => htext c (List.mem_cons_of_mem _ hc))
      (fun c hc => hs c (List.mem_cons_of_mem _ hc))
    obtain ⟨r, hr, hr'⟩ := find_suitable h₀ hh hw (hs (h, w) List.mem_cons_self)
    refine ⟨r :: rs, ?_, .cons (by rw [hr']; rfl) hall⟩
    rw [findAll_cons, hr, ok_bind]
    show (do let rs ← findAll (filled w₀) calls; return some r :: rs) = _
    rw [hrs]
    rfl

/-- What the calls with a filled table return, taken one by one. -/
theorem find_of_findAll {w₀ : List UInt8} {calls : List (List UInt8 × List UInt8)} {rs : List ℤ}
    (htext : ∀ call ∈ calls, Text call.1 ∧ Text call.2)
    (hrun : findAll (filled w₀) calls = .ok (rs.map some))
    (hall : List.Forall₂ (fun call r =>
      (find Finder.init call.1 call.2).map Prod.snd = .ok (some r)) calls rs) :
    ∀ call ∈ calls, ∃ r : ℤ, (find (filled w₀) call.1 call.2).map Prod.snd = .ok (some r) ∧
      (find Finder.init call.1 call.2).map Prod.snd = .ok (some r) := by
  induction hall with
  | nil => simp
  | @cons call r calls rs hr hall ih =>
    obtain ⟨h, w⟩ := call
    obtain ⟨hh, hw⟩ := htext (h, w) List.mem_cons_self
    rw [findAll_cons, find_filled w₀ hh.1 hw.1, ok_bind] at hrun
    obtain ⟨rs', hrs', hret⟩ := bind_eq_ok.mp hrun
    obtain ⟨hhead, htail⟩ := List.cons.inj (Except.ok.inj hret)
    subst htail
    intro c hc
    rcases List.mem_cons.mp hc with rfl | hmem
    · refine ⟨r, ?_, hr⟩
      rw [find_filled w₀ hh.1 hw.1, hhead]
      rfl
    · exact ih (fun c hc => htext c (List.mem_cons_of_mem _ hc)) hrs' c hmem

/-- The first call of a run fills the table with its own needle. -/
theorem findAll_init {h w : List UInt8} (hh : Text h) (hw : Text w)
    (calls : List (List UInt8 × List UInt8)) :
    findAll Finder.init ((h, w) :: calls) = findAll (filled w) ((h, w) :: calls) := by
  rw [findAll_cons, findAll_cons, find_init hh.1 hw, find_filled w hh.1 hw.1]

/-- **Calls are independent of each other exactly when the first needle's skips suit all needles.**
For any sequence of needles and all haystacks they may be searched for in. -/
theorem find_stable_iff {needles : List (List UInt8)} (hneedles : ∀ w ∈ needles, Text w) :
    (∀ calls : List (List UInt8 × List UInt8), (∀ call ∈ calls, Text call.1) →
        calls.map Prod.snd = needles → Stable calls) ↔
      ∀ w₀ ∈ needles.head?, ∀ w ∈ needles, Suitable w₀ w := by
  constructor
  · intro hstable w₀ hw₀ w hw
    by_contra hs
    obtain ⟨h, hh, hmiss⟩ := find_unsuitable (hneedles w hw) hs
    obtain ⟨ws, rfl⟩ : ∃ ws, needles = w₀ :: ws := by
      cases needles with
      | nil => cases hw₀
      | cons v ws => exact ⟨ws, by rw [Option.mem_some_iff.mp hw₀]⟩
    -- search for every needle in the haystack that goes wrong for `w`
    have htext : ∀ call ∈ (w₀ :: ws).map (fun v => (h, v)), Text call.1 ∧ Text call.2 := by
      intro call hcall
      obtain ⟨v, hv, rfl⟩ := List.mem_map.mp hcall
      exact ⟨hh, hneedles v hv⟩
    obtain ⟨rs, hrun, hall⟩ := hstable ((w₀ :: ws).map fun v => (h, v))
      (fun call hcall => (htext call hcall).1) (by simp [Function.comp_def])
    rw [List.map_cons, findAll_init hh (hneedles w₀ List.mem_cons_self), ← List.map_cons] at hrun
    obtain ⟨r, hr, hr'⟩ := find_of_findAll htext hrun hall (h, w) (List.mem_map_of_mem hw)
    exact hmiss r hr hr'
  · intro hs calls htexts hmap
    have htext : ∀ call ∈ calls, Text call.1 ∧ Text call.2 := by
      intro call hcall
      refine ⟨htexts call hcall, hneedles call.2 ?_⟩
      rw [← hmap]
      exact List.mem_map_of_mem hcall
    cases calls with
    | nil => exact ⟨[], rfl, .nil⟩
    | cons call calls =>
      obtain ⟨h, w⟩ := call
      obtain ⟨hh, hw⟩ := htext (h, w) List.mem_cons_self
      rw [Stable, findAll_init hh hw]
      apply findAll_suitable hw _ htext
      intro c hc
      apply hs w (by rw [← hmap]; rfl)
      rw [← hmap]
      exact List.mem_map_of_mem hc

theorem find_stable_iff_twice :
    (∀ calls : List (List UInt8 × List UInt8), (∀ call ∈ calls, Text call.1) →
        calls.map Prod.snd = [bytes "b", bytes "b"] → Stable calls) ↔
      ∀ w₀ ∈ [bytes "b", bytes "b"].head?, ∀ w ∈ [bytes "b", bytes "b"], Suitable w₀ w :=
  find_stable_iff (by decide +kernel)

/-- After a search for `abc` the `b` behind the `a` is jumped over. -/
theorem second_find_misses :
    ¬ Stable [(bytes "abcd", bytes "abc"), (bytes "abz", bytes "b")] := by
  rintro ⟨rs, hrun, hall⟩
  have hgot : findAll Finder.init [(bytes "abcd", bytes "abc"), (bytes "abz", bytes "b")] =
      .ok [some 0, some (-1)] := by rfl
  have hfresh : (find Finder.init (bytes "abz") (bytes "b")).map Prod.snd = .ok (some 1) := by rfl
  rw [hgot] at hrun
  cases hall with
  | cons _ hall =>
    cases hall with
    | cons hsecond hnil =>
      cases hnil
      have hres := Except.ok.inj hrun
      cases hfresh.symm.trans hsecond
      simp at hres

end Lcthw.StringAlgos
