import Lcthw.StringScanner

/-!
# Lcthw — what one search finds, and when it ends (`string_algos.c`)

A needle and the table that `String_setup_skipchars` makes for it, in a table of zeros.

* **`baseSearch_first_iff`**: the search finds the first occurrence unless that is at the very end
  of the haystack, since the loop stops when the window is the last one.
* **`setup_shift_skips`**: no occurrence lies inside a move, at any window.
* **`search_terminates_iff`**: the search ends unless it comes to a window that ends on the byte 255,
  the one whose entry is still zero.
* **`setup_inside_iff`**: the table is written inside its bounds as long as no character of the
  needle but the last is negative.
-/

namespace Lcthw.StringAlgos

open Horspool

/-- The table of a needle on a table of zeros: the last entry is still zero. -/
theorem skips_table {w : List UInt8} (hw : Text w) :
    skips w UCHAR_MAX = 0 ∧ ∀ c : UInt8, c < UCHAR_MAX → IsShift w c (skips w c) := by
  obtain ⟨table, htable, hlast, hshift⟩ :=
    setupSkipchars_table hw.1 (fun i _ => hw.getD_lt i) Finder.init.skipChars
  cases htable.symm.trans (setup_eq hw)
  exact ⟨hlast, hshift⟩

/-! ## What the search finds

The loop goes on as long as more bytes are left than the needle has. The window at the very end of the
haystack is therefore never compared, and an occurrence there is found by no search. -/

/-- The result is the one of a naive search. -/
def FindsFirst (w h : List UInt8) : Prop :=
  ∃ r, baseSearch (skips w) h w = some r ∧ First w h r

/-- A search of ASCII text ends at the leftmost occurrence that is not a suffix. -/
theorem baseSearch_leftmost {w h : List UInt8} (hw : Text w) (hh : ∀ c ∈ h, c < 128) :
    ∃ r, baseSearch (skips w) h w = some r ∧ Leftmost w h 0 r := by
  cases h with
  | nil =>
    refine ⟨none, if_neg (by simp), fun q _ hlen => ?_⟩
    exact absurd hlen (Nat.not_lt_zero _)
  | cons b bs =>
    -- bytes below 128 all have the entry of the needle's shift
    have hsuits : ∀ c ∈ b :: bs, Suits (skips w) w c := by
      intro c hc
      have hshift := skips_isShift hw (hh c hc)
      exact ⟨skips w c, hshift, hshift.pos, .inl le_rfl⟩
    rw [baseSearch_eq _ (List.cons_ne_nil b bs) hw.1]
    exact search_leftmost hw.1 hsuits _ 0 _ (by simp) (by omega)

/-- **The search finds what a naive search finds, unless the first occurrence is at the very end.** -/
theorem baseSearch_first_iff {w h : List UInt8} (hw : Text w) (hh : ∀ c ∈ h, c < 128) :
    FindsFirst w h ↔ ∀ q, First w h (some q) → q + w.length < h.length := by
  obtain ⟨r, hr, hleft⟩ := baseSearch_leftmost hw hh
  rw [← hleft.first_iff]
  constructor
  · rintro ⟨r', hr', hfirst⟩
    rwa [Option.some.inj (hr.symm.trans hr')]
  · intro hfirst
    exact ⟨r, hr, hfirst⟩

theorem baseSearch_first_iff_two :
    FindsFirst (bytes "ab") (bytes "cabc") ↔
      ∀ q, First (bytes "ab") (bytes "cabc") (some q) → q + 2 < 4 :=
  baseSearch_first_iff (by decide +kernel) (by decide +kernel)

/-- A text is not found in itself. -/
theorem search_misses_whole : ¬ FindsFirst (bytes "ab") (bytes "ab") := by
  rintro ⟨r, hr, hfirst⟩
  have hnone : baseSearch (skips (bytes "ab")) (bytes "ab") (bytes "ab") = some none := by rfl
  cases hnone.symm.trans hr
  exact hfirst 0 fun i _ => by rw [zero_add]

/-! ## What one move skips

An entry of the table is the distance to the nearest earlier place in the needle where the character
under its end stands. Any occurrence closer than that would need the character at a place where it is
not. -/

/-- The move of the search at the window `p`. -/
def shiftAt (skip : UInt8 → ℕ) (h w : List UInt8) (p : ℕ) : ℕ :=
  skip (h.getD (p + (w.length - 1)) 0)

/-- The move goes on by at most the needle, and past no occurrence. -/
structure SafeShift (skip : UInt8 → ℕ) (h w : List UInt8) (p : ℕ) : Prop where
  one_le : 1 ≤ shiftAt skip h w p
  le_length : shiftAt skip h w p ≤ w.length
  not_occurs : ∀ q, p < q → q < p + shiftAt skip h w p → ¬ Occurs w h q

/-- A window inside the haystack ends on the byte that the search looks up. -/
theorem getElem?_window {h w : List UInt8} (hw : w ≠ []) {p : ℕ} (hroom : p + w.length ≤ h.length) :
    h[p + (w.length - 1)]? = some (h.getD (p + (w.length - 1)) 0) := by
  have hpos := List.length_pos_iff.mpr hw
  rw [List.getD_eq_getElem?_getD, List.getElem?_eq_getElem (by omega)]
  rfl

/-- **The table of a needle skips no occurrence**, at no window of a haystack without the byte 255,
whether the needle matches there or not. The table may have held anything before. -/
theorem setup_shift_skips {w h : List UInt8} (hw : Text w) (hh : ∀ c ∈ h, c < UCHAR_MAX)
    (skip : UInt8 → ℕ) {p : ℕ} (hroom : p + w.length ≤ h.length) :
    ∃ table, setupSkipchars w skip = .ok table ∧ SafeShift table h w p := by
  obtain ⟨table, htable, -, hshift⟩ := setupSkipchars_table hw.1 (fun i _ => hw.getD_lt i) skip
  have hget := getElem?_window hw.1 hroom
  -- the byte under the end of the needle is not 255, so its entry has been written
  have hentry := hshift _ (hh _ (List.mem_of_getElem? hget))
  exact ⟨table, htable, hentry.pos, hentry.le_length, fun q hpq hq => hentry.not_occurs hget hpq hq⟩

theorem setup_shift_skips_repeated :
    ∃ table, setupSkipchars [97, 98, 97, 98] (fun _ => 7) = .ok table ∧
      SafeShift table [254, 97, 97, 98, 97, 98] [97, 98, 97, 98] 0 :=
  setup_shift_skips (by decide +kernel) (by decide +kernel) (fun _ => 7) (by decide)

/-! ## When the search ends

The entry for the byte 255 keeps what was in the table before, which is zero: the search stays where it
is for ever. It is enough to know which windows it comes to, and these are given by the shifts alone. -/

/-- The loop goes on from one window to another. -/
structure Moves (skip : UInt8 → ℕ) (h w : List UInt8) (p q : ℕ) : Prop where
  room : p + w.length < h.length
  differs : compareDown h w p (w.length - 1) = false
  next : q = p + skip (h.getD (p + (w.length - 1)) 0)

/-- The loop ends, and each window that does not match moves it on. -/
structure Terminates (skip : UInt8 → ℕ) (h w : List UInt8) : Prop where
  ends : ∃ fuel r, search skip h w fuel 0 h.length = some r
  advances : ∀ p q, Relation.ReflTransGen (Moves skip h w) 0 p → Moves skip h w p q → p < q

/-- No window that the needle's shifts lead to from `p` on ends on the byte 255. -/
def Clear (w h : List UInt8) (p : ℕ) : Prop :=
  ∀ q, Visits w h p q → q + w.length < h.length → h[q + (w.length - 1)]? ≠ some UCHAR_MAX

theorem compareDown_false {h w : List UInt8} (hw : w ≠ []) (p : ℕ) :
    compareDown h w p (w.length - 1) = false ↔ ¬ Occurs w h p := by
  rw [← compareDown_occurs hw, Bool.not_eq_true]

theorem lt_uchar_max_of_ne {c : UInt8} (hc : c ≠ UCHAR_MAX) : c < UCHAR_MAX := by
  rw [UInt8.lt_iff_toNat_lt]
  have hlt := c.toNat_lt
  have hne : c.toNat ≠ UCHAR_MAX.toNat := fun h => hc (UInt8.toNat_inj.mp h)
  have hmax : UCHAR_MAX.toNat = 255 := rfl
  omega

section Search

variable {w h : List UInt8}

/-- Where no window ends on 255 the loop moves on by the needle's shifts. -/
theorem Clear.slide (hw : Text w) {p q : ℕ} (hclear : Clear w h p)
    (hmoves : Moves (skips w) h w p q) : Slide w h p q ∧ p < q := by
  have hget := getElem?_window hw.1 hmoves.room.le
  have hne := hclear p .refl hmoves.room
  rw [hget, Ne, Option.some.injEq] at hne
  have hshift := (skips_table hw).2 _ (lt_uchar_max_of_ne hne)
  have hpos := hshift.pos
  rw [hmoves.next]
  exact ⟨.shift hmoves.room ((compareDown_false hw.1 p).mp hmoves.differs) hget hshift, by omega⟩

theorem Clear.tail {p q : ℕ} (hclear : Clear w h p) (hslide : Visits w h p q) : Clear w h q :=
  fun r hr => hclear r (hslide.trans hr)

/-- A window with text behind it that ends on 255 does not match an ASCII needle. -/
theorem not_occurs_of_last (hw : Text w) {p : ℕ}
    (hlast : h[p + (w.length - 1)]? = some UCHAR_MAX) : ¬ Occurs w h p := by
  intro hocc
  have hpos := List.length_pos_iff.mpr hw.1
  have hchar := hocc (w.length - 1) (by omega)
  rw [hlast] at hchar
  exact absurd (hw.2 _ (List.mem_of_getElem? hchar.symm)) (by decide)

/-- The rounds of the loop. -/
theorem search_round {skip : UInt8 → ℕ} (hw : w ≠ []) {fuel p : ℕ} {hlen : ℤ}
    (hp : hlen = h.length - p) (hroom : p + w.length < h.length) (hnot : ¬ Occurs w h p) :
    search skip h w (fuel + 1) p hlen =
      search skip h w fuel (p + skip (h.getD (p + (w.length - 1)) 0))
        (hlen - skip (h.getD (p + (w.length - 1)) 0)) := by
  rw [search, if_pos (by omega), if_neg]
  rw [(compareDown_false hw p).mpr hnot]
  exact Bool.false_ne_true

/-- **A search that is clear ends**, by induction on the fuel, which the bytes left never exceed. -/
theorem Clear.search_ends (hw : Text w) (fuel : ℕ) {p : ℕ} {hlen : ℤ} (hclear : Clear w h p)
    (hp : hlen = h.length - p) (hfuel : hlen ≤ fuel + 1) :
    ∃ r, search (skips w) h w (fuel + 1) p hlen = some r := by
  have hpos := List.length_pos_iff.mpr hw.1
  induction fuel generalizing p hlen with
  | zero =>
    refine ⟨none, ?_⟩
    rw [search, if_neg (by omega)]
  | succ fuel ih =>
    by_cases hroom : p + w.length < h.length
    · by_cases hocc : Occurs w h p
      · refine ⟨some p, ?_⟩
        rw [search, if_pos (by omega), if_pos ((compareDown_occurs hw.1 p).mpr hocc)]
      · obtain ⟨hslide, hlt⟩ := hclear.slide hw ⟨hroom, (compareDown_false hw.1 p).mpr hocc, rfl⟩
        rw [search_round hw.1 hp hroom hocc]
        exact ih (hclear.tail (.single hslide)) (by push_cast; omega) (by omega)
    · refine ⟨none, ?_⟩
      rw [search, if_neg (by omega)]

/-- **A search that ends was clear**: it does not get past a window that ends on 255. -/
theorem clear_of_search (hw : Text w) {fuel p : ℕ} {hlen : ℤ} (hp : hlen = h.length - p)
    {r : Option ℕ} (hs : search (skips w) h w fuel p hlen = some r) : Clear w h p := by
  induction fuel generalizing p hlen with
  | zero => cases hs
  | succ fuel ih =>
    -- the window at `p` first, then those behind it
    have hfirst : p + w.length < h.length → h[p + (w.length - 1)]? ≠ some UCHAR_MAX := by
      intro hroom hlast
      -- the next round starts where this one did
      rw [search_round hw.1 hp hroom (not_occurs_of_last hw hlast), List.getD_eq_getElem?_getD,
        hlast, Option.getD_some, (skips_table hw).1] at hs
      exact ih (by push_cast; omega) hs p .refl hroom hlast
    intro q hvisits hroom
    rcases Relation.ReflTransGen.cases_head hvisits with rfl | ⟨p', hslide, hrest⟩
    · exact hfirst hroom
    · cases hslide with
      | shift hroom' hnot hc hd =>
        have hne := hfirst hroom'
        rw [hc, Ne, Option.some.injEq] at hne
        rw [search_round hw.1 hp hroom' hnot, List.getD_eq_getElem?_getD, hc, Option.getD_some,
          ((skips_table hw).2 _ (lt_uchar_max_of_ne hne)).unique hd] at hs
        exact ih (by push_cast; omega) hs q hrest hroom

/-- The windows of a clear search are those that the needle's shifts lead to. -/
theorem Clear.visits (hw : Text w) {q : ℕ} (hclear : Clear w h 0)
    (hq : Relation.ReflTransGen (Moves (skips w) h w) 0 q) : Visits w h 0 q := by
  induction hq with
  | refl => exact .refl
  | tail _ hmoves ih => exact ih.tail ((hclear.tail ih).slide hw hmoves).1

end Search

/-- **The search ends unless it comes to a window that ends on the byte 255.** -/
theorem search_terminates_iff {w : List UInt8} (hw : Text w) (h : List UInt8) :
    Terminates (skips w) h w ↔ Clear w h 0 := by
  constructor
  · rintro ⟨⟨fuel, r, hs⟩, -⟩
    exact clear_of_search hw (by simp) hs
  · intro hclear
    have hends : ∃ r, search (skips w) h w (h.length + 1) 0 h.length = some r :=
      hclear.search_ends hw h.length (by simp) (by omega)
    refine ⟨⟨_, hends⟩, fun p q hp hmoves => ?_⟩
    exact ((hclear.tail (hclear.visits hw hp)).slide hw hmoves).2

theorem search_terminates_iff_two :
    Terminates (skips (bytes "ab")) [254, 99, 97, 98] (bytes "ab") ↔
      Clear (bytes "ab") [254, 99, 97, 98] 0 :=
  search_terminates_iff (by decide +kernel) [254, 99, 97, 98]

/-- The byte 255 in front of the needle. -/
theorem search_stuck : ¬ Terminates (skips (bytes "a")) [255, 97] (bytes "a") := by
  rintro ⟨⟨fuel, r, hs⟩, -⟩
  have hclear := clear_of_search (w := bytes "a") (by decide +kernel) (by simp) hs
  exact hclear 0 .refl (by decide +kernel) (by rfl)

/-! ## Where the table is written

A character from 128 on is a negative index. The table is a field of the scanner, so such a write does
not crash but changes what lies in front of the table. -/

theorem toInt8_neg {c : UInt8} (hc : ¬ c < 128) : c.toInt8 < 0 := by
  have hge : 128 ≤ c.toNat := by
    rw [UInt8.lt_iff_toNat_lt] at hc
    exact not_lt.mp hc
  have hlt := c.toNat_lt
  have hint : c.toInt8.toInt = (c.toNat : ℤ) - 256 := by
    show c.toBitVec.toInt = (c.toBitVec.toNat : ℤ) - 256
    rw [BitVec.toInt_eq_toNat_cond, if_neg]
    · rfl
    · show ¬ 2 * c.toNat < 2 ^ 8
      omega
  rw [Int8.lt_iff_toInt_lt, hint]
  show (c.toNat : ℤ) - 256 < 0
  omega

/-- The rounds that stay inside the table have read no negative character. -/
theorem lt_of_setup_rounds {needle : List UInt8} {n k : ℕ} {skip table : UInt8 → ℕ}
    (h : (List.range k).foldlM (fun skip i =>
      let c := needle.getD i 0
      if c.toInt8 < 0 then .error .outOfBounds
      else .ok (Function.update skip c (n - i))) skip = (.ok table : Except Fault _)) :
    ∀ i, i < k → needle.getD i 0 < 128 := by
  induction k generalizing table with
  | zero => exact fun i hi => absurd hi (Nat.not_lt_zero i)
  | succ k ih =>
    rw [List.range_succ, List.foldlM_append] at h
    obtain ⟨table', hbefore, hlast⟩ := bind_eq_ok.mp h
    intro i hi
    rcases Nat.lt_succ_iff_lt_or_eq.mp hi with hlt | rfl
    · exact ih hbefore i hlt
    · by_contra hge
      rw [List.foldlM_cons] at hlast
      simp only [if_pos (toInt8_neg hge)] at hlast
      cases hlast

/-- The table of a needle is written inside its bounds, and so a scanner that is given the needle
keeps what it had next to the table. -/
structure SetsUp (needle : List UInt8) : Prop where
  table : ∀ skip, ∃ table, setupSkipchars needle skip = .ok table
  scanner : ∀ (s : StringScanner) (data : ℕ), some data ≠ s.needle.map Needle.data →
    ∃ skipChars, s.useNeedle { data, bytes := needle } =
      .ok { s with needle := some { data, bytes := needle }, skipChars }

/-- By their indices: all characters but the last one. -/
theorem dropLast_lt_iff {needle : List UInt8} :
    (∀ c ∈ needle.dropLast, c < 128) ↔ ∀ i, i < needle.length - 1 → needle.getD i 0 < 128 := by
  have hget : ∀ i, i < needle.length - 1 → needle.dropLast[i]? = some (needle.getD i 0) := by
    intro i hi
    rw [List.dropLast_eq_take, List.getElem?_take_of_lt hi, List.getD_eq_getElem?_getD,
      List.getElem?_eq_getElem (by omega)]
    rfl
  constructor
  · intro hall i hi
    exact hall _ (List.mem_of_getElem? (hget i hi))
  · intro hall c hc
    obtain ⟨i, hi⟩ := List.getElem?_of_mem hc
    have hlt := (List.getElem?_eq_some_iff.mp hi).1
    rw [List.length_dropLast] at hlt
    rw [hget i hlt] at hi
    rw [← Option.some.inj hi]
    exact hall i hlt

/-- **The table is written inside its bounds as long as no character of the needle but the last is
negative.** -/
theorem setup_inside_iff (needle : List UInt8) :
    SetsUp needle ↔ ∀ c ∈ needle.dropLast, c < 128 := by
  rw [dropLast_lt_iff]
  constructor
  · rintro ⟨htable, -⟩
    obtain ⟨table, htable⟩ := htable fun _ => 0
    exact lt_of_setup_rounds htable
  · intro hlow
    have htable : ∀ skip, ∃ table, setupSkipchars needle skip = .ok table := by
      intro skip
      obtain ⟨table, htable, -⟩ := setup_rounds skip le_rfl hlow
      exact ⟨table, htable⟩
    refine ⟨htable, fun s data hother => ?_⟩
    obtain ⟨table, htable⟩ := htable s.skipChars
    refine ⟨table, ?_⟩
    rw [StringScanner.useNeedle, if_pos hother, StringScanner.setNeedle, htable]
    rfl

/-- The character -1 in front of another one. -/
theorem setup_leaves_table : ¬ SetsUp [255, 97] := by
  rintro ⟨htable, -⟩
  obtain ⟨table, htable⟩ := htable fun _ => 0
  have hlow := lt_of_setup_rounds htable 0 (by decide)
  exact absurd hlow (by decide)

end Lcthw.StringAlgos
