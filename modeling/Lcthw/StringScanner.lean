import Lcthw.StringAlgos

/-!
# Lcthw — `StringScanner` (`string_algos.c`)

A scanner goes on from the end of the last match. It keeps that place as a pointer and, next to it,
the number of bytes to search; after a match it takes the match's offset from the start of the whole
haystack off that number, instead of the bytes it moved on by.

* **`scan_found`**, **`scan_missed`**: one call, from the end of a match or from the start.
* **`Fits`**: no occurrence lies behind the bytes that the scanner still counts.
* **`scan_cycles_iff`**: when the calls go round the occurrences of the needle.
-/

namespace Lcthw.StringAlgos

open Horspool

/-! ## The code

The scanner keeps a pointer into the haystack and a number of bytes that it thinks are left. The two are
changed in different ways by a match, and nothing compares them. -/

/-- A bstring to search for: the address of its bytes, and the bytes. -/
structure Needle where
  data : ℕ
  bytes : List UInt8

/-- `haystack` is an offset into the bytes of `in`. -/
structure StringScanner where
  «in» : List UInt8
  haystack : ℕ
  hlen : ℤ
  needle : Option Needle
  skipChars : UInt8 → ℕ

/-- `String_base_search` on the `hlen` bytes from `pos` on. -/
def baseSearchAt (skip : UInt8 → ℕ) (haystack needle : List UInt8) (pos : ℕ) (hlen : ℤ) :
    Option (Option ℕ) :=
  if needle.length > 0 ∧ hlen > 0 then
    search skip haystack needle (haystack.length + 1) pos hlen
  else
    some none

namespace StringScanner

/-- `StringScanner_create` -/
def create (s : List UInt8) : StringScanner :=
  { «in» := s, haystack := 0, hlen := s.length, needle := none, skipChars := fun _ => 0 }

/-- `StringScanner_set_needle` -/
def setNeedle (scan : StringScanner) (what : Needle) : Except Fault StringScanner := do
  let skipChars ← setupSkipchars what.bytes scan.skipChars
  pure { scan with needle := some what, skipChars }

/-- `StringScanner_reset` -/
def reset (scan : StringScanner) : StringScanner :=
  { scan with haystack := 0, hlen := scan.in.length }

/-- The `if` in front of the search of `StringScanner_scan`. -/
def useNeedle (scan : StringScanner) (tofind : Needle) : Except Fault StringScanner :=
  if some tofind.data ≠ scan.needle.map Needle.data then scan.setNeedle tofind else pure scan

/-- `StringScanner_scan`. Needles are compared by their addresses. The result is `none` when the
search does not end. -/
def scan (scan : StringScanner) (tofind : Needle) : Except Fault (StringScanner × Option ℤ) :=
  if scan.hlen ≤ 0 then pure (scan.reset, some (-1))
  else do
    let scan ← scan.useNeedle tofind
    let needle := scan.needle.elim [] Needle.bytes
    match baseSearchAt scan.skipChars scan.in needle scan.haystack scan.hlen with
    | none => pure (scan, none)
    | some (some found) =>
        pure ({ scan with
          haystack := found + needle.length
          hlen := scan.hlen - (found + needle.length) }, some found)
    | some none => pure (scan.reset, some (-1))

/-- A sequence of calls, each with its needle, and their results. -/
def scanAll : StringScanner → List Needle → Except Fault (StringScanner × List (Option ℤ))
  | s, [] => pure (s, [])
  | s, tofind :: calls => do
      let (s, r) ← s.scan tofind
      let (s, rs) ← scanAll s calls
      pure (s, r :: rs)

theorem scanAll_cons {s s' : StringScanner} {tofind : Needle} {r : Option ℤ}
    (h : s.scan tofind = .ok (s', r)) (calls : List Needle) :
    s.scanAll (tofind :: calls) = (s'.scanAll calls).map fun x => (x.1, r :: x.2) := by
  rw [scanAll, h, ok_bind]
  simp only []
  cases s'.scanAll calls <;> rfl

/-- More calls go on from where the scanner is. -/
theorem scanAll_append {s s' : StringScanner} {calls : List Needle} {rs : List (Option ℤ)}
    (h : s.scanAll calls = .ok (s', rs)) (calls' : List Needle) :
    s.scanAll (calls ++ calls') = (s'.scanAll calls').map fun x => (x.1, rs ++ x.2) := by
  induction calls generalizing s rs with
  | nil =>
    obtain ⟨rfl, rfl⟩ := Prod.mk.inj (Except.ok.inj h)
    rw [List.nil_append]
    cases s.scanAll calls' <;> rfl
  | cons tofind calls ih =>
    rw [scanAll] at h
    obtain ⟨⟨m, r⟩, hscan, h⟩ := bind_eq_ok.mp h
    obtain ⟨⟨m', rs'⟩, hrest, h⟩ := bind_eq_ok.mp h
    obtain ⟨rfl, rfl⟩ := Prod.mk.inj (Except.ok.inj h)
    rw [List.cons_append, scanAll_cons hscan, ih hrest]
    cases m'.scanAll calls' <;> rfl

end StringScanner

/-! ## A search up to a limit

`String_base_search` is given a pointer and a length, so it searches a part of the haystack. It stops
one window short of the end of that part, wherever the haystack goes on. -/

theorem compareDown_take (h w : List UInt8) {n pos i : ℕ} (hn : pos + i < n) :
    compareDown (h.take n) w pos i = compareDown h w pos i := by
  rw [Bool.eq_iff_iff, compareDown_iff, compareDown_iff]
  refine forall_congr' fun j => imp_congr_right fun hj => ?_
  rw [List.getElem?_take_of_lt (by omega)]

/-- The search only reads the bytes that it counts. -/
theorem search_take (skip : UInt8 → ℕ) (h : List UInt8) {w : List UInt8} (hw : w ≠ [])
    (fuel pos : ℕ) (hlen : ℤ) {n : ℕ} (hn : pos + hlen = n) :
    search skip (h.take n) w fuel pos hlen = search skip h w fuel pos hlen := by
  have hpos := List.length_pos_iff.mpr hw
  induction fuel generalizing pos hlen with
  | zero => rfl
  | succ fuel ih =>
    unfold search
    by_cases hroom : hlen > w.length
    · have hget : (h.take n).getD (pos + (w.length - 1)) 0 = h.getD (pos + (w.length - 1)) 0 := by
        rw [List.getD_eq_getElem?_getD, List.getD_eq_getElem?_getD,
          List.getElem?_take_of_lt (by omega)]
      rw [if_pos hroom, if_pos hroom, compareDown_take h w (by omega), hget]
      simp only []
      rw [ih _ _ (by push_cast; omega)]
    · rw [if_neg hroom, if_neg hroom]

/-- **A search of the bytes up to a limit**, with the needle's own table. -/
theorem baseSearchAt_leftmost {skip : UInt8 → ℕ} {h w : List UInt8} (hh : ∀ c ∈ h, c < 128)
    (hw : w ≠ []) (hskip : ∀ c : UInt8, c < 128 → IsShift w c (skip c)) {p n : ℕ} (hpn : p < n)
    (hn : n ≤ h.length) {hlen : ℤ} (hlen' : p + hlen = n) :
    ∃ r, baseSearchAt skip h w p hlen = some r ∧ Leftmost w (h.take n) p r := by
  have hlength : (h.take n).length = n := by rw [List.length_take, Nat.min_eq_left hn]
  have hsuits : ∀ c ∈ h.take n, Suits skip w c := by
    intro c hc
    have hshift := hskip c (hh c (List.mem_of_mem_take hc))
    exact ⟨skip c, hshift, hshift.pos, Or.inl le_rfl⟩
  obtain ⟨r, hr, hleft⟩ := search_leftmost hw hsuits h.length p hlen (by omega) (by omega)
  refine ⟨r, ?_, hleft⟩
  unfold baseSearchAt
  rw [if_pos ⟨List.length_pos_iff.mpr hw, by omega⟩, ← hr, search_take skip h hw _ _ _ hlen']

/-! ## One call

A scanner that is at `p` and counts `r` bytes either finds the first occurrence from `p` on, in front of
the end of what it counts, or starts anew at the beginning of the haystack. -/

namespace StringScanner

/-- The scanner of the haystack `h` at `p`, counting `r` bytes. It has not been given a needle, or
has been given `tofind`. -/
structure At (h : List UInt8) (tofind : Needle) (p : ℕ) (r : ℤ) (s : StringScanner) : Prop where
  haystack_in : s.in = h
  haystack : s.haystack = p
  hlen : s.hlen = r
  needle : s.needle = none ∨
    s.needle = some tofind ∧ ∀ c : UInt8, c < 128 → IsShift tofind.bytes c (s.skipChars c)

theorem at_create (h : List UInt8) (tofind : Needle) : At h tofind 0 h.length (create h) :=
  ⟨rfl, rfl, rfl, Or.inl rfl⟩

variable {h : List UInt8} {tofind : Needle} {p : ℕ} {r : ℤ} {s : StringScanner}

theorem At.reset (hs : At h tofind p r s) : At h tofind 0 h.length s.reset :=
  ⟨hs.haystack_in, rfl, by rw [← hs.haystack_in]; rfl, hs.needle⟩

/-- The needle's table is there before the search. -/
theorem At.ready (hs : At h tofind p r s) (hw : Text tofind.bytes) :
    ∃ s', s.useNeedle tofind = .ok s' ∧ At h tofind p r s' ∧ s'.needle = some tofind ∧
      ∀ c : UInt8, c < 128 → IsShift tofind.bytes c (s'.skipChars c) := by
  unfold useNeedle
  rcases hs.needle with hnone | ⟨hsome, hskip⟩
  · obtain ⟨table, htable, hshift⟩ := setupSkipchars_spec hw s.skipChars
    refine ⟨{ s with needle := some tofind, skipChars := table }, ?_,
      ⟨hs.haystack_in, hs.haystack, hs.hlen, Or.inr ⟨rfl, hshift⟩⟩, rfl, hshift⟩
    rw [hnone, if_pos (by simp)]
    unfold setNeedle
    rw [htable]
    rfl
  · refine ⟨s, ?_, hs, hsome, hskip⟩
    rw [hsome, if_neg (by simp)]
    rfl

/-- What a call does, by what its search finds. -/
theorem scan_eq (hs : At h tofind p r s) (hh : ∀ c ∈ h, c < 128) (hw : Text tofind.bytes)
    (hr : 0 < r) {n : ℕ} (hpr : p + r = n) (hn : n ≤ h.length) :
    ∃ s' found, Leftmost tofind.bytes (h.take n) p found ∧ At h tofind p r s' ∧
      s'.needle = some tofind ∧
      s.scan tofind = match found with
        | some q => .ok ({ s' with
            haystack := q + tofind.bytes.length
            hlen := r - (q + tofind.bytes.length) }, some q)
        | none => .ok (s'.reset, some (-1)) := by
  obtain ⟨s', hset, hs', hneedle, hskip⟩ := hs.ready hw
  obtain ⟨found, hfound, hleft⟩ := baseSearchAt_leftmost hh hw.1 hskip (by omega) hn hpr
  refine ⟨s', found, hleft, hs', hneedle, ?_⟩
  have hlen := hs.hlen
  unfold scan
  rw [if_neg (by omega), hset, ok_bind]
  simp only [hneedle, Option.elim_some, hs'.haystack_in, hs'.haystack, hs'.hlen, hfound]
  cases found <;> rfl

/-- **A match.** The first occurrence from `p` on ends in front of the last byte counted. -/
theorem scan_found (hs : At h tofind p r s) (hh : ∀ c ∈ h, c < 128) (hw : Text tofind.bytes)
    (hr : p + r ≤ h.length) {q : ℕ} {qs : List ℕ}
    (hqs : Occurrences tofind.bytes h p (q :: qs)) (hfit : q + tofind.bytes.length < p + r) :
    ∃ s', s.scan tofind = .ok (s', some q) ∧
      At h tofind (q + tofind.bytes.length) (r - (q + tofind.bytes.length)) s' := by
  have hpq : p ≤ q := by
    cases hqs with
    | next hle _ _ _ => exact hle
  obtain ⟨n, hn⟩ : ∃ n : ℕ, p + r = n := ⟨(p + r).toNat, by omega⟩
  obtain ⟨s', found, hleft, hs', hneedle, hscan⟩ := scan_eq hs hh hw (by omega) hn (by omega)
  obtain rfl := hleft.unique (hqs.leftmost_some (by omega) (by omega))
  refine ⟨_, hscan, ⟨hs'.haystack_in, rfl, rfl, ?_⟩⟩
  exact Or.inr (hs'.needle.resolve_left (by rw [hneedle]; simp))

/-- **No match.** The first occurrence is not in the bytes counted, or there is none. -/
theorem scan_missed (hs : At h tofind p r s) (hh : ∀ c ∈ h, c < 128) (hw : Text tofind.bytes)
    (hr : p + r ≤ h.length) {qs : List ℕ} (hqs : Occurrences tofind.bytes h p qs)
    (hfar : ∀ q, qs.head? = some q → p + r ≤ q + tofind.bytes.length) :
    ∃ s', s.scan tofind = .ok (s', some (-1)) ∧ At h tofind 0 h.length s' := by
  have hlen := hs.hlen
  rcases le_or_gt r 0 with hle | hpos
  · refine ⟨s.reset, ?_, hs.reset⟩
    unfold scan
    rw [if_pos (by omega)]
    rfl
  · obtain ⟨n, hn⟩ : ∃ n : ℕ, p + r = n := ⟨(p + r).toNat, by omega⟩
    obtain ⟨s', found, hleft, hs', -, hscan⟩ := scan_eq hs hh hw hpos hn (by omega)
    obtain rfl := hleft.unique (hqs.leftmost_none (by omega) fun q hq => by
      have := hfar q hq
      omega)
    exact ⟨_, hscan, hs'.reset⟩

/-! ## One round

A round of calls goes through the occurrences in order and then returns -1. It does so when each of them
is inside the bytes that the scanner still counts when its turn has come. -/

/-- Each occurrence ends in front of the last byte that the scanner counts when it comes to it. -/
def Fits (n : ℕ) : ℕ → ℤ → List ℕ → Prop
  | _, _, [] => True
  | p, r, q :: qs => q + n < p + r ∧ Fits n (q + n) (r - (q + n)) qs

/-- The results of one round of calls. -/
def round (ps : List ℕ) : List (Option ℤ) :=
  ps.map (fun p => some (p : ℤ)) ++ [some (-1)]

/-- **One round of calls**, by induction on the occurrences that are left. -/
theorem scanAll_round (hh : ∀ c ∈ h, c < 128) (hw : Text tofind.bytes) {qs : List ℕ}
    (hqs : Occurrences tofind.bytes h p qs) (hs : At h tofind p r s) (hr : p + r ≤ h.length) :
    (Fits tofind.bytes.length p r qs → ∃ s',
      s.scanAll (List.replicate (qs.length + 1) tofind) = .ok (s', round qs) ∧
        At h tofind 0 h.length s') ∧
    ∀ s', s.scanAll (List.replicate (qs.length + 1) tofind) = .ok (s', round qs) →
      Fits tofind.bytes.length p r qs := by
  induction hqs generalizing s r with
  | @done p hnone =>
    obtain ⟨s', hscan, hs'⟩ := scan_missed hs hh hw hr (.done hnone) (by simp)
    refine ⟨fun _ => ⟨s', ?_, hs'⟩, fun _ _ => trivial⟩
    rw [List.length_nil, List.replicate_succ, scanAll_cons hscan]
    rfl
  | @next p q qs hle hocc hfirst hrest ih =>
    rw [List.length_cons, List.replicate_succ]
    rcases lt_or_ge (q + tofind.bytes.length : ℤ) (p + r) with hfit | hfar
    · obtain ⟨s', hscan, hs'⟩ := scan_found hs hh hw hr (.next hle hocc hfirst hrest) hfit
      obtain ⟨hfwd, hback⟩ := ih hs' (by push_cast; omega)
      rw [scanAll_cons hscan]
      constructor
      · rintro ⟨-, hfits⟩
        obtain ⟨s'', hall, hs''⟩ := hfwd hfits
        refine ⟨s'', ?_, hs''⟩
        rw [hall]
        rfl
      · intro s'' hall
        obtain ⟨⟨s₁, rs⟩, hall, heq⟩ := map_eq_ok.mp hall
        obtain ⟨-, hrs⟩ := Prod.mk.inj heq
        obtain rfl : rs = round qs := (List.cons.inj hrs).2
        exact ⟨hfit, hback s₁ hall⟩
    · obtain ⟨s', hscan, -⟩ := scan_missed hs hh hw hr (.next hle hocc hfirst hrest) (by
        rintro q' hq'
        obtain rfl : q = q' := Option.some.inj hq'
        exact hfar)
      refine ⟨fun hfits => absurd hfits.1 (not_lt.mpr hfar), fun s'' hall => ?_⟩
      -- the call says -1, and not where the occurrence is
      rw [scanAll_cons hscan] at hall
      obtain ⟨x, -, heq⟩ := map_eq_ok.mp hall
      have hhead := (List.cons.inj (Prod.mk.inj heq).2).1
      have hneg : (-1 : ℤ) = q := Option.some.inj hhead
      omega

/-! ## All rounds

What the scanner counts when it comes to an occurrence is the length of the haystack less all the
offsets it has taken off. So the condition can be said of the occurrences alone, without the scanner. -/

/-- The distance that each occurrence ends behind the one before, and the ends of all occurrences
before it, add up to less than the length of the haystack. -/
def InStep (n length : ℕ) (ps : List ℕ) : Prop :=
  ∀ (before : List ℕ) (q : ℕ) (after : List ℕ), ps = before ++ q :: after →
    (q + n : ℤ) - (before.getLast?.elim 0 (· + n) : ℕ) + ((before.map (· + n)).sum : ℕ) < length

/-- The remaining length never overtakes what is left, said of each place in the list. -/
theorem fits_iff (n p : ℕ) (r : ℤ) (qs : List ℕ) :
    Fits n p r qs ↔ ∀ (before : List ℕ) (q : ℕ) (after : List ℕ), qs = before ++ q :: after →
      (q + n : ℤ) - (before.getLast?.elim p (· + n) : ℕ) + ((before.map (· + n)).sum : ℕ) < r := by
  induction qs generalizing p r with
  | nil => exact iff_of_true trivial fun before q after h => by simp at h
  | cons q qs ih =>
    -- the last end behind `q` is that of the last occurrence, or of `q` itself
    have hlast : ∀ before : List ℕ, ((q :: before).getLast?.elim p (· + n) : ℕ) =
        before.getLast?.elim (q + n) (· + n) := by
      intro before
      cases before with
      | nil => rfl
      | cons b bs => rw [List.getLast?_cons_cons]; rfl
    rw [Fits, ih]
    constructor
    · rintro ⟨hfit, hrest⟩ before q' after heq
      cases before with
      | nil =>
        obtain ⟨rfl, rfl⟩ := List.cons.inj heq
        simpa using by omega
      | cons b bs =>
        obtain ⟨rfl, htail⟩ := List.cons.inj heq
        have h := hrest bs q' after htail
        rw [hlast, List.map_cons, List.sum_cons]
        omega
    · intro hall
      refine ⟨?_, fun before q' after heq => ?_⟩
      · have h := hall [] q qs rfl
        simp at h
        omega
      · have h := hall (q :: before) q' after (by rw [heq]; rfl)
        rw [hlast, List.map_cons, List.sum_cons] at h
        omega

/-- **When the calls go round the occurrences**: in order, then -1, and from the start again. -/
theorem scan_cycles_iff {h : List UInt8} (hh : ∀ c ∈ h, c < 128) (tofind : Needle)
    (hw : Text tofind.bytes) :
    ∃ ps, Occurrences tofind.bytes h 0 ps ∧
      ((∀ k, ∃ s', (create h).scanAll (List.replicate (k * (ps.length + 1)) tofind) =
          .ok (s', (List.replicate k (round ps)).flatten)) ↔
        InStep tofind.bytes.length h.length ps) := by
  obtain ⟨ps, hps⟩ := exists_occurrences hw.1 h 0
  have hfits : Fits tofind.bytes.length 0 h.length ps ↔
      InStep tofind.bytes.length h.length ps := fits_iff _ 0 _ ps
  refine ⟨ps, hps, ?_⟩
  rw [← hfits]
  constructor
  · intro hall
    obtain ⟨s', hround⟩ := hall 1
    rw [one_mul, List.replicate_one, List.flatten_singleton] at hround
    exact (scanAll_round hh hw hps (at_create h tofind) (by simp)).2 s' hround
  · intro hfit k
    -- every round starts where the first one does
    have hrounds : ∀ s, At h tofind 0 h.length s → ∃ s',
        s.scanAll (List.replicate (k * (ps.length + 1)) tofind) =
          .ok (s', (List.replicate k (round ps)).flatten) := by
      induction k with
      | zero =>
        intro s _
        exact ⟨s, by rw [zero_mul]; rfl⟩
      | succ k ih =>
        intro s hs
        obtain ⟨m, hround, hm⟩ := (scanAll_round hh hw hps hs (by simp)).1 hfit
        obtain ⟨s', hrest⟩ := ih m hm
        refine ⟨s', ?_⟩
        rw [show (k + 1) * (ps.length + 1) = (ps.length + 1) + k * (ps.length + 1) by ring,
          List.replicate_add, scanAll_append hround, hrest]
        rfl
    exact hrounds _ (at_create h tofind)

theorem scan_cycles_iff_b :
    ∃ ps, Occurrences (bytes "b") (bytes "ab-") 0 ps ∧
      ((∀ k, ∃ s', (create (bytes "ab-")).scanAll
          (List.replicate (k * (ps.length + 1)) ⟨0, bytes "b"⟩) =
          .ok (s', (List.replicate k (round ps)).flatten)) ↔
        InStep (bytes "b").length (bytes "ab-").length ps) :=
  scan_cycles_iff (by decide +kernel) ⟨0, bytes "b"⟩ (by decide +kernel)

/-- The third of three matches is not found: after the second one the scanner counts two bytes less
than there are. -/
theorem third_scan_misses :
    Occurrences (bytes "ab") (bytes "ab-ab-ab-") 0 [0, 3, 6] ∧
      ((create (bytes "ab-ab-ab-")).scanAll (List.replicate 4 ⟨0, bytes "ab"⟩)).map Prod.snd =
        .ok [some 0, some 3, some (-1), some 0] ∧
      ¬ ∃ s', (create (bytes "ab-ab-ab-")).scanAll (List.replicate 4 ⟨0, bytes "ab"⟩) =
        .ok (s', round [0, 3, 6]) := by
  have hrun : ((create (bytes "ab-ab-ab-")).scanAll
      (List.replicate 4 ⟨0, bytes "ab"⟩)).map Prod.snd =
        .ok [some 0, some 3, some (-1), some 0] := by rfl
  refine ⟨?_, hrun, ?_⟩
  · -- the third occurrence is at the end of the text
    have hocc : ∀ q, q < 8 → (Occurs (bytes "ab") (bytes "ab-ab-ab-") q ↔ q ∈ [0, 3, 6]) := by
      unfold Occurs
      decide
    have hend : ∀ q, Occurs (bytes "ab") (bytes "ab-ab-ab-") q → q < 8 := by
      intro q hq
      have hlen := hq.le_length (by decide)
      have hsize : (bytes "ab").length = 2 ∧ (bytes "ab-ab-ab-").length = 9 := by decide
      omega
    have hall : ∀ q, Occurs (bytes "ab") (bytes "ab-ab-ab-") q ↔ q ∈ [0, 3, 6] := by
      intro q
      refine ⟨fun hq => (hocc q (hend q hq)).mp hq, fun hq => (hocc q ?_).mpr hq⟩
      simp at hq
      omega
    have hgap : ∀ p r, p ≤ r → r ∉ [0, 3, 6] → ¬ Occurs (bytes "ab") (bytes "ab-ab-ab-") r :=
      fun _ r _ hr hq => hr ((hall r).mp hq)
    have hsize : (bytes "ab").length = 2 := by decide
    refine .next le_rfl ((hall 0).mpr (by decide)) (fun r hr hlt => by omega) ?_
    refine .next (by omega) ((hall 3).mpr (by decide)) (fun r hr hlt => hgap _ r hr ?_) ?_
    · simp
      omega
    refine .next (by omega) ((hall 6).mpr (by decide)) (fun r hr hlt => hgap _ r hr ?_) ?_
    · simp
      omega
    refine .done fun r hr hq => ?_
    have hlt := hend r hq
    omega
  · rintro ⟨s', hs'⟩
    rw [hs'] at hrun
    exact absurd (Except.ok.inj hrun) (by simp [round])

end StringScanner

end Lcthw.StringAlgos
