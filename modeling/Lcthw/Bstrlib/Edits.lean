import Lcthw.Bstrlib.Findreplace
import Lcthw.Bstrlib.Trimming
import Lcthw.Run

/-!
# Lcthw — runs of edits of a `bstring`

A string is a list of characters, and a call changes that list. What the block is like, whether it has to
grow, and which of the ways through a function is taken, is not to be seen.

* **`Edit`**, **`exec`**, **`Edit.apply`**: the calls, as the code does them and on a list.
* **`Edit.Keeps`**: what is given to `bcatblk` or `bfindreplace` is not read from a block that was given up.
* **`exec_edited`**: a call does what it does on the list, or is refused, or there is no memory of a size
  that it asks for.
* **`edits_follow`**: the same over every run of calls; the string is well formed throughout.
-/

namespace Lcthw.Bstrlib

open Horspool Replace

/-! ## The calls

A call is described twice: by the code, in a block and with the memory it finds, and on the characters
alone. What a caller has to see to is collected in `Edit.Fits`; all of it can be checked before the
call. -/

inductive Edit where
  | bconchar (c : UInt8)
  | bcatblk (blk : Source)
  | bconcat (b1 : Source)
  | bassignblk (blk : Source)
  | bsetstr (pos : ℤ) (b1 : Option Source) (fill : UInt8)
  | binsert (pos : ℤ) (b2 : Source) (fill : UInt8)
  | bdelete (pos len : ℤ)
  | btrunc (n : ℤ)
  | bltrimws
  | brtrimws
  | btrimws
  | btoupper
  | btolower
  | bfindreplace (find repl : Source) (pos : ℤ)

def exec (m : Memory) (b : Bstring) : Edit → Except Stop (Bstring × ℤ)
  | .bconchar c => bconchar m b c
  | .bcatblk blk => bcatblk m b blk
  | .bconcat b1 => bconcat m b b1
  | .bassignblk blk => bassignblk m b blk
  | .bsetstr pos b1 fill => bsetstr m b pos b1 fill
  | .binsert pos b2 fill => binsertblk m b pos b2 fill
  | .bdelete pos len => bdelete b pos len
  | .btrunc n => btrunc b n
  | .bltrimws => bltrimws b
  | .brtrimws => brtrimws b
  | .btrimws => btrimws b
  | .btoupper => btoupper b
  | .btolower => btolower b
  | .bfindreplace find repl pos => bfindreplace m b find repl pos

/-- What a call does to the characters; `none` where it refuses what it is given. -/
def Edit.apply (text : List UInt8) : Edit → Option (List UInt8)
  | .bconchar c => some (text ++ [c])
  | .bcatblk blk => some (text ++ blk.of text)
  | .bconcat b1 => some (text ++ b1.of text)
  | .bassignblk blk => some (blk.of text)
  | .bsetstr pos b1 fill =>
    if pos < 0 then none
    else some (overwrite (padded text pos.toNat fill) pos.toNat (argument text b1))
  | .binsert pos b2 fill =>
    if pos < 0 then none else some (inserted text pos.toNat (b2.of text) fill)
  | .bdelete pos len =>
    let len := if pos < 0 then len + pos else len
    if len < 0 then none else some (text.take pos.toNat ++ text.drop (pos.toNat + len.toNat))
  | .btrunc n => if n < 0 then none else some (text.take n.toNat)
  | .bltrimws => some (text.dropWhile wspace)
  | .brtrimws => some (text.rdropWhile wspace)
  | .btrimws => some (trim wspace text)
  | .btoupper => some (text.map upcase)
  | .btolower => some (text.map downcase)
  | .bfindreplace find repl pos =>
    if pos < 0 ∨ find.of text = [] then none else some (findreplaced text find repl pos.toNat)

/-- The parts of the string that a call is given are there. -/
def Edit.Within (b : Bstring) : Edit → Prop
  | .bcatblk src | .bconcat src | .bassignblk src | .binsert _ src _ => src.Within b
  | .bsetstr _ b1 _ => ∀ src ∈ b1, src.Within b
  | .bfindreplace find repl _ => find.Within b ∧ repl.Within b
  | _ => True

/-- The end of a part to be deleted is an `int`. -/
def Edit.InRange : Edit → Prop
  | .bdelete pos len => -INT_MAX - 1 ≤ pos + len ∧ pos + len ≤ INT_MAX ∧ len ≤ INT_MAX
  | _ => True

/-- No part of the string is read from a block that was given up: `bcatblk` is given one only where there
is room for it, and `bfindreplace` only one that it copies if need be. -/
def Edit.Keeps (b : Bstring) : Edit → Prop
  | .bcatblk (.own _ len) => len = 0 ∨ b.slen + len < b.mlen
  | .bfindreplace find repl pos => FindreplaceKeeps b find repl pos.toNat
  | _ => True

/-- The sizes that a call can ask for, besides that of a block for the text and a NUL. -/
def Edit.asks (text : List UInt8) : Edit → Set ℤ
  | .bconcat b1 => b1.asks
  | .bsetstr _ b1 _ => argumentAsks b1
  | .binsert _ b2 _ => b2.blockAsks
  | .bfindreplace find repl pos => findreplaceAsks text find repl pos.toNat
  | _ => ∅

/-- A call that is made as it should be, for a text that is not too long. -/
structure Edit.Fits (b : Bstring) (e : Edit) : Prop where
  within : e.Within b
  inRange : e.InRange
  keeps : e.Keeps b
  short : ∀ text' ∈ e.apply b.contents, text'.length < LIMIT

/-! ## The block of `bfindreplace`

All other functions say by themselves how large the block is behind them. Here the loops are gone
through once more for the length of the block, which they do not change. -/

variable {m : Memory} {b : Bstring} {find repl data : List UInt8}

theorem mapError_eq_ok {α : Type} {x : Except Fault α} {a : α} :
    x.mapError Stop.fault = .ok a ↔ x = .ok a := by
  cases x <;> simp [Except.mapError]

theorem length_copyTo {x : ℤ} {bytes d : List UInt8} (h : copyTo data x bytes = .ok d) :
    d.length = data.length := by
  unfold copyTo at h
  split at h
  · next hfit =>
    cases h
    exact length_overwrite (by omega)
  · cases h

theorem length_replaceEqual {slen fuel pos : ℕ} {d : List UInt8}
    (h : replaceEqual find repl slen fuel data pos = .ok d) : d.length = data.length := by
  induction fuel generalizing data pos with
  | zero => cases h
  | succ fuel ih =>
    rw [replaceEqual] at h
    split at h
    · obtain ⟨d', hcopy, hrest⟩ := bind_eq_ok.mp h
      rw [ih hrest, length_copyTo hcopy]
    · cases h
      rfl

/-- A copy that is left out at times. -/
theorem length_copied {p : Prop} [Decidable p] {x : Except Stop (List UInt8)} {d : List UInt8}
    (hx : ∀ d, x = .ok d → d.length = data.length)
    (h : (if p then x else .ok data) = .ok d) : d.length = data.length := by
  split at h
  · exact hx d h
  · cases h
    rfl

theorem length_moved {x y n : ℤ} {d : List UInt8}
    (h : (do
      let moved ← copyFrom data x n
      copyTo data y moved) = .ok d) : d.length = data.length := by
  obtain ⟨moved, -, hcopy⟩ := bind_eq_ok.mp h
  exact length_copyTo hcopy

theorem length_replaceShrinking {slen fuel pos : ℕ} {acc : ℤ} {out : List UInt8 × ℕ × ℤ}
    (h : replaceShrinking find repl slen fuel data pos acc = .ok out) :
    out.1.length = data.length := by
  induction fuel generalizing data pos acc with
  | zero => cases h
  | succ fuel ih =>
    rw [replaceShrinking] at h
    split at h
    · obtain ⟨d, hmove, h⟩ := bind_eq_ok.mp h
      obtain ⟨d', hcopy, h⟩ := bind_eq_ok.mp h
      rw [ih h, length_copied (fun _ => length_copyTo) hcopy,
        length_copied (fun _ => length_moved) hmove]
    · cases h
      rfl

theorem mlen_shrinkEnd {pos : ℕ} {acc : ℤ} {out : Bstring}
    (h : shrinkEnd b data pos acc = .ok out) : out.mlen = data.length := by
  unfold shrinkEnd at h
  split at h
  · obtain ⟨d, hmove, h⟩ := bind_eq_ok.mp h
    obtain ⟨d', hcopy, h⟩ := bind_eq_ok.mp h
    cases h
    rw [Bstring.mlen, length_copyTo hcopy, length_copied (fun _ => length_moved) hmove]
  · cases h
    rfl

theorem length_moveUp {ds : List ℕ} {i : ℕ} {acc : ℤ} {d : List UInt8}
    (h : moveUp find repl ds i acc data = .ok d) : d.length = data.length := by
  induction i generalizing data acc with
  | zero =>
    cases h
    rfl
  | succ i ih =>
    rw [moveUp] at h
    obtain ⟨d', hmove, h⟩ := bind_eq_ok.mp h
    obtain ⟨d'', hcopy, h⟩ := bind_eq_ok.mp h
    rw [ih h, length_copied (fun _ => length_copyTo) hcopy,
      length_copied (fun _ => length_moved) hmove]

/-- The block is as it was, or it has been made for the text. -/
theorem mlen_exchange {held : Bool} {pos : ℤ} {out : Bstring × ℤ}
    (h : exchange find repl held m b pos = .ok out) :
    out.1.mlen = b.mlen ∨ ∃ olen, (out.1.mlen : ℤ) ≤ max (b.mlen : ℤ) (snapUpSize olen) ∧
      (out.2 = BSTR_OK → olen ≤ out.1.slen + 1) := by
  have hdata : b.data.length = b.mlen := rfl
  unfold exchange at h
  split at h
  · obtain ⟨d, hloop, h⟩ := bind_eq_ok.mp h
    cases h
    exact Or.inl (length_replaceEqual hloop)
  · split at h
    · obtain ⟨⟨d, p, acc⟩, hloop, h⟩ := bind_eq_ok.mp h
      obtain ⟨b', hend, h⟩ := bind_eq_ok.mp h
      cases h
      exact Or.inl ((mlen_shrinkEnd hend).trans (length_replaceShrinking hloop))
    · obtain ⟨found, -, h⟩ := bind_eq_ok.mp h
      cases found with
      | none =>
        cases h
        exact Or.inl rfl
      | some found =>
        -- the block of the longer text
        right
        obtain ⟨olen, holen, h⟩ := bind_eq_ok.mp h
        obtain ⟨⟨grown, ret⟩, hballoc, h⟩ := bind_eq_ok.mp h
        obtain ⟨hslen, hbound⟩ := balloc_size hballoc
        have hint : b.slen + found.2 + 1 = olen :=
          eq_of_int (mapError_eq_ok.mp holen)
        refine ⟨olen, ?_⟩
        change (if ret = BSTR_OK then _ else _) = _ at h
        by_cases hret : ret = BSTR_OK
        · rw [if_pos hret] at h
          split at h
          · cases h
          · obtain ⟨d, hmoves, h⟩ := bind_eq_ok.mp h
            obtain ⟨d', hnul, h⟩ := bind_eq_ok.mp h
            cases h
            have hblock : d'.length = grown.mlen := by
              rw [length_copyTo hnul, length_moveUp hmoves]
              rfl
            refine ⟨?_, fun _ => ?_⟩
            · show (d'.length : ℤ) ≤ _
              rw [hblock]
              exact hbound
            · show olen ≤ ((grown.slen + found.2).toNat : ℤ) + 1
              simp only at hslen
              omega
        · rw [if_neg hret] at h
          cases h
          exact ⟨hbound, fun hok => absurd hok hret⟩

/-- The block of `bfindreplace` is no longer than its size was asked for. -/
theorem mlen_bfindreplace {find repl : Source} {pos : ℤ} {out : Bstring × ℤ}
    (h : bfindreplace m b find repl pos = .ok out) :
    out.1.mlen = b.mlen ∨ ∃ olen, (out.1.mlen : ℤ) ≤ max (b.mlen : ℤ) (snapUpSize olen) ∧
      (out.2 = BSTR_OK → olen ≤ out.1.slen + 1) := by
  unfold bfindreplace findreplaceengine at h
  split at h
  · cases h
    exact Or.inl rfl
  · split at h
    · cases h
      exact Or.inl rfl
    · split at h
      · exact mlen_exchange h
      · cases h
        exact Or.inl rfl

/-- **`bfindreplace` replaces**, or finds no memory of a size that it asks for. -/
theorem bfindreplace_edited (hb : WellFormed b) {find repl : Source} {pos : ℕ}
    (hfrom : find.Within b) (hto : repl.Within b) (hfind : find.of b.contents ≠ [])
    (hkeeps : FindreplaceKeeps b find repl pos)
    (hfit : (findreplaced b.contents find repl pos).length < LIMIT) :
    ∃ out, bfindreplace m b find repl pos = .ok out ∧
      Edited m (findreplaceAsks b.contents find repl pos) b (findreplaced b.contents find repl pos)
        out := by
  have hint : INT_MAX = 2147483647 := by decide
  have hlimit : LIMIT = 33554432 := rfl
  have hmlen := hb.mlen_le
  obtain ⟨⟨b', rc⟩, hcode, hholds⟩ := findreplaceengine_holds m hfrom hto hfind hkeeps hb.nul
    (by omega) (by omega)
  have hsize := mlen_bfindreplace hcode
  refine ⟨_, hcode, ?_⟩
  rcases hholds with ⟨rfl, htext, hslen, hnul⟩ | ⟨rfl, rfl, hfull⟩
  · refine Or.inl ⟨rfl, htext, hnul, ?_⟩
    rcases hsize with hsame | ⟨olen, hbound, holen⟩
    · exact hsame.le.trans hmlen
    · have holen := holen rfl
      simp only at hbound holen
      have hsnap := snapUpSize_le (show olen ≤ INT_MAX by omega)
      omega
  · exact Or.inr ⟨rfl, hfull⟩

/-! ## One call

A call that is refused leaves the string as it is. Of the other calls each does to the text what it is
to do, or finds no memory. -/

theorem refused {pos : ℤ} (hpos : pos < 0) (b1 : Option Source) (b2 : Source) (fill : UInt8)
    (find repl : Source) :
    bsetstr m b pos b1 fill = .ok (b, BSTR_ERR) ∧ binsertblk m b pos b2 fill = .ok (b, BSTR_ERR) ∧
      btrunc b pos = .ok (b, BSTR_ERR) ∧ bfindreplace m b find repl pos = .ok (b, BSTR_ERR) := by
  refine ⟨?_, ?_, ?_, ?_⟩
  · exact if_pos (Or.inl hpos)
  · exact if_pos (Or.inl hpos)
  · exact if_pos (Or.inl hpos)
  · exact if_pos (Or.inl hpos)

theorem bdelete_refused {pos len : ℤ} (hpos : ¬ pos < 0) (hlen : len < 0) :
    bdelete b pos len = .ok (b, BSTR_ERR) := by
  unfold bdelete
  rw [if_neg hpos]
  exact if_pos (Or.inl hlen)

/-- **A call** is refused and changes nothing, or it does to the text what it is to do, or it finds no
memory of a size that it asks for and changes nothing. It never faults. -/
theorem exec_edited (hb : WellFormed b) {e : Edit} (he : e.Fits b) :
    ∃ out, exec m b e = .ok out ∧
      ((e.apply b.contents = none ∧ out = (b, BSTR_ERR)) ∨
        ∃ text, e.apply b.contents = some text ∧ Edited m (e.asks b.contents) b text out) := by
  obtain ⟨hwithin, hrange, hkeeps, hshort⟩ := he
  have hlen := hb.length_contents
  have hmade : ∀ {text : List UInt8} {x : Except Stop (Bstring × ℤ)},
      (∃ out, x = .ok out ∧ Made text out) →
      ∃ out, x = .ok out ∧ Edited m (e.asks b.contents) b text out := by
    rintro text x ⟨out, hx, hout⟩
    exact ⟨out, hx, Or.inl hout⟩
  -- where a text is made
  have hdone : ∀ {text : List UInt8}, e.apply b.contents = some text →
      (∃ out, exec m b e = .ok out ∧ Edited m (e.asks b.contents) b text out) →
      ∃ out, exec m b e = .ok out ∧ ((e.apply b.contents = none ∧ out = (b, BSTR_ERR)) ∨
        ∃ text, e.apply b.contents = some text ∧ Edited m (e.asks b.contents) b text out) := by
    rintro text htext ⟨out, hx, hout⟩
    exact ⟨out, hx, Or.inr ⟨_, htext, hout⟩⟩
  cases e with
  | bconchar c =>
    have hfit := hshort _ rfl
    rw [List.length_append, List.length_singleton] at hfit
    exact hdone rfl (bconchar_edited hb (by omega) c)
  | bcatblk blk =>
    have hfit := hshort _ rfl
    rw [List.length_append] at hfit
    refine hdone rfl (bcatblk_edited hb hwithin ?_ (by omega))
    rintro ofs len rfl
    exact hkeeps
  | bconcat b1 =>
    have hfit := hshort _ rfl
    rw [List.length_append] at hfit
    exact hdone rfl (bconcat_edited hb hwithin (by omega))
  | bassignblk blk => exact hdone rfl (bassignblk_edited hb hwithin (hshort _ rfl))
  | bsetstr pos b1 fill =>
    by_cases hneg : pos < 0
    · exact ⟨_, (refused hneg b1 (.other []) fill (.other []) (.other [])).1,
        Or.inl ⟨if_pos hneg, rfl⟩⟩
    · obtain ⟨n, rfl⟩ := Int.eq_ofNat_of_zero_le (not_lt.mp hneg)
      have htext : Edit.apply b.contents (.bsetstr n b1 fill) =
          some (overwrite (padded b.contents n fill) n (argument b.contents b1)) := by
        rw [Edit.apply, if_neg hneg, Int.toNat_natCast]
      have hfit := hshort _ htext
      have hpadded := length_padded b.contents n fill
      rw [length_overwritten (by omega)] at hfit
      exact hdone htext (bsetstr_edited hb hwithin (by omega) fill)
  | binsert pos b2 fill =>
    by_cases hneg : pos < 0
    · exact ⟨_, (refused hneg none b2 fill (.other []) (.other [])).2.1, Or.inl ⟨if_pos hneg, rfl⟩⟩
    · obtain ⟨n, rfl⟩ := Int.eq_ofNat_of_zero_le (not_lt.mp hneg)
      have htext : Edit.apply b.contents (.binsert n b2 fill) =
          some (inserted b.contents n (b2.of b.contents) fill) := by
        rw [Edit.apply, if_neg hneg, Int.toNat_natCast]
      have hfit := hshort _ htext
      rw [length_inserted] at hfit
      exact hdone htext (binsertblk_edited hb hwithin (by omega) fill)
  | bdelete pos len =>
    obtain ⟨hlow, hhigh, hlenmax⟩ := hrange
    by_cases hneg : pos < 0
    · have hcode : exec m b (.bdelete pos len) = bdelete b 0 (len + pos) :=
        bdelete_front hneg (by omega) hlenmax
      have hpos : pos.toNat = 0 := by omega
      by_cases hrest : len + pos < 0
      · refine ⟨_, hcode.trans (bdelete_refused (lt_irrefl 0) hrest), Or.inl ⟨?_, rfl⟩⟩
        rw [Edit.apply, if_pos hneg]
        exact if_pos hrest
      · obtain ⟨n, hn⟩ := Int.eq_ofNat_of_zero_le (not_lt.mp hrest)
        have htext : Edit.apply b.contents (.bdelete pos len) =
            some (b.contents.take 0 ++ b.contents.drop (0 + n)) := by
          rw [Edit.apply, if_pos hneg]
          show (if len + pos < 0 then _ else _) = _
          rw [if_neg hrest, hpos, hn, Int.toNat_natCast]
        refine hdone htext (hmade ?_)
        rw [hcode, hn]
        exact bdelete_made hb (show ((0 : ℕ) : ℤ) + n ≤ INT_MAX by rw [Nat.cast_zero]; omega)
    · obtain ⟨n, rfl⟩ := Int.eq_ofNat_of_zero_le (not_lt.mp hneg)
      by_cases hrest : len < 0
      · refine ⟨_, bdelete_refused hneg hrest, Or.inl ⟨?_, rfl⟩⟩
        rw [Edit.apply, if_neg hneg]
        exact if_pos hrest
      · obtain ⟨k, rfl⟩ := Int.eq_ofNat_of_zero_le (not_lt.mp hrest)
        have htext : Edit.apply b.contents (.bdelete n k) =
            some (b.contents.take n ++ b.contents.drop (n + k)) := by
          rw [Edit.apply, if_neg hneg]
          show (if (k : ℤ) < 0 then _ else _) = _
          rw [if_neg hrest, Int.toNat_natCast, Int.toNat_natCast]
        exact hdone htext (hmade (bdelete_made hb hhigh))
  | btrunc n =>
    by_cases hneg : n < 0
    · exact ⟨_, (refused (m := m) hneg none (.other []) 0 (.other []) (.other [])).2.2.1,
        Or.inl ⟨if_pos hneg, rfl⟩⟩
    · obtain ⟨n, rfl⟩ := Int.eq_ofNat_of_zero_le (not_lt.mp hneg)
      have htext : Edit.apply b.contents (.btrunc n) = some (b.contents.take n) := by
        rw [Edit.apply, if_neg hneg, Int.toNat_natCast]
      exact hdone htext (hmade (btrunc_made hb n))
  | bltrimws => exact hdone rfl (hmade (bltrimws_made hb))
  | brtrimws => exact hdone rfl (hmade (brtrimws_made hb))
  | btrimws => exact hdone rfl (hmade (btrimws_made hb))
  | btoupper => exact hdone rfl (hmade (changeCase_made hb upcase))
  | btolower => exact hdone rfl (hmade (changeCase_made hb downcase))
  | bfindreplace find repl pos =>
    by_cases hneg : pos < 0
    · exact ⟨_, (refused hneg none (.other []) 0 find repl).2.2.2,
        Or.inl ⟨if_pos (Or.inl hneg), rfl⟩⟩
    · by_cases hnil : find.of b.contents = []
      · refine ⟨(b, BSTR_ERR), ?_, Or.inl ⟨if_pos (Or.inr hnil), rfl⟩⟩
        refine if_pos (Or.inr (Or.inl ?_))
        rw [Source.bytes_eq hwithin.1, hnil]
        rfl
      · obtain ⟨n, rfl⟩ := Int.eq_ofNat_of_zero_le (not_lt.mp hneg)
        have htext : Edit.apply b.contents (.bfindreplace find repl n) =
            some (findreplaced b.contents find repl n) := by
          rw [Edit.apply, if_neg (fun h => h.elim hneg hnil), Int.toNat_natCast]
        exact hdone htext (bfindreplace_edited hb hwithin.1 hwithin.2 hnil hkeeps (hshort _ htext))

/-! ## Runs

Each call finds a memory of its own. The text behind a run is what the calls make of the text before it,
without those that found no memory; when there is memory enough, that is all of them. -/

/-- A call and the memory it finds. -/
abbrev Call : Type :=
  Memory × Edit

def step (b : Bstring) (c : Call) : Except Stop Bstring :=
  (exec c.1 b c.2).map Prod.fst

/-- What can become of a text along a list of calls. -/
inductive Follows : List UInt8 → List Call → List UInt8 → Prop
  | nil (text) : Follows text [] text
  | done {text text' last : List UInt8} {c : Call} {cs : List Call}
      (happly : c.2.apply text = some text') (hrest : Follows text' cs last) :
      Follows text (c :: cs) last
  | refused {text last : List UInt8} {c : Call} {cs : List Call} (happly : c.2.apply text = none)
      (hrest : Follows text cs last) : Follows text (c :: cs) last
  | starved {text text' last : List UInt8} {c : Call} {cs : List Call}
      (happly : c.2.apply text = some text')
      (hroom : ∃ size : ℤ, (size = text'.length + 1 ∨ size ∈ c.2.asks text) ∧ c.1.room size = false)
      (hrest : Follows text cs last) : Follows text (c :: cs) last

/-- Where there is always memory only one thing can become of it. -/
theorem Follows.eq_foldl {text last : List UInt8} {cs : List Call} (h : Follows text cs last)
    (hroom : ∀ c ∈ cs, c.1.Ample) :
    last = cs.foldl (fun text c => (c.2.apply text).getD text) text := by
  induction h with
  | nil text => rfl
  | done happly hrest ih =>
    rw [List.foldl_cons, happly]
    exact ih (List.forall_mem_cons.mp hroom).2
  | refused happly hrest ih =>
    rw [List.foldl_cons, happly]
    exact ih (List.forall_mem_cons.mp hroom).2
  | starved happly hfull hrest ih =>
    obtain ⟨size, -, hfull⟩ := hfull
    rw [(List.forall_mem_cons.mp hroom).1 size] at hfull
    cases hfull

/-- A block of eight bytes that holds two characters. -/
def two : Bstring :=
  { data := [97, 98, 0, 7, 7, 7, 7, 7], slen := 2 }

def plenty : Memory :=
  .ample fun _ => 7

/-- Twice the string, upper case, and one of the characters for another one that is in the string. -/
def twice : List Call :=
  [(plenty, .bcatblk (.own 0 2)), (plenty, .btoupper), (plenty, .bfindreplace (.own 1 1) (.own 0 1) 0)]

end Lcthw.Bstrlib
