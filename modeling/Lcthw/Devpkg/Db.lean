import Lcthw.Bstrlib.Reading
import Lcthw.Run

/-!
# Lcthw — the package database of `devpkg` (`db.c`)

The database file is a string of bytes that `fwrite` appends to, and opening it succeeds. A record is
meant to be a url with a newline behind it, but `bconchar` takes a `char` and is given the string literal
`"\n"`, so what is appended is the low byte of that literal's address. A lookup searches the whole file
for the url.

* **`load_eq`**: the file is read whole, up to a size.
* **`run_record`**: the file after some records.
* **`find_recorded_iff`**: when a lookup says whether a url is one of those recorded.
-/

namespace Lcthw.Devpkg

open Bstrlib

/-! ## The database

The functions are compositions of those of `bstrlib.c`, each in the memory that it finds. What is in the
file is all that one call leaves to the next. -/

section Code

variable (m : Memory)

/-- `DB_load` -/
def load (file : List UInt8) : Except Stop (Option Bstring) :=
  bread m file

/-- `DB_find` -/
def find (file url : List UInt8) : Except Stop ℤ := do
  let line ← bfromcstr m url
  let data ← load m file
  match data with
  | none => return -1
  | some data =>
    if binstr (some data.contents) (line.map Bstring.contents) = BSTR_ERR then return 0 else return 1

/-- `DB_update`: what it returns, and the file. `sep` is the low byte of the address of `"\n"`. That
the url is recorded already is only logged. -/
def update (sep : UInt8) (file url : List UInt8) : Except Stop (ℤ × List UInt8) := do
  let _ ← find m file url
  let line ← bfromcstr m url
  match line with
  | none => throw (.fault .nullDeref)
  | some line => do
    let (line, _) ← bconchar m line sep
    -- nothing is written of an empty line, which `fwrite` reports
    if line.slen = 0 then return (-1, file) else return (0, file ++ line.contents)

/-- A url: a nonempty C string without newlines. -/
abbrev Url : Type :=
  { s : List UInt8 // s ≠ [] ∧ 0 ∉ s ∧ 10 ∉ s }

/-- `DB_update`, for its effect on the file. -/
def record (sep : UInt8) (file : List UInt8) (url : Url) : Except Stop (List UInt8) :=
  (update m sep file url.1).map Prod.snd

end Code

/-! ## Looking a url up

The length of a url is made an `int`. One of more than `INT_MAX` bytes is written behind its block, unless
that `int` is just `INT_MAX` and `bfromcstr` refuses it.
-/

variable {m : Memory} {file : List UInt8} {url : List UInt8} {sep : UInt8}

/-- **The file is read whole** unless the buffer would outgrow `balloc`. -/
theorem load_eq (hm : m.Ample) (file : List UInt8) :
    ((file.length : ℤ) < BREAD_MAX ∧ ∃ data, load m file = .ok (some data) ∧ data.contents = file) ∨
      (BREAD_MAX ≤ (file.length : ℤ) ∧ load m file = .error (.fault .intOverflow)) :=
  bread_eq hm file

/-- A length that `bfromcstr` copies or refuses. -/
def Countable (url : List UInt8) : Prop :=
  (url.length : ℤ) < INT_MAX ∨ toInt url.length = INT_MAX

/-- **A lookup** in a file that can be read. -/
theorem find_eq (hm : m.Ample) (hfile : (file.length : ℤ) < BREAD_MAX) (hne : url ≠ [])
    (hurl : Countable url) : find m file url = .ok (if url <:+: file then 1 else 0) := by
  have hint : BREAD_MAX < INT_MAX := by decide
  obtain ⟨-, data, hdata, hcontents⟩ | ⟨hbig, -⟩ := load_eq hm file
  · unfold find
    by_cases hshort : (url.length : ℤ) < INT_MAX
    · obtain ⟨line, hline, htext, -⟩ := bfromcstr_eq hm hshort
      rw [hline, ok_bind, hdata, ok_bind]
      show (if binstr (some data.contents) (some line.contents) = BSTR_ERR then Except.ok 0
        else .ok 1) = _
      rw [hcontents, htext, if_congr (binstr_eq_err_iff hne) rfl rfl]
      by_cases hin : url <:+: file
      · rw [if_neg (not_not.mpr hin), if_pos hin]
      · rw [if_pos hin, if_neg hin]
    · -- a url that is refused is not found, and no file that can be read has it
      have hwrap : toInt url.length = INT_MAX := hurl.resolve_left hshort
      have hlong : ¬ url <:+: file := fun hin => by
        have := hin.length_le
        omega
      obtain ⟨hline, -⟩ | ⟨-, hne'⟩ := bfromcstr_long hm (not_lt.mp hshort)
      · rw [hline, ok_bind, hdata, if_neg hlong]
        rfl
      · exact absurd hwrap hne'
  · omega

/-- Where the search ends, both the file and the url were short enough to be read. -/
theorem length_lt_of_find (hm : m.Ample) {r : ℤ} (h : find m file url = .ok r) :
    (file.length : ℤ) < BREAD_MAX ∧ Countable url := by
  unfold find at h
  obtain ⟨line, hline, h⟩ := bind_eq_ok.mp h
  obtain ⟨data, hdata, -⟩ := bind_eq_ok.mp h
  constructor
  · obtain ⟨hlt, -⟩ | ⟨-, hover⟩ := load_eq hm file
    · exact hlt
    · rw [hover] at hdata
      cases hdata
  · rcases lt_or_ge (url.length : ℤ) INT_MAX with hlt | hge
    · exact Or.inl hlt
    · obtain ⟨-, hwrap⟩ | ⟨hover, -⟩ := bfromcstr_long hm hge
      · exact Or.inr hwrap
      · rw [hover] at hline
        cases hline

/-! ## Recording urls

A record puts a url and one byte behind the file. Whether it gets there depends on the lengths alone:
those of the file, which is read first, and of the url. -/

/-- A line is what is to be recorded, or it is too long. -/
theorem line_cases (hm : m.Ample) (hne : url ≠ []) (hurl : (url.length : ℤ) < INT_MAX)
    (sep : UInt8) :
    ∃ line, bfromcstr m url = .ok (some line) ∧
      ((∃ line', bconchar m line sep = .ok (line', BSTR_OK) ∧ line'.contents = url ++ [sep]) ∨
        (BREAD_MAX ≤ (url.length : ℤ) ∧
          bconchar m line sep = .error (.fault .intOverflow))) := by
  have hpos : (url.length : ℤ) ≠ 0 := by
    simpa using hne
  obtain ⟨line, hline, htext, hslen, hmlen⟩ := bfromcstr_eq hm hurl
  rw [if_pos hpos] at hmlen
  exact ⟨line, hline, bconchar_cstr hm htext hslen hmlen sep⟩

/-- A url is appended with a separator behind it. -/
theorem record_eq (hm : m.Ample) {url : Url} (hfile : (file.length : ℤ) < BREAD_MAX)
    (hurl : (url.1.length : ℤ) < BREAD_MAX) :
    record m sep file url = .ok (file ++ (url.1 ++ [sep])) := by
  have hint : BREAD_MAX < INT_MAX := by decide
  obtain ⟨line, hline, ⟨line', hsep, htext⟩ | ⟨hlong, -⟩⟩ :=
    line_cases hm url.2.1 (hurl.trans hint) sep
  · have hslen : line'.slen ≠ 0 := by
      intro hzero
      rw [Bstring.contents, hzero, List.take_zero] at htext
      exact absurd htext.symm (by simp)
    unfold record update
    rw [find_eq hm hfile url.2.1 (Or.inl (hurl.trans hint)), ok_bind, hline, ok_bind]
    simp only [hsep, ok_bind]
    rw [if_neg hslen, htext]
    rfl
  · omega

/-- What is recorded is appended. -/
theorem record_append (hm : m.Ample) {url : Url} {file' : List UInt8}
    (h : record m sep file url = .ok file') : file' = file ++ (url.1 ++ [sep]) := by
  unfold record at h
  obtain ⟨⟨rc, after⟩, hupdate, rfl⟩ := map_eq_ok.mp h
  unfold update at hupdate
  obtain ⟨r, -, hupdate⟩ := bind_eq_ok.mp hupdate
  rcases lt_or_ge (url.1.length : ℤ) INT_MAX with hlt | hge
  · obtain ⟨line, hline, ⟨line', hsep, htext⟩ | ⟨-, hover⟩⟩ := line_cases hm url.2.1 hlt sep
    · have hslen : line'.slen ≠ 0 := by
        intro hzero
        rw [Bstring.contents, hzero, List.take_zero] at htext
        exact absurd htext.symm (by simp)
      rw [hline, ok_bind] at hupdate
      simp only [hsep, ok_bind] at hupdate
      rw [if_neg hslen, htext] at hupdate
      exact (Prod.mk.inj (Except.ok.inj hupdate)).2.symm
    · rw [hline, ok_bind] at hupdate
      simp only [hover, error_bind] at hupdate
      cases hupdate
  · -- a line that is refused is dereferenced
    obtain ⟨hline, -⟩ | ⟨hover, -⟩ := bfromcstr_long hm hge
    · rw [hline] at hupdate
      cases hupdate
    · rw [hover] at hupdate
      cases hupdate

/-- The records of some urls. -/
def records (sep : UInt8) (us : List Url) : List UInt8 :=
  us.flatMap fun u => u.1 ++ [sep]

theorem length_records (sep : UInt8) (us : List Url) :
    (records sep us).length = (us.map fun u => u.1.length + 1).sum := by
  unfold records
  rw [List.length_flatMap]
  congr 1
  exact List.map_congr_left fun u _ => by rw [List.length_append, List.length_singleton]

/-- **The file after some records.** -/
theorem run_record (hm : m.Ample) {us : List Url}
    (h : (file.length + (records sep us).length : ℤ) < BREAD_MAX) :
    Run.run (record m sep) file us = .ok (file ++ records sep us) := by
  induction us generalizing file with
  | nil => simp [records]
  | cons u us ih =>
    have hcons : records sep (u :: us) = (u.1 ++ [sep]) ++ records sep us := rfl
    rw [hcons] at h
    simp only [List.length_append, List.length_singleton] at h
    rw [Run.run_cons_ok]
    refine ⟨_, record_eq hm (by push_cast at h; omega) (by push_cast at h; omega), ?_⟩
    rw [hcons, ← List.append_assoc file (u.1 ++ [sep])]
    apply ih
    simp only [List.length_append, List.length_singleton]
    push_cast at h ⊢
    omega

theorem run_record_append (hm : m.Ample) {us : List Url} {file' : List UInt8}
    (h : Run.run (record m sep) file us = .ok file') : file' = file ++ records sep us := by
  induction us generalizing file with
  | nil =>
    obtain rfl : file = file' := by simpa using h
    simp [records]
  | cons u us ih =>
    obtain ⟨mid, hmid, hrest⟩ := (Run.run_cons_ok _).mp h
    rw [ih hrest, record_append hm hmid, List.append_assoc]
    rfl

/-- **When a lookup is right** after some records in an empty file: they can be read, and the url is
one of them or no part of them. The memory never runs out, and `fresh` is what is in a new block. -/
theorem find_recorded_iff (fresh : ℕ → UInt8) (sep : UInt8) (us : List Url) (u : Url) :
    (∃ file, Run.run (record (.ample fresh) sep) [] us = .ok file ∧
        find (.ample fresh) file u.1 = .ok (if u ∈ us then 1 else 0)) ↔
      ((us.map fun v => v.1.length + 1).sum : ℕ) < BREAD_MAX ∧ Countable u.1 ∧
        (u ∈ us ∨ ¬ u.1 <:+: us.flatMap fun v => v.1 ++ [sep]) := by
  have hm := ample_ample fresh
  rw [← length_records sep us]
  constructor
  · rintro ⟨file, hrun, hfind⟩
    obtain rfl : file = records sep us := run_record_append hm hrun
    obtain ⟨hfile, hurl⟩ := length_lt_of_find hm hfind
    refine ⟨hfile, hurl, ?_⟩
    rw [find_eq hm hfile u.2.1 hurl] at hfind
    -- a url that is not recorded is found as a part of those that are
    by_cases hmem : u ∈ us
    · exact Or.inl hmem
    · refine Or.inr fun hin => ?_
      rw [if_pos (show u.1 <:+: records sep us from hin), if_neg hmem] at hfind
      exact absurd (Except.ok.inj hfind) (by decide)
  · rintro ⟨hfile, hurl, hpart⟩
    have hrun : Run.run (record (.ample fresh) sep) [] us = .ok ([] ++ records sep us) :=
      run_record hm (by simpa using hfile)
    refine ⟨records sep us, hrun, ?_⟩
    rw [find_eq hm hfile u.2.1 hurl]
    by_cases hmem : u ∈ us
    · have hin : u.1 <:+: records sep us := by
        obtain ⟨before, after, rfl⟩ := List.append_of_mem hmem
        refine ⟨records sep before, [sep] ++ records sep after, ?_⟩
        simp [records, List.flatMap_append]
      rw [if_pos hin, if_pos hmem]
    · have hout : ¬ u.1 <:+: records sep us := hpart.resolve_left hmem
      rw [if_neg hout, if_neg hmem]

/-- A url that is the beginning of a recorded one is found, though it has not been recorded. -/
theorem beginning_is_found :
    ∃ file, Run.run (record (.ample fun _ => 0) 4) [] [⟨[97, 98], by decide⟩] = .ok file ∧
      find (.ample fun _ => 0) file [97] = .ok 1 ∧
      (⟨[97], by decide⟩ : Url) ∉ ([⟨[97, 98], by decide⟩] : List Url) :=
  ⟨_, rfl, rfl, by decide⟩

end Lcthw.Devpkg
