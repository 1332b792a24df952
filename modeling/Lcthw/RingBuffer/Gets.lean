import Lcthw.RingBuffer.Fifo
import Lcthw.Bstrlib.Reading

/-!
# Lcthw — `RingBuffer_gets`

A bstring is the list of its bytes, and `none` is the null pointer. Allocation succeeds.

* **`gets_eq`**: what `gets` does to a valid buffer, whatever branch it takes.
* **`valid_call`**: every call of `write`, `read` and `gets` keeps a buffer valid.
* **`gets_agrees_iff`**: `gets` returns what `read` delivers exactly when the buffer has not looped
  or the bytes asked for are those up to the end of the block.
* **`blk2bstr_agrees`**, **`bconcat_agrees`**: what is said of lists here is what the functions of
  `bstrlib.c` do on blocks.
-/

namespace Lcthw.RingBuffer

open Ring

/-! ## The code -/

/-- `blk2bstr(mem + off, len)`, where the size of the allocation is an `int`. -/
def blk2bstr (mem : ℤ → CChar) (off len : ℤ) : Except Fault (Option (List CChar)) :=
  if len < 0 then
    return none
  else do
    let _ ← int (len + (2 - if len ≠ 0 then 1 else 0))
    return some (copyOut mem off len.toNat)

/-- `bconcat`: nothing happens when either bstring is null. -/
def bconcat (b0 b1 : Option (List CChar)) : Except Fault (Option (List CChar)) :=
  match b0, b1 with
  | some s, some t => do
    let _ ← int (s.length + t.length)
    return some (s ++ t)
  | b0, _ => return b0

def blength (b : Option (List CChar)) : ℤ :=
  match b with
  | some s => s.length
  | none => 0

/-- The result of `gets`: `asserted` says whether the assertion after the commit holds. -/
structure Gotten where
  result : Option (List CChar)
  ring : RingBuffer
  copies : List Region
  asserted : Bool

/-- The copying of an accepted `gets`. The second piece is asked for with a negative length, so it
is null and `bconcat` leaves the first one alone. -/
def slice (b : RingBuffer) (amount : ℤ) : Except Fault (Option (List CChar) × List Region) :=
  if b.looped = 1 ∧ amount < b.length - b.start then do
    let room ← int (b.length - b.start)
    let result ← blk2bstr b.buffer b.start room
    let rest ← int (amount - room)
    let result1 ← blk2bstr b.buffer 0 rest
    let result ← bconcat result result1
    return (result, [⟨b.start, room⟩] ++ if result1.isSome then [⟨0, rest⟩] else [])
  else do
    let result ← blk2bstr b.buffer b.start amount
    return (result, [⟨b.start, amount⟩])

/-- `RingBuffer_gets`. The last check negates the length alone: it compares `!blength(result)`
with `amount`. -/
def gets (b : RingBuffer) (amount : ℤ) : Except Fault Gotten := do
  let refused : Gotten := { result := none, ring := b, copies := [], asserted := true }
  if amount > 0 then
    let n ← b.availableData
    if amount ≤ n then
      let (result, copies) ← b.slice amount
      if result = none then
        return { refused with copies }
      else if (if blength result = 0 then 1 else 0) = amount then
        return { refused with copies }
      else
        let ring ← commitRead b amount
        let left ← ring.availableData
        return { result, ring, copies, asserted := decide (left ≥ 0) }
    else
      return refused
  else
    return refused

/-- A call on a ring buffer that reads with `read` or with `gets`. -/
inductive Call where
  | queue (op : Op)
  | gets (amount : ℤ)

def call (b : RingBuffer) : Call → Except Fault RingBuffer
  | .queue op => (b.exec op).map Prod.fst
  | .gets amount => (b.gets amount).map Gotten.ring

/-! ## What `gets` does

The second piece of a `gets` that wraps is asked for with a negative length and comes out null, and the
check of the length of the result is no check. So `gets` returns the bytes of its span, more or less
than it was asked for, and commits what it was asked for. -/

variable {L : ℤ} {b : RingBuffer}

/-- How many bytes `gets` takes from `start` on. -/
def span (b : RingBuffer) (amount : ℕ) : ℕ :=
  if b.looped = 1 ∧ (amount : ℤ) < b.length - b.start then (b.length - b.start).toNat else amount

theorem span_pos {n : ℕ} (hn : 0 < n) : 0 < b.span n := by
  unfold span
  split
  · omega
  · exact hn

/-- Room for the bytes and a NUL behind them. -/
theorem blk2bstr_eq (mem : ℤ → CChar) (off : ℤ) {n : ℕ} (hn : 0 < n) (hmax : (n : ℤ) < INT_MAX) :
    blk2bstr mem off n = .ok (some (copyOut mem off n)) := by
  have hmin : -INT_MAX - 1 ≤ 0 := by decide
  unfold blk2bstr
  rw [if_neg (by omega), if_pos (by omega), int_ok (by omega) (by omega)]
  rfl

theorem blk2bstr_overflow (mem : ℤ → CChar) (off : ℤ) :
    blk2bstr mem off INT_MAX = .error .intOverflow := rfl

/-- Every span but the one of `INT_MAX` bytes is copied to a bstring. -/
theorem slice_eq (hv : Valid L b) {n : ℕ} (hn : 0 < n)
    (hspan : (b.span n : ℤ) < INT_MAX) :
    b.slice n = .ok (some (copyOut b.buffer b.start (b.span n)), [⟨b.start, b.span n⟩]) := by
  obtain ⟨hlen, hstart, hstartL, _, _, _⟩ := hv
  unfold slice
  by_cases hwrap : b.looped = 1 ∧ (n : ℤ) < b.length - b.start
  · -- two pieces, of which the second has a negative length and is null
    have hroom : b.length - b.start = (b.span n : ℕ) := by
      unfold span
      rw [if_pos hwrap]
      omega
    have hnull : blk2bstr b.buffer 0 (n - (b.span n : ℤ)) = .ok none := if_pos (by omega)
    rw [if_pos hwrap, hroom, int_ok (by omega) (by omega), ok_bind,
      blk2bstr_eq _ _ (span_pos hn) hspan, ok_bind, int_ok (by omega) (by omega), ok_bind, hnull]
    rfl
  · have hroom : b.span n = n := if_neg hwrap
    rw [hroom] at hspan ⊢
    rw [if_neg hwrap, blk2bstr_eq _ _ hn hspan]
    rfl

/-- The size of the allocation is one more than the bytes. -/
theorem slice_overflow (hv : Valid L b) {n : ℕ}
    (hspan : (b.span n : ℤ) = INT_MAX) : b.slice n = .error .intOverflow := by
  obtain ⟨hlen, hstart, hstartL, _, _, _⟩ := hv
  unfold slice
  by_cases hwrap : b.looped = 1 ∧ (n : ℤ) < b.length - b.start
  · -- the first piece is as long as the block
    have hroom : b.length - b.start = INT_MAX := by
      rw [← hspan, span, if_pos hwrap]
      omega
    rw [if_pos hwrap, hroom, int_ok (by decide) le_rfl, ok_bind, blk2bstr_overflow]
    rfl
  · have hroom : b.span n = n := if_neg hwrap
    rw [hroom] at hspan
    rw [if_neg hwrap, hspan, blk2bstr_overflow]
    rfl

theorem countable_taken (hc : b.Countable) (n : ℕ) : (b.taken n).Countable := by
  intro hl
  apply hc
  intro h0
  apply hl
  show (if b.length ≤ b.start + n then 0 else b.looped) = 0
  rw [h0, ite_self]

/-- A `gets` of nothing, or of more than is stored, returns null and changes nothing. -/
theorem gets_refused (hmax : L ≤ INT_MAX) (hv : Valid L b) (hc : b.Countable) {amount : ℤ}
    (h : amount ≤ 0 ∨ b.stored < amount) :
    b.gets amount = .ok { result := none, ring := b, copies := [], asserted := true } := by
  unfold gets
  by_cases hpos : amount > 0
  · rw [if_pos hpos, availableData_eq hmax hv hc, ok_bind, if_neg (by omega)]
    rfl
  · rw [if_neg hpos]
    rfl

/-- **An accepted `gets`** drops the oldest bytes; what it returns are the bytes of the span. -/
theorem gets_eq (hmax : L ≤ INT_MAX) (hv : Valid L b) (hc : b.Countable) {n : ℕ} (hpos : 0 < n)
    (hn : n ≤ b.stored) (hspan : (b.span n : ℤ) < INT_MAX) :
    b.gets n = .ok
      { result := some (copyOut b.buffer b.start (b.span n)), ring := b.taken n,
        copies := [⟨b.start, b.span n⟩], asserted := true } := by
  have hleft : (b.taken n).availableData = .ok (b.taken n).stored :=
    availableData_eq hmax (hv.taken hn).1 (countable_taken hc n)
  have hlength : blength (some (copyOut b.buffer b.start (b.span n))) ≠ 0 := by
    have := span_pos (b := b) hpos
    simp [blength]
    omega
  unfold gets
  rw [if_pos (by omega), availableData_eq hmax hv hc, ok_bind, if_pos (by omega),
    slice_eq hv hpos hspan, ok_bind]
  simp only []
  rw [if_neg (by simp), if_neg (by rw [if_neg hlength]; omega),
    commitRead_eq hv (start_add_le hmax hv hc hn), ok_bind, hleft, ok_bind,
    decide_eq_true (by omega)]
  rfl

theorem gets_overflow (hmax : L ≤ INT_MAX) (hv : Valid L b) (hc : b.Countable) {n : ℕ}
    (hpos : 0 < n) (hn : n ≤ b.stored) (hspan : (b.span n : ℤ) = INT_MAX) :
    b.gets n = .error .intOverflow := by
  unfold gets
  rw [if_pos (by omega), availableData_eq hmax hv hc, ok_bind, if_pos (by omega),
    slice_overflow hv hspan]
  rfl

theorem gets_uncountable (hc : ¬ b.Countable) {amount : ℤ} (hpos : 0 < amount) :
    b.gets amount = .error .intOverflow := by
  unfold gets
  rw [if_pos hpos, availableData_overflow hc]
  rfl

theorem span_le (hv : Valid L b) {n : ℕ} (hn : n ≤ b.stored) : (b.span n : ℤ) ≤ L := by
  have hle := hv.stored_le
  obtain ⟨hlen, hstart, hstartL, _, _, _⟩ := hv
  unfold span
  split <;> omega

/-! ## Runs

A buffer may also be created with no room, or with less than none. Nothing is ever stored in such a
buffer, and every call on it that ends leaves it so. -/

/-- What holds of a buffer created with no room: nothing is ever stored in it. -/
structure Idle (b : RingBuffer) : Prop where
  length_nonpos : b.length ≤ 0
  start_eq : b.start = 0
  end_eq : b.end = 0
  looped_eq : b.looped = 0

theorem Idle.availableData_eq (hi : Idle b) : b.availableData = .ok 0 := by
  unfold availableData
  rw [if_pos hi.looped_eq, hi.end_eq, hi.start_eq]
  rfl

theorem Idle.rewind (hi : Idle b) : Idle b.rewind :=
  ⟨hi.length_nonpos, rfl, rfl, hi.looped_eq⟩

theorem Idle.availableSpace_eq (hi : Idle b) {space : ℤ} (h : b.availableSpace = .ok space) :
    b.length = space := by
  unfold availableSpace at h
  rw [hi.availableData_eq, ok_bind, sub_zero] at h
  exact eq_of_int h

theorem Idle.commitRead_zero (hi : Idle b) {b' : RingBuffer} (h : b.commitRead 0 = .ok b') :
    Idle b' := by
  have hlen := hi.length_nonpos
  unfold commitRead at h
  rw [hi.start_eq, add_zero, int_ok (by decide) (by decide), ok_bind, if_pos hlen] at h
  obtain ⟨s, hs, hret⟩ := bind_eq_ok.mp h
  cases hret
  unfold rem at hs
  split at hs
  · cases hs
  · cases hs
    exact ⟨hlen, Int.zero_tmod _, hi.end_eq, rfl⟩

/-- Committing an empty write to a block of no bytes divides by its length. -/
theorem commitWrite_zero_zero {b' : RingBuffer} (hlen : b.length = 0) (hend : b.end = 0) :
    b.commitWrite 0 ≠ .ok b' := by
  intro h
  unfold commitWrite at h
  rw [hend, hlen] at h
  cases h

/-- Nothing but an empty write fits, and that one faults. -/
theorem Idle.exec (hi : Idle b) {op : Op} {b' : RingBuffer} {out : Outcome}
    (h : b.exec op = .ok (b', out)) : Idle b' := by
  obtain ⟨hlen, hstart, hend, hloop⟩ := hi
  cases op with
  | write data =>
    obtain ⟨w, hw, hret⟩ := bind_eq_ok.mp h
    cases hret
    unfold write at hw
    rw [Idle.availableData_eq ⟨hlen, hstart, hend, hloop⟩, ok_bind] at hw
    obtain ⟨space, hspace, hw⟩ := bind_eq_ok.mp hw
    have hi : Idle b.rewind := Idle.rewind ⟨hlen, hstart, hend, hloop⟩
    obtain rfl := Idle.availableSpace_eq hi hspace
    split at hw
    · next hle =>
      -- the data fits into no bytes
      have hzero : b.length = 0 := by
        change (data.length : ℤ) ≤ b.length at hle
        omega
      have hnone : data.length = 0 := by
        change (data.length : ℤ) ≤ b.length at hle
        omega
      rw [hnone] at hw
      change b.rewind.place _ 0 = _ at hw
      unfold place at hw
      rw [if_neg (by rintro ⟨-, hlt⟩; change b.length - 0 < 0 at hlt; omega)] at hw
      obtain ⟨mem, -, hw⟩ := bind_eq_ok.mp hw
      obtain ⟨ring, hcommit, -⟩ := bind_eq_ok.mp hw
      exact absurd hcommit (commitWrite_zero_zero hzero rfl)
    · cases hw
      exact hi
  | read target amount =>
    obtain ⟨d, hd, hret⟩ := bind_eq_ok.mp h
    cases hret
    unfold read at hd
    rw [Idle.availableData_eq ⟨hlen, hstart, hend, hloop⟩, ok_bind] at hd
    split at hd
    · next hle =>
      obtain rfl : amount = 0 := by omega
      obtain ⟨⟨t, cs⟩, hfetch, hd⟩ := bind_eq_ok.mp hd
      obtain ⟨ring, hcommit, hd⟩ := bind_eq_ok.mp hd
      have hring := Idle.commitRead_zero ⟨hlen, hstart, hend, hloop⟩ hcommit
      cases hd
      show Idle (if ring.end = ring.start then ring.rewind else ring)
      split
      · exact hring.rewind
      · exact hring
    · cases hd
      exact ⟨hlen, hstart, hend, hloop⟩
  | availableData =>
    obtain ⟨n, hn, hret⟩ := bind_eq_ok.mp h
    cases hret
    exact ⟨hlen, hstart, hend, hloop⟩

theorem Idle.gets (hi : Idle b) (amount : ℤ) :
    b.gets amount = .ok { result := none, ring := b, copies := [], asserted := true } := by
  unfold RingBuffer.gets
  by_cases hpos : amount > 0
  · rw [if_pos hpos, hi.availableData_eq, ok_bind, if_neg (by omega)]
    rfl
  · rw [if_neg hpos]
    rfl

theorem Idle.call (hi : Idle b) {c : Call} {b' : RingBuffer} (h : b.call c = .ok b') : Idle b' := by
  cases c with
  | queue op =>
    obtain ⟨⟨b₁, out⟩, hexec, rfl⟩ := map_eq_ok.mp h
    exact hi.exec hexec
  | gets amount =>
    obtain ⟨g, hg, rfl⟩ := map_eq_ok.mp h
    rw [hi.gets] at hg
    cases hg
    exact hi

/-- Whatever a call of `gets` returns, it takes only what was asked for out of the buffer. -/
theorem valid_call (hL : 0 < L) (hmax : L ≤ INT_MAX) (hv : Valid L b) {c : Call} {b' : RingBuffer}
    (h : b.call c = .ok b') : Valid L b' := by
  cases c with
  | queue op =>
    obtain ⟨⟨b₁, out⟩, hexec, rfl⟩ := map_eq_ok.mp h
    exact valid_exec hL hmax hv hexec
  | gets amount =>
    obtain ⟨g, hg, rfl⟩ := map_eq_ok.mp h
    by_cases hc : b.Countable
    · by_cases hread : 0 < amount ∧ amount ≤ b.stored
      · -- an accepted call moves `start` on, whatever it has copied
        lift amount to ℕ using by omega
        have hpos : 0 < amount := by omega
        have hn : amount ≤ b.stored := by omega
        rcases ((span_le hv hn).trans hmax).lt_or_eq with hspan | hspan
        · rw [gets_eq hmax hv hc hpos hn hspan] at hg
          cases hg
          exact (hv.taken hn).1
        · rw [gets_overflow hmax hv hc hpos hn hspan] at hg
          cases hg
      · rw [gets_refused hmax hv hc (by omega)] at hg
        cases hg
        exact hv
    · rcases lt_or_ge 0 amount with hpos | hneg
      · rw [gets_uncountable hc hpos] at hg
        cases hg
      · unfold gets at hg
        rw [if_neg (by omega)] at hg
        cases hg
        exact hv

/-- `gets` returns the oldest `amount` bytes, which are the ones `read` delivers, reads the block
alone, and leaves the contents that `read` leaves. -/
def GetsAgrees (L : ℤ) (b : RingBuffer) (amount : ℕ) : Prop :=
  ∃ g bytes, b.gets amount = .ok g ∧ g.result = some bytes ∧ g.asserted = true ∧
    bytes.length = amount ∧ bytes = b.contents.take amount ∧
    g.ring.contents = b.contents.drop amount ∧ (∀ r ∈ g.copies, r.Inside L) ∧
    ∀ target, ∃ d, b.read target amount = .ok d ∧ d.rc = amount ∧
      copyOut d.target 0 amount = bytes ∧ d.ring.contents = g.ring.contents

/-- When the span is what was asked for, `gets` and `read` take the same bytes. -/
theorem getsAgrees_of_straight (hL : 0 < L) (hmax : L ≤ INT_MAX) (hv : Valid L b)
    (hc : b.Countable) {n : ℕ} (hpos : 0 < n) (hn : n ≤ b.stored) (hlt : (n : ℤ) < INT_MAX)
    (hs : b.looped = 0 ∨ b.length - b.start = n) : b.GetsAgrees L n := by
  have hstored := hv.stored_eq
  -- the bytes do not run past the end, so that all of them are copied
  have hspan : b.span n = n := by
    apply if_neg
    rintro ⟨hl, hroom⟩
    rcases hs with hs | hs <;> omega
  have hlt' : (b.span n : ℤ) < INT_MAX := by
    rw [hspan]
    exact hlt
  have hinside : b.start + n ≤ L := by
    have hlen := hv.length_eq
    have hend := hv.end_lt
    rcases hs with hs | hs
    · rw [if_pos hs] at hstored
      omega
    · omega
  have hbytes : copyOut b.buffer b.start n = b.contents.take n := by
    rw [contents, take_window _ _ _ hn, hv.length_eq, copyOut_eq_window _ hv.start_nonneg hinside]
  -- the result, what is left, the copy, and the `read` to compare with
  refine ⟨_, _, gets_eq hmax hv hc hpos hn hlt', rfl, rfl, ?_, ?_, ?_, ?_, ?_⟩
  · rw [length_copyOut, hspan]
  · rw [hspan, hbytes]
  · exact contents_taken hv hn
  · intro r hr
    obtain rfl := List.mem_singleton.mp hr
    rw [hspan]
    exact ⟨hv.start_nonneg, hinside⟩
  · intro target
    obtain ⟨d, hd, hrc, hout, -, -, hcont⟩ := read_accepted hL hmax hv hc target hn
    refine ⟨d, hd, hrc, ?_, ?_⟩
    · rw [hout, hspan, hbytes]
    · rw [hcont (fun hrot => absurd hrot.1 (by omega)), contents_taken hv hn]

/-- Otherwise the result has another length, or comes from behind the block. -/
theorem straight_of_getsAgrees (hmax : L ≤ INT_MAX) (hv : Valid L b)
    (hc : b.Countable) {n : ℕ} (hpos : 0 < n) (hn : n ≤ b.stored) (h : b.GetsAgrees L n) :
    (n : ℤ) < INT_MAX ∧ (b.looped = 0 ∨ b.length - b.start = n) := by
  obtain ⟨g, bytes, hg, hbytes, -, hlen, -, -, hinside, -⟩ := h
  rcases ((span_le hv hn).trans hmax).lt_or_eq with hspan | hspan
  · rw [gets_eq hmax hv hc hpos hn hspan] at hg
    cases hg
    cases hbytes
    rw [length_copyOut] at hlen
    have hregion := (hinside ⟨b.start, b.span n⟩ (List.mem_singleton.mpr rfl)).2
    refine ⟨by omega, ?_⟩
    rcases hv.ends with ⟨hl, -⟩ | ⟨hl, -⟩
    · exact .inl hl
    · -- a shorter piece would have been returned whole, and a longer one leaves the block
      right
      have hL := hv.length_eq
      have hroom : ¬ (n : ℤ) < b.length - b.start := by
        intro hlt
        unfold span at hlen
        rw [if_pos ⟨hl, hlt⟩] at hlen
        omega
      change b.start + (b.span n : ℤ) ≤ L at hregion
      omega
  · rw [gets_overflow hmax hv hc hpos hn hspan] at hg
    cases hg

/-- A buffer some run of `write`, `read` and `gets` reaches is valid, or was created with no room. -/
theorem valid_or_idle (heap : ℤ → CChar) (hmax : L ≤ INT_MAX) {calls : List Call}
    (hrun : Run.run call (create heap L) calls = .ok b) : Valid L b ∧ 0 < L ∨ Idle b := by
  rcases lt_or_ge 0 L with hL | hL
  · refine .inl ⟨?_, hL⟩
    exact Run.run_invariant call (fun _ _ _ hv h => valid_call hL hmax hv h) (valid_create heap hL)
      hrun
  · refine .inr ?_
    exact Run.run_invariant call (fun _ _ _ hi h => hi.call h) ⟨hL, rfl, rfl, rfl⟩ hrun

/-- **`gets` agrees with `read` exactly on the bytes up to the end of the block.** From any buffer a
run reaches, and for any amount that is stored. -/
theorem gets_agrees_iff (heap : ℤ → CChar) (hmax : L ≤ INT_MAX) (calls : List Call)
    (hrun : Run.run call (create heap L) calls = .ok b) {n : ℤ} (hdata : b.availableData = .ok n)
    {amount : ℕ} (hpos : 0 < amount) (hle : amount ≤ n) :
    b.GetsAgrees L amount ↔
      amount < INT_MAX ∧ (b.looped = 0 ∨ b.length - b.start = amount) := by
  rcases valid_or_idle heap hmax hrun with ⟨hv, hL⟩ | hi
  · have hc : b.Countable := by
      by_contra hc
      rw [availableData_overflow hc] at hdata
      cases hdata
    rw [availableData_eq hmax hv hc] at hdata
    cases hdata
    have hn : amount ≤ b.stored := by omega
    exact ⟨straight_of_getsAgrees hmax hv hc hpos hn,
      fun h => getsAgrees_of_straight hL hmax hv hc hpos hn h.1 h.2⟩
  · -- nothing is stored, so no amount is accepted
    rw [hi.availableData_eq] at hdata
    cases hdata
    omega

theorem gets_agrees_iff_ab :
    ∃ b, Run.run call (create (fun _ => 0) 2) [.queue (.write (cstr "ab"))] = .ok b ∧
      (b.GetsAgrees 2 2 ↔ ((2 : ℕ) : ℤ) < INT_MAX ∧ (b.looped = 0 ∨ b.length - b.start = (2 : ℕ))) :=
  ⟨_, rfl, gets_agrees_iff (fun _ => 0) (by decide) [.queue (.write (cstr "ab"))] rfl (n := 2) rfl
    (by decide) (by decide)⟩

/-- Of the two bytes a full buffer holds, `gets` returns both when asked for one. -/
theorem gets_returns_more :
    ∃ b, Run.run call (create (fun _ => 0) 2) [.queue (.write (cstr "ab"))] = .ok b ∧
      b.availableData = .ok 2 ∧ ¬ b.GetsAgrees 2 1 := by
  refine ⟨_, rfl, rfl, ?_⟩
  rintro ⟨g, bytes, hg, hbytes, -, hlen, -⟩
  cases hg
  cases hbytes
  exact absurd hlen (by decide)

/-! ## On blocks

What stands above for the functions of `bstrlib.c` is what they do on blocks, where there is memory for
every block.
-/

section Blocks

variable {m : Bstrlib.Memory} {b0 : Bstrlib.Bstring}

/-- The characters of a bstring in its block. -/
def chars (b : Bstrlib.Bstring) : List CChar :=
  b.contents.map UInt8.toInt8

theorem map_toInt8 (s : List CChar) : (s.map Int8.toUInt8).map UInt8.toInt8 = s := by
  rw [List.map_map]
  exact (List.map_congr_left fun c _ => Int8.toInt8_toUInt8 c).trans (List.map_id s)

/-- `blk2bstr` of `bstrlib.c` has this result, where the sizes are in the range of `int`. -/
theorem blk2bstr_agrees (hm : m.Ample) (mem : ℤ → CChar) (off : ℤ) {len : ℤ} (hlen : len ≤ INT_MAX) :
    (Bstrlib.blk2bstr m ((copyOut mem off len.toNat).map Int8.toUInt8) len).map (Option.map chars) =
      (blk2bstr mem off len).mapError .fault := by
  have hint : INT_MAX = 2147483647 := by decide
  by_cases hneg : len < 0
  · unfold Bstrlib.blk2bstr blk2bstr
    rw [if_pos hneg, if_pos hneg]
    rfl
  · obtain ⟨n, rfl⟩ := Int.eq_ofNat_of_zero_le (not_lt.mp hneg)
    rcases hlen.eq_or_lt with hmax | hlt
    · -- the size of the allocation leaves the range of `int` in both
      rw [hmax]
      rfl
    · have hbytes : ((copyOut mem off n).map Int8.toUInt8).length = n := by
        rw [List.length_map, length_copyOut]
      obtain ⟨b, hblk, hcontents, -⟩ := Bstrlib.blk2bstr_eq hm hlt hbytes.ge
      rw [List.take_of_length_le hbytes.le] at hcontents
      have hsize : int (n + (2 - if (n : ℤ) ≠ 0 then 1 else 0)) =
          .ok (n + (2 - if (n : ℤ) ≠ 0 then 1 else 0)) := by
        apply int_ok <;> split <;> omega
      unfold blk2bstr
      rw [Int.toNat_natCast, hblk, if_neg hneg, hsize]
      show Except.ok (some (chars b)) = .ok (some (copyOut mem off n))
      rw [chars, hcontents, map_toInt8]

theorem blength_chars (hb : Bstrlib.WellFormed b0) : blength (some (chars b0)) = b0.slen := by
  show ((chars b0).length : ℤ) = b0.slen
  rw [chars, List.length_map, hb.length_contents]

/-- `bconcat` of `bstrlib.c` makes the same characters, for all but huge strings. -/
theorem bconcat_agrees (hm : m.Ample) (hb : Bstrlib.WellFormed b0) {t : List CChar}
    (hfit : b0.slen + t.length < Bstrlib.LIMIT) :
    (Bstrlib.bconcat m b0 (.other (t.map Int8.toUInt8))).map (fun out => some (chars out.1)) =
      (bconcat (some (chars b0)) (some t)).mapError .fault := by
  have hint : INT_MAX = 2147483647 := by decide
  have hlimit : Bstrlib.LIMIT = 33554432 := rfl
  have hlen : ((chars b0).length : ℤ) = b0.slen := blength_chars hb
  have hsize : int ((chars b0).length + t.length) = .ok ((chars b0).length + t.length) :=
    int_ok (by omega) (by omega)
  have hbytes : (Bstrlib.Source.of b0.contents (.other (t.map Int8.toUInt8))).length = t.length :=
    List.length_map _
  obtain ⟨⟨b, rc⟩, hconcat, ⟨-, hcontents, -⟩ | ⟨-, size, -, hfull⟩⟩ :=
    @Bstrlib.bconcat_edited m b0 (.other (t.map Int8.toUInt8)) hb trivial (by rw [hbytes]; exact hfit)
  · unfold bconcat
    rw [hconcat]
    simp only []
    rw [hsize]
    show Except.ok (some (chars b)) = .ok (some (chars b0 ++ t))
    rw [chars, hcontents, List.map_append]
    exact congrArg (fun s => Except.ok (some (chars b0 ++ s))) (map_toInt8 t)
  · -- there is memory for every size
    rw [hm size] at hfull
    cases hfull

end Blocks

end Lcthw.RingBuffer
