import Lcthw.RingBuffer.Fifo

/-!
# Lcthw — ring buffers and sockets (`read_some`, `write_some` of `server.c`)

What the kernel does is an input of the model. A `recv` fails, or has some bytes at hand and delivers
as many of them as it was asked for; a `send` fails, or would accept some number of bytes and takes
no more than it was offered.

* **`Syscall`**: one system call, with the buffer before it and after the commit that follows it.
* **`recv_eq`**, **`send_eq`**: a call that does not fail moves exactly its bytes.
* **`readSome_cases`**, **`writeSome_cases`**: the buffer stays consistent exactly when no call
  that is made fails, since the code commits a failed call's `-1` as a length.
* **`transfers_iff_clean`**: the same over whole runs.
-/

namespace Lcthw.RingBuffer

open Ring

/-! ## The code -/

/-- A system call of a transfer: the region it was given, what it returned, the bytes it moved, and
the buffer before the call and after the commit that follows it. -/
structure Syscall where
  region : Region
  rc : ℤ
  bytes : List CChar
  before : RingBuffer
  after : RingBuffer

/-- The state a transfer ends in and the system calls it made. -/
structure Transfer where
  ring : RingBuffer
  calls : List Syscall

/-- How many of `n` bytes fit into `size`, which the kernel takes as unsigned. -/
def clip (n : ℕ) (size : ℤ) : ℕ :=
  if size < 0 then n else min n size.toNat

/-- `recv` to the end of the stored bytes, and the commit of what it returns. -/
def recv (b : RingBuffer) (size : ℤ) (pending : Option (List CChar)) : Except Fault Syscall :=
  match pending with
  | none => do
    let after ← commitWrite b (-1)
    return { region := ⟨b.end, size⟩, rc := -1, bytes := [], before := b, after }
  | some data => do
    let bytes := data.take (clip data.length size)
    let after ← commitWrite { b with buffer := copyIn b.buffer b.end bytes } bytes.length
    return { region := ⟨b.end, size⟩, rc := bytes.length, bytes, before := b, after }

/-- `send` from the start of the stored bytes, and the commit of what it returns. -/
def send (b : RingBuffer) (size : ℤ) (accepting : Option ℕ) : Except Fault Syscall :=
  match accepting with
  | none => do
    let after ← commitRead b (-1)
    return { region := ⟨b.start, size⟩, rc := -1, bytes := [], before := b, after }
  | some n => do
    let bytes := copyOut b.buffer b.start (clip n size)
    let after ← commitRead b bytes.length
    return { region := ⟨b.start, size⟩, rc := bytes.length, bytes, before := b, after }

/-- `read_some`. The first call asks for the bytes up to the end of the block; only when it fills
them does the second one ask for the rest. -/
def readSome (b : RingBuffer) (first second : Option (List CChar)) : Except Fault Transfer := do
  let space ← b.availableSpace
  if space > 0 then
    if b.looped = 0 then
      let room ← int (b.length - b.end)
      let one ← b.recv room first
      if one.rc < room then
        return { ring := one.after, calls := [one] }
      else
        let space ← one.after.availableSpace
        let two ← one.after.recv space second
        return { ring := two.after, calls := [one, two] }
    else
      let space ← b.availableSpace
      let one ← b.recv space first
      return { ring := one.after, calls := [one] }
  else
    return { ring := b, calls := [] }

/-- `write_some`. -/
def writeSome (b : RingBuffer) (first second : Option ℕ) : Except Fault Transfer := do
  let n ← b.availableData
  if n > 0 then
    if b.looped = 1 then
      let room ← int (b.length - b.start)
      let one ← b.send room first
      if one.rc < room then
        return { ring := one.after, calls := [one] }
      else
        let n ← one.after.availableData
        let two ← one.after.send n second
        return { ring := two.after, calls := [one, two] }
    else
      let n ← b.availableData
      let one ← b.send n first
      return { ring := one.after, calls := [one] }
  else
    return { ring := b, calls := [] }

/-! ## What a transfer should do

The kernel decides how much is moved, and the buffer has to follow. A call that fails has moved nothing. -/

def Transfer.bytes (t : Transfer) : List CChar :=
  t.calls.flatMap Syscall.bytes

/-- The region asked for lies in the block, and a failed call leaves the buffer as it was. -/
structure Syscall.Orderly (L : ℤ) (s : Syscall) : Prop where
  inside : s.region.Inside L
  failed : s.rc = -1 → s.after.start = s.before.start ∧ s.after.end = s.before.end ∧
    s.after.looped = s.before.looped ∧ s.after.contents = s.before.contents

/-- A call of the server on its buffer, with the answers of the kernel to its first and second
system call. -/
inductive Exchange where
  | read (first second : Option (List CChar))
  | write (first second : Option ℕ)

def exchange (b : RingBuffer) : Exchange → Except Fault Transfer
  | .read first second => b.readSome first second
  | .write first second => b.writeSome first second

/-- `read_some` appends the bytes received, `write_some` removes the bytes sent. -/
def Moves (b : RingBuffer) (x : Exchange) (t : Transfer) : Prop :=
  match x with
  | .read .. => t.ring.contents = b.contents ++ t.bytes
  | .write .. => b.contents = t.bytes ++ t.ring.contents

def Faithful (L : ℤ) (b : RingBuffer) (x : Exchange) : Prop :=
  ∃ t, b.exchange x = .ok t ∧ (∀ s ∈ t.calls, s.Orderly L) ∧ b.Moves x t

/-- No system call that the transfer makes fails: the first one is made when there is something to
transfer, the second one when the first reaches the end of the block. -/
def Clean (b : RingBuffer) (x : Exchange) : Prop :=
  b.Countable ∧ match x with
    | .read first second => b.stored < b.length → ∃ data, first = some data ∧
        (b.looped = 0 → b.length - b.end ≤ data.length → second ≠ none)
    | .write first second => 0 < b.stored → ∃ n, first = some n ∧
        (b.looped = 1 → b.length - b.start ≤ n → second ≠ none)

/-! ## Single system calls

One call moves a piece of the buffer that does not wrap. The commit behind it takes what the call has
returned, also when that is `-1`. -/

variable {L : ℤ} {b : RingBuffer}

theorem clip_le (n k : ℕ) : clip n k ≤ k := by
  unfold clip
  rw [if_neg (by omega), Int.toNat_natCast]
  exact min_le_right n k

/-- More than was asked for is at hand. -/
theorem clip_of_le {n k : ℕ} (h : k ≤ n) : clip n k = k := by
  unfold clip
  rw [if_neg (by omega), Int.toNat_natCast, Nat.min_eq_right h]

/-- All that is at hand is asked for. -/
theorem clip_of_ge {n k : ℕ} (h : n ≤ k) : clip n k = n := by
  unfold clip
  rw [if_neg (by omega), Int.toNat_natCast, Nat.min_eq_left h]

/-- **A `recv` that does not fail** appends the bytes it delivers. -/
theorem recv_eq (hL : 0 < L) (hmax : L ≤ INT_MAX) (hv : Valid L b) {k : ℕ}
    (hroom : b.end + k ≤ L) (hfit : b.stored + k ≤ L) (data : List CChar) :
    ∃ s, b.recv k (some data) = .ok s ∧ s.rc = clip data.length k ∧ s.Orderly L ∧
      Valid L s.after ∧ s.after.stored = b.stored + clip data.length k ∧
      s.after.end = (b.end + clip data.length k) % L ∧
      s.after.contents = b.contents ++ s.bytes := by
  have hclip := clip_le data.length k
  set bytes := data.take (clip data.length k) with hbytes
  have hlen : bytes.length = clip data.length k := by
    rw [hbytes, List.length_take, Nat.min_eq_left]
    unfold clip
    split
    · exact le_rfl
    · exact min_le_left ..
  -- what is received does not run past the end
  have hput : ∀ a, 0 ≤ a → a < L →
      copyIn b.buffer b.end bytes a = put b.buffer L b.end bytes a := by
    intro a ha haL
    exact copyIn_eq_put b.buffer hv.end_nonneg (by omega) ha haL
  obtain ⟨hvalid, hstored⟩ :=
    (hv.buffer (copyIn b.buffer b.end bytes)).written (n := bytes.length) (by
      show (b.stored + bytes.length : ℤ) ≤ L
      omega)
  have hcommit := commitWrite_eq (hv.buffer (copyIn b.buffer b.end bytes)) (n := bytes.length)
    (show b.end + bytes.length ≤ INT_MAX by omega)
  have hrecv : b.recv k (some data) = .ok
      { region := ⟨b.end, k⟩, rc := bytes.length, bytes, before := b
        after := written { b with buffer := copyIn b.buffer b.end bytes } bytes.length } := by
    show (commitWrite { b with buffer := copyIn b.buffer b.end bytes } bytes.length >>= _) = _
    rw [hcommit]
    rfl
  refine ⟨_, hrecv, by rw [← hlen], ⟨⟨hv.end_nonneg, hroom⟩, ?_⟩, hvalid, ?_, ?_, ?_⟩
  · intro hrc
    change (bytes.length : ℤ) = -1 at hrc
    omega
  · rw [← hlen]
    exact hstored
  · rw [← hlen, ← hv.length_eq]
    rfl
  · exact contents_written hL hv (by omega) hput

/-- **A `send` that does not fail** removes the bytes it accepts. -/
theorem send_eq (hmax : L ≤ INT_MAX) (hv : Valid L b) {k : ℕ} (hroom : b.start + k ≤ L)
    (hfit : k ≤ b.stored) (n : ℕ) :
    ∃ s, b.send k (some n) = .ok s ∧ s.rc = clip n k ∧ s.Orderly L ∧ Valid L s.after ∧
      s.after.stored = b.stored - clip n k ∧ s.after = b.taken (clip n k) ∧
      b.contents = s.bytes ++ s.after.contents := by
  have hclip := clip_le n k
  have hcommit := commitRead_eq hv (n := clip n k) (by omega)
  have hsend : b.send k (some n) = .ok
      { region := ⟨b.start, k⟩, rc := clip n k, bytes := copyOut b.buffer b.start (clip n k)
        before := b, after := b.taken (clip n k) } := by
    show (commitRead b (copyOut b.buffer b.start (clip n k)).length >>= _) = _
    rw [length_copyOut, hcommit]
    rfl
  obtain ⟨hvalid, hstored⟩ := hv.taken (n := clip n k) (by omega)
  refine ⟨_, hsend, rfl, ⟨⟨hv.start_nonneg, hroom⟩, ?_⟩, hvalid, hstored, rfl, ?_⟩
  · intro hrc
    change (clip n k : ℤ) = -1 at hrc
    omega
  · have htake : copyOut b.buffer b.start (clip n k) = b.contents.take (clip n k) := by
      have hroom' : b.start + clip n k ≤ L := by omega
      rw [contents, take_window _ _ _ (by omega), hv.length_eq,
        copyOut_eq_window _ hv.start_nonneg hroom']
    show b.contents = copyOut b.buffer b.start (clip n k) ++ (b.taken (clip n k)).contents
    rw [htake, contents_taken hv (by omega), List.take_append_drop]

/-- A failed `recv` takes one byte off the stored ones: `-1` is added to `end`. -/
theorem recv_failed (hmax : L ≤ INT_MAX) (hv : Valid L b) (size : ℤ) :
    ∃ s, b.recv size none = .ok s ∧ s.rc = -1 ∧ ¬ s.Orderly L := by
  have hmin : -INT_MAX - 1 < -1 := by decide
  have hlen := hv.length_eq
  have hend := hv.end_nonneg
  have hlt := hv.end_lt
  have hcommit : b.commitWrite (-1) = .ok { b with «end» := b.end + -1 } := by
    unfold commitWrite
    rw [int_ok (by omega) (by omega), ok_bind, if_neg (by omega)]
    rfl
  refine ⟨_, by rw [recv, hcommit]; rfl, rfl, ?_⟩
  intro h
  have hsame : b.end + -1 = b.end := (h.failed rfl).2.1
  omega

/-- A failed `send` puts the byte before `start` back in front of the stored ones. -/
theorem send_failed (hmax : L ≤ INT_MAX) (hv : Valid L b) (size : ℤ) :
    ∃ s, b.send size none = .ok s ∧ s.rc = -1 ∧ ¬ s.Orderly L := by
  have hmin : -INT_MAX - 1 < -1 := by decide
  have hlen := hv.length_eq
  have hstart := hv.start_nonneg
  have hlt := hv.start_lt
  have hcommit : b.commitRead (-1) = .ok { b with start := b.start + -1 } := by
    unfold commitRead
    rw [int_ok (by omega) (by omega), ok_bind, if_neg (by omega)]
    rfl
  refine ⟨_, by rw [send, hcommit]; rfl, rfl, ?_⟩
  intro h
  have hsame : b.start + -1 = b.start := (h.failed rfl).1
  omega

/-! ## Single transfers

A transfer is one call or two, and it goes wrong in the first of them that fails. For each of the two
functions the cases are first those of its own code, and then `completes` or `fails`. -/

/-- What a faithful transfer leaves behind can be transferred again. -/
def Completes (L : ℤ) (b : RingBuffer) (x : Exchange) : Prop :=
  ∃ t, b.exchange x = .ok t ∧ (∀ s ∈ t.calls, s.Orderly L) ∧ b.Moves x t ∧ Valid L t.ring

/-- A transfer that makes a failing call. -/
def Fails (L : ℤ) (b : RingBuffer) (x : Exchange) : Prop :=
  ∃ t, b.exchange x = .ok t ∧ ∃ s ∈ t.calls, ¬ s.Orderly L

theorem Completes.faithful {x : Exchange} (h : b.Completes L x) : b.Faithful L x := by
  obtain ⟨t, ht, hord, hmoves, -⟩ := h
  exact ⟨t, ht, hord, hmoves⟩

theorem Fails.not_faithful {x : Exchange} (h : b.Fails L x) : ¬ b.Faithful L x := by
  rintro ⟨t', ht', hall, -⟩
  obtain ⟨t, ht, s, hs, hord⟩ := h
  cases ht.symm.trans ht'
  exact hord (hall s hs)

/-! ### `read_some` -/

section ReadSome

variable {first second : Option (List CChar)} {one two : Syscall}

/-- Without room `read_some` makes no call. -/
theorem readSome_full (hmax : L ≤ INT_MAX) (hv : Valid L b) (hc : b.Countable)
    (hfull : L ≤ b.stored) : b.readSome first second = .ok { ring := b, calls := [] } := by
  unfold readSome
  rw [availableSpace_eq hmax hv hc, ok_bind, if_neg (by omega)]
  rfl

/-- On a looped buffer all of the room is in one piece. -/
theorem readSome_looped (hmax : L ≤ INT_MAX) (hv : Valid L b) (hc : b.Countable)
    (hfree : b.stored < L) (hl : b.looped ≠ 0) (hone : b.recv (L - b.stored) first = .ok one) :
    b.readSome first second = .ok { ring := one.after, calls := [one] } := by
  have hspace := availableSpace_eq hmax hv hc
  unfold readSome
  rw [hspace, ok_bind, if_pos (by omega), if_neg hl, ok_bind, hone]
  rfl

/-- The first call is asked for what is between the stored bytes and the end of the block. -/
theorem readSome_short (hmax : L ≤ INT_MAX) (hv : Valid L b) (hc : b.Countable)
    (hfree : b.stored < L) (hl : b.looped = 0) (hone : b.recv (L - b.end) first = .ok one)
    (hrc : one.rc < L - b.end) :
    b.readSome first second = .ok { ring := one.after, calls := [one] } := by
  have hend := hv.end_nonneg
  have hlt := hv.end_lt
  unfold readSome
  rw [availableSpace_eq hmax hv hc, ok_bind, if_pos (by omega), if_pos hl, hv.length_eq,
    int_ok (by omega) (by omega), ok_bind, hone, ok_bind, if_pos hrc]
  rfl

/-- When it delivers all of that, there is a second call. -/
theorem readSome_filled (hmax : L ≤ INT_MAX) (hv : Valid L b) (hc : b.Countable)
    (hfree : b.stored < L) (hl : b.looped = 0) (hone : b.recv (L - b.end) first = .ok one)
    (hrc : L - b.end ≤ one.rc) (hv₁ : Valid L one.after) (hc₁ : one.after.Countable)
    (htwo : one.after.recv (L - one.after.stored) second = .ok two) :
    b.readSome first second = .ok { ring := two.after, calls := [one, two] } := by
  have hend := hv.end_nonneg
  have hlt := hv.end_lt
  unfold readSome
  rw [availableSpace_eq hmax hv hc, ok_bind, if_pos (by omega), if_pos hl, hv.length_eq,
    int_ok (by omega) (by omega), ok_bind, hone, ok_bind, if_neg (by omega),
    availableSpace_eq hmax hv₁ hc₁, ok_bind, htwo]
  rfl

/-- The first call is made on either branch. -/
theorem readSome_fails (hmax : L ≤ INT_MAX) (hv : Valid L b) (hc : b.Countable)
    (hfree : b.stored < L) : b.Fails L (.read none second) := by
  have hlt := hv.end_lt
  by_cases hl : b.looped = 0
  · obtain ⟨one, hone, hrc, hord⟩ := recv_failed hmax hv (L - b.end)
    refine ⟨_, readSome_short hmax hv hc hfree hl hone (by omega), one, ?_, hord⟩
    exact List.mem_singleton.mpr rfl
  · obtain ⟨one, hone, hrc, hord⟩ := recv_failed hmax hv (L - b.stored)
    exact ⟨_, readSome_looped hmax hv hc hfree hl hone, one, List.mem_singleton.mpr rfl, hord⟩

/-- The first call has come to the end of the block, so the next byte goes to its beginning. -/
theorem readSome_twice (hL : 0 < L) (hmax : L ≤ INT_MAX) (hv : Valid L b) (hc : b.Countable)
    (hfree : b.stored < L) (hl : b.looped = 0) {data : List CChar}
    (hdata : L - b.end ≤ data.length) (second : Option (List CChar)) :
    second ≠ none ∧ b.Completes L (.read (some data) second) ∨
      second = none ∧ b.Fails L (.read (some data) second) := by
  have hstart := hv.start_nonneg
  have hlt := hv.end_lt
  have hstored := hv.stored_eq
  rw [if_pos hl] at hstored
  obtain ⟨k, hk⟩ := Int.eq_ofNat_of_zero_le (show 0 ≤ L - b.end by omega)
  obtain ⟨one, hone, hrc, hord, hv₁, hs₁, hend₁, hcont₁⟩ :=
    recv_eq hL hmax hv (k := k) (by omega) (by omega) data
  rw [← hk] at hone
  rw [clip_of_le (by omega)] at hrc hs₁ hend₁
  have hzero : one.after.end = 0 := by
    rw [hend₁, show b.end + k = L by omega, Int.emod_self]
  have hc₁ : one.after.Countable := by
    intro _
    rw [hv₁.length_eq, hzero]
    omega
  have hle₁ := hv₁.stored_le
  obtain ⟨m, hm⟩ := Int.eq_ofNat_of_zero_le (show 0 ≤ L - one.after.stored by omega)
  -- the space behind `end` is filled, and there is more at the front
  cases second with
  | none =>
    obtain ⟨two, htwo, -, hord₂⟩ := recv_failed hmax hv₁ (L - one.after.stored)
    exact .inr ⟨rfl, _, readSome_filled hmax hv hc hfree hl hone (by omega) hv₁ hc₁ htwo, two,
      by simp, hord₂⟩
  | some more =>
    obtain ⟨two, htwo, -, hord₂, hv₂, -, -, hcont₂⟩ :=
      recv_eq hL hmax hv₁ (k := m) (by omega) (by omega) more
    rw [← hm] at htwo
    -- both pieces are appended, one behind the other
    refine .inl ⟨by simp, _, readSome_filled hmax hv hc hfree hl hone (by omega) hv₁ hc₁ htwo, ?_, ?_,
      hv₂⟩
    · simpa using ⟨hord, hord₂⟩
    · simp [Moves, Transfer.bytes, hcont₂, hcont₁]

/-- **`read_some` completes when its calls do**, and fails with the first one that fails. -/
theorem readSome_cases (hL : 0 < L) (hmax : L ≤ INT_MAX) (hv : Valid L b) (hc : b.Countable)
    (first second : Option (List CChar)) :
    b.Clean (.read first second) ∧ b.Completes L (.read first second) ∨
      ¬ b.Clean (.read first second) ∧ b.Fails L (.read first second) := by
  have hlen := hv.length_eq
  have hstart := hv.start_nonneg
  have hlt := hv.end_lt
  have hstored := hv.stored_eq
  by_cases hfree : b.stored < L
  · cases first with
    | none =>
      refine .inr ⟨fun hclean => ?_, readSome_fails hmax hv hc hfree⟩
      obtain ⟨data, hdata, -⟩ := hclean.2 (by omega)
      cases hdata
    | some data =>
      by_cases hl : b.looped = 0
      · by_cases hfill : L - b.end ≤ data.length
        · apply (readSome_twice hL hmax hv hc hfree hl hfill second).imp
          · rintro ⟨hsecond, hcompletes⟩
            exact ⟨⟨hc, fun _ => ⟨data, rfl, fun _ _ => hsecond⟩⟩, hcompletes⟩
          · rintro ⟨hnone, hfails⟩
            refine ⟨fun hclean => ?_, hfails⟩
            obtain ⟨d, hd, hsecond⟩ := hclean.2 (by omega)
            cases hd
            exact hsecond hl (by omega) hnone
        · -- the first call leaves room in front of the end of the block
          rw [if_pos hl] at hstored
          obtain ⟨k, hk⟩ := Int.eq_ofNat_of_zero_le (show 0 ≤ L - b.end by omega)
          obtain ⟨one, hone, hrc, hord, hv₁, -, -, hcont₁⟩ :=
            recv_eq hL hmax hv (k := k) (by omega) (by omega) data
          rw [clip_of_ge (by omega)] at hrc
          rw [← hk] at hone
          refine .inl ⟨⟨hc, fun _ => ⟨data, rfl, fun _ hge => absurd hge (by omega)⟩⟩, _,
            readSome_short hmax hv hc hfree hl hone (by omega), ?_, ?_, hv₁⟩
          · simpa using hord
          · simpa [Moves, Transfer.bytes] using hcont₁
      · -- the room lies between `end` and `start`
        rw [if_neg hl] at hstored
        have hstart_lt := hv.start_lt
        obtain ⟨k, hk⟩ := Int.eq_ofNat_of_zero_le (show 0 ≤ L - b.stored by omega)
        obtain ⟨one, hone, -, hord, hv₁, -, -, hcont₁⟩ :=
          recv_eq hL hmax hv (k := k) (by omega) (by omega) data
        rw [← hk] at hone
        refine .inl ⟨⟨hc, fun _ => ⟨data, rfl, fun h0 => absurd h0 hl⟩⟩, _,
          readSome_looped hmax hv hc hfree hl hone, ?_, ?_, hv₁⟩
        · simpa using hord
        · simpa [Moves, Transfer.bytes] using hcont₁
  · -- no room, so there is no call that could fail
    refine .inl ⟨⟨hc, fun h => absurd h (by omega)⟩, _, readSome_full hmax hv hc (by omega), ?_, ?_, hv⟩
    · simp
    · simp [Moves, Transfer.bytes]

end ReadSome

/-! ### `write_some` -/

section WriteSome

variable {first second : Option ℕ} {one two : Syscall}

/-- With nothing stored `write_some` makes no call. -/
theorem writeSome_empty (hmax : L ≤ INT_MAX) (hv : Valid L b) (hc : b.Countable)
    (hempty : ¬ 0 < b.stored) : b.writeSome first second = .ok { ring := b, calls := [] } := by
  unfold writeSome
  rw [availableData_eq hmax hv hc, ok_bind, if_neg (by omega)]
  rfl

/-- On a buffer that has not looped everything stored is in one piece. -/
theorem writeSome_straight (hmax : L ≤ INT_MAX) (hv : Valid L b) (hc : b.Countable)
    (hsome : 0 < b.stored) (hl : b.looped ≠ 1) (hone : b.send b.stored first = .ok one) :
    b.writeSome first second = .ok { ring := one.after, calls := [one] } := by
  have hdata := availableData_eq hmax hv hc
  unfold writeSome
  rw [hdata, ok_bind, if_pos (by omega), if_neg hl, ok_bind, hone]
  rfl

/-- The first call is offered what is between `start` and the end of the block. -/
theorem writeSome_short (hmax : L ≤ INT_MAX) (hv : Valid L b) (hc : b.Countable)
    (hsome : 0 < b.stored) (hl : b.looped = 1) (hone : b.send (L - b.start) first = .ok one)
    (hrc : one.rc < L - b.start) :
    b.writeSome first second = .ok { ring := one.after, calls := [one] } := by
  have hstart := hv.start_nonneg
  have hlt := hv.start_lt
  unfold writeSome
  rw [availableData_eq hmax hv hc, ok_bind, if_pos (by omega), if_pos hl, hv.length_eq,
    int_ok (by omega) (by omega), ok_bind, hone, ok_bind, if_pos hrc]
  rfl

/-- When it accepts all of that, there is a second call. -/
theorem writeSome_filled (hmax : L ≤ INT_MAX) (hv : Valid L b) (hc : b.Countable)
    (hsome : 0 < b.stored) (hl : b.looped = 1) (hone : b.send (L - b.start) first = .ok one)
    (hrc : L - b.start ≤ one.rc) (hv₁ : Valid L one.after) (hc₁ : one.after.Countable)
    (htwo : one.after.send one.after.stored second = .ok two) :
    b.writeSome first second = .ok { ring := two.after, calls := [one, two] } := by
  have hstart := hv.start_nonneg
  have hlt := hv.start_lt
  unfold writeSome
  rw [availableData_eq hmax hv hc, ok_bind, if_pos (by omega), if_pos hl, hv.length_eq,
    int_ok (by omega) (by omega), ok_bind, hone, ok_bind, if_neg (by omega),
    availableData_eq hmax hv₁ hc₁, ok_bind, htwo]
  rfl

/-- The first call is made on either branch here too. -/
theorem writeSome_fails (hmax : L ≤ INT_MAX) (hv : Valid L b) (hc : b.Countable)
    (hsome : 0 < b.stored) : b.Fails L (.write none second) := by
  have hlt := hv.start_lt
  by_cases hl : b.looped = 1
  · obtain ⟨one, hone, hrc, hord⟩ := send_failed hmax hv (L - b.start)
    refine ⟨_, writeSome_short hmax hv hc hsome hl hone (by omega), one, ?_, hord⟩
    exact List.mem_singleton.mpr rfl
  · obtain ⟨one, hone, hrc, hord⟩ := send_failed hmax hv b.stored
    exact ⟨_, writeSome_straight hmax hv hc hsome hl hone, one, List.mem_singleton.mpr rfl, hord⟩

/-- `start` has come to the end of the block, and the buffer is no longer looped. -/
theorem writeSome_twice (hmax : L ≤ INT_MAX) (hv : Valid L b) (hc : b.Countable)
    (hsome : 0 < b.stored) (hl : b.looped = 1) {n : ℕ} (hn : L - b.start ≤ n) (second : Option ℕ) :
    second ≠ none ∧ b.Completes L (.write (some n) second) ∨
      second = none ∧ b.Fails L (.write (some n) second) := by
  have hlen := hv.length_eq
  have hlt := hv.start_lt
  have hend := hv.end_nonneg
  have hstored := hv.stored_eq
  rw [if_neg (by omega)] at hstored
  obtain ⟨k, hk⟩ := Int.eq_ofNat_of_zero_le (show 0 ≤ L - b.start by omega)
  obtain ⟨one, hone, hrc, hord, hv₁, hs₁, hafter, hcont₁⟩ :=
    send_eq hmax hv (k := k) (by omega) (by omega) n
  rw [← hk] at hone
  rw [clip_of_le (by omega)] at hrc hs₁ hafter
  have hl₁ : one.after.looped = 0 := by
    rw [hafter]
    show (if b.length ≤ b.start + k then 0 else b.looped) = 0
    rw [if_pos (by omega)]
  have hc₁ : one.after.Countable := fun h => absurd hl₁ h
  have hs₁' := hv₁.stored_eq
  rw [if_pos hl₁] at hs₁'
  have hend_lt := hv₁.end_lt
  -- what is behind `start` is sent, and there is more at the front
  cases second with
  | none =>
    obtain ⟨two, htwo, -, hord₂⟩ := send_failed hmax hv₁ one.after.stored
    exact .inr ⟨rfl, _, writeSome_filled hmax hv hc hsome hl hone (by omega) hv₁ hc₁ htwo, two,
      by simp, hord₂⟩
  | some m =>
    obtain ⟨two, htwo, -, hord₂, hv₂, -, -, hcont₂⟩ :=
      send_eq hmax hv₁ (k := one.after.stored) (by omega) le_rfl m
    -- both pieces are taken from the front
    refine .inl ⟨by simp, _, writeSome_filled hmax hv hc hsome hl hone (by omega) hv₁ hc₁ htwo, ?_, ?_,
      hv₂⟩
    · simpa using ⟨hord, hord₂⟩
    · simp [Moves, Transfer.bytes, hcont₁, hcont₂]

/-- **`write_some` completes when its calls do**, and fails with the first one that fails. -/
theorem writeSome_cases (hmax : L ≤ INT_MAX) (hv : Valid L b) (hc : b.Countable)
    (first second : Option ℕ) :
    b.Clean (.write first second) ∧ b.Completes L (.write first second) ∨
      ¬ b.Clean (.write first second) ∧ b.Fails L (.write first second) := by
  have hlen := hv.length_eq
  have hstart := hv.start_nonneg
  have hlt := hv.start_lt
  have hstored := hv.stored_eq
  by_cases hsome : 0 < b.stored
  · cases first with
    | none =>
      refine .inr ⟨fun hclean => ?_, writeSome_fails hmax hv hc hsome⟩
      obtain ⟨n, hn, -⟩ := hclean.2 hsome
      cases hn
    | some n =>
      by_cases hl : b.looped = 1
      · by_cases hfill : L - b.start ≤ n
        · apply (writeSome_twice hmax hv hc hsome hl hfill second).imp
          · rintro ⟨hsecond, hcompletes⟩
            exact ⟨⟨hc, fun _ => ⟨n, rfl, fun _ _ => hsecond⟩⟩, hcompletes⟩
          · rintro ⟨hnone, hfails⟩
            refine ⟨fun hclean => ?_, hfails⟩
            obtain ⟨d, hd, hsecond⟩ := hclean.2 hsome
            cases hd
            exact hsecond hl (by omega) hnone
        · -- the first call does not come to the end of the block
          have hend := hv.end_nonneg
          rw [if_neg (by omega)] at hstored
          obtain ⟨k, hk⟩ := Int.eq_ofNat_of_zero_le (show 0 ≤ L - b.start by omega)
          obtain ⟨one, hone, hrc, hord, hv₁, -, -, hcont₁⟩ :=
            send_eq hmax hv (k := k) (by omega) (by omega) n
          rw [clip_of_ge (by omega)] at hrc
          rw [← hk] at hone
          refine .inl ⟨⟨hc, fun _ => ⟨n, rfl, fun _ hge => absurd hge (by omega)⟩⟩, _,
            writeSome_short hmax hv hc hsome hl hone (by omega), ?_, ?_, hv₁⟩
          · simpa using hord
          · simpa [Moves, Transfer.bytes] using hcont₁
      · -- what is stored lies between `start` and `end`
        have hl0 : b.looped = 0 := by
          rcases hv.ends with ⟨h, -⟩ | ⟨h, -⟩
          · exact h
          · exact absurd h hl
        have hend_lt := hv.end_lt
        rw [if_pos hl0] at hstored
        obtain ⟨one, hone, -, hord, hv₁, -, -, hcont₁⟩ :=
          send_eq hmax hv (k := b.stored) (by omega) le_rfl n
        refine .inl ⟨⟨hc, fun _ => ⟨n, rfl, fun h1 => absurd h1 hl⟩⟩, _,
          writeSome_straight hmax hv hc hsome hl hone, ?_, ?_, hv₁⟩
        · simpa using hord
        · simpa [Moves, Transfer.bytes] using hcont₁
  · -- nothing to send, so there is no call that could fail
    refine .inl ⟨⟨hc, fun h => absurd h hsome⟩, _, writeSome_empty hmax hv hc hsome, ?_, ?_, hv⟩
    · simp
    · simp [Moves, Transfer.bytes]

end WriteSome

/-- Both functions together, and the buffers whose count overflows, on which nothing is transferred at
all. -/
theorem exchange_cases (hL : 0 < L) (hmax : L ≤ INT_MAX) (hv : Valid L b) (x : Exchange) :
    b.Clean x ∧ b.Completes L x ∨ ¬ b.Clean x ∧ ¬ b.Faithful L x := by
  by_cases hc : b.Countable
  · cases x with
    | read first second =>
      exact (readSome_cases hL hmax hv hc first second).imp id (And.imp id Fails.not_faithful)
    | write first second =>
      exact (writeSome_cases hmax hv hc first second).imp id (And.imp id Fails.not_faithful)
  · -- counting the bytes overflows before the first call
    refine .inr ⟨fun h => hc h.1, ?_⟩
    rintro ⟨t, ht, -⟩
    have hdata := availableData_overflow hc
    cases x with
    | read first second =>
      change b.readSome first second = _ at ht
      unfold readSome availableSpace at ht
      rw [hdata] at ht
      cases ht
    | write first second =>
      change b.writeSome first second = _ at ht
      unfold writeSome at ht
      rw [hdata] at ht
      cases ht

/-! ## Runs

A run goes on behind a failed call with a buffer that is not what it should be. So the condition is
asked of the calls in the order they are made, each in the state that is reached. -/

def transfer (b : RingBuffer) (x : Exchange) : Except Fault RingBuffer :=
  (b.exchange x).map Transfer.ring

/-- **Transfers keep the buffer consistent exactly as long as their system calls succeed.** Over any
sequence of calls, from any valid buffer. -/
theorem transfers_iff_clean (hmax : L ≤ INT_MAX) (hv : Valid L b) (xs : List Exchange) :
    Run.Along transfer (Faithful L) b xs ↔ Run.Along transfer Clean b xs := by
  have hL : 0 < L := hv.start_nonneg.trans_lt hv.start_lt
  apply Run.along_iff_along (I := Valid L) _ _ hv
  · intro b x hv
    rcases exchange_cases hL hmax hv x with ⟨hc, hcomp⟩ | ⟨hc, hnot⟩
    · -- a transfer without a failing call is faithful
      exact iff_of_true hcomp.faithful hc
    · exact iff_of_false hnot hc
  · intro b x b' hv hc hstep
    obtain ⟨t, ht, rfl⟩ := map_eq_ok.mp hstep
    rcases exchange_cases hL hmax hv x with ⟨-, t', ht', -, -, hv'⟩ | ⟨hnc, -⟩
    · cases ht.symm.trans ht'
      exact hv'
    · exact absurd hc hnc

theorem transfers_iff_clean_two :
    Run.Along transfer (Faithful 2) (create (fun _ => 0) 2)
        [.read (some (cstr "ab")) none, .write (some 1) none] ↔
      Run.Along transfer Clean (create (fun _ => 0) 2)
        [.read (some (cstr "ab")) none, .write (some 1) none] :=
  transfers_iff_clean (by decide) (valid_create _ (by decide)) _

/-- A failed `recv` on a fresh buffer moves `end` in front of the block. -/
theorem failed_recv_moves_end :
    ¬ Run.Along transfer (Faithful 2) (create (fun _ => 0) 2) [.read none none] := by
  rintro ⟨⟨t, ht, hord, -⟩, -⟩
  cases ht
  have hsame : (0 : ℤ) + -1 = 0 := ((hord _ (List.mem_singleton.mpr rfl)).failed rfl).2.1
  exact absurd hsame (by decide)

end Lcthw.RingBuffer
