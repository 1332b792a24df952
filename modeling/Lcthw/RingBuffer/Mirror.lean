import Lcthw.RingBuffer.Fifo

/-!
# Lcthw — the mirrored ring buffer (`RB_init`, `RingBuffer_write1`, `RingBuffer_read1`)

The block is mapped twice in a row, so offsets `i` and `i + size` are the same byte: `buffer` holds
the bytes of the block, and every copy goes through `Ring.mirror`. Positions are taken back into the
block by `read1` alone, so `end` may run one turn ahead of the block.

* **`Mirrored`**: what holds of the buffer between calls.
* **`write1_accepted`**, **`write1_refused`**, **`read1_accepted`**, **`read1_refused`**: what one call
  does to the stored bytes.
* **`mirrored_queue`**: over whole runs the buffer is a bounded queue that stays inside its mappings.
-/

namespace Lcthw.RingBuffer

open Ring

/-! ## The code -/

/-- `RB_init`, whose three mappings succeed: the file behind them reads as zeros, and `heap` is what
lies around them. -/
def init (pagesize : ℤ) (heap : ℤ → CChar) (size : ℤ) : Except Fault (Option RingBuffer) := do
  let r ← rem size pagesize
  if r = 0 then
    let _ ← int (size * 2)
    return some (create heap size)
  else
    return none

def write1 (b : RingBuffer) (data : ℤ → CChar) (length : ℤ) : Except Fault Written := do
  let room ← int (b.length - b.end)
  let room ← int (room + b.start)
  if length ≤ room then
    -- `memcpy` takes a negative length for a huge size
    if length < 0 then .error .outOfBounds else
    let buffer := store b.buffer b.length b.end (copyOut data 0 length.toNat)
    let «end» ← int (b.end + length)
    return { rc := length, ring := { b with buffer, «end» }, copies := [⟨b.end, length⟩] }
  else
    return { rc := -1, ring := b, copies := [] }

def read1 (b : RingBuffer) (target : ℤ → CChar) (amount : ℤ) : Except Fault Delivered := do
  let n ← int (b.end - b.start)
  if amount ≤ n then
    if amount < 0 then .error .outOfBounds else
    let target := copyIn target 0 (load b.buffer b.length b.start amount.toNat)
    let copies : List Region := [⟨b.start, amount⟩]
    let start ← int (b.start + amount)
    if start ≥ b.length then
      let start ← int (start - b.length)
      let «end» ← int (b.end - b.length)
      return { rc := amount, target, ring := { b with start, «end» }, copies }
    else
      return { rc := amount, target, ring := { b with start }, copies }
  else
    return { rc := -1, target, ring := b, copies := [] }

/-! ## The representation

With the block mapped twice, the stored bytes are one piece wherever they begin. `start` stays in the
first mapping, and `end` may be in the second. -/

structure Mirrored (L : ℤ) (b : RingBuffer) : Prop where
  length_eq : b.length = L
  start_nonneg : 0 ≤ b.start
  start_lt : b.start < L
  start_le_end : b.start ≤ b.end
  end_le : b.end ≤ b.start + L
  looped_eq : b.looped = 0

/-- The stored bytes, oldest first. -/
def queued (b : RingBuffer) : List CChar :=
  window b.buffer b.length b.start (b.end - b.start).toNat

variable {L : ℤ} {b : RingBuffer}

theorem Mirrored.length_queued (hm : Mirrored L b) : (b.queued.length : ℤ) = b.end - b.start := by
  have := hm.start_le_end
  rw [queued, length_window]
  omega

/-- The bytes a call reads or writes lie inside the two mappings. -/
def Region.Mapped (r : Region) (L : ℤ) : Prop :=
  0 ≤ r.offset ∧ r.offset + r.length ≤ 2 * L

/-- A fresh buffer: `size * 2` is an `int`, and nothing is stored. -/
theorem init_ok {pagesize size : ℤ} {heap : ℤ → CChar} (hsize : 0 < size)
    (h : init pagesize heap size = .ok (some b)) :
    2 * size ≤ INT_MAX ∧ Mirrored size b ∧ b.queued = [] := by
  obtain ⟨r, -, h⟩ := bind_eq_ok.mp h
  split at h
  · obtain ⟨x, hx, h⟩ := bind_eq_ok.mp h
    cases h
    have hmax : size * 2 ≤ INT_MAX := by
      by_contra hlt
      rw [int_overflow (by omega)] at hx
      cases hx
    exact ⟨by omega, ⟨rfl, le_rfl, hsize, le_rfl, by show (0 : ℤ) ≤ 0 + size; omega, rfl⟩, rfl⟩
  · cases h

/-! ## Single calls

A call makes one copy, inside the two mappings. A write checks the room first and a read the data, so
neither end overtakes the other. -/

/-- **A write that fits** appends to the stored bytes, wherever the copy lies in the mappings. -/
theorem write1_accepted (hmax : 2 * L ≤ INT_MAX) (hm : Mirrored L b) {data : List CChar}
    (hfit : b.queued.length + data.length ≤ L) :
    ∃ w, b.write1 (ofList 0 data) data.length = .ok w ∧ w.rc = data.length ∧ Mirrored L w.ring ∧
      w.ring.queued = b.queued ++ data ∧ w.copies = [⟨b.end, data.length⟩] := by
  have hlen := hm.length_queued
  obtain ⟨rfl, hstart, hstartL, hle, hend, hloop⟩ := hm
  have hdata : copyOut (ofList 0 data) 0 data.length = data := by
    simpa using copyOut_ofList 0 data 0 data.length (by omega)
  have hwrite : b.write1 (ofList 0 data) data.length = .ok
      { rc := data.length
        ring := { b with
          buffer := store b.buffer b.length b.end data
          «end» := b.end + data.length }
        copies := [⟨b.end, data.length⟩] } := by
    unfold write1
    rw [int_ok (by omega) (by omega), ok_bind, int_ok (by omega) (by omega), ok_bind,
      if_pos (by omega), if_neg (by omega), Int.toNat_natCast, hdata,
      int_ok (by omega) (by omega)]
    rfl
  refine ⟨_, hwrite, rfl, ⟨rfl, hstart, hstartL, ?_, ?_, hloop⟩, ?_, rfl⟩
  · show b.start ≤ b.end + data.length
    omega
  · show b.end + data.length ≤ b.start + b.length
    omega
  · obtain ⟨n, hn⟩ := Int.eq_ofNat_of_zero_le (show 0 ≤ b.end - b.start by omega)
    have hends : b.end = b.start + n := by omega
    have hstored : (b.end + data.length - b.start).toNat = n + data.length := by omega
    -- storing into both halves is putting on the ring
    calc window (store b.buffer b.length b.end data) b.length b.start _
      _ = window (put b.buffer b.length b.end data) b.length b.start (n + data.length) := by
        rw [hstored]
        apply window_congr (by omega)
        intro a ha haL
        exact store_eq_put b.buffer (by omega) (by omega) (by omega) (by omega) ha haL
      _ = window b.buffer b.length b.start n ++ data := by
        rw [hends, window_put _ _ (by omega)]
      _ = b.queued ++ data := by rw [queued, hn, Int.toNat_natCast]

/-- **A write that does not fit** changes nothing. -/
theorem write1_refused (hmax : 2 * L ≤ INT_MAX) (hm : Mirrored L b) (data : List CChar)
    (hfit : L < b.queued.length + data.length) :
    b.write1 (ofList 0 data) data.length = .ok { rc := -1, ring := b, copies := [] } := by
  have hlen := hm.length_queued
  obtain ⟨rfl, hstart, hstartL, hle, hend, hloop⟩ := hm
  unfold write1
  rw [int_ok (by omega) (by omega), ok_bind, int_ok (by omega) (by omega), ok_bind,
    if_neg (by omega)]
  rfl

/-- **A read of bytes that are stored** delivers the oldest ones and drops them. -/
theorem read1_accepted (hmax : 2 * L ≤ INT_MAX) (hm : Mirrored L b) (target : ℤ → CChar) {n : ℕ}
    (hn : n ≤ b.queued.length) :
    ∃ d, b.read1 target n = .ok d ∧ d.rc = n ∧ copyOut d.target 0 n = b.queued.take n ∧
      Mirrored L d.ring ∧ d.ring.queued = b.queued.drop n ∧ d.copies = [⟨b.start, n⟩] := by
  have hlen := hm.length_queued
  obtain ⟨rfl, hstart, hstartL, hle, hend, hloop⟩ := hm
  -- the copy reads the ring, also where it runs into the second mapping
  have hbytes : load b.buffer b.length b.start n = b.queued.take n := by
    rw [queued, take_window _ _ _ (by omega), load_eq_window _ hstart (by omega)]
  have hout : copyOut (copyIn target 0 (b.queued.take n)) 0 n = b.queued.take n := by
    have hone := copyOut_copyIn target (b.queued.take n)
    rwa [List.length_take, Nat.min_eq_left hn] at hone
  have hdrop (s : ℤ) (hs : s % b.length = (b.start + n) % b.length) :
      window b.buffer b.length s (b.end - (b.start + n)).toNat = b.queued.drop n := by
    rw [queued, drop_window _ _ _ (by omega), ← window_emod, hs, window_emod,
      show (b.end - b.start).toNat - n = (b.end - (b.start + n)).toNat by omega]
  unfold read1
  rw [int_ok (by omega) (by omega), ok_bind, if_pos (by omega), if_neg (by omega),
    Int.toNat_natCast, hbytes, int_ok (by omega) (by omega), ok_bind]
  by_cases hturn : b.start + n ≥ b.length
  · -- `start` has left the block: both positions go back by one turn
    rw [if_pos hturn, int_ok (by omega) (by omega), ok_bind, int_ok (by omega) (by omega), ok_bind]
    refine ⟨_, rfl, rfl, hout, ⟨rfl, ?_, ?_, ?_, ?_, hloop⟩, ?_, rfl⟩
    · show 0 ≤ b.start + n - b.length
      omega
    · show b.start + n - b.length < b.length
      omega
    · show b.start + n - b.length ≤ b.end - b.length
      omega
    · show b.end - b.length ≤ b.start + n - b.length + b.length
      omega
    · rw [← hdrop (b.start + n - b.length) (Int.sub_emod_right ..)]
      show window b.buffer b.length (b.start + n - b.length)
        (b.end - b.length - (b.start + n - b.length)).toNat = _
      rw [show b.end - b.length - (b.start + n - b.length) = b.end - (b.start + n) by ring]
  · rw [if_neg hturn]
    refine ⟨_, rfl, rfl, hout, ⟨rfl, ?_, ?_, ?_, ?_, hloop⟩, hdrop (b.start + n) rfl, rfl⟩
    · show 0 ≤ b.start + n
      omega
    · show b.start + n < b.length
      omega
    · show b.start + n ≤ b.end
      omega
    · show b.end ≤ b.start + n + b.length
      omega

/-- **A read of more bytes than are stored** changes nothing. -/
theorem read1_refused (hmax : 2 * L ≤ INT_MAX) (hm : Mirrored L b) (target : ℤ → CChar) {n : ℕ}
    (hn : b.queued.length < n) :
    b.read1 target n = .ok { rc := -1, target, ring := b, copies := [] } := by
  have hlen := hm.length_queued
  obtain ⟨rfl, hstart, hstartL, hle, hend, hloop⟩ := hm
  unfold read1
  rw [int_ok (by omega) (by omega), ok_bind, if_neg (by omega)]
  rfl

/-! ## Runs

No call can fault, so the buffer and the queue agree over every run, whatever is called. -/

/-- A call on the mirrored buffer, its outcome, and where it copied. -/
def exec1 (b : RingBuffer) : Op → Except Fault (RingBuffer × Outcome × List Region)
  | .write data => do
    let w ← b.write1 (ofList 0 data) data.length
    return (w.ring, .wrote w.rc, w.copies)
  | .read target amount => do
    let d ← b.read1 target amount
    return (d.ring, .got d.rc (copyOut d.target 0 d.rc.toNat), d.copies)
  | .availableData => do
    let n ← b.availableData
    return (b, .available n, [])

/-- The mirrored buffer and the queue, given the same calls, with every region copied so far. -/
structure Mirror where
  ring : RingBuffer
  queue : List CChar
  outcomes : List Outcome
  wanted : List Outcome
  copies : List Region

namespace Mirror

def init (b : RingBuffer) : Mirror :=
  { ring := b, queue := [], outcomes := [], wanted := [], copies := [] }

def step (L : ℤ) (t : Mirror) (op : Op) : Except Fault Mirror := do
  let (ring, out, copies) ← t.ring.exec1 op
  let (queue, want) := serve L t.queue op
  return { ring, queue, outcomes := t.outcomes ++ [out], wanted := t.wanted ++ [want],
           copies := t.copies ++ copies }

/-- The buffer holds what the queue holds, has answered every call like it, and has copied inside
its mappings alone. -/
structure Agrees (L : ℤ) (t : Mirror) : Prop where
  positions : 0 ≤ t.ring.start ∧ t.ring.start < L ∧ t.ring.start ≤ t.ring.end ∧
    t.ring.end ≤ t.ring.start + L
  copies : ∀ r ∈ t.copies, 0 ≤ r.offset ∧ r.offset + r.length ≤ 2 * L
  outcomes : t.outcomes = t.wanted
  contents : t.ring.queued = t.queue

end Mirror

/-- **One call serves the queue.** -/
theorem exec1_eq (hmax : 2 * L ≤ INT_MAX) (hm : Mirrored L b) (op : Op) :
    ∃ b' out copies, b.exec1 op = .ok (b', out, copies) ∧ Mirrored L b' ∧
      serve L b.queued op = (b'.queued, out) ∧ ∀ r ∈ copies, r.Mapped L := by
  have hlen := hm.length_queued
  have hnn := hm.start_nonneg
  have hle := hm.end_le
  have hlt := hm.start_lt
  have hse := hm.start_le_end
  cases op with
  | write data =>
    by_cases hfit : (b.queued.length + data.length : ℤ) ≤ L
    · obtain ⟨w, hw, hrc, hm', hqueued, hcopies⟩ := write1_accepted hmax hm hfit
      refine ⟨w.ring, .wrote w.rc, w.copies, ?_, hm', ?_, ?_⟩
      · rw [exec1, hw]
        rfl
      · rw [serve, if_pos (by omega), hqueued, hrc]
      · intro r hr
        rw [hcopies] at hr
        obtain rfl := List.mem_singleton.mp hr
        -- a copy may run into the second half, but not past it
        exact ⟨show 0 ≤ b.end by omega, show b.end + data.length ≤ 2 * L by omega⟩
    · -- the queue refuses the same writes
      refine ⟨b, .wrote (-1), [], ?_, hm, ?_, by simp⟩
      · rw [exec1, write1_refused hmax hm data (by omega)]
        rfl
      · rw [serve, if_neg (by omega)]
  | read target amount =>
    by_cases hn : amount ≤ b.queued.length
    · obtain ⟨d, hd, hrc, hout, hm', hqueued, hcopies⟩ := read1_accepted hmax hm target hn
      refine ⟨d.ring, .got d.rc (copyOut d.target 0 d.rc.toNat), d.copies, ?_, hm', ?_, ?_⟩
      · rw [exec1, hd]
        rfl
      · rw [serve, if_pos hn, hqueued, hrc, Int.toNat_natCast, hout]
      · intro r hr
        rw [hcopies] at hr
        obtain rfl := List.mem_singleton.mp hr
        exact ⟨hnn, show b.start + amount ≤ 2 * L by omega⟩
    · -- and the same reads
      refine ⟨b, .got (-1) [], [], ?_, hm, ?_, by simp⟩
      · rw [exec1, read1_refused hmax hm target (by omega)]
        rfl
      · rw [serve, if_neg hn]
  | availableData =>
    refine ⟨b, .available b.queued.length, [], ?_, hm, rfl, by simp⟩
    rw [exec1, availableData, if_pos hm.looped_eq, int_ok (by omega) (by omega), hlen]
    rfl

/-- Each call adds the same outcome on both sides, and its copies to those before it. -/
theorem Mirror.agrees_step (hmax : 2 * L ≤ INT_MAX) {t : Mirror}
    (h : Mirrored L t.ring ∧ t.Agrees L) (op : Op) :
    ∃ t', t.step L op = .ok t' ∧ Mirrored L t'.ring ∧ t'.Agrees L := by
  obtain ⟨hm, ha⟩ := h
  obtain ⟨b', out, copies, hexec, hm', hserve, hcopies⟩ := exec1_eq hmax hm op
  rw [ha.contents] at hserve
  have hstep : t.step L op =
      .ok { ring := b', queue := b'.queued, outcomes := t.outcomes ++ [out],
            wanted := t.wanted ++ [out], copies := t.copies ++ copies } := by
    rw [step, hexec, ok_bind]
    simp only [hserve]
    rfl
  refine ⟨_, hstep, hm', ⟨hm'.start_nonneg, hm'.start_lt, hm'.start_le_end, hm'.end_le⟩, ?_,
    congrArg (· ++ [out]) ha.outcomes, rfl⟩
  intro r hr
  rcases List.mem_append.mp hr with hold | hnew
  · exact ha.copies r hold
  · exact hcopies r hnew

/-- **The mirrored buffer is a bounded queue inside its mappings.** No call faults, whatever calls
come before it. -/
theorem mirrored_queue (pagesize : ℤ) (heap : ℤ → CChar) {size : ℤ} (hsize : 0 < size)
    (hinit : init pagesize heap size = .ok (some b)) (ops : List Op) :
    Run.Sustained (Mirror.step size) (Mirror.Agrees size) (Mirror.init b) ops := by
  obtain ⟨hmax, hm, hqueued⟩ := init_ok hsize hinit
  have hagrees : (Mirror.init b).Agrees size :=
    ⟨⟨hm.start_nonneg, hm.start_lt, hm.start_le_end, hm.end_le⟩, by simp [Mirror.init], rfl, hqueued⟩
  have hall : Run.Sustained (Mirror.step size) (fun t => Mirrored size t.ring ∧ t.Agrees size)
      (Mirror.init b) ops :=
    Run.sustained_of_step (fun t op h => Mirror.agrees_step hmax h op) ⟨hm, hagrees⟩ ops
  exact hall.mono fun _ h => h.2

theorem mirrored_queue_page :
    ∃ b, init 4096 (fun _ => 0) 4096 = .ok (some b) ∧
      Run.Sustained (Mirror.step 4096) (Mirror.Agrees 4096) (Mirror.init b)
        [.write (cstr "ab"), .read (fun _ => 0) 1] :=
  ⟨_, rfl, mirrored_queue 4096 (fun _ => 0) (by decide) rfl _⟩

end Lcthw.RingBuffer
