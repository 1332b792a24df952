import Lcthw.RingBuffer.Gets
import Lcthw.RingBuffer.Transfer

/-!
# Lcthw — the bytes of a connection (`client_process` of `stats_server.c`)

A thread of the server reads from its socket with `read_some` and takes all that is stored out of
the buffer at once: what one round receives is one request. Nothing is stored between two rounds,
but the place in the block moves on, and a round that comes to the end of the block goes on at its
beginning. Undefined behaviour and a failed assertion end the server.

* **`receive`**: one round, up to the call of `process_request`.
* **`receive_eq`**: a round whose system calls do not fail hands on the bytes it received, or reads
  behind the block when they lie on both sides of its end.
* **`relayed_iff_fits`**: over a whole connection.
-/

namespace Lcthw

namespace RingBuffer

instance (r : Region) (L : ℤ) : Decidable (r.Inside L) :=
  inferInstanceAs (Decidable (_ ∧ _))

/-- `RingBuffer_get_all` -/
def getAll (b : RingBuffer) : Except Fault Gotten := do
  let n ← b.availableData
  b.gets n

/-- The bytes of the block that a `recv` writes. -/
def Syscall.written (s : Syscall) : Region :=
  ⟨s.region.offset, s.bytes.length⟩

end RingBuffer

namespace Server

open RingBuffer Ring

/-! ## The code -/

/-- What ends the server. -/
inductive Crash where
  | fault (f : Fault)
  /-- an assertion does not hold -/
  | abort
  deriving DecidableEq

def BUFFER_SIZE : ℕ := 1024

/-- What a round hands to `process_request`, with the buffer after it and the bytes that `recv`
delivered in it. -/
structure Round where
  ring : RingBuffer
  data : Option (List CChar)
  received : List CChar

/-- `read_some(new_sock, buffer)` and `RingBuffer_get_all(buffer)`. Outside the block there is
memory that is not the buffer's. -/
def receive (b : RingBuffer) (first second : Option (List CChar)) : Except Crash Round := do
  let t ← (b.readSome first second).mapError .fault
  if ∀ s ∈ t.calls, s.bytes = [] ∨ s.written.Inside b.length then
    let data ← t.ring.getAll.mapError .fault
    if ∀ c ∈ data.copies, c.Inside b.length then
      if data.asserted then
        return { ring := data.ring, data := data.result, received := t.bytes }
      else throw .abort
    else throw (.fault .outOfBounds)
  else throw (.fault .outOfBounds)

/-! ## One round

A round starts where the last one ended and finds nothing stored. What it receives is stored in one
piece or in two, and is taken out in one, which leaves the block if there were two. -/

/-- What a round receives that starts at `pos` in a block of `L` bytes. -/
def delivered (L pos : ℕ) (first second : Option (List CChar)) : List CChar :=
  if (first.getD []).length < L - pos then first.getD []
  else (first.getD []).take (L - pos) ++ (second.getD []).take pos

/-- The request made of the bytes of a round. -/
def request (bytes : List CChar) : Option (List CChar) :=
  if bytes = [] then none else some bytes

/-- A buffer between two rounds: nothing is stored, and the next byte goes to `pos`. -/
structure Drained (L pos : ℕ) (b : RingBuffer) : Prop where
  valid : Valid L b
  stored : b.stored = 0
  start : b.start = pos

variable {L pos : ℕ} {b : RingBuffer}

theorem Drained.lt (hb : Drained L pos b) : pos < L := by
  have := hb.valid.start_lt
  rw [hb.start] at this
  exact_mod_cast this

theorem Drained.end_eq (hb : Drained L pos b) : b.end = pos := by
  have hlt : (pos : ℤ) < L := by exact_mod_cast hb.lt
  rw [hb.valid.end_eq, hb.stored, hb.start, Int.emod_eq_of_lt (by omega) (by omega)]
  simp

theorem drained_create (heap : ℤ → CChar) (hL : 0 < L) : Drained L 0 (create heap L) :=
  ⟨valid_create heap (by exact_mod_cast hL), rfl, rfl⟩

theorem commitWrite_start {b b' : RingBuffer} {amount : ℤ} (h : b.commitWrite amount = .ok b') :
    b'.start = b.start := by
  unfold commitWrite at h
  obtain ⟨e, -, h⟩ := bind_eq_ok.mp h
  split at h
  · obtain ⟨e', -, h⟩ := bind_eq_ok.mp h
    cases h
    rfl
  · cases h
    rfl

theorem recv_some {data : List CChar} {size : ℤ} {s : Syscall}
    (h : b.recv size (some data) = .ok s) :
    s.bytes = data.take (clip data.length size) ∧ s.region = ⟨b.end, size⟩ ∧
      s.after.start = b.start := by
  obtain ⟨after, hafter, h⟩ := bind_eq_ok.mp h
  have hstart := commitWrite_start hafter
  cases h
  exact ⟨rfl, rfl, hstart⟩

/-- The system calls that a round from `pos` on makes do not fail. -/
def Answered (L pos : ℕ) (first second : Option (List CChar)) : Prop :=
  ∃ data, first = some data ∧ (L - pos ≤ data.length → second ≠ none)

/-- The buffer after the system calls of a round. -/
structure Filled (L pos : ℕ) (bytes : List CChar) (t : Transfer) : Prop where
  valid : Valid L t.ring
  contents : t.ring.contents = bytes
  start : t.ring.start = pos
  received : t.bytes = bytes
  inside : ∀ s ∈ t.calls, s.written.Inside L

/-- One `recv` or two store what is delivered, in an empty buffer. -/
theorem readSome_drained (hmax : 2 * (L : ℤ) ≤ INT_MAX) (hb : Drained L pos b)
    {first second : Option (List CChar)} (ha : Answered L pos first second) :
    ∃ t, b.readSome first second = .ok t ∧ Filled L pos (delivered L pos first second) t := by
  obtain ⟨data, rfl, hsecond⟩ := ha
  have hpos := hb.lt
  have hv := hb.valid
  have hs := hb.stored
  have hend := hb.end_eq
  have hl : b.looped = 0 := hv.looped_of_stored hs
  have hc : b.Countable := fun h => absurd hl h
  have hempty : b.contents = [] := by
    rw [← List.length_eq_zero_iff, length_contents, hs]
  have hk : (L : ℤ) - b.end = (L - pos : ℕ) := by omega
  obtain ⟨one, hone, hrc, -, hv₁, hs₁, hend₁, hcont₁⟩ :=
    recv_eq (by omega) (by omega) hv (k := L - pos) (by omega) (by omega) data
  obtain ⟨hbytes₁, hregion₁, hstart₁⟩ := recv_some hone
  rw [hempty, List.nil_append] at hcont₁
  by_cases hshort : data.length < L - pos
  · -- one call, which leaves room in front of the end of the block
    rw [clip_of_ge hshort.le] at hrc hbytes₁
    rw [List.take_length] at hbytes₁
    refine ⟨_, readSome_short (by omega) hv hc (by omega) hl (hk ▸ hone) (by omega), hv₁, ?_, ?_, ?_, ?_⟩
    · simpa [delivered, hshort, hbytes₁] using hcont₁
    · exact hstart₁.trans hb.start
    · simp [Transfer.bytes, delivered, hshort, hbytes₁]
    · simp [Syscall.written, Region.Inside, hregion₁, hbytes₁]
      omega
  · -- the first call comes to the end of the block, the second one starts at its beginning
    rw [clip_of_le (by omega)] at hrc hbytes₁ hs₁ hend₁
    obtain ⟨more, rfl⟩ := Option.ne_none_iff_exists'.mp (hsecond (by omega))
    have hzero : one.after.end = 0 := by
      rw [hend₁, hend, show (pos : ℤ) + (L - pos : ℕ) = L by omega, Int.emod_self]
    have hc₁ : one.after.Countable := by
      intro _
      rw [hv₁.length_eq, hzero]
      omega
    obtain ⟨two, htwo, -, -, hv₂, -, -, hcont₂⟩ :=
      recv_eq (by omega) (by omega) hv₁ (k := pos) (by omega) (by omega) more
    obtain ⟨hbytes₂, hregion₂, hstart₂⟩ := recv_some htwo
    have htake : more.take (clip more.length pos) = more.take pos := by
      rcases le_total more.length pos with hle | hge
      · rw [clip_of_ge hle, List.take_length, List.take_of_length_le hle]
      · rw [clip_of_le hge]
    rw [htake] at hbytes₂
    refine ⟨_, readSome_filled (by omega) hv hc (by omega) hl (hk ▸ hone) (by omega) hv₁ hc₁
      ((show (L : ℤ) - one.after.stored = pos by omega) ▸ htwo), hv₂, ?_, ?_, ?_, ?_⟩
    · simp [hcont₂, hcont₁, delivered, hshort, hbytes₁, hbytes₂]
    · exact (hstart₂.trans hstart₁).trans hb.start
    · simp [Transfer.bytes, delivered, hshort, hbytes₁, hbytes₂]
    · simp [Syscall.written, Region.Inside, hregion₁, hregion₂, hbytes₁, hbytes₂, hzero, hend]
      omega

/-- All that is stored is taken out, in one copy from `start` on. -/
theorem getAll_eq (hmax : 2 * (L : ℤ) ≤ INT_MAX) (hv : Valid L b) :
    b.getAll = .ok
      { result := if b.stored = 0 then none else some (copyOut b.buffer b.start b.stored)
        ring := b.taken b.stored
        copies := if b.stored = 0 then [] else [⟨b.start, b.stored⟩]
        asserted := true } := by
  have hlt := hv.end_lt
  have hc : b.Countable := fun _ => by rw [hv.length_eq]; omega
  unfold getAll
  rw [availableData_eq (by omega) hv hc, ok_bind]
  by_cases hzero : b.stored = 0
  · rw [gets_refused (by omega) hv hc (.inl (by omega)), if_pos hzero, if_pos hzero, hzero,
      taken_zero hv]
  · have hs := hv.stored_eq
    have hle := hv.stored_le
    -- less than the piece up to the end is not asked for: it is all stored
    have hspan : b.span b.stored = b.stored := by
      apply if_neg
      rintro ⟨hl, hshort⟩
      have hend := hv.end_nonneg
      rw [if_neg (by omega), ← hv.length_eq] at hs
      omega
    rw [gets_eq (by omega) hv hc (by omega) le_rfl (by omega), hspan, if_neg hzero, if_neg hzero]

theorem taken_all (hv : Valid L b) {n : ℕ} (hn : b.stored = n) :
    Drained L ((b.start.toNat + n) % L) (b.taken n) := by
  have hstart := hv.start_nonneg
  obtain ⟨hvalid, hstored⟩ := hv.taken (n := n) hn.ge
  refine ⟨hvalid, by omega, ?_⟩
  show (b.start + n) % b.length = _
  rw [hv.length_eq]
  push_cast
  rw [Int.toNat_of_nonneg hstart]

/-- **One round**: the bytes received are the request, unless they lie on both sides of the end of
the block. -/
theorem receive_eq (hmax : 2 * (L : ℤ) ≤ INT_MAX) (hb : Drained L pos b)
    {first second : Option (List CChar)} (ha : Answered L pos first second) :
    (pos + (delivered L pos first second).length ≤ L →
      ∃ r, receive b first second = .ok r ∧ r.data = request (delivered L pos first second) ∧
        r.received = delivered L pos first second ∧
        Drained L ((pos + (delivered L pos first second).length) % L) r.ring) ∧
    (L < pos + (delivered L pos first second).length →
      receive b first second = .error (.fault .outOfBounds)) := by
  obtain ⟨t, ht, hfilled⟩ := readSome_drained hmax hb ha
  obtain ⟨hv, hcont, hstart, hreceived, hinside⟩ := hfilled
  set bytes := delivered L pos first second
  have hstored : t.ring.stored = bytes.length := by rw [← length_contents, hcont]
  have hwritten : ∀ s ∈ t.calls, s.bytes = [] ∨ s.written.Inside b.length := by
    rw [hb.valid.length_eq]
    exact fun s hs => .inr (hinside s hs)
  -- one copy of all bytes from `pos` on, if there are any
  have hcopies : (∀ c ∈ (if t.ring.stored = 0 then [] else [Region.mk t.ring.start t.ring.stored]),
      c.Inside b.length) ↔ pos + bytes.length ≤ L := by
    rw [hstart, hstored, hb.valid.length_eq]
    by_cases hzero : bytes.length = 0
    · simp [hzero, hb.lt.le]
    · simp only [if_neg hzero, List.forall_mem_singleton, Region.Inside]
      omega
  unfold receive
  rw [ht, mapError_ok, ok_bind, if_pos hwritten, getAll_eq hmax hv, mapError_ok, ok_bind]
  constructor
  · intro hfit
    -- inside the block the copy is what is stored
    have hresult : (if t.ring.stored = 0 then none
        else some (copyOut t.ring.buffer t.ring.start t.ring.stored)) = request bytes := by
      rw [copyOut_eq_window (L := L) _ hv.start_nonneg (by omega), ← hv.length_eq]
      change (if t.ring.stored = 0 then none else some t.ring.contents) = _
      rw [hcont, hstored]
      simp [request]
    rw [if_pos (hcopies.mpr hfit)]
    refine ⟨_, rfl, hresult, hreceived, ?_⟩
    simpa [hstart, hstored] using taken_all hv hstored
  · intro hcross
    exact if_neg fun hall => absurd (hcopies.mp hall) hcross.not_ge

/-! ## A whole connection

The place of a round is the length of all that came before, modulo the size of the block. A connection
is served until a round comes across the end of the block, and this depends on the lengths of its rounds
alone. -/

/-- The buffer of a connection, the requests made, and what was received for each of them. -/
structure Connection where
  ring : RingBuffer
  requests : List (Option (List CChar))
  chunks : List (List CChar)

namespace Connection

/-- `RingBuffer_create(BUFFER_SIZE)` -/
def accept (heap : ℤ → CChar) : Connection :=
  { ring := create heap BUFFER_SIZE, requests := [], chunks := [] }

/-- One round, with the answers of the kernel to its first and second `recv`. -/
def step (c : Connection) (answers : Option (List CChar) × Option (List CChar)) :
    Except Crash Connection := do
  let r ← receive c.ring answers.1 answers.2
  return { ring := r.ring, requests := c.requests ++ [r.data], chunks := c.chunks ++ [r.received] }

/-- The place in the block that the next byte of the stream goes to. -/
def offset (c : Connection) : ℕ :=
  c.chunks.flatten.length % BUFFER_SIZE

/-- Every request is what was received in its round. -/
structure Relays (c : Connection) : Prop where
  drained : Drained BUFFER_SIZE c.offset c.ring
  requests : c.requests = c.chunks.map request

/-- The bytes of the next round end at the end of the block or before it. -/
def Fits (c : Connection) (answers : Option (List CChar) × Option (List CChar)) : Prop :=
  c.offset + (delivered BUFFER_SIZE c.offset answers.1 answers.2).length ≤ BUFFER_SIZE

variable {c : Connection} {answers : Option (List CChar) × Option (List CChar)}

theorem relays_accept (heap : ℤ → CChar) : (accept heap).Relays :=
  ⟨drained_create heap (show 0 < BUFFER_SIZE by decide), rfl⟩

theorem step_relays (hc : c.Relays) (ha : Answered BUFFER_SIZE c.offset answers.1 answers.2)
    (hfits : c.Fits answers) : ∃ c', c.step answers = .ok c' ∧ c'.Relays := by
  obtain ⟨r, hr, hdata, hreceived, hdrained⟩ :=
    (receive_eq (by decide) hc.drained ha).1 hfits
  refine ⟨_, by rw [step, hr]; rfl, ?_, ?_⟩
  · rw [offset, List.flatten_append, List.flatten_singleton, List.length_append, hreceived, Nat.add_mod]
    rw [offset, Nat.add_mod, Nat.mod_mod] at hdrained
    exact hdrained
  · simp [hc.requests, hdata, hreceived]

theorem step_straddles (hc : c.Relays) (ha : Answered BUFFER_SIZE c.offset answers.1 answers.2)
    (hfits : ¬ c.Fits answers) : c.step answers = .error (.fault .outOfBounds) := by
  rw [step, (receive_eq (by decide) hc.drained ha).2 (not_le.mp hfits)]
  rfl

/-- A step that leads on relays its bytes. -/
theorem relays_of_step {c' : Connection} (hc : c.Relays)
    (ha : Answered BUFFER_SIZE c.offset answers.1 answers.2) (h : c.step answers = .ok c') :
    c'.Relays := by
  by_cases hfits : c.Fits answers
  · obtain ⟨c'', hstep, hc''⟩ := step_relays hc ha hfits
    exact Except.ok.inj (hstep.symm.trans h) ▸ hc''
  · rw [step_straddles hc ha hfits] at h
    cases h

/-- **A connection is served for as long as no round straddles the end of the block**: while the
system calls made do not fail, every request is what its round received, until a round receives
bytes on both sides of a multiple of the buffer size in the stream, which ends the server. -/
theorem relayed_iff_fits (heap : ℤ → CChar)
    {rounds : List (Option (List CChar) × Option (List CChar))}
    (ha : Run.Along step (fun c a => Answered BUFFER_SIZE c.offset a.1 a.2) (accept heap) rounds) :
    Run.Sustained step Relays (accept heap) rounds ↔ Run.Along step Fits (accept heap) rounds := by
  have hgood : ∀ c a, Relays c → Relays c → Answered BUFFER_SIZE c.offset a.1 a.2 →
      ((∃ c', c.step a = .ok c' ∧ c'.Relays) ↔ c.Fits a) := by
    intro c a hc _ ha
    constructor
    · rintro ⟨c', hstep, -⟩
      by_contra hfits
      rw [step_straddles hc ha hfits] at hstep
      cases hstep
    · exact step_relays hc ha
  apply Run.sustained_iff_along _ hgood (relays_accept heap) (relays_accept heap) ha
  exact fun c a c' hc ha hstep => relays_of_step hc ha hstep

theorem relayed_iff_fits_create :
    Run.Sustained step Relays (accept fun _ => 0) [(some (cstr "create x"), none)] ↔
      Run.Along step Fits (accept fun _ => 0) [(some (cstr "create x"), none)] :=
  relayed_iff_fits (fun _ => 0) ⟨⟨_, rfl, fun h => absurd h (by decide)⟩, fun _ _ => trivial⟩

end Connection

end Server

end Lcthw
