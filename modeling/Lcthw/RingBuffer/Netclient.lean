import Lcthw.RingBuffer.Gets
import Lcthw.RingBuffer.Transfer

/-!
# Lcthw — the relay of `netclient.c`

What a descriptor delivers goes through a ring buffer to the other descriptor, with the ends of its
lines changed. `malloc` hands out a block with any contents, and `bfindreplace` is a parameter.

* **`readSome`**, **`writeSome`**: the code. The kernel delivers no more bytes than it is asked for.
* **`relays_iff`**: `readSome` stores as many bytes as there is room, whatever it received, so the relay
  is right exactly when the two are the same.
-/

namespace Lcthw.Netclient

open Ring RingBuffer

def NL : List CChar := cstr "\n"

def CRLF : List CChar := cstr "\r\n"

/-- `read_some`: its result, and the buffer. `recv` and `read` differ in nothing that is modelled. -/
def readSome (b : RingBuffer) (block : ℤ → CChar) (answer : Option (List CChar)) :
    Except Fault (ℤ × RingBuffer) := do
  let n ← b.availableData
  let b : RingBuffer := if n = 0 then { b with start := 0, «end» := 0 } else b
  let size ← b.availableSpace
  let (rc, data) : ℤ × (ℤ → CChar) :=
    match answer with
    | none => (-1, block)
    | some bytes =>
      let bytes := bytes.take (clip bytes.length size)
      (bytes.length, copyIn block 0 bytes)
  let space ← b.availableSpace
  let w ← b.write data space
  return (if rc ≥ 0 ∧ w.rc ≠ -1 then rc else -1, w.ring)

/-- What `write_some` ends with: its result, what it offered to `send` or `write`, and the buffer. -/
structure Sent where
  rc : ℤ
  offered : Option (List CChar)
  ring : RingBuffer

/-- `write_some`, for a `bfindreplace` that may fail, or end the program with a fault of its own. -/
def writeSome
    (bfindreplace : List CChar → List CChar → List CChar → Except Stop (Option (List CChar)))
    (b : RingBuffer) (answer : List CChar → ℤ) : Except Stop Sent := do
  let n ← b.availableData.mapError .fault
  let g ← (b.gets n).mapError .fault
  match g.result with
  | none => return { rc := -1, offered := none, ring := g.ring }
  | some data => do
    let replaced ← bfindreplace data NL CRLF
    match replaced with
    | none => return { rc := -1, offered := none, ring := g.ring }
    | some data =>
      let rc := answer data
      return { rc := if rc = data.length then rc else -1, offered := some data, ring := g.ring }

/-- A line feed becomes a carriage return and a line feed. -/
def crlf (bytes : List CChar) : List CChar :=
  bytes.flatMap fun c => if c = 10 then [13, 10] else [c]

/-- What is received is stored, and is what the next `write_some` sends, with its line ends changed. -/
def Relays
    (bfindreplace : List CChar → List CChar → List CChar → Except Stop (Option (List CChar)))
    (b : RingBuffer) (block : ℤ → CChar) (bytes : List CChar) : Prop :=
  ∃ b', readSome b block (some bytes) = .ok ((bytes.length : ℤ), b') ∧ b'.contents = bytes ∧
    ∀ answer, ∃ sent, writeSome bfindreplace b' answer = .ok sent ∧
      sent.offered = some (crlf bytes) ∧ (answer (crlf bytes) = (crlf bytes).length →
        sent.rc = (crlf bytes).length)

variable {bfindreplace : List CChar → List CChar → List CChar → Except Stop (Option (List CChar))}
  {L : ℤ} {b : RingBuffer} {bytes : List CChar}

/-! ## Reading

`read_some` takes the block of `malloc` for what it received. Its `write` is given the room of the
buffer and not what the kernel has returned. -/

/-- What is delivered fits, so all of it is taken. -/
theorem take_clip {n : ℕ} (h : bytes.length ≤ n) : bytes.take (clip bytes.length n) = bytes := by
  apply List.take_of_length_le
  unfold clip
  rw [if_neg (by omega)]
  omega

/-- The block of `malloc` is stored whole, with what was received at its beginning. -/
theorem readSome_eq (hL : 0 < L) (hmax : L ≤ INT_MAX) (hv : Valid L b) (hempty : b.stored = 0)
    (block : ℤ → CChar) (hfit : (bytes.length : ℤ) ≤ L) :
    ∃ b', readSome b block (some bytes) = .ok ((bytes.length : ℤ), b') ∧ Valid L b' ∧
      b'.Countable ∧ b'.start = 0 ∧ b'.stored = L ∧
      b'.contents = copyOut (copyIn block 0 bytes) 0 L.toNat := by
  obtain ⟨n, rfl⟩ := Int.eq_ofNat_of_zero_le hL.le
  have hlooped := hv.looped_of_stored hempty
  have hc : b.Countable := fun h => absurd hlooped h
  -- the empty buffer is rewound, and all of it is room
  have hvr : Valid n b.rewind := hv.rewind hL
  have hcr : b.rewind.Countable := fun h => absurd hlooped h
  have hstored : b.rewind.stored = 0 := by
    unfold stored
    rw [if_pos (show b.rewind.looped = 0 from hlooped)]
    rfl
  have hnone : b.rewind.contents = [] := by
    apply List.eq_nil_of_length_eq_zero
    rw [length_contents, hstored]
  have hsettled : b.rewind.settled = b.rewind := by
    unfold settled
    rw [if_pos hstored]
    rfl
  have hdata : b.availableData = .ok 0 := by
    rw [availableData_eq hmax hv hc, hempty]
    rfl
  have hspace : b.rewind.availableSpace = .ok n := by
    rw [availableSpace_eq hmax hvr hcr, hstored]
    exact congrArg Except.ok (sub_zero _)
  -- as much is written as there is room, whatever was received
  obtain ⟨mem, copies, hwrite, hvalid, hfull, hcontents⟩ := write_stores hL hmax hvr hcr
    (copyIn block 0 bytes) (n := n) (by omega) (by rw [hsettled]; show (0 : ℤ) + n ≤ INT_MAX; omega)
  rw [hsettled] at hwrite hvalid hfull hcontents
  rw [hstored, zero_add] at hfull
  rw [hnone, List.nil_append] at hcontents
  have hread : readSome b block (some bytes) =
      .ok ((bytes.length : ℤ), written { b.rewind with buffer := mem } n) := by
    unfold readSome
    rw [hdata, ok_bind]
    show (b.rewind.availableSpace >>= _) = _
    rw [hspace, ok_bind]
    show (b.rewind.availableSpace >>= _) = _
    rw [hspace, ok_bind]
    show (do
      let w ← b.rewind.write (copyIn block 0 (bytes.take (clip bytes.length n))) n
      let rc : ℤ := (bytes.take (clip bytes.length n)).length
      return (if rc ≥ 0 ∧ w.rc ≠ -1 then rc else -1, w.ring) : Except Fault _) = _
    rw [take_clip (by omega), hwrite, ok_bind]
    have hrc : (bytes.length : ℤ) ≥ 0 ∧ (n : ℤ) ≠ -1 := by omega
    show Except.ok (if (bytes.length : ℤ) ≥ 0 ∧ (n : ℤ) ≠ -1 then (bytes.length : ℤ) else -1, _) = _
    rw [if_pos hrc]
  refine ⟨_, hread, hvalid, ?_, rfl, ?_, hcontents⟩
  · -- the end is back at the beginning
    intro _
    have hend : (written { b.rewind with buffer := mem } n).end = 0 := by
      show (0 + (n : ℤ)) % b.length = 0
      rw [hv.length_eq, zero_add, Int.emod_self]
    rw [hend, hvalid.length_eq]
    omega
  · exact congrArg Nat.cast hfull

/-! ## Writing

`write_some` takes all that is stored as one `bstring`, so here a full buffer is read in one piece. -/

/-- A full buffer is taken as a whole, when its size leaves room for a NUL. -/
theorem writeSome_eq (hL : 0 < L) (hlt : L < INT_MAX) (hv : Valid L b) (hc : b.Countable)
    (hfull : b.stored = L) (hstart : b.start = 0)
    (hfind : bfindreplace b.contents NL CRLF = .ok (some (crlf b.contents)))
    (answer : List CChar → ℤ) :
    ∃ ring, writeSome bfindreplace b answer = .ok
      { rc := if answer (crlf b.contents) = (crlf b.contents).length then answer (crlf b.contents)
          else -1
        offered := some (crlf b.contents), ring } := by
  have hstraight : b.looped = 0 ∨ b.length - b.start = b.stored := by
    right
    rw [hv.length_eq, hstart, hfull, sub_zero]
  obtain ⟨g, bytes, hgets, hresult, -, -, hbytes, -⟩ := getsAgrees_of_straight hL hlt.le hv hc
    (n := b.stored) (by omega) le_rfl (by omega) hstraight
  have hall : b.contents.take b.stored = b.contents := by
    apply List.take_of_length_le
    rw [length_contents]
  rw [hall] at hbytes
  subst hbytes
  refine ⟨g.ring, ?_⟩
  unfold writeSome
  rw [availableData_eq hlt.le hv hc, mapError_ok, ok_bind, hgets, mapError_ok, ok_bind, hresult]
  show (bfindreplace b.contents NL CRLF >>= _) = _
  rw [hfind]
  rfl

/-- The greatest `int` is no size of a `bstring`. -/
theorem writeSome_overflow (hL : L = INT_MAX) (hv : Valid L b) (hc : b.Countable)
    (hfull : b.stored = L) (hstart : b.start = 0) (answer : List CChar → ℤ) :
    writeSome bfindreplace b answer = .error (.fault .intOverflow) := by
  have hpos : 0 < b.stored := by
    have hmax : 0 < INT_MAX := by decide
    omega
  have hspan : (b.span b.stored : ℤ) = INT_MAX := by
    have hwrap : ¬ (b.looped = 1 ∧ (b.stored : ℤ) < b.length - b.start) := by
      rintro ⟨-, hlt⟩
      rw [hv.length_eq, hstart] at hlt
      omega
    unfold span
    rw [if_neg hwrap, hfull, hL]
  unfold writeSome
  rw [availableData_eq hL.le hv hc, mapError_ok, ok_bind,
    gets_overflow hL.le hv hc hpos le_rfl hspan]
  rfl

/-! ## The relay

The two together: what is sent is what was received, exactly when nothing of the block of `malloc` is
left over. -/

/-- **The relay is right exactly when what is received fills the buffer**, and a `bstring` can hold it.
For any buffer with nothing stored and anything the kernel delivers. -/
theorem relays_iff (hfind : bfindreplace bytes NL CRLF = .ok (some (crlf bytes))) (hL : 0 < L)
    (hmax : L ≤ INT_MAX) (hv : Valid L b) (hempty : b.stored = 0) (block : ℤ → CChar)
    (hfit : (bytes.length : ℤ) ≤ L) :
    Relays bfindreplace b block bytes ↔ (bytes.length : ℤ) = L ∧ L < INT_MAX := by
  obtain ⟨full, hread, hvf, hcf, hstart, hstored, hcontents⟩ :=
    readSome_eq hL hmax hv hempty block hfit
  constructor
  · rintro ⟨b', hread', hbytes, hsend⟩
    rw [hread] at hread'
    obtain rfl : full = b' := congrArg Prod.snd (Except.ok.inj hread')
    have hlen : (bytes.length : ℤ) = L := by
      rw [← hbytes, length_contents]
      exact hstored
    refine ⟨hlen, lt_of_le_of_ne hmax fun heq => ?_⟩
    -- the length of INT_MAX bytes overflows when they are sent
    obtain ⟨sent, hsent, -⟩ := hsend fun _ => 0
    rw [writeSome_overflow heq hvf hcf hstored hstart] at hsent
    cases hsent
  · rintro ⟨hlen, hlt⟩
    have hbytes : full.contents = bytes := by
      rw [hcontents, ← hlen, Int.toNat_natCast]
      exact copyOut_copyIn block bytes
    refine ⟨full, hread, hbytes, fun answer => ?_⟩
    rw [← hbytes] at hfind
    obtain ⟨ring, hsent⟩ := writeSome_eq hL hlt hvf hcf hstored hstart hfind answer
    rw [hbytes] at hsent
    refine ⟨_, hsent, rfl, fun hall => ?_⟩
    show (if answer (crlf bytes) = (crlf bytes).length then answer (crlf bytes) else -1) = _
    rw [if_pos hall]
    exact hall

/-- `bfindreplace`, for a line feed. -/
def replaceLineFeed (s _find _replace : List CChar) : Except Stop (Option (List CChar)) :=
  .ok (some (crlf s))

theorem relays_iff_two :
    Relays replaceLineFeed (create (fun _ => 0) 2) (fun _ => 0) (cstr "a\n") ↔
      ((cstr "a\n").length : ℤ) = 2 ∧ (2 : ℤ) < INT_MAX :=
  relays_iff rfl (by decide) (by decide) (valid_create _ (by decide)) rfl _ (by decide)

/-- One byte into a buffer for two: the byte that `malloc` left behind it is stored as well. -/
theorem relay_adds_garbage :
    ∃ b', readSome (create (fun _ => 0) 2) (fun _ => 120) (some (cstr "a")) = .ok (1, b') ∧
      b'.contents = cstr "ax" ∧
      ¬ Relays replaceLineFeed (create (fun _ => 0) 2) (fun _ => 120) (cstr "a") := by
  refine ⟨_, rfl, by decide, ?_⟩
  rintro ⟨b', hread, hbytes, -⟩
  cases hread
  exact absurd hbytes (by decide)

end Lcthw.Netclient
