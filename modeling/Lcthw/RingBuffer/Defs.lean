import Lcthw.Base
import Lcthw.Ring

/-!
# Lcthw — the ring buffer (`ringbuffer.c`, `ringbuffer.h`)

The `int` fields are integers; sums are taken through `int`, which faults where the `int` of the
source overflows. `buffer` is the memory around the allocated block, addressed from the start of
the block: the block itself is the offsets `[0, length)`, and what lies outside is arbitrary.
Every `memcpy` that touches the block is recorded as the `Region` it covers there.
-/

namespace Lcthw

open Ring

structure RingBuffer where
  buffer : ℤ → CChar
  length : ℤ
  start : ℤ
  «end» : ℤ
  looped : ℤ

namespace RingBuffer

/-- A stretch of the buffer that one copy reads or writes. -/
structure Region where
  offset : ℤ
  length : ℤ
  deriving DecidableEq

/-- A region inside a block of `L` bytes. -/
def Region.Inside (r : Region) (L : ℤ) : Prop :=
  0 ≤ r.offset ∧ r.offset + r.length ≤ L

/-- A fresh buffer: `calloc` clears the block, and `heap` is what lies around it. -/
def create (heap : ℤ → CChar) (length : ℤ) : RingBuffer :=
  { buffer := fun a => if 0 ≤ a ∧ a < length then 0 else heap a
    length
    start := 0
    «end» := 0
    looped := 0 }

def availableData (b : RingBuffer) : Except Fault ℤ :=
  if b.looped = 0 then
    int (b.end - b.start)
  else do
    let x ← int (b.length + b.end)
    int (x - b.start)

def availableSpace (b : RingBuffer) : Except Fault ℤ := do
  let n ← b.availableData
  int (b.length - n)

/-- `memcpy(dst + off, src + from, n)`: a negative `n` becomes a huge unsigned size. -/
def memcpy (dst : ℤ → CChar) (off : ℤ) (src : ℤ → CChar) (pos n : ℤ) :
    Except Fault (ℤ → CChar) :=
  if n < 0 then .error .outOfBounds else .ok (copyIn dst off (copyOut src pos n.toNat))

def commitRead (b : RingBuffer) (amount : ℤ) : Except Fault RingBuffer := do
  let start ← int (b.start + amount)
  if start ≥ b.length then
    let start ← rem start b.length
    return { b with start, looped := 0 }
  else
    return { b with start }

def commitWrite (b : RingBuffer) (amount : ℤ) : Except Fault RingBuffer := do
  let «end» ← int (b.end + amount)
  if «end» ≥ b.length then
    let «end» ← rem «end» b.length
    return { b with «end», looped := 1 }
  else
    return { b with «end» }

/-- The result of a call that copies into the buffer. -/
structure Written where
  rc : ℤ
  ring : RingBuffer
  copies : List Region

/-- The result of a call that copies out of the buffer, with the caller's memory after it. -/
structure Delivered where
  rc : ℤ
  target : ℤ → CChar
  ring : RingBuffer
  copies : List Region

/-- The copying of an accepted `write`: when the data wraps, in two pieces. -/
def place (b : RingBuffer) (data : ℤ → CChar) (length : ℤ) : Except Fault Written :=
  if b.looped = 0 ∧ b.length - b.end < length then do
    let room ← int (b.length - b.end)
    let rest ← int (length - room)
    let buffer ← memcpy b.buffer b.end data 0 room
    let buffer ← memcpy buffer 0 data room rest
    let ring ← commitWrite { b with buffer } length
    return { rc := length, ring, copies := [⟨b.end, room⟩, ⟨0, rest⟩] }
  else do
    let buffer ← memcpy b.buffer b.end data 0 length
    let ring ← commitWrite { b with buffer } length
    return { rc := length, ring, copies := [⟨b.end, length⟩] }

/-- `RingBuffer_write`: both ends go back to zero when nothing is stored, also when the write is
then refused. -/
def write (b : RingBuffer) (data : ℤ → CChar) (length : ℤ) : Except Fault Written := do
  let n ← b.availableData
  let b : RingBuffer := if n = 0 then { b with start := 0, «end» := 0 } else b
  let space ← b.availableSpace
  if length ≤ space then
    b.place data length
  else
    return { rc := -1, ring := b, copies := [] }

/-- The copying of an accepted `read`: when the data wraps, the first copy already takes `amount`
bytes from `start` on, and the second one overwrites those that lay behind the block. -/
def fetch (b : RingBuffer) (target : ℤ → CChar) (amount : ℤ) :
    Except Fault ((ℤ → CChar) × List Region) :=
  if b.looped = 1 ∧ b.length - b.start < amount then do
    let room ← int (b.length - b.start)
    let rest ← int (amount - b.length)
    let rest ← int (rest + b.start)
    let target ← memcpy target 0 b.buffer b.start amount
    let target ← memcpy target room b.buffer 0 rest
    return (target, [⟨b.start, amount⟩, ⟨0, rest⟩])
  else do
    let target ← memcpy target 0 b.buffer b.start amount
    return (target, [⟨b.start, amount⟩])

/-- `RingBuffer_read`: both ends go back to zero when they meet. -/
def read (b : RingBuffer) (target : ℤ → CChar) (amount : ℤ) : Except Fault Delivered := do
  let n ← b.availableData
  if amount ≤ n then
    let (target, copies) ← b.fetch target amount
    let ring ← commitRead b amount
    let ring : RingBuffer :=
      if ring.end = ring.start then { ring with start := 0, «end» := 0 } else ring
    return { rc := amount, target, ring, copies }
  else
    return { rc := -1, target, ring := b, copies := [] }

end RingBuffer

end Lcthw
