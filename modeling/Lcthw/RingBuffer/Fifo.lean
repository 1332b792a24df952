import Lcthw.RingBuffer.Defs
import Lcthw.Run

/-!
# Lcthw — the ring buffer as a queue of bytes

* **`Valid`**: what holds of a ring buffer between calls.
* **`contents`**: the stored bytes, oldest first.
* **`availableData_eq`**, **`write_refused`**, **`write_accepted`**, **`read_refused`**,
  **`read_accepted`**: what one call does to the contents of a valid buffer.
* **`agrees_iff_sound`**: over whole runs the buffer is a bounded queue as long as no `int` overflows
  and no zero-length read moves the two ends of a full buffer back to zero.
-/

namespace Lcthw.RingBuffer

open Ring

/-! ## The representation

The stored bytes are a window of `stored` bytes from `start` on, which goes on at the beginning of the
block. `looped` tells a full buffer from an empty one, so a buffer is valid only when the flag and the
order of its ends go together. -/

structure Valid (L : ℤ) (b : RingBuffer) : Prop where
  length_eq : b.length = L
  start_nonneg : 0 ≤ b.start
  start_lt : b.start < L
  end_nonneg : 0 ≤ b.end
  end_lt : b.end < L
  ends : (b.looped = 0 ∧ b.start ≤ b.end) ∨ (b.looped = 1 ∧ b.end ≤ b.start)

/-- The number of stored bytes. -/
def stored (b : RingBuffer) : ℕ :=
  (if b.looped = 0 then b.end - b.start else b.length + b.end - b.start).toNat

/-- The stored bytes, oldest first. -/
def contents (b : RingBuffer) : List CChar :=
  window b.buffer b.length b.start b.stored

/-- The sum `availableData` forms on a looped buffer is an `int`. -/
def Countable (b : RingBuffer) : Prop :=
  b.looped ≠ 0 → b.length + b.end ≤ INT_MAX

/-- Both ends at zero. -/
def rewind (b : RingBuffer) : RingBuffer :=
  { b with start := 0, «end» := 0 }

@[simp] theorem length_contents (b : RingBuffer) : b.contents.length = b.stored :=
  length_window ..

variable {L : ℤ} {b : RingBuffer}

theorem Valid.stored_le (hv : Valid L b) : (b.stored : ℤ) ≤ L := by
  obtain ⟨hlen, _, _, _, _, ⟨hl, _⟩ | ⟨hl, _⟩⟩ := hv <;> simp [stored, hl] <;> omega

theorem Valid.stored_eq (hv : Valid L b) :
    (b.stored : ℤ) = if b.looped = 0 then b.end - b.start else L + b.end - b.start := by
  obtain ⟨hlen, _, _, _, _, ⟨hl, _⟩ | ⟨hl, _⟩⟩ := hv <;> simp [stored, hl] <;> omega

/-- The stored bytes end where `end` points. -/
theorem Valid.end_eq (hv : Valid L b) : b.end = (b.start + b.stored) % L := by
  have hs := hv.stored_eq
  obtain ⟨_, _, _, _, _, ⟨hl, _⟩ | ⟨hl, _⟩⟩ := hv
  · rw [hs, if_pos hl, show b.start + (b.end - b.start) = b.end by ring,
      Int.emod_eq_of_lt (by omega) (by omega)]
  · rw [hs, if_neg (by omega), show b.start + (L + b.end - b.start) = b.end + L by ring,
      Int.add_emod_right, Int.emod_eq_of_lt (by omega) (by omega)]

/-- Only an empty buffer has nothing stored: one that has looped is never empty. -/
theorem Valid.looped_of_stored (hv : Valid L b) (h : b.stored = 0) : b.looped = 0 := by
  have hs := hv.stored_eq
  obtain ⟨_, _, _, _, _, ⟨hl, _⟩ | ⟨hl, _⟩⟩ := hv
  · exact hl
  · rw [h, if_neg (by omega)] at hs
    omega

theorem Valid.rewind (hL : 0 < L) (hv : Valid L b) : Valid L b.rewind :=
  ⟨hv.length_eq, le_rfl, hL, le_rfl, hL, hv.ends.imp (fun h => ⟨h.1, le_rfl⟩)
    (fun h => ⟨h.1, le_rfl⟩)⟩

theorem valid_create (heap : ℤ → CChar) (hL : 0 < L) : Valid L (create heap L) :=
  ⟨rfl, le_rfl, hL, le_rfl, hL, Or.inl ⟨rfl, le_rfl⟩⟩

@[simp] theorem contents_create (heap : ℤ → CChar) : (create heap L).contents = [] := rfl

/-! ## Counting

The data and the space are counted first in every call. On a looped buffer this adds `length` and `end`,
so the count of a large one may overflow. -/

/-- A countable buffer reports the number of its bytes. -/
theorem availableData_eq (hmax : L ≤ INT_MAX) (hv : Valid L b) (hc : b.Countable) :
    b.availableData = .ok b.stored := by
  have hs := hv.stored_eq
  obtain ⟨hlen, _, _, _, _, ⟨hl, _⟩ | ⟨hl, _⟩⟩ := hv
  · rw [if_pos hl] at hs
    rw [availableData, if_pos hl, hs, int_ok (by omega) (by omega)]
  · have hsum := hc (by omega)
    rw [if_neg (by omega)] at hs
    rw [availableData, if_neg (by omega), int_ok (by omega) hsum, hlen, hs]
    exact int_ok (by omega) (by omega)

theorem availableData_overflow (hc : ¬ b.Countable) : b.availableData = .error .intOverflow := by
  obtain ⟨hl, hsum⟩ := Classical.not_imp.mp hc
  rw [availableData, if_neg hl, int_overflow (by omega)]
  rfl

theorem availableSpace_eq (hmax : L ≤ INT_MAX) (hv : Valid L b) (hc : b.Countable) :
    b.availableSpace = .ok (L - b.stored) := by
  have hle := hv.stored_le
  rw [availableSpace, availableData_eq hmax hv hc, hv.length_eq]
  exact int_ok (by omega) (by omega)

/-! ## Writing

A write comes in three parts: the ends go to zero when nothing is stored, the data is copied in one
piece or two, and `end` moves on. Each part has its lemma, and they are put together in `write_stores`. -/

/-- The buffer `write` starts from: an empty one is rewound first. -/
def settled (b : RingBuffer) : RingBuffer :=
  if b.stored = 0 then b.rewind else b

theorem Valid.settled (hL : 0 < L) (hv : Valid L b) : Valid L b.settled := by
  rw [RingBuffer.settled]
  split
  · exact hv.rewind hL
  · exact hv

theorem stored_settled (hv : Valid L b) : b.settled.stored = b.stored := by
  rw [settled]
  split
  · next h =>
    rw [h]
    simp [stored, rewind, hv.looped_of_stored h]
  · rfl

theorem contents_settled (hv : Valid L b) : b.settled.contents = b.contents := by
  rw [contents, contents, stored_settled hv, settled]
  split
  · next h => simp [h]
  · rfl

theorem countable_settled (hv : Valid L b) (hc : b.Countable) : b.settled.Countable := by
  rw [settled]
  split
  · next h => exact fun hl => absurd (hv.looped_of_stored h) hl
  · exact hc

/-- The buffer with `end` moved on by `n`. -/
def written (b : RingBuffer) (n : ℕ) : RingBuffer :=
  { b with
    «end» := (b.end + n) % b.length
    looped := if b.length ≤ b.end + n then 1 else b.looped }

/-- A commit goes around the block at most once, and sets `looped` when it does. -/
theorem commitWrite_eq (hv : Valid L b) {n : ℕ} (hsum : b.end + n ≤ INT_MAX) :
    b.commitWrite n = .ok (b.written n) := by
  have hmin : -INT_MAX - 1 ≤ 0 := by decide
  obtain ⟨rfl, _, _, _, _, _⟩ := hv
  rw [commitWrite, int_ok (by omega) hsum]
  by_cases hwrap : b.length ≤ b.end + n
  · simp [written, hwrap, rem_ok (x := b.end + n) (y := b.length) (by omega) (by omega), bind,
      Except.bind, pure, Except.pure]
  · have hmod : (b.end + n) % b.length = b.end + n := Int.emod_eq_of_lt (by omega) (by omega)
    simp [written, hwrap, hmod, bind, Except.bind, pure, Except.pure]

theorem commitWrite_overflow {n : ℕ} (hsum : INT_MAX < b.end + n) :
    b.commitWrite n = .error .intOverflow := by
  rw [commitWrite, int_overflow hsum]
  rfl

/-- Room for the data keeps `end` behind `start`, and so the flag right. -/
theorem Valid.written (hv : Valid L b) {n : ℕ} (hfit : b.stored + n ≤ L) :
    Valid L (b.written n) ∧ (b.written n).stored = b.stored + n := by
  have hs := hv.stored_eq
  obtain ⟨hlen, _, _, _, _, hends⟩ := hv
  by_cases hwrap : b.length ≤ b.end + n
  · -- the data reaches the end of the block, so the buffer had not looped
    obtain ⟨hl, _⟩ | ⟨hl, _⟩ := hends
    · have hmod : (b.end + n) % b.length = b.end + n - L := by
        rw [hlen, ← Int.sub_emod_right, Int.emod_eq_of_lt]
        all_goals rw [if_pos hl] at hs; omega
      rw [if_pos hl] at hs
      constructor
      · constructor <;> simp [RingBuffer.written, hmod, hwrap] <;> omega
      · simp [RingBuffer.written, stored, hmod, hwrap, hl]
        omega
    · rw [if_neg (by omega)] at hs
      omega
  · have hmod : (b.end + n) % b.length = b.end + n := Int.emod_eq_of_lt (by omega) (by omega)
    obtain ⟨hl, _⟩ | ⟨hl, _⟩ := hends
    · constructor
      · constructor <;> simp [RingBuffer.written, hmod, hwrap] <;> omega
      · simp [RingBuffer.written, stored, hmod, hwrap, hl]
        omega
    · rw [if_neg (by omega)] at hs
      constructor
      · constructor <;> simp [RingBuffer.written, hmod, hwrap] <;> omega
      · simp [RingBuffer.written, stored, hmod, hwrap, hl]
        omega

/-- Changing the bytes alone keeps a buffer valid. -/
theorem Valid.buffer (hv : Valid L b) (mem : ℤ → CChar) : Valid L { b with buffer := mem } :=
  ⟨hv.length_eq, hv.start_nonneg, hv.start_lt, hv.end_nonneg, hv.end_lt, hv.ends⟩

/-- Data put at the end of the stored bytes is stored once `end` has moved on over it. -/
theorem contents_written (hL : 0 < L) (hv : Valid L b) {data : List CChar}
    (hfit : b.stored + data.length ≤ L) {mem : ℤ → CChar}
    (hmem : ∀ a, 0 ≤ a → a < L → mem a = put b.buffer L b.end data a) :
    (written { b with buffer := mem } data.length).contents = b.contents ++ data := by
  have hstored : (written { b with buffer := mem } data.length).stored = b.stored + data.length :=
    ((hv.buffer mem).written hfit).2
  calc window mem b.length b.start _
    _ = window mem L b.start (b.stored + data.length) := by rw [hstored, hv.length_eq]
    _ = window (put b.buffer L b.end data) L b.start (b.stored + data.length) :=
      window_congr hL hmem ..
    _ = b.contents ++ data := by
      rw [hv.end_eq, put_emod, window_put _ _ (by exact_mod_cast hfit), contents, hv.length_eq]

/-- `write` in one step: what it checks, and what it does on either side. -/
theorem write_eq (hL : 0 < L) (hmax : L ≤ INT_MAX) (hv : Valid L b) (hc : b.Countable)
    (data : ℤ → CChar) (n : ℤ) :
    b.write data n =
      if n ≤ L - b.stored then b.settled.place data n
      else .ok { rc := -1, ring := b.settled, copies := [] } := by
  have hsettled : (if (b.stored : ℤ) = 0 then ({ b with start := 0, «end» := 0 } : RingBuffer) else b)
      = b.settled := by
    simp [settled, rewind]
  have hspace := availableSpace_eq hmax (hv.settled hL) (countable_settled hv hc)
  rw [stored_settled hv] at hspace
  rw [write, availableData_eq hmax hv hc]
  simp only [bind, Except.bind, hsettled, hspace]
  rfl

/-- The block after `place` holds the data from `end` on, wrapping. -/
theorem place_eq (hmax : L ≤ INT_MAX) (hv : Valid L b) (src : ℤ → CChar) {n : ℕ}
    (hfit : b.stored + n ≤ L) :
    ∃ mem copies, (∀ a, 0 ≤ a → a < L → mem a = put b.buffer L b.end (copyOut src 0 n) a) ∧
      b.place src n =
        (commitWrite { b with buffer := mem } n).map fun ring => { rc := n, ring, copies } := by
  have hs := hv.stored_eq
  have hdata : (copyOut src 0 n).length = n := length_copyOut ..
  obtain ⟨hlen, _, _, hend, hendL, hends⟩ := hv
  by_cases hwrap : b.looped = 0 ∧ b.length - b.end < n
  · -- two copies, the second one to the beginning of the block
    obtain ⟨k, hk⟩ := Int.eq_ofNat_of_zero_le (show 0 ≤ L - b.end by omega)
    obtain ⟨m, hm⟩ := Int.eq_ofNat_of_zero_le (show 0 ≤ (n : ℤ) - k by omega)
    refine ⟨_, [⟨b.end, k⟩, ⟨0, m⟩], fun a ha haL => copyIn_copyIn_eq_put b.buffer hendL (by omega)
      (by omega) ha haL, ?_⟩
    have hfirst : (copyOut src 0 n).take k = copyOut src 0 k := take_copyOut src 0 (by omega)
    have hsecond : (copyOut src 0 n).drop k = copyOut src k m := by
      rw [show n = k + m by omega, drop_copyOut, zero_add]
    rw [place, if_pos hwrap, hlen, hk, int_ok (by omega) (by omega)]
    simp only [bind, Except.bind]
    rw [hm, int_ok (by omega) (by omega)]
    simp only [memcpy, Int.toNat_natCast, hfirst, hsecond]
    simp only [show ¬ (k : ℤ) < 0 by omega, show ¬ (m : ℤ) < 0 by omega, if_false]
    rfl
  · have hroom : b.end + n ≤ L := by
      obtain ⟨hl, _⟩ | ⟨hl, _⟩ := hends
      · have := not_and.mp hwrap hl
        omega
      · rw [if_neg (by omega)] at hs
        omega
    refine ⟨_, [⟨b.end, n⟩], fun a ha haL =>
      copyIn_eq_put b.buffer hend (by rw [hdata]; exact hroom) ha haL, ?_⟩
    rw [place, if_neg hwrap]
    simp only [memcpy, Int.toNat_natCast]
    rw [if_neg (by omega)]
    rfl

/-- **A write that fits** appends what it is given to the stored bytes. -/
theorem write_stores (hL : 0 < L) (hmax : L ≤ INT_MAX) (hv : Valid L b) (hc : b.Countable)
    (src : ℤ → CChar) {n : ℕ} (hfit : b.stored + n ≤ L) (hsum : b.settled.end + n ≤ INT_MAX) :
    ∃ mem copies, b.write src n =
        .ok { rc := n, ring := written { b.settled with buffer := mem } n, copies } ∧
      Valid L (written { b.settled with buffer := mem } n) ∧
      (written { b.settled with buffer := mem } n).stored = b.stored + n ∧
      (written { b.settled with buffer := mem } n).contents = b.contents ++ copyOut src 0 n := by
  have hvs := hv.settled hL
  have hstored := stored_settled hv
  rw [← hstored] at hfit
  have hdata : (copyOut src 0 n).length = n := length_copyOut ..
  obtain ⟨mem, copies, hmem, hplace⟩ := place_eq hmax hvs src hfit
  obtain ⟨hvalid, hstored'⟩ := (hvs.buffer mem).written hfit
  refine ⟨mem, copies, ?_, hvalid, ?_, ?_⟩
  · rw [write_eq hL hmax hv hc, if_pos (by omega), hplace, commitWrite_eq (hvs.buffer mem) hsum]
    rfl
  · rw [← hstored]
    exact hstored'
  · have hcontents := contents_written hL hvs (by rw [hdata]; exact hfit) hmem
    rw [hdata, contents_settled hv] at hcontents
    exact hcontents

/-- **A refused write** leaves the stored bytes as they were. -/
theorem write_refused (hL : 0 < L) (hmax : L ≤ INT_MAX) (hv : Valid L b) (hc : b.Countable)
    (data : List CChar) (hfit : L < b.stored + data.length) :
    ∃ w, b.write (ofList 0 data) data.length = .ok w ∧ w.rc = -1 ∧ Valid L w.ring ∧
      w.ring.contents = b.contents := by
  rw [write_eq hL hmax hv hc, if_neg (by omega)]
  exact ⟨_, rfl, rfl, hv.settled hL, contents_settled hv⟩

/-- **An accepted write** appends to the stored bytes. -/
theorem write_accepted (hL : 0 < L) (hmax : L ≤ INT_MAX) (hv : Valid L b) (hc : b.Countable)
    {data : List CChar} (hfit : b.stored + data.length ≤ L)
    (hsum : b.settled.end + data.length ≤ INT_MAX) :
    ∃ w, b.write (ofList 0 data) data.length = .ok w ∧ w.rc = data.length ∧ Valid L w.ring ∧
      w.ring.contents = b.contents ++ data := by
  have hall : copyOut (ofList 0 data) 0 data.length = data := by
    simpa using copyOut_ofList 0 data 0 data.length (by omega)
  obtain ⟨mem, copies, hwrite, hvalid, -, hcontents⟩ :=
    write_stores hL hmax hv hc (ofList 0 data) hfit hsum
  rw [hall] at hcontents
  exact ⟨_, hwrite, rfl, hvalid, hcontents⟩

/-- An accepted write whose new end is no `int` overflows. -/
theorem write_overflow (hL : 0 < L) (hmax : L ≤ INT_MAX) (hv : Valid L b) (hc : b.Countable)
    {data : List CChar} (hfit : b.stored + data.length ≤ L)
    (hsum : INT_MAX < b.settled.end + data.length) :
    b.write (ofList 0 data) data.length = .error .intOverflow := by
  have hstored := stored_settled hv
  rw [← hstored] at hfit
  obtain ⟨mem, copies, -, hplace⟩ := place_eq hmax (hv.settled hL) (ofList 0 data) hfit
  rw [write_eq hL hmax hv hc, if_pos (by omega), hplace,
    commitWrite_overflow (b := { b.settled with buffer := mem }) hsum]
  rfl

/-! ## Reading

A read copies out of the block and moves `start` on. Behind that the source puts both ends at zero when
they meet, which it takes to mean that nothing is left; a full buffer from which nothing was taken meets
itself as well. -/

/-- The buffer with `start` moved on by `n`. -/
def taken (b : RingBuffer) (n : ℕ) : RingBuffer :=
  { b with
    start := (b.start + n) % b.length
    looped := if b.length ≤ b.start + n then 0 else b.looped }

/-- A zero-length read of a full buffer: the ends meet although nothing was taken. -/
def Rotates (b : RingBuffer) (amount : ℕ) : Prop :=
  amount = 0 ∧ b.looped = 1 ∧ b.end = b.start

/-- A commit of what was taken goes around at most once, and clears `looped` when it does. -/
theorem commitRead_eq (hv : Valid L b) {n : ℕ} (hsum : b.start + n ≤ INT_MAX) :
    b.commitRead n = .ok (b.taken n) := by
  have hmin : -INT_MAX - 1 ≤ 0 := by decide
  obtain ⟨rfl, _, _, _, _, _⟩ := hv
  rw [commitRead, int_ok (by omega) hsum]
  by_cases hwrap : b.length ≤ b.start + n
  · simp [taken, hwrap, rem_ok (x := b.start + n) (y := b.length) (by omega) (by omega), bind,
      Except.bind, pure, Except.pure]
  · have hmod : (b.start + n) % b.length = b.start + n := Int.emod_eq_of_lt (by omega) (by omega)
    simp [taken, hwrap, hmod, bind, Except.bind, pure, Except.pure]

/-- Taking no more than is stored keeps `start` from overtaking `end`. -/
theorem Valid.taken (hv : Valid L b) {n : ℕ} (hn : n ≤ b.stored) :
    Valid L (b.taken n) ∧ (b.taken n).stored = b.stored - n := by
  have hs := hv.stored_eq
  obtain ⟨hlen, _, _, _, _, hends⟩ := hv
  by_cases hwrap : b.length ≤ b.start + n
  · -- the data taken reaches the end of the block, so the buffer had looped
    obtain ⟨hl, _⟩ | ⟨hl, _⟩ := hends
    · rw [if_pos hl] at hs
      omega
    · rw [if_neg (by omega)] at hs
      have hmod : (b.start + n) % b.length = b.start + n - L := by
        rw [hlen, ← Int.sub_emod_right, Int.emod_eq_of_lt (by omega) (by omega)]
      constructor
      · constructor <;> simp [RingBuffer.taken, hmod, hwrap] <;> omega
      · simp [RingBuffer.taken, stored, hmod, hwrap, hl]
        omega
  · have hmod : (b.start + n) % b.length = b.start + n := Int.emod_eq_of_lt (by omega) (by omega)
    obtain ⟨hl, _⟩ | ⟨hl, _⟩ := hends
    · rw [if_pos hl] at hs
      constructor
      · constructor <;> simp [RingBuffer.taken, hmod, hwrap] <;> omega
      · simp [RingBuffer.taken, stored, hmod, hwrap, hl]
        omega
    · constructor
      · constructor <;> simp [RingBuffer.taken, hmod, hwrap] <;> omega
      · simp [RingBuffer.taken, stored, hmod, hwrap, hl]
        omega

theorem taken_zero (hv : Valid L b) : b.taken 0 = b := by
  have hlt : b.start < b.length := hv.length_eq ▸ hv.start_lt
  have hmod : b.start % b.length = b.start := Int.emod_eq_of_lt hv.start_nonneg hlt
  simp [taken, hmod, hlt.not_ge]

/-- What was taken is what stood first. -/
theorem contents_taken (hv : Valid L b) {n : ℕ} (hn : n ≤ b.stored) :
    (b.taken n).contents = b.contents.drop n := by
  rw [contents, (hv.taken hn).2, contents, drop_window _ _ _ hn]
  exact window_emod ..

/-- Unless the buffer rotates, the ends meet after a read only when nothing is left. -/
theorem looped_taken_of_meet (hv : Valid L b) {n : ℕ} (hrot : ¬ b.Rotates n)
    (hmeet : (b.taken n).end = (b.taken n).start) : (b.taken n).looped = 0 := by
  obtain ⟨rfl, _, _, _, _, hends⟩ := hv
  by_cases hwrap : b.length ≤ b.start + n
  · simp [taken, hwrap]
  · have hmod : (b.start + n) % b.length = b.start + n := Int.emod_eq_of_lt (by omega) (by omega)
    obtain ⟨hl, _⟩ | ⟨hl, _⟩ := hends
    · simp [taken, hwrap, hl]
    · have hend : b.end = b.start + n := hmeet.trans hmod
      exact absurd ⟨by omega, hl, by omega⟩ hrot

/-- The caller's memory after `fetch` starts with the oldest bytes. -/
theorem fetch_eq (hmax : L ≤ INT_MAX) (hv : Valid L b) (target : ℤ → CChar) {n : ℕ}
    (hn : n ≤ b.stored) :
    ∃ target' copies, b.fetch target n = .ok (target', copies) ∧
      copyOut target' 0 n = b.contents.take n := by
  have hs := hv.stored_eq
  have hle := hv.stored_le
  rw [contents, take_window _ _ _ hn]
  obtain ⟨rfl, hstart, hstartL, _, _, hends⟩ := hv
  by_cases hwrap : b.looped = 1 ∧ b.length - b.start < n
  · -- the second copy overwrites what the first one took past the end
    obtain ⟨k, hk⟩ := Int.eq_ofNat_of_zero_le (show 0 ≤ b.length - b.start by omega)
    obtain ⟨m, hm⟩ := Int.eq_ofNat_of_zero_le (show 0 ≤ (n : ℤ) - k by omega)
    have hrest : (n : ℤ) - b.length + b.start = m := by omega
    refine ⟨copyIn (copyIn target 0 (copyOut b.buffer b.start n)) k (copyOut b.buffer 0 m),
      [⟨b.start, n⟩, ⟨0, m⟩], ?_, ?_⟩
    · rw [fetch, if_pos hwrap, hk, int_ok (by omega) (by omega)]
      simp only [bind, Except.bind]
      rw [int_ok (by omega) (by omega)]
      simp only []
      rw [hrest, int_ok (by omega) (by omega)]
      simp only [memcpy, Int.toNat_natCast]
      simp only [show ¬ (n : ℤ) < 0 by omega, show ¬ (m : ℤ) < 0 by omega, if_false]
      rfl
    · have htwo := copyOut_copyIn_copyIn target (copyOut b.buffer b.start n)
        (copyOut b.buffer 0 m) (k := k) (by simp; omega) (by simp; omega)
      rw [length_copyOut, take_copyOut _ _ (by omega)] at htwo
      rw [htwo, ← copyOut_append_copyOut b.buffer hstart hstartL.le (by omega) (by omega), hk,
        Int.toNat_natCast, show n - k = m by omega]
  · have hroom : b.start + n ≤ b.length := by
      obtain ⟨hl, _⟩ | ⟨hl, _⟩ := hends
      · rw [if_pos hl] at hs
        omega
      · have := not_and.mp hwrap hl
        omega
    refine ⟨copyIn target 0 (copyOut b.buffer b.start n), [⟨b.start, n⟩], ?_, ?_⟩
    · rw [fetch, if_neg hwrap]
      simp only [memcpy, Int.toNat_natCast]
      rw [if_neg (by omega)]
      rfl
    · have hone := copyOut_copyIn target (copyOut b.buffer b.start n)
      rw [length_copyOut] at hone
      rw [hone, copyOut_eq_window _ hstart hroom]

/-- **A refused read** changes nothing. -/
theorem read_refused (hmax : L ≤ INT_MAX) (hv : Valid L b) (hc : b.Countable)
    (target : ℤ → CChar) {n : ℕ} (hn : b.stored < n) :
    b.read target n = .ok { rc := -1, target, ring := b, copies := [] } := by
  rw [read, availableData_eq hmax hv hc]
  simp only [bind, Except.bind]
  rw [if_neg (by omega)]
  rfl

/-- A read from a countable buffer does not move `start` beyond the range of `int`. -/
theorem start_add_le (hmax : L ≤ INT_MAX) (hv : Valid L b) (hc : b.Countable) {n : ℕ}
    (hn : n ≤ b.stored) : b.start + n ≤ INT_MAX := by
  have hs := hv.stored_eq
  obtain ⟨hlen, _, _, _, _, ⟨hl, _⟩ | ⟨hl, _⟩⟩ := hv
  · rw [if_pos hl] at hs
    omega
  · have := hc (by omega)
    rw [if_neg (by omega)] at hs
    omega

/-- **An accepted read** delivers the oldest bytes and drops them, unless it rotates the buffer. -/
theorem read_accepted (hL : 0 < L) (hmax : L ≤ INT_MAX) (hv : Valid L b) (hc : b.Countable)
    (target : ℤ → CChar) {n : ℕ} (hn : n ≤ b.stored) :
    ∃ d, b.read target n = .ok d ∧ d.rc = n ∧ copyOut d.target 0 n = b.contents.take n ∧
      Valid L d.ring ∧ (b.Rotates n → d.ring.contents = window b.buffer L 0 L.toNat) ∧
      (¬ b.Rotates n → d.ring.contents = b.contents.drop n) := by
  obtain ⟨target', copies, hfetch, hout⟩ := fetch_eq hmax hv target hn
  obtain ⟨hvalid, hstored⟩ := hv.taken hn
  have hsum := start_add_le hmax hv hc hn
  -- a buffer whose ends meet starts again at 0
  let ring := if (b.taken n).end = (b.taken n).start then (b.taken n).rewind else b.taken n
  have hread : b.read target n = .ok { rc := n, target := target', ring, copies } := by
    rw [read, availableData_eq hmax hv hc]
    simp only [bind, Except.bind]
    rw [if_pos (by omega)]
    simp only [hfetch, commitRead_eq hv hsum]
    rfl
  refine ⟨_, hread, rfl, hout, ?_, fun hrot => ?_, fun hrot => ?_⟩
  · by_cases hmeet : (b.taken n).end = (b.taken n).start
    · simpa only [ring, if_pos hmeet] using hvalid.rewind hL
    · simpa only [ring, if_neg hmeet] using hvalid
  · -- nothing was taken, but the ends have met and went to zero
    obtain ⟨rfl, hl, hend⟩ := hrot
    simp [ring, taken_zero hv, rewind, contents, stored, hl, hend, hv.length_eq]
  · -- when the ends meet here nothing is left, so going to zero loses nothing
    rw [← contents_taken hv hn]
    by_cases hmeet : (b.taken n).end = (b.taken n).start
    · have hl := looped_taken_of_meet hv hrot hmeet
      have hnone : (b.taken n).stored = 0 := by simp [stored, hl, hmeet]
      have hring : (b.taken n).rewind.stored = 0 := by simp [stored, rewind, hl]
      simp only [ring, if_pos hmeet, contents, hnone, hring, window_zero]
    · simp only [ring, if_neg hmeet]

/-! ## Runs

The ring buffer and a queue are given the same calls. Whether a call serves the queue depends on the
buffer in front of it, so what holds of one call carries over to runs in both directions. -/

inductive Op where
  | write (data : List CChar)
  | read (target : ℤ → CChar) (amount : ℕ)
  | availableData

/-- What the caller sees of a call: its result, and for a read the bytes it was given. -/
inductive Outcome where
  | wrote (rc : ℤ)
  | got (rc : ℤ) (bytes : List CChar)
  | available (n : ℤ)
  deriving DecidableEq

def exec (b : RingBuffer) : Op → Except Fault (RingBuffer × Outcome)
  | .write data => do
    let w ← b.write (ofList 0 data) data.length
    return (w.ring, .wrote w.rc)
  | .read target amount => do
    let d ← b.read target amount
    return (d.ring, .got d.rc (copyOut d.target 0 d.rc.toNat))
  | .availableData => do
    let n ← b.availableData
    return (b, .available n)

/-- A queue of at most `L` bytes. -/
def serve (L : ℤ) (q : List CChar) : Op → List CChar × Outcome
  | .write data =>
    if data.length ≤ L - q.length then (q ++ data, .wrote data.length) else (q, .wrote (-1))
  | .read _ amount =>
    if amount ≤ q.length then (q.drop amount, .got amount (q.take amount)) else (q, .got (-1) [])
  | .availableData => (q, .available q.length)

/-- When a call serves the queue: no sum overflows, and a read that rotates the buffer finds one
that reads the same from offset zero. -/
def Sound (b : RingBuffer) (op : Op) : Prop :=
  b.Countable ∧ match op with
    | .write data => b.stored + data.length ≤ b.length → b.settled.end + data.length ≤ INT_MAX
    | .read _ amount => b.Rotates amount → window b.buffer b.length 0 b.length.toNat = b.contents
    | .availableData => True

/-- A sound call does what the queue does, with the same outcome. -/
theorem exec_sound (hL : 0 < L) (hmax : L ≤ INT_MAX) (hv : Valid L b) {op : Op} (hs : b.Sound op) :
    ∃ b' out, b.exec op = .ok (b', out) ∧ Valid L b' ∧ serve L b.contents op = (b'.contents, out) := by
  obtain ⟨hc, hop⟩ := hs
  cases op with
  | write data =>
    by_cases hfit : b.stored + data.length ≤ L
    · obtain ⟨w, hw, hrc, hvalid, hcont⟩ :=
        write_accepted hL hmax hv hc hfit (hop (by rwa [hv.length_eq]))
      refine ⟨w.ring, .wrote w.rc, by rw [exec, hw]; rfl, hvalid, ?_⟩
      rw [serve, if_pos (by rw [length_contents]; omega), hcont, hrc]
    · -- the queue refuses the same writes
      obtain ⟨w, hw, hrc, hvalid, hcont⟩ := write_refused hL hmax hv hc data (by omega)
      refine ⟨w.ring, .wrote w.rc, by rw [exec, hw]; rfl, hvalid, ?_⟩
      rw [serve, if_neg (by rw [length_contents]; omega), hcont, hrc]
  | read target amount =>
    by_cases hn : amount ≤ b.stored
    · obtain ⟨d, hd, hrc, hout, hvalid, hrot, hnot⟩ := read_accepted hL hmax hv hc target hn
      refine ⟨d.ring, .got d.rc (copyOut d.target 0 d.rc.toNat), by rw [exec, hd]; rfl, hvalid, ?_⟩
      rw [serve, if_pos (by rwa [length_contents]), hrc, Int.toNat_natCast, hout]
      -- a read of no bytes makes a full buffer start at 0
      by_cases h : b.Rotates amount
      · rw [hrot h, ← hv.length_eq, hop h, h.1, List.drop_zero]
      · rw [hnot h]
    · refine ⟨b, .got (-1) [], ?_, hv, ?_⟩
      · rw [exec, read_refused hmax hv hc target (by omega)]
        rfl
      · rw [serve, if_neg (by rwa [length_contents])]
  | availableData =>
    refine ⟨b, .available b.stored, ?_, hv, ?_⟩
    · rw [exec, availableData_eq hmax hv hc]
      rfl
    · rw [serve, length_contents]

/-- Every call counts the data, so on such a buffer all of them overflow. -/
theorem exec_uncountable (hc : ¬ b.Countable) (op : Op) : b.exec op = .error .intOverflow := by
  have h := availableData_overflow hc
  cases op <;> simp [exec, write, read, h, bind, Except.bind]

/-- A call that is not sound overflows, or leaves other bytes than the queue holds. -/
theorem exec_unsound (hL : 0 < L) (hmax : L ≤ INT_MAX) (hv : Valid L b) {op : Op}
    (hs : ¬ b.Sound op) :
    b.exec op = .error .intOverflow ∨
      ∃ b' out, b.exec op = .ok (b', out) ∧ Valid L b' ∧ b'.contents ≠ (serve L b.contents op).1 := by
  by_cases hc : b.Countable
  · have hop := not_and.mp hs hc
    cases op with
    | write data =>
      obtain ⟨hfit, hsum⟩ := Classical.not_imp.mp hop
      rw [hv.length_eq] at hfit
      left
      rw [exec, write_overflow hL hmax hv hc hfit (by omega)]
      rfl
    | read target amount =>
      obtain ⟨hrot, hne⟩ := Classical.not_imp.mp hop
      obtain ⟨d, hd, -, -, hvalid, hcont, -⟩ :=
        read_accepted hL hmax hv hc target (n := amount) (by rw [hrot.1]; exact Nat.zero_le _)
      right
      refine ⟨d.ring, .got d.rc (copyOut d.target 0 d.rc.toNat), by rw [exec, hd]; rfl, hvalid, ?_⟩
      rwa [serve, if_pos (by rw [hrot.1]; exact Nat.zero_le _), hcont hrot, hrot.1, List.drop_zero,
        ← hv.length_eq]
    | availableData => exact absurd trivial hop
  · exact .inl (exec_uncountable hc op)

/-- Every call keeps the ring buffer valid. -/
theorem valid_exec (hL : 0 < L) (hmax : L ≤ INT_MAX) (hv : Valid L b) {op : Op} {b' : RingBuffer}
    {out : Outcome} (h : b.exec op = .ok (b', out)) : Valid L b' := by
  by_cases hs : b.Sound op
  · obtain ⟨b₁, out₁, hok, hvalid, -⟩ := exec_sound hL hmax hv hs
    cases h.symm.trans hok
    exact hvalid
  · rcases exec_unsound hL hmax hv hs with herr | ⟨b₁, out₁, hok, hvalid, -⟩
    · cases h.symm.trans herr
    · cases h.symm.trans hok
      exact hvalid

/-- The ring buffer and the queue, given the same calls. -/
structure Twin where
  ring : RingBuffer
  queue : List CChar
  outcomes : List Outcome
  wanted : List Outcome

namespace Twin

def init (heap : ℤ → CChar) (L : ℤ) : Twin :=
  { ring := create heap L, queue := [], outcomes := [], wanted := [] }

def step (L : ℤ) (t : Twin) (op : Op) : Except Fault Twin := do
  let (ring, out) ← t.ring.exec op
  let (queue, want) := serve L t.queue op
  return { ring, queue, outcomes := t.outcomes ++ [out], wanted := t.wanted ++ [want] }

/-- The ring buffer holds what the queue holds and has answered every call like it. -/
structure Agrees (L : ℤ) (t : Twin) : Prop where
  outcomes : t.outcomes = t.wanted
  contents : t.ring.contents = t.queue
  start : 0 ≤ t.ring.start ∧ t.ring.start < L
  «end» : 0 ≤ t.ring.end ∧ t.ring.end < L

theorem step_ok {t t' : Twin} {op : Op} (h : t.step L op = .ok t') :
    ∃ out, t.ring.exec op = .ok (t'.ring, out) ∧ t'.queue = (serve L t.queue op).1 ∧
      t'.outcomes = t.outcomes ++ [out] ∧ t'.wanted = t.wanted ++ [(serve L t.queue op).2] := by
  rw [step] at h
  cases hexec : t.ring.exec op with
  | error e => rw [hexec] at h; cases h
  | ok r =>
    rw [hexec] at h
    cases h
    exact ⟨r.2, rfl, rfl, rfl, rfl⟩

theorem valid_step (hL : 0 < L) (hmax : L ≤ INT_MAX) {t t' : Twin} {op : Op}
    (hv : Valid L t.ring) (h : t.step L op = .ok t') : Valid L t'.ring := by
  obtain ⟨out, hexec, -⟩ := step_ok h
  exact valid_exec hL hmax hv hexec

/-- A call keeps the two in agreement exactly when it is sound. -/
theorem agrees_step (hL : 0 < L) (hmax : L ≤ INT_MAX) {t : Twin} {op : Op} (hv : Valid L t.ring)
    (ha : t.Agrees L) : (∃ t', t.step L op = .ok t' ∧ t'.Agrees L) ↔ t.ring.Sound op := by
  constructor
  · rintro ⟨t', hstep, ha'⟩
    by_contra hs
    obtain ⟨out, hexec, hqueue, -⟩ := step_ok hstep
    -- a call that is not sound leaves no agreement behind it
    rcases exec_unsound hL hmax hv hs with herr | ⟨b', out', hok, -, hne⟩
    · cases hexec.symm.trans herr
    · cases hexec.symm.trans hok
      rw [ha.contents, ← hqueue] at hne
      exact hne ha'.contents
  · intro hs
    obtain ⟨b', out, hexec, hvalid, hserve⟩ := exec_sound hL hmax hv hs
    rw [ha.contents] at hserve
    have hstep : t.step L op =
        .ok { ring := b', queue := b'.contents, outcomes := t.outcomes ++ [out],
              wanted := t.wanted ++ [out] } := by
      rw [step, hexec]
      simp only [bind, Except.bind, hserve]
      rfl
    exact ⟨_, hstep, congrArg (· ++ [out]) ha.outcomes, rfl, ⟨hvalid.start_nonneg, hvalid.start_lt⟩,
      ⟨hvalid.end_nonneg, hvalid.end_lt⟩⟩

end Twin

/-- **A ring buffer is a bounded queue as long as its calls are sound.** The run does not fault,
and after every call the ring buffer agrees with the queue, exactly when no call overflows and no
zero-length read rotates a full buffer into another one. -/
theorem agrees_iff_sound (heap : ℤ → CChar) (hL : 0 < L) (hmax : L ≤ INT_MAX) (ops : List Op) :
    Run.Sustained (Twin.step L) (Twin.Agrees L) (Twin.init heap L) ops ↔
      Run.Along (Twin.step L) (fun t op => t.ring.Sound op) (Twin.init heap L) ops :=
  Run.sustained_iff_along (fun _ _ _ hv _ h => Twin.valid_step hL hmax hv h)
    (fun _ _ hv ha _ => Twin.agrees_step hL hmax hv ha) (valid_create heap hL)
    ⟨rfl, rfl, ⟨le_rfl, hL⟩, ⟨le_rfl, hL⟩⟩ (Run.along_true _ _)

theorem agrees_iff_sound_two :
    Run.Sustained (Twin.step 2) (Twin.Agrees 2) (Twin.init (fun _ => 0) 2)
        [.write (cstr "ab"), .read (fun _ => 0) 1] ↔
      Run.Along (Twin.step 2) (fun t op => t.ring.Sound op) (Twin.init (fun _ => 0) 2)
        [.write (cstr "ab"), .read (fun _ => 0) 1] :=
  agrees_iff_sound (fun _ => 0) (by decide) (by decide) _

/-- With two bytes stored behind offset zero, a read of nothing makes the newer one the next. -/
theorem zero_read_rotates :
    ¬ Run.Sustained (Twin.step 2) (Twin.Agrees 2) (Twin.init (fun _ => 0) 2)
        [.write (cstr "ab"), .read (fun _ => 0) 1, .write (cstr "c"), .read (fun _ => 0) 0,
          .read (fun _ => 0) 1] := by
  intro h
  obtain ⟨t, hrun, hagrees⟩ := h.last
  have hout : (Run.run (Twin.step 2) (Twin.init (fun _ => 0) 2)
      [.write (cstr "ab"), .read (fun _ => 0) 1, .write (cstr "c"), .read (fun _ => 0) 0,
        .read (fun _ => 0) 1]).map (fun t => (t.outcomes, t.wanted)) =
      .ok ([.wrote 2, .got 1 (cstr "a"), .wrote 1, .got 0 [], .got 1 (cstr "c")],
        [.wrote 2, .got 1 (cstr "a"), .wrote 1, .got 0 [], .got 1 (cstr "b")]) := by
    rfl
  rw [hrun] at hout
  obtain ⟨hgot, hwant⟩ := Prod.mk.inj (Except.ok.inj hout)
  have heq := hgot.symm.trans (hagrees.outcomes.trans hwant)
  exact absurd heq (by decide)

end Lcthw.RingBuffer
