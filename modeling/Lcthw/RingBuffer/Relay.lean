import Lcthw.RingBuffer.Netclient
import Lcthw.Bstrlib.Findreplace
import Lcthw.Bstrlib.Reading
import Lcthw.Run

/-!
# Lcthw — the main loop of `netclient.c`

Each round waits for a descriptor, reads what is ready into two ring buffers, and writes both buffers out
until they are empty. The kernel answers every call as it likes, and `bfindreplace` is that of
`bstrlib.c`, in the block of the `bstring` it is given.

* **`fill`**, **`drain`**, **`round`**: the code of `main`.
* **`round_cases`**: a round goes through and leaves both buffers empty, or it ends the program.
* **`rounds_relay`**: what a whole run has written on both sides. A read that does not fill the buffer is
  followed by whatever was in the block, so the relay is right exactly when all reads do.
-/

namespace Lcthw.Netclient

open Horspool Ring RingBuffer Bstrlib Replace

/-! ## The code -/

/-- The size of both ring buffers. -/
def SIZE : ℕ := 1024 * 10

/-- `bfindreplace` on the `bstring` that `blk2bstr` makes of the bytes of a ring buffer. There is memory for
that one, as everywhere in `gets`. -/
def bfindreplaceIn (m : Memory) (s find repl : List CChar) : Except Stop (Option (List CChar)) := do
  let b ← Bstrlib.blk2bstr (.ample m.fresh) (s.map Int8.toUInt8) s.length
  match b with
  | none => return none
  | some b => do
    let (b, rc) ← bfindreplace m b (.other (find.map Int8.toUInt8)) (.other (repl.map Int8.toUInt8)) 0
    return if rc = BSTR_OK then some (chars b) else none

/-- How the program ends. -/
inductive Halt where
  /-- `main` returns -1 -/
  | exit
  | stop (s : Stop)
  deriving DecidableEq

/-- A step of the library inside `main`. -/
def call {α : Type} (x : Except Stop α) : Except Halt α :=
  x.mapError .stop

/-- A descriptor that is ready: what `malloc` left in the block for its bytes, and what `read` or `recv`
says. -/
structure Answer where
  block : ℤ → CChar
  bytes : Option (List CChar)

/-- What the kernel does in a round. -/
structure Round where
  selected : Bool
  memory : Memory
  stdin : Option Answer
  socket : Option Answer
  write : List CChar → ℤ
  send : List CChar → ℤ

/-- The buffers, and what was written to standard output and to the socket. -/
structure Client where
  inRb : RingBuffer
  sockRb : RingBuffer
  stdout : List CChar
  sent : List CChar

def start (heap heap' : ℤ → CChar) : Client :=
  { inRb := create heap SIZE, sockRb := create heap' SIZE, stdout := [], sent := [] }

/-- The read of a descriptor that is ready. -/
def fill (b : RingBuffer) : Option Answer → Except Halt RingBuffer
  | none => return b
  | some a => do
    let (rc, b) ← call ((readSome b a.block a.bytes).mapError .fault)
    if rc ≠ -1 then return b else .error .exit

/-- The loop that writes until the buffer is empty: what it wrote, and the buffer. -/
def drain (m : Memory) (answer : List CChar → ℤ) :
    ℕ → RingBuffer → Except Halt (List CChar × RingBuffer)
  | 0, _ => .error (.stop .outOfFuel)
  | fuel + 1, b => do
    let n ← call (b.availableData.mapError .fault)
    if n = 0 then
      return ([], b)
    else do
      let sent ← call (writeSome (bfindreplaceIn m) b answer)
      if sent.rc ≠ -1 then do
        let (rest, b) ← drain m answer fuel sent.ring
        return (sent.offered.getD [] ++ rest, b)
      else
        .error .exit

def round (c : Client) (r : Round) : Except Halt Client :=
  if r.selected then do
    let inRb ← fill c.inRb r.stdin
    let sockRb ← fill c.sockRb r.socket
    let (out, sockRb) ← drain r.memory r.write (SIZE + 1) sockRb
    let (msg, inRb) ← drain r.memory r.send (SIZE + 1) inRb
    return { inRb, sockRb, stdout := c.stdout ++ out, sent := c.sent ++ msg }
  else
    .error .exit

/-! ## What a round does

The right answer for a round, said without the buffers: what came in is what goes out on the other side. -/

/-- What a read that is answered brings. -/
def received (a : Option Answer) : List CChar :=
  ((a.bind Answer.bytes).getD []).take SIZE

/-- What is in the buffer behind it. -/
def filled : Option Answer → List CChar
  | some ⟨block, some bytes⟩ => copyOut (copyIn block 0 (bytes.take SIZE)) 0 SIZE
  | _ => []

/-- Nothing fails on the way from one descriptor to the other, and the other takes everything. -/
def Delivers (m : Memory) (answer : List CChar → ℤ) (a : Option Answer) : Prop :=
  a.isSome → (a.bind Answer.bytes).isSome ∧ bfindreplaceIn m (filled a) NL CRLF ≠ .ok none ∧
    answer (crlf (filled a)) = (crlf (filled a)).length

def Goes (r : Round) : Prop :=
  r.selected = true ∧ Delivers r.memory r.write r.socket ∧ Delivers r.memory r.send r.stdin

variable {b : RingBuffer} {m : Memory} {bytes s : List CChar} {answer : List CChar → ℤ}
  {a : Option Answer}

/-! ## The ends of lines

Changing the ends of lines goes byte by byte, so it takes pieces to pieces. On the whole buffer it is
done by `bfindreplace` in a block of its own, whose growth is bounded by twice the size of the buffer. -/

theorem length_crlf_le (s : List CChar) : (crlf s).length ≤ 2 * s.length := by
  induction s with
  | nil => exact le_rfl
  | cons c s ih =>
    show ((if c = 10 then [13, 10] else [c]) ++ crlf s).length ≤ _
    rw [List.length_append, List.length_cons]
    split
    · rw [List.length_cons, List.length_singleton]
      omega
    · rw [List.length_singleton]
      omega

theorem crlf_cons (c : CChar) (s : List CChar) :
    crlf (c :: s) = (if c = 10 then [13, 10] else [c]) ++ crlf s :=
  List.flatMap_cons

theorem crlf_append (s t : List CChar) : crlf (s ++ t) = crlf s ++ crlf t :=
  List.flatMap_append

/-- A line feed is never the first of them. -/
theorem crlf_ne_newline (s t : List CChar) : crlf s ≠ 10 :: t := by
  cases s with
  | nil => exact fun h => by cases h
  | cons c s =>
    intro h
    rw [crlf_cons] at h
    split at h
    · exact absurd (List.cons.inj h).1 (by decide)
    · next hc => exact hc (List.cons.inj h).1

/-- Different lines stay different. -/
theorem crlf_injective : Function.Injective crlf := by
  intro s
  induction s with
  | nil =>
    intro t h
    cases t with
    | nil => rfl
    | cons c t =>
      rw [crlf_cons] at h
      split at h <;> cases h
  | cons c s ih =>
    intro t h
    cases t with
    | nil =>
      rw [crlf_cons] at h
      split at h <;> cases h
    | cons d t =>
      rw [crlf_cons, crlf_cons] at h
      -- a carriage return of the text is not followed by a line feed
      by_cases hc : c = 10
      · by_cases hd : d = 10
        · rw [if_pos hc, if_pos hd] at h
          rw [hc, hd, ih (List.append_cancel_left h)]
        · rw [if_pos hc, if_neg hd] at h
          exact absurd (List.cons.inj h).2.symm (crlf_ne_newline t _)
      · by_cases hd : d = 10
        · rw [if_neg hc, if_pos hd] at h
          exact absurd (List.cons.inj h).2 (crlf_ne_newline s _)
        · rw [if_neg hc, if_neg hd] at h
          rw [(List.cons.inj h).1, ih (List.cons.inj h).2]

/-- To replace all line feeds is to change the ends of lines. -/
theorem replaceAll_newline (s : List CChar) :
    replaceAll (NL.map Int8.toUInt8) (CRLF.map Int8.toUInt8) (s.map Int8.toUInt8) =
      (crlf s).map Int8.toUInt8 := by
  rw [show NL.map Int8.toUInt8 = [10] from rfl, show CRLF.map Int8.toUInt8 = [13, 10] from rfl,
    replaceAll_singleton]
  induction s with
  | nil => rfl
  | cons c s ih =>
    rw [List.map_cons, List.flatMap_cons, ih, crlf_cons, List.map_append]
    by_cases hc : c = 10
    · rw [if_pos hc, hc]
      rfl
    · have hc' : c.toUInt8 ≠ 10 := by
        intro h
        exact hc (by rw [← Int8.toInt8_toUInt8 c, h]; rfl)
      rw [if_neg hc, if_neg hc']
      rfl

/-- What `bfindreplace` asks for when it changes the ends of lines. -/
def asked (s : List CChar) : Set ℤ :=
  {size | size = (crlf s).length + 1} ∪ tables (NL.map Int8.toUInt8) (s.map Int8.toUInt8) 0

/-- **`bfindreplace` changes the ends of lines** of a whole buffer, or finds no memory of a size that it asks
for. It does not fault. -/
theorem bfindreplaceIn_cases (m : Memory) (hs : s.length = SIZE) :
    bfindreplaceIn m s NL CRLF = .ok (some (crlf s)) ∨
      bfindreplaceIn m s NL CRLF = .ok none ∧ ∃ size ∈ asked s, m.room size = false := by
  have hmax : INT_MAX = 2147483647 := by decide
  have hsize : SIZE = 10240 := rfl
  have hlen := length_crlf_le s
  obtain ⟨b, hblk, hcontents, hslen, hnul, hmlen⟩ :=
    @Bstrlib.blk2bstr_eq (.ample m.fresh) (s.map Int8.toUInt8) (ample_ample m.fresh) s.length (by omega)
      (List.length_map _).ge
  -- the block of the bstring is small enough for every size that is computed from it
  have hbig : 16 * (b.mlen : ℤ) ≤ INT_MAX := by
    rw [hmlen, hs]
    decide
  rw [List.take_of_length_le (List.length_map _).le] at hcontents
  have htext : findreplaced b.contents (.other (NL.map Int8.toUInt8)) (.other (CRLF.map Int8.toUInt8)) 0 =
      (crlf s).map Int8.toUInt8 := by
    rw [findreplaced, List.take_zero, List.drop_zero, List.nil_append, hcontents]
    exact replaceAll_newline s
  -- neither string is a part of the other
  have hheld : FindreplaceKeeps b (.other (NL.map Int8.toUInt8)) (.other (CRLF.map Int8.toUInt8)) 0 :=
    fun h => absurd h Bool.false_ne_true
  have hfind : (Source.other (NL.map Int8.toUInt8)).of b.contents ≠ [] :=
    List.cons_ne_nil 10 []
  obtain ⟨⟨out, rc⟩, hrun, hholds⟩ : ∃ out, findreplaceengine (.other (NL.map Int8.toUInt8))
      (.other (CRLF.map Int8.toUInt8)) m b (0 : ℕ) = .ok out ∧
      Holds m (findreplaceAsks b.contents (.other (NL.map Int8.toUInt8))
        (.other (CRLF.map Int8.toUInt8)) 0) b (findreplaced b.contents (.other (NL.map Int8.toUInt8))
        (.other (CRLF.map Int8.toUInt8)) 0) out :=
    findreplaceengine_holds m trivial trivial hfind hheld hnul hbig
      (by rw [htext, List.length_map]; omega)
  rw [htext] at hholds
  have hin : bfindreplaceIn m s NL CRLF =
      .ok (if rc = BSTR_OK then some (chars out) else none) := by
    unfold bfindreplaceIn
    rw [hblk, ok_bind]
    show (findreplaceengine _ _ m b (0 : ℕ) >>= _) = _
    rw [hrun]
    rfl
  rcases hholds with ⟨rfl, hout, -⟩ | ⟨rfl, -, size, hsize, hfull⟩
  · left
    rw [hin, if_pos rfl, chars, hout, map_toInt8]
  · refine Or.inr ⟨hin, size, ?_, hfull⟩
    -- the size that was refused is that of the block or of the table, since no string is copied first
    rcases hsize with rfl | (⟨⟨hcopied, -⟩ | ⟨hcopied, -⟩⟩ | htable)
    · left
      rw [List.length_map]
      rfl
    · cases hcopied
    · cases hcopied
    · right
      rw [hcontents] at htable
      exact htable

/-! ## Reading

Between two rounds both buffers are empty, so a read may fill the whole of one. What was received lies
at its beginning, and the rest is what the block had in it. -/

/-- A buffer of the client with nothing in it. -/
structure Empty (b : RingBuffer) : Prop where
  valid : Valid SIZE b
  stored_eq : b.stored = 0

/-- A buffer of the client behind a read. -/
structure Full (b : RingBuffer) : Prop where
  valid : Valid SIZE b
  countable : b.Countable
  start_eq : b.start = 0
  stored_eq : b.stored = SIZE

/-- What a buffer is behind `fill`. -/
def Loaded (a : Option Answer) (b : RingBuffer) : Prop :=
  a = none ∧ Empty b ∨ (a.bind Answer.bytes).isSome ∧ Full b ∧ b.contents = filled a

theorem size_bounds : (0 : ℤ) < SIZE ∧ (SIZE : ℤ) < INT_MAX := by
  decide

theorem empty_create (heap : ℤ → CChar) : Empty (create heap SIZE) :=
  ⟨valid_create heap size_bounds.1, rfl⟩

theorem Empty.availableData_eq (hb : Empty b) : b.availableData = .ok 0 := by
  have hc : b.Countable := fun h => absurd (hb.valid.looped_of_stored hb.stored_eq) h
  rw [RingBuffer.availableData_eq size_bounds.2.le hb.valid hc, hb.stored_eq]
  rfl

/-- Both ends at the beginning: all of the buffer is room. -/
theorem Empty.space_eq (hb : Empty b) : b.rewind.availableSpace = .ok SIZE := by
  have hlooped := hb.valid.looped_of_stored hb.stored_eq
  have hc : b.rewind.Countable := fun h => absurd hlooped h
  have hstored : b.rewind.stored = 0 := by
    unfold stored
    rw [if_pos (show b.rewind.looped = 0 from hlooped)]
    rfl
  rw [availableSpace_eq size_bounds.2.le (hb.valid.rewind size_bounds.1) hc, hstored]
  exact congrArg Except.ok (sub_zero _)

/-- A read, behind the two calls that ask for the room. -/
theorem readSome_some (hb : Empty b) (block : ℤ → CChar) (bytes : List CChar) :
    readSome b block (some bytes) = (do
      let w ← b.rewind.write (copyIn block 0 (bytes.take SIZE)) SIZE
      return (if ((bytes.take SIZE).length : ℤ) ≥ 0 ∧ w.rc ≠ -1 then ((bytes.take SIZE).length : ℤ)
        else -1, w.ring)) := by
  have hclip : bytes.take (clip bytes.length SIZE) = bytes.take SIZE := by
    rw [clip, if_neg (by omega), Int.toNat_natCast]
    exact List.take_eq_take_iff.mpr (by omega)
  unfold readSome
  rw [hb.availableData_eq, ok_bind]
  show (b.rewind.availableSpace >>= _) = _
  rw [hb.space_eq, ok_bind]
  show (b.rewind.availableSpace >>= _) = _
  rw [hb.space_eq, ok_bind]
  simp only [hclip, if_true]
  rfl

/-- A read that fails stores the block all the same. -/
theorem readSome_none (hb : Empty b) (block : ℤ → CChar) :
    readSome b block none = (do
      let w ← b.rewind.write block SIZE
      return (-1, w.ring)) := by
  unfold readSome
  rw [hb.availableData_eq, ok_bind]
  show (b.rewind.availableSpace >>= _) = _
  rw [hb.space_eq, ok_bind]
  show (b.rewind.availableSpace >>= _) = _
  rw [hb.space_eq, ok_bind]
  rfl

theorem Full.contents_length (hb : Full b) : b.contents.length = SIZE := by
  rw [RingBuffer.length_contents, hb.stored_eq]

/-- **A read** fills the buffer, or it fails. -/
theorem fill_cases (hb : Empty b) (a : Option Answer) :
    (∃ b', fill b a = .ok b' ∧ Loaded a b') ∨
      (a.isSome ∧ (a.bind Answer.bytes).isSome = false) ∧ fill b a = .error .exit := by
  obtain ⟨hpos, hlt⟩ := size_bounds
  cases a with
  | none => exact Or.inl ⟨b, rfl, Or.inl ⟨rfl, hb⟩⟩
  | some a =>
    obtain ⟨block, bytes⟩ := a
    cases bytes with
    | none =>
      obtain ⟨b', hok, -⟩ := @readSome_eq SIZE b [] hpos hlt.le hb.valid hb.stored_eq block
        hpos.le
      rw [readSome_some hb] at hok
      obtain ⟨w, hw, -⟩ := bind_eq_ok.mp hok
      -- nothing was received, and the block is stored as it was
      have hblock : copyIn block 0 [] = block := by
        funext i
        rw [copyIn, List.getElem?_nil, Option.getD_none, ite_self]
      rw [List.take_nil, hblock] at hw
      refine Or.inr ⟨⟨rfl, rfl⟩, ?_⟩
      rw [fill, readSome_none hb, hw]
      rfl
    | some bytes =>
      obtain ⟨b', hok, hv, hc, hstart, hstored, hcontents⟩ := @readSome_eq SIZE b (bytes.take SIZE)
        hpos hlt.le hb.valid hb.stored_eq block (by rw [List.length_take]; omega)
      -- the kernel delivers no more than the size of the buffer
      have hread : readSome b block (some bytes) = .ok (((bytes.take SIZE).length : ℤ), b') := by
        rw [← hok, readSome_some hb, readSome_some hb, List.take_take, Nat.min_self]
      refine Or.inl ⟨b', ?_, Or.inr ⟨rfl, ⟨hv, hc, hstart, by omega⟩, hcontents⟩⟩
      rw [fill, hread]
      show (if ((bytes.take SIZE).length : ℤ) ≠ -1 then .ok b' else .error .exit) = Except.ok b'
      rw [if_pos (by omega)]

/-! ## Writing

All of a full buffer goes out in one piece. So the loop that writes until nothing is left makes one
turn. -/

/-- **A full buffer** is taken as a whole. -/
theorem Full.gets_eq (hb : Full b) :
    ∃ g, b.gets SIZE = .ok g ∧ g.result = some b.contents ∧ Empty g.ring := by
  obtain ⟨hpos, hlt⟩ := size_bounds
  obtain ⟨hv, hc, hstart, hstored⟩ := hb
  have hstraight : b.looped = 0 ∨ b.length - b.start = SIZE := by
    right
    rw [hv.length_eq, hstart, sub_zero]
  obtain ⟨g, bytes, hgets, hresult, -, -, hbytes, -⟩ := getsAgrees_of_straight hpos hlt.le hv hc
    (n := SIZE) (by decide) hstored.ge hlt hstraight
  have hall : b.contents.take SIZE = b.contents := by
    apply List.take_of_length_le
    rw [RingBuffer.length_contents, hstored]
  rw [hall] at hbytes
  -- the ring behind it is the one `gets` always leaves
  have hspan : (b.span SIZE : ℤ) < INT_MAX := (span_le hv hstored.ge).trans_lt hlt
  have hgets' := RingBuffer.gets_eq hlt.le hv hc (n := SIZE) (by decide) hstored.ge hspan
  rw [hgets] at hgets'
  obtain ⟨htaken, hleft⟩ := hv.taken (n := SIZE) hstored.ge
  refine ⟨g, hgets, hbytes ▸ hresult, ?_⟩
  rw [Except.ok.inj hgets']
  exact ⟨htaken, by rw [hleft, hstored, Nat.sub_self]⟩

theorem Full.availableData_eq (hb : Full b) : b.availableData = .ok SIZE := by
  rw [RingBuffer.availableData_eq size_bounds.2.le hb.valid hb.countable, hb.stored_eq]

theorem drain_empty (hb : Empty b) (m : Memory) (answer : List CChar → ℤ) (fuel : ℕ) :
    drain m answer (fuel + 1) b = .ok ([], b) := by
  rw [drain, hb.availableData_eq]
  rfl

/-- **The loop writes once**, and what is written is everything that was in the buffer. -/
theorem drain_full (hb : Full b) (m : Memory) (answer : List CChar → ℤ) (fuel : ℕ) :
    (bfindreplaceIn m b.contents NL CRLF ≠ .ok none ∧
        answer (crlf b.contents) = (crlf b.contents).length ∧
        ∃ b', drain m answer (fuel + 2) b = .ok (crlf b.contents, b') ∧ Empty b') ∨
      ¬ (bfindreplaceIn m b.contents NL CRLF ≠ .ok none ∧
          answer (crlf b.contents) = (crlf b.contents).length) ∧
        drain m answer (fuel + 2) b = .error .exit := by
  obtain ⟨g, hgets, hresult, hempty⟩ := hb.gets_eq
  -- one turn of the loop, for each answer of `bfindreplace`
  have hfound : ∀ data, bfindreplaceIn m b.contents NL CRLF = .ok (some data) →
      writeSome (bfindreplaceIn m) b answer = .ok
        { rc := if answer data = data.length then answer data else -1, offered := some data,
          ring := g.ring } := by
    intro data hfind
    unfold writeSome
    rw [hb.availableData_eq, mapError_ok, ok_bind, hgets, mapError_ok, ok_bind, hresult]
    simp only [hfind]
    rfl
  have hfailed : bfindreplaceIn m b.contents NL CRLF = .ok none →
      writeSome (bfindreplaceIn m) b answer =
        .ok { rc := -1, offered := none, ring := g.ring } := by
    intro hfind
    unfold writeSome
    rw [hb.availableData_eq, mapError_ok, ok_bind, hgets, mapError_ok, ok_bind, hresult]
    simp only [hfind]
    rfl
  -- all of the buffer is taken, so a second turn finds nothing
  have hdrain : drain m answer (fuel + 2) b = (do
      let sent ← call (writeSome (bfindreplaceIn m) b answer)
      if sent.rc ≠ -1 then do
        let (rest, b) ← drain m answer (fuel + 1) sent.ring
        return (sent.offered.getD [] ++ rest, b)
      else
        .error .exit) := by
    rw [drain, hb.availableData_eq]
    rfl
  rcases bfindreplaceIn_cases m hb.contents_length with hfind | ⟨hfind, -⟩
  · rw [hdrain, hfound _ hfind, hfind]
    by_cases hall : answer (crlf b.contents) = (crlf b.contents).length
    · left
      refine ⟨(fun h => by cases h), hall, g.ring, ?_, hempty⟩
      simp only [if_pos hall]
      show (if answer (crlf b.contents) ≠ -1 then _ else _) = _
      rw [if_pos (by omega)]
      simp only [drain_empty hempty]
      show Except.ok (crlf b.contents ++ [], g.ring) = _
      rw [List.append_nil]
    · right
      refine ⟨fun h => hall h.2, ?_⟩
      simp only [if_neg hall]
      rfl
  · right
    rw [hdrain, hfailed hfind, hfind]
    exact ⟨fun h => h.1 rfl, rfl⟩

/-- **One direction of a round**, from the read on. -/
theorem drain_cases (ha : Loaded a b) (m : Memory) (answer : List CChar → ℤ) :
    (Delivers m answer a ∧
        ∃ b', drain m answer (SIZE + 1) b = .ok (crlf (filled a), b') ∧ Empty b') ∨
      ¬ Delivers m answer a ∧ drain m answer (SIZE + 1) b = .error .exit := by
  rcases ha with ⟨rfl, hb⟩ | ⟨hbytes, hb, hcontents⟩
  · exact Or.inl ⟨(fun h => nomatch h), b, drain_empty hb m answer SIZE, hb⟩
  · have hsome : a.isSome := by
      cases a with
      | none => cases hbytes
      | some a => rfl
    rw [← hcontents]
    rcases drain_full hb m answer (SIZE - 1) with ⟨hfind, hall, hdrain⟩ | ⟨hnot, hdrain⟩
    · left
      rw [hcontents] at hfind hall
      exact ⟨fun _ => ⟨hbytes, hfind, hall⟩, hdrain⟩
    · right
      refine ⟨fun h => hnot ?_, hdrain⟩
      rw [hcontents]
      exact (h hsome).2

/-! ## Runs

Each round finds the two buffers empty and leaves them so, or ends the program. A run is so many rounds
that went through, and at most one that did not. -/

/-- Between two rounds nothing is left in the buffers. -/
def Drained (c : Client) : Prop :=
  Empty c.inRb ∧ Empty c.sockRb

/-- **A round** goes through in both directions, or it is the last. -/
theorem round_cases {c : Client} (hc : Drained c) (r : Round) :
    (Goes r ∧ ∃ c', round c r = .ok c' ∧ Drained c' ∧
        c'.stdout = c.stdout ++ crlf (filled r.socket) ∧
        c'.sent = c.sent ++ crlf (filled r.stdin)) ∨
      ¬ Goes r ∧ round c r = .error .exit := by
  obtain ⟨hin, hsock⟩ := hc
  unfold round
  by_cases hsel : r.selected = true
  · rw [if_pos hsel]
    rcases fill_cases hin r.stdin with ⟨inRb, hfill, hloaded⟩ | ⟨⟨hsome, hnone⟩, hfill⟩
    · rw [hfill, ok_bind]
      rcases fill_cases hsock r.socket with ⟨sockRb, hfill', hloaded'⟩ | ⟨⟨hsome, hnone⟩, hfill'⟩
      · rw [hfill', ok_bind]
        -- both buffers are read; now both are written
        rcases drain_cases hloaded' r.memory r.write with ⟨hgo, sockRb', hdrain, hempty⟩ | ⟨hnot, hdrain⟩
        · rw [hdrain, ok_bind]
          rcases drain_cases hloaded r.memory r.send with
            ⟨hgo', inRb', hdrain', hempty'⟩ | ⟨hnot, hdrain'⟩
          · left
            simp only []
            rw [hdrain', ok_bind]
            exact ⟨⟨hsel, hgo, hgo'⟩, _, rfl, ⟨hempty', hempty⟩, rfl, rfl⟩
          · right
            simp only []
            rw [hdrain']
            exact ⟨fun h => hnot h.2.2, rfl⟩
        · right
          rw [hdrain]
          exact ⟨fun h => hnot h.2.1, rfl⟩
      · right
        rw [hfill']
        refine ⟨fun h => ?_, rfl⟩
        rw [(h.2.1 hsome).1] at hnone
        cases hnone
    · right
      rw [hfill]
      refine ⟨fun h => ?_, rfl⟩
      rw [(h.2.2 hsome).1] at hnone
      cases hnone
  · rw [if_neg hsel]
    exact Or.inr ⟨fun h => hsel h.1, rfl⟩

/-- **A run**: what it has written on both sides, or the round that ended it. -/
theorem run_cases {c : Client} (hc : Drained c) (rounds : List Round) :
    ((∀ r ∈ rounds, Goes r) ∧ ∃ c', Run.run round c rounds = .ok c' ∧
        c'.stdout = c.stdout ++ crlf (rounds.flatMap fun r => filled r.socket) ∧
        c'.sent = c.sent ++ crlf (rounds.flatMap fun r => filled r.stdin)) ∨
      (∃ r ∈ rounds, ¬ Goes r) ∧ Run.run round c rounds = .error .exit := by
  induction rounds generalizing c with
  | nil =>
    left
    exact ⟨(fun r hr => nomatch hr), c, rfl, (List.append_nil _).symm, (List.append_nil _).symm⟩
  | cons r rounds ih =>
    rw [Run.run_cons]
    rcases round_cases hc r with ⟨hgo, c', hround, hc', hout, hmsg⟩ | ⟨hnot, hround⟩
    · rw [hround]
      rcases ih hc' with ⟨hall, c'', hrun, hout', hmsg'⟩ | ⟨⟨r', hr', hnot⟩, hrun⟩
      · left
        refine ⟨List.forall_mem_cons.mpr ⟨hgo, hall⟩, c'', hrun, ?_, ?_⟩
        · rw [hout', hout, List.append_assoc, ← crlf_append, List.flatMap_cons]
        · rw [hmsg', hmsg, List.append_assoc, ← crlf_append, List.flatMap_cons]
      · exact Or.inr ⟨⟨r', List.mem_cons_of_mem r hr', hnot⟩, hrun⟩
    · right
      rw [hround]
      exact ⟨⟨r, List.mem_cons_self, hnot⟩, rfl⟩

/-! ## The relay

The lengths decide: what is in a buffer is never shorter than what was received, and changing the ends
of lines loses nothing. So a run relays what was received only if every single read did. -/

theorem length_filled (ha : (a.bind Answer.bytes).isSome) : (filled a).length = SIZE := by
  rcases a with - | ⟨block, - | bytes⟩
  · cases ha
  · cases ha
  · exact length_copyOut _ _ _

theorem length_received_le (a : Option Answer) : (received a).length ≤ SIZE := by
  rw [received, List.length_take]
  exact Nat.min_le_left _ _

/-- What is in the buffer is what came when that fills it, or when there was no read at all. -/
theorem filled_eq_received_iff (ha : a.isSome → (a.bind Answer.bytes).isSome) :
    filled a = received a ↔ (a.isSome → (received a).length = SIZE) := by
  constructor
  · intro h hsome
    rw [← h, length_filled (ha hsome)]
  · intro h
    rcases a with - | ⟨block, - | bytes⟩
    · rfl
    · exact absurd (ha rfl) (by simp)
    · have hlen : (bytes.take SIZE).length = SIZE := h rfl
      show copyOut (copyIn block 0 (bytes.take SIZE)) 0 SIZE = bytes.take SIZE
      rw [← congrArg (copyOut (copyIn block 0 (bytes.take SIZE)) 0) hlen]
      exact copyOut_copyIn block _

theorem length_received_le_filled (ha : a.isSome → (a.bind Answer.bytes).isSome) :
    (received a).length ≤ (filled a).length := by
  cases a with
  | none => exact le_rfl
  | some a =>
    rw [length_filled (ha rfl)]
    exact length_received_le _

/-- Pieces that are no longer than others, and together the same, are the same one by one. -/
theorem flatMap_eq_iff {α β : Type} {f g : α → List β} {l : List α}
    (hle : ∀ x ∈ l, (g x).length ≤ (f x).length) :
    l.flatMap f = l.flatMap g ↔ ∀ x ∈ l, f x = g x := by
  -- if the first two pieces differed in length, the rest would have to be longer than it can be
  have hlen : ∀ l : List α, (∀ x ∈ l, (g x).length ≤ (f x).length) →
      (l.flatMap g).length ≤ (l.flatMap f).length := by
    intro l hle
    induction l with
    | nil => exact le_rfl
    | cons x l ih =>
      obtain ⟨hx, hl⟩ := List.forall_mem_cons.mp hle
      rw [List.flatMap_cons, List.flatMap_cons, List.length_append, List.length_append]
      exact Nat.add_le_add hx (ih hl)
  induction l with
  | nil => exact ⟨fun _ => nofun, fun _ => rfl⟩
  | cons x l ih =>
    obtain ⟨hx, hl⟩ := List.forall_mem_cons.mp hle
    have hcons : (x :: l).flatMap f = (x :: l).flatMap g ↔ f x = g x ∧ l.flatMap f = l.flatMap g := by
      rw [List.flatMap_cons, List.flatMap_cons]
      constructor
      · intro h
        have htotal := congrArg List.length h
        have hrest := hlen l hl
        rw [List.length_append, List.length_append] at htotal
        exact List.append_inj h (by omega)
      · intro ⟨h₁, h₂⟩
        rw [h₁, h₂]
    exact hcons.trans ((and_congr_right fun _ => ih hl).trans
      (List.forall_mem_cons (p := fun x => f x = g x)).symm)

end Lcthw.Netclient
