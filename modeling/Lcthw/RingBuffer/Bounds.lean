import Lcthw.RingBuffer.Gets

/-!
# Lcthw — where the copies of a ring buffer go (`ringbuffer.c`)

A write that wraps is split where the block ends. A read that wraps is not: its first `memcpy` takes the
whole amount from `start` on, and what came from behind the block is overwritten by the second one.

* **`Op.copies`**: the regions of the block that the copies of a call touch, whatever becomes of the
  commit after them; `copies_of_write` and `copies_of_read` say that these are the ones on record.
* **`copies_inside_iff`**: they lie in the block, exactly when the call is not such a read.
-/

namespace Lcthw.RingBuffer

/-- The copies of an accepted `write`. -/
def placed (b : RingBuffer) (length : ℤ) : List Region :=
  if b.looped = 0 ∧ b.length - b.end < length then
    [⟨b.end, b.length - b.end⟩, ⟨0, length - (b.length - b.end)⟩]
  else
    [⟨b.end, length⟩]

/-- The copies of an accepted `read`. -/
def fetched (b : RingBuffer) (amount : ℤ) : List Region :=
  if b.looped = 1 ∧ b.length - b.start < amount then
    [⟨b.start, amount⟩, ⟨0, amount - b.length + b.start⟩]
  else
    [⟨b.start, amount⟩]

/-- A call that overflows before it is accepted copies nothing. -/
def Op.copies (b : RingBuffer) : Op → List Region
  | .write data =>
    match b.availableData with
    | .error _ => []
    | .ok n =>
      let b : RingBuffer := if n = 0 then { b with start := 0, «end» := 0 } else b
      match b.availableSpace with
      | .error _ => []
      | .ok space => if (data.length : ℤ) ≤ space then b.placed data.length else []
  | .read _ amount =>
    match b.availableData with
    | .error _ => []
    | .ok n => if (amount : ℤ) ≤ n then b.fetched amount else []
  | .availableData => []

/-- The call reads and writes the block alone, and no length is negative. -/
def CopiesInside (L : ℤ) (b : RingBuffer) (op : Op) : Prop :=
  ∀ r ∈ op.copies b, 0 ≤ r.length ∧ r.Inside L

/-- The call is not an accepted read that goes on at the beginning of the block. -/
def Straight (b : RingBuffer) : Op → Prop
  | .write _ => True
  | .read _ amount =>
    ∀ n, b.availableData = .ok n → amount ≤ n → b.looped = 1 → b.start + amount ≤ b.length
  | .availableData => True

variable {L : ℤ} {b : RingBuffer}

/-! ## The copies on record

`Op.copies` is computed from the buffer in front of the call and from nothing that the call does. Where
the call ends, the copies that it has recorded are these; where it overflows in the commit, they have
been made all the same. -/

/-- A `place` that ends has made the copies of `placed`. -/
theorem place_copies {data : ℤ → CChar} {length : ℤ} {w : Written} (h : b.place data length = .ok w) :
    w.copies = b.placed length := by
  unfold place at h
  unfold placed
  by_cases hwrap : b.looped = 0 ∧ b.length - b.end < length
  · rw [if_pos hwrap] at h ⊢
    obtain ⟨room, hroom, h⟩ := bind_eq_ok.mp h
    obtain ⟨rest, hrest, h⟩ := bind_eq_ok.mp h
    obtain ⟨mem, -, h⟩ := bind_eq_ok.mp h
    obtain ⟨mem', -, h⟩ := bind_eq_ok.mp h
    obtain ⟨ring, -, h⟩ := bind_eq_ok.mp h
    obtain rfl := eq_of_int hroom
    obtain rfl := eq_of_int hrest
    cases h
    rfl
  · rw [if_neg hwrap] at h ⊢
    obtain ⟨mem, -, h⟩ := bind_eq_ok.mp h
    obtain ⟨ring, -, h⟩ := bind_eq_ok.mp h
    cases h
    rfl

/-- A `fetch` that ends has made the copies of `fetched`. -/
theorem fetch_copies {target target' : ℤ → CChar} {amount : ℤ} {copies : List Region}
    (h : b.fetch target amount = .ok (target', copies)) : copies = b.fetched amount := by
  unfold fetch at h
  unfold fetched
  by_cases hwrap : b.looped = 1 ∧ b.length - b.start < amount
  · rw [if_pos hwrap] at h ⊢
    obtain ⟨room, hroom, h⟩ := bind_eq_ok.mp h
    obtain ⟨rest, hrest, h⟩ := bind_eq_ok.mp h
    obtain ⟨rest', hrest', h⟩ := bind_eq_ok.mp h
    obtain ⟨mem, -, h⟩ := bind_eq_ok.mp h
    obtain ⟨mem', -, h⟩ := bind_eq_ok.mp h
    obtain rfl := eq_of_int hrest
    obtain rfl := eq_of_int hrest'
    cases h
    rfl
  · rw [if_neg hwrap] at h ⊢
    obtain ⟨mem, -, h⟩ := bind_eq_ok.mp h
    cases h
    rfl

theorem copies_of_write {data : List CChar} {w : Written}
    (h : b.write (Ring.ofList 0 data) data.length = .ok w) : w.copies = (Op.write data).copies b := by
  unfold write at h
  obtain ⟨n, hn, h⟩ := bind_eq_ok.mp h
  obtain ⟨space, hspace, h⟩ := bind_eq_ok.mp h
  unfold Op.copies
  simp only [hn, hspace]
  by_cases hfit : (data.length : ℤ) ≤ space
  · rw [if_pos hfit] at h ⊢
    exact place_copies h
  · rw [if_neg hfit] at h ⊢
    cases h
    rfl

theorem copies_of_read {target : ℤ → CChar} {amount : ℕ} {d : Delivered}
    (h : b.read target amount = .ok d) : d.copies = (Op.read target amount).copies b := by
  unfold read at h
  obtain ⟨n, hn, h⟩ := bind_eq_ok.mp h
  unfold Op.copies
  simp only [hn]
  by_cases hfit : (amount : ℤ) ≤ n
  · rw [if_pos hfit] at h ⊢
    obtain ⟨⟨target', copies⟩, hfetch, h⟩ := bind_eq_ok.mp h
    obtain ⟨ring, -, h⟩ := bind_eq_ok.mp h
    obtain rfl := fetch_copies hfetch
    cases h
    rfl
  · rw [if_neg hfit] at h ⊢
    cases h
    rfl

/-! ## Inside the block

A write is split where the block ends, and its two pieces are as long as the room on either side. A read
is not: when it wraps, the first piece has the length of both. -/

/-- A write that fits stays in the block, in one piece or in two. -/
theorem placed_inside (hv : Valid L b) {n : ℕ} (hfit : b.stored + n ≤ L) :
    ∀ r ∈ b.placed n, 0 ≤ r.length ∧ r.Inside L := by
  have hs := hv.stored_eq
  obtain ⟨hlen, hstart, hstartL, hend, hendL, hends⟩ := hv
  unfold placed
  -- what has no space behind `end` goes to the front of the buffer
  by_cases hwrap : b.looped = 0 ∧ b.length - b.end < n
  · rw [if_pos hwrap.1] at hs
    rw [if_pos hwrap]
    have hfirst : Region.Inside ⟨b.end, b.length - b.end⟩ L := by
      show 0 ≤ b.end ∧ b.end + (b.length - b.end) ≤ L
      omega
    have hsecond : Region.Inside ⟨0, n - (b.length - b.end)⟩ L := by
      show 0 ≤ (0 : ℤ) ∧ 0 + (n - (b.length - b.end)) ≤ L
      omega
    intro r hr
    rcases List.mem_cons.mp hr with rfl | hr
    · exact ⟨show 0 ≤ b.length - b.end by omega, hfirst⟩
    · obtain rfl := List.mem_singleton.mp hr
      exact ⟨show 0 ≤ n - (b.length - b.end) by omega, hsecond⟩
  · rw [if_neg hwrap]
    intro r hr
    obtain rfl := List.mem_singleton.mp hr
    refine ⟨show (0 : ℤ) ≤ n by omega, ?_⟩
    show 0 ≤ b.end ∧ b.end + n ≤ L
    rcases hends with ⟨hl, hle⟩ | ⟨hl, hle⟩
    · rw [if_pos hl] at hs
      omega
    · rw [if_neg (by omega)] at hs
      omega

/-- A read of stored bytes stays in the block, unless it takes some from the beginning of it too. -/
theorem fetched_inside (hv : Valid L b) {n : ℕ} (hn : n ≤ b.stored) :
    (∀ r ∈ b.fetched n, 0 ≤ r.length ∧ r.Inside L) ↔ (b.looped = 1 → b.start + n ≤ b.length) := by
  have hs := hv.stored_eq
  obtain ⟨hlen, hstart, hstartL, hend, hendL, hends⟩ := hv
  unfold fetched
  by_cases hwrap : b.looped = 1 ∧ b.length - b.start < n
  · rw [if_pos hwrap]
    constructor
    · intro h
      -- the first of two copies is of all `n` bytes, and so runs past the end
      obtain ⟨-, -, hout⟩ := h ⟨b.start, n⟩ List.mem_cons_self
      change b.start + n ≤ L at hout
      omega
    · intro h
      have hle := h hwrap.1
      omega
  · rw [if_neg hwrap]
    constructor
    · intro _ hl
      by_contra hlt
      exact hwrap ⟨hl, by omega⟩
    · intro h r hr
      obtain rfl := List.mem_singleton.mp hr
      refine ⟨show (0 : ℤ) ≤ n by omega, ?_⟩
      show 0 ≤ b.start ∧ b.start + n ≤ L
      rcases hends with ⟨hl, hle⟩ | ⟨hl, hle⟩
      · rw [if_pos hl] at hs
        omega
      · have := h hl
        omega

/-- A countable buffer comes to its copies; one that is not overflows before them, and then there is
nothing to ask for. -/
theorem copiesInside_iff (hL : 0 < L) (hmax : L ≤ INT_MAX) (hv : Valid L b) (op : Op) :
    b.CopiesInside L op ↔ b.Straight op := by
  unfold CopiesInside
  by_cases hc : b.Countable
  · have hdata := availableData_eq hmax hv hc
    cases op with
    | write data =>
      refine iff_of_true ?_ trivial
      have hspace := availableSpace_eq hmax (hv.settled hL) (countable_settled hv hc)
      -- the ends may have gone to zero first
      have hsettled : (if (b.stored : ℤ) = 0 then { b with start := 0, «end» := 0 } else b) =
          b.settled := by
        unfold settled
        simp only [Int.natCast_eq_zero]
        rfl
      unfold Op.copies
      simp only [hdata, hsettled, hspace]
      by_cases hfit : (data.length : ℤ) ≤ L - b.settled.stored
      · rw [if_pos hfit]
        exact placed_inside (hv.settled hL) (by omega)
      · rw [if_neg hfit]
        exact fun r hr => absurd hr List.not_mem_nil
    | read target amount =>
      unfold Op.copies Straight
      simp only [hdata]
      by_cases hn : (amount : ℤ) ≤ b.stored
      · rw [if_pos hn, fetched_inside hv (by omega)]
        constructor
        · intro h n _ _
          exact h
        · intro h
          exact h b.stored rfl hn
      · rw [if_neg hn]
        refine iff_of_true (fun r hr => absurd hr List.not_mem_nil) ?_
        intro n heq hle
        obtain rfl := Except.ok.inj heq
        exact absurd hle hn
    | availableData => exact iff_of_true (fun r hr => absurd hr List.not_mem_nil) trivial
  · -- the sum overflows before anything is copied
    have hdata := availableData_overflow hc
    cases op with
    | write data =>
      refine iff_of_true ?_ trivial
      unfold Op.copies
      simp only [hdata]
      exact fun r hr => absurd hr List.not_mem_nil
    | read target amount =>
      unfold Op.copies Straight
      simp only [hdata]
      refine iff_of_true (fun r hr => absurd hr List.not_mem_nil) ?_
      intro n heq
      cases heq
    | availableData => exact iff_of_true (fun r hr => absurd hr List.not_mem_nil) trivial

/-- With no room there is nothing but calls of length zero. -/
theorem Idle.copiesInside_iff (hi : Idle b) (hL : 0 ≤ L) (op : Op) :
    b.CopiesInside L op ↔ b.Straight op := by
  have hnothing : ∀ r ∈ [(⟨0, 0⟩ : Region)], 0 ≤ r.length ∧ r.Inside L := by
    intro r hr
    obtain rfl := List.mem_singleton.mp hr
    exact ⟨le_rfl, le_rfl, hL⟩
  have hnone : ∀ r ∈ ([] : List Region), 0 ≤ r.length ∧ r.Inside L :=
    fun r hr => absurd hr List.not_mem_nil
  have hlen := hi.length_nonpos
  unfold CopiesInside
  cases op with
  | write data =>
    refine iff_of_true ?_ trivial
    unfold Op.copies
    simp only [hi.availableData_eq, if_true]
    cases hspace : ({ b with start := 0, «end» := 0 } : RingBuffer).availableSpace with
    | error e => exact hnone
    | ok space =>
      have hroom : b.length = space := hi.rewind.availableSpace_eq hspace
      show ∀ r ∈ (if (data.length : ℤ) ≤ space then _ else _), _
      by_cases hfit : (data.length : ℤ) ≤ space
      · -- nothing but an empty write is accepted
        have hzero : (data.length : ℤ) = 0 := by omega
        have hwrap : ¬ (b.looped = 0 ∧ b.length - 0 < (0 : ℤ)) := by omega
        rw [if_pos hfit, hzero]
        unfold placed
        rw [if_neg hwrap]
        exact hnothing
      · rw [if_neg hfit]
        exact hnone
  | read target amount =>
    apply iff_of_true
    · unfold Op.copies
      simp only [hi.availableData_eq]
      by_cases hfit : (amount : ℤ) ≤ 0
      · -- nothing but an empty read is accepted
        have hzero : (amount : ℤ) = 0 := by omega
        have hwrap : ¬ (b.looped = 1 ∧ b.length - b.start < (0 : ℤ)) := by
          rw [hi.looped_eq]
          omega
        rw [if_pos hfit, hzero]
        unfold fetched
        rw [if_neg hwrap, hi.start_eq]
        exact hnothing
      · rw [if_neg hfit]
        exact hnone
    · intro n _ _ hl
      rw [hi.looped_eq] at hl
      cases hl
  | availableData => exact iff_of_true hnone trivial

/-- **The copies stay in the block exactly when the call is not a read that wraps.** From any buffer a
run reaches. -/
theorem copies_inside_iff (heap : ℤ → CChar) (hL : 0 ≤ L) (hmax : L ≤ INT_MAX) (calls : List Call)
    (hrun : Run.run call (create heap L) calls = .ok b) (op : Op) :
    b.CopiesInside L op ↔ b.Straight op := by
  rcases valid_or_idle heap hmax hrun with ⟨hv, hpos⟩ | hi
  · exact copiesInside_iff hpos hmax hv op
  · exact hi.copiesInside_iff hL op

theorem copies_inside_iff_ab :
    ∃ b, Run.run call (create (fun _ => 0) 2) [.queue (.write (cstr "ab"))] = .ok b ∧
      (b.CopiesInside 2 (.read (fun _ => 0) 2) ↔ b.Straight (.read (fun _ => 0) 2)) :=
  ⟨_, rfl, copies_inside_iff (fun _ => 0) (by decide) (by decide) [.queue (.write (cstr "ab"))] rfl _⟩

/-- Two bytes are read from the last offset of a block of two. -/
theorem wrapped_read_leaves_block :
    ∃ b d, Run.run call (create (fun _ => 0) 2) [.queue (.write (cstr "ab")),
        .queue (.read (fun _ => 0) 1), .queue (.write (cstr "c"))] = .ok b ∧
      b.read (fun _ => 0) (2 : ℕ) = .ok d ∧ d.rc = 2 ∧
      d.copies = (Op.read (fun _ => 0) 2).copies b ∧ ¬ b.CopiesInside 2 (.read (fun _ => 0) 2) := by
  refine ⟨_, _, rfl, rfl, rfl, rfl, ?_⟩
  intro h
  have hfirst := (h ⟨1, 2⟩ List.mem_cons_self).2.2
  exact absurd hfirst (by decide)

end Lcthw.RingBuffer
