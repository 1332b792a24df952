import Mathlib

/-!
# Ring — queues stored in circular memory

A memory is a function from offsets to cells; the ring of size `L` is the offsets `[0, L)`.
`window mem L s n` is the list of the `n` cells from position `s` on, wrapping at `L`.

* **`put`** writes a list at a position of the ring, wrapping; `window_put` says that putting at
  the end of a window appends to it.
* **`copyIn`**, **`copyOut`** are straight copies between a memory and a list. One or two of them
  make up a `put` (`copyIn_eq_put`, `copyIn_copyIn_eq_put`) or read a window (`copyOut_eq_window`,
  `copyOut_append_copyOut`), according to whether the region wraps.
* **`store`**, **`load`** copy through a mapping that shows the ring twice in a row, where a copy of
  at most one turn never has to be split (`store_eq_put`, `load_eq_window`).
-/

namespace Ring

variable {β : Type*}

/-- The `n` cells from position `s` on, wrapping at `L`. -/
def window (mem : ℤ → β) (L s : ℤ) (n : ℕ) : List β :=
  (List.range n).map fun i : ℕ => mem ((s + i) % L)

/-- Copy `data` to the offsets from `off` on. -/
def copyIn (mem : ℤ → β) (off : ℤ) (data : List β) : ℤ → β :=
  fun a => if off ≤ a then (data[(a - off).toNat]?).getD (mem a) else mem a

/-- The `n` cells from offset `off` on, without wrapping. -/
def copyOut (mem : ℤ → β) (off : ℤ) (n : ℕ) : List β :=
  (List.range n).map fun i : ℕ => mem (off + i)

/-- A memory that holds `data` from offset 0 on. -/
def ofList (blank : β) (data : List β) : ℤ → β :=
  fun a => data.getD a.toNat blank

/-- Write `data` to the ring from position `s` on, wrapping at `L`. -/
def put (mem : ℤ → β) (L s : ℤ) (data : List β) : ℤ → β :=
  fun a => (data[((a - s) % L).toNat]?).getD (mem a)

/-! ## Windows

A window is what a queue in a ring consists of: so many cells from a position on. A position counts
modulo `L`, and a window is cut where it has a prefix or a rest. -/

@[simp] theorem length_window (mem : ℤ → β) (L s : ℤ) (n : ℕ) : (window mem L s n).length = n := by
  simp [window]

@[simp] theorem window_zero (mem : ℤ → β) (L s : ℤ) : window mem L s 0 = [] := rfl

theorem getElem_window (mem : ℤ → β) (L s : ℤ) {n i : ℕ} (h : i < (window mem L s n).length) :
    (window mem L s n)[i] = mem ((s + i) % L) := by
  simp [window]

/-- Only the ring itself is read. -/
theorem window_congr {mem mem' : ℤ → β} {L : ℤ} (hL : 0 < L)
    (h : ∀ a, 0 ≤ a → a < L → mem a = mem' a) (s : ℤ) (n : ℕ) :
    window mem L s n = window mem' L s n := by
  apply List.map_congr_left
  intro i _
  exact h _ (Int.emod_nonneg _ hL.ne') (Int.emod_lt_of_pos _ hL)

theorem window_emod (mem : ℤ → β) (L s : ℤ) (n : ℕ) : window mem L (s % L) n = window mem L s n := by
  simp [window]

theorem window_add (mem : ℤ → β) (L s : ℤ) (m n : ℕ) :
    window mem L s (m + n) = window mem L s m ++ window mem L (s + m) n := by
  simp [window, List.range_add, Function.comp_def, add_assoc]

theorem take_window (mem : ℤ → β) (L s : ℤ) {k n : ℕ} (h : k ≤ n) :
    (window mem L s n).take k = window mem L s k := by
  obtain ⟨m, rfl⟩ := Nat.exists_eq_add_of_le h
  rw [window_add, List.take_left' (length_window mem L s k)]

theorem drop_window (mem : ℤ → β) (L s : ℤ) {k n : ℕ} (h : k ≤ n) :
    (window mem L s n).drop k = window mem L (s + k) (n - k) := by
  obtain ⟨m, rfl⟩ := Nat.exists_eq_add_of_le h
  rw [window_add, List.drop_left' (length_window mem L s k), Nat.add_sub_cancel_left]

/-! ## Writing

A list that is put at the end of a window makes the window longer, as long as the ring has room for
both. A straight copy does it where the region does not wrap, and two copies where it does. -/

theorem put_emod (mem : ℤ → β) (L s : ℤ) (data : List β) : put mem L (s % L) data = put mem L s data := by
  funext a
  rw [put, put, Int.sub_emod_emod]

/-- **Putting at the end of a window appends to it**, when both fit into the ring. -/
theorem window_put (mem : ℤ → β) {L : ℤ} (s : ℤ) {n : ℕ} {data : List β}
    (hfit : (n : ℤ) + data.length ≤ L) :
    window (put mem L (s + n) data) L s (n + data.length) = window mem L s n ++ data := by
  rw [window_add]
  congr 1
  · apply List.map_congr_left
    intro i hi
    have hi : i < n := List.mem_range.mp hi
    rcases Nat.eq_zero_or_pos data.length with h0 | hpos
    · simp [put, List.eq_nil_of_length_eq_zero h0]
    · -- the offset is a whole turn minus the distance to the end, so past the data
      have hoff : ((s + i) % L - (s + n)) % L = L - n + i := by
        rw [Int.emod_sub_emod, show s + (i : ℤ) - (s + n) = (L - n + i) - L by ring,
          Int.sub_emod_right, Int.emod_eq_of_lt (by omega) (by omega)]
      rw [put, hoff, List.getElem?_eq_none (by omega)]
      rfl
  · apply List.ext_getElem
    · simp
    · intro j hj hj'
      have hoff : ((s + n + j) % L - (s + n)) % L = j := by
        rw [Int.emod_sub_emod, show s + (n : ℤ) + j - (s + n) = j by ring,
          Int.emod_eq_of_lt (by omega) (by omega)]
      rw [getElem_window, put, hoff, Int.toNat_natCast, List.getElem?_eq_getElem hj']
      rfl

/-- A region that does not wrap is written by one copy. -/
theorem copyIn_eq_put (mem : ℤ → β) {L s : ℤ} {data : List β} (hs : 0 ≤ s)
    (hfit : s + data.length ≤ L) {a : ℤ} (ha : 0 ≤ a) (haL : a < L) :
    copyIn mem s data a = put mem L s data a := by
  by_cases hsa : s ≤ a
  · rw [copyIn, if_pos hsa, put, Int.emod_eq_of_lt (by omega) (by omega)]
  · have hoff : (a - s) % L = a - s + L := by
      rw [← Int.add_emod_right, Int.emod_eq_of_lt (by omega) (by omega)]
    rw [copyIn, if_neg hsa, put, hoff, List.getElem?_eq_none (by omega)]
    rfl

/-- A region that wraps is written by two copies, the second one to the start of the ring. -/
theorem copyIn_copyIn_eq_put (mem : ℤ → β) {L s : ℤ} {data : List β} (hsL : s < L)
    (hwrap : L < s + data.length) (hfit : (data.length : ℤ) ≤ L) {a : ℤ} (ha : 0 ≤ a)
    (haL : a < L) :
    copyIn (copyIn mem s (data.take (L - s).toNat)) 0 (data.drop (L - s).toNat) a =
      put mem L s data a := by
  simp only [copyIn, if_pos ha, sub_zero, List.getElem?_drop]
  by_cases hsa : s ≤ a
  · rw [if_pos hsa, put, Int.emod_eq_of_lt (by omega) (by omega),
      List.getElem?_eq_none (i := (L - s).toNat + a.toNat) (by omega),
      List.getElem?_take_of_lt (by omega)]
    rfl
  · have hoff : (a - s) % L = a - s + L := by
      rw [← Int.add_emod_right, Int.emod_eq_of_lt (by omega) (by omega)]
    rw [if_neg hsa, put, hoff, show (a - s + L).toNat = (L - s).toNat + a.toNat by omega]

/-! ## Reading

The same for reading: what one copy or two take from the memory is a window of the ring. What was
written last is what is read back. -/

@[simp] theorem length_copyOut (mem : ℤ → β) (off : ℤ) (n : ℕ) : (copyOut mem off n).length = n := by
  simp [copyOut]

theorem take_copyOut (mem : ℤ → β) (off : ℤ) {k n : ℕ} (h : k ≤ n) :
    (copyOut mem off n).take k = copyOut mem off k := by
  rw [copyOut, copyOut, ← List.map_take, List.take_range, Nat.min_eq_left h]

theorem drop_copyOut (mem : ℤ → β) (off : ℤ) (k m : ℕ) :
    (copyOut mem off (k + m)).drop k = copyOut mem (off + k) m := by
  apply List.ext_getElem
  · simp
  · intro i hi hi'
    simp [copyOut, add_assoc]

theorem copyOut_ofList (blank : β) (data : List β) (off n : ℕ) (h : off + n ≤ data.length) :
    copyOut (ofList blank data) off n = (data.drop off).take n := by
  apply List.ext_getElem
  · simp
    omega
  · intro i hi _
    have hi : i < n := by simpa using hi
    have hget : data[off + i]? = some data[off + i] := List.getElem?_eq_getElem (by omega)
    simp [copyOut, ofList, show ((off : ℤ) + i).toNat = off + i by omega, hget]

/-- Reading back what one copy wrote. -/
theorem copyOut_copyIn (mem : ℤ → β) (data : List β) :
    copyOut (copyIn mem 0 data) 0 data.length = data := by
  apply List.ext_getElem
  · simp
  · intro i hi hi'
    simp [copyOut, copyIn, hi']

/-- Reading back what two copies wrote, the second one over the end of the first. -/
theorem copyOut_copyIn_copyIn (mem : ℤ → β) (data more : List β) {k : ℕ} (hk : k ≤ data.length)
    (hlen : k + more.length = data.length) :
    copyOut (copyIn (copyIn mem 0 data) k more) 0 data.length = data.take k ++ more := by
  apply List.ext_getElem
  · simp
    omega
  · intro i hi hi'
    have hi : i < data.length := by simpa using hi
    rcases Nat.lt_or_ge i k with hik | hik
    · simp [copyOut, copyIn, hik, hi, show ¬ k ≤ i by omega]
    · have hmore : i - k < more.length := by omega
      simp [copyOut, copyIn, hik, hmore, Nat.min_eq_left hk]

/-- A region that does not wrap is read by one copy. -/
theorem copyOut_eq_window (mem : ℤ → β) {L s : ℤ} {n : ℕ} (hs : 0 ≤ s) (hfit : s + n ≤ L) :
    copyOut mem s n = window mem L s n := by
  apply List.map_congr_left
  intro i hi
  have hi : i < n := List.mem_range.mp hi
  rw [Int.emod_eq_of_lt (by omega) (by omega)]

/-- A region that wraps is read by two copies, the second one from the start of the ring. -/
theorem copyOut_append_copyOut (mem : ℤ → β) {L s : ℤ} {n : ℕ} (hs : 0 ≤ s) (hsL : s ≤ L)
    (hwrap : L ≤ s + n) (hfit : (n : ℤ) ≤ L) :
    copyOut mem s (L - s).toNat ++ copyOut mem 0 (n - (L - s).toNat) = window mem L s n := by
  have hfirst : copyOut mem s (L - s).toNat = window mem L s (L - s).toNat :=
    copyOut_eq_window mem hs (by omega)
  have hsecond : copyOut mem 0 (n - (L - s).toNat) = window mem L 0 (n - (L - s).toNat) :=
    copyOut_eq_window mem le_rfl (by omega)
  have hturn : (s + ((L - s).toNat : ℤ)) % L = 0 % L := by
    rw [show s + ((L - s).toNat : ℤ) = 0 + L by omega, Int.add_emod_right]
  have hn : n = (L - s).toNat + (n - (L - s).toNat) := by omega
  conv_rhs => rw [hn, window_add, ← window_emod mem L (s + _), hturn, window_emod]
  rw [hfirst, hsecond]

/-! ## Memory mapped twice

A mapping that shows the ring twice in a row lets one copy run over the end of the first view into the
second one. Position and offset then differ by a turn at most, and no region of at most one turn has to
be split. -/

/-- The cell behind offset `a` when the offsets `[0, L)` and `[L, 2 * L)` show the same cells. -/
def mirror (L a : ℤ) : ℤ :=
  if 0 ≤ a ∧ a < 2 * L then a % L else a

/-- Write `data` through the mapping from offset `off` on, one cell after the other. -/
def store (mem : ℤ → β) (L off : ℤ) : List β → ℤ → β
  | [] => mem
  | x :: data => store (Function.update mem (mirror L off) x) L (off + 1) data

/-- Read `n` cells through the mapping from offset `off` on. -/
def load (mem : ℤ → β) (L off : ℤ) (n : ℕ) : List β :=
  (List.range n).map fun i : ℕ => mem (mirror L (off + i))

theorem mirror_eq {L a : ℤ} (ha : 0 ≤ a) (haL : a < 2 * L) : mirror L a = a % L :=
  if_pos ⟨ha, haL⟩

theorem load_eq_window (mem : ℤ → β) {L s : ℤ} {n : ℕ} (hs : 0 ≤ s) (hfit : s + n ≤ 2 * L) :
    load mem L s n = window mem L s n := by
  apply List.map_congr_left
  intro i hi
  have hi : i < n := List.mem_range.mp hi
  rw [mirror_eq (by omega) (by omega)]

/-- The first cell of a `put` is written where the next ones do not reach. -/
theorem put_cons (mem : ℤ → β) {L : ℤ} (hL : 0 < L) (s : ℤ) (x : β) {data : List β}
    (hfit : (data.length : ℤ) + 1 ≤ L) {a : ℤ} (ha : 0 ≤ a) (haL : a < L) :
    put mem L s (x :: data) a = put (Function.update mem (s % L) x) L (s + 1) data a := by
  have hlt := Int.emod_lt_of_pos (a - s) hL
  have hnn := Int.emod_nonneg (a - s) hL.ne'
  by_cases hzero : (a - s) % L = 0
  · -- the cell itself, at a whole turn less one from the position after it
    have hcell : a = s % L := by
      have hmod : a % L = s % L := Int.emod_eq_emod_iff_emod_sub_eq_zero.mpr hzero
      rwa [Int.emod_eq_of_lt ha haL] at hmod
    have hoff : (a - (s + 1)) % L = L - 1 := by
      rw [show a - (s + 1) = (a - s) + (-1) by ring, Int.add_emod, hzero, zero_add, Int.emod_emod,
        ← Int.add_emod_right, Int.emod_eq_of_lt (by omega) (by omega)]
      ring
    have hnone : data[(L - 1).toNat]? = none := List.getElem?_eq_none (by omega)
    rw [put, put, hzero, hoff, hnone, ← hcell, Function.update_self]
    rfl
  · have hoff : (a - (s + 1)) % L = (a - s) % L - 1 := by
      rw [show a - (s + 1) = (a - s) - 1 by ring, ← Int.emod_sub_emod,
        Int.emod_eq_of_lt (by omega) (by omega)]
    have hcell : a ≠ s % L := by
      rintro rfl
      apply hzero
      rw [Int.emod_sub_emod, sub_self, Int.zero_emod]
    rw [put, put, hoff, Function.update_of_ne hcell,
      show ((a - s) % L).toNat = ((a - s) % L - 1).toNat + 1 by omega, List.getElem?_cons_succ]

/-- A copy of at most one turn through the mapping wraps by itself. -/
theorem store_eq_put (mem : ℤ → β) {L s : ℤ} (hL : 0 < L) {data : List β} (hs : 0 ≤ s)
    (hfit : s + data.length ≤ 2 * L) (hturn : (data.length : ℤ) ≤ L) {a : ℤ} (ha : 0 ≤ a)
    (haL : a < L) : store mem L s data a = put mem L s data a := by
  induction data generalizing mem s with
  | nil => simp [store, put]
  | cons x data ih =>
    rw [List.length_cons] at hfit hturn
    rw [put_cons mem hL s x (by omega) ha haL, store, mirror_eq hs (by omega)]
    exact ih _ (by omega) (by omega) (by omega)

end Ring
