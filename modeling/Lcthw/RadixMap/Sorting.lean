import Lcthw.RadixMap.Defs
import Lcthw.CountingSort

/-!
# Lcthw — what the radix sort of the radix map does

* **`radixSort_eq`**: `radix_sort` is a counting-sort pass by one byte; it stays inside its arrays.
* **`sort_eq`**: `RadixMap_sort` sorts the elements from `key_start` on and moves no other.
* **`sort_stable`**: the elements of one key stay in their order.
-/

namespace Lcthw.RadixMap

open CountingSort

/-! ## One pass

The counts of the bytes, summed up, are the places where the blocks of the elements begin. Each element
goes to the cursor of its byte, so the pass is stable and stays inside its array. -/

theorem byteof_lt (x : RMElement) (y : ℕ) : byteof x y < 256 :=
  Nat.mod_lt _ (by decide)

theorem byteof_key (x : RMElement) {y : ℕ} (hy : y < 4) :
    byteof x y = x.key.toNat / 256 ^ y % 256 := by
  have hkey := x.key.toNat_lt
  unfold byteof raw
  interval_cases y <;> omega

theorem foldl_tally (offset : ℕ) (xs : List RMElement) (count : ℕ → ℕ) (d : ℕ) :
    xs.foldl (tally offset) count d = count d + (xs.filter (byteof · offset = d)).length := by
  induction xs generalizing count with
  | nil => rfl
  | cons x xs ih =>
    rw [List.foldl_cons, ih, tally, List.filter_cons]
    by_cases hd : byteof x offset = d
    · subst hd
      simp
      omega
    · rw [Function.update_of_ne (Ne.symm hd), if_neg (by simpa using hd)]

/-- The second loop turns counts into the sums of the counts in front. -/
theorem sums_eq (count : ℕ → ℕ) (n : ℕ) :
    sums count n = (((List.range n).map count).sum,
      fun d => if d < n then ((List.range d).map count).sum else count d) := by
  induction n with
  | zero => rfl
  | succ n ih =>
    rw [sums, ih]
    refine Prod.ext ?_ (funext fun d => ?_)
    · simp [List.range_succ]
    · by_cases hd : d = n
      · subst hd
        simp
      · simp only [Function.update_of_ne hd]
        by_cases hlt : d < n
        · rw [if_pos hlt, if_pos (by omega)]
        · rw [if_neg hlt, if_neg (by omega)]

/-- **The third loop.** Each block holds what was placed in it, and the rest of its room is as long
as what is still to come. -/
theorem foldlM_place {offset : ℕ} (xs : List RMElement) {placed room : ℕ → List RMElement}
    (hroom : ∀ d < 256, (room d).length = (xs.filter (byteof · offset = d)).length)
    (cells : ℕ → ℕ) (hcells : ∀ d < 256, cells d = cursor placed room d) (post : List RMElement) :
    ∃ cells', xs.foldlM (place offset) (cells, Layout 256 placed room ++ post) =
      .ok (cells', ((List.range 256).flatMap fun d =>
        placed d ++ xs.filter (byteof · offset = d)) ++ post) := by
  induction xs generalizing placed room cells with
  | nil =>
    refine ⟨cells, ?_⟩
    have hempty : Layout 256 placed room =
        (List.range 256).flatMap fun d => placed d ++ ([] : List RMElement) :=
      List.flatMap_congr fun d hd => by
        rw [List.length_eq_zero_iff.mp (hroom d (List.mem_range.mp hd))]
    rw [hempty]
    rfl
  | cons x xs ih =>
    have hd := byteof_lt x offset
    generalize hdig : byteof x offset = d at hd
    have hlen := hroom d hd
    rw [List.filter_cons, if_pos (by simpa using hdig), List.length_cons] at hlen
    obtain ⟨old, rest, hold⟩ := List.exists_cons_of_length_eq_add_one hlen
    -- `x` goes to the first free slot in the block of its digit
    obtain ⟨hbound, hset⟩ := layout_set placed hd hold x
    have hplace : place offset (cells, Layout 256 placed room ++ post) x =
        .ok (Function.update cells d (cells d + 1),
          Layout 256 (Function.update placed d (placed d ++ [x])) (Function.update room d rest) ++
            post) := by
      rw [place, hdig, hcells d hd, writeAt_eq (by rw [List.length_append]; omega), ok_bind,
        List.set_append_left _ _ hbound, hset]
      rfl
    -- that block has one slot less to fill, and one element less to come
    have hroom' : ∀ e < 256, (Function.update room d rest e).length =
        (xs.filter (byteof · offset = e)).length := by
      intro e he
      have hroome := hroom e he
      rw [List.filter_cons] at hroome
      by_cases hed : e = d
      · subst hed
        rw [hold, if_pos (by simpa using hdig)] at hroome
        rw [Function.update_self]
        exact Nat.succ.inj hroome
      · rw [if_neg (by simpa [hdig] using Ne.symm hed)] at hroome
        rw [Function.update_of_ne hed, hroome]
    have hcells' : ∀ e < 256, Function.update cells d (cells d + 1) e =
        cursor (Function.update placed d (placed d ++ [x])) (Function.update room d rest) e := by
      intro e he
      rw [cursor_update hold, hcells d hd]
      by_cases hed : e = d
      · subst hed
        rw [Function.update_self, Function.update_self]
      · rw [Function.update_of_ne hed, Function.update_of_ne hed, hcells e he]
    obtain ⟨cells', hrest⟩ := ih hroom' _ hcells'
    rw [List.foldlM_cons, hplace, ok_bind]
    refine ⟨cells', hrest.trans ?_⟩
    -- what is placed and what is to come are the same list as before, block by block
    congr 3
    refine List.flatMap_congr fun e _ => ?_
    by_cases hed : e = d
    · subst hed
      rw [Function.update_self, List.filter_cons, if_pos (by simpa using hdig), List.append_assoc]
      rfl
    · rw [Function.update_of_ne hed, List.filter_cons, if_neg (by simpa [hdig] using Ne.symm hed)]

/-- One pass of the sort. -/
def passBy (offset : ℕ) (xs : List RMElement) : List RMElement :=
  pass (byteof · offset) 256 xs

theorem passBy_perm (offset : ℕ) (xs : List RMElement) : (passBy offset xs).Perm xs :=
  pass_perm fun x _ => byteof_lt x offset

/-- **`radix_sort` is a stable pass by one byte.** -/
theorem radixSort_eq (offset : ℕ) {max : ℕ} {source dest : List RMElement}
    (hsource : max ≤ source.length) (hdest : max ≤ dest.length) :
    radixSort offset max source dest =
      .ok (passBy offset (source.take max) ++ dest.drop max) := by
  let xs := source.take max
  let size : ℕ → ℕ := fun d => (xs.filter (byteof · offset = d)).length
  have hcount : xs.foldl (tally offset) (fun _ => 0) = size := by
    funext d
    rw [foldl_tally, Nat.zero_add]
  have htotal : (dest.take max).length = ((List.range 256).map size).sum := by
    have hpass := (passBy_perm offset xs).length_eq
    rw [passBy, CountingSort.pass, List.length_flatMap] at hpass
    rw [hpass, List.length_take, List.length_take]
    omega
  obtain ⟨room, hroom, hlayout⟩ := exists_layout 256 size htotal
  -- the running sums are where the groups of the layout begin
  have hcursor : ∀ d < 256, (sums size 256).2 d = cursor (fun _ => []) room d := by
    intro d hd
    rw [sums_eq, cursor, Layout, List.length_flatMap]
    simp only [if_pos hd, List.nil_append, List.length_nil, Nat.add_zero]
    congr 1
    refine List.map_congr_left fun e he => (hroom e ?_).symm
    exact (List.mem_range.mp he).trans hd
  obtain ⟨cells, hfill⟩ := foldlM_place xs hroom (sums size 256).2 hcursor (dest.drop max)
  rw [← hlayout, List.take_append_drop] at hfill
  rw [radixSort, if_pos hsource]
  change (do
    let r ← xs.foldlM (place offset) ((sums (xs.foldl (tally offset) fun _ => 0) 256).2, dest)
    pure r.2 : Except Fault (List RMElement)) = _
  rw [hcount, hfill]
  rfl

/-! ## Four passes

The passes go from the least significant byte to the most significant one. Each keeps the order of the
passes before it among elements that agree in its own byte. -/

/-- Sorted by key. -/
def Sorted (xs : List RMElement) : Prop :=
  xs.Pairwise fun x y => x.key ≤ y.key

/-- What the four passes leave. -/
def sorted (xs : List RMElement) : List RMElement :=
  passBy 3 (passBy 2 (passBy 1 (passBy 0 xs)))

theorem sorted_perm (xs : List RMElement) : (sorted xs).Perm xs :=
  (passBy_perm 3 _).trans <| (passBy_perm 2 _).trans <| (passBy_perm 1 _).trans (passBy_perm 0 xs)

theorem passBy_pairwise {xs : List RMElement} {k : ℕ} (hk : k < 4)
    (h : xs.Pairwise fun x y => x.key.toNat % 256 ^ k ≤ y.key.toNat % 256 ^ k) :
    (passBy k xs).Pairwise
      fun x y => x.key.toNat % 256 ^ (k + 1) ≤ y.key.toNat % 256 ^ (k + 1) := by
  have hbyte : (byteof · k) = fun x : RMElement => x.key.toNat / 256 ^ k % 256 :=
    funext fun x => byteof_key x hk
  rw [passBy, hbyte]
  exact pairwise_mod_pow (by decide) h

/-- **The four bytes of the key are enough.** -/
theorem sorted_sorted (xs : List RMElement) : Sorted (sorted xs) := by
  have h0 : xs.Pairwise fun x y => x.key.toNat % 256 ^ 0 ≤ y.key.toNat % 256 ^ 0 :=
    List.Pairwise.imp (fun _ => by simp [Nat.mod_one]) (List.pairwise_of_forall fun _ _ => trivial)
  have h4 := passBy_pairwise (k := 3) (by decide) <| passBy_pairwise (k := 2) (by decide) <|
    passBy_pairwise (k := 1) (by decide) <| passBy_pairwise (k := 0) (by decide) h0
  refine h4.imp fun {x y} hxy => UInt32.le_iff_toNat_le.mpr ?_
  have hpow : 256 ^ (3 + 1) = 2 ^ 32 := by norm_num
  rwa [hpow, Nat.mod_eq_of_lt x.key.toNat_lt, Nat.mod_eq_of_lt y.key.toNat_lt] at hxy

/-! ## Sorting from an index on

What is in front of the index is not moved. The invariant of a map says how long its two arrays are and
how many of their elements are in use. -/

/-- What the arrays of a radix map keep. -/
structure Valid (m : RadixMap) : Prop where
  contents : m.contents.length = m.max
  temp : m.temp.length = m.max
  end_le : m.end ≤ m.max

/-- The elements in use. -/
def live (m : RadixMap) : List RMElement :=
  m.contents.take m.end

theorem Valid.length_live {m : RadixMap} (h : Valid m) : m.live.length = m.end := by
  rw [live, List.length_take, h.contents]
  exact Nat.min_eq_left h.end_le

theorem radixSort_append (offset : ℕ) {max : ℕ} {xs ys : List RMElement} (hxs : xs.length = max)
    (hys : ys.length = max) (p q : List RMElement) :
    radixSort offset max (xs ++ p) (ys ++ q) = .ok (passBy offset xs ++ q) := by
  rw [radixSort_eq offset (by rw [List.length_append]; omega) (by rw [List.length_append]; omega),
    List.take_left' hxs, List.drop_left' hys]

/-- **`RadixMap_sort` from an index on.** -/
theorem sort_contents {m : RadixMap} (h : Valid m) (hsize : m.end < 2 ^ 64) {start : ℕ}
    (hstart : start ≤ m.end) :
    ∃ m', m.sort start = .ok m' ∧ Valid m' ∧ m'.max = m.max ∧ m'.end = m.end ∧
      m'.contents = m.contents.take start ++ (sorted (m.live.drop start) ++ m.contents.drop m.end) := by
  obtain ⟨hcontents, htemp, hend⟩ := h
  let xs := m.live.drop start
  let ys := (m.temp.drop start).take (m.end - start)
  let p := m.contents.drop m.end
  let q := (m.temp.drop start).drop (m.end - start)
  have hn : toSize ((m.end : ℤ) - start) = m.end - start := by
    rw [toSize, ← Nat.cast_sub hstart, Int.emod_eq_of_lt (by omega) (by omega), Int.toNat_natCast]
  have hxs : xs.length = m.end - start := by
    simp only [xs, live, List.length_drop, List.length_take]
    omega
  have hys : ys.length = m.end - start := by
    simp only [ys, List.length_take, List.length_drop]
    omega
  have hsource : m.contents.drop start = xs ++ p := by
    simp only [xs, live, p]
    rw [List.drop_take, ← Nat.add_sub_of_le hstart, ← List.drop_drop, Nat.add_sub_cancel_left,
      List.take_append_drop]
  have hdest : m.temp.drop start = ys ++ q := (List.take_append_drop _ _).symm
  have hpass : ∀ offset {zs : List RMElement}, zs.length = m.end - start →
      (passBy offset zs).length = m.end - start :=
    fun offset zs hzs => (passBy_perm offset zs).length_eq.trans hzs
  -- after four passes to and fro the result is in `contents`
  have h0 := radixSort_append 0 hxs hys p q
  have h1 := radixSort_append 1 (hpass 0 hxs) hxs q p
  have h2 := radixSort_append 2 (hpass 1 (hpass 0 hxs)) (hpass 0 hxs) p q
  have h3 := radixSort_append 3 (hpass 2 (hpass 1 (hpass 0 hxs))) (hpass 1 (hpass 0 hxs)) q p
  have hsort : m.sort start = .ok { m with
      contents := m.contents.take start ++ (sorted xs ++ p)
      temp := m.temp.take start ++ (passBy 2 (passBy 1 (passBy 0 xs)) ++ q) } := by
    rw [sort, if_pos ⟨Int.natCast_nonneg start, by omega⟩, Int.toNat_natCast, hn]
    simp only [hsource, hdest, h0, h1, h2, h3, ok_bind]
    rfl
  have hsorted : (sorted xs).length = m.end - start := (sorted_perm xs).length_eq.trans hxs
  refine ⟨_, hsort, ⟨?_, ?_, hend⟩, rfl, rfl, rfl⟩
  · simp only [List.length_append, List.length_take, hsorted, p, List.length_drop]
    omega
  · simp only [List.length_append, List.length_take, hpass 2 (hpass 1 (hpass 0 hxs)), q,
      List.length_drop]
    omega

/-- The elements in use, after a sort of those from an index on. -/
theorem take_sorted {m : RadixMap} (h : Valid m) {start : ℕ} (hstart : start ≤ m.end)
    {contents : List RMElement}
    (hcontents : contents =
      m.contents.take start ++ (sorted (m.live.drop start) ++ m.contents.drop m.end)) :
    contents.take m.end = m.contents.take start ++ sorted (m.live.drop start) := by
  have hlength : (m.contents.take start ++ sorted (m.live.drop start)).length = m.end := by
    have hle := h.end_le
    rw [List.length_append, (sorted_perm _).length_eq, List.length_drop, h.length_live,
      List.length_take, h.contents]
    omega
  rw [hcontents, ← List.append_assoc]
  exact List.take_left' hlength

theorem sort_eq {m : RadixMap} (h : Valid m) (hsize : m.end < 2 ^ 64) {start : ℕ}
    (hstart : start ≤ m.end) :
    ∃ m', m.sort start = .ok m' ∧ Valid m' ∧ m'.max = m.max ∧ m'.end = m.end ∧
      m'.live = m.live.take start ++ sorted (m.live.drop start) := by
  obtain ⟨m', hsort, hvalid, hmax, hend, hcontents⟩ := sort_contents h hsize hstart
  refine ⟨m', hsort, hvalid, hmax, hend, ?_⟩
  rw [live, hend, take_sorted h hstart hcontents, live, List.take_take, Nat.min_eq_left hstart]

/-! ## Stability

A stable sort keeps the elements of each key in their order, and there is only one result with that
property. So it does not matter how much of a sorted array is sorted once more. -/

theorem filter_passBy {offset : ℕ} (hoffset : offset < 4) (key : UInt32) (xs : List RMElement) :
    (passBy offset xs).filter (·.key = key) = xs.filter (·.key = key) := by
  have hdigit : ∀ x : RMElement, decide (x.key = key) = true →
      byteof x offset = key.toNat / 256 ^ offset % 256 := by
    intro x hx
    rw [byteof_key x hoffset, of_decide_eq_true hx]
  rw [passBy, CountingSort.filter_pass hdigit, if_pos (Nat.mod_lt _ (by decide))]

/-- In order of the keys, with the elements of each key in the order they had. -/
structure StablySorts (xs ys : List RMElement) : Prop where
  perm : ys.Perm xs
  sorted : Sorted ys
  stable : ∀ key, ys.filter (·.key = key) = xs.filter (·.key = key)

theorem sorted_stable (xs : List RMElement) : StablySorts xs (sorted xs) where
  perm := sorted_perm xs
  sorted := sorted_sorted xs
  stable key := by
    rw [RadixMap.sorted, filter_passBy (by decide), filter_passBy (by decide),
      filter_passBy (by decide), filter_passBy (by decide)]

/-- **`RadixMap_sort` is a stable sort of a suffix**, and changes nothing else in use. -/
theorem sort_stable {m : RadixMap} (h : Valid m) (hsize : m.end < 2 ^ 64) {key_start : ℤ}
    (hnonneg : 0 ≤ key_start) (hle : key_start ≤ m.end) :
    ∃ m', m.sort key_start = .ok m' ∧
      StablySorts (m.live.drop key_start.toNat) (m'.live.drop key_start.toNat) ∧
      m'.contents.take key_start.toNat = m.contents.take key_start.toNat ∧
      m'.contents.drop m.end = m.contents.drop m.end ∧ m'.end = m.end ∧ m'.max = m.max := by
  obtain ⟨start, rfl⟩ := Int.eq_ofNat_of_zero_le hnonneg
  have hstart : start ≤ m.end := by omega
  obtain ⟨m', hsort, -, hmax, hend, hcontents⟩ := sort_contents h hsize hstart
  have hle := h.end_le
  have hlength : (m.contents.take start).length = start := by
    rw [List.length_take, h.contents]
    omega
  have hlive : m'.live.drop start = sorted (m.live.drop start) := by
    rw [live, hend, take_sorted h hstart hcontents]
    exact List.drop_left' hlength
  -- what is behind the elements in use is not touched
  have hsorted : (m.contents.take start ++ sorted (m.live.drop start)).length = m.end := by
    rw [List.length_append, (sorted_perm _).length_eq, List.length_drop, h.length_live, hlength]
    omega
  refine ⟨m', hsort, ?_, ?_, ?_, hend, hmax⟩
  · rw [Int.toNat_natCast, hlive]
    exact sorted_stable _
  · rw [Int.toNat_natCast, hcontents]
    exact List.take_left' hlength
  · rw [hcontents, ← List.append_assoc]
    exact List.drop_left' hsorted

theorem sort_stable_two :
    ∃ m', sort ⟨3, 3, [⟨9, 0⟩, ⟨7, 1⟩, ⟨3, 2⟩], [⟨0, 0⟩, ⟨0, 0⟩, ⟨0, 0⟩]⟩ 1 = .ok m' ∧
      StablySorts [⟨7, 1⟩, ⟨3, 2⟩] (m'.live.drop 1) ∧ m'.contents.take 1 = [⟨9, 0⟩] ∧
      m'.contents.drop 3 = [] ∧ m'.end = 3 ∧ m'.max = 3 := by
  let m : RadixMap := {
    max := 3
    «end» := 3
    contents := [⟨9, 0⟩, ⟨7, 1⟩, ⟨3, 2⟩]
    temp := [⟨0, 0⟩, ⟨0, 0⟩, ⟨0, 0⟩] }
  have hvalid : Valid m := ⟨rfl, rfl, le_rfl⟩
  exact sort_stable hvalid (by decide) (by decide) (by decide)

end Lcthw.RadixMap
