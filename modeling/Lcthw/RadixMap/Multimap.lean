import Lcthw.RadixMap.Search
import Lcthw.Run

/-!
# Lcthw — the radix map as a sorted multimap

* **`add_cases`**, **`delete_eq`**: what one add and one delete do to the elements in use.
* **`Ledger`**: a radix map together with the elements that its history has left in it, and a
  record of its calls.
* **`multimap_iff_in_range`**: a run keeps the map sorted, holds what its history says and
  answers every call exactly as long as no bisection of an add overflows.
-/

namespace Lcthw.RadixMap

/-! ## Adding

The bisection gives a place such that nothing in front of it has a larger key. The element is put at the
end and everything from the place on is sorted, so it is all in order again. -/

/-- What is in front of a place has no larger key than what is behind it, the new element
included. -/
theorem Place.le {xs : List RMElement} (hs : Sorted xs) {x : RMElement} {p : ℕ}
    (hp : Place xs x.key p) {a b : RMElement} (ha : a ∈ xs.take p)
    (hb : b ∈ xs.drop p ++ [x]) : a.key ≤ b.key := by
  rcases hp with rfl | ⟨y, hy, hyx⟩
  · simp at ha
  · obtain ⟨i, hi⟩ := List.getElem?_of_mem ha
    rw [List.getElem?_take] at hi
    split at hi
    · next hip =>
      have hay := hs.le hip.le hi hy
      rw [UInt32.le_iff_toNat_le] at hyx ⊢
      rcases List.mem_append.mp hb with hb | hb
      · obtain ⟨j, hj⟩ := List.getElem?_of_mem hb
        rw [List.getElem?_drop] at hj
        have hyb := hs.le (Nat.le_add_right p j) hy hj
        omega
      · obtain rfl := List.mem_singleton.mp hb
        omega
    · cases hi

theorem sorted_place {xs : List RMElement} (hs : Sorted xs) {x : RMElement} {p : ℕ}
    (hp : Place xs x.key p) : Sorted (xs.take p ++ sorted (xs.drop p ++ [x])) := by
  refine List.pairwise_append.mpr ⟨hs.sublist (List.take_sublist p xs), sorted_sorted _, ?_⟩
  intro a ha b hb
  exact hp.le hs ha ((sorted_perm _).subset hb)

/-- The map with one more element in use, which holds `key` and `value`. -/
def append (m : RadixMap) (key value : UInt32) : RadixMap :=
  { m with contents := m.contents.set m.end ⟨key, value⟩, «end» := m.end + 1 }

section Append

variable {m : RadixMap} {key value : UInt32}

theorem Valid.append (h : Valid m) (hroom : m.end < m.max) : Valid (m.append key value) :=
  ⟨by rw [RadixMap.append, List.length_set, h.contents], h.temp, hroom⟩

theorem Valid.live_append (h : Valid m) (hroom : m.end < m.max) :
    (m.append key value).live = m.live ++ [⟨key, value⟩] := by
  have hbound : m.end < m.contents.length := by
    rw [h.contents]
    exact hroom
  rw [live, live, RadixMap.append, List.take_add_one, List.take_set_of_le le_rfl,
    List.getElem?_set_self hbound]
  rfl

/-- **An add appends the element, looks for a place and sorts from there on.** -/
theorem add_eq (h : Valid m) (hroom : m.end < m.max) (hkey : key < UINT32_MAX) :
    m.add key value = (do
      let sortkey ← bisect (m.append key value).contents key 0 (toInt m.end) 0
      let m ← (m.append key value).sort sortkey
      pure (0, m)) := by
  have hbound : m.end < m.contents.length := by
    rw [h.contents]
    exact hroom
  have hlast : ((m.end + 1 : ℕ) : ℤ) - 1 = m.end := by
    push_cast
    ring
  rw [add, if_pos hkey, writeAt_eq hbound, ok_bind]
  simp only [hlast]
  rfl

theorem toInt_le {x : ℤ} (hx : 0 ≤ x) : toInt x ≤ x := by
  rw [toInt, Int.bmod_def]
  split <;> omega

/-- The bisection of an add stays in range. It goes through as many elements as an `int` made from
their number says. -/
def Divides (m : RadixMap) (key : UInt32) : Prop :=
  -INT_MAX - 1 < toInt m.end ∧ Bisectable (m.live.take (toInt m.end).toNat) key

/-- For an `int` that are all elements in use. -/
theorem divides_iff (h : Valid m) (hsize : (m.end : ℤ) ≤ INT_MAX) :
    Divides m key ↔ Bisectable m.live key := by
  have hmax : INT_MAX = 2 ^ 31 - 1 := rfl
  unfold Divides
  rw [toInt_eq (by omega) hsize, Int.toNat_natCast, List.take_of_length_le h.length_live.le]
  exact and_iff_right (by omega)

/-- **The bisection of an add** comes to a place for the key, or overflows. -/
theorem add_bisects (h : Valid m) (hs : Sorted m.live) (hroom : m.end < m.max)
    (hkey : key < UINT32_MAX) (value : UInt32) :
    (Divides m key ∧ ∃ p : ℕ, p ≤ m.end ∧ Place m.live key p ∧
      m.add key value = (do
        let m ← (m.append key value).sort p
        pure (0, m))) ∨
    (¬ Divides m key ∧ m.add key value = .error .intOverflow) := by
  have hint : INT_MAX = 2 ^ 31 - 1 := rfl
  rw [add_eq h hroom hkey]
  have hlow : -INT_MAX - 1 ≤ toInt m.end := by
    have hbmod := Int.le_bmod (x := (m.end : ℤ)) (m := 2 ^ 32) (by decide)
    unfold toInt
    omega
  have hle := toInt_le (Int.natCast_nonneg m.end)
  rcases hlow.eq_or_lt with hmin | hmin
  · -- the least `int`, of which 1 cannot be taken
    refine Or.inr ⟨fun hdivides => hdivides.1.ne hmin, ?_⟩
    rw [bisect, if_pos (by omega)]
    rfl
  -- the elements in front, which are all of them unless an `int` is too small for their number
  obtain ⟨n, hn⟩ : ∃ n, n = (toInt m.end).toNat := ⟨_, rfl⟩
  have hlength : (m.live.take n).length = n := by
    rw [List.length_take, h.length_live]
    omega
  have hload : ∀ (i : ℕ) y, (m.live.take n)[i]? = some y →
      readAt (m.append key value).contents i = .ok y := by
    intro i y hy
    have hi := (List.getElem?_eq_some_iff.mp hy).1
    rw [List.getElem?_take_of_lt (by omega)] at hy
    have hi' := (List.getElem?_eq_some_iff.mp hy).1
    apply readAt_live
    rw [h.live_append hroom, List.getElem?_append_left hi', hy]
  have henc : Encloses (m.live.take n) key 0 n := ⟨Or.inl rfl, Or.inl hlength.symm⟩
  have hstart : bisect (m.append key value).contents key 0 (toInt m.end) 0 =
      bisect (m.append key value).contents key 0 n 0 := by
    rcases le_or_gt 0 (toInt m.end) with hpos | hneg
    · rw [hn, Int.toNat_of_nonneg hpos]
    · rw [bisect_done _ key 0 hmin (by omega), bisect_done _ key 0 (by omega) (by omega)]
  have hbisect := bisect_cases (hs.sublist (List.take_sublist n _)) hload (Nat.zero_le n) hlength.ge
    henc (s := 0) fun _ => rfl
  rw [hstart]
  unfold Divides
  rw [← hn]
  rcases hbisect with ⟨⟨p, hp, hplace⟩, hall⟩ | ⟨herr, b, e, hbe, hlt, henc, hbig⟩
  · have hplace' : Place m.live key p := by
      refine hplace.imp_right ?_
      rintro ⟨y, hy, hle⟩
      refine ⟨y, ?_, hle⟩
      have hi := (List.getElem?_eq_some_iff.mp hy).1
      rwa [List.getElem?_take_of_lt (by omega)] at hy
    refine Or.inl ⟨⟨hmin, fun b e => hlength.symm ▸ hall b e⟩, p, ?_, hplace', ?_⟩
    · rcases hplace' with rfl | ⟨y, hy, -⟩
      · exact Nat.zero_le _
      · rw [← h.length_live]
        exact (List.getElem?_eq_some_iff.mp hy).1.le
    · rw [Nat.cast_zero] at hp
      rw [hp, ok_bind]
  · refine Or.inr ⟨fun hall => ?_, ?_⟩
    · have hsmall := hall.2 b e (by rwa [hlength]) hlt henc
      omega
    · rw [Nat.cast_zero] at herr
      rw [herr]
      rfl

end Append

/-- **One add.** -/
theorem add_cases {m : RadixMap} (h : Valid m) (hs : Sorted m.live) (hroom : m.end < m.max)
    (hsize : m.end + 1 < 2 ^ 64) {key : UInt32} (hkey : key < UINT32_MAX) (value : UInt32) :
    (Divides m key ∧ ∃ m', m.add key value = .ok (0, m') ∧ Valid m' ∧ m'.max = m.max ∧
      m'.end = m.end + 1 ∧ Sorted m'.live ∧ m'.live.Perm (⟨key, value⟩ :: m.live)) ∨
    (¬ Divides m key ∧ m.add key value = .error .intOverflow) := by
  rcases add_bisects h hs hroom hkey value with ⟨hb, p, hp, hplace, hadd⟩ | hover
  · -- only what comes behind the place is sorted
    obtain ⟨m', hsort, hvalid', hmax', hend', hlive'⟩ :=
      sort_eq (h.append hroom) hsize (show p ≤ m.end + 1 by omega)
    have hdrop : p ≤ m.live.length := by rwa [h.length_live]
    rw [h.live_append hroom, List.take_append_of_le_length hdrop,
      List.drop_append_of_le_length hdrop] at hlive'
    refine Or.inl ⟨hb, m', ?_, hvalid', hmax', hend', ?_, ?_⟩
    · rw [hadd, hsort]
      rfl
    · rw [hlive']
      exact sorted_place hs hplace
    · rw [hlive']
      calc m.live.take p ++ sorted (m.live.drop p ++ [⟨key, value⟩])
        _ |>.Perm (m.live.take p ++ (m.live.drop p ++ [⟨key, value⟩])) :=
          (sorted_perm _).append_left _
        _ |>.Perm (⟨key, value⟩ :: m.live) := by
          rw [← List.append_assoc, List.take_append_drop]
          exact List.perm_append_singleton _ m.live
  · exact Or.inr hover

/-! ## Deleting

A delete gives its element the largest key of all, which no add accepts, sorts the array, and takes the
last element out of use. So the last element is the one that was given, also when others had its key. -/

/-- A sorted list whose largest key is the key of one element ends with that element. -/
theorem dropLast_sorted {xs : List RMElement} {y : RMElement} (hy : y.key = UINT32_MAX)
    (hxs : ∀ x ∈ xs, x.key < UINT32_MAX) {zs : List RMElement} (hs : Sorted zs)
    (hperm : zs.Perm (y :: xs)) : zs.dropLast.Perm xs := by
  have hne : zs ≠ [] := by
    rintro rfl
    exact absurd hperm.length_eq (by simp)
  have hsplit : zs.dropLast ++ [zs.getLast hne] = zs := List.dropLast_append_getLast hne
  have hyzs : y ∈ zs := hperm.symm.subset List.mem_cons_self
  have hlast : zs.getLast hne = y := by
    rw [← hsplit] at hyzs hs
    rcases List.mem_append.mp hyzs with hin | hin
    · rcases List.mem_cons.mp (hperm.subset (List.getLast_mem hne)) with heq | hmem
      · exact heq
      · -- an element with a smaller key behind `y`
        have hle := (List.pairwise_append.mp hs).2.2 y hin _ (List.mem_singleton_self _)
        have hlt := hxs _ hmem
        rw [hy, UInt32.le_iff_toNat_le] at hle
        rw [UInt32.lt_iff_toNat_lt] at hlt
        omega
    · exact (List.mem_singleton.mp hin).symm
  rw [← hsplit, hlast] at hperm
  exact (((List.perm_append_singleton y _).symm.trans hperm).cons_inv)

/-- The map with one element marked to be the last. -/
def mark (m : RadixMap) (i : ℕ) (x : RMElement) : RadixMap :=
  { m with contents := m.contents.set i { x with key := UINT32_MAX } }

/-- The map with one element less in use. -/
def shorten (m : RadixMap) : RadixMap :=
  { m with «end» := m.end - 1 }

theorem Valid.mark {m : RadixMap} (h : Valid m) (i : ℕ) (x : RMElement) : Valid (m.mark i x) :=
  ⟨by rw [RadixMap.mark, List.length_set, h.contents], h.temp, h.end_le⟩

theorem live_mark (m : RadixMap) (i : ℕ) (x : RMElement) :
    (m.mark i x).live = m.live.set i { x with key := UINT32_MAX } := by
  rw [live, live, mark, List.take_set]

theorem Valid.shorten {m : RadixMap} (h : Valid m) : Valid m.shorten :=
  ⟨h.contents, h.temp, (Nat.sub_le _ _).trans h.end_le⟩

theorem Valid.live_shorten {m : RadixMap} (h : Valid m) : m.shorten.live = m.live.dropLast := by
  rw [List.dropLast_eq_take, h.length_live, live, live, List.take_take, RadixMap.shorten]
  simp only []
  rw [Nat.min_eq_left (Nat.sub_le _ _)]

/-- **A delete marks the element, sorts and takes one element out of use.** -/
theorem delete_at {m : RadixMap} (hpos : m.end > 0) {i : ℕ} {x : RMElement}
    (hx : m.contents[i]? = some x) :
    m.delete (some i) =
      (if m.end > 1 then (m.mark i x).sort 0 else pure (m.mark i x)) >>= fun m =>
        pure (0, m.shorten) := by
  have hbound : i < m.contents.length := (List.getElem?_eq_some_iff.mp hx).1
  rw [delete, if_pos hpos]
  simp only [readAt_eq hx, ok_bind, writeAt_eq hbound]
  by_cases hend : m.end > 1
  · rw [if_pos hend, if_pos hend]
    rfl
  · rw [if_neg hend, if_neg hend]
    rfl

theorem delete_null (m : RadixMap) : m.delete none = .ok (-1, m) := by
  unfold delete
  split <;> rfl

theorem delete_empty {m : RadixMap} (hempty : ¬ m.end > 0) (el : Option ℤ) :
    m.delete el = .ok (-1, m) := by
  unfold delete
  exact if_neg hempty

/-- **One delete.** -/
theorem delete_eq {m : RadixMap} (h : Valid m) (hkeys : ∀ x ∈ m.live, x.key < UINT32_MAX)
    (hsize : (m.end : ℤ) ≤ INT_MAX) {i : ℕ} {x : RMElement}
    (hx : m.live[i]? = some x) :
    ∃ m', m.delete (some i) = .ok (0, m') ∧ Valid m' ∧ m'.max = m.max ∧ m'.end + 1 = m.end ∧
      Sorted m'.live ∧ m.live.Perm (x :: m'.live) := by
  have hmax : INT_MAX = 2 ^ 31 - 1 := rfl
  obtain ⟨hi, hget⟩ := List.getElem?_eq_some_iff.mp hx
  have hiend : i < m.end := by rwa [h.length_live] at hi
  have hcontents : m.contents[i]? = some x := by
    rwa [live, List.getElem?_take_of_lt hiend] at hx
  have hrest : ∀ z ∈ m.live.eraseIdx i, z.key < UINT32_MAX :=
    fun z hz => hkeys z (List.mem_of_mem_eraseIdx hz)
  have hperm : m.live.Perm (x :: m.live.eraseIdx i) := by
    rw [← hget]
    exact (List.getElem_cons_eraseIdx_perm hi).symm
  -- the map that the last step shortens by one element
  have hsorted : ∃ m₂, (if m.end > 1 then (m.mark i x).sort 0 else pure (m.mark i x)) = .ok m₂ ∧
      Valid m₂ ∧ m₂.max = m.max ∧ m₂.end = m.end ∧ Sorted m₂.live.dropLast ∧
      m₂.live.dropLast.Perm (m.live.eraseIdx i) := by
    by_cases hend : m.end > 1
    · obtain ⟨m₂, hsort, hvalid₂, hmax₂, hend₂, hlive₂⟩ :=
        sort_eq (h.mark i x) (show m.end < 2 ^ 64 by omega) (Nat.zero_le _)
      rw [List.take_zero, List.nil_append, List.drop_zero, live_mark] at hlive₂
      have hs₂ : Sorted m₂.live := hlive₂ ▸ sorted_sorted _
      refine ⟨m₂, ?_, hvalid₂, hmax₂, hend₂, hs₂.sublist (List.dropLast_sublist _), ?_⟩
      · rw [if_pos hend]
        exact hsort
      · apply dropLast_sorted (y := { x with key := UINT32_MAX }) rfl hrest hs₂
        rw [hlive₂]
        exact (sorted_perm _).trans (List.set_perm_cons_eraseIdx hi _)
    · have hone : m.live.length = 1 := by
        rw [h.length_live]
        omega
      obtain ⟨z, hz⟩ := List.length_eq_one_iff.mp hone
      have hi0 : i = 0 := by omega
      refine ⟨m.mark i x, if_neg hend, h.mark i x, rfl, rfl, ?_⟩
      rw [live_mark, hz, hi0]
      exact ⟨List.Pairwise.nil, List.Perm.refl _⟩
  obtain ⟨m₂, hm₂, hvalid₂, hmax₂, hend₂, hs₂, hperm₂⟩ := hsorted
  have hend : m₂.shorten.end + 1 = m.end := by
    show m₂.end - 1 + 1 = m.end
    omega
  refine ⟨m₂.shorten, ?_, hvalid₂.shorten, hmax₂, hend, ?_, ?_⟩
  · rw [delete_at (by omega) hcontents, hm₂]
    rfl
  · rw [hvalid₂.live_shorten]
    exact hs₂
  · rw [hvalid₂.live_shorten]
    exact hperm.trans (hperm₂.symm.cons x)

/-! ## Runs

The ledger has the map together with the elements that its history should have left in it. Each step
keeps the two in agreement unless the bisection of an add overflows, and this depends on the map before
the step alone. -/

/-- The calls of a run. A delete is handed the pointer that a find has just returned. -/
inductive Op where
  | add (key value : UInt32)
  | find (key : UInt32)
  | delete (key : UInt32)

/-- What a call returns. -/
inductive Outcome where
  | added (rc : ℤ)
  | found (el : Option ℤ)
  | deleted (el : Option ℤ) (rc : ℤ)

def exec (m : RadixMap) : Op → Except Fault (RadixMap × Outcome)
  | .add key value => do
      let (rc, m) ← m.add key value
      pure (m, .added rc)
  | .find key => do
      let el ← m.find key
      pure (m, .found el)
  | .delete key => do
      let el ← m.find key
      let (rc, m) ← m.delete el
      pure (m, .deleted el rc)

/-- A pointer to an element in use with this key, or NULL if there is none. -/
def Finds (m : RadixMap) (key : UInt32) : Option ℤ → Prop
  | some i => 0 ≤ i ∧ ∃ x, m.live[i.toNat]? = some x ∧ x.key = key
  | none => ∀ x ∈ m.live, x.key ≠ key

/-- One call of a run. -/
structure Call where
  before : RadixMap
  op : Op
  outcome : Outcome
  after : RadixMap

/-- A call is answered as a multimap answers it. -/
def Call.Right (c : Call) : Prop :=
  match c.op, c.outcome with
  | .add key _, .added rc => if key = UINT32_MAX then rc = -1 ∧ c.after = c.before else rc = 0
  | .find key, .found el => Finds c.before key el ∧ c.after = c.before
  | .delete key, .deleted el rc =>
      Finds c.before key el ∧ if el = none then rc = -1 ∧ c.after = c.before else rc = 0
  | _, _ => False

/-- A radix map, the elements added and not deleted, and the calls so far. -/
structure Ledger where
  map : RadixMap
  bag : Multiset RMElement
  calls : List Call

namespace Ledger

def init (max : ℕ) : Ledger :=
  { map := create max, bag := 0, calls := [] }

/-- What a call adds to the elements or takes from them: a delete takes the element its pointer
designates. -/
def book (m : RadixMap) (bag : Multiset RMElement) : Op → Outcome → Multiset RMElement
  | .add key value, _ => if key = UINT32_MAX then bag else ⟨key, value⟩ ::ₘ bag
  | .delete _, .deleted (some i) _ =>
      match m.contents[i.toNat]? with
      | some x => bag.erase x
      | none => bag
  | _, _ => bag

/-- The ledger after a call that leaves `map` and returns `outcome`. -/
def after (t : Ledger) (op : Op) (map : RadixMap) (outcome : Outcome) : Ledger :=
  { map
    bag := book t.map t.bag op outcome
    calls := t.calls ++ [{ before := t.map, op, outcome, after := map }] }

def step (t : Ledger) (op : Op) : Except Fault Ledger := do
  let (map, outcome) ← t.map.exec op
  pure (t.after op map outcome)

/-- The map is sorted, holds what its history says, and has answered every call. -/
structure Agrees (t : Ledger) : Prop where
  sorted : Sorted t.map.live
  contents : (t.map.live : Multiset RMElement) = t.bag
  calls : ∀ c ∈ t.calls, c.Right

/-- An add needs room, and the map stays smaller than an `int` can count. -/
def Allowed (t : Ledger) : Op → Prop
  | .add _ _ => t.map.end < t.map.max ∧ t.map.end + 1 < 2 ^ 31
  | .find _ => True
  | .delete _ => True

/-- The bisection of an add stays in range. -/
def InRange (t : Ledger) : Op → Prop
  | .add key _ => key = UINT32_MAX ∨ Bisectable t.map.live key
  | .find _ => True
  | .delete _ => True

/-- What every step of an allowed run keeps. -/
structure Inv (t : Ledger) : Prop where
  valid : Valid t.map
  size : (t.map.end : ℤ) ≤ INT_MAX
  keys : ∀ x ∈ t.map.live, x.key < UINT32_MAX
  agrees : t.Agrees

theorem inv_init (max : ℕ) : (init max).Inv where
  valid := ⟨List.length_replicate, List.length_replicate, Nat.zero_le _⟩
  size := show ((0 : ℕ) : ℤ) ≤ INT_MAX by decide
  keys := by simp [init, create, live]
  agrees := ⟨by simp [init, create, live, Sorted], by simp [init, create, live], by simp [init]⟩

/-- What a call has to leave for the run to go on. -/
theorem Inv.after {t : Ledger} (ht : t.Inv) {op : Op} {m : RadixMap} {outcome : Outcome}
    (hvalid : Valid m) (hsize : (m.end : ℤ) ≤ INT_MAX) (hkeys : ∀ x ∈ m.live, x.key < UINT32_MAX)
    (hs : Sorted m.live) (hbag : (m.live : Multiset RMElement) = book t.map t.bag op outcome)
    (hright : Call.Right { before := t.map, op, outcome, after := m }) :
    (t.after op m outcome).Inv := by
  refine ⟨hvalid, hsize, hkeys, hs, hbag, fun c hc => ?_⟩
  rcases List.mem_append.mp hc with hin | hin
  · exact ht.agrees.calls c hin
  · rw [List.mem_singleton.mp hin]
    exact hright

/-- A call that changes nothing has to be answered right. -/
theorem Inv.same {t : Ledger} (ht : t.Inv) {op : Op} {outcome : Outcome}
    (hbook : book t.map t.bag op outcome = t.bag)
    (hright : Call.Right { before := t.map, op, outcome, after := t.map }) :
    (t.after op t.map outcome).Inv :=
  ht.after ht.valid ht.size ht.keys ht.agrees.sorted (ht.agrees.contents.trans hbook.symm) hright

theorem step_eq {t : Ledger} {op : Op} {m : RadixMap} {outcome : Outcome}
    (h : t.map.exec op = .ok (m, outcome)) : t.step op = .ok (t.after op m outcome) := by
  rw [step, h]
  rfl

theorem key_lt_max {key : UInt32} : key < UINT32_MAX ↔ key ≠ UINT32_MAX := by
  rw [UInt32.lt_iff_toNat_lt, Ne, ← UInt32.toNat_inj]
  have hkey := key.toNat_lt
  have hmax : UINT32_MAX.toNat = 2 ^ 32 - 1 := rfl
  omega

/-- **One add** to the ledger. -/
theorem step_add {t : Ledger} (ht : t.Inv) {key value : UInt32} (hroom : t.map.end < t.map.max)
    (hcount : t.map.end + 1 < 2 ^ 31) :
    (t.InRange (.add key value) ∧ ∃ t', t.step (.add key value) = .ok t' ∧ t'.Inv) ∨
      (¬ t.InRange (.add key value) ∧ t.step (.add key value) = .error .intOverflow) := by
  have hmax : INT_MAX = 2 ^ 31 - 1 := rfl
  -- the greatest key is refused and nothing is added
  by_cases hkey : key = UINT32_MAX
  · have hexec : t.map.exec (.add key value) = .ok (t.map, .added (-1)) := by
      rw [exec, add, if_neg (by rw [key_lt_max]; exact not_not_intro hkey)]
      rfl
    refine Or.inl ⟨Or.inl hkey, _, step_eq hexec, ht.same (if_pos hkey) ?_⟩
    show if key = UINT32_MAX then (-1 : ℤ) = -1 ∧ t.map = t.map else (-1 : ℤ) = 0
    rw [if_pos hkey]
    exact ⟨rfl, rfl⟩
  · rcases add_cases ht.valid ht.agrees.sorted hroom (by omega) (key_lt_max.mpr hkey) value with
      ⟨hb, m', hadd, hvalid', -, hend', hs', hperm⟩ | ⟨hb, hadd⟩
    · have hexec : t.map.exec (.add key value) = .ok (m', .added 0) := by
        rw [exec, hadd]
        rfl
      have hrange := (divides_iff ht.valid ht.size).mp hb
      refine Or.inl ⟨Or.inr hrange, _, step_eq hexec, ht.after hvalid' (by omega) ?_ hs' ?_ ?_⟩
      · intro x hx
        rcases List.mem_cons.mp (hperm.subset hx) with rfl | hx
        · exact key_lt_max.mpr hkey
        · exact ht.keys x hx
      · simp only [book, if_neg hkey, ← ht.agrees.contents]
        exact Multiset.coe_eq_coe.mpr hperm
      · show if key = UINT32_MAX then (0 : ℤ) = -1 ∧ m' = t.map else (0 : ℤ) = 0
        rw [if_neg hkey]
    · rw [divides_iff ht.valid ht.size] at hb
      refine Or.inr ⟨not_or.mpr ⟨hkey, hb⟩, ?_⟩
      rw [step, exec, hadd]
      rfl

/-- **One delete** in the ledger: the element that the find has designated goes. -/
theorem step_delete {t : Ledger} (ht : t.Inv) (key : UInt32) :
    ∃ t', t.step (.delete key) = .ok t' ∧ t'.Inv := by
  rcases find_cases ht.valid ht.agrees.sorted ht.size key with
    ⟨i, x, hfind, hx, hxk⟩ | ⟨hfind, hnone⟩
  · obtain ⟨m', hdelete, hvalid', -, hend', hs', hperm⟩ := delete_eq ht.valid ht.keys ht.size hx
    have hexec : t.map.exec (.delete key) = .ok (m', .deleted (some i) 0) := by
      rw [exec, hfind, ok_bind, hdelete]
      rfl
    have hcontents : t.map.contents[i]? = some x := by
      rw [live, List.getElem?_take] at hx
      split at hx
      · exact hx
      · cases hx
    have hsize := ht.size
    refine ⟨_, step_eq hexec, ht.after hvalid' (by omega) ?_ hs' ?_ ?_⟩
    · exact fun z hz => ht.keys z (hperm.symm.subset (List.mem_cons_of_mem x hz))
    · simp only [book, Int.toNat_natCast, hcontents, ← ht.agrees.contents]
      rw [Multiset.coe_eq_coe.mpr hperm, Multiset.coe_erase, List.erase_cons_head]
    · exact ⟨⟨Int.natCast_nonneg i, x, hx, hxk⟩, rfl⟩
  · have hexec : t.map.exec (.delete key) = .ok (t.map, .deleted none (-1)) := by
      rw [exec, hfind, ok_bind, delete_null]
      rfl
    exact ⟨_, step_eq hexec, ht.same rfl ⟨hnone, rfl, rfl⟩⟩

theorem step_find {t : Ledger} (ht : t.Inv) (key : UInt32) :
    ∃ t', t.step (.find key) = .ok t' ∧ t'.Inv := by
  rcases find_cases ht.valid ht.agrees.sorted ht.size key with
    ⟨i, x, hfind, hx, hxk⟩ | ⟨hfind, hnone⟩
  · have hexec : t.map.exec (.find key) = .ok (t.map, .found (some i)) := by
      rw [exec, hfind]
      rfl
    exact ⟨_, step_eq hexec, ht.same rfl ⟨⟨Int.natCast_nonneg i, x, hx, hxk⟩, rfl⟩⟩
  · have hexec : t.map.exec (.find key) = .ok (t.map, .found none) := by
      rw [exec, hfind]
      rfl
    exact ⟨_, step_eq hexec, ht.same rfl ⟨hnone, rfl⟩⟩

/-- **One call.** An allowed call faults exactly if it is an add whose bisection overflows, and
otherwise keeps everything. -/
theorem step_cases {t : Ledger} (ht : t.Inv) {op : Op} (ha : t.Allowed op) :
    (t.InRange op ∧ ∃ t', t.step op = .ok t' ∧ t'.Inv) ∨
      (¬ t.InRange op ∧ t.step op = .error .intOverflow) := by
  cases op with
  | add key value => exact step_add ht ha.1 ha.2
  | find key => exact Or.inl ⟨trivial, step_find ht key⟩
  | delete key => exact Or.inl ⟨trivial, step_delete ht key⟩

/-- A run agrees with its history exactly as long as its adds stay in range. -/
theorem sustained_iff (max : ℕ) {ops : List Op} (ha : Run.Along step Allowed (init max) ops) :
    Run.Sustained step Agrees (init max) ops ↔ Run.Along step InRange (init max) ops := by
  refine Run.sustained_iff_along (I := Inv) ?_ ?_ (inv_init max) (inv_init max).agrees ha
  · intro t op t' ht hallowed hstep
    rcases step_cases ht hallowed with ⟨-, t'', hstep', ht''⟩ | ⟨-, herr⟩
    · obtain rfl := Except.ok.inj (hstep'.symm.trans hstep)
      exact ht''
    · cases herr.symm.trans hstep
  · intro t op ht _ hallowed
    rcases step_cases ht hallowed with ⟨hin, t', hstep, ht'⟩ | ⟨hout, herr⟩
    · exact iff_of_true ⟨t', hstep, ht'.agrees⟩ hin
    · refine iff_of_false ?_ hout
      rintro ⟨t', hstep, -⟩
      cases herr.symm.trans hstep

end Ledger

/-- **A radix map is a sorted multimap as long as its bisections stay in range.** From any capacity,
over any calls that keep to the room and to what an `int` counts: no call faults, the map stays
sorted, holds the elements added and not deleted and answers every call, exactly when no add
bisects an interval around its key whose ends sum to more than an `int` holds. -/
theorem multimap_iff_in_range (max : ℕ) {ops : List Op}
    (ha : Run.Along Ledger.step Ledger.Allowed (Ledger.init max) ops) :
    Run.Sustained Ledger.step Ledger.Agrees (Ledger.init max) ops ↔
      Run.Along Ledger.step Ledger.InRange (Ledger.init max) ops :=
  Ledger.sustained_iff max ha

theorem multimap_iff_in_range_two :
    Run.Sustained Ledger.step Ledger.Agrees (Ledger.init 2) [.add 5 1, .find 5, .delete 5] ↔
      Run.Along Ledger.step Ledger.InRange (Ledger.init 2) [.add 5 1, .find 5, .delete 5] :=
  multimap_iff_in_range 2 ⟨⟨by decide, by decide⟩, fun _ _ => ⟨trivial, fun _ _ =>
    ⟨trivial, fun _ _ => trivial⟩⟩⟩

/-! ## A run that leaves the range

The condition is not always met. With equal keys the bisection for a larger one goes to the top of the
array every time, and from `2 ^ 30` elements on the two indices do not add up to an `int`. -/

namespace Ledger

/-- An add that ends adds its element and nothing else. -/
theorem step_add_ok {t t' : Ledger} (ht : t.Inv) {key value : UInt32} (hkey : key ≠ UINT32_MAX)
    (ha : t.Allowed (.add key value)) (h : t.step (.add key value) = .ok t') :
    t'.Inv ∧ t'.map.max = t.map.max ∧ t'.map.end = t.map.end + 1 ∧
      t'.map.live.Perm (⟨key, value⟩ :: t.map.live) := by
  have hinv : t'.Inv := by
    rcases step_add ht ha.1 ha.2 with ⟨-, t'', hstep, ht''⟩ | ⟨-, herr⟩
    · obtain rfl := Except.ok.inj (hstep.symm.trans h)
      exact ht''
    · cases herr.symm.trans h
  obtain ⟨⟨m, outcome⟩, hexec, hafter⟩ := bind_eq_ok.mp h
  obtain rfl := Except.ok.inj hafter
  obtain ⟨⟨rc, m'⟩, hadd, hm⟩ := bind_eq_ok.mp hexec
  obtain ⟨rfl, rfl⟩ := Prod.mk.inj (Except.ok.inj hm)
  have hcount : t.map.end + 1 < 2 ^ 64 := ha.2.trans (by decide)
  rcases add_cases ht.valid ht.agrees.sorted ha.1 hcount (key_lt_max.mpr hkey) value with
    ⟨-, m'', hadd', -, hmax', hend', -, hperm⟩ | ⟨-, herr⟩
  · obtain ⟨-, rfl⟩ := Prod.mk.inj (Except.ok.inj (hadd'.symm.trans hadd))
    exact ⟨hinv, hmax', hend', hperm⟩
  · cases herr.symm.trans hadd

/-- Adds that keep to the room are allowed. -/
theorem along_allowed {ops : List Op}
    (hops : ∀ op ∈ ops, ∃ key value, op = .add key value ∧ key ≠ UINT32_MAX) {t : Ledger}
    (ht : t.Inv) (hroom : t.map.end + ops.length ≤ t.map.max)
    (hcount : t.map.end + ops.length < 2 ^ 31) : Run.Along step Allowed t ops := by
  induction ops generalizing t with
  | nil => trivial
  | cons op ops ih =>
    obtain ⟨key, value, rfl, hkey⟩ := hops op List.mem_cons_self
    rw [List.length_cons] at hroom hcount
    have ha : t.Allowed (.add key value) := ⟨by omega, by omega⟩
    refine ⟨ha, fun t' hstep => ?_⟩
    obtain ⟨ht', hmax', hend', -⟩ := step_add_ok ht hkey ha hstep
    exact ih (fun op hop => hops op (List.mem_cons_of_mem _ hop)) ht' (by omega) (by omega)

/-- Halving upwards comes to the last two indices. -/
theorem halves_top {n d : ℕ} (hd : 2 ≤ d) (hdn : d ≤ n) : Halves (n - d, n) (n - 2, n) := by
  induction d using Nat.strong_induction_on with
  | _ d ih =>
    by_cases htwo : d = 2
    · rw [htwo]
    · have hmid : (n - d + n) / 2 = n - (d + 1) / 2 := by omega
      have hstep := Half.high (show n - d + 1 < n by omega)
      rw [hmid] at hstep
      exact Relation.ReflTransGen.head hstep (ih ((d + 1) / 2) (by omega) (by omega) (by omega))

/-- A key above all others is bisected up to the top. -/
theorem length_le_of_bisectable {xs : List RMElement} {key : UInt32}
    (hxs : ∀ x ∈ xs, x.key < key) (hb : Bisectable xs key) : xs.length ≤ 2 ^ 30 := by
  by_cases hlen : 2 ≤ xs.length
  · have hreach := halves_top hlen le_rfl
    rw [Nat.sub_self] at hreach
    obtain ⟨x, hx⟩ : ∃ x, xs[xs.length - 2]? = some x :=
      ⟨_, List.getElem?_eq_getElem (by omega)⟩
    have hle := hb _ _ hreach (by omega)
      ⟨Or.inr ⟨x, hx, hxs x (List.mem_of_getElem? hx)⟩, Or.inl rfl⟩
    have hmax : INT_MAX = 2 ^ 31 - 1 := rfl
    omega
  · omega

/-- Equal keys, and then a larger one. -/
theorem length_le_of_in_range {n : ℕ} {t : Ledger} (ht : t.Inv)
    (hzero : ∀ x ∈ t.map.live, x.key = 0)
    (ha : Run.Along step Allowed t (List.replicate n (Op.add 0 0) ++ [Op.add 1 0]))
    (hr : Run.Along step InRange t (List.replicate n (Op.add 0 0) ++ [Op.add 1 0])) :
    t.map.end + n ≤ 2 ^ 30 := by
  induction n generalizing t with
  | zero =>
    obtain ⟨hin | hin, -⟩ := hr
    · exact absurd hin (by decide)
    · -- the last add has a larger key than all others
      have hlen := length_le_of_bisectable (fun x hx => by rw [hzero x hx]; decide) hin
      rwa [ht.valid.length_live] at hlen
  | succ n ih =>
    rw [List.replicate_succ, List.cons_append] at ha hr
    obtain ⟨ha, hrest⟩ := ha
    obtain ⟨hr, hrange⟩ := hr
    rcases step_add ht ha.1 ha.2 with ⟨-, t', hstep, -⟩ | ⟨hout, -⟩
    · -- one more element with the key 0
      obtain ⟨ht', -, hend', hperm⟩ := step_add_ok ht (by decide) ha hstep
      have hzero' : ∀ x ∈ t'.map.live, x.key = 0 := by
        intro x hx
        rcases List.mem_cons.mp (hperm.subset hx) with rfl | hx
        · rfl
        · exact hzero x hx
      have hle := ih ht' hzero' (hrest t' hstep) (hrange t' hstep)
      omega
    · exact absurd hr hout

/-- **Enough elements with one key** lead out of the range, in a run of adds that the map has room for.
-/
theorem not_sustained {n : ℕ} (hn : 2 ^ 30 < n) (hcount : n + 1 < 2 ^ 31) :
    Run.Along step Allowed (init (n + 1)) (List.replicate n (Op.add 0 0) ++ [Op.add 1 0]) ∧
      ¬ Run.Sustained step Agrees (init (n + 1)) (List.replicate n (Op.add 0 0) ++ [Op.add 1 0]) := by
  have hlength : (List.replicate n (Op.add 0 0) ++ [Op.add 1 0]).length = n + 1 := by
    rw [List.length_append, List.length_replicate, List.length_singleton]
  have ha : Run.Along step Allowed (init (n + 1))
      (List.replicate n (Op.add 0 0) ++ [Op.add 1 0]) := by
    refine along_allowed (fun op hop => ?_) (inv_init _) ?_ ?_
    · rcases List.mem_append.mp hop with hop | hop
      · exact ⟨0, 0, (List.mem_replicate.mp hop).2, by decide⟩
      · exact ⟨1, 0, List.mem_singleton.mp hop, by decide⟩
    · rw [hlength]
      exact (Nat.zero_add _).le
    · rw [hlength]
      exact (Nat.zero_add _).trans_lt hcount
  refine ⟨ha, fun h => ?_⟩
  have hle := length_le_of_in_range (inv_init _) (fun x hx => by cases hx) ha
    ((sustained_iff _ ha).mp h)
  have hend : (init (n + 1)).map.end = 0 := rfl
  omega

end Ledger

/-- With 2 ^ 30 + 1 elements of one key, the add of a larger key sums the last two indices that its
bisection comes to, and the sum is 2 ^ 31. -/
theorem bisection_overflows :
    Run.Along Ledger.step Ledger.Allowed (Ledger.init (2 ^ 30 + 1 + 1))
        (List.replicate (2 ^ 30 + 1) (Op.add 0 0) ++ [Op.add 1 0]) ∧
      ¬ Run.Sustained Ledger.step Ledger.Agrees (Ledger.init (2 ^ 30 + 1 + 1))
        (List.replicate (2 ^ 30 + 1) (Op.add 0 0) ++ [Op.add 1 0]) :=
  Ledger.not_sustained (by norm_num) (by norm_num)

end Lcthw.RadixMap
