import Lcthw.ListAlgos

/-!
# Lcthw — merging lists (`List_merge`, `List_merge_sort`)

Where several lists are in use they are blocks of their own, next to the nodes.

* **`merge_null`**: `check(list1 || list2)` becomes `!list1 || list2`, so that no two lists are merged.
* **`mergeSort_eq`**: the walk that cuts a list into runs has no round in a list of two nodes or
  more, and what comes out is the first run: a list of the first value.
* **`mergeSort_sorts_iff`**: for which lists that is right.
-/

namespace Lcthw.LinkedList

open Chain DArray

variable {V : Type}

/-! ## The code

A list that is a block of its own has the nodes of all lists beside it. The functions of `list.c` are
lifted to such a memory, where they read the block of the list, do what they do on the nodes, and write
the block back. -/

/-- `List` -/
structure ListBlock where
  first : Ptr
  last : Ptr
  count : ℤ

structure Memory (V : Type) where
  nodes : Heap (Node (Option V))
  lists : Heap ListBlock

namespace Memory

/-- The list at `p`, with the nodes of all lists. -/
def list (m : Memory V) (p : Ptr) : Except Fault (DList V) := do
  let b ← m.lists.load p
  pure { heap := m.nodes, first := b.first, last := b.last, count := b.count }

/-- The memory after a change to the list at `p`. -/
def store (m : Memory V) (p : Ptr) (l : DList V) : Except Fault (Memory V) := do
  let lists ← m.lists.modify p fun _ => { first := l.first, last := l.last, count := l.count }
  pure { nodes := l.heap, lists }

/-- `List_create` -/
def create (m : Memory V) : Memory V × Ptr :=
  ({ m with lists := m.lists.alloc { first := none, last := none, count := 0 } }, some m.lists.brk)

/-- `List_push` -/
def push (m : Memory V) (list : Ptr) (value : Option V) : Except Fault (Memory V) :=
  if list = none then pure m
  else do
    let l ← m.list list
    let l ← l.push value
    m.store list l

/-- `List_shift` -/
def shift (m : Memory V) (list : Ptr) : Except Fault (Memory V × Option V) := do
  let l ← m.list list
  let (l, value) ← l.shift
  let m ← m.store list l
  pure (m, value)

/-- `List_merge`. The macro negates the first operand of its check alone. -/
def merge (m : Memory V) (list1 list2 : Ptr) : Except Fault (Memory V × Ptr) :=
  if list1 = none ∨ list2 ≠ none then pure (m, none)
  else do
    let l1 ← m.lists.load list1
    let l2 ← m.lists.load list2
    if l1.first ≠ none ∧ l2.first = none then pure (m, list1)
    else if l1.first = none ∧ l2.first ≠ none then pure (m, list2)
    else if l1.first = none ∧ l2.first = none then pure (m, list1)
    else do
      let nodes ← m.nodes.modify l2.first fun n => { n with prev := l1.last }
      let nodes ← nodes.modify l1.last fun n => { n with next := l2.first }
      let lists ← m.lists.modify list1 fun b => { b with last := l2.last }
      let lists ← lists.free list2
      pure ({ nodes, lists }, list1)

/-- The loop of `merge_and_sort`. -/
def mergeLoop (cmp : Option V → Option V → ℤ) (l1 l2 list_temp : Ptr) :
    ℕ → Memory V → Except Stop (Memory V)
  | 0, _ => .error .outOfFuel
  | fuel + 1, m => do
    let b1 ← m.lists.load l1
    if b1.first = none then pure m
    else do
      let b2 ← m.lists.load l2
      if b2.first = none then pure m
      else do
        let n1 ← m.nodes.load b1.first
        let n2 ← m.nodes.load b2.first
        let (m, val) ← (m.shift (if cmp n1.value n2.value > 0 then l1 else l2)).mapError .fault
        let m ← (m.push list_temp val).mapError .fault
        mergeLoop cmp l1 l2 list_temp fuel m

/-- The end of `merge_and_sort`: what is left of a list goes behind the others. -/
def mergeRest (m : Memory V) (list_temp l : Ptr) : Except Fault (Memory V × Ptr) := do
  let b ← m.lists.load l
  if b.first ≠ none then m.merge list_temp l else pure (m, list_temp)

def mergeAndSort (m : Memory V) (l1 l2 : Ptr) (cmp : Option V → Option V → ℤ) (fuel : ℕ) :
    Except Stop (Memory V × Ptr) :=
  if l1 = none ∧ l2 ≠ none then pure (m, none)
  else do
    let (m, list_temp) := m.create
    let m ← mergeLoop cmp l1 l2 list_temp fuel m
    let (m, list_temp) ← (m.mergeRest list_temp l1).mapError .fault
    (m.mergeRest list_temp l2).mapError .fault

/-- `array[i]`, for an array of lists. An entry that has never been written has no value. -/
def readList (array : List (Option Ptr)) (i : ℤ) : Except Stop Ptr := do
  match ← (readAt array i).mapError .fault with
  | some p => pure p
  | none => .error (.fault .outOfBounds)

/-- The loop of `Merge_sort`, from `i` on: the next `n` entries of `ar1`. -/
def mergePairs (cmp : Option V → Option V → ℤ) (array : List (Option Ptr)) (fuel : ℕ) :
    ℕ → ℤ → Memory V → List (Option Ptr) → Except Stop (Memory V × List (Option Ptr))
  | 0, _, m, ar1 => pure (m, ar1)
  | n + 1, i, m, ar1 => do
    let l1 ← readList array (2 * i)
    let l2 ← readList array (2 * i + 1)
    let (m, p) ← m.mergeAndSort l1 l2 cmp fuel
    let ar1 ← (writeAt ar1 i (some p)).mapError .fault
    mergePairs cmp array fuel n (i + 1) m ar1

/-- `Merge_sort`. An array needs one entry at least. -/
def mergeRuns (cmp : Option V → Option V → ℤ) :
    ℕ → Memory V → List (Option Ptr) → ℤ → Except Stop (Memory V × Ptr)
  | 0, _, _, _ => .error .outOfFuel
  | fuel + 1, m, array, num =>
    if num = 1 then do
      let p ← readList array 0
      pure (m, p)
    else do
      let next ← (int (num + 1)).mapError .fault
      let num1 := next.tdiv 2
      if num1 < 1 then .error (.fault .outOfBounds)
      else do
        let (m, ar1) ← mergePairs cmp array fuel num1.toNat 0 m (List.replicate num1.toNat none)
        mergeRuns cmp fuel m ar1 num1

/-- The variables of the walk in `List_merge_sort`. -/
structure Runs (V : Type) where
  memory : Memory V
  list_array : List (Option Ptr)
  i : ℤ

/-- The body of that walk. -/
def runStep (cmp : Option V → Option V → ℤ) (cur : ℕ) (r : Runs V) : Except Stop (Runs V × Bool) := do
  let n ← r.memory.nodes.load (some cur)
  if n.next = none then pure (r, true)
  else do
    let next ← r.memory.nodes.load n.next
    if cmp n.value next.value > 0 then do
      let run ← readList r.list_array r.i
      let memory ← (r.memory.push run next.value).mapError .fault
      pure ({ r with memory }, false)
    else do
      let i ← (int (r.i + 1)).mapError .fault
      let (memory, run) := r.memory.create
      let list_array ← (writeAt r.list_array i (some run)).mapError .fault
      let memory ← (memory.push run next.value).mapError .fault
      pure ({ memory, list_array, i }, false)

/-- `List_merge_sort` -/
def mergeSort (m : Memory V) (list : Ptr) (cmp : Option V → Option V → ℤ) (fuel : ℕ) :
    Except Stop (Memory V × Ptr) :=
  if list = none then pure (m, none)
  else do
    let l ← m.lists.load list
    if l.count ≤ 1 then pure (m, list)
    else do
      let list_array := List.replicate l.count.toNat (none : Option Ptr)
      let (m, run) := m.create
      let list_array ← (writeAt list_array 0 (some run)).mapError .fault
      let l ← m.lists.load list
      let n ← m.nodes.load l.first
      let m ← (m.push run n.value).mapError .fault
      let l ← m.lists.load list
      let r ← foreach (fun r : Runs V => r.memory.nodes)
        (fun r => do
          let l ← r.memory.lists.load list
          pure l.last)
        Node.next (runStep cmp) fuel l.first { memory := m, list_array, i := 0 }
      let num ← (int (r.i + 1)).mapError .fault
      mergeRuns cmp fuel r.memory r.list_array num

/-! ## Lists in memory

A list in memory is a block and the nodes that it is made of. A change to one list leaves the blocks of
the others, but it may hand out nodes. -/

/-- The list at `p` is made of the nodes `ns`. -/
def HoldsAt (m : Memory V) (p : Ptr) (ns : List (ℕ × Option V)) : Prop :=
  ∃ l, m.list p = .ok l ∧ Holds l ns

variable {m : Memory V} {p : Ptr} {ns : List (ℕ × Option V)}

theorem not_holdsAt_null : ¬ m.HoldsAt none ns := by
  rintro ⟨l, hlist, -⟩
  cases hlist

theorem list_eq {a : ℕ} {b : ListBlock} (hb : m.lists.cells a = some b) :
    m.list (some a) =
      .ok { heap := m.nodes, first := b.first, last := b.last, count := b.count } := by
  rw [list, Heap.load_eq hb]
  rfl

/-- The block of a list. -/
theorem HoldsAt.exists_block (h : m.HoldsAt p ns) :
    ∃ a b, p = some a ∧ m.lists.cells a = some b ∧
      Holds { heap := m.nodes, first := b.first, last := b.last, count := b.count } ns := by
  obtain ⟨l, hlist, hl⟩ := h
  obtain ⟨b, hload, hret⟩ := bind_eq_ok.mp hlist
  obtain ⟨a, rfl, hb⟩ := Heap.of_load hload
  cases hret
  exact ⟨a, b, rfl, hb, hl⟩

/-- A push onto an empty list leaves every other block as it is. -/
theorem push_empty {a : ℕ} (ha : m.lists.cells a = some { first := none, last := none, count := 0 })
    (v : Option V) :
    ∃ m', m.push (some a) v = .ok m' ∧ m'.HoldsAt (some a) [(m.nodes.brk, v)] ∧
      ∀ b, b ≠ a → m'.lists.cells b = m.lists.cells b := by
  have hempty : Holds (V := V) { heap := m.nodes, first := none, last := none, count := 0 } [] :=
    ⟨trivial, rfl, rfl, List.nodup_nil, rfl, show (0 : ℤ) ≤ INT_MAX by decide⟩
  obtain ⟨l, hpush, hl⟩ := push_eq hempty (show (0 : ℤ) < INT_MAX by decide) v
  -- the new node and the changed block
  let f : ListBlock → ListBlock := fun _ => { first := l.first, last := l.last, count := l.count }
  have hstore : m.store (some a) l = .ok { nodes := l.heap, lists := m.lists.put a f } := by
    rw [store, Heap.modify_eq ha]
    rfl
  refine ⟨{ nodes := l.heap, lists := m.lists.put a f }, ?_, ⟨l, ?_, hl⟩, fun b hb => ?_⟩
  · rw [push, if_neg (by simp), list_eq ha, ok_bind, hpush, ok_bind, hstore]
  · exact list_eq (m := { nodes := l.heap, lists := m.lists.put a f }) (Heap.cells_put_self ha)
  · exact Heap.cells_put_of_ne hb

/-! ## `List_merge`

The macro negates only the first operand of the check at its beginning. With two lists that are there
the negated one is 0, the other one is not, and the check stops. -/

/-- **What `List_merge` returns is NULL.** It gets past its check only when `list2` is NULL, which it
then reads. -/
theorem merge_null {m m' : Memory V} {p1 p2 p : Ptr} (h : m.merge p1 p2 = .ok (m', p)) :
    p = none := by
  unfold merge at h
  split at h
  · cases h
    rfl
  · next hpast =>
    -- past the check `list2` is NULL
    obtain ⟨-, hnull⟩ := not_or.mp hpast
    obtain ⟨l1, -, h⟩ := bind_eq_ok.mp h
    obtain ⟨l2, hload, -⟩ := bind_eq_ok.mp h
    rw [not_not.mp hnull] at hload
    cases hload

/-- One list of the values of two, in their order. -/
def Merges (m : Memory V) (list1 list2 : Ptr) (ns ms : List (ℕ × Option V)) : Prop :=
  ∃ m' p ns', m.merge list1 list2 = .ok (m', p) ∧ m'.HoldsAt p ns' ∧
    values ns' = values ns ++ values ms

/-- **`List_merge` merges no lists.** -/
theorem merge_never_merges (m : Memory V) (list1 list2 : Ptr) (ns ms : List (ℕ × Option V)) :
    ¬ Merges m list1 list2 ns ms := by
  rintro ⟨m', p, ns', hmerge, hp, -⟩
  rw [merge_null hmerge] at hp
  exact not_holdsAt_null hp

/-- Two lists of one value each. -/
def twoLists : Memory ℕ where
  nodes := (Heap.empty.alloc { next := none, prev := none, value := some 4 }).alloc
    { next := none, prev := none, value := some 7 }
  lists := (Heap.empty.alloc { first := some 0, last := some 0, count := 1 }).alloc
    { first := some 1, last := some 1, count := 1 }

theorem twoLists_holds :
    twoLists.HoldsAt (some 0) [(0, some 4)] ∧ twoLists.HoldsAt (some 1) [(1, some 7)] :=
  ⟨⟨_, rfl, ⟨rfl, trivial⟩, rfl, rfl, List.nodup_singleton 0, rfl, by decide⟩,
    ⟨_, rfl, ⟨rfl, trivial⟩, rfl, rfl, List.nodup_singleton 1, rfl, by decide⟩⟩

/-- Two lists of one value each are not merged. -/
theorem two_lists_not_merged :
    twoLists.HoldsAt (some 0) [(0, some 4)] ∧ twoLists.HoldsAt (some 1) [(1, some 7)] ∧
      ¬ Merges twoLists (some 0) (some 1) [(0, some 4)] [(1, some 7)] := by
  refine ⟨twoLists_holds.1, twoLists_holds.2, ?_⟩
  rintro ⟨m', p, ns', hmerge, hp, -⟩
  rw [merge_null hmerge] at hp
  exact not_holdsAt_null hp

/-! ## `List_merge_sort`

The walk that is to cut the list into runs is a `LIST_FOREACH`, which stops in a list of two nodes or
more before its first round. One run is left, with the first value alone, and sorting it changes
nothing. -/

/-- `Merge_sort` on one run. -/
theorem mergeRuns_one {array : List (Option Ptr)} (hpos : 0 < array.length) (run : Ptr)
    (cmp : Option V → Option V → ℤ) (fuel : ℕ) (m : Memory V) :
    mergeRuns cmp (fuel + 1) m (array.set 0 (some run)) 1 = .ok (m, run) := by
  have hget : readAt (array.set 0 (some run)) 0 = .ok (some run) :=
    readAt_eq (i := 0) (List.getElem?_set_self hpos)
  rw [mergeRuns, if_pos rfl, readList, hget]
  rfl

/-- The walk that cuts a list into runs starts at its first node and stops, unless that is the last
one. -/
theorem runs_walk {a : ℕ} {b : ListBlock} (hne : b.first ≠ b.last) {r : Runs V}
    (hb : r.memory.lists.cells a = some b) (cmp : Option V → Option V → ℤ) (fuel : ℕ) :
    foreach (fun r : Runs V => r.memory.nodes)
      (fun r => do
        let l ← r.memory.lists.load (some a)
        pure l.last)
      Node.next (runStep cmp) (fuel + 1) b.first r = .ok r := by
  apply foreach_of_ne _ hne
  rw [Heap.load_eq hb]
  rfl

/-- **What is left of two nodes or more** is a list of the first value. -/
theorem mergeSort_eq (h : m.HoldsAt p ns) (hlen : 2 ≤ ns.length) (cmp : Option V → Option V → ℤ)
    (fuel : ℕ) :
    ∃ m' q a v, m.mergeSort p cmp (fuel + 1) = .ok (m', q) ∧ m'.HoldsAt q [(a, v)] ∧
      (values ns).head? = some v := by
  obtain ⟨a, b, rfl, hb, hl⟩ := h.exists_block
  obtain ⟨⟨c, v⟩, ns, rfl⟩ : ∃ n ms, ns = n :: ms := List.exists_cons_of_length_pos (by omega)
  have hcount : b.count = ((c, v) :: ns).length := hl.count_eq
  have hfirst : b.first = some c := hl.first_eq
  have hne : b.first ≠ b.last := (hl.last_ne_first hlen).symm
  -- the first run is a new list, which gets the first value
  have hb₁ := Heap.cells_alloc_of_some (y := (⟨none, none, 0⟩ : ListBlock)) hb
  obtain ⟨m₂, hpush, hrun, hrest⟩ := push_empty (m := m.create.1) (a := m.lists.brk)
    Heap.cells_alloc_self v
  have hb₂ : m₂.lists.cells a = some b := (hrest a (Heap.ne_brk hb)).trans hb₁
  -- and it is the one entry of the array that is written
  obtain ⟨array, harray⟩ : ∃ array, array = List.replicate b.count.toNat (none : Option Ptr) :=
    ⟨_, rfl⟩
  have hpos : 0 < array.length := by
    rw [harray, List.length_replicate]
    omega
  have hwrite : writeAt array 0 (some (some m.lists.brk)) =
      .ok (array.set 0 (some (some m.lists.brk))) :=
    writeAt_eq (i := 0) hpos _
  have hone : int (0 + 1) = .ok 1 := int_ok (by decide) (by decide)
  refine ⟨m₂, some m.lists.brk, _, v, ?_, hrun, rfl⟩
  rw [mergeSort, if_neg (by simp), Heap.load_eq hb, ok_bind, if_neg (by omega), ← harray]
  simp only [create] at hpush hb₁ ⊢
  simp only [hwrite, mapError_ok, ok_bind, Heap.load_eq hb₁, hfirst, Heap.load_eq hl.seg.1, hpush,
    Heap.load_eq hb₂]
  rw [← hfirst, runs_walk hne hb₂, ok_bind, hone, mapError_ok, ok_bind]
  exact mergeRuns_one hpos _ cmp fuel m₂

/-- A list of one node or none is returned as it is. -/
theorem mergeSort_small (h : m.HoldsAt p ns) (hlen : ns.length ≤ 1)
    (cmp : Option V → Option V → ℤ) (fuel : ℕ) : m.mergeSort p cmp fuel = .ok (m, p) := by
  obtain ⟨a, b, rfl, hb, hl⟩ := h.exists_block
  have hcount : b.count = ns.length := hl.count_eq
  rw [mergeSort, if_neg (by simp), Heap.load_eq hb, ok_bind, if_pos (by omega)]
  rfl

/-- A list of the same values, in the order of the comparison. -/
def MergeSorts (cmp : Option V → Option V → ℤ) (fuel : ℕ) (m : Memory V) (list : Ptr)
    (ns : List (ℕ × Option V)) : Prop :=
  ∃ m' p ns', m.mergeSort list cmp fuel = .ok (m', p) ∧ m'.HoldsAt p ns' ∧
    (values ns').Perm (values ns) ∧ Ascending cmp (values ns')

/-- A list that is sorted by one of the values has no other. -/
theorem not_mergeSorts (h : m.HoldsAt p ns) (hlen : 2 ≤ ns.length)
    (cmp : Option V → Option V → ℤ) (fuel : ℕ) : ¬ MergeSorts cmp (fuel + 1) m p ns := by
  rintro ⟨m', q, ns', hsort, ⟨l, hlist, hl⟩, hperm, -⟩
  -- the list that comes out is the one of `mergeSort_eq`, and its length is wrong
  obtain ⟨m'', q', a, v, hsort', ⟨l', hlist', hl'⟩, -⟩ := mergeSort_eq h hlen cmp fuel
  cases hsort'.symm.trans hsort
  cases hlist'.symm.trans hlist
  have hlength := hperm.length_eq
  rw [hl.unique hl', values, values, List.length_map, List.length_map] at hlength
  change 1 = ns.length at hlength
  omega

/-- **`List_merge_sort` sorts the lists of one node or none.** -/
theorem mergeSort_sorts_iff (order : Comparator (Option V)) (h : m.HoldsAt p ns) {fuel : ℕ}
    (hfuel : 0 < fuel) : MergeSorts order.compare fuel m p ns ↔ ns.length ≤ 1 := by
  obtain ⟨fuel, rfl⟩ := Nat.exists_eq_succ_of_ne_zero hfuel.ne'
  constructor
  · intro hsorts
    by_contra hlen
    exact not_mergeSorts h (by omega) order.compare fuel hsorts
  · intro hlen
    refine ⟨m, p, ns, mergeSort_small h hlen _ _, h, List.Perm.refl _, ascending_small _ ?_⟩
    rwa [values, List.length_map]

/-- A list of two nodes, alone in memory. -/
def pairMemory (v w : ℕ) : Memory ℕ where
  nodes := (pair v w).heap
  lists := Heap.empty.alloc { first := some 0, last := some 1, count := 2 }

/-- It holds its two values. -/
theorem holdsAt_pair (v w : ℕ) : (pairMemory v w).HoldsAt (some 0) [(0, some v), (1, some w)] :=
  ⟨pair v w, rfl, holds_pair v w⟩

theorem mergeSort_sorts_iff_two :
    MergeSorts Comparator.numbers.compare 3 (pairMemory 4 7) (some 0) [(0, some 4), (1, some 7)] ↔
      [((0 : ℕ), some 4), (1, some 7)].length ≤ 1 :=
  mergeSort_sorts_iff Comparator.numbers (holdsAt_pair 4 7) (by decide)

/-- The second of two values is lost, even if they are in order. -/
theorem mergeSort_loses :
    ¬ ∃ fuel, MergeSorts Comparator.numbers.compare fuel (pairMemory 4 7) (some 0)
      [(0, some 4), (1, some 7)] := by
  rintro ⟨fuel, hsorts⟩
  rcases fuel with - | fuel
  · obtain ⟨m', p, ns', hsort, -⟩ := hsorts
    cases hsort
  · exact not_mergeSorts (holdsAt_pair 4 7) le_rfl _ fuel hsorts

end Memory

end Lcthw.LinkedList
