import Lcthw.Base
import Lcthw.Chain
import Lcthw.Run

/-!
# Lcthw — the doubly linked list (`list.c`), queues and stacks (`queue.h`, `stack.h`)

A `void *` is an `Option V`, where `none` is the null pointer. A list is kept with the heap its nodes
live on; allocation succeeds.

* **`Holds`**: the nodes of a list, linked both ways between null pointers.
* **`push_eq`**, **`unshift_eq`**, **`remove_eq`**: what the three operations that change links do to
  the nodes. `remove` has one case for each pair of neighbours that may be missing.
* **`deque_iff_countable`**: over whole runs the list is a deque, a queue under `Queue_send` and
  `Queue_recv` and a stack under `Stack_push` and `Stack_pop`, exactly as long as its `int` count can
  count the nodes.
-/

namespace Lcthw.LinkedList

open Chain

variable {V : Type}

/-! ## The code

A node is found through its pointer, so the operations work on the heap of the nodes. The count is an
`int` and is changed last; when it cannot count another node the links have been changed already. -/

structure DList (V : Type) where
  heap : Heap (Node (Option V))
  first : Ptr
  last : Ptr
  count : ℤ

namespace DList

def create : DList V :=
  { heap := Heap.empty, first := none, last := none, count := 0 }

def push (l : DList V) (value : Option V) : Except Fault (DList V) := do
  let node : Ptr := some l.heap.brk
  let heap := l.heap.alloc { next := none, prev := none, value := none }
  let l : DList V ←
    if l.last = none then
      pure { l with heap, last := node, first := node }
    else do
      let heap ← heap.modify l.last fun n => { n with next := node }
      let heap ← heap.modify node fun n => { n with prev := l.last }
      pure { l with heap, last := node }
  let count ← int (l.count + 1)
  let heap ← l.heap.modify node fun n => { n with value }
  return { l with heap, count }

def unshift (l : DList V) (value : Option V) : Except Fault (DList V) := do
  let node : Ptr := some l.heap.brk
  let heap := l.heap.alloc { next := none, prev := none, value := none }
  let heap ← heap.modify node fun n => { n with value }
  let l : DList V ←
    if l.first = none then
      pure { l with heap, last := node, first := node }
    else do
      let heap ← heap.modify node fun n => { n with next := l.first }
      let heap ← heap.modify l.first fun n => { n with prev := node }
      pure { l with heap, first := node }
  let count ← int (l.count + 1)
  return { l with count }

/-- The links of `List_remove`, once `next` and `prev` have been read from the node. -/
def unlink (l : DList V) (next prev : Ptr) : Except Fault (DList V) :=
  if next = none then
    if prev ≠ none then do
      let heap ← l.heap.modify prev fun n => { n with next := none }
      return { l with heap, last := prev }
    else
      return { l with first := none, last := none }
  else
    if prev = none then do
      let heap ← l.heap.modify next fun n => { n with prev := none }
      return { l with heap, first := next }
    else do
      let heap ← l.heap.modify next fun n => { n with prev }
      let heap ← heap.modify prev fun n => { n with next }
      return { l with heap }

/-- `List_remove`. The first check negates `list->first` alone, so it lets an empty list pass; there
the second one stops, since an empty list has no node to remove. -/
def remove (l : DList V) (node : Ptr) : Except Fault (DList V × Option V) :=
  if l.first = none ∧ l.last ≠ none then
    return (l, none)
  else if node = none then
    return (l, none)
  else do
    let n ← l.heap.load node
    let l ← l.unlink n.next n.prev
    let n ← l.heap.load node
    let heap ← l.heap.free node
    let count ← int (l.count - 1)
    return ({ l with heap, count }, n.value)

def pop (l : DList V) : Except Fault (DList V × Option V) :=
  if l.last ≠ none then l.remove l.last else return (l, none)

def shift (l : DList V) : Except Fault (DList V × Option V) :=
  if l.first ≠ none then l.remove l.first else return (l, none)

/-- `Queue_send`. -/
def send (l : DList V) (value : Option V) : Except Fault (DList V) :=
  l.push value

/-- `Queue_recv`, which does not look whether there is a node. -/
def recv (l : DList V) : Except Fault (DList V × Option V) :=
  l.remove l.first

/-- The node a caller finds `i` steps behind the pointer `p`. -/
def node (heap : Heap (Node (Option V))) : ℕ → Ptr → Ptr
  | 0, p => p
  | i + 1, p => p.bind fun a => (heap.cells a).bind fun n => node heap i n.next

end DList

/-! ## The nodes of a list

`Holds` gives the nodes of a list in their order, each with its address. An operation on the links is
stated by what it makes of these nodes. The list changes at one place at most, and what is before and
behind it is framed off by the stretches of `Chain`. -/

/-- The list is made of the nodes `ns`, each given with its address. -/
structure Holds (l : DList V) (ns : List (ℕ × Option V)) : Prop where
  seg : Seg l.heap none ns none
  first_eq : l.first = front ns none
  last_eq : l.last = back none ns
  nodup : (addrs ns).Nodup
  count_eq : l.count = ns.length
  count_le : (ns.length : ℤ) ≤ INT_MAX

variable {l : DList V} {ns : List (ℕ × Option V)}

theorem holds_create : Holds (DList.create : DList V) [] :=
  ⟨trivial, rfl, rfl, List.nodup_nil, rfl, show (0 : ℤ) ≤ INT_MAX by decide⟩

/-- The address of the next node is not one of the list. -/
theorem Holds.brk_notMem (hl : Holds l ns) : l.heap.brk ∉ addrs ns := by
  intro hmem
  obtain ⟨n, hn⟩ := hl.seg.exists_cell hmem
  exact Heap.ne_brk hn rfl

theorem Holds.alloc (hl : Holds l ns) (n : Node (Option V)) : Seg (l.heap.alloc n) none ns none := by
  apply hl.seg.frame
  intro a ha
  apply Heap.cells_alloc_of_ne
  rintro rfl
  exact hl.brk_notMem ha

/-- Putting something else into a cell that is not one of its nodes keeps a stretch. -/
theorem seg_put {h : Heap (Node (Option V))} {prev next : Ptr} (hs : Seg h prev ns next) {a : ℕ}
    (ha : a ∉ addrs ns) (f : Node (Option V) → Node (Option V)) : Seg (h.put a f) prev ns next := by
  apply hs.frame
  intro b hb
  apply Heap.cells_put_of_ne
  rintro rfl
  exact ha hb

theorem int_length (hlt : (ns.length : ℤ) < INT_MAX) : int ((ns.length : ℤ) + 1) = .ok (ns.length + 1) := by
  have hmin : -INT_MAX - 1 ≤ 0 := by decide
  exact int_ok (by omega) (by omega)

/-- What is common to adding a node at either end. -/
theorem Holds.insert (hl : Holds l ns) (hlt : (ns.length : ℤ) < INT_MAX) (ms ms' : List (ℕ × Option V))
    (hns : ns = ms ++ ms') (v : Option V) :
    (addrs (ms ++ (l.heap.brk, v) :: ms')).Nodup ∧
      l.count + 1 = (ms ++ (l.heap.brk, v) :: ms').length ∧
      ((ms ++ (l.heap.brk, v) :: ms').length : ℤ) ≤ INT_MAX := by
  have hlen : ((ms ++ (l.heap.brk, v) :: ms').length : ℤ) = ns.length + 1 := by
    rw [hns, List.length_append, List.length_append, List.length_cons]
    push_cast
    ring
  have hbrk := hl.brk_notMem
  have hnodup := hl.nodup
  rw [hns, addrs_append] at hbrk hnodup
  refine ⟨?_, by rw [hlen, hl.count_eq], by omega⟩
  rw [addrs_append, addrs_cons]
  exact (List.perm_middle.nodup_iff).mpr (List.nodup_cons.mpr ⟨hbrk, hnodup⟩)

/-- The links of `push`, whatever becomes of the count. -/
theorem push_links (hl : Holds l ns) (v : Option V) :
    ∃ l' : DList V, l.push v = (int (l.count + 1)).map (fun count => { l' with count }) ∧
      Seg l'.heap none (ns ++ [(l.heap.brk, v)]) none ∧
      l'.first = front (ns ++ [(l.heap.brk, v)]) none ∧
      l'.last = back none (ns ++ [(l.heap.brk, v)]) := by
  have hbrk := hl.brk_notMem
  have hcell := Heap.cells_alloc_self (h := l.heap) (x := (⟨none, none, none⟩ : Node (Option V)))
  rcases List.eq_nil_or_concat ns with rfl | ⟨ms, ⟨b, w⟩, rfl⟩
  · have hlast : l.last = none := hl.last_eq
    refine ⟨{ l with
      heap := (l.heap.alloc ⟨none, none, none⟩).put l.heap.brk fun n => { n with value := v }
      first := some l.heap.brk, last := some l.heap.brk }, ?_, ?_, rfl, rfl⟩
    · unfold DList.push
      rw [if_pos hlast, pure_bind]
      simp only []
      rw [Heap.modify_eq hcell]
      cases int (l.count + 1) <;> rfl
    · exact ⟨Heap.cells_put_self hcell, trivial⟩
  · rw [List.concat_eq_append] at *
    have hlast : l.last = some b := by rw [hl.last_eq, back_concat]
    have hne : l.heap.brk ≠ b := by
      rintro rfl
      exact hbrk (by simp)
    have hb : b ∉ addrs ms := by
      have hnd := hl.nodup
      rw [addrs_append] at hnd
      intro hmem
      exact (List.disjoint_of_nodup_append hnd) hmem (by simp)
    -- the old last node learns of the new one, and the new one of it
    have hseg := (hl.alloc ⟨none, none, none⟩).relink_next hb (some l.heap.brk)
    have hold : (l.heap.alloc ⟨none, none, none⟩).cells b = some ⟨none, back none ms, w⟩ :=
      ((seg_append ms [(b, w)]).mp (hl.alloc ⟨none, none, none⟩)).2.1
    have hnew := (Heap.cells_put_of_ne (f := fun n : Node (Option V) =>
      { n with next := some l.heap.brk }) hne).trans hcell
    have hnew' := Heap.cells_put_self (f := fun n : Node (Option V) => { n with prev := some b }) hnew
    refine ⟨{ l with
      heap := (((l.heap.alloc ⟨none, none, none⟩).put b fun n => { n with next := some l.heap.brk }).put
        l.heap.brk fun n => { n with prev := some b }).put l.heap.brk fun n => { n with value := v }
      last := some l.heap.brk }, ?_, ?_, ?_, ?_⟩
    · unfold DList.push
      rw [if_neg (by rw [hlast]; simp), hlast, Heap.modify_eq hold, ok_bind, Heap.modify_eq hnew,
        ok_bind, pure_bind]
      simp only []
      rw [Heap.modify_eq hnew']
      cases int (l.count + 1) <;> rfl
    · rw [seg_append]
      refine ⟨seg_put (seg_put hseg hbrk _) hbrk _, ?_, trivial⟩
      rw [back_concat]
      exact Heap.cells_put_self hnew'
    · rw [front_append, front_append]
      exact (hl.first_eq.trans (front_append ms [(b, w)] none)).trans rfl
    · rw [back_concat]

/-- The links of `unshift`, whatever becomes of the count. -/
theorem unshift_links (hl : Holds l ns) (v : Option V) :
    ∃ l' : DList V, l.unshift v = (int (l.count + 1)).map (fun count => { l' with count }) ∧
      Seg l'.heap none ((l.heap.brk, v) :: ns) none ∧
      l'.first = front ((l.heap.brk, v) :: ns) none ∧
      l'.last = back none ((l.heap.brk, v) :: ns) := by
  have hbrk := hl.brk_notMem
  have hcell := Heap.cells_alloc_self (h := l.heap) (x := (⟨none, none, none⟩ : Node (Option V)))
  have hvalue := Heap.cells_put_self (f := fun n : Node (Option V) => { n with value := v }) hcell
  -- in an empty list the new node is the last one too
  cases ns with
  | nil =>
    have hfirst : l.first = none := hl.first_eq
    refine ⟨{ l with
      heap := (l.heap.alloc ⟨none, none, none⟩).put l.heap.brk fun n => { n with value := v }
      first := some l.heap.brk, last := some l.heap.brk }, ?_, ⟨hvalue, trivial⟩, rfl, rfl⟩
    unfold DList.unshift
    simp only []
    rw [Heap.modify_eq hcell, ok_bind, if_pos hfirst, pure_bind]
    cases int (l.count + 1) <;> rfl
  | cons m ms =>
    obtain ⟨b, w⟩ := m
    have hfirst : l.first = some b := hl.first_eq
    have hne : b ≠ l.heap.brk := by
      rintro rfl
      exact hbrk (by simp)
    have hb : b ∉ addrs ms := (List.nodup_cons.mp hl.nodup).1
    -- the new node is none of the others, which stay where they are
    have hseg := seg_put (seg_put (hl.alloc ⟨none, none, none⟩) hbrk fun n => { n with value := v })
      hbrk fun n => { n with next := some b }
    have hnew := Heap.cells_put_self (f := fun n : Node (Option V) => { n with next := some b }) hvalue
    refine ⟨{ l with
      heap := (((l.heap.alloc ⟨none, none, none⟩).put l.heap.brk fun n => { n with value := v }).put
        l.heap.brk fun n => { n with next := some b }).put b fun n =>
          { n with prev := some l.heap.brk }
      first := some l.heap.brk }, ?_, ⟨?_, hseg.relink_prev hb _⟩, rfl, ?_⟩
    · unfold DList.unshift
      simp only []
      rw [Heap.modify_eq hcell, ok_bind, if_neg (by rw [hfirst]; simp), hfirst,
        Heap.modify_eq hvalue, ok_bind, Heap.modify_eq hseg.1, ok_bind, pure_bind]
      cases int (l.count + 1) <;> rfl
    · rw [Heap.cells_put_of_ne hne.symm]
      exact hnew
    · show l.last = back none ((l.heap.brk, v) :: (b, w) :: ms)
      rw [hl.last_eq, back_cons, back_cons, back_cons]

/-- **`push` adds a node behind the others.** -/
theorem push_eq (hl : Holds l ns) (hlt : (ns.length : ℤ) < INT_MAX) (v : Option V) :
    ∃ l', l.push v = .ok l' ∧ Holds l' (ns ++ [(l.heap.brk, v)]) := by
  obtain ⟨l', hpush, hseg, hfirst, hlast⟩ := push_links hl v
  obtain ⟨hnodup, hcount, hmax⟩ := hl.insert hlt ns [] (List.append_nil ns).symm v
  rw [hl.count_eq, int_length hlt, ← hl.count_eq] at hpush
  exact ⟨_, hpush, hseg, hfirst, hlast, hnodup, hcount, hmax⟩

/-- **`unshift` adds a node before the others.** -/
theorem unshift_eq (hl : Holds l ns) (hlt : (ns.length : ℤ) < INT_MAX) (v : Option V) :
    ∃ l', l.unshift v = .ok l' ∧ Holds l' ((l.heap.brk, v) :: ns) := by
  obtain ⟨l', hunshift, hseg, hfirst, hlast⟩ := unshift_links hl v
  obtain ⟨hnodup, hcount, hmax⟩ := hl.insert hlt [] ns rfl v
  rw [hl.count_eq, int_length hlt, ← hl.count_eq] at hunshift
  exact ⟨_, hunshift, hseg, hfirst, hlast, hnodup, hcount, hmax⟩

/-- A list of `INT_MAX` nodes cannot count another one. -/
theorem insert_overflow (hl : Holds l ns) (hmax : INT_MAX ≤ ns.length) (v : Option V) :
    l.push v = .error .intOverflow ∧ l.unshift v = .error .intOverflow := by
  have hover : int (l.count + 1) = .error .intOverflow := by
    rw [hl.count_eq]
    exact int_overflow (by omega)
  obtain ⟨_, hpush, -⟩ := push_links hl v
  obtain ⟨_, hunshift, -⟩ := unshift_links hl v
  rw [hover] at hpush hunshift
  exact ⟨hpush, hunshift⟩

/-- What taking the node `a` out of the links leaves: the node itself keeps its links. -/
structure Unlinked (l l' : DList V) (xs : List (ℕ × Option V)) (a : ℕ) (v : Option V)
    (ys : List (ℕ × Option V)) : Prop where
  seg : Seg l'.heap none (xs ++ ys) none
  first_eq : l'.first = front (xs ++ ys) none
  last_eq : l'.last = back none (xs ++ ys)
  cell : l'.heap.cells a = some ⟨front ys none, back none xs, v⟩
  count_eq : l'.count = l.count

section Unlink

variable {xs ys : List (ℕ × Option V)} {a b c : ℕ} {v w u : Option V}

/-- A node is none of the nodes before it or behind it, and none of those is another. -/
theorem Holds.apart (hl : Holds l (xs ++ (a, v) :: ys)) :
    a ∉ addrs xs ∧ a ∉ addrs ys ∧ (addrs xs).Nodup ∧ (addrs ys).Nodup ∧
      (addrs xs).Disjoint (addrs ys) := by
  have hnodup := hl.nodup
  rw [addrs_append, addrs_cons] at hnodup
  obtain ⟨hnot, hnd⟩ := List.nodup_cons.mp (List.perm_middle.nodup_iff.mp hnodup)
  rw [List.mem_append, not_or] at hnot
  exact ⟨hnot.1, hnot.2, hnd.of_append_left, hnd.of_append_right, List.disjoint_of_nodup_append hnd⟩

/-- The first of several nodes. -/
theorem unlink_first (hl : Holds l ((a, v) :: (c, u) :: ys)) :
    ∃ l', l.unlink (some c) none = .ok l' ∧ Unlinked l l' [] a v ((c, u) :: ys) := by
  obtain ⟨-, hay, -, hndy, -⟩ := Holds.apart (show Holds l ([] ++ (a, v) :: (c, u) :: ys) from hl)
  obtain ⟨hcell, hys⟩ := hl.seg
  have hac : a ≠ c := fun h => hay (h ▸ List.mem_cons_self)
  have hunlink : l.unlink (some c) none =
      .ok { l with heap := l.heap.put c fun n => { n with prev := none }, first := some c } := by
    unfold DList.unlink
    rw [if_neg (by simp), if_pos rfl, Heap.modify_eq hys.1]
    rfl
  refine ⟨_, hunlink, hys.relink_prev (List.nodup_cons.mp hndy).1 none, rfl, ?_, ?_, rfl⟩
  · show l.last = back none ((c, u) :: ys)
    rw [hl.last_eq, back_cons, back_cons, back_cons]
  · show (l.heap.put c _).cells a = _
    rw [Heap.cells_put_of_ne hac]
    exact hcell

/-- The last of several nodes. -/
theorem unlink_last (hl : Holds l ((xs ++ [(b, w)]) ++ [(a, v)])) :
    ∃ l', l.unlink none (some b) = .ok l' ∧ Unlinked l l' (xs ++ [(b, w)]) a v [] := by
  obtain ⟨hax, -, hndx, -, -⟩ := hl.apart
  obtain ⟨hxs, hcell, -⟩ := (seg_append (xs ++ [(b, w)]) [(a, v)]).mp hl.seg
  obtain ⟨-, hbcell, -⟩ := (seg_append xs [(b, w)]).mp hxs
  have hab : a ≠ b := by
    rintro rfl
    exact hax (by simp)
  have hb : b ∉ addrs xs := by
    rw [addrs_append] at hndx
    intro hmem
    exact List.disjoint_of_nodup_append hndx hmem (by simp)
  -- only the link forward of `b` and the end of the list change
  have hunlink : l.unlink none (some b) =
      .ok { l with heap := l.heap.put b fun n => { n with next := none }, last := some b } := by
    unfold DList.unlink
    rw [if_pos rfl, if_pos (by simp), Heap.modify_eq hbcell]
    rfl
  refine ⟨_, hunlink, ?_, ?_, ?_, ?_, rfl⟩
  · rw [List.append_nil]
    exact hxs.relink_next hb none
  · show l.first = _
    rw [hl.first_eq, List.append_nil, front_append, front_append, front_append]
    rfl
  · rw [List.append_nil, back_concat]
  · show (l.heap.put b _).cells a = _
    rw [Heap.cells_put_of_ne hab]
    exact hcell

/-- A node between two others. -/
theorem unlink_between (hl : Holds l ((xs ++ [(b, w)]) ++ (a, v) :: (c, u) :: ys)) :
    ∃ l', l.unlink (some c) (some b) = .ok l' ∧
      Unlinked l l' (xs ++ [(b, w)]) a v ((c, u) :: ys) := by
  obtain ⟨hax, hay, hndx, hndy, hdisj⟩ := hl.apart
  obtain ⟨hxs, hcell, hys⟩ := (seg_append (xs ++ [(b, w)]) ((a, v) :: (c, u) :: ys)).mp hl.seg
  obtain ⟨-, hbcell, -⟩ := (seg_append xs [(b, w)]).mp hxs
  -- `a` is neither of its neighbours, whose links are changed
  have hab : a ≠ b := by
    rintro rfl
    exact hax (by simp)
  have hac : a ≠ c := fun h => hay (h ▸ List.mem_cons_self)
  have hb : b ∉ addrs xs := by
    rw [addrs_append] at hndx
    intro hmem
    exact List.disjoint_of_nodup_append hndx hmem (by simp)
  have hcb : c ∉ addrs (xs ++ [(b, w)]) := fun hmem => hdisj hmem List.mem_cons_self
  have hbc : b ∉ addrs ((c, u) :: ys) := fun hmem => hdisj (by simp) hmem
  have hbne : b ≠ c := fun h => hbc (h ▸ List.mem_cons_self)
  have hunlink : l.unlink (some c) (some b) =
      .ok { l with heap := (l.heap.put c fun n => { n with prev := some b }).put b fun n =>
        { n with next := some c } } := by
    unfold DList.unlink
    rw [if_neg (by simp), if_neg (by simp), Heap.modify_eq hys.1, ok_bind,
      Heap.modify_eq ((Heap.cells_put_of_ne hbne).trans hbcell)]
    rfl
  refine ⟨_, hunlink, ?_, ?_, ?_, ?_, rfl⟩
  · rw [seg_append, back_concat]
    exact ⟨(seg_put hxs hcb _).relink_next hb (some c),
      seg_put (hys.relink_prev (List.nodup_cons.mp hndy).1 (some b)) hbc _⟩
  · show l.first = _
    rw [hl.first_eq, front_append, front_append, front_append, front_append]
    rfl
  · show l.last = back none ((xs ++ [(b, w)]) ++ (c, u) :: ys)
    rw [hl.last_eq, back_append, back_append _ _ ((c, u) :: ys), back_cons, back_cons, back_cons]
  · show ((l.heap.put c _).put b _).cells a = _
    rw [Heap.cells_put_of_ne hab, Heap.cells_put_of_ne hac]
    exact hcell

/-- **The links around a removed node.** One case for each neighbour that may be missing. -/
theorem unlink_eq (hl : Holds l (xs ++ (a, v) :: ys)) :
    ∃ l', l.unlink (front ys none) (back none xs) = .ok l' ∧ Unlinked l l' xs a v ys := by
  rcases List.eq_nil_or_concat xs with rfl | ⟨ms, ⟨b, w⟩, rfl⟩
  · cases ys with
    | nil => exact ⟨{ l with first := none, last := none }, rfl, trivial, rfl, rfl, hl.seg.1, rfl⟩
    | cons m ys => exact unlink_first hl
  · rw [List.concat_eq_append, back_concat] at *
    cases ys with
    | nil => exact unlink_last hl
    | cons m ys => exact unlink_between hl

end Unlink

/-- **`remove` takes out the node it is given** and returns its value. -/
theorem remove_eq {xs ys : List (ℕ × Option V)} {a : ℕ} {v : Option V}
    (hl : Holds l (xs ++ (a, v) :: ys)) :
    ∃ l', l.remove (some a) = .ok (l', v) ∧ Holds l' (xs ++ ys) := by
  have hmin : -INT_MAX - 1 ≤ 0 := by decide
  obtain ⟨l', hunlink, hseg, hfirst, hlast, hcell', hcount⟩ := unlink_eq hl
  have hcell := ((seg_append xs ((a, v) :: ys)).mp hl.seg).2.1
  have hlen : ((xs ++ (a, v) :: ys).length : ℤ) = (xs ++ ys).length + 1 := by
    rw [List.length_append, List.length_append, List.length_cons]
    push_cast
    ring
  have hmax := hl.count_le
  have hmid := List.perm_middle.nodup_iff.mp (by simpa using hl.nodup)
  obtain ⟨hnot, hnodup⟩ := List.nodup_cons.mp hmid
  rw [← addrs_append] at hnot hnodup
  have hint : int (l'.count - 1) = .ok ((xs ++ ys).length : ℤ) := by
    rw [hcount, hl.count_eq, hlen, Int.add_sub_cancel]
    exact int_ok (by omega) (by omega)
  -- a list that has a node has a first one
  have hsome : l.first ≠ none := by
    rw [hl.first_eq, front_append]
    cases xs with
    | nil => exact Option.some_ne_none a
    | cons m xs => exact Option.some_ne_none m.1
  refine ⟨{ l' with heap := l'.heap.drop a, count := (xs ++ ys).length }, ?_, ?_⟩
  · unfold DList.remove
    rw [if_neg (fun h => hsome h.1), if_neg (Option.some_ne_none a), Heap.load_eq hcell, ok_bind,
      hunlink, ok_bind, Heap.load_eq hcell', ok_bind, Heap.free_eq hcell', ok_bind, hint]
    rfl
  · refine ⟨hseg.frame fun b hb => Heap.cells_drop_of_ne ?_, hfirst, hlast, hnodup, rfl, by omega⟩
    rintro rfl
    exact hnot hb

/-- Without a node to remove nothing happens. -/
theorem remove_null (l : DList V) : l.remove none = .ok (l, none) := by
  unfold DList.remove
  split
  · rfl
  · rw [if_pos rfl]
    rfl

/-- The node a caller reaches by `i` steps along the list. -/
theorem node_eq (hl : Holds l ns) (i : ℕ) : DList.node l.heap i l.first = (addrs ns)[i]? := by
  have hwalk : ∀ (ms : List (ℕ × Option V)) (prev : Ptr) (i : ℕ), Seg l.heap prev ms none →
      DList.node l.heap i (front ms none) = (addrs ms)[i]? := by
    intro ms
    induction ms with
    | nil =>
      intro prev i _
      cases i <;> rfl
    | cons m ms ih =>
      obtain ⟨a, v⟩ := m
      intro prev i hs
      cases i with
      | zero => rfl
      | succ i =>
        rw [front_cons, DList.node, Option.bind_some, hs.1, Option.bind_some, ih (some a) i hs.2]
        rfl
  rw [hl.first_eq]
  exact hwalk ns none i hl.seg

/-! ## Calls

A caller knows a node by its address, or as the first, the last, or the one that is so many steps from
the first. On the side of the deque that is a position, and taking out a node is erasing at that
position. -/

inductive Op (V : Type) where
  | push (value : Option V)
  | unshift (value : Option V)
  | pop
  | shift
  | remove (i : ℕ)
  | send (value : Option V)
  | recv

/-- A call and what it returns: the calls that add a value return nothing. `remove` takes the node
that the caller finds at position `i` of the list. -/
def DList.exec (l : DList V) : Op V → Except Fault (DList V × Option V)
  | .push value => do return (← l.push value, none)
  | .unshift value => do return (← l.unshift value, none)
  | .pop => l.pop
  | .shift => l.shift
  | .remove i => l.remove (node l.heap i l.first)
  | .send value => do return (← l.send value, none)
  | .recv => l.recv

/-- A deque, and the value that a call delivers from it, if any. -/
def serve (q : List (Option V)) : Op V → List (Option V) × Option (Option V)
  | .push value => (q ++ [value], none)
  | .unshift value => (value :: q, none)
  | .pop => (q.dropLast, q.getLast?)
  | .shift => (q.tail, q.head?)
  | .remove i => (q.eraseIdx i, q[i]?)
  | .send value => (q ++ [value], none)
  | .recv => (q.tail, q.head?)

/-- The call can count what it adds. -/
def Countable (q : List (Option V)) : Op V → Prop
  | .push _ => (q.length : ℤ) < INT_MAX
  | .unshift _ => (q.length : ℤ) < INT_MAX
  | .send _ => (q.length : ℤ) < INT_MAX
  | _ => True

/-- The values of a list's nodes. -/
def values (ns : List (ℕ × Option V)) : List (Option V) :=
  ns.map Prod.snd

/-- Taking out the node at a position, from either end or by its address. -/
theorem remove_node (hl : Holds l ns) (i : ℕ) :
    ∃ l' ns', l.remove (addrs ns)[i]? = .ok (l', (values ns)[i]?.join) ∧ Holds l' ns' ∧
      values ns' = (values ns).eraseIdx i := by
  rcases Nat.lt_or_ge i ns.length with hi | hi
  · have hsplit : ns = ns.take i ++ ns[i] :: ns.drop (i + 1) := by
      rw [← List.drop_eq_getElem_cons hi, List.take_append_drop]
    have hl' : Holds l (ns.take i ++ (ns[i].1, ns[i].2) :: ns.drop (i + 1)) := by
      rw [← hsplit]
      exact hl
    obtain ⟨l', hremove, hholds⟩ := remove_eq hl'
    refine ⟨l', ns.take i ++ ns.drop (i + 1), ?_, hholds, ?_⟩
    · rw [addrs, values, List.getElem?_map, List.getElem?_map, List.getElem?_eq_getElem hi]
      exact hremove
    · rw [values, values, List.eraseIdx_eq_take_drop_succ, List.map_append, List.map_take,
        List.map_drop]
  · refine ⟨l, ns, ?_, hl, ?_⟩
    · rw [addrs, values, List.getElem?_map, List.getElem?_map, List.getElem?_eq_none hi]
      exact remove_null l
    · rw [List.eraseIdx_of_length_le (by simpa [values] using hi)]

/-- **A call that can count what it adds serves the deque.** -/
theorem exec_eq (hl : Holds l ns) {op : Op V} (hc : Countable (values ns) op) :
    ∃ l' ns', l.exec op = .ok (l', (serve (values ns) op).2.join) ∧ Holds l' ns' ∧
      values ns' = (serve (values ns) op).1 := by
  -- a node is removed from the front, from the back or by its index
  have hfront : l.first = (addrs ns)[0]? := by
    rw [hl.first_eq, front, Option.or_none, List.head?_eq_getElem?]
  have hback : l.last = (addrs ns)[ns.length - 1]? := by
    rw [hl.last_eq, back, Option.or_none, List.getLast?_eq_getElem?, addrs, List.length_map]
  have htail : (values ns).tail = (values ns).eraseIdx 0 := by
    rw [List.eraseIdx_zero]
  have hinit : (values ns).dropLast = (values ns).eraseIdx (ns.length - 1) := by
    rw [← List.eraseIdx_length_sub_one, values, List.length_map]
  have hget : (values ns).getLast? = (values ns)[ns.length - 1]? := by
    rw [List.getLast?_eq_getElem?, values, List.length_map]
  cases op with
  | push value =>
    have hlt : (ns.length : ℤ) < INT_MAX := by simpa [Countable, values] using hc
    obtain ⟨l', hpush, hl'⟩ := push_eq hl hlt value
    exact ⟨l', _, by rw [DList.exec, hpush]; rfl, hl', by simp [values, serve]⟩
  | unshift value =>
    have hlt : (ns.length : ℤ) < INT_MAX := by simpa [Countable, values] using hc
    obtain ⟨l', hunshift, hl'⟩ := unshift_eq hl hlt value
    exact ⟨l', _, by rw [DList.exec, hunshift]; rfl, hl', by simp [values, serve]⟩
  | send value =>
    have hlt : (ns.length : ℤ) < INT_MAX := by simpa [Countable, values] using hc
    obtain ⟨l', hpush, hl'⟩ := push_eq hl hlt value
    exact ⟨l', _, by rw [DList.exec, DList.send, hpush]; rfl, hl', by simp [values, serve]⟩
  | pop =>
    obtain ⟨l', ns', hremove, hl', hvalues⟩ := remove_node hl (ns.length - 1)
    refine ⟨l', ns', ?_, hl', by rw [hvalues, serve, hinit]⟩
    rw [serve, hget, ← hremove, ← hback, DList.exec, DList.pop]
    split
    · rfl
    · next hnone =>
      rw [not_not.mp hnone, remove_null]
      rfl
  | shift =>
    obtain ⟨l', ns', hremove, hl', hvalues⟩ := remove_node hl 0
    refine ⟨l', ns', ?_, hl', by rw [hvalues, serve, htail]⟩
    rw [serve, List.head?_eq_getElem?, ← hremove, ← hfront, DList.exec, DList.shift]
    split
    · rfl
    · next hnone =>
      rw [not_not.mp hnone, remove_null]
      rfl
  | remove i =>
    obtain ⟨l', ns', hremove, hl', hvalues⟩ := remove_node hl i
    exact ⟨l', ns', by rw [DList.exec, node_eq hl, hremove]; rfl, hl', hvalues⟩
  | recv =>
    obtain ⟨l', ns', hremove, hl', hvalues⟩ := remove_node hl 0
    refine ⟨l', ns', ?_, hl', by rw [hvalues, serve, htail]⟩
    rw [DList.exec, DList.recv, hfront, hremove, serve, List.head?_eq_getElem?]

/-- A call that cannot count what it adds faults. -/
theorem exec_overflow (hl : Holds l ns) {op : Op V} (hc : ¬ Countable (values ns) op) :
    l.exec op = .error .intOverflow := by
  have hlen : (values ns).length = ns.length := by rw [values, List.length_map]
  cases op with
  | push value =>
    have hmax : INT_MAX ≤ ns.length := by rw [← hlen]; exact not_lt.mp hc
    rw [DList.exec, (insert_overflow hl hmax value).1]
    rfl
  | unshift value =>
    have hmax : INT_MAX ≤ ns.length := by rw [← hlen]; exact not_lt.mp hc
    rw [DList.exec, (insert_overflow hl hmax value).2]
    rfl
  | send value =>
    have hmax : INT_MAX ≤ ns.length := by rw [← hlen]; exact not_lt.mp hc
    rw [DList.exec, DList.send, (insert_overflow hl hmax value).1]
    rfl
  | pop => exact absurd trivial hc
  | shift => exact absurd trivial hc
  | remove i => exact absurd trivial hc
  | recv => exact absurd trivial hc

/-! ## Runs

The list and the deque are given the same calls, side by side. The invariant says what holds of the list
as long as every call could count its node; the agreement with the deque then carries over to queues and
stacks, which use only some of the calls. -/

def Op.isQueue : Op V → Bool
  | .send _ => true
  | .recv => true
  | _ => false

def Op.isStack : Op V → Bool
  | .push _ => true
  | .pop => true
  | _ => false

def Op.sent : Op V → Option (Option V)
  | .send value => some value
  | _ => none

/-- A stack, top first, and the value that a call delivers from it. -/
def stackServe (st : List (Option V)) : Op V → List (Option V) × Option (Option V)
  | .push value => (value :: st, none)
  | .pop => (st.tail, st.head?)
  | _ => (st, none)

/-- The stack after some calls, and what they have delivered. -/
def stackAll (ops : List (Op V)) : List (Option V) × List (Option (Option V)) :=
  ops.foldl (fun s op => ((stackServe s.1 op).1, s.2 ++ [(stackServe s.1 op).2])) ([], [])

/-- The list and the deque, given the same calls, with everything they have returned. -/
structure Twin (V : Type) where
  list : DList V
  queue : List (Option V)
  results : List (Option V)
  served : List (Option (Option V))
  history : List (Op V)

namespace Twin

def init : Twin V :=
  { list := DList.create, queue := [], results := [], served := [], history := [] }

def step (t : Twin V) (op : Op V) : Except Fault (Twin V) := do
  let (list, r) ← t.list.exec op
  let (queue, s) := serve t.queue op
  return { list, queue, results := t.results ++ [r], served := t.served ++ [s],
           history := t.history ++ [op] }

/-- The links of the list lead both ways through nodes that hold the deque's values, it has counted
them, and it has returned what the deque has delivered. A list used as a queue has delivered the
values sent in their order, and one used as a stack has delivered like a stack. -/
structure Agrees (t : Twin V) : Prop where
  nodes : ∃ as : List ℕ, as.Nodup ∧ Follows t.list.heap Node.next t.list.first as ∧
    Follows t.list.heap Node.prev t.list.last as.reverse ∧
    as.map (fun a => (t.list.heap.cells a).map Node.value) = t.queue.map some ∧
    t.list.count = as.length
  results : t.results = t.served.map Option.join
  fifo : (∀ op ∈ t.history, op.isQueue) →
    t.served.reduceOption ++ t.queue = (t.history.map Op.sent).reduceOption
  lifo : (∀ op ∈ t.history, op.isStack) → stackAll t.history = (t.queue.reverse, t.served)

/-- What every call keeps. -/
def Inv (t : Twin V) : Prop :=
  ∃ ns, Holds t.list ns ∧ values ns = t.queue

end Twin

/-- Sending adds to what is still to be received, receiving moves on from it to what has been. -/
theorem fifo_serve {op : Op V} (h : op.isQueue) (q : List (Option V)) :
    (serve q op).2.toList ++ (serve q op).1 = q ++ op.sent.toList := by
  cases op with
  | send value => rfl
  | recv =>
    cases q with
    | nil => rfl
    | cons v q => simp [serve, Op.sent]
  | _ => cases h

theorem lifo_serve {op : Op V} (h : op.isStack) (q : List (Option V)) :
    stackServe q.reverse op = ((serve q op).1.reverse, (serve q op).2) := by
  cases op with
  | push value => simp [stackServe, serve]
  | pop =>
    rw [stackServe, serve, List.head?_reverse, List.tail_reverse]
  | _ => cases h

theorem reduceOption_concat_toList {α : Type} (xs : List (Option α)) (x : Option α) :
    (xs ++ [x]).reduceOption = xs.reduceOption ++ x.toList := by
  rw [List.reduceOption_append]
  cases x <;> rfl

theorem Holds.nodes {q : List (Option V)} (hl : Holds l ns) (hq : values ns = q) :
    ∃ as : List ℕ, as.Nodup ∧ Follows l.heap Node.next l.first as ∧
      Follows l.heap Node.prev l.last as.reverse ∧
      as.map (fun a => (l.heap.cells a).map Node.value) = q.map some ∧ l.count = as.length := by
  refine ⟨addrs ns, hl.nodup, ?_, ?_, ?_, ?_⟩
  · rw [hl.first_eq]
    exact hl.seg.follows_next
  · rw [hl.last_eq]
    exact hl.seg.follows_prev
  · rw [← hq]
    exact hl.seg.map_value
  · rw [hl.count_eq, addrs, List.length_map]

namespace Twin

/-- A call that can count what it adds keeps the two in agreement. -/
theorem agrees_step {t : Twin V} (hinv : t.Inv) (ha : t.Agrees) {op : Op V}
    (hc : Countable t.queue op) : ∃ t', t.step op = .ok t' ∧ t'.Inv ∧ t'.Agrees := by
  obtain ⟨ns, hl, hq⟩ := hinv
  rw [← hq] at hc
  obtain ⟨l', ns', hexec, hl', hq'⟩ := exec_eq hl hc
  rw [hq] at hexec hq'
  have hstep : t.step op = .ok
      { list := l', queue := (serve t.queue op).1
        results := t.results ++ [(serve t.queue op).2.join]
        served := t.served ++ [(serve t.queue op).2], history := t.history ++ [op] } := by
    rw [step, hexec]
    rfl
  refine ⟨_, hstep, ⟨ns', hl', hq'⟩, hl'.nodes hq', ?_, ?_, ?_⟩
  · show t.results ++ [_] = (t.served ++ [_]).map Option.join
    rw [List.map_append, ha.results]
    rfl
  · -- as a queue: what was sent has come out or is still in the list
    intro hall
    have hold : ∀ o ∈ t.history, o.isQueue := fun o ho => hall o (List.mem_append_left _ ho)
    have hop : op.isQueue := hall op (List.mem_append_right _ (List.mem_singleton.mpr rfl))
    show (t.served ++ [_]).reduceOption ++ (serve t.queue op).1 =
      ((t.history ++ [op]).map Op.sent).reduceOption
    rw [List.map_append, List.map_singleton, reduceOption_concat_toList, reduceOption_concat_toList,
      List.append_assoc, fifo_serve hop, ← List.append_assoc, ha.fifo hold]
  · -- as a stack: the list is the stack, the other way round
    intro hall
    have hold : ∀ o ∈ t.history, o.isStack := fun o ho => hall o (List.mem_append_left _ ho)
    have hop : op.isStack := hall op (List.mem_append_right _ (List.mem_singleton.mpr rfl))
    have hst := ha.lifo hold
    show stackAll (t.history ++ [op]) = ((serve t.queue op).1.reverse, t.served ++ [_])
    rw [stackAll, List.foldl_append, ← stackAll, hst]
    show ((stackServe t.queue.reverse op).1, t.served ++ [(stackServe t.queue.reverse op).2]) = _
    rw [lifo_serve hop]

theorem inv_step {t t' : Twin V} {op : Op V} (hinv : t.Inv) (h : t.step op = .ok t') : t'.Inv := by
  obtain ⟨ns, hl, hq⟩ := hinv
  by_cases hc : Countable (values ns) op
  · obtain ⟨l', ns', hexec, hl', hq'⟩ := exec_eq hl hc
    rw [step, hexec] at h
    cases h
    exact ⟨ns', hl', hq'.trans (by rw [hq]; rfl)⟩
  · rw [step, exec_overflow hl hc] at h
    cases h

theorem inv_init : (init : Twin V).Inv :=
  ⟨[], holds_create, rfl⟩

theorem agrees_init : (init : Twin V).Agrees :=
  ⟨holds_create.nodes rfl, rfl, fun _ => rfl, fun _ => rfl⟩

/-- A run agrees with the deque exactly as long as its calls can count what they add. -/
theorem sustained_iff (ops : List (Op V)) :
    Run.Sustained step Agrees init ops ↔ Run.Along step (fun t op => Countable t.queue op) init ops := by
  refine Run.sustained_iff_along (fun t op t' hinv _ h => inv_step hinv h) ?_ inv_init agrees_init
    (Run.along_true _ _)
  intro t op hinv ha _
  constructor
  · rintro ⟨t', hstep, -⟩
    by_contra hc
    obtain ⟨ns, hl, hq⟩ := hinv
    rw [← hq] at hc
    rw [step, exec_overflow hl hc] at hstep
    cases hstep
  · intro hc
    obtain ⟨t', hstep, -, ha'⟩ := agrees_step hinv ha hc
    exact ⟨t', hstep, ha'⟩

end Twin

/-- **A list is a deque as long as its count can count the nodes.** -/
theorem deque_iff_countable (ops : List (Op V)) :
    Run.Sustained Twin.step Twin.Agrees Twin.init ops ↔
      Run.Along Twin.step (fun t op => Countable t.queue op) Twin.init ops :=
  Twin.sustained_iff ops

/-- A run that counts all its pushes has room for them. -/
theorem push_all_le {t : Twin V} (hinv : t.Inv) (ha : t.Agrees) (v : Option V) {n : ℕ}
    (h : Run.Along Twin.step (fun t op => Countable t.queue op) t (List.replicate n (.push v)))
    (hle : (t.queue.length : ℤ) ≤ INT_MAX) : (t.queue.length + n : ℤ) ≤ INT_MAX := by
  induction n generalizing t with
  | zero => simpa using hle
  | succ n ih =>
    rw [List.replicate_succ] at h
    obtain ⟨hc, hrest⟩ := h
    have hlt : (t.queue.length : ℤ) < INT_MAX := hc
    obtain ⟨t', hstep, hinv', ha'⟩ := Twin.agrees_step hinv ha hc
    have hlen : (t'.queue.length : ℤ) = t.queue.length + 1 := by
      rw [Twin.step] at hstep
      obtain ⟨r, -, hret⟩ := bind_eq_ok.mp hstep
      cases hret
      simp
    have := ih hinv' ha' (hrest t' hstep) (by omega)
    omega

/-- `INT_MAX` and one more nodes are not counted. -/
theorem count_overflows :
    ¬ Run.Sustained Twin.step Twin.Agrees (Twin.init : Twin Unit)
      (List.replicate (2 ^ 31) (.push none)) := by
  intro h
  have hle := push_all_le Twin.inv_init Twin.agrees_init none ((Twin.sustained_iff _).mp h)
    (show (0 : ℤ) ≤ INT_MAX by decide)
  have hmax : INT_MAX = 2 ^ 31 - 1 := rfl
  have hzero : ((Twin.init : Twin Unit).queue.length : ℤ) = 0 := rfl
  rw [hmax, hzero] at hle
  norm_num at hle

end Lcthw.LinkedList
