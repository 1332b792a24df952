import Lcthw.ListMerge

/-!
# Lcthw — the ends of a list (`List_destroy`, `List_clear`, `List_clear_destroy`)

All three walk the list with `LIST_FOREACH`, from its first node as long as that is the last one too.
The values are pointers to blocks of the caller's.

* **`Counted.exec`**: a call leaves as many more or fewer nodes in use as it counts.
* **`destroy_eq`**: `List_destroy` frees the last node and the list; the other nodes are lost.
* **`clear_eq`**, **`clearDestroy_eq`**: the other two do something to a list of one value only.
  `List_clear` frees it; `List_clear_destroy` frees all there is, and then reads the node it freed.
* **`run_leaks`**: what each of them leaves behind after any calls.
-/

namespace Lcthw.LinkedList

open Chain

variable {V B : Type}

/-! ## The code

The functions free nodes in the bodies of their loops, so they work on the memory of all lists. The
values are pointers to blocks of the caller's, which `List_clear` frees. -/

/-- `if (p) free(p);` -/
def release {α : Type} (h : Heap α) (p : Ptr) : Except Stop (Heap α) :=
  if p ≠ none then h.free p else pure h

namespace Memory

/-- A call for the list at `list`. -/
def exec (list : Ptr) (m : Memory V) (op : Op V) : Except Fault (Memory V) := do
  let l ← m.list list
  let (l, _) ← l.exec op
  m.store list l

/-- `list->last`, where the walks stop. -/
def lastOf (list : Ptr) (m : Memory V) : Except Stop Ptr := do
  let b ← m.lists.load list
  pure b.last

/-- The body of the loop of `List_destroy`. -/
def destroyStep (cur : ℕ) (m : Memory V) : Except Stop (Memory V × Bool) := do
  let n ← m.nodes.load (some cur)
  let nodes ← release m.nodes n.prev
  pure ({ m with nodes }, false)

/-- `List_destroy` -/
def destroy (m : Memory V) (list : Ptr) (fuel : ℕ) : Except Stop (Memory V) := do
  let b ← m.lists.load list
  let m ← foreach nodes (lastOf list) Node.next destroyStep fuel b.first m
  let b ← m.lists.load list
  let nodes ← m.nodes.free b.last
  let lists ← m.lists.free list
  pure { nodes, lists }

end Memory

/-- The lists, and the blocks that their values point to. -/
structure Store (B : Type) where
  memory : Memory ℕ
  data : Heap B

namespace Store

def nodes (s : Store B) : Heap (Node (Option ℕ)) :=
  s.memory.nodes

def lastOf (list : Ptr) (s : Store B) : Except Stop Ptr :=
  s.memory.lastOf list

/-- The body of the loop of `List_clear`. -/
def clearStep (cur : ℕ) (s : Store B) : Except Stop (Store B × Bool) := do
  let n ← s.memory.nodes.load (some cur)
  let data ← s.data.free n.value
  pure ({ s with data }, false)

/-- `List_clear` -/
def clear (s : Store B) (list : Ptr) (fuel : ℕ) : Except Stop (Store B) := do
  let b ← s.memory.lists.load list
  foreach nodes (lastOf list) Node.next clearStep fuel b.first s

/-- The body of the loop of `List_clear_destroy`, which frees the list in every round. -/
def clearDestroyStep (list : Ptr) (cur : ℕ) (s : Store B) : Except Stop (Store B × Bool) := do
  let n ← s.memory.nodes.load (some cur)
  let data ← release s.data n.value
  let nodes ← release s.memory.nodes n.prev
  let b ← s.memory.lists.load list
  let nodes ← release nodes b.last
  let lists ← s.memory.lists.free list
  pure ({ memory := { nodes, lists }, data }, false)

/-- `List_clear_destroy`. Its check means `(!list) != NULL`, and so stops for NULL alone. -/
def clearDestroy (s : Store B) (list : Ptr) (fuel : ℕ) : Except Stop (Store B) :=
  if list = none then pure s
  else do
    let b ← s.memory.lists.load list
    foreach nodes (lastOf list) Node.next (clearDestroyStep list) fuel b.first s

end Store

/-! ## As many nodes as are counted

A node is in use from the call that adds it until the call that takes it out, and the count goes along.
So behind any calls the nodes in use are the nodes of the list. -/

/-- There are no more nodes in use than the list has counted. -/
def Counted (l : DList V) : Prop :=
  (l.heap.inUse.card : ℤ) = l.count

section Counted

variable {l l' : DList V}

theorem card_of_int {h : Heap (Node (Option V))} {count : ℤ} (hl : Counted l)
    (hcard : h.inUse.card = l.heap.inUse.card + 1) (hcount : int (l.count + 1) = .ok count) :
    (h.inUse.card : ℤ) = count := by
  rw [hcard, ← eq_of_int hcount, ← hl]
  push_cast
  rfl

/-- A node more, and counted. -/
theorem Counted.push {v : Option V} (hl : Counted l) (h : l.push v = .ok l') : Counted l' := by
  -- linking the new node in adds no other and takes none away
  have hlinked : ∀ mid : DList V, mid.heap.inUse.card = l.heap.inUse.card + 1 → mid.count = l.count →
      (do
        let count ← int (mid.count + 1)
        let heap ← mid.heap.modify (some l.heap.brk) fun n => { n with value := v }
        return { mid with heap, count } : Except Fault _) = .ok l' → Counted l' := by
    intro mid hcard hsame hend
    obtain ⟨count, hcount, hend⟩ := bind_eq_ok.mp hend
    obtain ⟨heap, hvalue, hend⟩ := bind_eq_ok.mp hend
    cases hend
    rw [hsame] at hcount
    apply card_of_int hl _ hcount
    rw [Heap.inUse_of_modify hvalue, hcard]
  unfold DList.push at h
  by_cases hlast : l.last = none
  · rw [if_pos hlast] at h
    refine hlinked { l with
      heap := l.heap.alloc ⟨none, none, none⟩, last := some l.heap.brk, first := some l.heap.brk }
      Heap.card_inUse_alloc rfl h
  · rw [if_neg hlast] at h
    obtain ⟨heap₁, hnext, h⟩ := bind_eq_ok.mp h
    obtain ⟨heap₂, hprev, h⟩ := bind_eq_ok.mp h
    refine hlinked { l with heap := heap₂, last := some l.heap.brk } ?_ rfl h
    rw [Heap.inUse_of_modify hprev, Heap.inUse_of_modify hnext, Heap.card_inUse_alloc]

/-- At the other end as well. -/
theorem Counted.unshift {v : Option V} (hl : Counted l) (h : l.unshift v = .ok l') : Counted l' := by
  have hlinked : ∀ mid : DList V, mid.heap.inUse.card = l.heap.inUse.card + 1 → mid.count = l.count →
      (do
        let count ← int (mid.count + 1)
        return { mid with count } : Except Fault _) = .ok l' → Counted l' := by
    intro mid hcard hsame hend
    obtain ⟨count, hcount, hend⟩ := bind_eq_ok.mp hend
    cases hend
    rw [hsame] at hcount
    exact card_of_int hl hcard hcount
  unfold DList.unshift at h
  obtain ⟨heap, hvalue, h⟩ := bind_eq_ok.mp h
  have hheap : heap.inUse.card = l.heap.inUse.card + 1 := by
    rw [Heap.inUse_of_modify hvalue, Heap.card_inUse_alloc]
  by_cases hfirst : l.first = none
  · rw [if_pos hfirst] at h
    exact hlinked { l with heap, last := some l.heap.brk, first := some l.heap.brk } hheap rfl h
  · rw [if_neg hfirst] at h
    obtain ⟨heap₁, hnext, h⟩ := bind_eq_ok.mp h
    obtain ⟨heap₂, hprev, h⟩ := bind_eq_ok.mp h
    refine hlinked { l with heap := heap₂, first := some l.heap.brk } ?_ rfl h
    rw [Heap.inUse_of_modify hprev, Heap.inUse_of_modify hnext, hheap]

/-- Relinking the neighbours of a node changes neither the nodes in use nor the count. -/
theorem inUse_of_unlink {next prev : Ptr} (h : l.unlink next prev = .ok l') :
    l'.heap.inUse = l.heap.inUse ∧ l'.count = l.count := by
  unfold DList.unlink at h
  -- one case for each neighbour that may be missing
  split at h
  · split at h
    · obtain ⟨heap, hmodify, h⟩ := bind_eq_ok.mp h
      cases h
      exact ⟨Heap.inUse_of_modify hmodify, rfl⟩
    · cases h
      exact ⟨rfl, rfl⟩
  · split at h
    · obtain ⟨heap, hmodify, h⟩ := bind_eq_ok.mp h
      cases h
      exact ⟨Heap.inUse_of_modify hmodify, rfl⟩
    · obtain ⟨heap₁, hnext, h⟩ := bind_eq_ok.mp h
      obtain ⟨heap₂, hprev, h⟩ := bind_eq_ok.mp h
      cases h
      exact ⟨(Heap.inUse_of_modify hprev).trans (Heap.inUse_of_modify hnext), rfl⟩

/-- A node less, and counted so. -/
theorem Counted.remove {node : Ptr} {r : Option V} (hl : Counted l)
    (h : l.remove node = .ok (l', r)) : Counted l' := by
  unfold DList.remove at h
  split at h
  · cases h
    exact hl
  · split at h
    · cases h
      exact hl
    · obtain ⟨n, -, h⟩ := bind_eq_ok.mp h
      obtain ⟨mid, hunlink, h⟩ := bind_eq_ok.mp h
      obtain ⟨n', hload, h⟩ := bind_eq_ok.mp h
      obtain ⟨heap, hfree, h⟩ := bind_eq_ok.mp h
      obtain ⟨count, hcount, h⟩ := bind_eq_ok.mp h
      cases h
      obtain ⟨hinUse, hsame⟩ := inUse_of_unlink hunlink
      -- the node is read before it is freed, so it is in use
      obtain ⟨a, rfl, hcell⟩ := Heap.of_load hload
      rw [Heap.free_eq hcell] at hfree
      cases hfree
      have hcard := Heap.card_inUse_drop hcell
      rw [hinUse] at hcard
      rw [hsame] at hcount
      show ((mid.heap.drop a).inUse.card : ℤ) = count
      rw [← eq_of_int hcount, ← hl, ← hcard]
      push_cast
      ring

/-- **A call takes and gives back as many nodes as it counts.** -/
theorem Counted.exec {op : Op V} {r : Option V} (hl : Counted l) (h : l.exec op = .ok (l', r)) :
    Counted l' := by
  have hpush : ∀ v, (do return (← l.push v, none) : Except Fault _) = .ok (l', r) → Counted l' := by
    intro v h
    obtain ⟨mid, hpush, h⟩ := bind_eq_ok.mp h
    cases h
    exact hl.push hpush
  cases op with
  | push v => exact hpush v h
  | send v => exact hpush v h
  | unshift v =>
    obtain ⟨mid, hunshift, h⟩ := bind_eq_ok.mp h
    cases h
    exact hl.unshift hunshift
  | pop =>
    rw [DList.exec, DList.pop] at h
    split at h
    · exact hl.remove h
    · cases h
      exact hl
  | shift =>
    rw [DList.exec, DList.shift] at h
    split at h
    · exact hl.remove h
    · cases h
      exact hl
  | remove i => exact hl.remove h
  | recv => exact hl.remove h

end Counted

/-! ## What the ends of a list free

Each function is a walk with a body that frees something. The walk has one round in a list of one node
and none in a longer list; what is freed behind the loop is freed in any case. -/

/-- Freeing a pointer that may be null is what `free` does anyway. -/
theorem release_eq_free {α : Type} (h : Heap α) (p : Ptr) : release h p = h.free p := by
  cases p <;> rfl

/-- A list has no node, one that is its first and its last, or two ends that differ. -/
theorem Holds.length_cases {l : DList V} {ns : List (ℕ × Option V)} (hl : Holds l ns) :
    (ns = [] ∧ l.first = none ∧ l.last = none) ∨
      (∃ c v, ns = [(c, v)] ∧ l.first = some c ∧ l.last = some c ∧
        l.heap.cells c = some ⟨none, none, v⟩) ∨
      2 ≤ ns.length ∧ l.first ≠ l.last := by
  rcases Nat.lt_or_ge ns.length 2 with hlt | hge
  · rcases Nat.le_one_iff_eq_zero_or_eq_one.mp (Nat.le_of_lt_succ hlt) with hzero | hone
    · obtain rfl := List.length_eq_zero_iff.mp hzero
      exact Or.inl ⟨rfl, hl.first_eq, hl.last_eq⟩
    · obtain ⟨⟨c, v⟩, rfl⟩ := List.length_eq_one_iff.mp hone
      exact Or.inr (Or.inl ⟨c, v, rfl, hl.first_eq, hl.last_eq, hl.seg.1⟩)
  · exact Or.inr (Or.inr ⟨hge, (hl.last_ne_first hge).symm⟩)

variable {m : Memory V} {a : ℕ} {b : ListBlock} {ns : List (ℕ × Option V)}

theorem lastOf_eq (hb : m.lists.cells a = some b) : m.lastOf (some a) = .ok b.last := by
  rw [Memory.lastOf, Heap.load_eq hb]
  rfl

/-- **`List_destroy` frees one node at most**, whatever the length of the list, and the list. -/
theorem destroy_eq (hb : m.lists.cells a = some b)
    (hl : Holds { heap := m.nodes, first := b.first, last := b.last, count := b.count } ns)
    (fuel : ℕ) :
    ∃ nodes, m.destroy (some a) (fuel + 2) = .ok { nodes, lists := m.lists.drop a } ∧
      nodes.inUse.card = m.nodes.inUse.card - min ns.length 1 := by
  have hbound := lastOf_eq hb
  -- no round of the walk frees anything: it has one in a list of one node, which has no node before it
  have hwalk : foreach Memory.nodes (Memory.lastOf (some a)) Node.next Memory.destroyStep (fuel + 2)
      b.first m = .ok m := by
    rcases hl.length_cases with ⟨-, hfirst, -⟩ | ⟨c, v, -, hfirst, hlast, hcell⟩ | ⟨-, hne⟩
    · rw [show b.first = none from hfirst]
      exact foreach_none hbound (fuel + 1)
    · rw [show b.last = some c from hlast] at hbound
      have hstep : Memory.destroyStep c m = .ok (m, false) := by
        rw [Memory.destroyStep, Heap.load_eq hcell]
        rfl
      rw [show b.first = some c from hfirst]
      exact foreach_single hbound hbound hstep hcell rfl fuel
    · exact foreach_of_ne hbound hne (fuel + 1)
  have hfree : ∃ nodes, (m.nodes.free b.last : Except Stop _) = .ok nodes ∧
      nodes.inUse.card = m.nodes.inUse.card - min ns.length 1 := by
    have hlast : b.last = back none ns := hl.last_eq
    rcases List.eq_nil_or_concat ns with rfl | ⟨ms, ⟨c, v⟩, rfl⟩
    · exact ⟨m.nodes, by rw [hlast]; rfl, by simp⟩
    · rw [List.concat_eq_append] at *
      rw [back_concat] at hlast
      have hcell : m.nodes.cells c = some ⟨none, back none ms, v⟩ :=
        ((seg_append ms [(c, v)]).mp hl.seg).2.1
      refine ⟨m.nodes.drop c, by rw [hlast, Heap.free_eq hcell], ?_⟩
      have hcard := Heap.card_inUse_drop hcell
      rw [List.length_append, List.length_singleton]
      omega
  obtain ⟨nodes, hfree, hcard⟩ := hfree
  refine ⟨nodes, ?_, hcard⟩
  rw [Memory.destroy, Heap.load_eq hb, ok_bind, hwalk, ok_bind, Heap.load_eq hb, ok_bind, hfree, ok_bind,
    Heap.free_eq hb]
  rfl

section Clear

variable {m : Memory ℕ} {ns : List (ℕ × Option ℕ)} {data : Heap B}

theorem Store.lastOf_eq (hb : m.lists.cells a = some b) (data : Heap B) :
    Store.lastOf (some a) (Store.mk m data) = .ok b.last :=
  LinkedList.lastOf_eq hb

/-- What `List_clear` leaves of the blocks that the values of a list point to. -/
def cleared (data : Heap B) : List (Option ℕ) → Except Stop (Heap B)
  | [v] => data.free v
  | _ => .ok data

theorem cleared_of_length_ne {vs : List (Option ℕ)} (hlen : vs.length ≠ 1) (data : Heap B) :
    cleared data vs = .ok data := by
  unfold cleared
  split
  · exact absurd rfl hlen
  · rfl

/-- **`List_clear` frees the value of a list of one**, and none of a longer list. -/
theorem clear_eq (hb : m.lists.cells a = some b)
    (hl : Holds { heap := m.nodes, first := b.first, last := b.last, count := b.count } ns)
    (data : Heap B) (fuel : ℕ) :
    (Store.mk m data).clear (some a) (fuel + 2) = (cleared data (values ns)).map (Store.mk m) := by
  have hbound : ∀ data : Heap B, Store.lastOf (some a) (Store.mk m data) = .ok b.last :=
    Store.lastOf_eq hb
  rw [Store.clear, Heap.load_eq hb, ok_bind]
  rcases hl.length_cases with ⟨rfl, hfirst, -⟩ | ⟨c, v, rfl, hfirst, hlast, hcell⟩ | ⟨hlen, hne⟩
  · rw [show b.first = none from hfirst]
    exact foreach_none (hbound data) (fuel + 1)
  · rw [show b.last = some c from hlast] at hbound
    rw [show b.first = some c from hfirst]
    show _ = (data.free v).map (Store.mk m)
    -- the one round frees the value, and the walk ends behind it
    cases hfree : (data.free v : Except Stop _) with
    | ok data' =>
      have hstep : Store.clearStep c (Store.mk m data) = .ok (Store.mk m data', false) := by
        rw [Store.clearStep, Heap.load_eq hcell, ok_bind, hfree]
        rfl
      exact foreach_single (hbound data) (hbound data') hstep hcell rfl fuel
    | error e =>
      have hstep : Store.clearStep c (Store.mk m data) = .error e := by
        rw [Store.clearStep, Heap.load_eq hcell, ok_bind, hfree]
        rfl
      rw [foreach_bound (hbound data), hstep]
      rfl
  · have hlen' : (values ns).length ≠ 1 := by
      rw [values, List.length_map]
      omega
    rw [cleared_of_length_ne hlen']
    exact foreach_of_ne (hbound data) hne (fuel + 1)

theorem free_error {p : Ptr} {e : Stop} (h : (data.free p : Except Stop _) = .error e) :
    e = .fault .useAfterFree := by
  unfold Heap.free at h
  split at h
  · cases h
  · split at h
    · cases h
    · exact (Except.error.inj h).symm

/-- **`List_clear_destroy` does not return from a list of one value**, and does nothing to any other:
after the one round it goes on from the node it has freed. -/
theorem clearDestroy_eq (hb : m.lists.cells a = some b)
    (hl : Holds { heap := m.nodes, first := b.first, last := b.last, count := b.count } ns)
    (data : Heap B) (fuel : ℕ) :
    (Store.mk m data).clearDestroy (some a) (fuel + 1) =
      if ns.length = 1 then .error (.fault .useAfterFree) else .ok (Store.mk m data) := by
  have hbound := Store.lastOf_eq hb data
  rw [Store.clearDestroy, if_neg (Option.some_ne_none a), Heap.load_eq hb, ok_bind]
  rcases hl.length_cases with ⟨rfl, hfirst, -⟩ | ⟨c, v, rfl, hfirst, hlast, hcell⟩ | ⟨hlen, hne⟩
  · rw [show b.first = none from hfirst]
    exact foreach_none hbound fuel
  · rw [show b.last = some c from hlast] at hbound
    rw [show b.first = some c from hfirst, foreach_bound hbound, if_pos (List.length_singleton)]
    cases hfree : (data.free v : Except Stop _) with
    | error e =>
      rw [Store.clearDestroyStep, Heap.load_eq hcell, ok_bind, release_eq_free, hfree, free_error hfree]
      rfl
    | ok data' =>
      have hstep : Store.clearDestroyStep (some a) c (Store.mk m data) =
          .ok ({ memory := { nodes := m.nodes.drop c, lists := m.lists.drop a }, data := data' },
            false) := by
        rw [Store.clearDestroyStep, Heap.load_eq hcell, ok_bind, release_eq_free, hfree, ok_bind,
          release_eq_free, Heap.free, ok_bind, Heap.load_eq hb, ok_bind, release_eq_free,
          show b.last = some c from hlast, Heap.free_eq hcell, ok_bind, Heap.free_eq hb]
        rfl
      have hgone : (m.nodes.drop c).load (some c) = (.error (.fault .useAfterFree) : Except Stop _) := by
        rw [Heap.load, Heap.cells_drop_self]
        rfl
      rw [hstep]
      -- `node->next` is read behind the body
      change ((m.nodes.drop c).load (some c) >>= _) = _
      rw [hgone]
      rfl
  · rw [if_neg (by omega)]
    exact foreach_of_ne hbound hne fuel

end Clear

/-! ## Runs

A list after any calls, with nothing else in memory. What is in use behind one of the three functions is
then what that function has lost. -/

/-- The deque after some calls. -/
def queueOf (ops : List (Op V)) : List (Option V) :=
  ops.foldl (fun q op => (serve q op).1) []

/-- The list at `a` is made of the nodes `ns`, and no other node is in use; nor is another list. -/
structure Owned (m : Memory V) (a : ℕ) (ns : List (ℕ × Option V)) : Prop where
  holds : m.HoldsAt (some a) ns
  card_nodes : m.nodes.inUse.card = ns.length
  lists : m.lists.inUse = {a}

/-- A new list is all there is in memory. -/
theorem owned_create : Owned (Memory.mk Heap.empty Heap.empty : Memory V).create.1 0 [] :=
  ⟨⟨DList.create, rfl, holds_create⟩, rfl, by rw [Memory.create, Heap.inUse_alloc]; rfl⟩

/-- The block of the list. -/
theorem Owned.exists_block (ho : Owned m a ns) :
    ∃ b, m.lists.cells a = some b ∧
      Holds { heap := m.nodes, first := b.first, last := b.last, count := b.count } ns := by
  obtain ⟨a', b, ha, hb, hl⟩ := ho.holds.exists_block
  obtain rfl := Option.some.inj ha
  exact ⟨b, hb, hl⟩

/-- A call that can count what it adds keeps the nodes in use those of the list. -/
theorem Owned.exec (ho : Owned m a ns) {op : Op V} (hc : Countable (values ns) op) :
    ∃ m' ns', m.exec (some a) op = .ok m' ∧ Owned m' a ns' ∧
      values ns' = (serve (values ns) op).1 := by
  obtain ⟨b, hb, hl⟩ := ho.exists_block
  obtain ⟨l', ns', hexec, hl', hvalues⟩ := exec_eq hl hc
  let f : ListBlock → ListBlock := fun _ => { first := l'.first, last := l'.last, count := l'.count }
  have hstore : m.store (some a) l' = .ok { nodes := l'.heap, lists := m.lists.put a f } := by
    rw [Memory.store, Heap.modify_eq hb]
    rfl
  -- as many nodes are in use as the list counts, before the call and so behind it
  have hcounted : Counted { heap := m.nodes, first := b.first, last := b.last, count := b.count } := by
    rw [Counted, hl.count_eq]
    exact congrArg Nat.cast ho.card_nodes
  have hcard := hcounted.exec hexec
  rw [Counted, hl'.count_eq] at hcard
  refine ⟨{ nodes := l'.heap, lists := m.lists.put a f }, ns', ?_, ⟨⟨l', ?_, hl'⟩, ?_, ?_⟩, hvalues⟩
  · rw [Memory.exec, Memory.list_eq hb, ok_bind, hexec, ok_bind]
    exact hstore
  · exact Memory.list_eq (m := { nodes := l'.heap, lists := m.lists.put a f }) (Heap.cells_put_self hb)
  · exact_mod_cast hcard
  · rw [Heap.inUse_put, ho.lists]

/-- A call that cannot count what it adds ends the run. -/
theorem Owned.exec_overflow (ho : Owned m a ns) {op : Op V} (hc : ¬ Countable (values ns) op) :
    m.exec (some a) op = .error .intOverflow := by
  obtain ⟨b, hb, hl⟩ := ho.exists_block
  rw [Memory.exec, Memory.list_eq hb, ok_bind, LinkedList.exec_overflow hl hc]
  rfl

/-- Calls go on until one cannot count what it adds. -/
theorem Owned.run (ho : Owned m a ns) (ops : List (Op V)) :
    Run.run (Memory.exec (some a)) m ops = .error .intOverflow ∨
      ∃ m' ns', Run.run (Memory.exec (some a)) m ops = .ok m' ∧ Owned m' a ns' ∧
        values ns' = ops.foldl (fun q op => (serve q op).1) (values ns) := by
  induction ops generalizing m ns with
  | nil => exact Or.inr ⟨m, ns, rfl, ho, rfl⟩
  | cons op ops ih =>
    by_cases hc : Countable (values ns) op
    · obtain ⟨m', ns', hexec, ho', hvalues⟩ := ho.exec hc
      rw [Run.run_cons, hexec, List.foldl_cons, ← hvalues]
      exact ih ho'
    · left
      rw [Run.run_cons, ho.exec_overflow hc]
      rfl

/-- **What the ends of a list leave behind.** After any calls that a list could count, the list has
`n` values. `List_destroy` frees the list and one node, so that `n - 1` nodes stay in use without a
pointer to them. `List_clear` frees the value of a list of one, and otherwise nothing.
`List_clear_destroy` reads a node it has freed when there is one value, and otherwise frees nothing,
the list itself included. -/
theorem run_leaks (ops : List (Op ℕ)) (data : Heap B) (fuel : ℕ) :
    Run.run (Memory.exec (some 0)) (Memory.mk Heap.empty Heap.empty).create.1 ops =
        .error .intOverflow ∨
      ∃ m, Run.run (Memory.exec (some 0)) (Memory.mk Heap.empty Heap.empty).create.1 ops = .ok m ∧
        m.nodes.inUse.card = (queueOf ops).length ∧
        (∃ m', m.destroy (some 0) (fuel + 2) = .ok m' ∧ m'.lists.inUse = ∅ ∧
          m'.nodes.inUse.card = (queueOf ops).length - 1) ∧
        (Store.mk m data).clear (some 0) (fuel + 2) =
          (cleared data (queueOf ops)).map (Store.mk m) ∧
        (Store.mk m data).clearDestroy (some 0) (fuel + 2) =
          if (queueOf ops).length = 1 then .error (.fault .useAfterFree) else .ok (Store.mk m data) := by
  refine (owned_create.run ops).imp_right ?_
  rintro ⟨m, ns, hrun, ho, hvalues⟩
  have hqueue : queueOf ops = values ns := hvalues.symm
  have hlen : (queueOf ops).length = ns.length := by rw [hqueue, values, List.length_map]
  obtain ⟨b, hb, hl⟩ := ho.exists_block
  refine ⟨m, hrun, ho.card_nodes.trans hlen.symm, ?_, ?_, ?_⟩
  · obtain ⟨nodes, hdestroy, hcard⟩ := destroy_eq hb hl fuel
    refine ⟨_, hdestroy, ?_, ?_⟩
    · show (m.lists.drop 0).inUse = ∅
      rw [Heap.inUse_drop, ho.lists]
      rfl
    · show nodes.inUse.card = _
      rw [hcard, ho.card_nodes, hlen]
      omega
  · rw [hqueue]
    exact clear_eq hb hl data fuel
  · rw [hlen]
    exact clearDestroy_eq hb hl data (fuel + 1)

end Lcthw.LinkedList
