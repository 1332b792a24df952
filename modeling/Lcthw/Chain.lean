import Lcthw.Heap

/-!
# Chain — doubly linked nodes on a heap

* **`Seg`**: a stretch of nodes linked both ways, between the pointers `prev` before it and `next`
  behind it. Stretches compose (`seg_append`), and a heap that agrees on the nodes of a stretch
  holds it too (`Seg.frame`).
* **`Seg.relink_next`**, **`Seg.relink_prev`**: what stands behind or before a stretch is recorded in
  its last or first node alone.
* **`Follows`**: the nodes reached along one of the links, up to the null pointer. The two links of a
  stretch that stands alone visit its nodes in opposite orders (`Seg.follows_next`,
  `Seg.follows_prev`).
-/

namespace Chain

structure Node (V : Type*) where
  next : Ptr
  prev : Ptr
  value : V

variable {V : Type*}

/-- The addresses of a stretch of nodes, each given with its value. -/
def addrs (ns : List (ℕ × V)) : List ℕ :=
  ns.map Prod.fst

/-- The first node of a stretch, or what stands behind it when it is empty. -/
def front (ns : List (ℕ × V)) (next : Ptr) : Ptr :=
  (addrs ns).head?.or next

/-- The last node of a stretch, or what stands before it when it is empty. -/
def back (prev : Ptr) (ns : List (ℕ × V)) : Ptr :=
  (addrs ns).getLast?.or prev

/-- A stretch of linked nodes. -/
def Seg (h : Heap (Node V)) : Ptr → List (ℕ × V) → Ptr → Prop
  | _, [], _ => True
  | prev, (a, v) :: ns, next => h.cells a = some ⟨front ns next, prev, v⟩ ∧ Seg h (some a) ns next

/-- The pointer `p` leads along a link through the nodes given and then to null. -/
def Follows (h : Heap (Node V)) (link : Node V → Ptr) : Ptr → List ℕ → Prop
  | p, [] => p = none
  | p, a :: as => p = some a ∧ ∃ n, h.cells a = some n ∧ Follows h link (link n) as

@[simp] theorem addrs_nil : addrs ([] : List (ℕ × V)) = [] := rfl

@[simp] theorem addrs_cons (a : ℕ) (v : V) (ns : List (ℕ × V)) : addrs ((a, v) :: ns) = a :: addrs ns :=
  rfl

@[simp] theorem addrs_append (ms ns : List (ℕ × V)) : addrs (ms ++ ns) = addrs ms ++ addrs ns :=
  List.map_append

@[simp] theorem front_nil (next : Ptr) : front ([] : List (ℕ × V)) next = next := rfl

@[simp] theorem front_cons (a : ℕ) (v : V) (ns : List (ℕ × V)) (next : Ptr) :
    front ((a, v) :: ns) next = some a := rfl

theorem front_append (ms ns : List (ℕ × V)) (next : Ptr) :
    front (ms ++ ns) next = front ms (front ns next) := by
  cases ms with
  | nil => rfl
  | cons m ms => rfl

@[simp] theorem back_nil (prev : Ptr) : back prev ([] : List (ℕ × V)) = prev := rfl

theorem back_cons (prev : Ptr) (a : ℕ) (v : V) (ns : List (ℕ × V)) :
    back prev ((a, v) :: ns) = back (some a) ns := by
  rw [back, back, addrs_cons, List.getLast?_cons]
  cases (addrs ns).getLast? with
  | none => rfl
  | some b => rfl

theorem back_append (prev : Ptr) (ms ns : List (ℕ × V)) :
    back prev (ms ++ ns) = back (back prev ms) ns := by
  induction ms generalizing prev with
  | nil => rfl
  | cons m ms ih =>
    obtain ⟨a, v⟩ := m
    rw [List.cons_append, back_cons, back_cons, ih]

theorem back_concat (prev : Ptr) (ns : List (ℕ × V)) (a : ℕ) (v : V) :
    back prev (ns ++ [(a, v)]) = some a := by
  rw [back_append, back_cons, back_nil]

variable {h : Heap (Node V)} {prev next : Ptr}

theorem seg_append (ms ns : List (ℕ × V)) :
    Seg h prev (ms ++ ns) next ↔ Seg h prev ms (front ns next) ∧ Seg h (back prev ms) ns next := by
  induction ms generalizing prev with
  | nil => simp [Seg]
  | cons m ms ih =>
    obtain ⟨a, v⟩ := m
    rw [List.cons_append, Seg, Seg, ih, front_append, back_cons, and_assoc]

/-- The nodes of a stretch are in use. -/
theorem Seg.exists_cell {ns : List (ℕ × V)} (hs : Seg h prev ns next) {a : ℕ} (ha : a ∈ addrs ns) :
    ∃ n, h.cells a = some n := by
  induction ns generalizing prev with
  | nil => cases ha
  | cons m ns ih =>
    obtain ⟨b, v⟩ := m
    rcases List.mem_cons.mp ha with rfl | hmem
    · exact ⟨_, hs.1⟩
    · exact ih hs.2 hmem

/-- **Frame.** Only the cells of its nodes matter to a stretch. -/
theorem Seg.frame {h' : Heap (Node V)} {ns : List (ℕ × V)} (hs : Seg h prev ns next)
    (hcells : ∀ a ∈ addrs ns, h'.cells a = h.cells a) : Seg h' prev ns next := by
  induction ns generalizing prev with
  | nil => trivial
  | cons m ns ih =>
    obtain ⟨a, v⟩ := m
    refine ⟨?_, ih hs.2 fun b hb => hcells b (List.mem_cons_of_mem _ hb)⟩
    rw [hcells a List.mem_cons_self]
    exact hs.1

/-- The last node alone records what stands behind a stretch. -/
theorem Seg.relink_next {ns : List (ℕ × V)} {a : ℕ} {v : V} (hs : Seg h prev (ns ++ [(a, v)]) next)
    (ha : a ∉ addrs ns) (next' : Ptr) :
    Seg (h.put a fun n => { n with next := next' }) prev (ns ++ [(a, v)]) next' := by
  rw [seg_append] at hs ⊢
  refine ⟨hs.1.frame fun b hb => Heap.cells_put_of_ne ?_, ?_, trivial⟩
  · rintro rfl
    exact ha hb
  · exact Heap.cells_put_self hs.2.1

/-- The first node alone records what stands before a stretch. -/
theorem Seg.relink_prev {ns : List (ℕ × V)} {a : ℕ} {v : V} (hs : Seg h prev ((a, v) :: ns) next)
    (ha : a ∉ addrs ns) (prev' : Ptr) :
    Seg (h.put a fun n => { n with prev := prev' }) prev' ((a, v) :: ns) next := by
  refine ⟨Heap.cells_put_self hs.1, hs.2.frame fun b hb => Heap.cells_put_of_ne ?_⟩
  rintro rfl
  exact ha hb

/-- Where a stretch starts decides which nodes it has. -/
theorem Seg.unique {prev' : Ptr} {ns ms : List (ℕ × V)} (hns : Seg h prev ns none)
    (hms : Seg h prev' ms none) (hfront : front ns none = front ms none) : ns = ms := by
  induction ns generalizing ms prev prev' with
  | nil =>
    cases ms with
    | nil => rfl
    | cons m ms => cases hfront
  | cons n ns ih =>
    cases ms with
    | nil => cases hfront
    | cons m ms =>
      obtain ⟨a, v⟩ := n
      obtain ⟨b, w⟩ := m
      obtain rfl : a = b := Option.some.inj hfront
      have hcell := Option.some.inj (hns.1.symm.trans hms.1)
      rw [Node.mk.injEq] at hcell
      obtain ⟨hnext, -, rfl⟩ := hcell
      rw [ih hns.2 hms.2 hnext]

/-- The values that the cells of a stretch hold. -/
theorem Seg.map_value {ns : List (ℕ × V)} (hs : Seg h prev ns next) :
    (addrs ns).map (fun a => (h.cells a).map Node.value) = (ns.map Prod.snd).map some := by
  induction ns generalizing prev with
  | nil => rfl
  | cons m ns ih =>
    obtain ⟨a, v⟩ := m
    rw [addrs_cons, List.map_cons, List.map_cons, List.map_cons, hs.1, ih hs.2]
    rfl

theorem Seg.follows_next {ns : List (ℕ × V)} (hs : Seg h prev ns none) :
    Follows h Node.next (front ns none) (addrs ns) := by
  induction ns generalizing prev with
  | nil => rfl
  | cons m ns ih =>
    obtain ⟨a, v⟩ := m
    exact ⟨rfl, _, hs.1, ih hs.2⟩

theorem Seg.follows_prev {ns : List (ℕ × V)} (hs : Seg h none ns next) :
    Follows h Node.prev (back none ns) (addrs ns).reverse := by
  induction ns using List.reverseRecOn generalizing next with
  | nil => rfl
  | append_singleton ns m ih =>
    obtain ⟨a, v⟩ := m
    rw [seg_append] at hs
    rw [back_concat, addrs_append, addrs_cons, addrs_nil, List.reverse_concat]
    exact ⟨rfl, _, hs.2.1, ih hs.1⟩

end Chain
