import Lcthw.Comparator
import Lcthw.LinkedList
import Lcthw.DArray.Quicksort

/-!
# Lcthw — walks over a list, and the sorts that use them (`list.h`, `list_algos.c`)

`LIST_FOREACH` goes on as long as its node *is* the node it is to stop at, so that a walk from one
end of a list to the other only has a round when both ends are the same node.

* **`foreach`**: the walk, with any body.
* **`bubbleSort_eq`**: `List_bubble_sort` leaves every list as it is.
* **`insertSorted_cases`**: `List_insert_sorted` adds to lists of no node or one.
* **`bubbleSort_sorts_iff`**, **`insertSorted_inserts_iff`**: for which lists that is right.
* **`visitsAll_iff`**: a walk from end to end has a round for every node of lists of at most one.
-/

namespace Lcthw.LinkedList

open Chain DArray

variable {V : Type}

/-! ## The code

The macro runs its body as long as the node is the one at which it is to stop, where it was meant to run
it until then. It is modelled once, with the bound read anew before every round, and the functions that
use it are given to it as bodies. -/

/-- `LIST_FOREACH`, from `node` on. The bound is read before every round, and the body says whether
it breaks. -/
def foreach {σ : Type} (heap : σ → Heap (Node (Option V))) (bound : σ → Except Stop Ptr)
    (next : Node (Option V) → Ptr) (body : ℕ → σ → Except Stop (σ × Bool)) :
    ℕ → Ptr → σ → Except Stop σ
  | 0, _, _ => .error .outOfFuel
  | fuel + 1, node, s => do
    let n ← bound s
    match node with
    | none => pure s
    | some cur =>
      if some cur = n then do
        let (s, done) ← body cur s
        -- the body may have changed the node that the walk goes on from
        if done then pure s
        else do
          let node ← (heap s).load (some cur)
          foreach heap bound next body fuel (next node) s
      else pure s

namespace DList

/-- `swap_nodes`, with the checks as the macro reads them: it negates their first operand only. -/
def swapNodes (l : DList V) (A B : Ptr) : Except Fault (DList V × ℤ) :=
  if A = none ∧ B ≠ none then pure (l, 1)
  else do
    let a ← l.heap.load A
    let forward ←
      if a.next = B then do
        let b ← l.heap.load B
        pure (decide (b.prev = A))
      else pure false
    let backward ←
      if forward = true ∧ a.prev = B then do
        let b ← l.heap.load B
        pure (decide (b.next = A))
      else pure false
    if forward = false ∨ backward = true then pure (l, 1)
    else do
      let b ← l.heap.load B
      let heap ← l.heap.modify A fun n => { n with value := b.value }
      let heap ← heap.modify B fun n => { n with value := a.value }
      pure ({ l with heap }, 0)

/-- The body of the inner loop of `List_bubble_sort`. -/
def bubbleStep (cmp : Option V → Option V → ℤ) (cur1 : ℕ) :
    DList V × Bool → Except Stop ((DList V × Bool) × Bool)
  | (l, has_sorted) => do
    let n ← l.heap.load (some cur1)
    if n.next = none then pure ((l, has_sorted), false)
    else do
      let m ← l.heap.load n.next
      if cmp n.value m.value > 0 then do
        let (l, _) ← (l.swapNodes (some cur1) n.next).mapError .fault
        pure ((l, true), false)
      else pure ((l, has_sorted), false)

/-- The body of the outer loop. -/
def bubblePass (cmp : Option V → Option V → ℤ) (fuel : ℕ) (cur : ℕ) (l : DList V) :
    Except Stop (DList V × Bool) := do
  let (l, has_sorted) ←
    foreach (fun s => s.1.heap) (fun _ => pure (some cur)) Node.next (bubbleStep cmp) fuel l.first
      (l, false)
  pure (l, !has_sorted)

/-- `List_bubble_sort` -/
def bubbleSort (l : DList V) (cmp : Option V → Option V → ℤ) (fuel : ℕ) :
    Except Stop (DList V × ℤ) :=
  if l.count ≤ 1 then pure (l, 0)
  else do
    let l ← foreach DList.heap (fun l => pure l.first) Node.prev (bubblePass cmp fuel) fuel l.last l
    pure (l, 0)

/-- The body of the loop of `List_insert_sorted`. A node added in front of another one is linked in,
but gets no value and is not counted. -/
def insertStep (cmp : Option V → Option V → ℤ) (value : Option V) (cur : ℕ) (l : DList V) :
    Except Stop (DList V × Bool) := do
  let n ← l.heap.load (some cur)
  if cmp value n.value > 0 then
    if n.next = none then do
      let l ← (l.push value).mapError .fault
      pure (l, true)
    else do
      let add_on : Ptr := some l.heap.brk
      let heap := l.heap.alloc { next := none, prev := none, value := none }
      let heap ← heap.modify add_on fun n' => { n' with next := n.next }
      let heap ← heap.modify add_on fun n' => { n' with prev := some cur }
      let heap ← heap.modify (some cur) fun n' => { n' with next := add_on }
      let heap ← heap.modify n.next fun n' => { n' with prev := add_on }
      pure ({ l with heap }, true)
  else pure (l, false)

/-- `List_insert_sorted` -/
def insertSorted (l : DList V) (cmp : Option V → Option V → ℤ) (value : Option V) (fuel : ℕ) :
    Except Stop (DList V × ℤ) :=
  if value = none then pure (l, -1)
  else if l.first = none then do
    let l ← (l.push value).mapError .fault
    pure (l, 0)
  else do
    let l ← foreach DList.heap (fun l => pure l.first) Node.prev (insertStep cmp value) fuel l.last l
    pure (l, 0)

end DList

/-! ## Walks

A walk starts at one end of a list with the other end as its bound. Whether it has any round is decided
at once: the two ends are the same node, or the walk is over. -/

section Foreach

variable {σ : Type} {heap : σ → Heap (Node (Option V))} {bound : σ → Except Stop Ptr}
  {next : Node (Option V) → Ptr} {body : ℕ → σ → Except Stop (σ × Bool)} {s : σ}

/-- **A walk that starts at another node than its bound has no round.** -/
theorem foreach_of_ne {n node : Ptr} (hbound : bound s = .ok n) (hne : node ≠ n) (fuel : ℕ) :
    foreach heap bound next body (fuel + 1) node s = .ok s := by
  rw [foreach, hbound, ok_bind]
  cases node with
  | none => rfl
  | some cur => exact if_neg hne

theorem foreach_none {n : Ptr} (hbound : bound s = .ok n) (fuel : ℕ) :
    foreach heap bound next body (fuel + 1) none s = .ok s := by
  rw [foreach, hbound, ok_bind]
  rfl

/-- The round at the bound. -/
theorem foreach_bound {cur : ℕ} (hbound : bound s = .ok (some cur)) (fuel : ℕ) :
    foreach heap bound next body (fuel + 1) (some cur) s = (do
      let (s, done) ← body cur s
      if done then pure s
      else do
        let node ← (heap s).load (some cur)
        foreach heap bound next body fuel (next node) s) := by
  rw [foreach, hbound, ok_bind]
  exact if_pos rfl

/-- A walk that stands on its bound with nothing behind it has one round. -/
theorem foreach_single {cur : ℕ} {s' : σ} {n : Node (Option V)} {p : Ptr}
    (hbound : bound s = .ok (some cur)) (hbound' : bound s' = .ok p)
    (hbody : body cur s = .ok (s', false)) (hload : (heap s').cells cur = some n)
    (hnext : next n = none) (fuel : ℕ) :
    foreach heap bound next body (fuel + 2) (some cur) s = .ok s' := by
  rw [foreach_bound hbound, hbody, ok_bind]
  change (do
    let node ← (heap s').load (some cur)
    foreach heap bound next body (fuel + 1) (next node) s') = _
  rw [Heap.load_eq hload, ok_bind, hnext]
  exact foreach_none hbound' fuel

end Foreach

variable {l : DList V} {ns : List (ℕ × Option V)}

/-- The ends of a list of two nodes or more are different nodes. -/
theorem Holds.last_ne_first (hl : Holds l ns) (hlen : 2 ≤ ns.length) : l.last ≠ l.first := by
  rw [hl.first_eq, hl.last_eq]
  have hnodup := hl.nodup
  cases ns with
  | nil => cases hlen
  | cons n ms =>
    obtain ⟨a, v⟩ := n
    rcases List.eq_nil_or_concat ms with rfl | ⟨ms, ⟨b, w⟩, rfl⟩
    · exact absurd hlen (by simp)
    · rw [List.concat_eq_append] at hnodup ⊢
      rw [← List.cons_append, back_concat, List.cons_append, front_cons]
      intro heq
      obtain rfl := Option.some.inj heq
      exact (List.nodup_cons.mp hnodup).1 (by simp)

/-- A list has the nodes it has. -/
theorem Holds.unique {ms : List (ℕ × Option V)} (hns : Holds l ns) (hms : Holds l ms) : ns = ms :=
  hns.seg.unique hms.seg (hns.first_eq.symm.trans hms.first_eq)

/-! ## `List_bubble_sort`

The outer loop is such a walk. A list of two nodes or more is left as it is, so the function sorts the
lists that are sorted already. -/

/-- **The outer loop has no round**, unless the list has one node, which is not sorted at all. -/
theorem bubbleSort_eq (hl : Holds l ns) (cmp : Option V → Option V → ℤ) (fuel : ℕ) :
    l.bubbleSort cmp (fuel + 1) = .ok (l, 0) := by
  unfold DList.bubbleSort
  by_cases hcount : l.count ≤ 1
  · rw [if_pos hcount]
    rfl
  · have hlen : 2 ≤ ns.length := by
      have hc := hl.count_eq
      omega
    -- `last` is not `first`, which the walk compares it with before its first round
    have hwalk : foreach DList.heap (fun l => pure l.first) Node.prev
        (DList.bubblePass cmp (fuel + 1)) (fuel + 1) l.last l = .ok l :=
      foreach_of_ne (by rfl) (hl.last_ne_first hlen) fuel
    rw [if_neg hcount, hwalk]
    rfl

/-- The same nodes, in the order of the comparison. -/
def BubbleSorts (cmp : Option V → Option V → ℤ) (fuel : ℕ) (l : DList V)
    (ns : List (ℕ × Option V)) : Prop :=
  ∃ l' ns', l.bubbleSort cmp fuel = .ok (l', 0) ∧ Holds l' ns' ∧ addrs ns' = addrs ns ∧
    l'.count = l.count ∧ (values ns').Perm (values ns) ∧ Ascending cmp (values ns')

/-- **`List_bubble_sort` sorts the lists that are sorted.** -/
theorem bubbleSort_sorts_iff (order : Comparator (Option V)) (hl : Holds l ns) {fuel : ℕ}
    (hfuel : 0 < fuel) : BubbleSorts order.compare fuel l ns ↔ Ascending order.compare (values ns) := by
  obtain ⟨fuel, rfl⟩ := Nat.exists_eq_succ_of_ne_zero hfuel.ne'
  have hsort := bubbleSort_eq hl order.compare fuel
  constructor
  · rintro ⟨l', ns', hsort', hl', -, -, -, hasc⟩
    cases hsort.symm.trans hsort'
    rwa [hl.unique hl']
  · intro hasc
    exact ⟨l, ns, hsort, hl, rfl, rfl, List.Perm.refl _, hasc⟩

/-- A list of the nodes at 0 and 1. -/
def pair (v w : ℕ) : DList ℕ where
  heap := (Heap.empty.alloc { next := some 1, prev := none, value := some v }).alloc
    { next := none, prev := some 0, value := some w }
  first := some 0
  last := some 1
  count := 2

theorem holds_pair (v w : ℕ) : Holds (pair v w) [(0, some v), (1, some w)] :=
  ⟨⟨rfl, rfl, trivial⟩, rfl, rfl, List.nodup_cons.mpr ⟨by simp, by simp⟩, rfl,
    show (2 : ℤ) ≤ INT_MAX by decide⟩

theorem bubbleSort_sorts_iff_two :
    BubbleSorts Comparator.numbers.compare 9 (pair 4 7) [(0, some 4), (1, some 7)] ↔
      Ascending Comparator.numbers.compare [some 4, some 7] :=
  bubbleSort_sorts_iff Comparator.numbers (holds_pair 4 7) (by decide)

/-- Two values in the wrong order stay there. -/
theorem bubbleSort_leaves_pair :
    ¬ ∃ fuel, BubbleSorts Comparator.numbers.compare fuel (pair 7 4) [(0, some 7), (1, some 4)] := by
  rintro ⟨fuel, hsorts⟩
  rcases fuel with - | fuel
  · obtain ⟨l', ns', hsort, -⟩ := hsorts
    cases hsort
  · obtain ⟨l', ns', hsort, hl', -, -, -, hasc⟩ := hsorts
    have hl := holds_pair 7 4
    cases (bubbleSort_eq hl _ fuel).symm.trans hsort
    rw [← hl.unique hl'] at hasc
    exact absurd (List.pairwise_pair.mp hasc) (by decide)

/-! ## `List_insert_sorted`

The loop looks for the place of the new value and is such a walk too, so it looks at one node at most. A
value that belongs in front of that node is linked in without being stored or counted. -/

/-- The lists that get the value: those of no node, or of one node below it. -/
def Insertable (cmp : Option V → Option V → ℤ) (x : V) : List (ℕ × Option V) → Prop
  | [] => True
  | [(_, v)] => cmp (some x) v > 0
  | _ => False

/-- **What `List_insert_sorted` does.** It adds the value at the end, or not at all. -/
theorem insertSorted_cases (hl : Holds l ns) (cmp : Option V → Option V → ℤ) (x : V) (fuel : ℕ) :
    (Insertable cmp x ns ∧ ∃ l', l.insertSorted cmp (some x) (fuel + 2) = .ok (l', 0) ∧
        Holds l' (ns ++ [(l.heap.brk, some x)])) ∨
    (¬ Insertable cmp x ns ∧ l.insertSorted cmp (some x) (fuel + 2) = .ok (l, 0)) := by
  have hfirst := hl.first_eq
  unfold DList.insertSorted
  rw [if_neg (by simp)]
  match ns with
  | [] =>
    have hroom : (([] : List (ℕ × Option V)).length : ℤ) < INT_MAX := show (0 : ℤ) < INT_MAX by decide
    obtain ⟨l', hpush, hl'⟩ := push_eq hl hroom (some x)
    refine .inl ⟨trivial, l', ?_, hl'⟩
    rw [front_nil] at hfirst
    rw [if_pos hfirst, hpush]
    rfl
  | [(a, v)] =>
    -- the one node is both ends, so that the walk has a round there
    have hlast : l.last = some a := hl.last_eq
    rw [front_cons] at hfirst
    rw [if_neg (by rw [hfirst]; simp), hlast, foreach_bound (by rw [hfirst]; rfl)]
    unfold DList.insertStep
    rw [Heap.load_eq hl.seg.1, ok_bind]
    by_cases hgt : cmp (some x) v > 0
    · have hroom : ([(a, v)].length : ℤ) < INT_MAX := show (1 : ℤ) < INT_MAX by decide
      obtain ⟨l', hpush, hl'⟩ := push_eq hl hroom (some x)
      refine .inl ⟨hgt, l', ?_, hl'⟩
      rw [if_pos hgt, hpush]
      rfl
    · -- the walk goes on to the null pointer
      refine .inr ⟨hgt, ?_⟩
      have hwalk : foreach DList.heap (fun l => pure l.first) Node.prev
          (DList.insertStep cmp (some x)) (fuel + 1) none l = .ok l :=
        foreach_none (by rfl) fuel
      rw [if_neg hgt]
      change (do
        let node ← l.heap.load (some a)
        foreach DList.heap (fun l => pure l.first) Node.prev (DList.insertStep cmp (some x))
          (fuel + 1) node.prev l) >>= _ = _
      rw [Heap.load_eq hl.seg.1, ok_bind, hwalk]
      rfl
  | (a, v) :: m :: ms =>
    have hwalk : foreach DList.heap (fun l => pure l.first) Node.prev
        (DList.insertStep cmp (some x)) (fuel + 2) l.last l = .ok l :=
      foreach_of_ne (by rfl) (hl.last_ne_first (by simp)) (fuel + 1)
    refine .inr ⟨id, ?_⟩
    rw [front_cons] at hfirst
    rw [if_neg (by rw [hfirst]; simp), hwalk]
    rfl

/-- A sorted list with one more value. -/
def InsertsSorted (cmp : Option V → Option V → ℤ) (x : V) (fuel : ℕ) (l : DList V)
    (ns : List (ℕ × Option V)) : Prop :=
  ∃ l' ns', l.insertSorted cmp (some x) fuel = .ok (l', 0) ∧ Holds l' ns' ∧
    (values ns').Perm (some x :: values ns) ∧ Ascending cmp (values ns') ∧ l'.count = l.count + 1

/-- Behind a node below it a value is in order. -/
theorem Insertable.ascending (order : Comparator (Option V)) {x : V}
    (h : Insertable order.compare x ns) : Ascending order.compare (values ns ++ [some x]) := by
  match ns, h with
  | [], _ => exact List.pairwise_singleton _ _
  | [(a, v)], hgt =>
    apply List.pairwise_pair.mpr
    exact ((order.lt_iff_gt v (some x)).mpr hgt).le

/-- **`List_insert_sorted` inserts into an empty list, and behind a single node that is below the
value.** -/
theorem insertSorted_inserts_iff (order : Comparator (Option V)) (hl : Holds l ns) (x : V)
    {fuel : ℕ} (hfuel : 2 ≤ fuel) :
    InsertsSorted order.compare x fuel l ns ↔ Insertable order.compare x ns := by
  obtain ⟨fuel, rfl⟩ := Nat.exists_eq_add_of_le' hfuel
  rcases insertSorted_cases hl order.compare x fuel with ⟨hcond, l', hinsert, hl'⟩ | ⟨hnot, hsame⟩
  · have hvalues : values (ns ++ [(l.heap.brk, some x)]) = values ns ++ [some x] := List.map_append
    refine iff_of_true ⟨l', _, hinsert, hl', ?_, ?_, ?_⟩ hcond
    · rw [hvalues]
      exact List.perm_append_singleton _ _
    · rw [hvalues]
      exact hcond.ascending
    · rw [hl'.count_eq, hl.count_eq, List.length_append]
      rfl
  · -- the list is as before, and so is its count
    refine iff_of_false ?_ hnot
    rintro ⟨l', ns', hinsert, -, -, -, hcount⟩
    cases hsame.symm.trans hinsert
    omega

theorem insertSorted_inserts_iff_two :
    InsertsSorted Comparator.numbers.compare 9 2 (pair 4 7) [(0, some 4), (1, some 7)] ↔
      Insertable Comparator.numbers.compare 9 [(0, some 4), (1, some 7)] :=
  insertSorted_inserts_iff Comparator.numbers (holds_pair 4 7) 9 le_rfl

/-- A value that belongs between two nodes is lost. -/
theorem insertSorted_loses :
    ¬ ∃ fuel, InsertsSorted Comparator.numbers.compare 5 fuel (pair 4 7)
      [(0, some 4), (1, some 7)] := by
  rintro ⟨fuel, l', ns', hinsert, -, -, -, hcount⟩
  rcases fuel with - | fuel
  · cases hinsert
  · cases hinsert
    cases hcount

/-! ## What a walk from end to end visits

The claim about the macro itself, for any body: forward and backward, over all lists that `Holds`
describes. A body that counts its rounds tells a list of two nodes or more from what was meant. -/

/-- `LIST_FOREACH(list, first, list->last, next, cur)` with a body that does not break. -/
def foreachForward {σ : Type} (list : σ → DList V) (body : ℕ → σ → σ) (fuel : ℕ) (s : σ) :
    Except Stop σ :=
  foreach (fun s => (list s).heap) (fun s => pure (list s).last) Node.next
    (fun cur s => pure (body cur s, false)) fuel (list s).first s

/-- `LIST_FOREACH(list, last, list->first, prev, cur)` with a body that does not break. -/
def foreachBackward {σ : Type} (list : σ → DList V) (body : ℕ → σ → σ) (fuel : ℕ) (s : σ) :
    Except Stop σ :=
  foreach (fun s => (list s).heap) (fun s => pure (list s).first) Node.prev
    (fun cur s => pure (body cur s, false)) fuel (list s).last s

/-- Both walks run their body once for every node, in forward and in backward order, whatever the
body does to the rest of the state. -/
def VisitsAll (fuel : ℕ) (l : DList V) (ns : List (ℕ × Option V)) : Prop :=
  ∀ (σ : Type) (list : σ → DList V) (body : ℕ → σ → σ), (∀ cur s, list (body cur s) = list s) →
    ∀ s, list s = l →
      foreachForward list body fuel s = .ok ((addrs ns).foldl (fun s cur => body cur s) s) ∧
      foreachBackward list body fuel s =
        .ok ((addrs ns).reverse.foldl (fun s cur => body cur s) s)

/-- Counting rounds beside a list. -/
theorem foldl_rounds (l : DList V) (as : List ℕ) (k : ℕ) :
    as.foldl (fun (s : DList V × ℕ) _ => (s.1, s.2 + 1)) (l, k) = (l, k + as.length) := by
  induction as generalizing k with
  | nil => rfl
  | cons a as ih => rw [List.foldl_cons, ih, List.length_cons, Nat.add_right_comm, Nat.add_assoc]

/-- A list of two nodes or more has its nodes counted as none. -/
theorem not_visitsAll (hl : Holds l ns) (hlen : 2 ≤ ns.length) (fuel : ℕ) :
    ¬ VisitsAll fuel l ns := by
  intro hvisits
  obtain ⟨hforward, -⟩ := hvisits (DList V × ℕ) Prod.fst (fun _ s => (s.1, s.2 + 1)) (fun _ _ => rfl)
    (l, 0) rfl
  rw [foldl_rounds, addrs, List.length_map] at hforward
  cases fuel with
  | zero => cases hforward
  | succ fuel =>
    -- `first` is compared with `last` before the first round
    have hnone : foreachForward Prod.fst (fun _ s => (s.1, s.2 + 1)) (fuel + 1) (l, 0) = .ok (l, 0) :=
      foreach_of_ne (by rfl) (hl.last_ne_first hlen).symm fuel
    have hcount : (0 : ℕ) = 0 + ns.length :=
      congrArg Prod.snd (Except.ok.inj (hnone.symm.trans hforward))
    omega

/-- **The walks from end to end visit every node of a list of no node or one**, and of no other. -/
theorem visitsAll_iff (hl : Holds l ns) {fuel : ℕ} (hfuel : 2 ≤ fuel) :
    VisitsAll fuel l ns ↔ ns.length ≤ 1 := by
  obtain ⟨fuel, rfl⟩ := Nat.exists_eq_add_of_le' hfuel
  constructor
  · intro hvisits
    by_contra hlen
    exact not_visitsAll hl (by omega) _ hvisits
  · intro hlen σ list body hkeep s hs
    have hfirst := hl.first_eq
    have hlast := hl.last_eq
    unfold foreachForward foreachBackward
    rw [hs]
    match ns with
    | [] =>
      rw [front_nil] at hfirst
      rw [back_nil] at hlast
      rw [hfirst, hlast]
      exact ⟨foreach_none (by rfl) _, foreach_none (by rfl) _⟩
    | [(a, v)] =>
      -- the one node is both ends, and there is nothing on either side of it
      rw [front_cons] at hfirst
      rw [back_cons, back_nil] at hlast
      have hcell : (list (body a s)).heap.cells a = some ⟨none, none, v⟩ := by
        rw [hkeep, hs]
        exact hl.seg.1
      rw [hfirst, hlast]
      constructor
      · apply foreach_single
        · rw [hs, hlast]
          rfl
        · rfl
        · rfl
        · exact hcell
        · rfl
      · apply foreach_single
        · rw [hs, hfirst]
          rfl
        · rfl
        · rfl
        · exact hcell
        · rfl
    | _ :: _ :: _ =>
      exact absurd hlen (by simp)

theorem visitsAll_iff_two :
    VisitsAll 3 (pair 4 7) [(0, some 4), (1, some 7)] ↔
      [((0 : ℕ), some (4 : ℕ)), (1, some 7)].length ≤ 1 :=
  visitsAll_iff (holds_pair 4 7) (by decide)

/-- Two nodes are not visited, whatever the fuel. -/
theorem visitsAll_misses_pair :
    ¬ ∃ fuel, VisitsAll fuel (pair 4 7) [(0, some 4), (1, some 7)] := by
  rintro ⟨fuel, hvisits⟩
  exact not_visitsAll (holds_pair 4 7) le_rfl fuel hvisits

end Lcthw.LinkedList
