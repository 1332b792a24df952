import Lcthw.BSTree.Traverse
import Lcthw.Bstr
import Lcthw.Traced

/-!
# Lcthw — `AVLTree_check` (`bstree.c`)

`AVLTree_traverse_nodes` goes to the children of a node before the node itself, and stops at the first
callback that does not return 0. `AVLTree_compare_cb` has no other return than the one at `error`.

* **`traverse_logged`**: the traversal is the one that hands the memory from call to call.
* **`traverseNodes_stops`**: a callback that does not return 0 is called once, at the first node that
  has no children.
* **`check_eq`**: that node is all that a check looks at.
* **`checksAll_iff`**: which is the whole tree when it has at most one node.
-/

namespace Lcthw.AVLTree

open LinkedTree SearchTree

variable {V β ω : Type}

/-! ## The code

The callback logs what is out of order and returns -1 in any case. So the trace of a check has an event
for each call of the callback, and the messages behind it. -/

/-- A call of the callback, and the two messages that it logs. -/
inductive Report where
  | call (node : ℕ)
  | leftOutOfOrder (mid left : List CChar)
  | rightOutOfOrder (mid right : List CChar)
  deriving DecidableEq

/-- A tree with bstrings for keys. -/
abbrev Tree (V : Type) := AVLTree (List CChar) V

/-- `AVLTree_compare_cb`. A check that fails skips the ones behind it, and a node that passes all of
them comes to `error` too. -/
def compareCb (map : Tree V) (node : ℕ) : Traced Stop Report ℤ := do
  Traced.emit (.call node)
  let n ← map.heap.load (ε := Stop) (some node)
  let passed ←
    (if n.left ≠ none then do
      let left ← map.heap.load (ε := Stop) n.left
      if bstrcmp n.value.key left.value.key > 0 then
        return true
      else do
        Traced.emit (.leftOutOfOrder n.value.key left.value.key)
        return false
    else
      return true)
  if passed = true ∧ n.right ≠ none then do
    let right ← map.heap.load (ε := Stop) n.right
    if bstrcmp n.value.key right.value.key ≤ 0 then
      return -1
    else do
      Traced.emit (.rightOutOfOrder n.value.key right.value.key)
      return -1
  else
    return -1

/-- `AVLTree_traverse_nodes` -/
def traverseNodes (heap : Heap (Node β)) (traverse_cb : ℕ → Traced Stop ω ℤ) :
    ℕ → ℕ → Traced Stop ω ℤ
  | 0, _ => Traced.lift (.error .outOfFuel)
  | fuel + 1, node => do
    let n ← heap.load (ε := Stop) (some node)
    let rc ←
      (match n.left with
      | some left => traverseNodes heap traverse_cb fuel left
      | none => return 0)
    if rc ≠ 0 then
      return rc
    else do
      let rc ←
        (match n.right with
        | some right => traverseNodes heap traverse_cb fuel right
        | none => return 0)
      if rc ≠ 0 then
        return rc
      else
        traverse_cb node

/-- `AVLTree_traverse`. A recursion is no deeper than there are nodes. -/
def traverse (map : Tree V) (traverse_cb : ℕ → Traced Stop ω ℤ) : Traced Stop ω ℤ :=
  match map.root with
  | some root => traverseNodes map.heap traverse_cb map.heap.brk root
  | none => return 0

/-- `AVLTree_check`, for a map that is not NULL. -/
def check (map : Tree V) : Traced Stop Report Unit := do
  let _ ← traverse map (compareCb map)
  return ()

/-! ## The same traversal

A callback that only logs leaves the memory as it is, and so does the traversal. It is the one that hands
the memory from call to call, for such a callback.
-/

section Logged

variable {heap : Heap (Node β)}

/-- What a callback that only logs returns to a traversal that hands on the memory and the log. -/
def logged (m : Traced Stop ω ℤ) (heap : Heap (Node β)) (log : List ω) :
    Except Stop (Heap (Node β) × List ω × ℤ) :=
  m.result.map fun rc => (heap, log ++ m.events, rc)

theorem logged_bind (m : Traced Stop ω ℤ) (f : ℤ → Traced Stop ω ℤ) (log : List ω) :
    logged (m >>= f) heap log =
      logged m heap log >>= fun out => logged (f out.2.2) out.1 out.2.1 := by
  obtain ⟨events, result⟩ := m
  cases result with
  | error e => rfl
  | ok rc =>
    show (f rc).result.map _ = (f rc).result.map _
    rw [Traced.events_bind_ok rfl]
    simp only [List.append_assoc]

/-- Behind a child a traversal stops, or it goes on with the log of that child. -/
theorem logged_behind {m : Traced Stop ω ℤ} {rest : ℤ → Traced Stop ω ℤ}
    (next : Heap (Node β) → List ω → Except Stop (Heap (Node β) × List ω × ℤ)) (log : List ω)
    (hnext : ∀ log, next heap log = logged (rest 0) heap log) :
    (do
      let (heap, log, rc) ← logged m heap log
      if rc ≠ 0 then return (heap, log, rc) else next heap log) =
      logged (m >>= fun rc => if rc ≠ 0 then return rc else rest rc) heap log := by
  rw [logged_bind]
  obtain ⟨events, result⟩ := m
  cases result with
  | error e => rfl
  | ok rc =>
    show (if rc ≠ 0 then _ else next heap (log ++ events)) = logged _ heap (log ++ events)
    by_cases hrc : rc = 0
    · rw [if_neg (not_not.mpr hrc), if_neg (not_not.mpr hrc), hrc]
      exact hnext _
    · rw [if_pos hrc, if_pos hrc]
      exact congrArg (fun log => Except.ok (heap, log, rc)) (List.append_nil _).symm

/-- **The two traversals agree.** -/
theorem traverseNodes_logged (traverse_cb : ℕ → Traced Stop ω ℤ) (fuel node : ℕ) (log : List ω) :
    SearchTree.traverseNodes (fun a => logged (traverse_cb a)) fuel node heap log =
      logged (traverseNodes heap traverse_cb fuel node) heap log := by
  induction fuel generalizing node log with
  | zero => rfl
  | succ fuel ih =>
    have hchild : ∀ (child : Ptr) (log : List ω),
        traverseChild (SearchTree.traverseNodes (fun a => logged (traverse_cb a)) fuel) child heap log =
          logged
            (match child with
            | some child => traverseNodes heap traverse_cb fuel child
            | none => return 0) heap log := by
      intro child log
      cases child with
      | none => exact congrArg (fun log => Except.ok (heap, log, 0)) (List.append_nil log).symm
      | some child => exact ih child log
    unfold SearchTree.traverseNodes traverseNodes
    cases hload : heap.load (ε := Stop) (some node) with
    | error e => rfl
    | ok n =>
      rw [ok_bind, Traced.ok_bind, hchild]
      -- the left subtree, then the right one, and the node behind both of them
      refine logged_behind (fun (heap : Heap (Node β)) (log : List ω) => do
        let n ← heap.load (some node)
        let (heap, log, rc) ←
          traverseChild (SearchTree.traverseNodes (fun a => logged (traverse_cb a)) fuel) n.right heap log
        if rc ≠ 0 then return (heap, log, rc) else logged (traverse_cb node) heap log) log fun log => ?_
      rw [hload, ok_bind, hchild]
      exact logged_behind (logged (traverse_cb node)) log fun log => rfl

theorem traverse_logged (map : Tree V) (traverse_cb : ℕ → Traced Stop ω ℤ) :
    SearchTree.traverse map (fun a => logged (traverse_cb a)) [] =
      logged (traverse map traverse_cb) map.heap [] := by
  unfold SearchTree.traverse traverse
  cases map.root with
  | none => rfl
  | some root => exact traverseNodes_logged traverse_cb map.heap.brk root []

end Logged

/-! ## Where a traversal stops

The callback is first called when the traversal has gone down as far as it can, to a node without
children. What it returns there goes all the way up. -/

section Stops

open BinaryTree

/-- The node that a traversal comes to first: down to the left, and to the right where there is
nothing on the left. -/
def firstLeaf : Shape β → Ptr
  | nil => none
  | node p l r => ((firstLeaf l).or (firstLeaf r)).or (some p.1)

variable {heap : Heap (Node β)} {t l r : Shape β} {w : Ptr} {a b : ℕ}

theorem firstLeaf_eq_none : firstLeaf t = none ↔ t = nil := by
  cases t with
  | nil => exact iff_of_true rfl rfl
  | node p l r => simp [firstLeaf]

theorem eq_nil_of_numNodes (h : t.numNodes = 0) : t = nil := by
  cases t with
  | nil => rfl
  | node p l r => exact absurd h (Nat.succ_ne_zero _)

theorem exists_firstLeaf (p : ℕ × β) (l r : Shape β) : ∃ a, firstLeaf (node p l r) = some a := by
  apply Option.ne_none_iff_exists'.mp
  rw [Ne, firstLeaf_eq_none]
  rintro ⟨⟩

/-- It has no children. -/
theorem cells_firstLeaf (hr : Rep heap w t) (hleaf : firstLeaf t = some a) :
    ∃ n, heap.cells a = some n ∧ n.left = none ∧ n.right = none := by
  induction t generalizing w with
  | nil => cases hleaf
  | node p l r ihl ihr =>
    obtain ⟨hcell, hl, hr⟩ := hr
    unfold firstLeaf at hleaf
    cases hfl : firstLeaf l with
    | some c =>
      rw [hfl] at hleaf
      exact ihl hl (hfl.trans hleaf)
    | none =>
      cases hfr : firstLeaf r with
      | some c =>
        rw [hfl, hfr] at hleaf
        exact ihr hr (hfr.trans hleaf)
      | none =>
        rw [hfl, hfr] at hleaf
        obtain rfl : p.1 = a := Option.some.inj hleaf
        rw [firstLeaf_eq_none.mp hfl, firstLeaf_eq_none.mp hfr] at hcell
        exact ⟨_, hcell, rfl, rfl⟩

/-- A call that does not return 0 ends what follows it. -/
theorem bind_of_ne_zero {m : Traced Stop ω ℤ} {rc : ℤ} (hm : m.result = .ok rc) (hrc : rc ≠ 0)
    (rest : ℤ → Traced Stop ω ℤ) : (m >>= fun rc => if rc ≠ 0 then return rc else rest rc) = m := by
  obtain ⟨events, result⟩ := m
  obtain rfl : result = .ok rc := hm
  have hret : (if rc ≠ 0 then return rc else rest rc : Traced Stop ω ℤ) = return rc := if_pos hrc
  change Traced.mk (events ++ (if rc ≠ 0 then return rc else rest rc : Traced Stop ω ℤ).events)
    (if rc ≠ 0 then return rc else rest rc : Traced Stop ω ℤ).result = _
  rw [hret]
  exact congrArg (Traced.mk · (.ok rc)) (List.append_nil events)

/-- **A callback that does not return 0 is called once.** -/
theorem traverseNodes_stops {traverse_cb : ℕ → Traced Stop ω ℤ} {fuel : ℕ} {rc : ℤ}
    (hr : Rep heap w t) (hfuel : t.height ≤ fuel) (hroot : rootOf t = some b)
    (hleaf : firstLeaf t = some a) (hcb : (traverse_cb a).result = .ok rc) (hrc : rc ≠ 0) :
    traverseNodes heap traverse_cb fuel b = traverse_cb a := by
  induction fuel generalizing t w b with
  | zero =>
    cases t with
    | nil => cases hroot
    | node p l r => exact absurd hfuel (by simp [BinaryTree.height])
  | succ fuel ih =>
    cases t with
    | nil => cases hroot
    | node p l r =>
      obtain rfl : p.1 = b := Option.some.inj hroot
      obtain ⟨hcell, hl, hr⟩ := hr
      have hheight : (node p l r).height = max l.height r.height + 1 := rfl
      unfold firstLeaf at hleaf
      unfold traverseNodes
      rw [Heap.load_eq hcell, Traced.ok_bind]
      -- a child that is there is where the traversal stops
      have hchild : ∀ {w : Ptr} {q : ℕ × β} {l₁ r₁ : Shape β} (rest : ℤ → Traced Stop ω ℤ),
          Rep heap w (node q l₁ r₁) → (node q l₁ r₁).height ≤ fuel →
          firstLeaf (node q l₁ r₁) = some a →
          (traverseNodes heap traverse_cb fuel q.1 >>= fun rc =>
            if rc ≠ 0 then return rc else rest rc) = traverse_cb a := by
        intro w q l₁ r₁ rest hq hheight hleaf
        rw [ih hq hheight rfl hleaf]
        exact bind_of_ne_zero hcb hrc rest
      cases l with
      | node q l₁ r₁ =>
        obtain ⟨c, hc⟩ := exists_firstLeaf q l₁ r₁
        rw [hc] at hleaf
        exact hchild _ hl (by omega) (hc.trans hleaf)
      | nil =>
        cases r with
        | node q l₁ r₁ =>
          obtain ⟨c, hc⟩ := exists_firstLeaf q l₁ r₁
          rw [hc] at hleaf
          exact hchild _ hr (by omega) (hc.trans hleaf)
        | nil =>
          obtain rfl : p.1 = a := Option.some.inj hleaf
          rfl

end Stops

section Check

open BinaryTree
open Bst (inorder)

variable {map : Tree V} {t : Shape (Payload (List CChar) V ℤ)} {a : ℕ}

/-- A node without children is passed, which is what -1 says too. -/
theorem compareCb_leaf {n : Node (Payload (List CChar) V ℤ)} (hcell : map.heap.cells a = some n)
    (hleft : n.left = none) (hright : n.right = none) :
    compareCb map a = { events := [.call a], result := .ok (-1) } := by
  unfold compareCb
  rw [Heap.load_eq hcell, Traced.ok_bind, if_neg (by rw [hleft]; simp)]
  show (do
    Traced.emit (.call a)
    if true = true ∧ n.right ≠ none then _ else return -1 : Traced Stop Report ℤ) = _
  rw [if_neg (by rw [hright]; simp)]
  rfl

/-- **A check looks at one node.** -/
theorem check_eq (hm : Holds map bstrcmp t) :
    check map = { events := (firstLeaf t).toList.map .call, result := .ok () } := by
  unfold check traverse
  rw [hm.root_eq]
  cases t with
  | nil => rfl
  | node p l r =>
    obtain ⟨a, ha⟩ := exists_firstLeaf p l r
    obtain ⟨n, hcell, hleft, hright⟩ := cells_firstLeaf hm.linked.rep ha
    have hcb := compareCb_leaf hcell hleft hright
    have hheight : (node p l r).height ≤ map.heap.brk :=
      (node p l r).height_le_numNodes.trans hm.linked.numNodes_le
    have hstop : traverseNodes map.heap (compareCb map) map.heap.brk p.1 = compareCb map a :=
      traverseNodes_stops hm.linked.rep hheight rfl ha (by rw [hcb]) (by decide : (-1 : ℤ) ≠ 0)
    show (do
      let _ ← traverseNodes map.heap (compareCb map) map.heap.brk p.1
      return () : Traced Stop Report Unit) = _
    rw [hstop, hcb, ha]
    rfl

/-- The callback is called at every node of the tree, and what is out of order there is logged. -/
structure ChecksAll (map : Tree V) (t : Shape (Payload (List CChar) V ℤ)) : Prop where
  called : ∀ a ∈ addrs t, .call a ∈ (check map).events
  left : ∀ a ∈ addrs t, ∀ n m, map.heap.cells a = some n → map.heap.load (ε := Stop) n.left = .ok m →
    0 ≤ bstrcmp m.value.key n.value.key →
      .leftOutOfOrder n.value.key m.value.key ∈ (check map).events
  right : ∀ a ∈ addrs t, ∀ n m, map.heap.cells a = some n → map.heap.load (ε := Stop) n.right = .ok m →
    bstrcmp m.value.key n.value.key < 0 →
      .rightOutOfOrder n.value.key m.value.key ∈ (check map).events

/-- **A check is complete on trees of at most one node.** -/
theorem checksAll_iff (hm : Holds map bstrcmp t) : ChecksAll map t ↔ t.numNodes ≤ 1 := by
  have hcheck := check_eq hm
  have hlength : (addrs t).length = t.numNodes := by rw [addrs, List.length_map, Bst.length_inorder]
  constructor
  · intro hall
    -- all nodes are the one that is looked at
    have hsub : addrs t ⊆ (firstLeaf t).toList := by
      intro a ha
      have hmem := hall.called a ha
      rw [hcheck] at hmem
      obtain ⟨b, hb, heq⟩ := List.mem_map.mp hmem
      rwa [← Report.call.inj heq]
    have hle := (hm.linked.nodup.subperm hsub).length_le
    have hone : (firstLeaf t).toList.length ≤ 1 := by cases firstLeaf t <;> simp
    omega
  · intro hone
    cases t with
    | nil => exact ⟨by simp, by simp, by simp⟩
    | node p l r =>
      have hnum : (node p l r).numNodes = l.numNodes + r.numNodes + 1 := rfl
      obtain rfl : l = nil := eq_nil_of_numNodes (by omega)
      obtain rfl : r = nil := eq_nil_of_numNodes (by omega)
      have hcell := hm.linked.rep.1
      have hmem : ∀ a, a ∈ addrs (node p nil nil) → a = p.1 := by simp
      rw [show firstLeaf (node p nil nil) = some p.1 from rfl] at hcheck
      refine ⟨?_, ?_, ?_⟩
      · intro a ha
        rw [hmem a ha, hcheck]
        exact List.mem_singleton_self _
      · intro a ha n m hn hload
        rw [hmem a ha, hcell] at hn
        cases hn
        cases hload
      · intro a ha n m hn hload
        rw [hmem a ha, hcell] at hn
        cases hn
        cases hload

/-- A map with a node at 0 and its left child at 1. -/
def leaning (key left : List CChar) : Tree ℕ where
  heap := (Heap.empty.alloc
    { parent := none, left := some 1, right := none, value := { key, data := none, height := 2 } }).alloc
    { parent := some 0, left := none, right := none, value := { key := left, data := none, height := 1 } }
  compare := bstrcmp
  root := some 0

theorem holds_leaning (key left : List CChar) :
    Holds (leaning key left) bstrcmp (node (0, { key, data := none, height := 2 })
      (node (1, { key := left, data := none, height := 1 }) nil nil) nil) :=
  ⟨⟨⟨rfl, ⟨rfl, trivial, trivial⟩, trivial⟩, by simp⟩, rfl, rfl⟩

theorem checksAll_iff_two :
    ChecksAll (leaning (cstr "m") (cstr "c"))
        (node (0, { key := cstr "m", data := none, height := 2 })
          (node (1, { key := cstr "c", data := none, height := 1 }) nil nil) nil) ↔
      (node ((0 : ℕ), ({ key := cstr "m", data := none, height := 2 } : Payload _ ℕ ℤ))
          (node (1, { key := cstr "c", data := none, height := 1 }) nil nil) nil).numNodes ≤ 1 :=
  checksAll_iff (holds_leaning _ _)

/-- A left child above its parent is not noticed. -/
theorem check_misses_left :
    ∃ t, Holds (leaning (cstr "a") (cstr "b")) bstrcmp t ∧
      ¬ ChecksAll (leaning (cstr "a") (cstr "b")) t := by
  refine ⟨_, holds_leaning _ _, fun hall => ?_⟩
  have hlogged := hall.left 0 (by simp) _ _ rfl rfl (by decide)
  rw [check_eq (holds_leaning _ _)] at hlogged
  exact absurd hlogged (by decide)

end Check

end Lcthw.AVLTree
