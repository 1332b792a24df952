import Lcthw.BSTree.Links

/-!
# Lcthw — traversing a search tree (`bstree.c`)

`BSTree_traverse_nodes` goes to the children of a node before the node itself and reads the pointer to
the right child only when it is back from the left one, so that a callback may change the nodes it has
been given, and free the one it is given.

* **`visit`**: the callback, for one node of a list after the other.
* **`traverse_eq_visit`**: with a callback that leaves the other nodes alone, a traversal calls it for
  every node once, the children of a node before the node, until it returns something else than 0.
-/

namespace Lcthw

open LinkedTree

namespace SearchTree

variable {K V H β σ : Type}

/-! ## The code

The callback is given the memory and may change it, so the traversal hands the memory on from call to
call. A result other than 0 ends all of it. -/

/-- A callback: it is given a node, and works on the memory of the tree and on what else it knows. -/
abbrev TraverseCb (β σ : Type) :=
  ℕ → Heap (Node β) → σ → Except Stop (Heap (Node β) × σ × ℤ)

/-- The part of a traversal below a node, on one side. -/
def traverseChild (traverse_node : TraverseCb β σ) :
    Ptr → Heap (Node β) → σ → Except Stop (Heap (Node β) × σ × ℤ)
  | some child, heap, s => traverse_node child heap s
  | none, heap, s => return (heap, s, 0)

/-- `BSTree_traverse_nodes` and `AVLTree_traverse_nodes` -/
def traverseNodes (traverse_cb : TraverseCb β σ) : ℕ → TraverseCb β σ
  | 0, _, _, _ => .error .outOfFuel
  | fuel + 1, node, heap, s => do
    let n ← heap.load (some node)
    let (heap, s, rc) ← traverseChild (traverseNodes traverse_cb fuel) n.left heap s
    if rc ≠ 0 then
      return (heap, s, rc)
    else do
      -- the node is read again, after whatever the callback did on its left
      let n ← heap.load (some node)
      let (heap, s, rc) ← traverseChild (traverseNodes traverse_cb fuel) n.right heap s
      if rc ≠ 0 then
        return (heap, s, rc)
      else
        traverse_cb node heap s

/-- `BSTree_traverse` and `AVLTree_traverse` -/
def traverse (map : SearchTree K V H) (traverse_cb : TraverseCb (Payload K V H) σ) (s : σ) :
    Except Stop (Heap (Node (Payload K V H)) × σ × ℤ) :=
  match map.root with
  | some root => traverseNodes traverse_cb map.heap.brk root map.heap s
  | none => return (map.heap, s, 0)

/-! ## The order of the visits

What the callback does is known only by its results. As long as it leaves the other nodes of the tree
alone, the traversal finds its way as if nothing had happened, and calls it in postorder. -/

open BinaryTree

/-- The nodes with the children of each before it. -/
def postorder : Shape β → List ℕ
  | nil => []
  | node p l r => postorder l ++ (postorder r ++ [p.1])

/-- A callback, called for one node after the other as long as it returns 0. -/
def visit (traverse_cb : TraverseCb β σ) :
    List ℕ → Heap (Node β) → σ → Except Stop (Heap (Node β) × σ × ℤ)
  | [], heap, s => .ok (heap, s, 0)
  | a :: as, heap, s => do
    let out ← traverse_cb a heap s
    if out.2.2 ≠ 0 then .ok out else visit traverse_cb as out.1 out.2.1

/-- At a node of the tree the callback leaves the other nodes as they are. -/
def Confined (traverse_cb : TraverseCb β σ) (t : Shape β) : Prop :=
  ∀ a ∈ addrs t, ∀ heap s out, traverse_cb a heap s = .ok out →
    ∀ b ∈ addrs t, b ≠ a → out.1.cells b = heap.cells b

variable {traverse_cb : TraverseCb β σ} {heap : Heap (Node β)} {s : σ}
  {out : Heap (Node β) × σ × ℤ} {t l r : Shape β} {p : ℕ × β} {w : Ptr} {fuel b : ℕ} {as : List ℕ}

theorem postorder_perm (t : Shape β) : (postorder t).Perm (addrs t) := by
  induction t with
  | nil => exact List.Perm.refl _
  | node p l r ihl ihr =>
    rw [addrs_node]
    -- the node goes from behind the nodes on its right to before them
    exact ihl.append ((List.perm_append_singleton p.1 _).trans (ihr.cons p.1))

/-- A visit that is stopped does not come to the rest. -/
theorem visit_append (as bs : List ℕ) (heap : Heap (Node β)) (s : σ) :
    visit traverse_cb (as ++ bs) heap s =
      visit traverse_cb as heap s >>= fun out =>
        if out.2.2 ≠ 0 then .ok out else visit traverse_cb bs out.1 out.2.1 := by
  induction as generalizing heap s with
  | nil =>
    rw [visit, ok_bind, if_neg (not_not.mpr rfl)]
    rfl
  | cons a as ih =>
    rw [List.cons_append, visit, visit, bind_assoc]
    refine congrArg _ (funext fun out => ?_)
    by_cases hrc : out.2.2 ≠ 0
    · rw [if_pos hrc, if_pos hrc, ok_bind, if_pos hrc]
    · rw [if_neg hrc, if_neg hrc]
      exact ih out.1 out.2.1

theorem visit_singleton (a : ℕ) : visit traverse_cb [a] heap s = traverse_cb a heap s := by
  rw [visit]
  cases traverse_cb a heap s with
  | error e => rfl
  | ok out =>
    obtain ⟨heap', s', rc⟩ := out
    rw [ok_bind]
    by_cases hrc : rc = 0
    · subst hrc
      rfl
    · exact if_pos hrc

/-- A visit of some nodes leaves the others as they are. -/
theorem Confined.frame (hcb : Confined traverse_cb t) (has : as ⊆ addrs t) (hb : b ∈ addrs t)
    (hvisit : visit traverse_cb as heap s = .ok out) (hout : b ∉ as) :
    out.1.cells b = heap.cells b := by
  induction as generalizing heap s with
  | nil =>
    rw [visit] at hvisit
    rw [← Except.ok.inj hvisit]
  | cons a as ih =>
    obtain ⟨ha, hrest⟩ := List.cons_subset.mp has
    rw [List.mem_cons, not_or] at hout
    rw [visit] at hvisit
    obtain ⟨mid, hcall, hvisit⟩ := bind_eq_ok.mp hvisit
    have hkeep := hcb a ha heap s mid hcall b hb hout.1
    by_cases hrc : mid.2.2 ≠ 0
    · rw [if_pos hrc] at hvisit
      rw [← Except.ok.inj hvisit]
      exact hkeep
    · rw [if_neg hrc] at hvisit
      exact (ih hrest hvisit hout.2).trans hkeep

theorem Confined.mono (hcb : Confined traverse_cb t) (hsub : addrs l ⊆ addrs t) :
    Confined traverse_cb l :=
  fun a ha heap s out hcall b hb => hcb a (hsub ha) heap s out hcall b (hsub hb)

/-- **A traversal below a node that is on the heap is a visit.** -/
theorem traverseChild_eq (hr : Rep heap w t) (hnd : (addrs t).Nodup) (hcb : Confined traverse_cb t)
    (hfuel : t.height ≤ fuel) :
    traverseChild (traverseNodes traverse_cb fuel) (rootOf t) heap s =
      visit traverse_cb (postorder t) heap s := by
  induction t generalizing fuel heap s w with
  | nil => rfl
  | node p l r ihl ihr =>
    obtain ⟨hcell, hl, hr⟩ := hr
    obtain ⟨hpl, hpr, hndl, hndr, hdisj⟩ := (nodup_branch (s := .left)).mp hnd
    have hsubl : addrs l ⊆ addrs (node p l r) := by
      rw [addrs_node]
      exact List.subset_append_left _ _
    have hsubr : addrs r ⊆ addrs (node p l r) := by
      rw [addrs_node]
      exact fun b hb => List.mem_append_right _ (List.mem_cons_of_mem _ hb)
    have hmem : p.1 ∈ addrs (node p l r) := by simp
    cases fuel with
    | zero => exact absurd hfuel (by simp [BinaryTree.height])
    | succ fuel =>
      have hheight : l.height ≤ fuel ∧ r.height ≤ fuel := by
        have hmax : max l.height r.height + 1 ≤ fuel + 1 := hfuel
        omega
      show traverseNodes traverse_cb (fuel + 1) p.1 heap s = _
      rw [traverseNodes, Heap.load_eq hcell, ok_bind, ihl hl hndl (hcb.mono hsubl) hheight.1,
        postorder, visit_append]
      cases hleft : visit traverse_cb (postorder l) heap s with
      | error e => rfl
      | ok out =>
        rw [ok_bind, ok_bind]
        by_cases hrc : out.2.2 ≠ 0
        · rw [if_pos hrc]
          exact if_pos hrc
        · -- neither the node nor what is on its right was touched
          have hkeep : ∀ b ∈ addrs (node p l r), b ∉ addrs l → out.1.cells b = heap.cells b := by
            intro b hb hbl
            refine hcb.frame (fun c hc => ?_) hb hleft fun hmem => ?_
            · exact hsubl ((postorder_perm l).mem_iff.mp hc)
            · exact hbl ((postorder_perm l).mem_iff.mp hmem)
          have hr' : Rep out.1 (some p.1) r :=
            hr.frame fun b hb => hkeep b (hsubr hb) fun hbl => hdisj hbl hb
          rw [if_neg hrc, visit_append]
          refine (if_neg hrc).trans ?_
          rw [Heap.load_eq ((hkeep p.1 hmem hpl).trans hcell), ok_bind,
            ihr hr' hndr (hcb.mono hsubr) hheight.2]
          cases visit traverse_cb (postorder r) out.1 out.2.1 with
          | error e => rfl
          | ok out =>
            rw [ok_bind, ok_bind, visit_singleton]
            rfl

/-- **A traversal calls its callback once for every node**, for the children of a node before the node
itself, and stops when that does not return 0. -/
theorem traverse_eq_visit {map : SearchTree K V H} {compare : K → K → ℤ}
    {t : Shape (Payload K V H)} {traverse_cb : TraverseCb (Payload K V H) σ}
    (hm : Holds map compare t) (hcb : Confined traverse_cb t) (s : σ) :
    traverse map traverse_cb s = visit traverse_cb (postorder t) map.heap s ∧
      (postorder t).Perm (addrs t) := by
  have hheight : t.height ≤ map.heap.brk := t.height_le_numNodes.trans hm.linked.numNodes_le
  refine ⟨?_, postorder_perm t⟩
  rw [← traverseChild_eq hm.linked.rep hm.linked.nodup hcb hheight, ← hm.root_eq]
  unfold traverse
  cases map.root <;> rfl

end SearchTree

end Lcthw
