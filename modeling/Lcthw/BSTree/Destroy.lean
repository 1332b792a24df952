import Lcthw.BSTree.Map
import Lcthw.BSTree.Traverse

/-!
# Lcthw — destroying a search tree (`bstree.c`)

`BSTree_destroy` and `AVLTree_destroy` traverse the map with a callback that frees the node it is given
(`AVLTree_destroy` calls `BSTree_traverse`, by way of the layout the two kinds of node share). The map
is not NULL, and the block of the map itself, which is freed last, is not on the heap of the nodes.

* **`destroy_eq`**: the nodes are freed, each once, and nothing else is.
* **`Owns`**: there are no more blocks in use than nodes in the tree. `Accounts` says that the calls of
  a kind of tree keep that; no call loses a block, or leaves one behind that it took out of the tree.
* **`run_destroy`**: after any calls at all, whatever the keys and however they compare, a `destroy`
  leaves no block in use.
-/

namespace Lcthw

open BinaryTree LinkedTree
open Bst (inorder)

namespace SearchTree

variable {K V H β : Type}

/-! ## The code

The callback frees the node it is given and returns 0. By then the traversal has been to the children of
the node, and it does not come back to any of the three. -/

/-- `BSTree_destroy_cb` and `AVLTree_destroy_cb` -/
def destroyCb : TraverseCb β Unit := fun node heap _ => do
  let heap ← heap.free (some node)
  return (heap, (), 0)

/-- `BSTree_destroy` and `AVLTree_destroy`: what they leave on the heap. -/
def destroy (map : SearchTree K V H) : Except Stop (Heap (Node (Payload K V H))) := do
  let (heap, _, _) ← traverse map destroyCb ()
  return heap

/-! ## What is freed

The callback is confined to its node, so the traversal is a visit of the nodes in postorder. Each of
them is in use when its turn comes and freed behind it. -/

theorem destroyCb_eq {heap : Heap (Node β)} {a : ℕ} {n : Node β} (hcell : heap.cells a = some n) :
    destroyCb a heap () = .ok (heap.drop a, (), 0) := by
  rw [destroyCb, Heap.free_eq hcell]
  rfl

theorem confined_destroyCb (t : Shape β) : Confined destroyCb t := by
  intro a _ heap s out hcall b _ hba
  obtain ⟨heap', hfree, hout⟩ := bind_eq_ok.mp hcall
  rw [← Except.ok.inj hout]
  cases hcell : heap.cells a with
  | none =>
    simp only [Heap.free, hcell] at hfree
    cases hfree
  | some n =>
    rw [Heap.free_eq hcell] at hfree
    rw [← Except.ok.inj hfree]
    exact Heap.cells_drop_of_ne hba

/-- Nodes that are in use are freed, one after the other. -/
theorem visit_destroyCb {heap : Heap (Node β)} {as : List ℕ} (hnd : as.Nodup)
    (hcells : ∀ a ∈ as, ∃ n, heap.cells a = some n) :
    ∃ heap', visit destroyCb as heap () = .ok (heap', (), 0) ∧ (∀ a ∈ as, heap'.cells a = none) ∧
      ∀ b, b ∉ as → heap'.cells b = heap.cells b := by
  induction as generalizing heap with
  | nil => exact ⟨heap, rfl, nofun, fun _ _ => rfl⟩
  | cons a as ih =>
    obtain ⟨ha, hnd⟩ := List.nodup_cons.mp hnd
    obtain ⟨⟨n, hcell⟩, hrest⟩ := List.forall_mem_cons.mp hcells
    -- the nodes are distinct, so freeing one leaves the others
    have hdrop : ∀ b ∈ as, (heap.drop a).cells b = heap.cells b := by
      intro b hb
      apply Heap.cells_drop_of_ne
      rintro rfl
      exact ha hb
    have hnext : ∀ b ∈ as, ∃ n, (heap.drop a).cells b = some n := by
      intro b hb
      rw [hdrop b hb]
      exact hrest b hb
    obtain ⟨heap', hvisit, hgone, hkeep⟩ := ih hnd hnext
    refine ⟨heap', ?_, List.forall_mem_cons.mpr ⟨?_, hgone⟩, fun b hb => ?_⟩
    · rw [visit, destroyCb_eq hcell, ok_bind, if_neg (not_not.mpr rfl)]
      exact hvisit
    · rw [hkeep a ha, Heap.cells_drop_self]
    · rw [List.mem_cons, not_or] at hb
      rw [hkeep b hb.2, Heap.cells_drop_of_ne hb.1]

/-- **`destroy` frees the nodes of the tree, and leaves every other block alone.** -/
theorem destroy_eq {map : SearchTree K V H} {compare : K → K → ℤ} {t : Shape (Payload K V H)}
    (hm : Holds map compare t) :
    ∃ heap, destroy map = .ok heap ∧ (∀ a ∈ addrs t, heap.cells a = none) ∧
      ∀ b, b ∉ addrs t → heap.cells b = map.heap.cells b := by
  have hperm := postorder_perm t
  obtain ⟨heap, hvisit, hgone, hkeep⟩ := visit_destroyCb (hperm.nodup_iff.mpr hm.linked.nodup)
    fun a ha => hm.linked.rep.exists_cell (hperm.mem_iff.mp ha)
  refine ⟨heap, ?_, fun a ha => ?_, fun b hb => ?_⟩
  · rw [destroy, (traverse_eq_visit hm (confined_destroyCb t) ()).1, hvisit]
    rfl
  · exact hgone a (hperm.mem_iff.mpr ha)
  · exact hkeep b (mt hperm.mem_iff.mp hb)

/-! ## Blocks that a call leaves as many as they were

A call relinks nodes, which leaves the blocks in use as they are, and it allocates or frees one node at
most. Each helper function has a lemma that says so. -/

section Links

variable {heap heap' : Heap (Node β)} {a p q w : Ptr}

theorem inUse_of_adopt (h : (adopt heap q w : Except Stop _) = .ok heap') :
    heap'.inUse = heap.inUse := by
  unfold adopt at h
  by_cases hq : q ≠ none
  · rw [if_pos hq] at h
    exact Heap.inUse_of_modify h
  · rw [if_neg hq] at h
    rw [Except.ok.inj h]

theorem inUse_of_relink (h : (relink heap w a q : Except Stop _) = .ok heap') :
    heap'.inUse = heap.inUse := by
  obtain ⟨n, -, h⟩ := bind_eq_ok.mp h
  by_cases ha : a = n.left
  · rw [if_pos ha] at h
    exact Heap.inUse_of_modify h
  · rw [if_neg ha] at h
    exact Heap.inUse_of_modify h

/-- What is above a rotated node, if anything. -/
theorem inUse_of_relinkAbove
    (h : (if w ≠ none then relink heap w a q else .ok heap : Except Stop _) = .ok heap') :
    heap'.inUse = heap.inUse := by
  by_cases hw : w ≠ none
  · rw [if_pos hw] at h
    exact inUse_of_relink h
  · rw [if_neg hw] at h
    rw [Except.ok.inj h]

theorem inUse_of_pivot {s : Side} {x inner y : Ptr}
    (h : (pivot s heap a : Except Stop _) = .ok (heap', x, inner, y)) :
    heap'.inUse = heap.inUse := by
  obtain ⟨na, -, h⟩ := bind_eq_ok.mp h
  obtain ⟨nx, -, h⟩ := bind_eq_ok.mp h
  obtain ⟨h₁, hmod₁, h⟩ := bind_eq_ok.mp h
  obtain ⟨h₂, hmod₂, h⟩ := bind_eq_ok.mp h
  obtain ⟨h₃, hmod₃, h⟩ := bind_eq_ok.mp h
  obtain ⟨h₄, hmod₄, h⟩ := bind_eq_ok.mp h
  obtain ⟨rfl, -⟩ := Prod.mk.inj (Except.ok.inj h)
  rw [Heap.inUse_of_modify hmod₄, Heap.inUse_of_modify hmod₃, Heap.inUse_of_modify hmod₂,
    Heap.inUse_of_modify hmod₁]

end Links

variable {map map' : SearchTree K V H} {a : ℕ} {node new_value : Ptr} {key : K} {data : Option V}
  {height : H} {cmp : K → K → ℤ}

theorem card_of_addChild {s : Side} (h : addChild map node s key data height = .ok map') :
    map'.heap.inUse.card = map.heap.inUse.card + 1 := by
  obtain ⟨heap, hmod, h⟩ := bind_eq_ok.mp h
  rw [← Except.ok.inj h]
  show heap.inUse.card = _
  rw [Heap.inUse_of_modify hmod]
  exact Heap.card_inUse_alloc

/-- Below a node one node is added. -/
theorem card_of_setNode {rotate : SearchTree K V H → Ptr → Except Stop (SearchTree K V H)}
    (hrotate : ∀ map node map', rotate map node = .ok map' → map'.heap.inUse = map.heap.inUse)
    {fuel : ℕ} (h : setNode cmp height rotate fuel map (some a) key data = .ok map') :
    map'.heap.inUse.card = map.heap.inUse.card + 1 := by
  induction fuel generalizing a map map' with
  | zero => cases h
  | succ fuel ih =>
    rw [setNode, if_neg (Option.some_ne_none a)] at h
    obtain ⟨n, -, h⟩ := bind_eq_ok.mp h
    obtain ⟨mid, hbelow, hrot⟩ := bind_eq_ok.mp h
    rw [hrotate _ _ _ hrot]
    cases hchild : n.child (side (cmp n.value.key key)) with
    | none =>
      rw [hchild, if_neg (not_not.mpr rfl)] at hbelow
      exact card_of_addChild hbelow
    | some child =>
      rw [hchild, if_pos (Option.some_ne_none child)] at hbelow
      exact ih hbelow

/-- A `set` takes one block, as long as its rotation takes none. -/
theorem card_of_set {rotate : SearchTree K V H → Ptr → Except Stop (SearchTree K V H)}
    (hrotate : ∀ map node map', rotate map node = .ok map' → map'.heap.inUse = map.heap.inUse)
    {rc : ℤ} (h : set cmp height rotate map key data = .ok (map', rc)) :
    map'.heap.inUse.card = map.heap.inUse.card + 1 := by
  unfold set at h
  cases hroot : map.root with
  | none =>
    rw [hroot, if_pos rfl] at h
    obtain ⟨rfl, -⟩ := Prod.mk.inj (Except.ok.inj h)
    exact Heap.card_inUse_alloc
  | some root =>
    rw [hroot, if_neg (Option.some_ne_none root)] at h
    obtain ⟨mid, hset, h⟩ := bind_eq_ok.mp h
    obtain ⟨rfl, -⟩ := Prod.mk.inj (Except.ok.inj h)
    exact card_of_setNode hrotate hset

theorem inUse_of_swap {heap heap' : Heap (Node (Payload K V H))} {p q : Ptr}
    (h : swap heap p q = .ok heap') : heap'.inUse = heap.inUse := by
  obtain ⟨nb, -, h⟩ := bind_eq_ok.mp h
  obtain ⟨na, -, h⟩ := bind_eq_ok.mp h
  obtain ⟨h₁, hmod₁, h⟩ := bind_eq_ok.mp h
  obtain ⟨h₂, hmod₂, h⟩ := bind_eq_ok.mp h
  obtain ⟨nb, -, h⟩ := bind_eq_ok.mp h
  obtain ⟨na, -, h⟩ := bind_eq_ok.mp h
  obtain ⟨h₃, hmod₃, h⟩ := bind_eq_ok.mp h
  rw [Heap.inUse_of_modify h, Heap.inUse_of_modify hmod₃, Heap.inUse_of_modify hmod₂,
    Heap.inUse_of_modify hmod₁]

/-- Linking another node into the place of one frees nothing. -/
theorem inUse_of_replaceNodeInParent (h : replaceNodeInParent map node new_value = .ok map') :
    map'.heap.inUse = map.heap.inUse := by
  obtain ⟨n, -, h⟩ := bind_eq_ok.mp h
  obtain ⟨mid, hlink, h⟩ := bind_eq_ok.mp h
  obtain ⟨n', -, h⟩ := bind_eq_ok.mp h
  obtain ⟨heap, hadopt, h⟩ := bind_eq_ok.mp h
  have hmid : mid.heap.inUse = map.heap.inUse := by
    by_cases hparent : n.parent ≠ none
    · rw [if_pos hparent] at hlink
      obtain ⟨heap, hrelink, hlink⟩ := bind_eq_ok.mp hlink
      rw [← Except.ok.inj hlink]
      exact inUse_of_relink hrelink
    · rw [if_neg hparent] at hlink
      rw [← Except.ok.inj hlink]
  rw [← Except.ok.inj h]
  exact (inUse_of_adopt hadopt).trans hmid

/-- A node is taken out of the tree, and is still in use. -/
theorem inUse_of_unlinkNode {out : SearchTree K V H × Ptr} (h : unlinkNode map node = .ok out) :
    out.1.heap.inUse = map.heap.inUse := by
  -- in the last three cases all that happens is that the node is replaced
  have hreplaced : ∀ new_value : Ptr, (do
      let map ← replaceNodeInParent map node new_value
      return (map, node) : Except Stop _) = .ok out → out.1.heap.inUse = map.heap.inUse := by
    intro new_value hreplace
    obtain ⟨map', hreplace, hout⟩ := bind_eq_ok.mp hreplace
    rw [← Except.ok.inj hout]
    exact inUse_of_replaceNodeInParent hreplace
  obtain ⟨n, -, h⟩ := bind_eq_ok.mp h
  by_cases hboth : n.left ≠ none ∧ n.right ≠ none
  · rw [if_pos hboth] at h
    obtain ⟨successor, -, h⟩ := bind_eq_ok.mp h
    obtain ⟨heap, hswap, h⟩ := bind_eq_ok.mp h
    obtain ⟨s, -, h⟩ := bind_eq_ok.mp h
    obtain ⟨map', hreplace, hout⟩ := bind_eq_ok.mp h
    rw [← Except.ok.inj hout]
    exact (inUse_of_replaceNodeInParent hreplace).trans (inUse_of_swap hswap)
  · rw [if_neg hboth] at h
    by_cases hleft : n.left ≠ none
    · rw [if_pos hleft] at h
      exact hreplaced _ h
    · rw [if_neg hleft] at h
      by_cases hright : n.right ≠ none
      · rw [if_pos hright] at h
        exact hreplaced _ h
      · rw [if_neg hright] at h
        exact hreplaced _ h

/-- The node is taken out of the tree here, and freed by the caller. -/
theorem inUse_of_nodeDelete {fuel : ℕ} {out : SearchTree K V H × Ptr}
    (h : nodeDelete cmp fuel map node key = .ok out) : out.1.heap.inUse = map.heap.inUse := by
  induction fuel generalizing node with
  | zero => cases h
  | succ fuel ih =>
    rw [nodeDelete] at h
    obtain ⟨n, -, h⟩ := bind_eq_ok.mp h
    by_cases hc : cmp n.value.key key ≠ 0
    · rw [if_pos hc] at h
      by_cases hchild : n.child (side (cmp n.value.key key)) ≠ none
      · rw [if_pos hchild] at h
        exact ih h
      · rw [if_neg hchild] at h
        rw [← Except.ok.inj h]
    · rw [if_neg hc] at h
      exact inUse_of_unlinkNode h

/-! ## A map owns its blocks

The blocks in use are the nodes of the tree and no others. `set` makes one more of both, and `delete`
frees the node that it has taken out. -/

/-- The map is made of the nodes of `t`, and no block is in use that is not one of them. -/
structure Owns (map : SearchTree K V H) (compare : K → K → ℤ) (t : Shape (Payload K V H)) :
    Prop where
  holds : Holds map compare t
  card_inUse : map.heap.inUse.card = t.numNodes

variable {compare : K → K → ℤ} {t : Shape (Payload K V H)}

theorem owns_create (compare : K → K → ℤ) : Owns (create compare : SearchTree K V H) compare nil :=
  ⟨holds_create compare, rfl⟩

/-- A tree that owns its blocks owns the new one behind a `set`. -/
theorem Owns.set {fix : Shape (Payload K V H) → Shape (Payload K V H)}
    {P : ℕ × Payload K V H → Prop}
    {rotate : SearchTree K V H → Ptr → Except Stop (SearchTree K V H)}
    (hP : ∀ a, P (a, ⟨key, data, height⟩))
    (hfix : ∀ t, (∀ p ∈ inorder t, P p) → ∀ p ∈ inorder (fix t), P p)
    (hsize : ∀ t, (fix t).numNodes = t.numNodes)
    (hrotate : ∀ (map : SearchTree K V H) c t, t ≠ nil → (∀ p ∈ inorder t, P p) →
      Holds map compare (plug c t) →
      ∃ map', rotate map (rootOf t) = .ok map' ∧ Holds map' compare (plug c (fix t)))
    (hinUse : ∀ map node map', rotate map node = .ok map' → map'.heap.inUse = map.heap.inUse)
    (ho : Owns map compare t) (ht : ∀ p ∈ inorder t, P p) :
    ∃ map' t', SearchTree.set cmp height rotate map key data = .ok (map', 0) ∧
      Owns map' compare t' ∧ ∀ p ∈ inorder t', P p := by
  obtain ⟨map', hset, hm'⟩ : ∃ map', SearchTree.set cmp height rotate map key data = .ok (map', 0) ∧
      Holds map' compare
        (Bst.insert (against cmp key) fix (map.heap.brk, ⟨key, data, height⟩) t) :=
    set_eq hP hfix hrotate ho.holds ht
  refine ⟨map', _, hset, ⟨hm', ?_⟩, Bst.forall_insert hfix (hP _) ht⟩
  rw [card_of_set hinUse hset, Bst.numNodes_insert hsize, ho.card_inUse]

/-- Behind a `delete` it owns all blocks but that of the node that has gone. -/
theorem Owns.delete (cmp : K → K → ℤ) (key : K) (ho : Owns map compare t) :
    ∃ map' data, SearchTree.delete cmp map key = .ok (map', data) ∧
      Owns map' compare (Bst.erase (against cmp key) takeOver t) := by
  obtain ⟨map', hdelete, hm'⟩ : ∃ map', SearchTree.delete cmp map key =
        .ok (map', (Bst.find (against cmp key) t).bind fun p => p.2.data) ∧
      Holds map' compare (Bst.erase (against cmp key) takeOver t) :=
    delete_eq ho.holds
  refine ⟨map', _, hdelete, hm', ?_⟩
  unfold SearchTree.delete at hdelete
  rw [ho.holds.root_eq] at hdelete
  by_cases hnil : t = nil
  · subst hnil
    rw [root_nil, if_neg (not_not.mpr rfl)] at hdelete
    obtain ⟨rfl, -⟩ := Prod.mk.inj (Except.ok.inj hdelete)
    exact ho.card_inUse
  · rw [if_pos (mt root_eq_none.mp hnil)] at hdelete
    have hheight : t.height ≤ map.heap.brk := t.height_le_numNodes.trans ho.holds.linked.numNodes_le
    have hnode := nodeDelete_eq (c := []) cmp key ho.holds hnil hheight
    cases hfind : Bst.find (against cmp key) t with
    | none =>
      rw [hfind] at hnode
      rw [hnode, ok_bind] at hdelete
      obtain ⟨rfl, -⟩ := Prod.mk.inj (Except.ok.inj hdelete)
      rw [Bst.erase_of_find_none hfind]
      exact ho.card_inUse
    | some p =>
      rw [hfind] at hnode
      obtain ⟨mid, a, n, hnode, -, -, hcell, -⟩ := hnode
      rw [hnode, ok_bind] at hdelete
      have hfreed : map'.heap = mid.heap.drop a := by
        have hend : (do
            let n ← mid.heap.load (some a)
            let heap ← mid.heap.free (some a)
            pure ({ mid with heap }, n.value.data) : Except Stop _) = .ok (map', _) := hdelete
        rw [Heap.load_eq hcell, ok_bind, Heap.free_eq hcell, ok_bind] at hend
        rw [← (Prod.mk.inj (Except.ok.inj hend)).1]
      -- one block less and one node less
      have hblocks := Heap.card_inUse_drop hcell
      have hnodes := Bst.numNodes_erase hfind takeOver
      rw [inUse_of_nodeDelete hnode, ho.card_inUse, ← hnodes] at hblocks
      rw [hfreed]
      exact Nat.succ_injective hblocks

/-- No block is left when the map is destroyed. -/
theorem Owns.destroy (ho : Owns map compare t) :
    ∃ heap, SearchTree.destroy map = .ok heap ∧ ∀ a, heap.cells a = none := by
  obtain ⟨heap, hdestroy, hgone, hkeep⟩ := destroy_eq ho.holds
  refine ⟨heap, hdestroy, fun a => ?_⟩
  by_cases ha : a ∈ addrs t
  · exact hgone a ha
  · rw [hkeep a ha]
    have hout : a ∉ map.heap.inUse := by
      rw [ho.holds.linked.inUse_eq ho.card_inUse]
      exact mt List.mem_toFinset.mp ha
    rw [Heap.mem_inUse] at hout
    exact Option.eq_none_iff_forall_ne_some.mpr fun n hn => hout ⟨n, hn⟩

/-! ## Runs

The keys may be any, and the comparison need not be an order: which way a call goes does not matter for
the number of blocks. So nothing is asked of the calls. -/

/-- The calls of a kind of tree keep the blocks in use those of its nodes, and a property `P` that the
kind needs of every node. -/
structure Accounts (calls : Calls K V H) (compare : K → K → ℤ) (P : ℕ × Payload K V H → Prop) :
    Prop where
  set : ∀ map t k d, Owns map compare t → (∀ p ∈ inorder t, P p) →
    ∃ map' t', calls.set map k d = .ok (map', 0) ∧ Owns map' compare t' ∧ ∀ p ∈ inorder t', P p
  get : ∀ map t k, Owns map compare t → ∃ d, calls.get map k = .ok d
  delete : ∀ map t k, Owns map compare t → (∀ p ∈ inorder t, P p) →
    ∃ map' t' d, calls.delete map k = .ok (map', d) ∧ Owns map' compare t' ∧ ∀ p ∈ inorder t', P p

variable {calls : Calls K V H} {P : ℕ × Payload K V H → Prop}

/-- So does every call. -/
theorem Accounts.exec (ha : Accounts calls compare P) (op : Op K V) (ho : Owns map compare t)
    (ht : ∀ p ∈ inorder t, P p) :
    ∃ map', exec calls map op = .ok map' ∧
      ∃ t', Owns map' compare t' ∧ ∀ p ∈ inorder t', P p := by
  cases op with
  | set key data =>
    obtain ⟨map', t', hset, hnew⟩ := ha.set map t key data ho ht
    refine ⟨map', ?_, t', hnew⟩
    rw [SearchTree.exec, hset]
    rfl
  | get key =>
    obtain ⟨d, hget⟩ := ha.get map t key ho
    refine ⟨map, ?_, t, ho, ht⟩
    rw [SearchTree.exec, hget]
    rfl
  | delete key =>
    obtain ⟨map', t', d, hdelete, hnew⟩ := ha.delete map t key ho ht
    refine ⟨map', ?_, t', hnew⟩
    rw [SearchTree.exec, hdelete]
    rfl

theorem Accounts.run (ha : Accounts calls compare P) (ops : List (Op K V)) :
    ∃ map heap, Run.run (SearchTree.exec calls) (create compare) ops = .ok map ∧
      SearchTree.destroy map = .ok heap ∧ ∀ a, heap.cells a = none := by
  have hrun : Run.Sustained (SearchTree.exec calls)
      (fun map => ∃ t, Owns map compare t ∧ ∀ p ∈ inorder t, P p) (create compare) ops :=
    Run.sustained_of_step (fun map op hm => hm.elim fun t hm => ha.exec op hm.1 hm.2)
      ⟨nil, owns_create compare, by simp⟩ ops
  obtain ⟨map, hrun, t, ho, -⟩ := hrun.last
  obtain ⟨heap, hdestroy, hempty⟩ := ho.destroy
  exact ⟨map, heap, hrun, hdestroy, hempty⟩

end SearchTree

/-! ## The two trees

A `BSTree` needs nothing of its nodes. An AVL tree needs the heights on record to be positive, since its
rotations look at them before they dereference a child. -/

namespace BSTree

open SearchTree

variable {K V : Type}

theorem accounts (compare : K → K → ℤ) :
    Accounts (calls : Calls K V Unit) compare fun _ => True where
  set _ _ _ _ ho ht :=
    Owns.set (fun _ => trivial) (fun _ _ _ _ => trivial) (fun t => congrArg numNodes (id_eq t))
      (fun map _ _ _ _ hm => ⟨map, rfl, hm⟩)
      (fun _ _ _ h => congrArg (fun map => map.heap.inUse) (Except.ok.inj h).symm) ho ht
  get _ _ _ ho := ⟨_, SearchTree.get_eq ho.holds⟩
  delete map t k ho _ := by
    obtain ⟨map', d, hdelete, ho'⟩ := ho.delete (order map) k
    exact ⟨map', _, d, hdelete, ho', fun _ _ => trivial⟩

end BSTree

namespace AVLTree

open SearchTree

variable {K V : Type} {heap heap' : Heap (Node (Payload K V ℤ))} {map map' : AVLTree K V}
  {a node : Ptr}

theorem inUse_of_updateHeight (h : updateHeight heap a = .ok heap') : heap'.inUse = heap.inUse := by
  obtain ⟨n, -, h⟩ := bind_eq_ok.mp h
  obtain ⟨l, -, h⟩ := bind_eq_ok.mp h
  obtain ⟨r, -, h⟩ := bind_eq_ok.mp h
  exact Heap.inUse_of_modify h

/-- A rotation to either side. -/
theorem inUse_of_rightRotate (h : rightRotate heap a = .ok heap') : heap'.inUse = heap.inUse := by
  obtain ⟨⟨h₁, x, inner, y⟩, hpivot, h⟩ := bind_eq_ok.mp h
  obtain ⟨h₂, hrelink, h⟩ := bind_eq_ok.mp h
  obtain ⟨h₃, hadopt, h⟩ := bind_eq_ok.mp h
  obtain ⟨h₄, hupdate, h⟩ := bind_eq_ok.mp h
  rw [inUse_of_updateHeight h, inUse_of_updateHeight hupdate, inUse_of_adopt hadopt,
    inUse_of_relinkAbove hrelink, inUse_of_pivot hpivot]

theorem inUse_of_leftRotate (h : leftRotate heap a = .ok heap') : heap'.inUse = heap.inUse := by
  obtain ⟨⟨h₁, x, inner, y⟩, hpivot, h⟩ := bind_eq_ok.mp h
  obtain ⟨h₂, hadopt, h⟩ := bind_eq_ok.mp h
  obtain ⟨h₃, hrelink, h⟩ := bind_eq_ok.mp h
  obtain ⟨h₄, hupdate, h⟩ := bind_eq_ok.mp h
  rw [inUse_of_updateHeight h, inUse_of_updateHeight hupdate, inUse_of_relinkAbove hrelink,
    inUse_of_adopt hadopt, inUse_of_pivot hpivot]

theorem inUse_of_patchRoot (h : patchRoot map node = .ok map') :
    map'.heap.inUse = map.heap.inUse := by
  obtain ⟨n, -, h⟩ := bind_eq_ok.mp h
  obtain ⟨p, -, h⟩ := bind_eq_ok.mp h
  rw [← Except.ok.inj h]
  by_cases hp : p.parent = none
  · rw [if_pos hp]
  · rw [if_neg hp]

/-- A rotation only relinks nodes. -/
theorem inUse_of_rotate (h : rotate map node = .ok map') :
    map'.heap.inUse = map.heap.inUse := by
  obtain ⟨balance, -, h⟩ := bind_eq_ok.mp h
  obtain ⟨mid, hmid, h⟩ := bind_eq_ok.mp h
  obtain ⟨heap, hupdate, h⟩ := bind_eq_ok.mp h
  rw [← Except.ok.inj h]
  refine (inUse_of_updateHeight hupdate).trans ?_
  by_cases hgt : balance > 1
  · -- the left side is the higher one: right rotation, with one on the inner side before it
    rw [if_pos hgt] at hmid
    obtain ⟨n, -, hmid⟩ := bind_eq_ok.mp hmid
    obtain ⟨inner, -, hmid⟩ := bind_eq_ok.mp hmid
    obtain ⟨h₁, hinner, hmid⟩ := bind_eq_ok.mp hmid
    obtain ⟨h₂, houter, hmid⟩ := bind_eq_ok.mp hmid
    refine (inUse_of_patchRoot hmid).trans ((inUse_of_rightRotate houter).trans ?_)
    by_cases hge : inner ≥ 0
    · rw [if_pos hge] at hinner
      rw [← Except.ok.inj hinner]
    · rw [if_neg hge] at hinner
      exact inUse_of_leftRotate hinner
  · rw [if_neg hgt] at hmid
    by_cases hlt : balance < -1
    · rw [if_pos hlt] at hmid
      obtain ⟨n, -, hmid⟩ := bind_eq_ok.mp hmid
      obtain ⟨inner, -, hmid⟩ := bind_eq_ok.mp hmid
      obtain ⟨h₁, hinner, hmid⟩ := bind_eq_ok.mp hmid
      obtain ⟨h₂, houter, hmid⟩ := bind_eq_ok.mp hmid
      refine (inUse_of_patchRoot hmid).trans ((inUse_of_leftRotate houter).trans ?_)
      by_cases hle : inner ≤ 0
      · rw [if_pos hle] at hinner
        rw [← Except.ok.inj hinner]
      · rw [if_neg hle] at hinner
        exact inUse_of_rightRotate hinner
    · rw [if_neg hlt] at hmid
      rw [← Except.ok.inj hmid]

theorem numNodes_rebalance (t : Nodes K V) : (rebalance t).numNodes = t.numNodes := by
  have hlen := congrArg List.length (entries_rebalance t)
  rwa [List.length_map, List.length_map, Bst.length_inorder, Bst.length_inorder] at hlen

theorem accounts (compare : K → K → ℤ) :
    Accounts (calls : Calls K V ℤ) compare fun p => 1 ≤ p.2.height where
  set _ _ _ _ ho ht :=
    Owns.set (fun _ => le_rfl) (fun _ ht => Standing.rebalance ht) numNodes_rebalance
      (fun _ _ _ hne ht hm => rotate_eq hm hne ht) (fun _ _ _ h => inUse_of_rotate h) ho ht
  get _ _ _ ho := ⟨_, SearchTree.get_eq ho.holds⟩
  delete map t k ho ht := by
    obtain ⟨map', d, hdelete, ho'⟩ := ho.delete (order map) k
    exact ⟨map', _, d, hdelete, ho', Bst.forall_erase (fun _ _ hp => hp) ht⟩

end AVLTree

/-- **A map that is destroyed leaves nothing behind.** Whatever was set, sought and deleted in it, and
whatever the comparison answers, no call and no part of the `destroy` goes through a null pointer or
to a node that was freed, and every block that was ever allocated has been freed. -/
theorem SearchTree.run_destroy {K V : Type} (compare : K → K → ℤ) (ops : List (Op K V)) :
    (∃ (map : BSTree K V) (heap : Heap _),
      Run.run (exec BSTree.calls) (create compare) ops = .ok map ∧
        destroy map = .ok heap ∧ ∀ a, heap.cells a = none) ∧
      ∃ (map : AVLTree K V) (heap : Heap _),
        Run.run (exec AVLTree.calls) (create compare) ops = .ok map ∧
          destroy map = .ok heap ∧ ∀ a, heap.cells a = none :=
  ⟨(BSTree.accounts compare).run ops, (AVLTree.accounts compare).run ops⟩

end Lcthw
