import Lcthw.BSTree.Defs

/-!
# Lcthw — the nodes of a search tree (`bstree.c`)

The code of both trees goes from node to node; `Bst` goes down a tree. The two do the same:

* **`Holds`**: the nodes of a map, linked, with `map->root` the first of them.
* **`setNode_eq`**, **`getNode_eq`**, **`nodeDelete_eq`**: the recursions of the code, at a subtree
  that is in a hole of the whole tree. `setNode_eq` is for any function in the place of `rotate` that
  changes the tree in the hole alone.
* **`get_eq`**, **`set_eq`**, **`delete_eq`**: what the three calls do to the tree.
-/

namespace Lcthw.SearchTree

open BinaryTree LinkedTree
open Bst (inorder find erase eraseRoot popMin)

variable {K V H : Type}

/-- The map is made of the nodes of `t`. -/
structure Holds (map : SearchTree K V H) (compare : K → K → ℤ) (t : Shape (Payload K V H)) :
    Prop where
  linked : Linked map.heap t
  root_eq : map.root = rootOf t
  compare_eq : map.compare = compare

/-- How a node compares with a key. -/
def against (cmp : K → K → ℤ) (key : K) (p : ℕ × Payload K V H) : ℤ :=
  cmp p.2.key key

def entry (p : ℕ × Payload K V H) : K × Option V :=
  (p.2.key, p.2.data)

/-- The node `p` with the key and data of `m`. -/
def takeOver (p m : ℕ × Payload K V H) : ℕ × Payload K V H :=
  (p.1, { p.2 with key := m.2.key, data := m.2.data })

variable {cmp compare : K → K → ℤ} {map : SearchTree K V H} {heap : Heap (Node (Payload K V H))}
  {key : K} {data : Option V} {height : H} {fuel : ℕ} {w : Ptr}
  {p : ℕ × Payload K V H} {l r t u v : Shape (Payload K V H)}
  {c : List (Frame (Payload K V H))}

theorem holds_create (compare : K → K → ℤ) : Holds (create compare : SearchTree K V H) compare nil :=
  ⟨⟨trivial, List.nodup_nil⟩, rfl, rfl⟩

/-! ## The side to go to

The two branches of every comparison in the code differ in the side alone. `branch` names the side, and
what `Bst` does at a node is said once for both. -/

theorem exists_branch (s : Side) (p : ℕ × Payload K V H) (l r : Shape (Payload K V H)) :
    ∃ u v, node p l r = branch s p u v := by
  cases s with
  | left => exact ⟨l, r, rfl⟩
  | right => exact ⟨r, l, rfl⟩

theorem height_branch (s : Side) (p : ℕ × Payload K V H) (u v : Shape (Payload K V H)) :
    u.height < (branch s p u v).height := by
  cases s with
  | left =>
    show u.height < max u.height v.height + 1
    omega
  | right =>
    show u.height < max v.height u.height + 1
    omega

theorem forall_branch {s : Side} {P : ℕ × Payload K V H → Prop} :
    (∀ q ∈ inorder (branch s p u v), P q) ↔
      P p ∧ (∀ q ∈ inorder u, P q) ∧ ∀ q ∈ inorder v, P q := by
  cases s <;> simp [branch, or_imp, forall_and] <;> tauto

theorem branch_ne_nil {s : Side} : branch s p u v ≠ nil := by
  cases s <;> exact nofun

theorem find_branch : find (against cmp key) (branch (side (against cmp key p)) p u v) =
    if against cmp key p = 0 then some p else find (against cmp key) u := by
  by_cases hge : against cmp key p ≥ 0
  · simp [side, hge, branch, find]
  · simp [side, hge, branch, find]

theorem insert_branch {fix : Shape (Payload K V H) → Shape (Payload K V H)}
    {new : ℕ × Payload K V H} :
    Bst.insert (against cmp key) fix new (branch (side (against cmp key p)) p u v) =
      fix (branch (side (against cmp key p)) p (Bst.insert (against cmp key) fix new u) v) := by
  by_cases hge : against cmp key p ≥ 0
  · simp [side, hge, branch, Bst.insert]
  · simp [side, hge, branch, Bst.insert]

theorem erase_branch (hne : against cmp key p ≠ 0) :
    erase (against cmp key) takeOver (branch (side (against cmp key p)) p u v) =
      branch (side (against cmp key p)) p (erase (against cmp key) takeOver u) v := by
  by_cases hge : against cmp key p ≥ 0
  · simp [side, hge, branch, erase, hne]
  · simp [side, hge, branch, erase, hne]

/-! ## Reading

A search and the way to the least node go from a node to its child by pointers, and from a tree to its
subtree. The fuel is the height of the tree at most. -/

/-- The search in the heap finds the node that the search in the shape finds. -/
theorem getNode_eq (hr : Rep heap w t) (hne : t ≠ nil) (hfuel : t.height ≤ fuel) :
    getNode cmp fuel heap (rootOf t) key = .ok ((find (against cmp key) t).map Prod.fst) := by
  induction fuel generalizing t w with
  | zero =>
    cases t with
    | nil => exact absurd rfl hne
    | node p l r => exact absurd hfuel (by simp [BinaryTree.height])
  | succ fuel ih =>
    cases t with
    | nil => exact absurd rfl hne
    | node p l r =>
      -- `u` is the child on the side of the key, whichever that is
      obtain ⟨u, v, hbranch⟩ := exists_branch (side (against cmp key p)) p l r
      rw [hbranch] at hr hfuel ⊢
      obtain ⟨hcell, hu, -⟩ := rep_branch.mp hr
      have hlt := height_branch (side (against cmp key p)) p u v
      rw [root_branch, find_branch]
      unfold getNode
      rw [Heap.load_eq hcell, ok_bind, Node.value_link]
      show (if against cmp key p = 0 then _ else _) = _
      split
      · rfl
      · show (if Node.child _ (side (against cmp key p)) ≠ none then
          getNode cmp fuel heap (Node.child _ (side (against cmp key p))) key else _) = _
        rw [Node.child_link]
        by_cases hnil : u = nil
        · subst hnil
          rfl
        · rw [if_pos (mt root_eq_none.mp hnil)]
          exact ih hu hnil (by omega)

/-- **`get` on a heap** returns the data of that node. -/
theorem get_eq (hm : Holds map compare t) :
    get cmp map key = .ok ((find (against cmp key) t).bind fun p => p.2.data) := by
  unfold get
  rw [hm.root_eq]
  by_cases hnil : t = nil
  · subst hnil
    rfl
  · have hheight : t.height ≤ map.heap.brk := t.height_le_numNodes.trans hm.linked.numNodes_le
    rw [if_neg (mt root_eq_none.mp hnil), getNode_eq hm.linked.rep hnil hheight, ok_bind]
    cases hfind : find (against cmp key) t with
    | none => rfl
    | some p =>
      obtain ⟨n, hn, hvalue⟩ := hm.linked.rep.cells_mem (Bst.find_eq_some hfind).1
      show (do let n ← map.heap.load (some p.1); pure n.value.data : Except Stop _) = .ok p.2.data
      rw [Heap.load_eq hn, ok_bind, hvalue]
      rfl

theorem findMin_eq (hr : Rep heap w (node p l r)) (hfuel : (node p l r).height ≤ fuel) :
    findMin fuel heap (some p.1) = .ok (some (popMin p l r).1.1) := by
  induction fuel generalizing p l r w with
  | zero => exact absurd hfuel (by simp [BinaryTree.height])
  | succ fuel ih =>
    unfold findMin
    rw [Heap.load_eq hr.1, ok_bind]
    cases l with
    | nil => rfl
    | node q l₁ r₁ =>
      have hlt : (node q l₁ r₁).height ≤ fuel := by
        have : (node p (node q l₁ r₁) r).height = max (node q l₁ r₁).height r.height + 1 := rfl
        omega
      exact ih hr.2.1 hlt

/-! ## Setting

The recursion goes down to a missing child, links the new node there, and on the way back up lets
`rotate` change what is in the hole. What is around the hole never changes, except for the pointer to
what is in it. -/

section Set

variable {fix : Shape (Payload K V H) → Shape (Payload K V H)} {P : ℕ × Payload K V H → Prop}
  {rotate : SearchTree K V H → Ptr → Except Stop (SearchTree K V H)}

theorem setNode_succ {a : ℕ} {n : Node (Payload K V H)} (hcell : map.heap.cells a = some n) :
    setNode cmp height rotate (fuel + 1) map (some a) key data =
      (if n.child (side (cmp n.value.key key)) ≠ none then
        setNode cmp height rotate fuel map (n.child (side (cmp n.value.key key))) key data
      else
        map.addChild (some a) (side (cmp n.value.key key)) key data height) >>=
      fun map => rotate map (some a) := by
  rw [setNode, if_neg (Option.some_ne_none a), Heap.load_eq hcell, ok_bind]

/-- A new node hangs where there was none, and knows its parent. -/
theorem Holds.addChild {s : Side} (hm : Holds map compare (plug c (branch s p nil v))) (key : K)
    (data : Option V) (height : H) :
    ∃ map', addChild map (some p.1) s key data height = .ok map' ∧
      Holds map' compare (plug c (branch s p
        (node (map.heap.brk, ⟨key, data, height⟩) nil nil) v)) := by
  have hcell := (rep_branch.mp (linked_plug.mp hm.linked).1).1
  have hroot : rootOf (plug c (branch s p nil v)) = rootOf (plug c (branch s p
      (node (map.heap.brk, ⟨key, data, height⟩) nil nil) v)) := by
    cases c with
    | nil => simp
    | cons f c => exact root_plug_cons f c _ _
  refine ⟨{ map with heap := _ }, ?_, hm.linked.attach ⟨key, data, height⟩,
    hm.root_eq.trans hroot, hm.compare_eq⟩
  unfold SearchTree.addChild
  simp only [createNode]
  rw [Heap.modify_eq (Heap.cells_alloc_of_some hcell)]
  rfl

/-- **Setting, below a node.** On the way back up `rotate` meets a tree all nodes of which have the
property `P`, and changes it by `fix`, which keeps the property. -/
theorem setNode_eq (hP : ∀ a, P (a, ⟨key, data, height⟩))
    (hfix : ∀ t, (∀ p ∈ inorder t, P p) → ∀ p ∈ inorder (fix t), P p)
    (hrotate : ∀ (map : SearchTree K V H) c t, t ≠ nil → (∀ p ∈ inorder t, P p) →
      Holds map compare (plug c t) →
      ∃ map', rotate map (rootOf t) = .ok map' ∧ Holds map' compare (plug c (fix t)))
    (hm : Holds map compare (plug c t)) (hne : t ≠ nil) (hfuel : t.height ≤ fuel)
    (ht : ∀ p ∈ inorder t, P p) :
    ∃ map', setNode cmp height rotate fuel map (rootOf t) key data = .ok map' ∧
      Holds map' compare
        (plug c (Bst.insert (against cmp key) fix (map.heap.brk, ⟨key, data, height⟩) t)) := by
  induction fuel generalizing t c map with
  | zero =>
    cases t with
    | nil => exact absurd rfl hne
    | node p l r => exact absurd hfuel (by simp [BinaryTree.height])
  | succ fuel ih =>
    cases t with
    | nil => exact absurd rfl hne
    | node p l r =>
      -- `u` is the child that the entry goes below, on either side
      obtain ⟨u, v, hbranch⟩ := exists_branch (side (against cmp key p)) p l r
      rw [hbranch] at hm ht hfuel ⊢
      have hcell := (rep_branch.mp (linked_plug.mp hm.linked).1).1
      have hlt := height_branch (side (against cmp key p)) p u v
      rw [root_branch, insert_branch]
      -- on the way back the subtree is put right, however the entry was added
      have hfixed : ∀ map' : SearchTree K V H, Holds map' compare
          (plug c (branch (side (against cmp key p)) p
            (Bst.insert (against cmp key) fix (map.heap.brk, ⟨key, data, height⟩) u) v)) →
          ∃ map'', rotate map' (some p.1) = .ok map'' ∧ Holds map'' compare
            (plug c (fix (branch (side (against cmp key p)) p
              (Bst.insert (against cmp key) fix (map.heap.brk, ⟨key, data, height⟩) u) v))) := by
        intro map' hm'
        obtain ⟨hp, hu, hv⟩ := forall_branch.mp ht
        have hrot := hrotate map' c _ branch_ne_nil
          (forall_branch.mpr ⟨hp, Bst.forall_insert hfix (hP _) hu, hv⟩) hm'
        rwa [root_branch] at hrot
      rw [setNode_succ hcell, Node.value_link, show cmp p.2.key key = against cmp key p from rfl,
        Node.child_link]
      by_cases hnil : u = nil
      · subst hnil
        obtain ⟨map', hadd, hm'⟩ := hm.addChild key data height
        rw [root_nil, if_neg (not_not.mpr rfl), hadd, ok_bind]
        exact hfixed map' hm'
      · obtain ⟨map', hset, hm'⟩ := ih (c := ⟨side (against cmp key p), p, v⟩ :: c) hm hnil
          (by omega) (forall_branch.mp ht).2.1
        rw [if_pos (mt root_eq_none.mp hnil), hset, ok_bind]
        exact hfixed map' hm'

/-- **`set` is an insertion.** -/
theorem set_eq (hP : ∀ a, P (a, ⟨key, data, height⟩))
    (hfix : ∀ t, (∀ p ∈ inorder t, P p) → ∀ p ∈ inorder (fix t), P p)
    (hrotate : ∀ (map : SearchTree K V H) c t, t ≠ nil → (∀ p ∈ inorder t, P p) →
      Holds map compare (plug c t) →
      ∃ map', rotate map (rootOf t) = .ok map' ∧ Holds map' compare (plug c (fix t)))
    (hm : Holds map compare t) (ht : ∀ p ∈ inorder t, P p) :
    ∃ map', set cmp height rotate map key data = .ok (map', 0) ∧
      Holds map' compare
        (Bst.insert (against cmp key) fix (map.heap.brk, ⟨key, data, height⟩) t) := by
  unfold set
  rw [hm.root_eq]
  by_cases hnil : t = nil
  · subst hnil
    refine ⟨_, rfl, ⟨⟨⟨Heap.cells_alloc_self, trivial, trivial⟩, by simp [Bst.insert]⟩, rfl,
      hm.compare_eq⟩⟩
  · have hheight : t.height ≤ map.heap.brk := t.height_le_numNodes.trans hm.linked.numNodes_le
    obtain ⟨map', hset, hm'⟩ := setNode_eq (c := []) hP hfix hrotate hm hnil hheight ht
    refine ⟨map', ?_, hm'⟩
    rw [if_neg (mt root_eq_none.mp hnil), hset]
    rfl

end Set

/-! ## Deleting

A node with two children takes over what the next node holds, and that node, which has no child to its
left, is taken out instead. Either way a node with at most one child leaves the tree. -/

/-- A node with at most one child is replaced by it. -/
theorem replaceNodeInParent_eq {s : Side} (hm : Holds map compare (plug c (branch s p u nil))) :
    ∃ map', replaceNodeInParent map (some p.1) (rootOf u) = .ok map' ∧
      Holds map' compare (plug c u) ∧ map'.heap.cells p.1 = map.heap.cells p.1 := by
  have hcell := (rep_branch.mp (linked_plug.mp hm.linked).1).1
  unfold replaceNodeInParent
  rw [Heap.load_eq hcell, ok_bind, Node.parent_link]
  cases c with
  | nil =>
    -- at the root it is the link of the map that changes
    obtain ⟨h', hadopt, hcell', hlinked⟩ := hm.linked.splice_root (ε := Stop)
    refine ⟨{ map with heap := h', root := rootOf u }, ?_, ⟨hlinked, rfl, hm.compare_eq⟩, hcell'⟩
    rw [if_neg (show ¬ up [] ≠ none from not_not.mpr rfl)]
    show (do let n ← map.heap.load (some p.1); _) = _
    rw [Heap.load_eq hcell, ok_bind, Node.parent_link]
    show (adopt map.heap (rootOf u) none >>= _) = _
    rw [hadopt]
    rfl
  | cons f c =>
    obtain ⟨h₁, h₂, hrelink, hadopt, hcell₁, hcell₂, hlinked⟩ := hm.linked.splice (ε := Stop)
    refine ⟨{ map with heap := h₂ }, ?_, ⟨hlinked, ?_, hm.compare_eq⟩, hcell₂⟩
    · rw [if_pos (show up (f :: c) ≠ none from Option.some_ne_none _), hrelink]
      show (do let n ← h₁.load (some p.1); _) = _
      rw [Heap.load_eq (hcell₁.trans hcell), ok_bind, Node.parent_link]
      show (adopt h₁ (rootOf u) (up (f :: c)) >>= _) = _
      rw [hadopt]
      rfl
    · exact hm.root_eq.trans (root_plug_cons f c _ _)

theorem le_height_plug (c : List (Frame (Payload K V H))) (t : Shape (Payload K V H)) :
    t.height ≤ (plug c t).height := by
  induction c generalizing t with
  | nil => exact le_rfl
  | cons f c ih => exact (height_branch f.side f.node t f.sib).le.trans (ih _)

/-- The first node in order has nothing to its left. -/
theorem exists_min (p : ℕ × Payload K V H) (l r : Shape (Payload K V H)) :
    ∃ d u, node p l r = plug d (node (popMin p l r).1 nil u) ∧ (popMin p l r).2 = plug d u := by
  induction l generalizing p r with
  | nil => exact ⟨[], r, rfl, rfl⟩
  | node q l₁ r₁ ih _ =>
    obtain ⟨d, u, hnode, hpop⟩ := ih q r₁
    refine ⟨d ++ [⟨.left, p, r⟩], u, ?_, ?_⟩
    · rw [plug_append, show popMin p (node q l₁ r₁) r = ((popMin q l₁ r₁).1, _) from rfl, ← hnode]
      rfl
    · rw [plug_append, ← hpop]
      rfl

/-- **`swap` exchanges what two nodes hold**, one of which is in a hole of the subtree to the right
of the other. -/
theorem swap_eq {a b : ℕ} {x y : Payload K V H} {d : List (Frame (Payload K V H))}
    (hl : Linked heap (plug c (node (a, x) l (plug d (node (b, y) t u))))) :
    ∃ heap', swap heap (some b) (some a) = .ok heap' ∧
      Linked heap' (plug c (node (a, { x with key := y.key, data := y.data }) l
        (plug d (node (b, { y with key := x.key, data := x.data }) t u)))) := by
  -- either node is in a hole of the tree
  have hfocus : ∀ {h : Heap (Node (Payload K V H))} {x y},
      Linked h (plug c (node (a, x) l (plug d (node (b, y) t u)))) ↔
        Linked h (plug (d ++ ⟨.right, (a, x), l⟩ :: c) (node (b, y) t u)) := by
    intro h x y
    rw [plug_append]
    rfl
  have ha := hl.cells_node
  have hb := (hfocus.mp hl).cells_node
  -- the keys
  have hl₁ := hl.setValue fun z => { z with key := y.key }
  have hb₁ := (hfocus.mp hl₁).cells_node
  have hl₂ := hfocus.mpr ((hfocus.mp hl₁).setValue fun z => { z with key := x.key })
  have ha₂ := hl₂.cells_node
  have hb₂ := (hfocus.mp hl₂).cells_node
  -- the data
  have hl₃ := hl₂.setValue fun z => { z with data := y.data }
  have hb₃ := (hfocus.mp hl₃).cells_node
  have hl₄ := hfocus.mpr ((hfocus.mp hl₃).setValue fun z => { z with data := x.data })
  refine ⟨_, ?_, hl₄⟩
  unfold swap
  simp only [Heap.load_eq ha, Heap.load_eq hb, ok_bind]
  rw [Heap.modify_eq ha, ok_bind, Heap.modify_eq hb₁, ok_bind, Heap.load_eq ha₂, ok_bind,
    Heap.load_eq hb₂, ok_bind, Heap.modify_eq ha₂, ok_bind, Heap.modify_eq hb₃]

/-- A node with two children: the first node `m` behind `p`, which has no child to its left, changes
places with it. -/
theorem unlinkNode_both {q₁ q₂ : ℕ × Payload K V H} {l₁ r₁ l₂ r₂ : Shape (Payload K V H)}
    (hm : Holds map compare (plug c (node p (node q₁ l₁ r₁) (node q₂ l₂ r₂)))) :
    ∃ map' a n, unlinkNode map (some p.1) = .ok (map', some a) ∧
      Holds map' compare (plug c (eraseRoot takeOver p (node q₁ l₁ r₁) (node q₂ l₂ r₂))) ∧
      a ∉ addrs (plug c (eraseRoot takeOver p (node q₁ l₁ r₁) (node q₂ l₂ r₂))) ∧
      map'.heap.cells a = some n ∧ n.value.data = p.2.data := by
  have hcell := hm.linked.cells_node (a := p.1) (x := p.2)
  obtain ⟨d, u, hnode, hpop⟩ := exists_min q₂ l₂ r₂
  obtain ⟨m, hm₁⟩ : ∃ m, (popMin q₂ l₂ r₂).1 = m := ⟨_, rfl⟩
  rw [hm₁] at hnode
  have hheight : (node q₂ l₂ r₂).height ≤ map.heap.brk := by
    have hle : (node p (node q₁ l₁ r₁) (node q₂ l₂ r₂)).height ≤ map.heap.brk :=
      (le_height_plug c _).trans (height_le_numNodes _ |>.trans hm.linked.numNodes_le)
    have hmax : (node p (node q₁ l₁ r₁) (node q₂ l₂ r₂)).height =
        max (node q₁ l₁ r₁).height (node q₂ l₂ r₂).height + 1 := rfl
    omega
  have hmin := findMin_eq (linked_plug.mp hm.linked).1.2.2 hheight
  have hl := hm.linked
  rw [hnode] at hl
  obtain ⟨heap', hswap, hl'⟩ := swap_eq hl
  have hm' : Holds { map with heap := heap' } compare
      (plug (d ++ ⟨.right, takeOver p m, node q₁ l₁ r₁⟩ :: c)
        (branch .right (takeOver m p) u nil)) := by
    refine ⟨?_, ?_, hm.compare_eq⟩
    · rw [plug_append]
      exact hl'
    · rw [plug_append]
      show map.root = rootOf (plug c _)
      rw [hm.root_eq]
      cases c with
      | nil => rfl
      | cons f c => exact root_plug_cons f c _ _
  -- now `m` stands where `p` was, with `p` in its old place, and that one is taken out
  have hcellm := hm'.linked.cells_node (a := m.1)
  obtain ⟨map', hreplace, hmap', hcell'⟩ := replaceNodeInParent_eq hm'
  have herase : plug c (eraseRoot takeOver p (node q₁ l₁ r₁) (node q₂ l₂ r₂)) =
      plug (d ++ ⟨.right, takeOver p m, node q₁ l₁ r₁⟩ :: c) u := by
    rw [plug_append, ← hpop]
    show plug c (node (takeOver p (popMin q₂ l₂ r₂).1) _ _) = _
    rw [hm₁]
    rfl
  rw [herase]
  have hout := notMem_splice (p := takeOver m p) hm'.linked.nodup
  refine ⟨map', m.1, _, ?_, hmap', hout, hcell'.trans hcellm, rfl⟩
  have hreplace' : replaceNodeInParent { map with heap := heap' } (some m.1) (rootOf u) =
      .ok map' := hreplace
  have hloadm : (heap'.load (some m.1) : Except Stop _) = .ok _ := Heap.load_eq hcellm
  unfold unlinkNode
  rw [Heap.load_eq hcell, ok_bind, if_pos ⟨Option.some_ne_none _, Option.some_ne_none _⟩]
  show (findMin map.heap.brk map.heap (some q₂.1) >>= _) = _
  rw [hmin, ok_bind, hm₁, hswap, ok_bind, hloadm, ok_bind]
  show (replaceNodeInParent { map with heap := heap' } (some m.1) (rootOf u) >>= _) = _
  rw [hreplace']
  rfl

/-- **Taking out a node**: what it held is in a node that is not in the tree any more. -/
theorem unlinkNode_eq (hm : Holds map compare (plug c (node p l r))) :
    ∃ map' a n, unlinkNode map (some p.1) = .ok (map', some a) ∧
      Holds map' compare (plug c (eraseRoot takeOver p l r)) ∧
      a ∉ addrs (plug c (eraseRoot takeOver p l r)) ∧
      map'.heap.cells a = some n ∧ n.value.data = p.2.data := by
  have hcell := hm.linked.cells_node (a := p.1) (x := p.2)
  -- a node that misses a child is replaced by the other one
  cases l with
  | nil =>
    have hm' : Holds map compare (plug c (branch .right p r nil)) := hm
    obtain ⟨map', hreplace, hmap', hcell'⟩ := replaceNodeInParent_eq hm'
    refine ⟨map', p.1, _, ?_, hmap', notMem_splice hm'.linked.nodup, hcell'.trans hcell, rfl⟩
    unfold unlinkNode
    rw [Heap.load_eq hcell, ok_bind]
    cases r with
    | nil =>
      rw [rootOf] at hreplace
      simp [hreplace]
    | node q l₁ r₁ =>
      rw [root_node] at hreplace
      simp [hreplace]
  | node q₁ l₁ r₁ =>
    cases r with
    | nil =>
      have hm' : Holds map compare (plug c (branch .left p (node q₁ l₁ r₁) nil)) := hm
      obtain ⟨map', hreplace, hmap', hcell'⟩ := replaceNodeInParent_eq hm'
      refine ⟨map', p.1, _, ?_, hmap', notMem_splice hm'.linked.nodup, hcell'.trans hcell, rfl⟩
      unfold unlinkNode
      rw [Heap.load_eq hcell, ok_bind]
      rw [root_node] at hreplace
      simp [hreplace]
    | node q₂ l₂ r₂ => exact unlinkNode_both hm

/-- **Deleting, below a node.** -/
theorem nodeDelete_eq (cmp : K → K → ℤ) (key : K) (hm : Holds map compare (plug c t))
    (hne : t ≠ nil) (hfuel : t.height ≤ fuel) :
    match find (against cmp key) t with
    | none => nodeDelete cmp fuel map (rootOf t) key = .ok (map, none)
    | some p => ∃ map' a n, nodeDelete cmp fuel map (rootOf t) key = .ok (map', some a) ∧
        Holds map' compare (plug c (erase (against cmp key) takeOver t)) ∧
        a ∉ addrs (plug c (erase (against cmp key) takeOver t)) ∧
        map'.heap.cells a = some n ∧ n.value.data = p.2.data := by
  induction fuel generalizing t c with
  | zero =>
    cases t with
    | nil => exact absurd rfl hne
    | node p l r => exact absurd hfuel (by simp [BinaryTree.height])
  | succ fuel ih =>
    cases t with
    | nil => exact absurd rfl hne
    | node p l r =>
      have hcell := hm.linked.cells_node (a := p.1) (x := p.2)
      by_cases hc : against cmp key p = 0
      · obtain ⟨map', a, n, hunlink, hrest⟩ := unlinkNode_eq hm
        rw [find, if_pos hc, erase, if_pos hc]
        refine ⟨map', a, n, ?_, hrest⟩
        rw [root_node, nodeDelete, Heap.load_eq hcell, ok_bind]
        exact (if_neg (not_not.mpr hc)).trans hunlink
      · obtain ⟨u, v, hbranch⟩ := exists_branch (side (against cmp key p)) p l r
        rw [hbranch] at hm hfuel ⊢
        have hcell := (rep_branch.mp (linked_plug.mp hm.linked).1).1
        have hlt := height_branch (side (against cmp key p)) p u v
        rw [find_branch, if_neg hc, erase_branch hc, root_branch]
        -- the search goes on to the child on the side of the key, if there is one
        have hstep : nodeDelete cmp (fuel + 1) map (some p.1) key =
            if rootOf u ≠ none then nodeDelete cmp fuel map (rootOf u) key
            else .ok (map, none) := by
          rw [nodeDelete, Heap.load_eq hcell, ok_bind, Node.value_link]
          apply (if_pos hc).trans
          rw [show side (cmp p.2.key key) = side (against cmp key p) from rfl, Node.child_link]
          rfl
        rw [hstep]
        by_cases hnil : u = nil
        · subst hnil
          rfl
        · rw [if_pos (mt root_eq_none.mp hnil)]
          exact ih (c := ⟨side (against cmp key p), p, v⟩ :: c) hm hnil (by omega)

/-- **`delete` is an erasure.** -/
theorem delete_eq (hm : Holds map compare t) :
    ∃ map', delete cmp map key =
        .ok (map', (find (against cmp key) t).bind fun p => p.2.data) ∧
      Holds map' compare (erase (against cmp key) takeOver t) := by
  unfold delete
  rw [hm.root_eq]
  by_cases hnil : t = nil
  · subst hnil
    exact ⟨map, rfl, hm⟩
  · have hheight : t.height ≤ map.heap.brk := t.height_le_numNodes.trans hm.linked.numNodes_le
    have hdel := nodeDelete_eq (c := []) cmp key hm hnil hheight
    rw [if_pos (mt root_eq_none.mp hnil)]
    cases hfind : find (against cmp key) t with
    | none =>
      rw [hfind] at hdel
      refine ⟨map, ?_, ?_⟩
      · rw [hdel]
        rfl
      · rw [Bst.erase_of_find_none hfind]
        exact hm
    | some p =>
      rw [hfind] at hdel
      obtain ⟨map', a, n, hdel, hmap', hout, hcell, hdata⟩ := hdel
      refine ⟨{ map' with heap := map'.heap.drop a }, ?_, ?_, hmap'.root_eq, hmap'.compare_eq⟩
      · rw [hdel, ok_bind]
        -- the data is read out of the node before it is freed
        show (do
          let n ← map'.heap.load (some a)
          let heap ← map'.heap.free (some a)
          pure ({ map' with heap }, n.value.data) : Except Stop _) = _
        rw [Heap.load_eq hcell, ok_bind, Heap.free_eq hcell, ok_bind, hdata]
        rfl
      · -- no link of the tree leads to the freed node
        refine hmap'.linked.frame fun b hb => Heap.cells_drop_of_ne ?_
        rintro rfl
        exact hout hb

end Lcthw.SearchTree
