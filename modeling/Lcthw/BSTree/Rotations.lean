import Lcthw.BSTree.Links

/-!
# Lcthw — rotations of an AVL tree (`bstree.c`)

A deletion leaves the heights above it as they were, so a height on record says little about the tree.
It is at least 1 all the same (`Standing`), which is all that `rotate` needs: a side it finds too high
is not empty.

* **`rebalance`**: what `rotate` does to a tree, by the heights on record.
* **`rotate_eq`**: `rotate` changes the tree in a hole like that, and `map->root` with it, without a
  fault.
* **`entries_rebalance`**: it keeps the keys and their data in order.
-/

namespace Lcthw.AVLTree

open BinaryTree LinkedTree SearchTree
open Bst (inorder inorder_node)

variable {K V : Type}

/-- The nodes of an `AVLTree`. -/
abbrev Nodes (K V : Type) := Shape (Payload K V ℤ)

def storedHeight : Nodes K V → ℤ
  | nil => 0
  | node p _ _ => p.2.height

/-- The difference between the heights on record of the subtrees. -/
def balance : Nodes K V → ℤ
  | nil => 0
  | node _ l r => storedHeight l - storedHeight r

/-- The height of the root is recomputed from those of its children. -/
def fixHeight : Nodes K V → Nodes K V
  | nil => nil
  | node p l r => node (p.1, { p.2 with height := max (storedHeight l) (storedHeight r) + 1 }) l r

def rotatedRight : Nodes K V → Nodes K V
  | node a (node b outer inner) sib => fixHeight (node b outer (fixHeight (node a inner sib)))
  | t => t

def rotatedLeft : Nodes K V → Nodes K V
  | node a sib (node b inner outer) => fixHeight (node b (fixHeight (node a sib inner)) outer)
  | t => t

def rebalance : Nodes K V → Nodes K V
  | nil => nil
  | node a l r =>
    if storedHeight l - storedHeight r > 1 then
      rotatedRight (node a (if balance l ≥ 0 then l else rotatedLeft l) r)
    else if storedHeight l - storedHeight r < -1 then
      rotatedLeft (node a l (if balance r ≤ 0 then r else rotatedRight r))
    else
      fixHeight (node a l r)

/-- Every height on record is at least 1. -/
def Standing (t : Nodes K V) : Prop :=
  ∀ p ∈ inorder t, 1 ≤ p.2.height

variable {heap : Heap (Node (Payload K V ℤ))} {map : AVLTree K V} {compare : K → K → ℤ} {w : Ptr}
  {s : Side} {a b : ℕ × Payload K V ℤ} {l r t outer inner sib : Nodes K V}
  {c : List (Frame (Payload K V ℤ))}

theorem rotatedRight_node : rotatedRight (node a (node b outer inner) sib) =
    fixHeight (node b outer (fixHeight (node a inner sib))) := rfl

theorem rotatedLeft_node : rotatedLeft (node a sib (node b inner outer)) =
    fixHeight (node b (fixHeight (node a sib inner)) outer) := rfl

theorem rebalance_node : rebalance (node a l r) =
    if storedHeight l - storedHeight r > 1 then
      rotatedRight (node a (if balance l ≥ 0 then l else rotatedLeft l) r)
    else if storedHeight l - storedHeight r < -1 then
      rotatedLeft (node a l (if balance r ≤ 0 then r else rotatedRight r))
    else
      fixHeight (node a l r) := rfl

/-! ## Heights on record

After deletions a height on record may be wrong, but it is never below 1. A side that is higher by
record is therefore there, and its root can be rotated up. -/

theorem standing_node : Standing (node a l r) ↔ 1 ≤ a.2.height ∧ Standing l ∧ Standing r := by
  unfold Standing
  simp only [inorder_node, List.forall_mem_append, List.forall_mem_cons]
  tauto

theorem Standing.storedHeight_nonneg (ht : Standing t) : 0 ≤ storedHeight t := by
  cases t with
  | nil => exact le_rfl
  | node p l r =>
    have := (standing_node.mp ht).1
    show 0 ≤ p.2.height
    omega

theorem standing_fixHeight (hl : Standing l) (hr : Standing r) :
    Standing (fixHeight (node a l r)) := by
  have hl₀ := hl.storedHeight_nonneg
  refine standing_node.mpr ⟨?_, hl, hr⟩
  show 1 ≤ max (storedHeight l) (storedHeight r) + 1
  omega

theorem Standing.rotatedRight (ht : Standing t) : Standing (rotatedRight t) := by
  cases t with
  | nil => exact ht
  | node a l r =>
    cases l with
    | nil => exact ht
    | node b outer inner =>
      obtain ⟨-, hl, hr⟩ := standing_node.mp ht
      obtain ⟨-, houter, hinner⟩ := standing_node.mp hl
      exact standing_fixHeight houter (standing_fixHeight hinner hr)

theorem Standing.rotatedLeft (ht : Standing t) : Standing (rotatedLeft t) := by
  cases t with
  | nil => exact ht
  | node a l r =>
    cases r with
    | nil => exact ht
    | node b inner outer =>
      obtain ⟨-, hl, hr⟩ := standing_node.mp ht
      obtain ⟨-, hinner, houter⟩ := standing_node.mp hr
      exact standing_fixHeight (standing_fixHeight hl hinner) houter

/-- A rotation stores the right heights at the nodes that it moves. -/
theorem Standing.rebalance (ht : Standing t) : Standing (rebalance t) := by
  cases t with
  | nil => exact ht
  | node a l r =>
    obtain ⟨ha, hl, hr⟩ := standing_node.mp ht
    rw [rebalance_node]
    split
    · refine Standing.rotatedRight (standing_node.mpr ⟨ha, ?_, hr⟩)
      split
      · exact hl
      · exact hl.rotatedLeft
    · split
      · refine Standing.rotatedLeft (standing_node.mpr ⟨ha, hl, ?_⟩)
        split
        · exact hr
        · exact hr.rotatedRight
      · exact standing_fixHeight hl hr

/-- A higher side is there. -/
theorem exists_node_of_lt (h : 0 < storedHeight t) : ∃ b l r, t = node b l r := by
  cases t with
  | nil => exact absurd h (lt_irrefl 0)
  | node b l r => exact ⟨b, l, r, rfl⟩

/-! ## Keys and data

A rotation moves subtrees, and the order from left to right stays the same. -/

theorem entries_fixHeight (t : Nodes K V) :
    (inorder (fixHeight t)).map entry = (inorder t).map entry := by
  cases t with
  | nil => rfl
  | node p l r => simp [fixHeight, entry]

theorem entries_rotatedRight (t : Nodes K V) :
    (inorder (rotatedRight t)).map entry = (inorder t).map entry := by
  cases t with
  | nil => rfl
  | node a l r =>
    cases l with
    | nil => rfl
    | node b outer inner =>
      rw [rotatedRight_node, entries_fixHeight, inorder_node, List.map_append, List.map_cons,
        entries_fixHeight]
      simp

theorem entries_rotatedLeft (t : Nodes K V) :
    (inorder (rotatedLeft t)).map entry = (inorder t).map entry := by
  cases t with
  | nil => rfl
  | node a l r =>
    cases r with
    | nil => rfl
    | node b inner outer =>
      rw [rotatedLeft_node, entries_fixHeight, inorder_node, List.map_append, entries_fixHeight]
      simp

/-- **A rotation keeps the keys and their data in order.** -/
theorem entries_rebalance (t : Nodes K V) :
    (inorder (rebalance t)).map entry = (inorder t).map entry := by
  cases t with
  | nil => rfl
  | node a l r =>
    rw [rebalance_node]
    split
    · rw [entries_rotatedRight]
      split
      · rfl
      · rw [inorder_node, List.map_append, entries_rotatedLeft]
        simp
    · split
      · rw [entries_rotatedLeft]
        split
        · rfl
        · rw [inorder_node, List.map_append, List.map_cons, entries_rotatedRight]
          simp
      · exact entries_fixHeight _

/-! ## The code

Each function is run on a tree in a hole. The two rotations are one rotation with a side, and both end
in the same way: the root of the map is patched and the heights are recomputed from below. -/

theorem height_eq (hr : Rep heap w t) : height heap (rootOf t) = .ok (storedHeight t) := by
  cases t with
  | nil => rfl
  | node p l r =>
    unfold height
    rw [root_node, if_neg (Option.some_ne_none _), Heap.load_eq hr.1]
    rfl

theorem getBalance_eq (hr : Rep heap w (node a l r)) :
    getBalance heap (some a.1) = .ok (storedHeight l - storedHeight r) := by
  unfold getBalance
  rw [Heap.load_eq hr.1, ok_bind, height_eq hr.2.1, ok_bind, height_eq hr.2.2]
  rfl

theorem updateHeight_eq (hl : Linked heap (plug c (node a l r))) :
    ∃ heap', updateHeight heap (some a.1) = .ok heap' ∧
      Linked heap' (plug c (fixHeight (node a l r))) := by
  have hrep := (linked_plug.mp hl).1
  refine ⟨_, ?_, hl.setValue fun x => { x with
    height := max (storedHeight l) (storedHeight r) + 1 }⟩
  unfold updateHeight
  rw [Heap.load_eq hrep.1, ok_bind, height_eq hrep.2.1, ok_bind, height_eq hrep.2.2, ok_bind]
  exact Heap.modify_eq hrep.1

theorem branch_other (s : Side) (p : ℕ × Payload K V ℤ) (t u : Nodes K V) :
    branch s.other p t u = branch s p u t := by
  cases s <;> rfl

theorem fixHeight_branch (s : Side) (p : ℕ × Payload K V ℤ) (t u : Nodes K V) :
    ∃ x, fixHeight (branch s p t u) = branch s (p.1, x) t u := by
  cases s <;> exact ⟨_, rfl⟩

theorem updateHeight_branch (hl : Linked heap (plug c (branch s a t r))) :
    ∃ heap', updateHeight heap (some a.1) = .ok heap' ∧
      Linked heap' (plug c (fixHeight (branch s a t r))) := by
  cases s with
  | left => exact updateHeight_eq hl
  | right => exact updateHeight_eq hl

/-- The heights of two nodes that have changed places. -/
theorem updateHeights_eq (hl : Linked heap (plug c (branch s b outer (branch s a inner sib)))) :
    ∃ heap', (updateHeight heap (some a.1) >>= fun heap => updateHeight heap (some b.1)) =
        .ok heap' ∧
      Linked heap' (plug c (fixHeight (branch s b outer (fixHeight (branch s a inner sib))))) := by
  -- the lower node is in a hole below the other one
  have hfocus : ∀ t, plug (⟨s.other, b, outer⟩ :: c) t = plug c (branch s b outer t) := by
    intro t
    rw [plug_cons, branch_other]
  obtain ⟨heap₁, ha, hl₁⟩ := updateHeight_branch ((hfocus _).symm ▸ hl)
  rw [hfocus] at hl₁
  obtain ⟨heap₂, hb, hl₂⟩ := updateHeight_branch hl₁
  exact ⟨heap₂, by rw [ha, ok_bind, hb], hl₂⟩

theorem rightRotate_eq (hl : Linked heap (plug c (node a (node b outer inner) sib))) :
    ∃ heap', rightRotate heap (some a.1) = .ok heap' ∧
      Linked heap' (plug c (rotatedRight (node a (node b outer inner) sib))) := by
  have hl' : Linked heap (plug c (branch .left a (branch .left b outer inner) sib)) := hl
  obtain ⟨h₁, hpivot, hp₁⟩ := hl'.pivot (ε := Stop)
  obtain ⟨h₂, hrelink, hp₂⟩ := hp₁.relink (ε := Stop)
  obtain ⟨h₃, hadopt, hp₃⟩ := hp₂.adopt (ε := Stop)
  obtain ⟨h₄, hheights, hl₄⟩ := updateHeights_eq hp₃.linked
  refine ⟨h₄, ?_, hl₄⟩
  unfold rightRotate
  rw [hpivot, ok_bind]
  simp only []
  rw [hrelink, ok_bind, hadopt, ok_bind]
  exact hheights

theorem leftRotate_eq (hl : Linked heap (plug c (node a sib (node b inner outer)))) :
    ∃ heap', leftRotate heap (some a.1) = .ok heap' ∧
      Linked heap' (plug c (rotatedLeft (node a sib (node b inner outer)))) := by
  have hl' : Linked heap (plug c (branch .right a (branch .right b outer inner) sib)) := hl
  obtain ⟨h₁, hpivot, hp₁⟩ := hl'.pivot (ε := Stop)
  obtain ⟨h₂, hadopt, hp₂⟩ := hp₁.adopt (ε := Stop)
  obtain ⟨h₃, hrelink, hp₃⟩ := hp₂.relink (ε := Stop)
  obtain ⟨h₄, hheights, hl₄⟩ := updateHeights_eq hp₃.linked
  refine ⟨h₄, ?_, hl₄⟩
  unfold leftRotate
  rw [hpivot, ok_bind]
  simp only []
  rw [hadopt, ok_bind, hrelink, ok_bind]
  exact hheights

/-- **The end of a rotation**: `map->root` is the node that came up, when it has no parent, and the
height of the other one is recomputed once more. -/
theorem settle (hl : Linked map.heap (plug c (branch s b outer (fixHeight (branch s a inner sib)))))
    (hroot : c ≠ [] → map.root = rootOf (plug c nil)) (hcompare : map.compare = compare) :
    ∃ map₁ : AVLTree K V, ∃ heap, patchRoot map (some a.1) = .ok map₁ ∧
      updateHeight map₁.heap (some a.1) = .ok heap ∧
      Holds { map₁ with heap } compare
        (plug c (branch s b outer (fixHeight (branch s a inner sib)))) := by
  obtain ⟨x, hx⟩ := fixHeight_branch s a inner sib
  -- the height that is computed again is the one that the node has
  have hagain : fixHeight (branch s (a.1, x) inner sib) = branch s (a.1, x) inner sib := by
    rw [← hx]
    cases s <;> rfl
  have hfocus : ∀ t, plug (⟨s.other, b, outer⟩ :: c) t = plug c (branch s b outer t) := by
    intro t
    rw [plug_cons, branch_other]
  rw [hx] at hl ⊢
  have hrep := (linked_plug.mp hl).1
  have hb := (rep_branch.mp hrep).1
  have ha := (rep_branch.mp (rep_branch.mp hrep).2.2).1
  obtain ⟨heap, hheight, hl'⟩ := updateHeight_branch ((hfocus _).symm ▸ hl)
  rw [hagain, hfocus] at hl'
  -- the upper of the two nodes is the root of the map when nothing is above it
  refine ⟨if up c = none then { map with root := some b.1 } else map, heap, ?_, ?_, ?_, ?_, ?_⟩
  · unfold patchRoot
    rw [Heap.load_eq ha, ok_bind, Node.parent_link, Heap.load_eq hb, ok_bind, Node.parent_link]
    rfl
  · split <;> exact hheight
  · split <;> exact hl'
  · cases c with
    | nil => simp [up]
    | cons f c =>
      rw [if_neg (show ¬ up (f :: c) = none from Option.some_ne_none _)]
      exact (hroot (List.cons_ne_nil f c)).trans (root_plug_cons f c _ _)
  · split <;> exact hcompare

/-- What a rotation is at a node, with its balance computed. -/
theorem rotate_node (hl : Linked map.heap (plug c (node a l r))) :
    rotate map (some a.1) = (do
      let map ←
        (if storedHeight l - storedHeight r > 1 then do
          let inner ← getBalance map.heap (rootOf l)
          let heap ← (if inner ≥ 0 then .ok map.heap else leftRotate map.heap (rootOf l))
          let heap ← rightRotate heap (some a.1)
          patchRoot { map with heap } (some a.1)
        else if storedHeight l - storedHeight r < -1 then do
          let root := if up c = none then rootOf r else map.root
          let inner ← getBalance map.heap (rootOf r)
          let heap ← (if inner ≤ 0 then .ok map.heap else rightRotate map.heap (rootOf r))
          let heap ← leftRotate heap (some a.1)
          patchRoot { map with heap, root } (some a.1)
        else
          return map)
      let heap ← updateHeight map.heap (some a.1)
      return { map with heap }) := by
  have hrep := (linked_plug.mp hl).1
  unfold rotate
  rw [getBalance_eq hrep, ok_bind, Heap.load_eq hrep.1]
  rfl

/-- The first rotation of two: the inner side of the left subtree comes up when it is the higher
one. -/
theorem liftLeft_eq (hl : Linked heap (plug c (node a (node b outer inner) r)))
    (ht : Standing (node b outer inner)) :
    ∃ heap' b' outer' inner',
      (if balance (node b outer inner) ≥ 0 then .ok heap else leftRotate heap (some b.1)) =
        .ok heap' ∧
      (if balance (node b outer inner) ≥ 0 then node b outer inner
        else rotatedLeft (node b outer inner)) = node b' outer' inner' ∧
      Linked heap' (plug c (node a (node b' outer' inner') r)) := by
  split
  · exact ⟨heap, b, outer, inner, rfl, rfl, hl⟩
  · next hlt =>
    have houter := (standing_node.mp ht).2.1.storedHeight_nonneg
    change ¬ storedHeight outer - storedHeight inner ≥ 0 at hlt
    obtain ⟨m, ml, mr, rfl⟩ := exists_node_of_lt (show 0 < storedHeight inner by omega)
    obtain ⟨heap', hrotate, hl'⟩ := leftRotate_eq (c := ⟨.left, a, r⟩ :: c) hl
    exact ⟨heap', _, _, _, hrotate, rfl, hl'⟩

/-- The same for the right subtree. -/
theorem liftRight_eq (hl : Linked heap (plug c (node a l (node b inner outer))))
    (ht : Standing (node b inner outer)) :
    ∃ heap' b' inner' outer',
      (if balance (node b inner outer) ≤ 0 then .ok heap else rightRotate heap (some b.1)) =
        .ok heap' ∧
      (if balance (node b inner outer) ≤ 0 then node b inner outer
        else rotatedRight (node b inner outer)) = node b' inner' outer' ∧
      Linked heap' (plug c (node a l (node b' inner' outer'))) := by
  split
  · exact ⟨heap, b, inner, outer, rfl, rfl, hl⟩
  · next hlt =>
    have houter := (standing_node.mp ht).2.2.storedHeight_nonneg
    change ¬ storedHeight inner - storedHeight outer ≤ 0 at hlt
    obtain ⟨m, ml, mr, rfl⟩ := exists_node_of_lt (show 0 < storedHeight inner by omega)
    obtain ⟨heap', hrotate, hl'⟩ := rightRotate_eq (c := ⟨.right, a, l⟩ :: c) hl
    exact ⟨heap', _, _, _, hrotate, rfl, hl'⟩

/-- Below another node it does not matter for the root of the map which tree is in the hole. -/
theorem root_of_holds (hm : Holds map compare (plug c t)) (hc : c ≠ []) (u : Nodes K V) :
    map.root = rootOf (plug c u) := by
  obtain ⟨f, c, rfl⟩ := List.exists_cons_of_ne_nil hc
  exact hm.root_eq.trans (root_plug_cons f c _ _)

/-- The left side is too high, so it is there. -/
theorem rotate_left_high (hm : Holds map compare (plug c (node a l r))) (hsl : Standing l)
    (hpos : 0 < storedHeight l) (hgt : storedHeight l - storedHeight r > 1) :
    ∃ map', rotate map (some a.1) = .ok map' ∧
      Holds map' compare (plug c (rebalance (node a l r))) := by
  have hrep := (linked_plug.mp hm.linked).1
  obtain ⟨b, outer, inner, rfl⟩ := exists_node_of_lt hpos
  obtain ⟨heap₁, b', outer', inner', hlift, htree, hl₁⟩ := liftLeft_eq hm.linked hsl
  obtain ⟨heap₂, hrotate, hl₂⟩ := rightRotate_eq hl₁
  let map₂ : AVLTree K V := { map with heap := heap₂ }
  have hroot₂ : c ≠ [] → map₂.root = rootOf (plug c nil) := fun hc => root_of_holds hm hc nil
  obtain ⟨map₁, heap₃, hpatch, hheight, hholds⟩ := settle (s := .left) hl₂ hroot₂ hm.compare_eq
  rw [rotate_node hm.linked, rebalance_node, if_pos hgt, if_pos hgt, htree]
  refine ⟨{ map₁ with heap := heap₃ }, ?_, hholds⟩
  rw [root_node, getBalance_eq hrep.2.1, ok_bind]
  show (do
    let heap ← (if balance (node b outer inner) ≥ 0 then .ok map.heap
      else leftRotate map.heap (some b.1))
    let heap ← rightRotate heap (some a.1)
    patchRoot { map with heap } (some a.1) : Except Stop _) >>= _ = _
  rw [hlift, ok_bind, hrotate, ok_bind, hpatch, ok_bind, hheight]
  rfl

/-- The right side is too high, so it is there. -/
theorem rotate_right_high (hm : Holds map compare (plug c (node a l r))) (hsr : Standing r)
    (hpos : 0 < storedHeight r) (hgt : ¬ storedHeight l - storedHeight r > 1)
    (hlt : storedHeight l - storedHeight r < -1) :
    ∃ map', rotate map (some a.1) = .ok map' ∧
      Holds map' compare (plug c (rebalance (node a l r))) := by
  have hrep := (linked_plug.mp hm.linked).1
  obtain ⟨b, inner, outer, rfl⟩ := exists_node_of_lt hpos
  obtain ⟨heap₁, b', inner', outer', hlift, htree, hl₁⟩ := liftRight_eq hm.linked hsr
  obtain ⟨heap₂, hrotate, hl₂⟩ := leftRotate_eq hl₁
  -- this rotation sets the root before `patchRoot` does, if there is no parent
  let map₂ : AVLTree K V :=
    { map with heap := heap₂, root := if up c = none then some b.1 else map.root }
  have hroot₂ : c ≠ [] → map₂.root = rootOf (plug c nil) := by
    intro hc
    have hup : up c ≠ none := by
      obtain ⟨f, c', rfl⟩ := List.exists_cons_of_ne_nil hc
      exact Option.some_ne_none _
    show (if up c = none then some b.1 else map.root) = _
    rw [if_neg hup, root_of_holds hm hc nil]
  obtain ⟨map₁, heap₃, hpatch, hheight, hholds⟩ := settle (s := .right) hl₂ hroot₂ hm.compare_eq
  rw [rotate_node hm.linked, rebalance_node, if_neg hgt, if_neg hgt, if_pos hlt, if_pos hlt, htree]
  refine ⟨{ map₁ with heap := heap₃ }, ?_, hholds⟩
  rw [root_node, getBalance_eq hrep.2.2, ok_bind]
  show (do
    let heap ← (if balance (node b inner outer) ≤ 0 then .ok map.heap
      else rightRotate map.heap (some b.1))
    let heap ← leftRotate heap (some a.1)
    patchRoot { map with heap, root := if up c = none then some b.1 else map.root }
      (some a.1) : Except Stop _) >>= _ = _
  rw [hlift, ok_bind, hrotate, ok_bind, hpatch, ok_bind, hheight]
  rfl

/-- Neither side is too high, and only the height on record is brought up to date. -/
theorem rotate_level (hm : Holds map compare (plug c (node a l r)))
    (hgt : ¬ storedHeight l - storedHeight r > 1) (hlt : ¬ storedHeight l - storedHeight r < -1) :
    ∃ map', rotate map (some a.1) = .ok map' ∧
      Holds map' compare (plug c (rebalance (node a l r))) := by
  obtain ⟨heap', hheight, hl'⟩ := updateHeight_eq hm.linked
  rw [rotate_node hm.linked, rebalance_node, if_neg hgt, if_neg hgt, if_neg hlt, if_neg hlt]
  refine ⟨{ map with heap := heap' }, ?_, hl', ?_, hm.compare_eq⟩
  · show (updateHeight map.heap (some a.1) >>= _) = _
    rw [hheight]
    rfl
  · cases c with
    | nil => exact hm.root_eq
    | cons f c => exact root_of_holds hm (List.cons_ne_nil f c) _

/-- **`rotate` rebalances the tree in a hole.** The heights on record need not be right. -/
theorem rotate_eq (hm : Holds map compare (plug c t)) (hne : t ≠ nil) (ht : Standing t) :
    ∃ map', rotate map (rootOf t) = .ok map' ∧ Holds map' compare (plug c (rebalance t)) := by
  cases t with
  | nil => exact absurd rfl hne
  | node a l r =>
    obtain ⟨-, hsl, hsr⟩ := standing_node.mp ht
    have hl₀ := hsl.storedHeight_nonneg
    have hr₀ := hsr.storedHeight_nonneg
    rw [root_node]
    by_cases hgt : storedHeight l - storedHeight r > 1
    · exact rotate_left_high hm hsl (by omega) hgt
    · by_cases hlt : storedHeight l - storedHeight r < -1
      · exact rotate_right_high hm hsr (by omega) hgt hlt
      · exact rotate_level hm hgt hlt

end Lcthw.AVLTree
