import Lcthw.BSTree.Overwrite

/-!
# Lcthw — the balance of an AVL tree (`bstree.c`)

A tree is balanced when every height on record is right and the heights of two siblings differ by at
most one.

* **`rebalance_balanced`**: `rotate` repairs a node whose subtrees are balanced and differ by two.
* **`set_balanced`**: `set` keeps a tree balanced, and in order.
* **`delete_balanced_iff`**: `delete` returns before its loop, so the heights above the node it takes
  out stay as they are. They are right exactly when the sibling of that node is as high (`gap`).
-/

namespace Lcthw.AVLTree

open BinaryTree LinkedTree SearchTree
open Bst (inorder popMin find erase eraseRoot)

variable {K V : Type}

/-- Every height on record is one more than the greater one below, and every balance is -1, 0 or 1. -/
def Balanced : Nodes K V → Prop
  | nil => True
  | node p l r => p.2.height = max (storedHeight l) (storedHeight r) + 1 ∧
      -1 ≤ storedHeight l - storedHeight r ∧ storedHeight l - storedHeight r ≤ 1 ∧
      Balanced l ∧ Balanced r

instance instDecidableBalanced : (t : Nodes K V) → Decidable (Balanced t)
  | nil => inferInstanceAs (Decidable True)
  | node _ l r =>
    have : Decidable (Balanced l) := instDecidableBalanced l
    have : Decidable (Balanced r) := instDecidableBalanced r
    inferInstanceAs (Decidable (_ = _ ∧ _ ≤ _ ∧ _ ≤ _ ∧ _ ∧ _))

variable {compare : K → K → ℤ} {map : AVLTree K V} {cmp : Comparator K} {key : K}
  {p a b : ℕ × Payload K V ℤ} {l r t u outer inner : Nodes K V} {c : ℕ × Payload K V ℤ → ℤ}
  {g : Option ℤ}

theorem Balanced.standing (ht : Balanced t) : Standing t := by
  induction t with
  | nil => exact fun p hp => absurd hp List.not_mem_nil
  | node p l r ihl ihr =>
    obtain ⟨hheight, -, -, hl, hr⟩ := ht
    have hl₀ := (ihl hl).storedHeight_nonneg
    refine standing_node.mpr ⟨?_, ihl hl, ihr hr⟩
    omega

theorem Balanced.storedHeight_nonneg (ht : Balanced t) : 0 ≤ storedHeight t :=
  ht.standing.storedHeight_nonneg

/-- The height on record is the height. -/
theorem Balanced.storedHeight_eq (ht : Balanced t) : storedHeight t = t.height := by
  induction t with
  | nil => rfl
  | node p l r ihl ihr =>
    obtain ⟨hheight, -, -, hl, hr⟩ := ht
    show p.2.height = ((max l.height r.height + 1 : ℕ) : ℤ)
    rw [hheight, ihl hl, ihr hr]
    push_cast
    rfl

/-! ## Rotations

A rotation to the right, at a node whose left side is two higher. Whether the inner or the outer side of
the child is the higher one decides if it is a single or a double one. -/

theorem storedHeight_fixHeight : storedHeight (fixHeight (node p l r)) =
    max (storedHeight l) (storedHeight r) + 1 := rfl

/-- Over two balanced trees that differ by one at most, the right height makes a balanced tree. -/
theorem fixHeight_balanced (hl : Balanced l) (hr : Balanced r)
    (hlo : -1 ≤ storedHeight l - storedHeight r) (hhi : storedHeight l - storedHeight r ≤ 1) :
    Balanced (fixHeight (node p l r)) :=
  ⟨rfl, hlo, hhi, hl, hr⟩

/-- The left side is two higher. It is rotated up, or its inner side is. -/
theorem rotatedRight_balanced (hl : Balanced l) (hr : Balanced r)
    (hdiff : storedHeight l - storedHeight r = 2) :
    Balanced (rotatedRight (node a (if balance l ≥ 0 then l else rotatedLeft l) r)) ∧
      storedHeight l ≤ storedHeight (rotatedRight
        (node a (if balance l ≥ 0 then l else rotatedLeft l) r)) ∧
      storedHeight (rotatedRight (node a (if balance l ≥ 0 then l else rotatedLeft l) r)) ≤
        storedHeight l + 1 := by
  have hr₀ := hr.storedHeight_nonneg
  obtain ⟨b, outer, inner, rfl⟩ := exists_node_of_lt (show 0 < storedHeight l by omega)
  obtain ⟨hheight, hlo, hhi, houter, hinner⟩ := hl
  have hb : storedHeight (node b outer inner) =
      max (storedHeight outer) (storedHeight inner) + 1 := hheight
  have houter₀ := houter.storedHeight_nonneg
  -- a left child that leans to the inside is rotated the other way first
  by_cases hlean : balance (node b outer inner) ≥ 0
  · rw [if_pos hlean, rotatedRight_node]
    have hge : storedHeight outer - storedHeight inner ≥ 0 := hlean
    -- one rotation: the old root takes the inner grandchild over
    have hsib : Balanced (fixHeight (node a inner r)) :=
      fixHeight_balanced hinner hr (by omega) (by omega)
    have hsib_height : storedHeight (fixHeight (node a inner r)) =
        max (storedHeight inner) (storedHeight r) + 1 := rfl
    rw [storedHeight_fixHeight, hsib_height]
    exact ⟨fixHeight_balanced houter hsib (by omega) (by omega), by omega, by omega⟩
  · have hlt : ¬ storedHeight outer - storedHeight inner ≥ 0 := hlean
    -- two: the inner grandchild comes up, and its children are divided
    obtain ⟨m, ml, mr, rfl⟩ := exists_node_of_lt (show 0 < storedHeight inner by omega)
    obtain ⟨hmheight, hmlo, hmhi, hml, hmr⟩ := hinner
    have hm : storedHeight (node m ml mr) = max (storedHeight ml) (storedHeight mr) + 1 := hmheight
    rw [if_neg hlean, rotatedLeft_node]
    show Balanced (fixHeight (node m (fixHeight (node b outer ml)) (fixHeight (node a mr r)))) ∧
      _ ≤ storedHeight (fixHeight (node m (fixHeight (node b outer ml)) (fixHeight (node a mr r)))) ∧
      storedHeight (fixHeight (node m (fixHeight (node b outer ml)) (fixHeight (node a mr r)))) ≤ _
    have hleft : Balanced (fixHeight (node b outer ml)) :=
      fixHeight_balanced houter hml (by omega) (by omega)
    have hleft_height : storedHeight (fixHeight (node b outer ml)) =
        max (storedHeight outer) (storedHeight ml) + 1 := rfl
    have hright : Balanced (fixHeight (node a mr r)) :=
      fixHeight_balanced hmr hr (by omega) (by omega)
    have hright_height : storedHeight (fixHeight (node a mr r)) =
        max (storedHeight mr) (storedHeight r) + 1 := rfl
    rw [storedHeight_fixHeight, hleft_height, hright_height]
    exact ⟨fixHeight_balanced hleft hright (by omega) (by omega), by omega, by omega⟩

/-! ## Left and right

The code has every case twice. A tree and its mirror image are balanced together, and the two rotations
are each other's mirror image, so one half of the cases follows from the other. -/

/-- The tree with left and right exchanged. -/
def mirror : Nodes K V → Nodes K V
  | nil => nil
  | node p l r => node p (mirror r) (mirror l)

@[simp] theorem mirror_nil : mirror (nil : Nodes K V) = nil := rfl

@[simp] theorem mirror_node : mirror (node p l r) = node p (mirror r) (mirror l) := rfl

/-- Exchanged twice, left and right are what they were. -/
@[simp] theorem mirror_mirror (t : Nodes K V) : mirror (mirror t) = t := by
  induction t with
  | nil => rfl
  | node p l r ihl ihr => rw [mirror_node, mirror_node, ihl, ihr]

@[simp] theorem storedHeight_mirror (t : Nodes K V) : storedHeight (mirror t) = storedHeight t := by
  cases t <;> rfl

/-- The balance of the mirror image has the other sign. -/
theorem balance_mirror (t : Nodes K V) : balance (mirror t) = -balance t := by
  cases t with
  | nil => rfl
  | node p l r =>
    show storedHeight (mirror r) - storedHeight (mirror l) = -(storedHeight l - storedHeight r)
    rw [storedHeight_mirror, storedHeight_mirror]
    omega

theorem Balanced.mirror (ht : Balanced t) : Balanced (mirror t) := by
  induction t with
  | nil => trivial
  | node p l r ihl ihr =>
    obtain ⟨hheight, hlo, hhi, hl, hr⟩ := ht
    refine ⟨?_, ?_, ?_, ihr hr, ihl hl⟩
    · rw [storedHeight_mirror, storedHeight_mirror, hheight, max_comm]
    · rw [storedHeight_mirror, storedHeight_mirror]
      omega
    · rw [storedHeight_mirror, storedHeight_mirror]
      omega

theorem balanced_mirror : Balanced (mirror t) ↔ Balanced t := by
  constructor
  · intro h
    rw [← mirror_mirror t]
    exact h.mirror
  · exact Balanced.mirror

theorem fixHeight_mirror (t : Nodes K V) : fixHeight (mirror t) = mirror (fixHeight t) := by
  cases t with
  | nil => rfl
  | node p l r =>
    show node (p.1, { p.2 with
      height := max (storedHeight (mirror r)) (storedHeight (mirror l)) + 1 }) (mirror r) (mirror l) = _
    rw [storedHeight_mirror, storedHeight_mirror, max_comm]
    rfl

theorem rotatedRight_mirror (t : Nodes K V) : rotatedRight (mirror t) = mirror (rotatedLeft t) := by
  cases t with
  | nil => rfl
  | node a l r =>
    cases r with
    | nil => rfl
    | node b inner outer =>
      rw [mirror_node, mirror_node, rotatedRight_node, rotatedLeft_node, ← fixHeight_mirror,
        mirror_node, ← fixHeight_mirror, mirror_node]

/-- The right side is two higher. -/
theorem rotatedLeft_balanced (hl : Balanced l) (hr : Balanced r)
    (hdiff : storedHeight l - storedHeight r = -2) :
    Balanced (rotatedLeft (node a l (if balance r ≤ 0 then r else rotatedRight r))) ∧
      storedHeight r ≤ storedHeight (rotatedLeft
        (node a l (if balance r ≤ 0 then r else rotatedRight r))) ∧
      storedHeight (rotatedLeft (node a l (if balance r ≤ 0 then r else rotatedRight r))) ≤
        storedHeight r + 1 := by
  have hlift : (if balance (mirror r) ≥ 0 then mirror r else rotatedLeft (mirror r)) =
      mirror (if balance r ≤ 0 then r else rotatedRight r) := by
    rw [balance_mirror, apply_ite mirror]
    have hleft : rotatedLeft (mirror r) = mirror (rotatedRight r) := by
      rw [← mirror_mirror (rotatedLeft _), ← rotatedRight_mirror, mirror_mirror]
    rw [hleft]
    simp only [ge_iff_le, Left.nonneg_neg_iff]
  have h := rotatedRight_balanced (a := a) hr.mirror hl.mirror
    (by rw [storedHeight_mirror, storedHeight_mirror]; omega)
  rw [hlift, ← mirror_node, rotatedRight_mirror, balanced_mirror, storedHeight_mirror,
    storedHeight_mirror] at h
  exact h

/-! ## Insertion

On the way back up from the new leaf each node has one side that may have become higher, by one.
`rotate` repairs that, and what it returns is at most one higher than what there was before. -/

/-- **`rotate` repairs a node whose subtrees differ by two.** Else it leaves the tree as high as it
should be. -/
theorem rebalance_balanced (hl : Balanced l) (hr : Balanced r)
    (hlo : -2 ≤ storedHeight l - storedHeight r) (hhi : storedHeight l - storedHeight r ≤ 2) :
    Balanced (rebalance (node p l r)) ∧
      max (storedHeight l) (storedHeight r) ≤ storedHeight (rebalance (node p l r)) ∧
      storedHeight (rebalance (node p l r)) ≤ max (storedHeight l) (storedHeight r) + 1 ∧
      (-1 ≤ storedHeight l - storedHeight r → storedHeight l - storedHeight r ≤ 1 →
        storedHeight (rebalance (node p l r)) = max (storedHeight l) (storedHeight r) + 1) := by
  rw [rebalance_node]
  by_cases hleft : storedHeight l - storedHeight r > 1
  · rw [if_pos hleft]
    obtain ⟨hbal, hlow, hhigh⟩ := rotatedRight_balanced (a := p) hl hr (by omega)
    exact ⟨hbal, by omega, by omega, fun _ _ => by omega⟩
  · rw [if_neg hleft]
    by_cases hright : storedHeight l - storedHeight r < -1
    · rw [if_pos hright]
      obtain ⟨hbal, hlow, hhigh⟩ := rotatedLeft_balanced (a := p) hl hr (by omega)
      exact ⟨hbal, by omega, by omega, fun _ _ => by omega⟩
    · rw [if_neg hright, storedHeight_fixHeight]
      have hbal := fixHeight_balanced (p := p) hl hr (by omega) (by omega)
      exact ⟨hbal, by omega, by omega, fun _ _ => rfl⟩

/-- **An insertion keeps the balance**, and makes the tree at most one higher. -/
theorem insert_balanced (ht : Balanced t) (hnew : p.2.height = 1) :
    Balanced (Bst.insert c rebalance p t) ∧
      storedHeight t ≤ storedHeight (Bst.insert c rebalance p t) ∧
      storedHeight (Bst.insert c rebalance p t) ≤ storedHeight t + 1 := by
  induction t with
  | nil =>
    have hheight : storedHeight (Bst.insert c rebalance p nil) = 1 := hnew
    have hempty : storedHeight (nil : Nodes K V) = 0 := rfl
    rw [hheight, hempty]
    exact ⟨⟨hnew, by omega, by omega, trivial, trivial⟩, by omega, by omega⟩
  | node q l r ihl ihr =>
    obtain ⟨hheight, hlo, hhi, hl, hr⟩ := ht
    have hq : storedHeight (node q l r) = max (storedHeight l) (storedHeight r) + 1 := hheight
    rw [hq]
    unfold Bst.insert
    split
    · obtain ⟨hbal, hlow, hhigh⟩ := ihl hl
      obtain ⟨hbal', hlow', hhigh', heven⟩ := rebalance_balanced (p := q) hbal hr (by omega) (by omega)
      -- a tree that was even, or leaned the other way, is not rotated
      refine ⟨hbal', ?_, ?_⟩
      · by_cases hover : storedHeight (Bst.insert c rebalance p l) - storedHeight r ≤ 1
        · rw [heven (by omega) hover]
          omega
        · omega
      · omega
    · obtain ⟨hbal, hlow, hhigh⟩ := ihr hr
      obtain ⟨hbal', hlow', hhigh', heven⟩ := rebalance_balanced (p := q) hl hbal (by omega) (by omega)
      refine ⟨hbal', ?_, ?_⟩
      · by_cases hover : -1 ≤ storedHeight l - storedHeight (Bst.insert c rebalance p r)
        · rw [heven hover (by omega)]
          omega
        · omega
      · omega

/-- The map is made of the nodes of `t`, which are in order and balanced. Equal keys are side by
side. -/
structure IsAVL (cmp : Comparator K) (map : AVLTree K V) (t : Nodes K V) : Prop where
  holds : Holds map cmp.compare t
  nondecreasing : Nondecreasing cmp ((inorder t).map entry)
  balanced : Balanced t

/-- **`set` keeps an AVL tree one**, whether the key is there or not, and adds its entry to those that
are there. -/
theorem set_balanced (hm : IsAVL cmp map t) (key : K) (data : Option V) :
    ∃ map' t', set map key data = .ok (map', 0) ∧ IsAVL cmp map' t' ∧
      ((inorder t').map entry).Perm ((key, data) :: (inorder t).map entry) := by
  have hi := implements (V := V) cmp
  obtain ⟨map', hset, hholds⟩ := hi.set_eq map t key data hm.holds hm.balanced.standing
  obtain ⟨horder, hperm⟩ :=
    insert_entries hi.entries_fix hm.nondecreasing map.heap.brk key data (1 : ℤ)
  obtain ⟨hbal, -, -⟩ := insert_balanced (c := against cmp.compare key)
    (p := (map.heap.brk, ⟨key, data, 1⟩)) hm.balanced rfl
  exact ⟨map', _, hset, ⟨hholds, horder, hbal⟩, hperm⟩

/-- Three keys in order, so that the first is rotated down. -/
theorem set_balanced_abc :
    ∃ map₁ map₂ map₃ t, (set (create bstrcmp) (cstr "a") (some 1) :
        Except Stop (AVLTree _ ℕ × ℤ)) = .ok (map₁, 0) ∧
      set map₁ (cstr "b") (some 2) = .ok (map₂, 0) ∧
      set map₂ (cstr "c") (some 3) = .ok (map₃, 0) ∧ IsAVL defaultCompare map₃ t := by
  have h₀ : IsAVL (V := ℕ) defaultCompare (create bstrcmp) nil :=
    ⟨holds_create bstrcmp, List.Pairwise.nil, trivial⟩
  obtain ⟨map₁, t₁, hset₁, h₁, -⟩ := set_balanced h₀ (cstr "a") (some 1)
  obtain ⟨map₂, t₂, hset₂, h₂, -⟩ := set_balanced h₁ (cstr "b") (some 2)
  obtain ⟨map₃, t₃, hset₃, h₃, -⟩ := set_balanced h₂ (cstr "c") (some 3)
  exact ⟨map₁, map₂, map₃, t₃, hset₁, hset₂, hset₃, h₃⟩

/-! ## Deletion

Nothing is repaired on the way up from a node that was taken out, and no height is written. The tree is
still balanced if every height on it is still right, which depends on the sibling of that node alone. -/

/-- How much higher than the first node of the tree its sibling is, when it is not the root. -/
def gapMin : Nodes K V → Option ℤ
  | nil => none
  | node _ nil _ => none
  | node _ (node q l₁ r₁) r =>
    some ((gapMin (node q l₁ r₁)).getD (storedHeight r - storedHeight (node q l₁ r₁)))

/-- The same for the node that a deletion at the root takes out, the root or its successor. -/
def gapRoot : Nodes K V → Nodes K V → Option ℤ
  | nil, _ => none
  | _, nil => none
  | l, r => some ((gapMin r).getD (storedHeight l - storedHeight r))

/-- **How much higher than the node that is taken out its sibling is**, when a node is and that is
not the root. -/
def gap (c : ℕ × Payload K V ℤ → ℤ) : Nodes K V → Option ℤ
  | nil => none
  | node p l r =>
    if c p = 0 then
      gapRoot l r
    else if c p ≥ 0 then
      if find c l = none then none else some ((gap c l).getD (storedHeight r - storedHeight l))
    else
      if find c r = none then none else some ((gap c r).getD (storedHeight l - storedHeight r))

/-- The tree `t` without its root is a balanced one. Without another node it is balanced exactly when
the sibling was as high. -/
structure Thinned (g : Option ℤ) (t u : Nodes K V) : Prop where
  root : g = none → Balanced u ∧ storedHeight u = storedHeight t - 1
  level : g = some 0 → Balanced u ∧ storedHeight u = storedHeight t
  uneven : ∀ x, g = some x → x ≠ 0 → ¬ Balanced u

/-- A node taken out on the left: the sibling that counts is the one deepest down, and the right subtree
where there is none. -/
theorem thinned_left (ht : Balanced (node p l r)) (hu : Thinned g l u)
    (hp : a.2.height = p.2.height) :
    Thinned (some (g.getD (storedHeight r - storedHeight l))) (node p l r) (node a u r) := by
  obtain ⟨hheight, hlo, hhi, hl, hr⟩ := ht
  have hsame : storedHeight (node a u r) = storedHeight (node p l r) := hp
  cases g with
  | none =>
    obtain ⟨hbal, hlow⟩ := hu.root rfl
    refine ⟨nofun, fun h => ?_, fun x h hx hnode => ?_⟩
    · have hlevel : storedHeight r - storedHeight l = 0 := Option.some.inj h
      exact ⟨⟨by omega, by omega, by omega, hbal, hr⟩, hsame⟩
    · -- the sibling was higher, and is two higher now, or lower, and the height is too great now
      obtain rfl : storedHeight r - storedHeight l = x := Option.some.inj h
      obtain ⟨hheight', hlo', -⟩ := hnode
      omega
  | some x =>
    refine ⟨nofun, fun h => ?_, fun y h hy hnode => ?_⟩
    · obtain ⟨hbal, heq⟩ := hu.level h
      rw [← heq] at hheight hlo hhi
      exact ⟨⟨hp.trans hheight, hlo, hhi, hbal, hr⟩, hsame⟩
    · exact hu.uneven y h hy hnode.2.2.2.1

/-- Both sides are alike. -/
theorem thinned_mirror : Thinned g (mirror t) (mirror u) ↔ Thinned g t u := by
  have himp : ∀ {t u : Nodes K V}, Thinned g t u → Thinned g (mirror t) (mirror u) := by
    intro t u h
    refine ⟨?_, ?_, ?_⟩
    · rw [balanced_mirror, storedHeight_mirror, storedHeight_mirror]
      exact h.root
    · rw [balanced_mirror, storedHeight_mirror, storedHeight_mirror]
      exact h.level
    · rw [balanced_mirror]
      exact h.uneven
  constructor
  · intro h
    rw [← mirror_mirror t, ← mirror_mirror u]
    exact himp h
  · exact himp

theorem thinned_right (ht : Balanced (node p l r)) (hu : Thinned g r u)
    (hp : a.2.height = p.2.height) :
    Thinned (some (g.getD (storedHeight l - storedHeight r))) (node p l r) (node a l u) := by
  have h := thinned_left ht.mirror (thinned_mirror.mpr hu) hp
  rw [storedHeight_mirror, storedHeight_mirror] at h
  exact thinned_mirror.mp h

/-- A root with at most one child is replaced by that. -/
theorem thinned_root (hu : Balanced u) (hheight : storedHeight t = storedHeight u + 1) :
    Thinned none t u :=
  ⟨fun _ => ⟨hu, by omega⟩, nofun, nofun⟩

theorem thinned_popMin (ht : Balanced (node p l r)) :
    Thinned (gapMin (node p l r)) (node p l r) (popMin p l r).2 := by
  induction l generalizing p r with
  | nil =>
    obtain ⟨hheight, -, -, -, hr⟩ := ht
    have hr₀ := hr.storedHeight_nonneg
    apply thinned_root hr
    show p.2.height = storedHeight r + 1
    rw [hheight]
    show max 0 (storedHeight r) + 1 = storedHeight r + 1
    omega
  | node q l₁ r₁ ihl _ => exact thinned_left ht (ihl ht.2.2.2.1) rfl

/-- At the root it is the root itself that is taken out, or its successor. -/
theorem thinned_eraseRoot (ht : Balanced (node p l r)) :
    Thinned (gapRoot l r) (node p l r) (eraseRoot takeOver p l r) := by
  have hheight : storedHeight (node p l r) = max (storedHeight l) (storedHeight r) + 1 := ht.1
  have hl₀ := ht.2.2.2.1.storedHeight_nonneg
  have hr₀ := ht.2.2.2.2.storedHeight_nonneg
  cases l with
  | nil =>
    have hempty : storedHeight (nil : Nodes K V) = 0 := rfl
    have herase : eraseRoot takeOver p nil r = r := rfl
    rw [herase]
    exact thinned_root ht.2.2.2.2 (by omega)
  | node q₁ l₁ r₁ =>
    cases r with
    | nil =>
      have hempty : storedHeight (nil : Nodes K V) = 0 := rfl
      have herase : eraseRoot takeOver p (node q₁ l₁ r₁) nil = node q₁ l₁ r₁ := rfl
      rw [herase]
      exact thinned_root ht.2.2.2.1 (by omega)
    | node q l₂ r₂ => exact thinned_right ht (thinned_popMin ht.2.2.2.2) rfl

/-- **An erasure of a key that is there.** -/
theorem thinned_erase (ht : Balanced t) (hfind : find c t ≠ none) :
    Thinned (gap c t) t (erase c takeOver t) := by
  induction t with
  | nil => exact absurd rfl hfind
  | node p l r ihl ihr =>
    unfold find at hfind
    unfold gap erase
    by_cases hp : c p = 0
    · rw [if_pos hp, if_pos hp]
      exact thinned_eraseRoot ht
    · rw [if_neg hp] at hfind ⊢
      rw [if_neg hp]
      by_cases hge : c p ≥ 0
      · rw [if_pos hge] at hfind ⊢
        rw [if_pos hge, if_neg hfind]
        exact thinned_left ht (ihl ht.2.2.2.1 hfind) rfl
      · rw [if_neg hge] at hfind ⊢
        rw [if_neg hge, if_neg hfind]
        exact thinned_right ht (ihr ht.2.2.2.2 hfind) rfl

/-- For a key without a node no node is taken out. -/
theorem gap_of_find_none (h : find c t = none) : gap c t = none := by
  cases t with
  | nil => rfl
  | node p l r =>
    unfold find at h
    unfold gap
    by_cases hp : c p = 0
    · rw [if_pos hp] at h
      cases h
    · rw [if_neg hp] at h ⊢
      by_cases hge : c p ≥ 0
      · rw [if_pos hge] at h ⊢
        exact if_pos h
      · rw [if_neg hge] at h ⊢
        exact if_pos h

/-- The same of an erasure, whether the key is there or not. -/
theorem balanced_erase_iff (ht : Balanced t) :
    Balanced (erase c takeOver t) ↔ ∀ x, gap c t = some x → x = 0 := by
  by_cases hfind : find c t = none
  · rw [Bst.erase_of_find_none hfind, gap_of_find_none hfind]
    exact iff_of_true ht nofun
  · have hthin := thinned_erase ht hfind
    constructor
    · intro hbal x hx
      by_contra hne
      exact hthin.uneven x hx hne hbal
    · intro hlevel
      cases hg : gap c t with
      | none => exact (hthin.root hg).1
      | some x =>
        obtain rfl := hlevel x hg
        exact (hthin.level hg).1

/-- **`delete` keeps a balanced tree balanced exactly when the node it takes out is the root, or its
sibling is as high**, and when the key is not there. The comparison can be any. -/
theorem delete_balanced_iff (hm : Holds map compare t) (ht : Balanced t) (key : K) :
    ∃ map' t', delete map key =
        .ok (map', (find (against compare key) t).bind fun p => p.2.data) ∧
      Holds map' compare t' ∧
      (Balanced t' ↔ ∀ x, gap (against compare key) t = some x → x = 0) := by
  have horder : order map = compare := hm.compare_eq
  obtain ⟨map', hdel, hholds⟩ : ∃ map', SearchTree.delete compare map key =
      .ok (map', (find (against compare key) t).bind fun p => p.2.data) ∧
      Holds map' compare (erase (against compare key) takeOver t) := SearchTree.delete_eq hm
  rw [← horder] at hdel
  exact ⟨map', _, horder ▸ hdel, hholds, balanced_erase_iff ht⟩

/-- Two keys, of which the root is deleted. -/
theorem delete_balanced_iff_root :
    ∃ map₁ map₂ map₃ : AVLTree (List CChar) ℕ, ∃ t,
      set (create bstrcmp) (cstr "b") (some 2) = .ok (map₁, 0) ∧
      set map₁ (cstr "a") (some 1) = .ok (map₂, 0) ∧
      delete map₂ (cstr "b") = .ok (map₃, some 2) ∧ Holds map₃ bstrcmp t ∧ Balanced t := by
  let t : Nodes (List CChar) ℕ :=
    node (0, ⟨cstr "b", some 2, 2⟩) (node (1, ⟨cstr "a", some 1, 1⟩) nil nil) nil
  obtain ⟨map₂, hset, hm⟩ : ∃ map₂ : AVLTree (List CChar) ℕ,
      (set (create bstrcmp) (cstr "b") (some 2) >>= fun s => set s.1 (cstr "a") (some 1)) =
        .ok (map₂, 0) ∧ Holds map₂ bstrcmp t :=
    ⟨_, rfl, ⟨⟨rfl, ⟨rfl, trivial, trivial⟩, trivial⟩, by decide⟩, rfl, rfl⟩
  obtain ⟨map₃, t', hdel, hholds, hiff⟩ := delete_balanced_iff hm (by decide) (cstr "b")
  have hgap : gap (against bstrcmp (cstr "b")) t = none := by decide
  rw [hgap] at hiff
  exact ⟨_, map₂, map₃, t', rfl, hset, hdel, hholds, hiff.mpr nofun⟩

/-- Two keys, of which the smaller is deleted: the height of the other one stays 2. -/
theorem delete_leaves_height :
    ∃ map₁ map₂ map₃ : AVLTree (List CChar) ℕ, ∃ b a : ℕ × Payload (List CChar) ℕ ℤ,
      set (create bstrcmp) (cstr "b") (some 2) = .ok (map₁, 0) ∧
      set map₁ (cstr "a") (some 1) = .ok (map₂, 0) ∧
      Holds map₂ bstrcmp (node b (node a nil nil) nil) ∧ Balanced (node b (node a nil nil) nil) ∧
      delete map₂ (cstr "a") = .ok (map₃, some 1) ∧
      Holds map₃ bstrcmp (node b nil nil) ∧ ¬ Balanced (node b nil nil) := by
  refine ⟨_, _, _, (0, ⟨cstr "b", some 2, 2⟩), (1, ⟨cstr "a", some 1, 1⟩), rfl, rfl,
    ⟨⟨⟨rfl, ⟨rfl, trivial, trivial⟩, trivial⟩, by decide⟩, rfl, rfl⟩, by decide, rfl,
    ⟨⟨⟨rfl, trivial, trivial⟩, by decide⟩, rfl, rfl⟩, by decide⟩

end Lcthw.AVLTree
