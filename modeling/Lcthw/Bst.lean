import Mathlib

/-!
# Bst — binary search trees and their in-order lists

What is sought is given by a comparison `c : α → ℤ` of the nodes with it: it is to the left of a node
with `c p > 0`, to the right of one with `c p < 0`, and found where `c p = 0`.

* **`find`**, **`insert`**, **`erase`** go down a tree by `c`. `insert` goes to the left of an equal
  node, and repairs the tree on the way back up. `erase` puts what the least node to the right holds
  into the node found, when that has two children.
* **`Sifted`**: `c` ascends along the tree, so nothing is where a search does not look
  (`find_eq_none`).
* **`inorder_insert`**, **`inorder_erase`**: what the two do to the in-order list.
-/

namespace Bst

open BinaryTree

variable {α κ : Type*}

def inorder : BinaryTree α → List α
  | nil => []
  | node p l r => inorder l ++ p :: inorder r

@[simp] theorem inorder_nil : inorder (nil : BinaryTree α) = [] := rfl

@[simp] theorem inorder_node (p : α) (l r : BinaryTree α) :
    inorder (node p l r) = inorder l ++ p :: inorder r := rfl

theorem length_inorder (t : BinaryTree α) : (inorder t).length = t.numNodes := by
  induction t with
  | nil => rfl
  | node p l r ihl ihr =>
    rw [inorder_node, List.length_append, List.length_cons, ihl, ihr]
    show _ = l.numNodes + r.numNodes + 1
    omega

/-! ## Operations

All of them go down one path, which the comparison chooses. What a tree keeps beside its order (heights,
or where its nodes are) is not known here: `insert` is given the repair that is made on the way up, and
`erase` is told how a node takes over what another one holds. -/

variable (c : α → ℤ)

def find : BinaryTree α → Option α
  | nil => none
  | node p l r =>
    if c p = 0 then some p
    else if c p ≥ 0 then find l
    else find r

/-- `new` comes below the other nodes, and `fix` is applied to every tree on the way to it. -/
def insert (fix : BinaryTree α → BinaryTree α) (new : α) : BinaryTree α → BinaryTree α
  | nil => node new nil nil
  | node p l r =>
    fix (if c p ≥ 0 then node p (insert fix new l) r else node p l (insert fix new r))

/-- The first node in order of the tree `node p l r`, and the tree without it. -/
def popMin (p : α) : BinaryTree α → BinaryTree α → α × BinaryTree α
  | nil, r => (p, r)
  | node q l₁ r₁, r => ((popMin q l₁ r₁).1, node p (popMin q l₁ r₁).2 r)

/-- The tree `node p l r` without what `p` holds; `take p m` is the node `p` with what `m` holds. -/
def eraseRoot (take : α → α → α) (p : α) : BinaryTree α → BinaryTree α → BinaryTree α
  | nil, r => r
  | l, nil => l
  | l, node q l₁ r₁ => node (take p (popMin q l₁ r₁).1) l (popMin q l₁ r₁).2

def erase (take : α → α → α) : BinaryTree α → BinaryTree α
  | nil => nil
  | node p l r =>
    if c p = 0 then eraseRoot take p l r
    else if c p ≥ 0 then node p (erase take l) r
    else node p l (erase take r)

/-- The sign of `c` ascends along the tree. -/
def Sifted (t : BinaryTree α) : Prop :=
  (inorder t).Pairwise fun p q => (0 ≤ c p → 0 ≤ c q) ∧ (0 < c p → 0 < c q)

variable {c} {fix : BinaryTree α → BinaryTree α} {take : α → α → α} {e : α → κ}
  {p q : α} {l r t : BinaryTree α}

theorem sifted_node : Sifted c (node p l r) ↔ Sifted c l ∧ Sifted c r ∧
    (∀ q ∈ inorder l, (0 ≤ c q → 0 ≤ c p) ∧ (0 < c q → 0 < c p)) ∧
    (∀ q ∈ inorder r, (0 ≤ c p → 0 ≤ c q) ∧ (0 < c p → 0 < c q)) ∧
    ∀ q ∈ inorder l, ∀ q' ∈ inorder r, (0 ≤ c q → 0 ≤ c q') ∧ (0 < c q → 0 < c q') := by
  unfold Sifted
  rw [inorder_node, List.pairwise_append, List.pairwise_cons]
  simp only [List.forall_mem_cons]
  constructor
  · rintro ⟨hl, ⟨hpr, hr⟩, hlr⟩
    exact ⟨hl, hr, fun q hq => (hlr q hq).1, hpr, fun q hq => (hlr q hq).2⟩
  · rintro ⟨hl, hr, hlp, hpr, hlr⟩
    exact ⟨hl, ⟨hpr, hr⟩, fun q hq => ⟨hlp q hq, hlr q hq⟩⟩

/-! ## What is found

A search sees the nodes of one path. That nothing it seeks is elsewhere needs the sign of `c` to ascend
along the tree and nothing more: the order of the keys that `c` comes from is not looked at. -/

theorem find_eq_some (h : find c t = some q) : q ∈ inorder t ∧ c q = 0 := by
  induction t with
  | nil => cases h
  | node p l r ihl ihr =>
    unfold find at h
    rw [inorder_node, List.mem_append, List.mem_cons]
    split at h
    · next hp =>
      obtain rfl := Option.some.inj h
      exact ⟨Or.inr (Or.inl rfl), hp⟩
    · split at h
      · exact ⟨Or.inl (ihl h).1, (ihl h).2⟩
      · exact ⟨Or.inr (Or.inr (ihr h).1), (ihr h).2⟩

/-- **Nothing is where a search does not look.** -/
theorem find_eq_none (hs : Sifted c t) (h : find c t = none) : ∀ q ∈ inorder t, c q ≠ 0 := by
  induction t with
  | nil => exact fun q hq => by cases hq
  | node p l r ihl ihr =>
    obtain ⟨hsl, hsr, hlp, hpr, hlr⟩ := sifted_node.mp hs
    unfold find at h
    intro q hq
    rw [inorder_node, List.mem_append, List.mem_cons] at hq
    split at h
    · cases h
    · next hp =>
      split at h
      · -- what is to the right is greater than the node, so greater than what is sought
        next hge =>
        rcases hq with hq | rfl | hq
        · exact ihl hsl h q hq
        · exact hp
        · have := (hpr q hq).2
          omega
      · next hlt =>
        rcases hq with hq | rfl | hq
        · have := (hlp q hq).1
          omega
        · exact hp
        · exact ihr hsr h q hq

/-! ## What an operation does to the in-order list

The in-order list forgets the shape of the tree, so a repair that keeps it does not appear in these
statements. An insertion puts one element into the list and an erasure takes one out, in the place where
the sign of `c` changes. -/

/-- What holds of all nodes, and of the new one, an insertion keeps. -/
theorem forall_insert {P : α → Prop}
    (hfix : ∀ t, (∀ p ∈ inorder t, P p) → ∀ p ∈ inorder (fix t), P p) {new : α} (hnew : P new)
    (ht : ∀ p ∈ inorder t, P p) : ∀ p ∈ inorder (insert c fix new t), P p := by
  induction t with
  | nil => simpa [insert] using hnew
  | node p l r ihl ihr =>
    simp only [inorder_node, List.forall_mem_append, List.forall_mem_cons] at ht
    unfold insert
    apply hfix
    split
    · simpa only [inorder_node, List.forall_mem_append, List.forall_mem_cons] using
        ⟨ihl ht.1, ht.2⟩
    · simpa only [inorder_node, List.forall_mem_append, List.forall_mem_cons] using
        ⟨ht.1, ht.2.1, ihr ht.2.2⟩

/-- **An insertion is one in the in-order list**, behind all that is smaller. -/
theorem inorder_insert (hfix : ∀ t, (inorder (fix t)).map e = (inorder t).map e) (new : α)
    (hs : Sifted c t) :
    ∃ l₁ l₂, inorder t = l₁ ++ l₂ ∧
      (inorder (insert c fix new t)).map e = l₁.map e ++ e new :: l₂.map e ∧
      (∀ q ∈ l₁, c q < 0) ∧ ∀ q ∈ l₂, 0 ≤ c q := by
  induction t with
  | nil => exact ⟨[], [], rfl, rfl, by simp, by simp⟩
  | node p l r ihl ihr =>
    obtain ⟨hsl, hsr, hlp, hpr, hlr⟩ := sifted_node.mp hs
    unfold insert
    rw [hfix]
    -- the side gone into is divided at the new entry, and the other side stays whole
    split
    · next hge =>
      obtain ⟨l₁, l₂, hl, hins, h₁, h₂⟩ := ihl hsl
      refine ⟨l₁, l₂ ++ p :: inorder r, ?_, ?_, h₁, ?_⟩
      · rw [inorder_node, hl, List.append_assoc]
      · rw [inorder_node, List.map_append, hins]
        simp
      · intro q hq
        rw [List.mem_append, List.mem_cons] at hq
        rcases hq with hq | rfl | hq
        · exact h₂ q hq
        · exact hge
        · exact (hpr q hq).1 hge
    · next hlt =>
      obtain ⟨l₁, l₂, hr, hins, h₁, h₂⟩ := ihr hsr
      refine ⟨inorder l ++ p :: l₁, l₂, ?_, ?_, ?_, h₂⟩
      · rw [inorder_node, hr]
        simp
      · rw [inorder_node, List.map_append, List.map_cons, hins]
        simp
      · intro q hq
        rw [List.mem_append, List.mem_cons] at hq
        rcases hq with hq | rfl | hq
        · have := (hlp q hq).1
          omega
        · omega
        · exact h₁ q hq

theorem inorder_popMin (p : α) (l r : BinaryTree α) :
    (popMin p l r).1 :: inorder (popMin p l r).2 = inorder (node p l r) := by
  induction l generalizing p r with
  | nil => rfl
  | node q l₁ r₁ ihl _ =>
    show (popMin q l₁ r₁).1 :: (inorder (popMin q l₁ r₁).2 ++ p :: inorder r) = _
    rw [← List.cons_append, ihl, inorder_node p]

theorem inorder_eraseRoot (htake : ∀ p m, e (take p m) = e m) (p : α) (l r : BinaryTree α) :
    (inorder (eraseRoot take p l r)).map e = (inorder l).map e ++ (inorder r).map e := by
  cases l with
  | nil => simp [eraseRoot]
  | node q₁ l₁ r₁ =>
    cases r with
    | nil => simp [eraseRoot]
    | node q l₂ r₂ =>
      show ((inorder (node q₁ l₁ r₁) ++ take p (popMin q l₂ r₂).1 ::
        inorder (popMin q l₂ r₂).2).map e) = _
      rw [← inorder_popMin q, List.map_append, List.map_cons, List.map_cons, htake]

/-- What holds of all nodes, also of one that takes over what another one holds, an erasure keeps. -/
theorem forall_erase {P : α → Prop} (htake : ∀ p m, P p → P (take p m))
    (ht : ∀ p ∈ inorder t, P p) : ∀ p ∈ inorder (erase c take t), P p := by
  induction t with
  | nil => exact ht
  | node p l r ihl ihr =>
    have ht' := ht
    simp only [inorder_node, List.forall_mem_append, List.forall_mem_cons] at ht'
    obtain ⟨hl, hp, hr⟩ := ht'
    unfold erase
    split
    · cases l with
      | nil => exact hr
      | node q₁ l₁ r₁ =>
        cases r with
        | nil => exact hl
        | node q l₂ r₂ =>
          -- with two children the payload comes from the next node in order
          rw [← inorder_popMin, List.forall_mem_cons] at hr
          show ∀ p' ∈ inorder (node (take p (popMin q l₂ r₂).1) _ _), P p'
          rw [inorder_node, List.forall_mem_append, List.forall_mem_cons]
          exact ⟨hl, htake p _ hp, hr.2⟩
    · split
      · rw [inorder_node, List.forall_mem_append, List.forall_mem_cons]
        exact ⟨ihl hl, hp, hr⟩
      · rw [inorder_node, List.forall_mem_append, List.forall_mem_cons]
        exact ⟨hl, hp, ihr hr⟩

theorem erase_of_find_none (h : find c t = none) : erase c take t = t := by
  induction t with
  | nil => rfl
  | node p l r ihl ihr =>
    unfold find at h
    unfold erase
    split at h
    · cases h
    · next hp =>
      rw [if_neg hp]
      split at h
      · next hge => rw [if_pos hge, ihl h]
      · next hlt => rw [if_neg hlt, ihr h]

/-- **An erasure is one in the in-order list.** -/
theorem inorder_erase (htake : ∀ p m, e (take p m) = e m) (h : find c t = some q) :
    ∃ l₁ l₂, inorder t = l₁ ++ q :: l₂ ∧
      (inorder (erase c take t)).map e = l₁.map e ++ l₂.map e := by
  induction t with
  | nil => cases h
  | node p l r ihl ihr =>
    -- `find` and `erase` go the same way
    unfold find at h
    unfold erase
    split at h
    · next hp =>
      obtain rfl := Option.some.inj h
      rw [if_pos hp]
      exact ⟨inorder l, inorder r, rfl, inorder_eraseRoot htake p l r⟩
    · next hp =>
      rw [if_neg hp]
      split at h
      · next hge =>
        obtain ⟨l₁, l₂, hl, herase⟩ := ihl h
        refine ⟨l₁, l₂ ++ p :: inorder r, ?_, ?_⟩
        · rw [inorder_node, hl]
          simp
        · rw [if_pos hge, inorder_node, List.map_append, herase]
          simp
      · next hlt =>
        obtain ⟨l₁, l₂, hr, herase⟩ := ihr h
        refine ⟨inorder l ++ p :: l₁, l₂, ?_, ?_⟩
        · rw [inorder_node, hr]
          simp
        · rw [if_neg hlt, inorder_node, List.map_append, List.map_cons, herase]
          simp

/-! ## How many nodes there are

The counts serve where the nodes of a tree are blocks of memory, and every block has to be accounted
for. -/

/-- An insertion adds one node, as long as `fix` leaves none out. -/
theorem numNodes_insert {fix : BinaryTree α → BinaryTree α}
    (hfix : ∀ t, (fix t).numNodes = t.numNodes) (new : α) (t : BinaryTree α) :
    (insert c fix new t).numNodes = t.numNodes + 1 := by
  induction t with
  | nil => rfl
  | node p l r ihl ihr =>
    rw [insert, hfix]
    by_cases hp : c p ≥ 0
    · rw [if_pos hp]
      show (insert c fix new l).numNodes + r.numNodes + 1 = l.numNodes + r.numNodes + 1 + 1
      omega
    · rw [if_neg hp]
      show l.numNodes + (insert c fix new r).numNodes + 1 = l.numNodes + r.numNodes + 1 + 1
      omega

/-- An erasure that finds something takes one node out. -/
theorem numNodes_erase (h : find c t = some q) (take : α → α → α) :
    (erase c take t).numNodes + 1 = t.numNodes := by
  have htake : ∀ p m, Function.const α () (take p m) = Function.const α () m := fun _ _ => rfl
  obtain ⟨l₁, l₂, ht, herase⟩ := inorder_erase (e := Function.const α ()) htake h
  have hlen := congrArg List.length herase
  rw [List.length_map, List.length_append, List.length_map, List.length_map, length_inorder] at hlen
  rw [hlen, ← length_inorder t, ht, List.length_append, List.length_cons]
  omega

end Bst
