import Lcthw.BSTree.Balance
import Lcthw.BSTree.Destroy

/-!
# Lcthw — how deep the recursions of an AVL tree go (`bstree.c`)

A call of `AVLTree_set` or `AVLTree_get` goes down one path of the tree, one C stack frame for each
node on it. The fuel of the model counts these frames.

* **`Balanced.fib_height_le`**: a balanced tree with few nodes is low.
* **`Even.run`**: a tree that keys are only set in stays balanced, whatever the keys and however
  they compare.
* **`depth_logarithmic`**: so that after `n` calls of `set` no call goes deeper than the greatest `h`
  with `fib (h + 2) ≤ n + 1`.
-/

namespace Lcthw.AVLTree

open BinaryTree LinkedTree SearchTree

variable {K V : Type} {map : AVLTree K V} {t : Nodes K V} {compare : K → K → ℤ}

/-- **The lowest number of nodes for a height.** -/
theorem Balanced.fib_height_le (ht : Balanced t) : Nat.fib (t.height + 2) ≤ t.numNodes + 1 := by
  induction t with
  | nil => exact le_rfl
  | node p l r ihl ihr =>
    obtain ⟨-, hlo, hhi, hl, hr⟩ := ht
    have hl' := ihl hl
    have hr' := ihr hr
    rw [hl.storedHeight_eq, hr.storedHeight_eq] at hlo hhi
    -- one of the subtrees is as high as both, and the other at most one lower
    have hsum : ∀ {a b : ℕ}, b ≤ a + 1 →
        Nat.fib (b + 1 + 2) ≤ Nat.fib (a + 2) + Nat.fib (b + 2) := by
      intro a b hba
      have hfib : Nat.fib (b + 1 + 2) = Nat.fib (b + 1) + Nat.fib (b + 2) := Nat.fib_add_two
      have hmono : Nat.fib (b + 1) ≤ Nat.fib (a + 2) := Nat.fib_mono (by omega)
      omega
    have hnodes : (node p l r).numNodes = l.numNodes + r.numNodes + 1 := rfl
    show Nat.fib (max l.height r.height + 1 + 2) ≤ _
    rw [hnodes]
    rcases le_total l.height r.height with hle | hle
    · have hmax := hsum (a := l.height) (b := r.height) (by omega)
      rw [max_eq_right hle]
      omega
    · have hmax := hsum (a := r.height) (b := l.height) (by omega)
      rw [max_eq_left hle]
      omega

/-- One call of `AVLTree_set`. -/
def setEntry (map : AVLTree K V) (entry : K × Option V) : Except Stop (AVLTree K V) := do
  let (map, _) ← set map entry.1 entry.2
  return map

/-- A balanced tree with a given number of nodes. -/
structure Even (compare : K → K → ℤ) (n : ℕ) (map : AVLTree K V) (t : Nodes K V) : Prop where
  holds : Holds map compare t
  balanced : Balanced t
  size : t.numNodes = n

/-- A node that differs from its children by one is rotated like any other: an insertion needs the
heights, and no order of the keys. -/
theorem Even.setEntry {n : ℕ} (he : Even compare n map t) (entry : K × Option V) :
    ∃ map' t', AVLTree.setEntry map entry = .ok map' ∧ Even compare (n + 1) map' t' := by
  obtain ⟨map', hset, hm'⟩ : ∃ map', SearchTree.set (order map) 1 rotate map entry.1 entry.2 =
        .ok (map', 0) ∧
      Holds map' compare (Bst.insert (against (order map) entry.1) rebalance
        (map.heap.brk, ⟨entry.1, entry.2, 1⟩) t) :=
    SearchTree.set_eq (P := fun p => 1 ≤ p.2.height) (fun _ => le_rfl)
      (fun _ ht => Standing.rebalance ht) (fun _ _ _ hne ht hm => rotate_eq hm hne ht) he.holds
      he.balanced.standing
  refine ⟨map', _, ?_, hm', (insert_balanced he.balanced rfl).1, ?_⟩
  · rw [AVLTree.setEntry, AVLTree.set, hset]
    rfl
  · rw [Bst.numNodes_insert numNodes_rebalance, he.size]

theorem Even.run {n : ℕ} (he : Even compare n map t) (entries : List (K × Option V)) :
    ∃ map' t', Run.run AVLTree.setEntry map entries = .ok map' ∧
      Even compare (n + entries.length) map' t' := by
  induction entries generalizing n map t with
  | nil => exact ⟨map, t, rfl, he⟩
  | cons entry entries ih =>
    obtain ⟨mid, u, hset, hmid⟩ := he.setEntry entry
    obtain ⟨map', t', hrun, hm'⟩ := ih hmid
    refine ⟨map', t', (Run.run_cons_ok _).mpr ⟨mid, hset, hrun⟩, ?_⟩
    rw [List.length_cons, show n + (entries.length + 1) = n + 1 + entries.length by omega]
    exact hm'

/-- **The recursions of an AVL tree that keys are set in are logarithmically deep.** After any calls
of `set`, of new keys and of keys that are there, neither a search nor the next `set` needs more frames
than `depth`, once `fib (depth + 3)` is above the number of calls and one. -/
theorem depth_logarithmic (compare : K → K → ℤ) {entries : List (K × Option V)}
    (hne : entries ≠ []) :
    ∃ map, Run.run setEntry (create compare) entries = .ok map ∧
      ∀ depth, entries.length + 1 < Nat.fib (depth + 3) → ∀ key,
        (∃ node, getNode map.order depth map.heap map.root key = .ok node) ∧
          ∀ data, ∃ map', setNode map.order 1 rotate depth map map.root key data = .ok map' := by
  have hbegin : Even compare 0 (create compare : AVLTree K V) nil :=
    ⟨holds_create compare, trivial, rfl⟩
  obtain ⟨map, t, hrun, he⟩ := hbegin.run entries
  rw [Nat.zero_add] at he
  refine ⟨map, hrun, fun depth hdepth key => ?_⟩
  have hnil : t ≠ nil := by
    rintro rfl
    exact hne (List.length_eq_zero_iff.mp he.size.symm)
  -- a tree that is higher has more nodes than were set
  have hheight : t.height ≤ depth := by
    by_contra hgt
    have hmono : Nat.fib (depth + 3) ≤ Nat.fib (t.height + 2) := Nat.fib_mono (by omega)
    have hlow := he.balanced.fib_height_le
    rw [he.size] at hlow
    omega
  rw [he.holds.root_eq]
  refine ⟨⟨_, getNode_eq he.holds.linked.rep hnil hheight⟩, fun data => ?_⟩
  obtain ⟨map', hset, -⟩ : ∃ map', setNode (order map) 1 rotate depth map (rootOf t) key data =
        .ok map' ∧
      Holds map' compare (plug [] (Bst.insert (against (order map) key) rebalance
        (map.heap.brk, ⟨key, data, 1⟩) t)) :=
    setNode_eq (P := fun p => 1 ≤ p.2.height) (fun _ => le_rfl)
      (fun _ ht => Standing.rebalance ht) (fun _ _ _ hne ht hm => rotate_eq hm hne ht) he.holds hnil
      hheight he.balanced.standing
  exact ⟨map', hset⟩

/-- Four keys in order and one of them again: three frames are enough. -/
theorem depth_logarithmic_abcd :
    ∃ map : AVLTree (List CChar) ℕ, Run.run setEntry (create bstrcmp)
        [(cstr "a", some 1), (cstr "b", some 2), (cstr "c", some 3), (cstr "d", some 4),
          (cstr "b", some 5)] = .ok map ∧
      ∃ node, getNode map.order 3 map.heap map.root (cstr "d") = .ok node := by
  have hne : [(cstr "a", some 1), (cstr "b", some 2), (cstr "c", some 3), (cstr "d", some 4),
      (cstr "b", some 5)] ≠ [] := List.cons_ne_nil _ _
  obtain ⟨map, hrun, hdepth⟩ := depth_logarithmic bstrcmp hne
  exact ⟨map, hrun, (hdepth 3 (by decide) (cstr "d")).1⟩

end Lcthw.AVLTree
