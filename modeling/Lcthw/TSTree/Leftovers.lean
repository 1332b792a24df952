import Lcthw.TSTree.Prefix

/-!
# Lcthw — the nodes a deletion leaves behind

`TSTree_delete` clears a value and keeps every node, so a key has a node from its first insertion
on, and so has every prefix of it.

* **`node_iff_inserted`**: the keys that have a node after a run.
* **`delete_reports_iff`**: when `TSTree_delete` reports whether it deleted something.
* **`invisible_iff`**: when an insertion that is deleted again leaves every answer as it was.
-/

namespace Lcthw.TSTree

open Ternary Ternary.Tree

variable {ν : Type}

/-- The key, or a key that goes on from it, has been inserted. -/
def Inserted (k : Key) (ops : List (MapOp ν)) : Prop :=
  ∃ key value, MapOp.insert key value ∈ ops ∧ k.1 <+: key.1

theorem isSome_get?_upsert {t : TSTree ν} (ht : t.Live) (value : ν) (key k : Key) :
    ((upsert blank (bindValue value) key t).get? k).isSome ↔
      (t.get? k).isSome ∨ k.1 <+: key.1 := by
  rw [get?_upsert ht]
  obtain ⟨c, hlast⟩ := Option.isSome_iff_exists.mp (List.getLast?_isSome.mpr k.2)
  by_cases hk : k.1 = key.1
  · rw [if_pos hk, ← hk]
    simp [hlast]
  · rw [if_neg hk]
    by_cases hpre : k.1 <+: key.1 <;> simp [hpre, hlast]

/-- **The nodes of a tree** are those of the keys inserted into it, and of their prefixes. -/
theorem node_iff_inserted {t : TSTree ν} (ht : t.Live) (ops : List (MapOp ν)) (k : Key) :
    ((ops.foldl MapOp.tree t).get? k).isSome ↔ (t.get? k).isSome ∨ Inserted k ops := by
  induction ops generalizing t with
  | nil => simp [Inserted]
  | cons op ops ih =>
    rw [List.foldl_cons, ih (live_tree ht op)]
    cases op with
    | insert key value =>
      rw [MapOp.tree, isSome_get?_upsert ht, or_assoc]
      apply or_congr_right
      constructor
      · rintro (hpre | ⟨key', value', hmem, hpre⟩)
        · exact ⟨key, value, List.mem_cons_self, hpre⟩
        · exact ⟨key', value', List.mem_cons_of_mem _ hmem, hpre⟩
      · rintro ⟨key', value', hmem, hpre⟩
        rcases List.mem_cons.mp hmem with heq | hmem
        · cases heq
          exact Or.inl hpre
        · exact Or.inr ⟨key', value', hmem, hpre⟩
    | delete key =>
      -- a deletion leaves the nodes
      rw [MapOp.tree, isSome_get?_of_shape (shape_alter (fun c : Cell ν => { c with value := none }) t key)]
      apply or_congr_right
      constructor
      · rintro ⟨key', value', hmem, hpre⟩
        exact ⟨key', value', List.mem_cons_of_mem _ hmem, hpre⟩
      · rintro ⟨key', value', hmem, hpre⟩
        rcases List.mem_cons.mp hmem with heq | hmem
        · cases heq
        · exact ⟨key', value', hmem, hpre⟩

section Runs

variable [DecidableEq ν] {calls : List (Call ν)} {s : Store ν}

/-- A run from a NULL root. -/
theorem run_start (hrun : Run.run exec start calls = .ok s) :
    s.root.Live ∧ (∀ k, valueOf s.root k = bound k (calls.map Call.op)) ∧
      ∀ k : Key, (s.root.get? k).isSome ↔ Inserted k (calls.map Call.op) := by
  rw [run_root (s := (start : Store ν)) trivial hrun]
  obtain ⟨hlive, hvalue⟩ := trees_nil (calls.map Call.op)
  refine ⟨hlive, hvalue, fun k => ?_⟩
  show ((List.foldl MapOp.tree nil _).get? k).isSome ↔ _
  rw [node_iff_inserted (t := (nil : TSTree ν)) trivial]
  simp

/-! ## What a deletion reports

A deletion returns 0 when the walk for its key ends at a node, whether there is a value in it or not.
The nodes are those of all keys that were ever inserted, and of their prefixes. -/

/-- **A deletion reports whether the key has a node.** That is right when the key is bound, to a block
that is allocated, or has never been inserted and is no prefix of a key that has. -/
theorem delete_reports_iff (hrun : Run.run exec start calls = .ok s) (blocks : Finset ν) (k : Key) :
    (∃ rc root' blocks', delete blocks s.root k = .ok (rc, root', blocks') ∧
      (rc = 0 ↔ (bound k (calls.map Call.op)).isSome) ∧
      (rc = -1 ↔ ¬ (bound k (calls.map Call.op)).isSome)) ↔
    (∃ value ∈ blocks, bound k (calls.map Call.op) = some value) ∨
      ¬ Inserted k (calls.map Call.op) := by
  obtain ⟨hlive, hvalue, hnode⟩ := run_start hrun
  rw [← hnode, ← hvalue, delete_eq blocks hlive k.2]
  cases hget : s.root.get? k with
  | none =>
    have hnone : valueOf s.root k = none := by rw [valueOf, hget]; rfl
    refine iff_of_true ⟨-1, s.root, blocks, rfl, ?_⟩ (Or.inr (by simp))
    simp [hnone]
  | some c =>
    have hc : valueOf s.root k = c.value := by rw [valueOf, hget]; rfl
    rw [hc]
    cases hv : c.value with
    | none =>
      -- the node is there, but nothing is bound
      refine iff_of_false ?_ (by simp)
      rintro ⟨rc, root', blocks', hdelete, hzero, -⟩
      simp only [hv, free_none] at hdelete
      obtain ⟨rfl, -⟩ := Prod.mk.inj (Except.ok.inj hdelete)
      exact absurd (hzero.mp rfl) (by simp)
    | some value =>
      by_cases hmem : value ∈ blocks
      · refine iff_of_true ?_ (Or.inl ⟨value, hmem, rfl⟩)
        simp only [hv, free_some hmem]
        exact ⟨0, _, _, rfl, by simp, by simp⟩
      · refine iff_of_false ?_ ?_
        · rintro ⟨rc, root', blocks', hdelete, -⟩
          simp only [hv, free_fault hmem] at hdelete
          cases hdelete
        · rintro (⟨value', hmem', heq⟩ | hnot)
          · exact hmem (Option.some.inj heq ▸ hmem')
          · exact hnot rfl

end Runs

/-- Two keys with blocks of their own, of which the shorter one is deleted. -/
theorem delete_reports_iff_two :
    (∃ rc root' blocks', delete {1, 2} (MapOp.tree (MapOp.tree nil (.insert ⟨cstr "ab", by decide⟩ 1))
        (.insert ⟨cstr "a", by decide⟩ 2)) (cstr "a") = .ok (rc, root', blocks') ∧
      (rc = 0 ↔ (bound ⟨cstr "a", by decide⟩ [.insert ⟨cstr "ab", by decide⟩ 1,
        .insert ⟨cstr "a", by decide⟩ 2]).isSome) ∧
      (rc = -1 ↔ ¬ (bound ⟨cstr "a", by decide⟩ [.insert ⟨cstr "ab", by decide⟩ 1,
        .insert ⟨cstr "a", by decide⟩ 2]).isSome)) ↔
    (∃ value ∈ ({1, 2} : Finset ℕ), bound ⟨cstr "a", by decide⟩ [.insert ⟨cstr "ab", by decide⟩ 1,
        .insert ⟨cstr "a", by decide⟩ 2] = some value) ∨
      ¬ Inserted ⟨cstr "a", by decide⟩ [MapOp.insert ⟨cstr "ab", by decide⟩ 1,
        .insert ⟨cstr "a", by decide⟩ 2] :=
  delete_reports_iff (show Run.run exec start
      [⟨.insert ⟨cstr "ab", by decide⟩ 1, {1}⟩, ⟨.insert ⟨cstr "a", by decide⟩ 2, {2}⟩] =
      .ok ⟨MapOp.tree (MapOp.tree nil (.insert ⟨cstr "ab", by decide⟩ 1))
        (.insert ⟨cstr "a", by decide⟩ 2), {1, 2}⟩ from rfl) {1, 2} ⟨cstr "a", by decide⟩

/-- The prefix of a stored key is not bound, but its deletion reports success. -/
theorem unbound_prefix_deleted :
    ∃ s root' blocks', Run.run exec start [⟨.insert ⟨cstr "ab", by decide⟩ 1, {1}⟩] = .ok s ∧
      bound ⟨cstr "a", by decide⟩ [MapOp.insert ⟨cstr "ab", by decide⟩ 1] = none ∧
      delete s.blocks s.root (cstr "a") = .ok (0, root', blocks') :=
  ⟨_, _, _, rfl, by decide, rfl⟩

/-! ## An insertion that is deleted again

The tree keeps the nodes of the key. A search does not see them; a prefix search for a string that had
no node does, and then does not fall back on what it found before. -/

theorem chainValue_blank (k : CChar) (low high equal : TSTree ν) :
    chainValue (node k low high equal (blank k)) = chainValue equal :=
  if_pos rfl

/-- Blank nodes are no values on the `equal` links. -/
theorem chainValue_grow (p : List CChar) (t : TSTree ν) :
    chainValue (grow blank p t) = chainValue t := by
  induction p, t using grow_induction with
  | empty t => rfl
  | nil k ks ih =>
    rw [grow_nil, chainValue_blank, ih]
  | dead k ks => rw [grow_dead]
  | lt k ks c low high equal d hlt ih => rw [grow_lt hlt, chainValue, chainValue]
  | self c ks low high equal d ih => rw [grow_self, chainValue, chainValue, ih]
  | gt k ks c low high equal d hgt ih => rw [grow_gt hgt, chainValue, chainValue]

/-- From a node that was there the `equal` links lead to the same value as before. -/
theorem chainValue_walk_grow (p : List CChar) (t : TSTree ν) {q : List CChar} (hq : q ≠ []) :
    chainValue ((grow blank p t).walk q) = chainValue (t.walk q) := by
  induction p, t using grow_induction generalizing q with
  | empty t => rfl
  | nil k ks ih =>
    obtain ⟨j, js, rfl⟩ := List.exists_cons_of_ne_nil hq
    rw [grow_nil, walk_nil]
    rcases lt_trichotomy j k with hlt | rfl | hgt
    · rw [walk_lt hlt, walk_nil]
    · cases js with
      -- the new node has no value, and neither has what grows below it
      | nil => rw [walk_self, chainValue_blank, chainValue_grow]
      | cons i is => rw [walk_self_cons, ih (by simp), walk_nil]
    · rw [walk_gt hgt, walk_nil]
  | dead k ks => rw [grow_dead]
  | lt k ks c low high equal d hlt ih =>
    obtain ⟨j, js, rfl⟩ := List.exists_cons_of_ne_nil hq
    rw [grow_lt hlt]
    rcases lt_trichotomy j c with hjlt | rfl | hjgt
    · rw [walk_lt hjlt, walk_lt hjlt, ih hq]
    · cases js with
      | nil => rw [walk_self, walk_self, chainValue, chainValue]
      | cons i is => rw [walk_self_cons, walk_self_cons]
    · rw [walk_gt hjgt, walk_gt hjgt]
  | self c ks low high equal d ih =>
    obtain ⟨j, js, rfl⟩ := List.exists_cons_of_ne_nil hq
    rw [grow_self]
    rcases lt_trichotomy j c with hjlt | rfl | hjgt
    · rw [walk_lt hjlt, walk_lt hjlt]
    · cases js with
      | nil => rw [walk_self, walk_self, chainValue, chainValue, chainValue_grow]
      | cons i is => rw [walk_self_cons, walk_self_cons, ih (by simp)]
    · rw [walk_gt hjgt, walk_gt hjgt]
  | gt k ks c low high equal d hgt ih =>
    obtain ⟨j, js, rfl⟩ := List.exists_cons_of_ne_nil hq
    rw [grow_gt hgt]
    rcases lt_trichotomy j c with hjlt | rfl | hjgt
    · rw [walk_lt hjlt, walk_lt hjlt]
    · cases js with
      | nil => rw [walk_self, walk_self, chainValue, chainValue]
      | cons i is => rw [walk_self_cons, walk_self_cons]
    · rw [walk_gt hjgt, walk_gt hjgt, ih hq]

theorem lookup_grow {t : TSTree ν} (ht : t.Live) (p q : List CChar) :
    lookup (grow blank p t) q = lookup t q := by
  rw [lookup, lookup, get?_grow blank ht]
  cases hget : t.get? q with
  | some d => rfl
  | none =>
    by_cases hpre : q <+: p
    · cases q.getLast? <;> simp [hpre, blank]
    · simp [hpre]

/-- **The tree after an insertion and a deletion** of a key that was not bound has all nodes of the
key, and nothing new in them. The value is freed. -/
theorem insert_delete [DecidableEq ν] {t : TSTree ν} (ht : t.Live) {k : Key} (hk : valueOf t k = none)
    (value : ν) (blocks : Finset ν) :
    ∃ t', insert t k value = .ok t' ∧
      (value ∈ blocks →
        ∃ rc, delete blocks t' k = .ok (rc, grow blank k t, blocks.erase value)) ∧
      (value ∉ blocks → delete blocks t' k = .error .useAfterFree) := by
  have hsame : (upsert blank (bindValue value) k t).alter (fun c => { c with value := none }) k =
      grow blank k t := by
    rw [upsert, alter_alter, alter_eq_self]
    intro d hd
    have hv : d.value = none := by
      have hvalue := lookup_grow ht k k
      rw [lookup, hd] at hvalue
      exact hvalue.trans hk
    -- the node had no value before, so clearing it undoes the insertion
    obtain ⟨stat, v⟩ := d
    obtain rfl : v = none := hv
    simp [bindValue]
  have hlive : (upsert blank (bindValue value) k t).Live := ht.upsert _ _
  have hbound : valueOf (upsert blank (bindValue value) k t) k = some value := by
    rw [valueOf_upsert ht, if_pos rfl, hk]
    rfl
  refine ⟨_, insert_eq value ht k.2, fun hmem => ⟨0, ?_⟩, delete_fault hlive hbound⟩
  obtain ⟨c, hget, hc⟩ := Option.bind_eq_some_iff.mp hbound
  rw [delete_eq blocks hlive k.2, hget]
  simp only [hc, free_some hmem]
  rw [hsame]
  rfl

/-- Growing a path shows in a prefix search for a string that gets a node by it, and falls back on
a bound proper prefix now. -/
theorem searchPrefix_grow {t : TSTree ν} (ht : t.Live) (p q : Key) :
    searchPrefix (grow blank p t) q = searchPrefix t q ↔
      ¬ (q.1 <+: p.1 ∧ t.get? q = none ∧ longest (lookup t) q ≠ none) := by
  have hlong : longest (lookup (grow blank p t)) q = longest (lookup t) q := by
    rw [funext (lookup_grow ht p)]
  rw [searchPrefix_eq (ht.grow blank p) q.2, searchPrefix_eq ht q.2, hlong,
    chainValue_walk_grow p t q.2]
  obtain ⟨c, hlast⟩ := Option.isSome_iff_exists.mp (List.getLast?_isSome.mpr q.2)
  cases hget : t.get? q with
  | some d => simp [get?_grow blank ht, hget]
  | none =>
    have hnil : t.walk q = nil := (ht.get?_eq_none q.2).mp hget
    by_cases hpre : q.1 <+: p.1
    · simp [get?_grow blank ht, hget, hpre, hlast, hnil, chainValue, eq_comm]
    · simp [get?_grow blank ht, hget, hpre]

/-- **When an insertion that is deleted again cannot be seen.** Its value is a block, so that it can be
freed. The key has been inserted before, or is a prefix of a key that has, so that it has a node; or no
proper prefix of it is bound, so that no search falls back on one from the nodes that are left behind. -/
theorem invisible_iff [DecidableEq ν] {calls : List (Call ν)} {s : Store ν}
    (hrun : Run.run exec start calls = .ok s) (k : Key) (value : ν)
    (hk : bound k (calls.map Call.op) = none) (blocks : Finset ν) :
    (∃ root' rc root'' blocks', insert s.root k value = .ok root' ∧
      delete blocks root' k = .ok (rc, root'', blocks') ∧
      ∀ q : Key, search root'' q = search s.root q ∧
        searchPrefix root'' q = searchPrefix s.root q) ↔
    value ∈ blocks ∧ (Inserted k (calls.map Call.op) ∨
      ∀ q : Key, q.1 <+: k.1 → q ≠ k → bound q (calls.map Call.op) = none) := by
  obtain ⟨hlive, hvalue, hnode⟩ := run_start hrun
  obtain ⟨root', hinsert, hfreed, hfault⟩ :=
    insert_delete hlive ((hvalue k).trans hk) value blocks
  rw [← hnode]
  constructor
  · rintro ⟨root₁, rc, root'', blocks', hinsert', hdelete, hsame⟩
    obtain rfl : root' = root₁ := Except.ok.inj (hinsert.symm.trans hinsert')
    have hmem : value ∈ blocks := by
      by_contra hmem
      exact nomatch (hfault hmem).symm.trans hdelete
    obtain ⟨rc', hdelete'⟩ := hfreed hmem
    obtain ⟨-, hrest⟩ := Prod.mk.inj (Except.ok.inj (hdelete'.symm.trans hdelete))
    obtain ⟨rfl, -⟩ := Prod.mk.inj hrest
    refine ⟨hmem, ?_⟩
    -- a new node on the way with nothing above it shows in the search for it
    by_contra hnot
    push Not at hnot
    obtain ⟨hmissing, q, hpre, hne, hq⟩ := hnot
    refine (searchPrefix_grow hlive k k).mp (hsame k).2 ⟨List.prefix_refl _, by simpa using hmissing,
      fun hlong => hq ?_⟩
    rw [← hvalue]
    exact longest_eq_none.mp hlong q q.2 hpre fun heq => hne (Subtype.ext heq)
  · rintro ⟨hmem, hwhen⟩
    obtain ⟨rc, hdelete⟩ := hfreed hmem
    refine ⟨root', rc, _, _, hinsert, hdelete, fun q => ⟨?_, ?_⟩⟩
    · rw [search_of_live (hlive.grow blank k) q.2, search_of_live hlive q.2]
      exact congrArg Except.ok (lookup_grow hlive k q)
    · refine (searchPrefix_grow hlive k q).mpr fun ⟨hpre, hmissing, hlong⟩ => ?_
      rcases hwhen with hhas | hall
      · have hsome := get?_isSome_of_prefix q.2 hpre hhas
        rw [hmissing] at hsome
        cases hsome
      · refine hlong (longest_eq_none.mpr fun q' hq' hpre' hne' => ?_)
        have hlt : q'.length < k.1.length :=
          lt_of_lt_of_le (hpre'.length_le.lt_of_ne fun h => hne' (hpre'.eq_of_length h))
            hpre.length_le
        have hb := hall ⟨q', hq'⟩ (hpre'.trans hpre) fun heq => by
          rw [← heq] at hlt
          exact lt_irrefl _ hlt
        rw [← hvalue] at hb
        exact hb

/-- A key behind one of the two that are bound. -/
theorem invisible_iff_ab :
    (∃ root' rc root'' blocks', insert (MapOp.tree (MapOp.tree nil (.insert ⟨cstr "a", by decide⟩ 1))
        (.insert ⟨cstr "c", by decide⟩ 3)) (cstr "ab") 2 = .ok root' ∧
      delete {1, 2, 3} root' (cstr "ab") = .ok (rc, root'', blocks') ∧
      ∀ q : Key, search root'' q = search (MapOp.tree (MapOp.tree nil
          (.insert ⟨cstr "a", by decide⟩ 1)) (.insert ⟨cstr "c", by decide⟩ 3)) q ∧
        searchPrefix root'' q = searchPrefix (MapOp.tree (MapOp.tree nil
          (.insert ⟨cstr "a", by decide⟩ 1)) (.insert ⟨cstr "c", by decide⟩ 3)) q) ↔
    2 ∈ ({1, 2, 3} : Finset ℕ) ∧ (Inserted ⟨cstr "ab", by decide⟩
        [MapOp.insert ⟨cstr "a", by decide⟩ 1, .insert ⟨cstr "c", by decide⟩ 3] ∨
      ∀ q : Key, q.1 <+: cstr "ab" → q ≠ ⟨cstr "ab", by decide⟩ →
        bound q [.insert ⟨cstr "a", by decide⟩ 1, .insert ⟨cstr "c", by decide⟩ 3] = none) :=
  invisible_iff (show Run.run exec start
      [⟨.insert ⟨cstr "a", by decide⟩ 1, {1}⟩, ⟨.insert ⟨cstr "c", by decide⟩ 3, {3}⟩] =
      .ok ⟨MapOp.tree (MapOp.tree nil (.insert ⟨cstr "a", by decide⟩ 1))
        (.insert ⟨cstr "c", by decide⟩ 3), {1, 3}⟩ from rfl) ⟨cstr "ab", by decide⟩ 2 (by decide) {1, 2, 3}

/-- The nodes left behind hide the value that a prefix search fell back on. -/
theorem deleted_key_hides_prefix :
    ∃ s root' rc root'' blocks',
      Run.run exec start [⟨.insert ⟨cstr "a", by decide⟩ 1, {1}⟩] = .ok s ∧
      bound ⟨cstr "ab", by decide⟩ [MapOp.insert ⟨cstr "a", by decide⟩ 1] = none ∧
      insert s.root (cstr "ab") 2 = .ok root' ∧
      delete {1, 2} root' (cstr "ab") = .ok (rc, root'', blocks') ∧
      searchPrefix s.root (cstr "ab") = .ok (some 1) ∧ searchPrefix root'' (cstr "ab") = .ok none :=
  ⟨_, _, _, _, _, rfl, by decide, rfl, rfl, rfl, rfl⟩

end Lcthw.TSTree
