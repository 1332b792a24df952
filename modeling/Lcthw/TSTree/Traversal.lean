import Lcthw.TSTree.Leftovers

/-!
# Lcthw — listing the values of a tree (`TSTree_traverse`)

* **`Enumerates`**: a list of values, one for each bound key that is asked for, in any order.
* **`traverse_run`**: a traversal calls its callback with the value of each bound key, once.
-/

namespace Lcthw.TSTree

open Ternary Ternary.Tree

variable {ν : Type}

/-! ## The values of some keys

A list of values in any order, with one for each key. Traversals and prefix searches are both said to
give such a list. -/

/-- The values are those of the bound keys with `P`, one for each key. -/
def Enumerates (b : Key → Option ν) (P : Key → Prop) (vs : List ν) : Prop :=
  ∃ keys : List Key, keys.Nodup ∧ (∀ k, k ∈ keys ↔ P k ∧ (b k).isSome) ∧
    vs.Perm (keys.filterMap b)

/-- The values of a tree, in the order of its entries. -/
def values (t : TSTree ν) : List ν :=
  t.entries.filterMap fun e => e.2.value

@[simp] theorem values_nil : values (nil : TSTree ν) = [] := rfl

theorem values_node (c : CChar) (low high equal : TSTree ν) (d : Cell ν) :
    values (node c low high equal d) =
      values low ++ values high ++ (d.value.toList ++ values equal) := by
  unfold values
  rw [entries, List.filterMap_append, List.filterMap_append, List.filterMap_cons,
    List.filterMap_map]
  cases d.value <;> rfl

section Enumerates

variable {b : Key → Option ν} {P : Key → Prop} {vs ws : List ν}

theorem Enumerates.perm (h : Enumerates b P vs) (hperm : ws.Perm vs) : Enumerates b P ws := by
  obtain ⟨keys, hnodup, hmem, hkeys⟩ := h
  exact ⟨keys, hnodup, hmem, hperm.trans hkeys⟩

/-- There is only one list of the values, but for the order. -/
theorem Enumerates.unique (hv : Enumerates b P vs) (hw : Enumerates b P ws) : vs.Perm ws := by
  obtain ⟨ks, hks, hmem, hvs⟩ := hv
  obtain ⟨js, hjs, hmem', hws⟩ := hw
  have hsame : ks.Perm js :=
    (List.perm_ext_iff_of_nodup hks hjs).mpr fun k => (hmem k).trans (hmem' k).symm
  exact hvs.trans ((hsame.filterMap b).trans hws.symm)

theorem Enumerates.mem (h : Enumerates b P vs) {v : ν} :
    v ∈ vs ↔ ∃ k, P k ∧ b k = some v := by
  obtain ⟨keys, -, hmem, hkeys⟩ := h
  rw [hkeys.mem_iff, List.mem_filterMap]
  constructor
  · rintro ⟨k, hk, hv⟩
    exact ⟨k, ((hmem k).mp hk).1, hv⟩
  · rintro ⟨k, hk, hv⟩
    exact ⟨k, (hmem k).mpr ⟨hk, by rw [hv]; rfl⟩, hv⟩

/-- Entries with different strings enumerate the keys that they are the entries of. -/
theorem enumerates_of_entries {es : List (List CChar × Cell ν)} (hnodup : (es.map Prod.fst).Nodup)
    (hmem : ∀ (k : Key) v, (P k ∧ b k = some v) ↔ ∃ d, (k.1, d) ∈ es ∧ d.value = some v)
    (hkey : ∀ e ∈ es, e.1 ≠ []) : Enumerates b P (es.filterMap fun e => e.2.value) := by
  let keyOf : List CChar × Cell ν → Option Key := fun e =>
    if h : e.1 ≠ [] ∧ e.2.value.isSome then some ⟨e.1, h.1⟩ else none
  have hkeyOf : ∀ e ∈ es, ∀ k, keyOf e = some k ↔ k.1 = e.1 ∧ e.2.value.isSome := by
    intro e he k
    by_cases h : e.1 ≠ [] ∧ e.2.value.isSome
    · rw [show keyOf e = some ⟨e.1, h.1⟩ from dif_pos h, Option.some_inj, Subtype.ext_iff, eq_comm]
      exact ⟨fun hk => ⟨hk, h.2⟩, fun hk => hk.1⟩
    · rw [show keyOf e = none from dif_neg h]
      constructor
      · intro hk
        cases hk
      · intro hk
        exact absurd ⟨hkey e he, hk.2⟩ h
  refine ⟨es.filterMap keyOf, ?_, fun k => ?_, ?_⟩
  · -- a key is the string of at most one entry
    have hsub : ((es.filterMap keyOf).map Subtype.val).Sublist (es.map Prod.fst) := by
      clear hnodup hmem
      induction es with
      | nil => exact List.Sublist.refl _
      | cons e es ih =>
        have ih := ih (fun e he => hkey e (List.mem_cons_of_mem _ he))
          fun e he => hkeyOf e (List.mem_cons_of_mem _ he)
        rw [List.filterMap_cons, List.map_cons]
        cases hk : keyOf e with
        | none => exact ih.cons _
        | some k =>
          rw [List.map_cons, ((hkeyOf e List.mem_cons_self k).mp hk).1]
          exact ih.cons_cons _
    exact (hnodup.sublist hsub).of_map
  · rw [List.mem_filterMap]
    constructor
    · rintro ⟨e, he, hk⟩
      obtain ⟨heq, hsome⟩ := (hkeyOf e he k).mp hk
      obtain ⟨v, hv⟩ := Option.isSome_iff_exists.mp hsome
      obtain ⟨hp, hb⟩ := (hmem k v).mpr ⟨e.2, by rw [heq]; exact he, hv⟩
      exact ⟨hp, by rw [hb]; rfl⟩
    · rintro ⟨hp, hsome⟩
      obtain ⟨v, hv⟩ := Option.isSome_iff_exists.mp hsome
      obtain ⟨d, hd, hdv⟩ := (hmem k v).mp ⟨hp, hv⟩
      exact ⟨(k.1, d), hd, (hkeyOf _ hd k).mpr ⟨rfl, by rw [hdv]; rfl⟩⟩
  · apply List.Perm.of_eq
    rw [List.filterMap_filterMap]
    refine List.filterMap_congr fun e he => ?_
    cases hv : e.2.value with
    | none =>
      have hnone : keyOf e = none := dif_neg fun h => by simp [hv] at h
      rw [hnone]
      rfl
    | some v =>
      have hk : keyOf e = some ⟨e.1, hkey e he⟩ :=
        (hkeyOf e he _).mpr ⟨rfl, by rw [hv]; rfl⟩
      rw [hk]
      exact (((hmem ⟨e.1, hkey e he⟩ v).mpr ⟨e.2, he, hv⟩).2).symm

end Enumerates

/-- **The values of an ordered tree** are those of its bound keys. -/
theorem enumerates_values {t : TSTree ν} (ht : t.Ordered) :
    Enumerates (valueOf t) (fun _ => True) (values t) := by
  refine enumerates_of_entries (nodup_entries ht) (fun k v => ?_) fun e => ne_nil_of_mem_entries
  rw [valueOf, Option.bind_eq_some_iff, true_and]
  exact exists_congr fun d => and_congr_left fun _ => (mem_entries ht).symm

/-! ## Traversal

The order of a tree is needed here: without it the same key may have two nodes. -/

/-- A traversal of a live tree ends, with the values of its entries in the order of the links. -/
theorem traverse_eq {t : TSTree ν} (ht : t.Live) :
    ∃ vs, traverse t = .ok vs ∧ vs.Perm (values t) := by
  induction t with
  | nil => exact ⟨[], rfl, List.Perm.refl _⟩
  | dead => exact ht.elim
  | node c low high equal d ihl ihh ihe =>
    obtain ⟨ls, hl, hlp⟩ := ihl ht.1
    obtain ⟨hs, hh, hhp⟩ := ihh ht.2.1
    obtain ⟨es, he, hep⟩ := ihe ht.2.2
    refine ⟨ls ++ hs ++ es ++ d.value.toList, ?_, ?_⟩
    · unfold traverse
      rw [hl, ok_bind, hh, ok_bind, he, ok_bind]
      rfl
    · rw [values_node, List.append_assoc]
      exact (hlp.append hhp).append (List.perm_append_comm.trans (hep.append_left _))

/-- Insertions and deletions keep the order of a tree. -/
theorem ordered_trees (ops : List (MapOp ν)) {t : TSTree ν} (ho : t.Ordered) :
    (ops.foldl MapOp.tree t).Ordered := by
  induction ops generalizing t with
  | nil => exact ho
  | cons op ops ih =>
    rw [List.foldl_cons]
    apply ih
    cases op with
    | insert key value => exact ho.upsert _ _
    | delete key =>
      exact ho.of_shape (shape_alter (fun c : Cell ν => { c with value := none }) t key).symm

/-- **A traversal calls its callback once for each bound key**, with the key's value, and not for
any other node. -/
theorem traverse_run [DecidableEq ν] {calls : List (Call ν)} {s : Store ν}
    (hrun : Run.run exec start calls = .ok s) :
    ∃ vs, traverse s.root = .ok vs ∧
      Enumerates (fun k => bound k (calls.map Call.op)) (fun _ => True) vs := by
  obtain ⟨hlive, hvalue, -⟩ := run_start hrun
  obtain ⟨vs, htraverse, hperm⟩ := traverse_eq hlive
  have hord : s.root.Ordered := by
    rw [run_root (s := (start : Store ν)) trivial hrun]
    exact ordered_trees _ (t := (nil : TSTree ν)) trivial
  refine ⟨vs, htraverse, ?_⟩
  rw [← funext hvalue]
  exact (enumerates_values hord).perm hperm

/-- Three keys, of which the middle one is deleted again. Its node stays. -/
theorem traverse_run_three :
    ∃ s vs, Run.run exec start [⟨.insert ⟨cstr "ab", by decide⟩ 1, {1, 2, 3}⟩,
        ⟨.insert ⟨cstr "a", by decide⟩ 2, ∅⟩, ⟨.insert ⟨cstr "c", by decide⟩ 3, ∅⟩,
        ⟨.delete ⟨cstr "a", by decide⟩, ∅⟩] = .ok s ∧
      traverse s.root = .ok vs ∧
      Enumerates (fun k => bound k [.insert ⟨cstr "ab", by decide⟩ 1,
        .insert ⟨cstr "a", by decide⟩ 2, .insert ⟨cstr "c", by decide⟩ 3,
        .delete ⟨cstr "a", by decide⟩]) (fun _ => True) vs := by
  obtain ⟨s, hrun⟩ : ∃ s, Run.run exec start [⟨.insert ⟨cstr "ab", by decide⟩ 1, {1, 2, 3}⟩,
      ⟨.insert ⟨cstr "a", by decide⟩ 2, ∅⟩, ⟨.insert ⟨cstr "c", by decide⟩ 3, ∅⟩,
      ⟨.delete ⟨cstr "a", by decide⟩, ∅⟩] = .ok s := ⟨_, rfl⟩
  obtain ⟨vs, htraverse, hvs⟩ := traverse_run hrun
  exact ⟨s, vs, hrun, htraverse, hvs⟩

end Lcthw.TSTree
