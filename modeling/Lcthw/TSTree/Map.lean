import Lcthw.Run
import Lcthw.TSTree.Walk

/-!
# Lcthw — the ternary search tree as a finite map

`TSTree_insert`, `TSTree_delete` and `TSTree_search` over keys of length at least one, from a NULL
root. The abstract machine is a history: `bound k ops` is what a list of operations says about the
key `k`, the value of the first insert of `k` since `k` was last unbound.

`Key` carries its nonemptiness, so no operation of length zero can be built. `TSTree_delete` frees the
value, so that a `Store` has the blocks of values beside the tree; a `Call` says which of them are new.

* **`MapOp.tree`**, **`exec_iff`**: the tree that an operation leaves, and when the call faults.
* **`search_run_iff`**: the tree is a finite map in the runs that free no value twice, and none that is
  no block.
-/

namespace Lcthw.TSTree

open Ternary Ternary.Tree

variable {ν : Type}

/-- A key of length at least one. -/
abbrev Key := { key : List CChar // key ≠ [] }

inductive MapOp (ν : Type) where
  | insert (key : Key) (value : ν)
  | delete (key : Key)

namespace MapOp

def key : MapOp ν → Key
  | insert key _ => key
  | delete key => key

/-- What the operation does to the binding of the key `k`: a key that is bound keeps its value. -/
def update (k : Key) (old : Option ν) : MapOp ν → Option ν
  | insert key value => if k = key then old.or (some value) else old
  | delete key => if k = key then none else old

end MapOp

/-! ## Calls

A value is a pointer, and which pointers may be freed is not written in the tree. So a call is carried
out on the tree and on the blocks that are allocated. -/

/-- A tree, and the blocks of values that are allocated. -/
structure Store (ν : Type) where
  root : TSTree ν
  blocks : Finset ν

/-- An operation, and the blocks that its caller has allocated since the operation before. -/
structure Call (ν : Type) where
  op : MapOp ν
  fresh : Finset ν

/-- Nothing is allocated, and the root is NULL. -/
def start : Store ν :=
  { root := nil, blocks := ∅ }

/-- The call as the code carries it out. -/
def exec [DecidableEq ν] (s : Store ν) (call : Call ν) : Except Fault (Store ν) :=
  let blocks := s.blocks ∪ call.fresh
  match call.op with
  | .insert key value => do
    let root ← TSTree.insert s.root key value
    return { root, blocks }
  | .delete key => do
    let (_, root, blocks) ← TSTree.delete blocks s.root key
    return { root, blocks }

/-! ## Bindings

The binding of a key is a function of the tree. An operation on one key changes it as the history says
and leaves the other ones. -/

/-- The value of the first insert of `k` since `k` was last unbound. -/
def bound (k : Key) (ops : List (MapOp ν)) : Option ν :=
  ops.foldl (MapOp.update k) none

/-- The binding of a key that a tree stores. -/
def valueOf (t : TSTree ν) (k : Key) : Option ν :=
  (t.get? k).bind Cell.value

theorem search_eq_valueOf {t : TSTree ν} (ht : t.Live) (k : Key) :
    search t k = .ok (valueOf t k) :=
  search_of_live ht k.2

theorem bindValue_value (value : ν) (c : Cell ν) :
    (bindValue value c).value = c.value.or (some value) := by
  cases h : c.value <;> simp [bindValue, h]

/-- An upsert of a value binds its key if it was unbound and no other key. -/
theorem valueOf_upsert {t : TSTree ν} (ht : t.Live) (value : ν) (key k : Key) :
    valueOf (upsert blank (bindValue value) key t) k =
      if k = key then (valueOf t k).or (some value) else valueOf t k := by
  rw [valueOf, valueOf, get?_upsert ht]
  by_cases hk : k = key
  · subst hk
    obtain ⟨c, hlast⟩ := List.getLast?_isSome.mpr k.2 |> Option.isSome_iff_exists.mp
    cases hget : t.get? k with
    | none => simp [hlast, bindValue_value, blank]
    | some c => simp [bindValue_value]
  · have hne : (k : List CChar) ≠ key := fun h => hk (Subtype.ext h)
    simp only [hne, hk, if_false]
    cases hget : t.get? k with
    | none =>
      by_cases hpre : (k : List CChar) <+: key
      · simp [hpre, Option.bind_map, Function.comp_def, blank]
      · simp [hpre]
    | some c => simp

theorem valueOf_alter {t : TSTree ν} (key k : Key) :
    valueOf (t.alter (fun c => { c with value := none }) key) k =
      if k = key then none else valueOf t k := by
  rw [valueOf, get?_alter]
  by_cases hk : k = key
  · subst hk
    simp [Option.bind_map]
  · have hne : (k : List CChar) ≠ key := fun h => hk (Subtype.ext h)
    simp [hne, hk, valueOf]

/-! ## One call

What a call does to the tree does not depend on the blocks; only whether it faults does. -/

/-- The tree that an operation leaves. -/
def MapOp.tree (t : TSTree ν) : MapOp ν → TSTree ν
  | .insert key value => upsert blank (bindValue value) key t
  | .delete key => t.alter (fun c => { c with value := none }) key

theorem live_tree {t : TSTree ν} (ht : t.Live) (op : MapOp ν) : (op.tree t).Live := by
  cases op with
  | insert key value => exact ht.upsert _ _
  | delete key => exact ht.of_shape (shape_alter _ _ _).symm

/-- **One operation** updates the bindings as its abstract counterpart does. -/
theorem valueOf_tree {t : TSTree ν} (ht : t.Live) (op : MapOp ν) (k : Key) :
    valueOf (op.tree t) k = op.update k (valueOf t k) := by
  cases op with
  | insert key value => exact valueOf_upsert ht value key k
  | delete key => exact valueOf_alter key k

section Exec

variable [DecidableEq ν] {s s' : Store ν} {call : Call ν}

/-- A value that is deleted is a block that is allocated. -/
def Releases (s : Store ν) (call : Call ν) : Prop :=
  ∀ key value, call.op = .delete key → valueOf s.root key = some value →
    value ∈ s.blocks ∪ call.fresh

/-- **A deletion**, of a key that is bound to a block or of one that is not bound. -/
theorem delete_released {t : TSTree ν} (ht : t.Live) {key : Key} (blocks : Finset ν)
    (h : ∀ value, valueOf t key = some value → value ∈ blocks) :
    ∃ rc blocks', delete blocks t key = .ok (rc, (MapOp.delete key).tree t, blocks') := by
  rw [delete_eq blocks ht key.2]
  cases hget : t.get? key with
  | none =>
    refine ⟨-1, blocks, ?_⟩
    rw [MapOp.tree, alter_eq_self fun c hc => nomatch hget.symm.trans hc]
  | some c =>
    cases hvalue : c.value with
    | none => exact ⟨0, blocks, by simp only [hvalue, free_none]; rfl⟩
    | some value =>
      have hmem : value ∈ blocks := h value (by rw [valueOf, hget]; exact hvalue)
      exact ⟨0, blocks.erase value, by simp only [hvalue, free_some hmem]; rfl⟩

/-- A deletion of a key whose value is no block. -/
theorem delete_fault {t : TSTree ν} (ht : t.Live) {key : Key} {blocks : Finset ν} {value : ν}
    (hvalue : valueOf t key = some value) (hmem : value ∉ blocks) :
    delete blocks t key = .error .useAfterFree := by
  obtain ⟨c, hget, hc⟩ := Option.bind_eq_some_iff.mp hvalue
  rw [delete_eq blocks ht key.2, hget]
  simp only [hc, free_fault hmem]
  rfl

/-- **When a call faults**: it frees a value that is no block, or not any more. -/
theorem exec_iff (ht : s.root.Live) : (∃ s', exec s call = .ok s') ↔ Releases s call := by
  obtain ⟨op, fresh⟩ := call
  unfold exec
  simp only []
  cases op with
  | insert key value =>
    simp only []
    rw [insert_eq value ht key.2]
    exact iff_of_true ⟨_, rfl⟩ fun _ _ hop => nomatch hop
  | delete key =>
    simp only []
    constructor
    · rintro ⟨s', hs'⟩ key' value hop hvalue
      obtain rfl := MapOp.delete.inj hop
      by_contra hmem
      rw [delete_fault ht hvalue hmem] at hs'
      cases hs'
    · intro hreleases
      obtain ⟨rc, blocks', hdelete⟩ :=
        delete_released ht (s.blocks ∪ fresh) fun value => hreleases key value rfl
      rw [hdelete]
      exact ⟨_, rfl⟩

/-- The tree does not depend on the blocks. -/
theorem exec_root (ht : s.root.Live) (h : exec s call = .ok s') :
    s'.root = call.op.tree s.root := by
  have hreleases : Releases s call := (exec_iff ht).mp ⟨s', h⟩
  obtain ⟨op, fresh⟩ := call
  unfold exec at h
  cases op with
  | insert key value =>
    simp only [] at h
    rw [insert_eq value ht key.2] at h
    obtain rfl := Except.ok.inj h
    rfl
  | delete key =>
    obtain ⟨rc, blocks', hdelete⟩ :=
      delete_released ht (s.blocks ∪ fresh) fun value => hreleases key value rfl
    simp only [] at h
    rw [hdelete] at h
    obtain rfl := Except.ok.inj h
    rfl

end Exec

/-! ## Runs

So the trees of a run are computed first, and then it is said in which runs all frees are of blocks that
are allocated. -/

/-- **The trees of a run** are live, and store what the history says. -/
theorem trees_ok (ops : List (MapOp ν)) {t : TSTree ν} (ht : t.Live) :
    (ops.foldl MapOp.tree t).Live ∧
      ∀ k, valueOf (ops.foldl MapOp.tree t) k = ops.foldl (MapOp.update k) (valueOf t k) := by
  induction ops generalizing t with
  | nil => exact ⟨ht, fun _ => rfl⟩
  | cons op ops ih =>
    obtain ⟨hlive, hvalue⟩ := ih (live_tree ht op)
    refine ⟨hlive, fun k => ?_⟩
    rw [List.foldl_cons, List.foldl_cons, hvalue, valueOf_tree ht]

/-- From a NULL root. -/
theorem trees_nil (ops : List (MapOp ν)) :
    (ops.foldl MapOp.tree nil).Live ∧ ∀ k, valueOf (ops.foldl MapOp.tree nil) k = bound k ops := by
  obtain ⟨hlive, hvalue⟩ := trees_ok ops (t := (nil : TSTree ν)) trivial
  refine ⟨hlive, fun k => ?_⟩
  rw [hvalue]
  simp [bound, valueOf]

section Runs

variable [DecidableEq ν] {s s' : Store ν} {calls : List (Call ν)}

theorem run_root (ht : s.root.Live) (hrun : Run.run exec s calls = .ok s') :
    s'.root = (calls.map Call.op).foldl MapOp.tree s.root := by
  induction calls generalizing s with
  | nil =>
    obtain rfl : s = s' := by simpa using hrun
    rfl
  | cons call calls ih =>
    obtain ⟨m, hm, hrest⟩ := (Run.run_cons_ok _).mp hrun
    have hroot := exec_root ht hm
    rw [ih (hroot ▸ live_tree ht call.op) hrest, hroot]
    rfl

/-- **When a run faults**: the calls free a value that is no block. -/
theorem run_iff (ht : s.root.Live) (calls : List (Call ν)) :
    (∃ s', Run.run exec s calls = .ok s') ↔ Run.Along exec Releases s calls := by
  induction calls generalizing s with
  | nil => exact iff_of_true ⟨s, rfl⟩ trivial
  | cons call calls ih =>
    constructor
    · rintro ⟨s', hrun⟩
      obtain ⟨m, hm, hrest⟩ := (Run.run_cons_ok _).mp hrun
      refine ⟨(exec_iff ht).mp ⟨m, hm⟩, fun m' hm' => ?_⟩
      obtain rfl : m = m' := Except.ok.inj (hm.symm.trans hm')
      exact (ih (exec_root ht hm ▸ live_tree ht call.op)).mp ⟨s', hrest⟩
    · rintro ⟨hreleases, halong⟩
      obtain ⟨m, hm⟩ := (exec_iff ht).mpr hreleases
      obtain ⟨s', hrest⟩ := (ih (exec_root ht hm ▸ live_tree ht call.op)).mpr (halong m hm)
      exact ⟨s', (Run.run_cons_ok _).mpr ⟨m, hm, hrest⟩⟩

end Runs

/-! ## The tree is a finite map

The history is read backwards. A search agrees with it after every run that has not faulted, and the
runs that fault are those that free a value twice or one that is no block. -/

/-- An operation does not touch the binding of another key. -/
theorem MapOp.update_of_ne {k : Key} {op : MapOp ν} (h : k ≠ op.key) (old : Option ν) :
    op.update k old = old := by
  cases op with
  | insert key value => exact if_neg h
  | delete key => exact if_neg h

section Map

variable [DecidableEq ν]

/-- A search answers with the first value inserted since the key was last unbound, and NULL for a key
that is not bound; one more call leaves the answer for every other key as it was, and inserting a bound
key leaves every answer as it was. -/
structure Maps (s : Store ν) (ops : List (MapOp ν)) : Prop where
  search : ∀ k : Key, search s.root k = .ok (bound k ops)
  others : ∀ call s', exec s call = .ok s' → ∀ k : Key, k ≠ call.op.key →
    TSTree.search s'.root k = TSTree.search s.root k
  again : ∀ call s' key value, exec s call = .ok s' → call.op = .insert key value →
    TSTree.search s.root key ≠ .ok none →
    ∀ k : Key, TSTree.search s'.root k = TSTree.search s.root k

/-- A tree that its history has made answers like the history. -/
theorem maps_of_root {s : Store ν} {ops : List (MapOp ν)}
    (hroot : s.root = ops.foldl MapOp.tree nil) : Maps s ops := by
  obtain ⟨hlive, hvalue⟩ := trees_nil ops
  rw [← hroot] at hlive hvalue
  -- what a call leaves is what its operation says
  have hafter : ∀ call s', exec s call = .ok s' → ∀ k : Key,
      search s'.root k = .ok (call.op.update k (valueOf s.root k)) := by
    intro call s' hexec k
    have hroot' := exec_root hlive hexec
    rw [search_eq_valueOf (hroot' ▸ live_tree hlive call.op), hroot', valueOf_tree hlive]
  refine ⟨fun k => ?_, fun call s' hexec k hk => ?_, ?_⟩
  · rw [search_eq_valueOf hlive, hvalue]
  · rw [hafter call s' hexec k, search_eq_valueOf hlive, MapOp.update_of_ne hk]
  · intro call s' key value hexec hop hbound k
    rw [hafter call s' hexec k, search_eq_valueOf hlive, hop]
    by_cases hk : k = key
    · subst hk
      rw [search_eq_valueOf hlive] at hbound
      obtain ⟨v, hv⟩ : ∃ v, valueOf s.root k = some v :=
        Option.ne_none_iff_exists'.mp fun h => hbound (by rw [h])
      simp [MapOp.update, hv]
    · have hne : k ≠ (MapOp.insert key value).key := hk
      exact congrArg Except.ok (MapOp.update_of_ne hne _)

/-- **The ternary search tree is a finite map exactly where its values can be freed**: each value that
is deleted is a block that is allocated then. -/
theorem search_run_iff (calls : List (Call ν)) :
    (∃ s, Run.run exec start calls = .ok s ∧ Maps s (calls.map Call.op)) ↔
      Run.Along exec Releases start calls := by
  rw [← run_iff (s := (start : Store ν)) trivial calls]
  constructor
  · rintro ⟨s, hrun, -⟩
    exact ⟨s, hrun⟩
  · rintro ⟨s, hrun⟩
    exact ⟨s, hrun, maps_of_root (run_root (s := (start : Store ν)) trivial hrun)⟩

/-- Two keys with one value, which is freed twice. -/
theorem value_freed_twice :
    ¬ ∃ s, Run.run exec start
        [⟨.insert ⟨cstr "a", by decide⟩ 1, {1}⟩, ⟨.insert ⟨cstr "b", by decide⟩ 1, ∅⟩,
          ⟨.delete ⟨cstr "a", by decide⟩, ∅⟩, ⟨.delete ⟨cstr "b", by decide⟩, ∅⟩] = .ok s ∧
      Maps s [MapOp.insert ⟨cstr "a", by decide⟩ 1, .insert ⟨cstr "b", by decide⟩ 1,
        .delete ⟨cstr "a", by decide⟩, .delete ⟨cstr "b", by decide⟩] := by
  rintro ⟨s, hrun, -⟩
  have hfault : Run.run exec start
      [⟨.insert ⟨cstr "a", by decide⟩ 1, {1}⟩, ⟨.insert ⟨cstr "b", by decide⟩ 1, ∅⟩,
        ⟨.delete ⟨cstr "a", by decide⟩, ∅⟩, ⟨.delete ⟨cstr "b", by decide⟩, ∅⟩] =
      .error .useAfterFree :=
    rfl
  exact nomatch hfault.symm.trans hrun

end Map

end Lcthw.TSTree
