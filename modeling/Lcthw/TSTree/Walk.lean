import Lcthw.TSTree.Defs

/-!
# Lcthw — what the walks of `tstree.c` compute

Every loop of `tstree.c` that follows a key stops where the library's `walk` stops. This module
states each of them through `walk`, `route` and `alter` once, for every tree, dead links
included; later modules cite these equations and never unfold a loop again.

* **`search_eq`**, **`pinpoint_eq`**, **`delete_eq`**: the walks that return a value, a pointer,
  or the tree with one value cleared.
* **`delimWalk_eq`**: the walk that collects '/' nodes, through the relative routes `matched`.
* **`insertBase_eq`**: plain insertion into a live tree is an `upsert`.
-/

namespace Lcthw.TSTree

open Ternary Ternary.Tree

variable {ν : Type}

/-- The result of dereferencing the link a walk ends at. -/
def deref (link : TSTree ν) : Except Fault (Option (Cell ν)) :=
  match link with
  | nil => pure none
  | dead => throw .useAfterFree
  | node _ _ _ _ data => pure (some data)

theorem deref_of_live {t : TSTree ν} (ht : t.Live) {key : List CChar} (hkey : key ≠ []) :
    deref (t.walk key) = .ok (t.get? key) := by
  rw [t.get?_of_ne_nil hkey]
  have hdead := ht.walk_ne_dead key
  cases hw : t.walk key with
  | nil => rfl
  | dead => exact absurd hw hdead
  | node c low high equal d => rfl

/-- `TSTree_search` returns the value of the node that the walk ends at. -/
theorem search_eq (t : TSTree ν) (key : List CChar) :
    search t key = (deref (t.walk key)).map (·.bind Cell.value) := by
  induction t generalizing key with
  | nil => rw [walk_nil]; rfl
  | dead => rw [walk_dead]; rfl
  | node c low high equal d ihl ihh ihe =>
    match key with
    | [] => rfl
    | k :: ks =>
      rcases lt_trichotomy k c with hlt | rfl | hgt
      · rw [walk_lt hlt, ← ihl]
        simp [search, hlt]
      · cases ks with
        | nil => simp [search, deref, Except.map, pure, Except.pure]
        | cons j js =>
          rw [walk_self_cons, ← ihe]
          simp [search]
      · rw [walk_gt hgt, ← ihh]
        simp [search, hgt.not_gt, hgt.ne']

theorem search_of_live {t : TSTree ν} (ht : t.Live) {key : List CChar} (hkey : key ≠ []) :
    search t key = .ok ((t.get? key).bind Cell.value) := by
  rw [search_eq, deref_of_live ht hkey]
  rfl

/-- A walk that has to dereference the link it ends at before it can return `x`. -/
def unlessDead {σ : Type} (link : TSTree ν) (x : σ) : Except Fault σ :=
  match link with
  | dead => throw .useAfterFree
  | nil => pure x
  | node _ _ _ _ _ => pure x

theorem unlessDead_of_ne {σ : Type} {link : TSTree ν} (h : link ≠ dead) (x : σ) :
    unlessDead link x = .ok x := by
  cases link with
  | nil => rfl
  | dead => exact absurd rfl h
  | node c low high equal d => rfl

/-- `TSTree_pinpoint` returns the link itself. -/
theorem pinpoint_eq (t : TSTree ν) {key : List CChar} (hkey : key ≠ []) :
    pinpoint t key = unlessDead (t.walk key) (t.walk key) := by
  induction t generalizing key with
  | nil =>
    obtain ⟨k, ks, rfl⟩ := List.exists_cons_of_ne_nil hkey
    simp [pinpoint, unlessDead]
  | dead =>
    obtain ⟨k, ks, rfl⟩ := List.exists_cons_of_ne_nil hkey
    simp [pinpoint, unlessDead]
  | node c low high equal d ihl ihh ihe =>
    obtain ⟨k, ks, rfl⟩ := List.exists_cons_of_ne_nil hkey
    rcases lt_trichotomy k c with hlt | rfl | hgt
    · rw [walk_lt hlt, ← ihl hkey]
      simp [pinpoint, hlt]
    · cases ks with
      | nil => simp [pinpoint, unlessDead]
      | cons j js =>
        rw [walk_self_cons, ← ihe (by simp)]
        simp [pinpoint]
    · rw [walk_gt hgt, ← ihh hkey]
      simp [pinpoint, hgt.not_gt, hgt.ne']

theorem pinpoint_of_ne_dead {t : TSTree ν} {key : List CChar} (h : t.walk key ≠ dead) :
    pinpoint t key = .ok (t.walk key) := by
  by_cases hkey : key = []
  · subst hkey
    cases t <;> rfl
  · rw [pinpoint_eq t hkey, unlessDead_of_ne h]

/-! ## Deletion

The node stays where it is, and its value is freed before it is cleared. -/

section Delete

variable [DecidableEq ν] {blocks : Finset ν} {value : ν}

@[simp] theorem free_none : free blocks (none : Option ν) = .ok blocks := rfl

theorem free_some (h : value ∈ blocks) : free blocks (some value) = .ok (blocks.erase value) :=
  if_pos h

theorem free_fault (h : value ∉ blocks) : free blocks (some value) = .error .useAfterFree :=
  if_neg h

/-- `TSTree_delete` frees the value at the end of the walk and clears it. -/
theorem delete_eq (blocks : Finset ν) {t : TSTree ν} (ht : t.Live) {key : List CChar}
    (hkey : key ≠ []) :
    delete blocks t key =
      match t.get? key with
      | none => .ok (-1, t, blocks)
      | some c => (free blocks c.value).map fun blocks =>
          (0, t.alter (fun c => { c with value := none }) key, blocks) := by
  induction t generalizing key with
  | nil =>
    obtain ⟨k, ks, rfl⟩ := List.exists_cons_of_ne_nil hkey
    rfl
  -- no link is dead, so the walk ends at a node or at NULL
  | dead => exact ht.elim
  | node c low high equal d ihl ihh ihe =>
    obtain ⟨hl, hh, he⟩ := ht
    obtain ⟨k, ks, rfl⟩ := List.exists_cons_of_ne_nil hkey
    rcases lt_trichotomy k c with hlt | rfl | hgt
    · rw [get?_lt hlt, alter_lt hlt, delete, if_pos hlt, ihl hl hkey]
      cases low.get? (k :: ks) with
      | none => rfl
      | some c =>
        simp only []
        cases free blocks c.value <;> rfl
    · cases ks with
      | nil =>
        rw [get?_self, alter_self, delete, if_neg (lt_irrefl k), if_pos rfl, if_pos rfl]
        simp only []
        cases free blocks d.value <;> rfl
      | cons j js =>
        rw [get?_self_cons, alter_self_cons, delete, if_neg (lt_irrefl k), if_pos rfl,
          if_neg (by simp), ihe he (by simp)]
        cases equal.get? (j :: js) with
        | none => rfl
        | some c =>
        simp only []
        cases free blocks c.value <;> rfl
    · rw [get?_gt hgt, alter_gt hgt, delete, if_neg hgt.not_gt, if_neg hgt.ne', ihh hh hkey]
      cases high.get? (k :: ks) with
      | none => rfl
      | some c =>
        simp only []
        cases free blocks c.value <;> rfl

end Delete

/-! ## Plain insertion

With calloc a new node has NULL links and no value, so an insertion into a live tree grows a path and
stores the value at its end. -/

/-- A node fresh from calloc. -/
def blank (_ : CChar) : Cell ν := ⟨none, none⟩

/-- Store a value where there is none; "duplicate insert into tst" otherwise. -/
def bindValue (value : ν) (c : Cell ν) : Cell ν :=
  if c.value = none then { c with value := some value } else c

/-- **Plain insertion is an upsert.** -/
theorem insertBase_eq (value : ν) (key : List CChar) {t : TSTree ν} (ht : t.Live)
    (hkey : key ≠ []) :
    insertBase key value t = .ok (upsert blank (bindValue value) key t) := by
  induction key, t using grow_induction with
  | empty t => exact absurd rfl hkey
  | nil k ks ih =>
    cases ks with
    -- a new node: with the value at the end of the key, and without one before
    | nil => simp [insertBase, insertLevel, bindValue, blank, pure, Except.pure]
    | cons j js =>
      rw [upsert_nil_cons, insertBase, insertLevel, if_pos (by simp), ih ht (by simp)]
      rfl
  | dead k ks => exact ht.elim
  | lt k ks c low high equal d hlt ih =>
    have h := ih ht.1 hkey
    rw [insertBase] at h
    rw [upsert_lt hlt, insertBase, insertLevel, if_pos hlt, h]
    rfl
  | self c ks low high equal d ih =>
    cases ks with
    | nil =>
      by_cases hv : d.value = none <;>
        simp [insertBase, insertLevel, bindValue, hv, pure, Except.pure]
    | cons j js =>
      rw [upsert_self_cons, insertBase, insertLevel, if_neg (lt_irrefl c), if_pos rfl,
        if_pos (by simp), ih ht.2.2 (by simp)]
      rfl
  | gt k ks c low high equal d hgt ih =>
    have h := ih ht.2.1 hkey
    rw [insertBase] at h
    rw [upsert_gt hgt, insertBase, insertLevel, if_neg hgt.not_gt, if_neg hgt.ne', h]
    rfl

/-- The whole call. Its key is never empty here. -/
theorem insert_eq (value : ν) {key : List CChar} {t : TSTree ν} (ht : t.Live) (hkey : key ≠ []) :
    insert t key value = .ok (upsert blank (bindValue value) key t) := by
  obtain ⟨k, ks, rfl⟩ := List.exists_cons_of_ne_nil hkey
  exact insertBase_eq value (k :: ks) ht hkey

/-! ## The walk that collects '/' nodes

The list is built along the way, so it is the list at the start with the '/' nodes behind it. -/

/-- The routes, from the root of the walk, of the '/' nodes at which a character of the key
matched. -/
def matched : TSTree ν → List CChar → List Route
  | nil, _ => []
  | dead, _ => []
  | node _ _ _ _ _, [] => []
  | node c low high equal _, k :: ks =>
      if k < c then (matched low (k :: ks)).map (.low :: ·)
      else if k = c then
        (if c = delim then [[]] else []) ++ (matched equal ks).map (.equal :: ·)
      else (matched high (k :: ks)).map (.high :: ·)

@[simp] theorem matched_empty (t : TSTree ν) : matched t [] = [] := by
  cases t <;> rfl

/-- The loop, from any node on and with any list before it. -/
theorem delimWalk_eq (t : TSTree ν) (here : Route) (list : List Route) {key : List CChar}
    (hkey : key ≠ []) :
    delimWalk t here list key = unlessDead (t.walk key)
      (t.walk key, here ++ t.route key, list ++ (matched t key).map (here ++ ·)) := by
  induction t generalizing here list key with
  | nil =>
    obtain ⟨k, ks, rfl⟩ := List.exists_cons_of_ne_nil hkey
    simp [delimWalk, matched, route, unlessDead]
  | dead =>
    obtain ⟨k, ks, rfl⟩ := List.exists_cons_of_ne_nil hkey
    simp [delimWalk, unlessDead]
  | node c low high equal d ihl ihh ihe =>
    obtain ⟨k, ks, rfl⟩ := List.exists_cons_of_ne_nil hkey
    rcases lt_trichotomy k c with hlt | rfl | hgt
    · rw [delimWalk, if_pos hlt, ihl _ _ hkey, walk_lt hlt, route_lt hlt, matched, if_pos hlt]
      simp [Function.comp_def]
    · rw [delimWalk, if_neg (lt_irrefl k), if_pos rfl, matched, if_neg (lt_irrefl k), if_pos rfl]
      cases ks with
      | nil =>
        -- the node joins the list when it is a '/' node
        by_cases hk : k = delim <;> simp [hk, unlessDead]
      | cons j js =>
        simp only [ne_eq, reduceCtorEq, not_false_eq_true, if_true]
        rw [ihe _ _ (by simp), walk_self_cons, route_self_cons]
        by_cases hk : k = delim <;> simp [hk, Function.comp_def]
    · rw [delimWalk, if_neg hgt.not_gt, if_neg hgt.ne', ihh _ _ hkey, walk_gt hgt, route_gt hgt,
        matched, if_neg hgt.not_gt, if_neg hgt.ne']
      simp [Function.comp_def]

end Lcthw.TSTree
