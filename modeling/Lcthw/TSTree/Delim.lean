import Lcthw.TSTree.Walk

/-!
# Lcthw — delimiter insertion, on zero-filled blocks

`TSTree_delim_insert` gives every missing prefix of its key a node and binds the key, like plain
insertion; on top of it, it increments the `n` of some '/' nodes. Which ones depends on the '/'
nodes its walk has *passed*, and a walk passes nodes on the `low` and `high` chains that no
character of the key matches.

* **`delimInsertBase_eq`**: the tree is an `upsert`; the incremented nodes are the last one of
  `passed` and all of `added`.
* **`delimInsert_eq`**: the whole call, for every tree.
* **`delimInsert_bound`**: for a key that is bound, whatever malloc would hand out.
-/

namespace Lcthw.TSTree

open Ternary Ternary.Tree

variable {ν : Type}

/-- A node of a zero-filled block: a '/' node gets a `Stats`. -/
def freshCell (c : CChar) : Cell ν :=
  ⟨if c = delim then some Stats.create else none, none⟩

/-- Store a value and a fresh `Stats` where there is no value. -/
def bindFresh (value : ν) (c : Cell ν) : Cell ν :=
  if c.value = none then ⟨some Stats.create, some value⟩ else c

/-- The '/' nodes that the walk of an insertion passes, matched or not. -/
def passed : TSTree ν → List CChar → List Route
  | nil, _ => []
  | dead, _ => []
  | node _ _ _ _ _, [] => []
  | node c low high equal _, k :: ks =>
      (if c = delim then [[]] else []) ++
        if k < c then (passed low (k :: ks)).map (.low :: ·)
        else if k = c then (passed equal ks).map (.equal :: ·)
        else (passed high (k :: ks)).map (.high :: ·)

/-- The '/' nodes that an insertion creates. -/
def newDirs : List CChar → List Route
  | [] => []
  | k :: ks => (if k = delim then [[]] else []) ++ (newDirs ks).map (.equal :: ·)

/-- The '/' nodes that an insertion into a tree creates. -/
def added : TSTree ν → List CChar → List Route
  | nil, key => newDirs key
  | dead, _ => []
  | node _ _ _ _ _, [] => []
  | node c low high equal _, k :: ks =>
      if k < c then (added low (k :: ks)).map (.low :: ·)
      else if k = c then (added equal ks).map (.equal :: ·)
      else (added high (k :: ks)).map (.high :: ·)

@[simp] theorem passed_empty (t : TSTree ν) : passed t [] = [] := by
  cases t <;> rfl

@[simp] theorem added_empty (t : TSTree ν) : added t [] = [] := by
  cases t <;> rfl

section Node

variable {c k : CChar} {low high equal : TSTree ν} {d : Cell ν}

theorem passed_lt (h : k < c) (ks : List CChar) :
    passed (node c low high equal d) (k :: ks) =
      (if c = delim then [[]] else []) ++ (passed low (k :: ks)).map (.low :: ·) := by
  simp [passed, h]

theorem passed_gt (h : c < k) (ks : List CChar) :
    passed (node c low high equal d) (k :: ks) =
      (if c = delim then [[]] else []) ++ (passed high (k :: ks)).map (.high :: ·) := by
  simp [passed, h.not_gt, h.ne']

theorem passed_self (ks : List CChar) :
    passed (node c low high equal d) (c :: ks) =
      (if c = delim then [[]] else []) ++ (passed equal ks).map (.equal :: ·) := by
  simp [passed]

theorem added_lt (h : k < c) (ks : List CChar) :
    added (node c low high equal d) (k :: ks) = (added low (k :: ks)).map (.low :: ·) := by
  simp [added, h]

theorem added_gt (h : c < k) (ks : List CChar) :
    added (node c low high equal d) (k :: ks) = (added high (k :: ks)).map (.high :: ·) := by
  simp [added, h.not_gt, h.ne']

theorem added_self (ks : List CChar) :
    added (node c low high equal d) (c :: ks) = (added equal ks).map (.equal :: ·) := by
  simp [added]

end Node

/-- The value a key is bound to. -/
def valueAt (t : TSTree ν) (key : List CChar) : Option ν :=
  (t.get? key).bind Cell.value

/-- The state of an insertion after it has walked the rest of its key. -/
def InsertState.after (s : InsertState) (t : TSTree ν) (here : Route) (key : List CChar) :
    InsertState :=
  { list := s.list ++ (passed t key).map (here ++ ·) ++ (added t key).map (here ++ ·)
    counted := s.counted ++
      if (valueAt t key).isSome then []
      else (s.list ++ (passed t key).map (here ++ ·)).getLast?.toList ++
        (added t key).map (here ++ ·)
    blocks := s.blocks + (t.missing key).length }

section After

variable {c k : CChar} {low high equal : TSTree ν} {d : Cell ν} (here : Route) (s : InsertState)

theorem InsertState.after_lt (h : k < c) (ks : List CChar) :
    s.after (node c low high equal d) here (k :: ks) =
      (if c = delim then s.push here else s).after low (here ++ [.low]) (k :: ks) := by
  simp only [after, passed_lt h, added_lt h, valueAt, get?_lt h, missing_lt h]
  by_cases hc : c = delim <;> simp [hc, push, Function.comp_def]

theorem InsertState.after_gt (h : c < k) (ks : List CChar) :
    s.after (node c low high equal d) here (k :: ks) =
      (if c = delim then s.push here else s).after high (here ++ [.high]) (k :: ks) := by
  simp only [after, passed_gt h, added_gt h, valueAt, get?_gt h, missing_gt h]
  by_cases hc : c = delim <;> simp [hc, push, Function.comp_def]

theorem InsertState.after_self (j : CChar) (js : List CChar) :
    s.after (node c low high equal d) here (c :: j :: js) =
      (if c = delim then s.push here else s).after equal (here ++ [.equal]) (j :: js) := by
  simp only [after, passed_self, added_self, valueAt, get?_self_cons, missing_self]
  by_cases hc : c = delim <;> simp [hc, push, Function.comp_def]

theorem InsertState.after_last :
    s.after (node c low high equal d) here [c] =
      if d.value = none then (if c = delim then s.push here else s).countLast
      else if c = delim then s.push here else s := by
  simp only [after, passed_self, added_self, valueAt, get?_self, missing_self]
  by_cases hc : c = delim <;> cases hv : d.value <;> simp [hc, hv, push, countLast]

/-- A new node: malloc is asked for a block, and a '/' node is counted and joins the list. -/
theorem InsertState.after_nil (ks : List CChar) :
    s.after (nil : TSTree ν) here (k :: ks) =
      (if k = delim then { s with blocks := s.blocks + 1 }.countLast.push here
        else { s with blocks := s.blocks + 1 }).after (nil : TSTree ν) (here ++ [Dir.equal])
          ks := by
  by_cases hk : k = delim <;>
    simp [after, passed, added, newDirs, valueAt, missing_nil_cons, hk, push, countLast,
      Function.comp_def, Nat.add_comm, Nat.add_assoc]

end After

/-- **Delimiter insertion is an upsert**, with the '/' nodes on its way counted. -/
theorem delimInsertBase_eq (value : ν) (key : List CChar) (t : TSTree ν) (hkey : key ≠ [])
    (here : Route) (s : InsertState) :
    delimInsertBase zeroFilled key value t here s =
      unlessDead (t.walk key) (upsert freshCell (bindFresh value) key t, s.after t here key) := by
  induction key, t using grow_induction generalizing here s with
  | empty t => exact absurd rfl hkey
  | nil k ks ih =>
    rw [InsertState.after_nil, delimInsertBase, delimInsertLevel, walk_nil]
    cases ks with
    | nil =>
      by_cases hk : k = delim <;>
        simp [hk, zeroFilled, Block.zero, bindFresh, freshCell, InsertState.after, InsertState.push,
          InsertState.countLast, valueAt, unlessDead]
    | cons j js =>
      by_cases hk : k = delim <;>
        simp [hk, zeroFilled, Block.zero, freshCell, ih, unlessDead]
  | dead k ks =>
    rw [walk_dead]
    rfl
  | lt k ks c low high equal d hlt ih =>
    have h := fun s => ih hkey (here ++ [.low]) s
    simp only [delimInsertBase] at h
    rw [InsertState.after_lt here s hlt, walk_lt hlt, upsert_lt hlt, delimInsertBase,
      delimInsertLevel, if_neg hlt.not_gt, if_neg hlt.ne, h]
    cases low.walk (k :: ks) <;> rfl
  | self c ks low high equal d ih =>
    rw [delimInsertBase, delimInsertLevel, if_neg (lt_irrefl c), if_pos rfl]
    cases ks with
    | nil =>
      rw [InsertState.after_last, walk_self, upsert_self, bindFresh, if_neg (by simp)]
      by_cases hv : d.value = none
      · rw [if_pos hv, if_pos hv, if_pos hv]
        rfl
      · rw [if_neg hv, if_neg hv, if_neg hv]
        rfl
    | cons j js =>
      rw [InsertState.after_self, walk_self_cons, upsert_self_cons, if_pos (by simp), ih (by simp)]
      cases equal.walk (j :: js) <;> rfl
  | gt k ks c low high equal d hgt ih =>
    have h := fun s => ih hkey (here ++ [.high]) s
    simp only [delimInsertBase] at h
    rw [InsertState.after_gt here s hgt, walk_gt hgt, upsert_gt hgt, delimInsertBase,
      delimInsertLevel, if_pos hgt, h]
    cases high.walk (k :: ks) <;> rfl

/-- The key an insertion walks: with `len = 0` it still reads the NUL that ends the key. -/
def storedKey (key : List CChar) : List CChar :=
  if key = [] then [0] else key

theorem storedKey_ne_nil (key : List CChar) : storedKey key ≠ [] := by
  rw [storedKey]
  split
  · simp
  · next h => exact h

theorem storedKey_of_ne_nil {key : List CChar} (h : key ≠ []) : storedKey key = key :=
  if_neg h

/-- The nodes whose `n` an insertion increments. -/
def counted (t : TSTree ν) (key : List CChar) : List Route :=
  if (valueAt t key).isSome then [] else (passed t key).getLast?.toList ++ added t key

/-- **The whole call.** The counts that were noted are carried out at its end. -/
theorem delimInsert_eq (value : ν) (blocks : ℕ) (t : TSTree ν) (key : List CChar) :
    delimInsert zeroFilled blocks t key value =
      (unlessDead (t.walk (storedKey key)) ()).bind fun _ =>
        ((counted t (storedKey key)).foldlM (addCount 1)
          (upsert freshCell (bindFresh value) (storedKey key) t)).map fun root =>
            (root, blocks + (t.missing (storedKey key)).length) := by
  have hafter : (⟨[], [], blocks⟩ : InsertState).after t [] (storedKey key) =
      { list := passed t (storedKey key) ++ added t (storedKey key)
        counted := counted t (storedKey key)
        blocks := blocks + (t.missing (storedKey key)).length } := by
    simp [InsertState.after, counted]
  rw [delimInsert]
  change (delimInsertBase zeroFilled (storedKey key) value t [] ⟨[], [], blocks⟩ >>= _) = _
  rw [delimInsertBase_eq value _ t (storedKey_ne_nil key), hafter]
  cases t.walk (storedKey key) <;> rfl

/-! ## A key that is bound

Here nothing is allocated, so it does not matter what malloc would hand out. -/

/-- The walk to a bound key collects '/' nodes, and does nothing else. -/
theorem delimInsertBase_bound (malloc : Malloc ν) (value : ν) {key : List CChar} {t : TSTree ν}
    (hbound : (valueAt t key).isSome) (here : Route) (s : InsertState) :
    ∃ list, delimInsertBase malloc key value t here s = .ok (t, { s with list }) := by
  induction key, t using grow_induction generalizing here s with
  | empty t => exact ⟨s.list, rfl⟩
  | nil k ks ih => cases hbound
  | dead k ks => cases hbound
  | lt k ks c low high equal d hlt ih =>
    have hlow : (valueAt low (k :: ks)).isSome := by
      rwa [valueAt, get?_lt hlt] at hbound
    obtain ⟨list, h⟩ := ih hlow (here ++ [.low]) (if c = delim then s.push here else s)
    simp only [delimInsertBase] at h
    refine ⟨list, ?_⟩
    rw [delimInsertBase, delimInsertLevel, if_neg hlt.not_gt, if_neg hlt.ne, h]
    by_cases hc : c = delim
    · rw [if_pos hc]
      rfl
    · rw [if_neg hc]
      rfl
  | self c ks low high equal d ih =>
    cases ks with
    | nil =>
      have hvalue : d.value ≠ none := by
        rw [valueAt, get?_self] at hbound
        exact Option.isSome_iff_ne_none.mp hbound
      refine ⟨(if c = delim then s.push here else s).list, ?_⟩
      rw [delimInsertBase, delimInsertLevel, if_neg (lt_irrefl c), if_pos rfl, if_neg (by simp),
        if_neg hvalue]
      -- the node is bound, so that nothing is counted
      by_cases hc : c = delim
      · rw [if_pos hc]
        rfl
      · rw [if_neg hc]
        rfl
    | cons j js =>
      have hequal : (valueAt equal (j :: js)).isSome := by
        rwa [valueAt, get?_self_cons] at hbound
      obtain ⟨list, h⟩ := ih hequal (here ++ [.equal]) (if c = delim then s.push here else s)
      refine ⟨list, ?_⟩
      rw [delimInsertBase, delimInsertLevel, if_neg (lt_irrefl c), if_pos rfl, if_pos (by simp), h]
      by_cases hc : c = delim
      · rw [if_pos hc]
        rfl
      · rw [if_neg hc]
        rfl
  | gt k ks c low high equal d hgt ih =>
    have hhigh : (valueAt high (k :: ks)).isSome := by
      rwa [valueAt, get?_gt hgt] at hbound
    obtain ⟨list, h⟩ := ih hhigh (here ++ [.high]) (if c = delim then s.push here else s)
    simp only [delimInsertBase] at h
    refine ⟨list, ?_⟩
    rw [delimInsertBase, delimInsertLevel, if_pos hgt, h]
    by_cases hc : c = delim
    · rw [if_pos hc]
      rfl
    · rw [if_neg hc]
      rfl

/-- **Inserting a bound key leaves the tree as it is**, and asks malloc for nothing. -/
theorem delimInsert_bound (malloc : Malloc ν) (blocks : ℕ) {t : TSTree ν} {key : List CChar}
    (hkey : key ≠ []) (hbound : (valueAt t key).isSome) (value : ν) :
    delimInsert malloc blocks t key value = .ok (t, blocks) := by
  obtain ⟨list, h⟩ := delimInsertBase_bound malloc value hbound [] ⟨[], [], blocks⟩
  unfold delimInsert
  rw [if_neg hkey]
  show (delimInsertBase malloc key value t [] ⟨[], [], blocks⟩ >>= _) = _
  rw [h]
  rfl

/-- The tree that one insertion into the empty one makes. -/
theorem delimInsert_bound_ab :
    ∃ t : TSTree ℕ, delimInsert zeroFilled 0 nil (cstr "a/b") 7 = .ok (t, 3) ∧
      delimInsert zeroFilled 3 t (cstr "a/b") 8 = .ok (t, 3) := by
  refine ⟨_, rfl, delimInsert_bound zeroFilled 3 (by decide) ?_ 8⟩
  decide

end Lcthw.TSTree
