import Lcthw.BSTree.Map

/-!
# Lcthw — keys that are set again (`bstree.c`)

`set` never looks for the key it is given: an equal key gets a node of its own, to the left of the ones
that are there. The keys of a tree then do not fall along it, and that is all an operation needs.

* **`Rising`**: the invariant. It holds in every state of a run of any calls (`exists_rising`).
* **`Overwrites`**: `set` is seen by a following `get`, and undone by a following `delete`.
* **`overwrites_iff_absent`**: that is so for a key that is not there, and not for one that is.
-/

namespace Lcthw

open BinaryTree LinkedTree
open Bst (inorder)

namespace SearchTree

variable {K V H : Type}

/-- Keys and data in order, equal keys side by side. -/
def Nondecreasing (cmp : Comparator K) (es : List (K × Option V)) : Prop :=
  es.Pairwise fun e f => cmp.compare e.1 f.1 ≤ 0

/-- The map is made of the nodes of `t`, and their keys do not fall. -/
structure Rising (map : SearchTree K V H) (compare : K → K → ℤ) (order : Comparator K)
    (P : ℕ × Payload K V H → Prop) (t : Shape (Payload K V H)) : Prop where
  holds : Holds map compare t
  nondecreasing : Nondecreasing order ((inorder t).map entry)
  all : ∀ p ∈ inorder t, P p

/-- No node has the key. -/
def Absent (order : Comparator K) (key : K) (t : Shape (Payload K V H)) : Prop :=
  ∀ p ∈ inorder t, order.compare p.2.key key ≠ 0

/-- No node with the key has NULL for its data. -/
def Supplied (order : Comparator K) (key : K) (t : Shape (Payload K V H)) : Prop :=
  ∀ p ∈ inorder t, order.compare p.2.key key = 0 → p.2.data ≠ none

/-- After `set` the key has the data, and after a `delete` it has none. -/
def Overwrites (calls : Calls K V H) (map : SearchTree K V H) (key : K) (data : Option V) : Prop :=
  ∃ map₁ map₂ rc old, calls.set map key data = .ok (map₁, rc) ∧ calls.get map₁ key = .ok data ∧
    calls.delete map₁ key = .ok (map₂, old) ∧ calls.get map₂ key = .ok none

variable {cmp order : Comparator K} {compare : K → K → ℤ} {es l₁ l₂ : List (K × Option V)} {key : K}
  {data : Option V} {height : H} {P : ℕ × Payload K V H → Prop} {t : Shape (Payload K V H)}
  {fix : Shape (Payload K V H) → Shape (Payload K V H)} {calls : Calls K V H}
  {map : SearchTree K V H} {q : ℕ × Payload K V H}

/-! ## Lists with equal keys

When a key is set again there are two entries with it. The list is then in order in the weaker sense
that no key is followed by a smaller one, and an insertion and an erasure keep that. -/

/-- Where keys do not fall, neither does their comparison with a key. -/
theorem sifted_of_nondecreasing (h : Nondecreasing cmp ((inorder t).map entry)) (key : K) :
    Bst.Sifted (against cmp.compare key) t := by
  apply (List.pairwise_map.mp h).imp
  intro p q hpq
  have hle : cmp.compare p.2.key q.2.key ≤ 0 := hpq
  constructor
  · intro hp
    have hkey : cmp.compare key p.2.key ≤ 0 := cmp.le_iff_ge.mpr hp
    exact cmp.le_iff_ge.mp (cmp.le_trans _ _ _ hkey hle)
  · intro hp
    have hkey : cmp.compare key p.2.key < 0 := (cmp.lt_iff_gt _ _).mpr hp
    exact (cmp.lt_iff_gt _ _).mp (cmp.lt_of_lt_of_le hkey hle)

/-- A key put behind the smaller ones. -/
theorem Nondecreasing.insert (h : Nondecreasing cmp (l₁ ++ l₂))
    (h₁ : ∀ e ∈ l₁, cmp.compare e.1 key < 0) (h₂ : ∀ e ∈ l₂, 0 ≤ cmp.compare e.1 key) :
    Nondecreasing cmp (l₁ ++ (key, data) :: l₂) := by
  obtain ⟨hl₁, hl₂, hboth⟩ := List.pairwise_append.mp h
  apply List.pairwise_append.mpr
  refine ⟨hl₁, List.pairwise_cons.mpr ⟨?_, hl₂⟩, ?_⟩
  · intro f hf
    exact cmp.le_iff_ge.mpr (h₂ f hf)
  · intro e he f hf
    rcases List.mem_cons.mp hf with rfl | hf
    · exact (h₁ e he).le
    · exact hboth e he f hf

/-- An insertion adds its entry, and keeps the order. -/
theorem insert_entries (hfix : ∀ t, (inorder (fix t)).map entry = (inorder t).map entry)
    (ht : Nondecreasing cmp ((inorder t).map entry)) (a : ℕ) (key : K) (data : Option V) (height : H) :
    let t' := Bst.insert (against cmp.compare key) fix (a, ⟨key, data, height⟩) t
    Nondecreasing cmp ((inorder t').map entry) ∧
      ((inorder t').map entry).Perm ((key, data) :: (inorder t).map entry) := by
  obtain ⟨l₁, l₂, hlist, hins, h₁, h₂⟩ := Bst.inorder_insert hfix
    (a, (⟨key, data, height⟩ : Payload K V H)) (sifted_of_nondecreasing ht key)
  rw [hlist, List.map_append] at ht
  show Nondecreasing cmp ((inorder (Bst.insert _ _ _ t)).map entry) ∧
    ((inorder (Bst.insert _ _ _ t)).map entry).Perm _
  rw [hins, hlist, List.map_append]
  constructor
  · exact ht.insert (List.forall_mem_map.mpr h₁) (List.forall_mem_map.mpr h₂)
  · exact List.perm_middle

/-- An erasure takes out the entry that is found, and keeps the order. -/
theorem erase_entries (ht : Nondecreasing cmp ((inorder t).map entry))
    (hfind : Bst.find (against cmp.compare key) t = some q) :
    let t' := Bst.erase (against cmp.compare key) takeOver t
    Nondecreasing cmp ((inorder t').map entry) ∧
      ((inorder t).map entry).Perm (entry q :: (inorder t').map entry) := by
  have htake : ∀ p m : ℕ × Payload K V H, entry (takeOver p m) = entry m := fun _ _ => rfl
  obtain ⟨l₁, l₂, hlist, herase⟩ := Bst.inorder_erase htake hfind
  rw [hlist, List.map_append, List.map_cons] at ht
  show Nondecreasing cmp ((inorder (Bst.erase _ _ t)).map entry) ∧ _
  rw [herase, hlist, List.map_append, List.map_cons]
  constructor
  · exact ht.sublist ((List.sublist_cons_self _ _).append_left _)
  · exact List.perm_middle

/-! ## Calls

The weaker order is kept by every call, whatever was set before. So every state that a run reaches is
one of those the results are about. -/

theorem Rising.set (hi : Implements calls compare order height fix P)
    (hm : Rising map compare order P t) (key : K) (data : Option V) :
    ∃ map' t', calls.set map key data = .ok (map', 0) ∧ Rising map' compare order P t' ∧
      ((inorder t').map entry).Perm ((key, data) :: (inorder t).map entry) := by
  obtain ⟨map', hset, hholds⟩ := hi.set_eq _ _ key data hm.holds hm.all
  obtain ⟨hrising, hperm⟩ :=
    insert_entries hi.entries_fix hm.nondecreasing map.heap.brk key data height
  exact ⟨map', _, hset, ⟨hholds, hrising, Bst.forall_insert hi.keeps_fix (hi.new _ _ _) hm.all⟩, hperm⟩

theorem Rising.delete_found (hi : Implements calls compare order height fix P)
    (hm : Rising map compare order P t) (hfind : Bst.find (against order.compare key) t = some q) :
    ∃ map' t', calls.delete map key = .ok (map', q.2.data) ∧ Rising map' compare order P t' ∧
      ((inorder t).map entry).Perm (entry q :: (inorder t').map entry) := by
  obtain ⟨map', hdel, hholds⟩ := hi.delete_eq _ _ key hm.holds
  rw [hfind] at hdel
  obtain ⟨hrising, hperm⟩ := erase_entries hm.nondecreasing hfind
  exact ⟨map', _, hdel, ⟨hholds, hrising, Bst.forall_erase hi.keeps_takeOver hm.all⟩, hperm⟩

theorem Rising.delete_none (hi : Implements calls compare order height fix P)
    (hm : Rising map compare order P t) (hfind : Bst.find (against order.compare key) t = none) :
    ∃ map', calls.delete map key = .ok (map', none) ∧ Rising map' compare order P t := by
  obtain ⟨map', hdel, hholds⟩ := hi.delete_eq _ _ key hm.holds
  rw [hfind] at hdel
  rw [Bst.erase_of_find_none hfind] at hholds
  exact ⟨map', hdel, hholds, hm.nondecreasing, hm.all⟩

theorem Rising.find_eq_none_iff (hm : Rising map compare order P t) (key : K) :
    Bst.find (against order.compare key) t = none ↔ Absent order key t := by
  constructor
  · exact Bst.find_eq_none (sifted_of_nondecreasing hm.nondecreasing key)
  · intro habsent
    by_contra hne
    obtain ⟨q, hq⟩ := Option.ne_none_iff_exists'.mp hne
    obtain ⟨hmem, hkey⟩ := Bst.find_eq_some hq
    exact habsent q hmem hkey

/-- **Any calls can be made**, and the keys of the tree never fall. -/
theorem exists_rising (hi : Implements calls compare order height fix P) (ops : List (Op K V)) :
    ∃ map t, Run.run (exec calls) (create compare) ops = .ok map ∧ Rising map compare order P t := by
  -- the induction is over the calls, from any map that rises
  suffices h : ∀ map t, Rising map compare order P t →
      ∃ map' t', Run.run (exec calls) map ops = .ok map' ∧ Rising map' compare order P t' by
    exact h _ nil ⟨holds_create compare, List.Pairwise.nil, fun p hp => absurd hp List.not_mem_nil⟩
  induction ops with
  | nil => exact fun map t hm => ⟨map, t, rfl, hm⟩
  | cons op ops ih =>
    intro map t hm
    suffices hstep : ∃ map' t', exec calls map op = .ok map' ∧ Rising map' compare order P t' by
      obtain ⟨map₁, t₁, hexec, hm₁⟩ := hstep
      obtain ⟨map₂, t₂, hrun, hm₂⟩ := ih map₁ t₁ hm₁
      exact ⟨map₂, t₂, (Run.run_cons_ok _).mpr ⟨map₁, hexec, hrun⟩, hm₂⟩
    cases op with
    | set key data =>
      obtain ⟨map', t', hset, hm', -⟩ := hm.set hi key data
      exact ⟨map', t', by rw [exec, hset]; rfl, hm'⟩
    | get key => exact ⟨map, t, by rw [exec, hi.get_eq _ _ key hm.holds]; rfl, hm⟩
    | delete key =>
      cases hfind : Bst.find (against order.compare key) t with
      | none =>
        obtain ⟨map', hdel, hm'⟩ := hm.delete_none hi hfind
        exact ⟨map', t, by rw [exec, hdel]; rfl, hm'⟩
      | some q =>
        obtain ⟨map', t', hdel, hm', -⟩ := hm.delete_found hi hfind
        exact ⟨map', t', by rw [exec, hdel]; rfl, hm'⟩

/-! ## Setting a key again

The new node of a key that is there goes to the left of the old one, and a search meets the old one
first or the new one, depending on the shape of the tree. Counting the nodes with a key tells what a
deletion leaves. -/

/-- How many nodes have the key, and data that pass a test. -/
def copies (cmp : Comparator K) (key : K) (test : Option V → Bool) (es : List (K × Option V)) : ℕ :=
  es.countP fun e => decide (cmp.compare e.1 key = 0) && test e.2

variable {test : Option V → Bool} {e : K × Option V}

theorem copies_cons_of_eq (h : cmp.compare e.1 key = 0) :
    copies cmp key test (e :: es) = copies cmp key test es + if test e.2 then 1 else 0 := by
  unfold copies
  rw [List.countP_cons, decide_eq_true h, Bool.true_and]

theorem copies_eq_zero_iff : copies cmp key test ((inorder t).map entry) = 0 ↔
    ∀ p ∈ inorder t, cmp.compare p.2.key key = 0 → test p.2.data = false := by
  unfold copies
  rw [List.countP_map, List.countP_eq_zero]
  apply forall₂_congr
  intro p hp
  show ¬ ((decide (cmp.compare p.2.key key = 0) && test p.2.data) = true) ↔ _
  rw [Bool.and_eq_true, decide_eq_true_eq, not_and, Bool.not_eq_true]

theorem absent_iff : Absent cmp key t ↔ copies cmp key (fun _ => true) ((inorder t).map entry) = 0 := by
  rw [copies_eq_zero_iff]
  apply forall₂_congr
  intro p hp
  simp

theorem supplied_iff : Supplied cmp key t ↔ copies cmp key Option.isNone ((inorder t).map entry) = 0 := by
  rw [copies_eq_zero_iff]
  apply forall₂_congr
  intro p hp
  rw [Option.isNone_eq_false_iff, Option.isSome_iff_ne_none]

/-- One node with the key comes, and one goes. -/
theorem copies_exchange {data : Option V} {q : K × Option V} {es es' : List (K × Option V)}
    (hperm : ((key, data) :: es).Perm (q :: es')) (hkey : cmp.compare q.1 key = 0)
    (test : Option V → Bool) : copies cmp key test es + (if test data then 1 else 0) =
      copies cmp key test es' + if test q.2 then 1 else 0 := by
  have hnew : copies cmp key test ((key, data) :: es) =
      copies cmp key test es + if test data then 1 else 0 :=
    copies_cons_of_eq (cmp.self key)
  have hold : copies cmp key test (q :: es') = copies cmp key test es' + if test q.2 then 1 else 0 :=
    copies_cons_of_eq hkey
  exact hnew.symm.trans ((hperm.countP_eq _).trans hold)

/-- A key that was just set is found, on a node of its own key. -/
theorem Rising.find_of_set {t₁ : Shape (Payload K V H)} {map₁ : SearchTree K V H}
    (hm₁ : Rising map₁ compare order P t₁)
    (hperm₁ : ((inorder t₁).map entry).Perm ((key, data) :: (inorder t).map entry)) :
    ∃ q, Bst.find (against order.compare key) t₁ = some q := by
  apply Option.ne_none_iff_exists'.mp
  intro hnone
  have habsent := (hm₁.find_eq_none_iff key).mp hnone
  obtain ⟨p, hp, heq⟩ := List.mem_map.mp (hperm₁.mem_iff.mpr List.mem_cons_self)
  apply habsent p hp
  rw [show p.2.key = key from congrArg Prod.fst heq]
  exact order.self key

/-- **`set` overwrites exactly the keys that are not there**, where no node with the key holds NULL. -/
theorem Rising.overwrites_iff (hi : Implements calls compare order height fix P)
    (hm : Rising map compare order P t) (key : K) (data : Option V) (hsup : Supplied order key t) :
    Overwrites calls map key data ↔ Absent order key t := by
  obtain ⟨map₁, t₁, hset, hm₁, hperm₁⟩ := hm.set hi key data
  obtain ⟨q, hfind⟩ := hm₁.find_of_set hperm₁
  obtain ⟨map₂, t₂, hdel, hm₂, hperm₂⟩ := hm₁.delete_found hi hfind
  have hkey : order.compare q.2.key key = 0 := (Bst.find_eq_some hfind).2
  have hget₁ : calls.get map₁ key = .ok q.2.data := by
    rw [hi.get_eq _ _ key hm₁.holds, hfind]
    rfl
  have hget₂ := hi.get_eq _ _ key hm₂.holds
  have hcount : ∀ test, copies order key test ((inorder t).map entry) + (if test data then 1 else 0) =
      copies order key test ((inorder t₂).map entry) + if test q.2.data then 1 else 0 :=
    copies_exchange (hperm₁.symm.trans hperm₂) hkey
  constructor
  · rintro ⟨map₁', map₂', rc, old, hset', hget₁', hdel', hget₂'⟩
    obtain ⟨rfl, -⟩ := Prod.mk.inj (Except.ok.inj (hset.symm.trans hset'))
    obtain ⟨rfl, -⟩ := Prod.mk.inj (Except.ok.inj (hdel.symm.trans hdel'))
    have hdata : q.2.data = data := Except.ok.inj (hget₁.symm.trans hget₁')
    have hsame : ∀ test, copies order key test ((inorder t).map entry) =
        copies order key test ((inorder t₂).map entry) := by
      intro test
      have h := hcount test
      rw [hdata] at h
      omega
    rw [absent_iff, hsame, ← absent_iff, ← hm₂.find_eq_none_iff]
    by_contra hne
    obtain ⟨q₂, hq₂⟩ := Option.ne_none_iff_exists'.mp hne
    obtain ⟨hmem, hkey₂⟩ := Bst.find_eq_some hq₂
    -- what is found then holds NULL, and so did a node before
    have hnone : q₂.2.data = none := by
      rw [hq₂] at hget₂
      exact Except.ok.inj (hget₂.symm.trans hget₂')
    rw [supplied_iff, hsame, ← supplied_iff] at hsup
    exact hsup q₂ hmem hkey₂ hnone
  · intro habsent
    have hgone : Bst.find (against order.compare key) t₂ = none := by
      rw [hm₂.find_eq_none_iff, absent_iff]
      have h := hcount fun _ => true
      rw [absent_iff.mp habsent] at h
      simpa using h.symm
    have hdata : q.2.data = data := by
      have hmem := hperm₁.mem_iff.mp (List.mem_map_of_mem (Bst.find_eq_some hfind).1)
      rcases List.mem_cons.mp hmem with heq | hold
      · exact congrArg Prod.snd heq
      · obtain ⟨p, hp, heq⟩ := List.mem_map.mp hold
        have hp' : p.2.key = q.2.key := congrArg Prod.fst heq
        exact absurd (hp' ▸ hkey) (habsent p hp)
    refine ⟨map₁, map₂, 0, q.2.data, hset, ?_, hdel, ?_⟩
    · rw [hget₁, hdata]
    · rw [hget₂, hgone]
      rfl

end SearchTree

/-! ## The two trees

The result is about the key alone: it is overwritten when no node has it, and not overwritten when one
does. Data that are NULL are left out of the second half, since a `get` cannot tell them from a key that
is not there. -/

open SearchTree

variable {K V : Type}

/-- **In every tree a run reaches, `set` overwrites exactly the keys that are not there.** For both
trees, and any key that no node holds NULL for. -/
theorem overwrites_iff_absent (cmp : Comparator K) (ops : List (Op K V)) (key : K) (data : Option V) :
    (∃ map t, Run.run (exec BSTree.calls) (create cmp.compare) ops = .ok map ∧
        Holds map cmp.compare t ∧ (Supplied cmp key t →
          (Overwrites BSTree.calls map key data ↔ Absent cmp key t))) ∧
      ∃ map t, Run.run (exec AVLTree.calls) (create cmp.compare) ops = .ok map ∧
        Holds map cmp.compare t ∧ (Supplied cmp key t →
          (Overwrites AVLTree.calls map key data ↔ Absent cmp key t)) := by
  constructor
  · obtain ⟨map, t, hrun, hm⟩ := exists_rising (BSTree.implements cmp) ops
    refine ⟨map, t, hrun, hm.holds, fun hsup => ?_⟩
    have hreverse : ∀ k : K, cmp.reverse.compare k key = 0 ↔ cmp.compare k key = 0 :=
      fun k => neg_eq_zero
    have hsup' : Supplied cmp.reverse key t := fun p hp hk => hsup p hp ((hreverse _).mp hk)
    rw [hm.overwrites_iff (BSTree.implements cmp) key data hsup']
    exact forall₂_congr fun p hp => not_congr (hreverse _)
  · obtain ⟨map, t, hrun, hm⟩ := exists_rising (AVLTree.implements cmp) ops
    exact ⟨map, t, hrun, hm.holds, hm.overwrites_iff (AVLTree.implements cmp) key data⟩

/-- The second data of a key is not what `get` returns. -/
theorem set_keeps_old_data :
    ∃ map map', (BSTree.set (create bstrcmp) (cstr "a") (some 1) : Except Stop (BSTree _ ℕ × ℤ)) =
        .ok (map, 0) ∧ BSTree.set map (cstr "a") (some 2) = .ok (map', 0) ∧
      BSTree.get map' (cstr "a") = .ok (some 1) ∧
      ¬ Overwrites BSTree.calls map (cstr "a") (some 2) := by
  refine ⟨_, _, rfl, rfl, rfl, ?_⟩
  rintro ⟨map₁, map₂, rc, old, hset, hget, -⟩
  cases hset
  cases hget

end Lcthw
