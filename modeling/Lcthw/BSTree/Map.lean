import Lcthw.BSTree.Rotations
import Lcthw.Comparator
import Lcthw.Run

/-!
# Lcthw — a search tree is a finite map over whole runs (`bstree.c`)

A tree is compared with a function from keys to the data they are bound to, which does not tell keys
apart that compare as 0.

* **`Agrees`**: the tree answers every `get` and `delete` like that function, and its nodes are linked
  and in order.
* **`Implements`**: what the calls of either kind of tree do to the nodes, and that they keep what the
  kind needs of them. `Implements.sustained` is the run of both.
* **`BSTree.finite_map`**, **`AVLTree.rotating_finite_map`**: the two trees, when only keys are set
  that are not bound.
-/

namespace Lcthw

open BinaryTree LinkedTree
open Bst (inorder)

namespace SearchTree

variable {K V H : Type}

/-- The keys that are bound, each to what it is bound to. -/
abbrev Bindings (K V : Type) := K → Option (Option V)

/-- Keys and data in order, no key twice. -/
def Ascending (cmp : Comparator K) (es : List (K × Option V)) : Prop :=
  es.Pairwise fun e f => cmp.compare e.1 f.1 < 0

/-- The bindings are those of a list. -/
def Lists (cmp : Comparator K) (es : List (K × Option V)) (bound : Bindings K V) : Prop :=
  ∀ k d, bound k = some d ↔ ∃ e ∈ es, cmp.compare e.1 k = 0 ∧ e.2 = d

/-! ## Bindings in a list

The bindings of a tree are those of its in-order list. Where the keys of a list ascend, putting a key
behind the smaller ones is a binding more, and taking its entry out is one less. -/

variable {cmp : Comparator K} {es l₁ l₂ : List (K × Option V)} {bound : Bindings K V}
  {key k : K} {data : Option V} {e : K × Option V}

theorem ascending_append_cons : Ascending cmp (l₁ ++ e :: l₂) ↔ Ascending cmp (l₁ ++ l₂) ∧
    (∀ f ∈ l₁, cmp.compare f.1 e.1 < 0) ∧ ∀ f ∈ l₂, cmp.compare e.1 f.1 < 0 := by
  unfold Ascending
  rw [List.pairwise_append, List.pairwise_append, List.pairwise_cons]
  simp only [List.forall_mem_cons]
  constructor
  · rintro ⟨h₁, ⟨he, h₂⟩, h⟩
    exact ⟨⟨h₁, h₂, fun f hf => (h f hf).2⟩, fun f hf => (h f hf).1, he⟩
  · rintro ⟨⟨h₁, h₂, h⟩, hl, hr⟩
    exact ⟨h₁, ⟨hr, h₂⟩, fun f hf => ⟨hl f hf, h f hf⟩⟩

/-- A key that is not bound, put behind the smaller ones. -/
theorem Lists.set (data : Option V) (hl : Lists cmp (l₁ ++ l₂) bound) (hasc : Ascending cmp (l₁ ++ l₂))
    (h₁ : ∀ e ∈ l₁, cmp.compare e.1 key < 0) (h₂ : ∀ e ∈ l₂, 0 ≤ cmp.compare e.1 key)
    (hfree : bound key = none) :
    Ascending cmp (l₁ ++ (key, data) :: l₂) ∧ Lists cmp (l₁ ++ (key, data) :: l₂)
      fun k => if cmp.compare k key = 0 then some data else bound k := by
  -- the key is new, so that no entry is equal to it
  have hother : ∀ e ∈ l₁ ++ l₂, cmp.compare e.1 key ≠ 0 := by
    intro e he heq
    have hbound : bound key = some e.2 := (hl key e.2).mpr ⟨e, he, heq, rfl⟩
    rw [hfree] at hbound
    cases hbound
  constructor
  · refine ascending_append_cons.mpr ⟨hasc, h₁, fun f hf => ?_⟩
    have hge := h₂ f hf
    have hne := hother f (List.mem_append_right _ hf)
    exact (cmp.lt_iff_gt key f.1).mpr (by omega)
  · intro k d
    have hmem : (∃ e ∈ l₁ ++ (key, data) :: l₂, cmp.compare e.1 k = 0 ∧ e.2 = d) ↔
        (cmp.compare key k = 0 ∧ data = d) ∨ ∃ e ∈ l₁ ++ l₂, cmp.compare e.1 k = 0 ∧ e.2 = d := by
      simp only [List.mem_append, List.mem_cons]
      constructor
      · rintro ⟨e, he | rfl | he, hk⟩
        · exact Or.inr ⟨e, Or.inl he, hk⟩
        · exact Or.inl hk
        · exact Or.inr ⟨e, Or.inr he, hk⟩
      · rintro (hk | ⟨e, he | he, hk⟩)
        · exact ⟨(key, data), Or.inr (Or.inl rfl), hk⟩
        · exact ⟨e, Or.inl he, hk⟩
        · exact ⟨e, Or.inr (Or.inr he), hk⟩
    rw [hmem, ← hl k d]
    by_cases hk : cmp.compare k key = 0
    · have hnone : bound k ≠ some d := by
        intro hbound
        obtain ⟨e, he, hek, -⟩ := (hl k d).mp hbound
        exact hother e he (cmp.eq_trans hek hk)
      simp [hk, cmp.eq_comm.mp hk, hnone]
    · have hk' : cmp.compare key k ≠ 0 := fun heq => hk (cmp.eq_comm.mp heq)
      simp [hk, hk']

/-- The entry of a key, taken out. -/
theorem Lists.delete (hl : Lists cmp (l₁ ++ e :: l₂) bound) (hasc : Ascending cmp (l₁ ++ e :: l₂))
    (he : cmp.compare e.1 key = 0) :
    Ascending cmp (l₁ ++ l₂) ∧ Lists cmp (l₁ ++ l₂)
      fun k => if cmp.compare k key = 0 then none else bound k := by
  obtain ⟨hrest, h₁, h₂⟩ := ascending_append_cons.mp hasc
  refine ⟨hrest, fun k d => ?_⟩
  -- the order leaves one entry for the key
  have hother : ∀ f ∈ l₁ ++ l₂, cmp.compare f.1 key ≠ 0 := by
    intro f hf heq
    have hfe : cmp.compare f.1 e.1 = 0 := cmp.eq_trans heq (cmp.eq_comm.mp he)
    rcases List.mem_append.mp hf with hf | hf
    · have := h₁ f hf
      omega
    · have := h₂ f hf
      have := cmp.eq_comm.mp hfe
      omega
  show (if cmp.compare k key = 0 then none else bound k) = some d ↔ _
  by_cases hk : cmp.compare k key = 0
  · rw [if_pos hk]
    refine iff_of_false nofun ?_
    rintro ⟨f, hf, hfk, -⟩
    exact hother f hf (cmp.eq_trans hfk hk)
  · rw [if_neg hk, hl k d]
    constructor
    · rintro ⟨f, hf, hfk, hfd⟩
      rw [List.mem_append, List.mem_cons] at hf
      rcases hf with hf | rfl | hf
      · exact ⟨f, List.mem_append_left _ hf, hfk, hfd⟩
      · exact absurd (cmp.eq_trans (cmp.eq_comm.mp hfk) he) hk
      · exact ⟨f, List.mem_append_right _ hf, hfk, hfd⟩
    · rintro ⟨f, hf, hfk, hfd⟩
      refine ⟨f, ?_, hfk, hfd⟩
      rw [List.mem_append, List.mem_cons]
      rcases List.mem_append.mp hf with hf | hf
      · exact Or.inl hf
      · exact Or.inr (Or.inr hf)

/-- A key that has no entry is deleted by doing nothing. -/
theorem Lists.delete_none (hl : Lists cmp es bound)
    (hnone : ∀ e ∈ es, cmp.compare e.1 key ≠ 0) :
    Lists cmp es fun k => if cmp.compare k key = 0 then none else bound k := by
  intro k d
  show (if cmp.compare k key = 0 then none else bound k) = some d ↔ _
  by_cases hk : cmp.compare k key = 0
  · rw [if_pos hk]
    refine iff_of_false nofun ?_
    rintro ⟨e, he, hek, -⟩
    exact hnone e he (cmp.eq_trans hek hk)
  · rw [if_neg hk, hl k d]

/-! ## Calls

The calls of the two kinds of tree have the same shape. They are collected in a structure, together with
the comparison by which smaller is to the left, so that the statements about runs can be made once for
both. -/

inductive Op (K V : Type) where
  | set (key : K) (data : Option V)
  | get (key : K)
  | delete (key : K)

/-- The calls of one kind of tree. -/
structure Calls (K V H : Type) where
  set : SearchTree K V H → K → Option V → Except Stop (SearchTree K V H × ℤ)
  get : SearchTree K V H → K → Except Stop (Option V)
  delete : SearchTree K V H → K → Except Stop (SearchTree K V H × Option V)

/-- A tree beside what is bound in it. -/
structure Shadowed (K V H : Type) where
  map : SearchTree K V H
  bound : Bindings K V

def begin (cmp : Comparator K) : Shadowed K V H :=
  { map := create cmp.compare, bound := fun _ => none }

def serve (cmp : Comparator K) (bound : Bindings K V) : Op K V → Bindings K V
  | .set key data => fun k => if cmp.compare k key = 0 then some data else bound k
  | .get _ => bound
  | .delete key => fun k => if cmp.compare k key = 0 then none else bound k

def exec (calls : Calls K V H) (map : SearchTree K V H) :
    Op K V → Except Stop (SearchTree K V H)
  | .set key data => do
      let (map, _) ← calls.set map key data
      return map
  | .get key => do
      let _ ← calls.get map key
      return map
  | .delete key => do
      let (map, _) ← calls.delete map key
      return map

def step (calls : Calls K V H) (cmp : Comparator K) (s : Shadowed K V H) (op : Op K V) :
    Except Stop (Shadowed K V H) := do
  let map ← exec calls s.map op
  return { map, bound := serve cmp s.bound op }

/-- A call that sets a key sets one that is not bound. -/
def Fresh (bound : Bindings K V) : Op K V → Prop
  | .set key _ => bound key = none
  | .get _ => True
  | .delete _ => True

/-- Only keys are set that are not bound at that moment. -/
def SetsFresh (cmp : Comparator K) : Bindings K V → List (Op K V) → Prop
  | _, [] => True
  | bound, op :: ops => Fresh bound op ∧ SetsFresh cmp (serve cmp bound op) ops

/-- Every key to the left of a node stands before the node's, and that before every key to the
right. -/
def Ordered (before : K → K → Prop) : Shape (Payload K V H) → Prop
  | nil => True
  | node p l r => (∀ q ∈ inorder l, before q.2.key p.2.key) ∧
      (∀ q ∈ inorder r, before p.2.key q.2.key) ∧ Ordered before l ∧ Ordered before r

/-- The tree answers like the bindings, and is linked and in order. -/
structure Agrees (calls : Calls K V H) (compare : K → K → ℤ) (before : K → K → Prop)
    (s : Shadowed K V H) : Prop where
  get : ∀ k, calls.get s.map k = .ok (s.bound k).join
  delete : ∀ k, ∃ map, calls.delete s.map k = .ok (map, (s.bound k).join)
  ordered : ∃ t, Holds s.map compare t ∧ Ordered before t

/-! ## What the calls do to the nodes

What a kind of tree has to show is that its `set` and `delete` are the insertion and the erasure of
`Bst`, up to a repair that keeps the entries in order. The rest follows from the in-order list. -/

/-- The calls, with what they keep of the nodes: `order` is the comparison of a tree by which smaller
is to the left, `P` holds of every node, and `fix` is applied on the way back up from a new one. -/
structure Implements (calls : Calls K V H) (compare : K → K → ℤ) (order : Comparator K) (height : H)
    (fix : Shape (Payload K V H) → Shape (Payload K V H)) (P : ℕ × Payload K V H → Prop) :
    Prop where
  new : ∀ a k d, P (a, ⟨k, d, height⟩)
  keeps_takeOver : ∀ p m, P p → P (takeOver p m)
  keeps_fix : ∀ t, (∀ p ∈ inorder t, P p) → ∀ p ∈ inorder (fix t), P p
  entries_fix : ∀ t, (inorder (fix t)).map entry = (inorder t).map entry
  set_eq : ∀ map t k d, Holds map compare t → (∀ p ∈ inorder t, P p) →
    ∃ map', calls.set map k d = .ok (map', 0) ∧ Holds map' compare
      (Bst.insert (against order.compare k) fix (map.heap.brk, ⟨k, d, height⟩) t)
  get_eq : ∀ map t k, Holds map compare t →
    calls.get map k = .ok ((Bst.find (against order.compare k) t).bind fun p => p.2.data)
  delete_eq : ∀ map t k, Holds map compare t →
    ∃ map', calls.delete map k =
        .ok (map', (Bst.find (against order.compare k) t).bind fun p => p.2.data) ∧
      Holds map' compare (Bst.erase (against order.compare k) takeOver t)

/-- The nodes `t` are in order and are what is bound. -/
structure Models (s : Shadowed K V H) (compare : K → K → ℤ) (order : Comparator K)
    (P : ℕ × Payload K V H → Prop) (t : Shape (Payload K V H)) : Prop where
  holds : Holds s.map compare t
  ascending : Ascending order ((inorder t).map entry)
  lists : Lists order ((inorder t).map entry) s.bound
  all : ∀ p ∈ inorder t, P p

variable {calls : Calls K V H} {compare : K → K → ℤ} {order : Comparator K} {height : H}
  {fix : Shape (Payload K V H) → Shape (Payload K V H)} {P : ℕ × Payload K V H → Prop}
  {s : Shadowed K V H} {t : Shape (Payload K V H)} {op : Op K V}

theorem ordered_of_pairwise {before : K → K → Prop}
    (h : ((inorder t).map entry).Pairwise fun e f => before e.1 f.1) : Ordered before t := by
  induction t with
  | nil => trivial
  | node p l r ihl ihr =>
    rw [Bst.inorder_node, List.map_append, List.map_cons, List.pairwise_append,
      List.pairwise_cons] at h
    obtain ⟨hl, ⟨hpr, hr⟩, hlr⟩ := h
    refine ⟨fun q hq => ?_, fun q hq => ?_, ihl hl, ihr hr⟩
    · exact hlr (entry q) (List.mem_map_of_mem hq) (entry p) List.mem_cons_self
    · exact hpr (entry q) (List.mem_map_of_mem hq)

/-- Where keys ascend, so does their comparison with a key. -/
theorem sifted_of_ascending (h : Ascending cmp ((inorder t).map entry)) (key : K) :
    Bst.Sifted (against cmp.compare key) t := by
  apply (List.pairwise_map.mp h).imp
  intro p q hpq
  have hlt : cmp.compare p.2.key q.2.key < 0 := hpq
  have hpos : 0 ≤ cmp.compare p.2.key key → 0 < cmp.compare q.2.key key := fun hp =>
    (cmp.lt_iff_gt _ _).mp (cmp.lt_of_le_of_lt (cmp.le_iff_ge.mpr hp) hlt)
  exact ⟨fun hp => (hpos hp).le, fun hp => hpos hp.le⟩

/-- A search in the tree is a look at the bindings. -/
theorem Models.find (hm : Models s compare order P t) (k : K) :
    (Bst.find (against order.compare k) t).map (fun p => p.2.data) = s.bound k := by
  cases hfind : Bst.find (against order.compare k) t with
  | none =>
    -- a search misses no key
    have hnone := Bst.find_eq_none (sifted_of_ascending hm.ascending k) hfind
    cases hbound : s.bound k with
    | none => rfl
    | some d =>
      obtain ⟨e, he, hek, -⟩ := (hm.lists k d).mp hbound
      obtain ⟨p, hp, rfl⟩ := List.mem_map.mp he
      exact absurd hek (hnone p hp)
  | some p =>
    obtain ⟨hp, hpk⟩ := Bst.find_eq_some hfind
    exact ((hm.lists k p.2.data).mpr ⟨entry p, List.mem_map_of_mem hp, hpk, rfl⟩).symm

theorem Models.find_data (hm : Models s compare order P t) (k : K) :
    ((Bst.find (against order.compare k) t).bind fun p => p.2.data) = (s.bound k).join := by
  rw [← hm.find k]
  cases Bst.find (against order.compare k) t <;> rfl

theorem Models.agrees (hi : Implements calls compare order height fix P)
    (hm : Models s compare order P t) :
    Agrees calls compare (fun a b => order.compare a b < 0) s := by
  refine ⟨fun k => ?_, fun k => ?_, t, hm.holds, ordered_of_pairwise hm.ascending⟩
  · rw [hi.get_eq _ _ k hm.holds, hm.find_data]
  · obtain ⟨map, hdel, -⟩ := hi.delete_eq _ _ k hm.holds
    exact ⟨map, by rw [hdel, hm.find_data]⟩

theorem step_eq {map : SearchTree K V H} (h : exec calls s.map op = .ok map) :
    step calls order s op = .ok { map, bound := serve order s.bound op } := by
  rw [step, h]
  rfl

/-- A `set` of a key that is not bound binds it. -/
theorem step_set (hi : Implements calls compare order height fix P)
    (hm : Models s compare order P t) (hfree : s.bound key = none) (data : Option V) :
    ∃ s', step calls order s (.set key data) = .ok s' ∧ ∃ t', Models s' compare order P t' := by
  obtain ⟨map, hset, hholds⟩ := hi.set_eq _ _ key data hm.holds hm.all
  obtain ⟨l₁, l₂, ht, hins, h₁, h₂⟩ := Bst.inorder_insert hi.entries_fix
    (s.map.heap.brk, (⟨key, data, height⟩ : Payload K V H)) (sifted_of_ascending hm.ascending key)
  have hlist : (inorder t).map entry = l₁.map entry ++ l₂.map entry := by
    rw [ht, List.map_append]
  have hasc := hm.ascending
  have hlists := hm.lists
  rw [hlist] at hasc hlists
  obtain ⟨hasc', hlists'⟩ := hlists.set data hasc (List.forall_mem_map.mpr h₁)
    (List.forall_mem_map.mpr h₂) hfree
  refine ⟨{ map, bound := serve order s.bound (.set key data) }, ?_, _, hholds, ?_, ?_,
    Bst.forall_insert hi.keeps_fix (hi.new _ _ _) hm.all⟩
  · exact step_eq (by rw [exec, hset, ok_bind]; rfl)
  · rw [hins]
    exact hasc'
  · rw [hins]
    exact hlists'

/-- A `delete` unbinds its key. -/
theorem step_delete (hi : Implements calls compare order height fix P)
    (hm : Models s compare order P t) (key : K) :
    ∃ s', step calls order s (.delete key) = .ok s' ∧ ∃ t', Models s' compare order P t' := by
  obtain ⟨map, hdel, hholds⟩ := hi.delete_eq _ _ key hm.holds
  have hafter : Ascending order
        ((inorder (Bst.erase (against order.compare key) takeOver t)).map entry) ∧
      Lists order ((inorder (Bst.erase (against order.compare key) takeOver t)).map entry)
        (serve order s.bound (.delete key)) := by
    cases hfind : Bst.find (against order.compare key) t with
    | none =>
      have hnone := Bst.find_eq_none (sifted_of_ascending hm.ascending key) hfind
      rw [Bst.erase_of_find_none hfind]
      exact ⟨hm.ascending, hm.lists.delete_none (List.forall_mem_map.mpr hnone)⟩
    | some p =>
      have htake : ∀ p m : ℕ × Payload K V H, entry (takeOver p m) = entry m := fun _ _ => rfl
      obtain ⟨l₁, l₂, ht, herase⟩ := Bst.inorder_erase htake hfind
      have hasc := hm.ascending
      have hlists := hm.lists
      rw [ht, List.map_append, List.map_cons] at hasc hlists
      rw [herase]
      exact hlists.delete hasc (Bst.find_eq_some hfind).2
  refine ⟨{ map, bound := serve order s.bound (.delete key) }, ?_, _, hholds, hafter.1, hafter.2,
    Bst.forall_erase hi.keeps_takeOver hm.all⟩
  exact step_eq (by rw [exec, hdel, ok_bind]; rfl)

/-- **A step of a tree that models the bindings, when a key that is set is not bound.** -/
theorem step_models (hi : Implements calls compare order height fix P)
    (hm : Models s compare order P t) (hfresh : Fresh s.bound op) :
    ∃ s', step calls order s op = .ok s' ∧ ∃ t', Models s' compare order P t' := by
  cases op with
  | set key data => exact step_set hi hm hfresh data
  | get key =>
    refine ⟨s, step_eq ?_, t, hm⟩
    rw [exec, hi.get_eq _ _ key hm.holds, ok_bind]
    rfl
  | delete key => exact step_delete hi hm key

theorem along_of_setsFresh {ops : List (Op K V)} (h : SetsFresh order s.bound ops) :
    Run.Along (step calls order) (fun s op => Fresh s.bound op) s ops := by
  induction ops generalizing s with
  | nil => trivial
  | cons op ops ih =>
    refine ⟨h.1, fun s' hs' => ih ?_⟩
    obtain ⟨map, -, hret⟩ := bind_eq_ok.mp hs'
    obtain rfl := Except.ok.inj hret
    exact h.2

/-- **The run of both trees.** -/
theorem Implements.sustained (hi : Implements calls compare order height fix P)
    (hcreate : s = { map := create compare, bound := fun _ => none }) {ops : List (Op K V)}
    (hfresh : SetsFresh order s.bound ops) :
    Run.Sustained (step calls order) (Agrees calls compare fun a b => order.compare a b < 0) s
      ops := by
  have hbegin : Models s compare order P nil := by
    subst hcreate
    refine ⟨holds_create compare, List.Pairwise.nil, fun k d => ?_, fun p hp => by cases hp⟩
    exact iff_of_false nofun (by simp)
  have halong : Run.Along (step calls order) (fun s op => Fresh s.bound op) s ops :=
    along_of_setsFresh hfresh
  have hinv := Run.sustained_of_along (Q := fun s => ∃ t, Models s compare order P t)
    (fun s op hm hop => ?_) ⟨nil, hbegin⟩ halong
  · exact hinv.mono fun s hm => hm.elim fun t hm => hm.agrees hi
  · obtain ⟨t, hm⟩ := hm
    exact step_models hi hm hop

end SearchTree

/-! ## The two trees

For a `BSTree` the repair is none, and the greater keys are to the left. For an AVL tree the repair is a
rotation, by heights that need not be right. -/

namespace BSTree

open SearchTree

variable {K V : Type}

def calls : Calls K V Unit :=
  { set, get, delete }

theorem order_eq {cmp : Comparator K} {map : BSTree K V} {t : Shape (Payload K V Unit)}
    (hm : Holds map cmp.compare t) : order map = cmp.reverse.compare := by
  funext a b
  show -map.compare a b = -cmp.compare a b
  rw [hm.compare_eq]

theorem implements (cmp : Comparator K) :
    Implements (calls : Calls K V Unit) cmp.compare cmp.reverse () id fun _ => True where
  new _ _ _ := trivial
  keeps_takeOver _ _ _ := trivial
  keeps_fix _ _ _ _ := trivial
  entries_fix _ := rfl
  set_eq map t k d hm ht := by
    show ∃ map', SearchTree.set (order map) () _ map k d = _ ∧ _
    rw [order_eq hm]
    exact SearchTree.set_eq (fun _ => trivial) (fun _ _ _ _ => trivial)
      (fun map c t _ _ hm => ⟨map, rfl, hm⟩) hm ht
  get_eq map t k hm := by
    show SearchTree.get (order map) map k = _
    rw [order_eq hm]
    exact SearchTree.get_eq hm
  delete_eq map t k hm := by
    show ∃ map', SearchTree.delete (order map) map k = _ ∧ _
    rw [order_eq hm]
    exact SearchTree.delete_eq hm

theorem serve_reverse (cmp : Comparator K) : serve (V := V) cmp.reverse = serve cmp := by
  funext bound op
  cases op with
  | set key data => simp [serve, Comparator.reverse]
  | get key => rfl
  | delete key => simp [serve, Comparator.reverse]

/-- **A `BSTree` is a finite map**, and holds the greater keys to the left, in every state of a run
that sets only keys that are not bound. -/
theorem finite_map (cmp : Comparator K) {ops : List (Op K V)}
    (hfresh : SetsFresh cmp (fun _ => none) ops) :
    Run.Sustained (step calls cmp)
      (Agrees calls cmp.compare fun a b => 0 < cmp.compare a b) (begin cmp) ops := by
  have hstep : step (V := V) calls cmp.reverse = step calls cmp := by
    funext s op
    rw [step, step, serve_reverse]
  have hfresh' : ∀ bound, SetsFresh cmp bound ops → SetsFresh cmp.reverse bound ops := by
    clear hfresh
    intro bound h
    induction ops generalizing bound with
    | nil => trivial
    | cons op ops ih =>
      refine ⟨h.1, ih _ ?_⟩
      rw [serve_reverse]
      exact h.2
  rw [← hstep]
  refine ((implements cmp).sustained rfl (hfresh' _ hfresh)).mono fun s hs => ?_
  simpa [Comparator.reverse] using hs

/-- Three keys, of which the root is deleted and set again. -/
theorem finite_map_abc :
    Run.Sustained (step (calls : Calls (List CChar) ℕ Unit) defaultCompare)
      (Agrees calls bstrcmp fun a b => 0 < bstrcmp a b) (begin defaultCompare)
      [.set (cstr "b") (some 2), .set (cstr "a") (some 1), .set (cstr "c") (some 3),
        .delete (cstr "b"), .get (cstr "a"), .set (cstr "b") none] :=
  finite_map defaultCompare (by simp [SetsFresh, Fresh, serve]; decide)

end BSTree

namespace AVLTree

open SearchTree

variable {K V : Type}

def calls : Calls K V ℤ :=
  { set, get, delete }

theorem order_eq {cmp : Comparator K} {map : AVLTree K V} {t : Nodes K V}
    (hm : Holds map cmp.compare t) : order map = cmp.compare :=
  hm.compare_eq

theorem implements (cmp : Comparator K) :
    Implements (calls : Calls K V ℤ) cmp.compare cmp 1 rebalance fun p => 1 ≤ p.2.height where
  new _ _ _ := le_rfl
  keeps_takeOver _ _ hp := hp
  keeps_fix _ ht := Standing.rebalance ht
  entries_fix := entries_rebalance
  set_eq map t k d hm ht := by
    show ∃ map', SearchTree.set (order map) 1 rotate map k d = _ ∧ _
    rw [order_eq hm]
    exact SearchTree.set_eq (fun _ => le_rfl) (fun _ ht => Standing.rebalance ht)
      (fun map c t hne ht hm => rotate_eq hm hne ht) hm ht
  get_eq map t k hm := by
    show SearchTree.get (order map) map k = _
    rw [order_eq hm]
    exact SearchTree.get_eq hm
  delete_eq map t k hm := by
    show ∃ map', SearchTree.delete (order map) map k = _ ∧ _
    rw [order_eq hm]
    exact SearchTree.delete_eq hm

/-- **An AVL tree is a finite map**, and holds the smaller keys to the left, in every state of a run
that sets only keys that are not bound. No call faults, so no rotation goes through a null pointer. -/
theorem rotating_finite_map (cmp : Comparator K) {ops : List (Op K V)}
    (hfresh : SetsFresh cmp (fun _ => none) ops) :
    Run.Sustained (step calls cmp)
      (Agrees calls cmp.compare fun a b => cmp.compare a b < 0) (begin cmp) ops :=
  (implements cmp).sustained rfl hfresh

/-- Three keys in order, so that the root is rotated down, and one of them deleted and set again. -/
theorem rotating_finite_map_abc :
    Run.Sustained (step (calls : Calls (List CChar) ℕ ℤ) defaultCompare)
      (Agrees calls bstrcmp fun a b => bstrcmp a b < 0) (begin defaultCompare)
      [.set (cstr "a") (some 1), .set (cstr "b") (some 2), .set (cstr "c") (some 3),
        .delete (cstr "b"), .get (cstr "a"), .set (cstr "b") none] :=
  rotating_finite_map defaultCompare (by simp [SetsFresh, Fresh, serve]; decide)

end AVLTree

end Lcthw
