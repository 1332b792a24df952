import Lcthw.Heap
import Lcthw.Bst

/-!
# LinkedTree — binary trees of nodes with parent pointers

* **`Rep`**: the nodes of a tree on a heap, each linked to its children and to its parent. A tree
  carries the addresses of its nodes.
* **`Frame`**, **`plug`**: a tree with a hole, seen from the hole. A tree put into the hole and what
  is around it are held side by side (`rep_plug`), and each has a frame rule.
* **`Rep.adopt`**, **`RepAround.relink`**: the parent of a tree is recorded in its root alone, and what
  is in a hole in the node above it alone.
* **`Linked`**: a whole tree, no two nodes of which share an address.
-/

namespace LinkedTree

open BinaryTree
open Bst (inorder inorder_nil inorder_node length_inorder)

structure Node (β : Type*) where
  parent : Ptr
  left : Ptr
  right : Ptr
  value : β

inductive Side where
  | left
  | right
  deriving DecidableEq

def Side.other : Side → Side
  | .left => .right
  | .right => .left

variable {β ε : Type*}

namespace Node

def child (n : Node β) : Side → Ptr
  | .left => n.left
  | .right => n.right

def setChild (n : Node β) (p : Ptr) : Side → Node β
  | .left => { n with left := p }
  | .right => { n with right := p }

/-- The node below `up` with the child `p` on one side and `q` on the other. -/
def link (s : Side) (up p q : Ptr) (x : β) : Node β :=
  match s with
  | .left => { parent := up, left := p, right := q, value := x }
  | .right => { parent := up, left := q, right := p, value := x }

variable (s : Side) (up up' p p' q q' : Ptr) (x y : β)

@[simp] theorem parent_link : (link s up p q x).parent = up := by cases s <;> rfl

@[simp] theorem value_link : (link s up p q x).value = x := by cases s <;> rfl

@[simp] theorem child_link : (link s up p q x).child s = p := by cases s <;> rfl

@[simp] theorem child_link_other : (link s up p q x).child s.other = q := by cases s <;> rfl

@[simp] theorem setChild_link : (link s up p q x).setChild p' s = link s up p' q x := by
  cases s <;> rfl

@[simp] theorem setChild_link_other :
    (link s up p q x).setChild q' s.other = link s up p q' x := by
  cases s <;> rfl

@[simp] theorem setParent_link :
    { link s up p q x with parent := up' } = link s up' p q x := by
  cases s <;> rfl

@[simp] theorem setValue_link : { link s up p q x with value := y } = link s up p q y := by
  cases s <;> rfl

end Node

/-- A tree of nodes, each given with its address. -/
abbrev Shape (β : Type*) := BinaryTree (ℕ × β)

def rootOf : Shape β → Ptr
  | nil => none
  | node p _ _ => some p.1

def addrs (t : Shape β) : List ℕ :=
  (inorder t).map Prod.fst

/-- The node `p` with `t` on one side and `u` on the other. -/
def branch (s : Side) (p : ℕ × β) (t u : Shape β) : Shape β :=
  match s with
  | .left => node p t u
  | .right => node p u t

/-- What is around a hole: a node above it, and the tree on the other side. -/
structure Frame (β : Type*) where
  side : Side
  node : ℕ × β
  sib : Shape β

/-- The tree with `t` in the hole; the innermost frame is the first one. -/
def plug : List (Frame β) → Shape β → Shape β
  | [], t => t
  | f :: c, t => plug c (branch f.side f.node t f.sib)

/-- The node above the hole. -/
def up : List (Frame β) → Ptr
  | [] => none
  | f :: _ => some f.node.1

/-- The addresses around a hole. -/
def around : List (Frame β) → List ℕ
  | [] => []
  | f :: c => f.node.1 :: (addrs f.sib ++ around c)

/-- The nodes of a tree below `up`, linked. -/
def Rep (h : Heap (Node β)) : Ptr → Shape β → Prop
  | _, nil => True
  | up, node p l r =>
    h.cells p.1 = some { parent := up, left := rootOf l, right := rootOf r, value := p.2 } ∧
      Rep h (some p.1) l ∧ Rep h (some p.1) r

/-- The nodes around a hole, linked, with `p` in the hole. -/
def RepAround (h : Heap (Node β)) : Ptr → List (Frame β) → Prop
  | _, [] => True
  | p, f :: c =>
    h.cells f.node.1 = some (.link f.side (up c) p (rootOf f.sib) f.node.2) ∧
      Rep h (some f.node.1) f.sib ∧ RepAround h (some f.node.1) c

/-- A linked tree, no two nodes of which share an address. -/
structure Linked (h : Heap (Node β)) (t : Shape β) : Prop where
  rep : Rep h none t
  nodup : (addrs t).Nodup

/-! ## Trees and holes

A tree with a hole is a list of frames, from the hole up to the root. What is said here is about shapes
alone: which addresses a plugged tree has, and that they are still different from each other. -/

variable {s : Side} {p q : ℕ × β} {l r t u : Shape β} {f : Frame β} {c d : List (Frame β)}

@[simp] theorem root_nil : rootOf (nil : Shape β) = none := rfl

@[simp] theorem root_node : rootOf (node p l r) = some p.1 := rfl

@[simp] theorem root_branch : rootOf (branch s p t u) = some p.1 := by cases s <;> rfl

@[simp] theorem addrs_nil : addrs (nil : Shape β) = [] := rfl

@[simp] theorem addrs_node : addrs (node p l r) = addrs l ++ p.1 :: addrs r := by
  simp [addrs]

theorem root_eq_none : rootOf t = none ↔ t = nil := by
  cases t <;> simp

@[simp] theorem plug_nil (t : Shape β) : plug [] t = t := rfl

@[simp] theorem plug_cons (f : Frame β) (c : List (Frame β)) (t : Shape β) :
    plug (f :: c) t = plug c (branch f.side f.node t f.sib) := rfl

theorem plug_append (c d : List (Frame β)) (t : Shape β) : plug (c ++ d) t = plug d (plug c t) := by
  induction c generalizing t with
  | nil => rfl
  | cons f c ih => exact ih _

theorem root_plug_cons (f : Frame β) (c : List (Frame β)) (t u : Shape β) :
    rootOf (plug (f :: c) t) = rootOf (plug (f :: c) u) := by
  induction c generalizing f t u with
  | nil => simp
  | cons g c ih => exact ih g (branch f.side f.node t f.sib) (branch f.side f.node u f.sib)

theorem addrs_branch_perm (s : Side) (p : ℕ × β) (t u : Shape β) :
    (addrs (branch s p t u)).Perm (addrs t ++ p.1 :: addrs u) := by
  cases s with
  | left =>
    show (addrs (node p t u)).Perm _
    rw [addrs_node]
  | right =>
    show (addrs (node p u t)).Perm _
    rw [addrs_node]
    exact List.perm_append_comm.trans (by simpa using List.perm_middle.symm)

/-- A plugged tree has the addresses of the tree and those around the hole. -/
theorem addrs_plug_perm (c : List (Frame β)) (t : Shape β) :
    (addrs (plug c t)).Perm (addrs t ++ around c) := by
  induction c generalizing t with
  | nil => simp [around]
  | cons f c ih =>
    rw [plug_cons]
    refine (ih _).trans (((addrs_branch_perm _ _ _ _).append_right _).trans ?_)
    simp [around]

/-- They are different from each other, and the two sides are apart. -/
theorem nodup_plug : (addrs (plug c t)).Nodup ↔
    (addrs t).Nodup ∧ (around c).Nodup ∧ (addrs t).Disjoint (around c) := by
  rw [(addrs_plug_perm c t).nodup_iff, List.nodup_append']

theorem nodup_branch : (addrs (branch s p t u)).Nodup ↔
    p.1 ∉ addrs t ∧ p.1 ∉ addrs u ∧ (addrs t).Nodup ∧ (addrs u).Nodup ∧
      (addrs t).Disjoint (addrs u) := by
  rw [(addrs_branch_perm s p t u).nodup_iff, List.nodup_append', List.nodup_cons,
    List.disjoint_cons_right]
  tauto

variable {h h' : Heap (Node β)} {a : ℕ} {x : β} {w w' : Ptr}

/-! ## Linked nodes

A tree in a hole and what is around the hole are linked side by side: they share nothing but the
pointers between them. Each side has a frame rule, so a change on one side leaves the other one linked. -/

/-- A node with a tree on each side, whichever side is named first. -/
theorem rep_branch : Rep h w (branch s p t u) ↔
    h.cells p.1 = some (.link s w (rootOf t) (rootOf u) p.2) ∧ Rep h (some p.1) t ∧
      Rep h (some p.1) u := by
  cases s with
  | left => exact Iff.rfl
  | right => exact and_congr_right fun _ => and_comm

/-- **A tree in a hole is linked side by side with what is around it.** -/
theorem rep_plug : Rep h none (plug c t) ↔ Rep h (up c) t ∧ RepAround h (rootOf t) c := by
  induction c generalizing t with
  | nil => simp [RepAround, up]
  | cons f c ih =>
    rw [plug_cons, ih, rep_branch, root_branch]
    simp only [RepAround, up]
    tauto

/-- **Frame.** Only the cells of its nodes matter to a tree. -/
theorem Rep.frame (hr : Rep h w t) (hcells : ∀ b ∈ addrs t, h'.cells b = h.cells b) :
    Rep h' w t := by
  induction t generalizing w with
  | nil => trivial
  | node p l r ihl ihr =>
    rw [addrs_node] at hcells
    refine ⟨?_, ihl hr.2.1 fun b hb => hcells b ?_, ihr hr.2.2 fun b hb => hcells b ?_⟩
    · rw [hcells p.1 (by simp)]
      exact hr.1
    · simp [hb]
    · simp [hb]

theorem RepAround.frame (hc : RepAround h w c) (hcells : ∀ b ∈ around c, h'.cells b = h.cells b) :
    RepAround h' w c := by
  induction c generalizing w with
  | nil => trivial
  | cons f c ih =>
    refine ⟨?_, hc.2.1.frame fun b hb => hcells b ?_, ih hc.2.2 fun b hb => hcells b ?_⟩
    · rw [hcells f.node.1 (by simp [around])]
      exact hc.1
    · simp [around, hb]
    · simp [around, hb]

theorem Rep.exists_cell (hr : Rep h w t) (ha : a ∈ addrs t) : ∃ n, h.cells a = some n := by
  induction t generalizing w with
  | nil => cases ha
  | node p l r ihl ihr =>
    rw [addrs_node, List.mem_append, List.mem_cons] at ha
    rcases ha with hl | rfl | hr'
    · exact ihl hr.2.1 hl
    · exact ⟨_, hr.1⟩
    · exact ihr hr.2.2 hr'

/-- The cell of a node holds its value. -/
theorem Rep.cells_mem (hr : Rep h w t) (hp : p ∈ inorder t) :
    ∃ n, h.cells p.1 = some n ∧ n.value = p.2 := by
  induction t generalizing w with
  | nil => cases hp
  | node q l r ihl ihr =>
    rw [inorder_node, List.mem_append, List.mem_cons] at hp
    rcases hp with hl | rfl | hr'
    · exact ihl hr.2.1 hl
    · exact ⟨_, hr.1, rfl⟩
    · exact ihr hr.2.2 hr'

/-- A linked tree has no more nodes than addresses were handed out. -/
theorem Linked.numNodes_le (hl : Linked h t) : t.numNodes ≤ h.brk := by
  have hsub : addrs t ⊆ List.range h.brk := by
    intro a ha
    obtain ⟨n, hn⟩ := hl.rep.exists_cell ha
    rw [List.mem_range]
    by_contra hle
    rw [h.fresh a (by omega)] at hn
    cases hn
  calc t.numNodes = (addrs t).length := by rw [addrs, List.length_map, length_inorder]
    _ ≤ (List.range h.brk).length := (hl.nodup.subperm hsub).length_le
    _ = h.brk := List.length_range

theorem Linked.brk_notMem (hl : Linked h t) : h.brk ∉ addrs t := by
  intro hmem
  obtain ⟨n, hn⟩ := hl.rep.exists_cell hmem
  exact Heap.ne_brk hn rfl

theorem Linked.frame (hl : Linked h t) (hcells : ∀ b ∈ addrs t, h'.cells b = h.cells b) :
    Linked h' t :=
  ⟨hl.rep.frame hcells, hl.nodup⟩

/-! ## Changing links

Two assignments make a tree change its place: the node above gets a new child, and the root of the tree
gets a new parent. Each of them is recorded in one node alone. -/

section Links

variable [HeapFault ε]

/-- Make `w` the parent of the node that `q` points to, if any. -/
def adopt (h : Heap (Node β)) (q w : Ptr) : Except ε (Heap (Node β)) :=
  if q ≠ none then h.modify q fun n => { n with parent := w } else .ok h

/-- Put `q` where the node that `w` points to has the child `a`: to the left if it has it there, to
the right otherwise. -/
def relink (h : Heap (Node β)) (w a q : Ptr) : Except ε (Heap (Node β)) := do
  let n ← h.load w
  if a = n.left then
    h.modify w fun n => { n with left := q }
  else
    h.modify w fun n => { n with right := q }

/-- **The parent of a tree is recorded in its root alone.** -/
theorem Rep.adopt (hr : Rep h w t) (hnd : (addrs t).Nodup) (w' : Ptr) :
    ∃ h', (adopt h (rootOf t) w' : Except ε _) = .ok h' ∧ Rep h' w' t ∧
      ∀ b, b ∉ addrs t → h'.cells b = h.cells b := by
  cases t with
  | nil => exact ⟨h, rfl, trivial, fun b _ => rfl⟩
  | node p l r =>
    have hnd' := (nodup_branch (s := .left)).mp hnd
    refine ⟨h.put p.1 fun n => { n with parent := w' }, Heap.modify_eq hr.1, ⟨?_, ?_, ?_⟩, ?_⟩
    · exact Heap.cells_put_self hr.1
    · refine hr.2.1.frame fun b hb => Heap.cells_put_of_ne ?_
      rintro rfl
      exact hnd'.1 hb
    · refine hr.2.2.frame fun b hb => Heap.cells_put_of_ne ?_
      rintro rfl
      exact hnd'.2.1 hb
    · intro b hb
      apply Heap.cells_put_of_ne
      rintro rfl
      exact hb (by simp)

/-- **What is in a hole is recorded in the node above it alone.** The pointer that was in it is told
from the one on the other side. -/
theorem RepAround.relink (hc : RepAround h (some a) (f :: c)) (hnd : (around (f :: c)).Nodup)
    (ha : a ∉ around (f :: c)) (q : Ptr) :
    ∃ h', (relink h (up (f :: c)) (some a) q : Except ε _) = .ok h' ∧
      RepAround h' q (f :: c) ∧ ∀ b, b ∉ around (f :: c) → h'.cells b = h.cells b := by
  obtain ⟨hcell, hsib, hrest⟩ := hc
  have hnd' := List.nodup_cons.mp hnd
  have hside : (h.put f.node.1 fun n => n.setChild q f.side).cells f.node.1 =
      some (.link f.side (up c) q (rootOf f.sib) f.node.2) := by
    rw [Heap.cells_put_self hcell, Node.setChild_link]
  refine ⟨h.put f.node.1 fun n => n.setChild q f.side, ?_, ⟨hside, ?_, ?_⟩, ?_⟩
  · have hload : (h.load (up (f :: c)) : Except ε _) =
        .ok (.link f.side (up c) (some a) (rootOf f.sib) f.node.2) := Heap.load_eq hcell
    unfold LinkedTree.relink
    rw [hload]
    show (if some a = _ then _ else _) = _
    cases hs : f.side with
    | left =>
      rw [if_pos (by rfl)]
      exact Heap.modify_eq hcell
    | right =>
      -- the other child has another address
      have hne : some a ≠ rootOf f.sib := by
        intro heq
        cases hsib' : f.sib with
        | nil => rw [hsib'] at heq; cases heq
        | node p l r =>
          rw [hsib'] at heq
          obtain rfl : a = p.1 := Option.some.inj heq
          exact ha (by simp [around, hsib'])
      exact (if_neg hne).trans (Heap.modify_eq hcell)
  · refine hsib.frame fun b hb => Heap.cells_put_of_ne ?_
    rintro rfl
    exact hnd'.1 (List.mem_append_left _ hb)
  · refine hrest.frame fun b hb => Heap.cells_put_of_ne ?_
    rintro rfl
    exact hnd'.1 (List.mem_append_right _ hb)
  · intro b hb
    apply Heap.cells_put_of_ne
    rintro rfl
    exact hb (by simp [around])

end Links

/-! ## Changing a linked tree

What an operation makes of a whole tree: a node holds something else, a leaf is attached, a node is
taken out. Each time the change is made in a hole, and the addresses stay different from each other. -/

/-- A linked tree in a hole, and what is around it. -/
theorem linked_plug : Linked h (plug c t) ↔
    Rep h (up c) t ∧ RepAround h (rootOf t) c ∧ (addrs t).Nodup ∧ (around c).Nodup ∧
      (addrs t).Disjoint (around c) := by
  rw [← nodup_plug, ← and_assoc, ← rep_plug]
  exact ⟨fun hl => ⟨hl.rep, hl.nodup⟩, fun hl => ⟨hl.1, hl.2⟩⟩

/-- The cell of a node in a hole. -/
theorem Linked.cells_node (hl : Linked h (plug c (node (a, x) l r))) :
    h.cells a = some { parent := up c, left := rootOf l, right := rootOf r, value := x } :=
  (linked_plug.mp hl).1.1

/-- Changing what a node holds. -/
theorem Linked.setValue (hl : Linked h (plug c (node (a, x) l r))) (g : β → β) :
    Linked (h.put a fun n => { n with value := g n.value }) (plug c (node (a, g x) l r)) := by
  obtain ⟨hrep, haround, hnd, hnda, hdisj⟩ := linked_plug.mp hl
  have hnd' : (addrs (node (a, g x) l r)).Nodup := by simpa using hnd
  have hdisj' : (addrs (node (a, g x) l r)).Disjoint (around c) := by simpa using hdisj
  obtain ⟨hal, har, -⟩ := (nodup_branch (s := .left)).mp hnd
  refine linked_plug.mpr ⟨⟨Heap.cells_put_self hrep.1, ?_, ?_⟩, ?_, hnd', hnda, hdisj'⟩
  · refine hrep.2.1.frame fun b hb => Heap.cells_put_of_ne ?_
    rintro rfl
    exact hal hb
  · refine hrep.2.2.frame fun b hb => Heap.cells_put_of_ne ?_
    rintro rfl
    exact har hb
  · refine haround.frame fun b hb => Heap.cells_put_of_ne ?_
    rintro rfl
    exact hdisj (by simp) hb

/-- A new leaf, below a node that has no child on that side. -/
theorem Linked.attach (hl : Linked h (plug c (branch s (a, x) nil u))) (y : β) :
    Linked ((h.alloc { parent := some a, left := none, right := none, value := y }).put a
        fun n => n.setChild (some h.brk) s)
      (plug c (branch s (a, x) (node (h.brk, y) nil nil) u)) := by
  obtain ⟨hrep, haround, hnd, hnda, hdisj⟩ := linked_plug.mp hl
  obtain ⟨hcell, -, hsib⟩ := rep_branch.mp hrep
  obtain ⟨-, hau, -, hndu, -⟩ := nodup_branch.mp hnd
  have hperm := addrs_branch_perm s (a, x) nil u
  rw [addrs_nil, List.nil_append] at hperm
  have hbrk := hl.brk_notMem
  rw [(addrs_plug_perm c _).mem_iff, List.mem_append, hperm.mem_iff, List.mem_cons] at hbrk
  have hab : a ≠ h.brk := fun heq => hbrk (Or.inl (Or.inl heq.symm))
  -- nothing changes but the new node and the one above it
  have hkeep : ∀ b, b ≠ a → b ≠ h.brk →
      ((h.alloc { parent := some a, left := none, right := none, value := y }).put a
        fun n => n.setChild (some h.brk) s).cells b = h.cells b := by
    intro b hba hbb
    rw [Heap.cells_put_of_ne hba, Heap.cells_alloc_of_ne hbb]
  have hda : a ∉ around c := fun hmem => hdisj (hperm.mem_iff.mpr List.mem_cons_self) hmem
  refine linked_plug.mpr ⟨rep_branch.mpr ⟨?_, ⟨?_, trivial, trivial⟩, ?_⟩, ?_, ?_, hnda, ?_⟩
  · rw [Heap.cells_put_self (Heap.cells_alloc_of_some hcell), Node.setChild_link]
    rfl
  · rw [Heap.cells_put_of_ne hab.symm, Heap.cells_alloc_self]
    rfl
  · refine hsib.frame fun b hb => hkeep b ?_ ?_
    · rintro rfl
      exact hau hb
    · rintro rfl
      exact hbrk (Or.inl (Or.inr hb))
  · rw [root_branch] at haround ⊢
    refine haround.frame fun b hb => hkeep b ?_ ?_
    · rintro rfl
      exact hda hb
    · rintro rfl
      exact hbrk (Or.inr hb)
  · refine nodup_branch.mpr ⟨?_, hau, ?_, hndu, ?_⟩
    · simpa using hab
    · simp
    · intro b hb hbu
      obtain rfl : b = h.brk := by simpa using hb
      exact hbrk (Or.inl (Or.inr hbu))
  · intro b hb hbc
    rw [(addrs_branch_perm s (a, x) _ u).mem_iff, List.mem_append] at hb
    rcases hb with hb | hb
    · obtain rfl : b = h.brk := by simpa using hb
      exact hbrk (Or.inr hbc)
    · exact hdisj (hperm.mem_iff.mpr hb) hbc

section Splice

/-- A node that was taken out is not in the tree any more. -/
theorem notMem_splice (hnd : (addrs (plug c (branch s p u nil))).Nodup) :
    p.1 ∉ addrs (plug c u) := by
  obtain ⟨hndb, -, hdisj⟩ := nodup_plug.mp hnd
  rw [(addrs_plug_perm c u).mem_iff, List.mem_append]
  rintro (hu | hc)
  · exact (nodup_branch.mp hndb).1 hu
  · exact hdisj ((addrs_branch_perm s p u nil).mem_iff.mpr (by simp)) hc

variable [HeapFault ε]

/-- The tree in a hole is replaced by the only child of its root. -/
theorem Linked.splice (hl : Linked h (plug (f :: c) (branch s p u nil))) :
    ∃ h₁ h₂, (relink h (up (f :: c)) (some p.1) (rootOf u) : Except ε _) = .ok h₁ ∧
      (adopt h₁ (rootOf u) (up (f :: c)) : Except ε _) = .ok h₂ ∧
      h₁.cells p.1 = h.cells p.1 ∧ h₂.cells p.1 = h.cells p.1 ∧ Linked h₂ (plug (f :: c) u) := by
  obtain ⟨hrep, haround, hnd, hnda, hdisj⟩ := linked_plug.mp hl
  obtain ⟨-, hu, -⟩ := rep_branch.mp hrep
  obtain ⟨hpu, -, hndu, -⟩ := nodup_branch.mp hnd
  have hperm := addrs_branch_perm s p u nil
  have hpc : p.1 ∉ around (f :: c) := fun hmem => hdisj (hperm.mem_iff.mpr (by simp)) hmem
  have hdisju : (addrs u).Disjoint (around (f :: c)) := fun b hb hbc =>
    hdisj (hperm.mem_iff.mpr (List.mem_append_left _ hb)) hbc
  rw [root_branch] at haround
  obtain ⟨h₁, hrelink, haround₁, hkeep₁⟩ := haround.relink (ε := ε) hnda hpc (rootOf u)
  have hu₁ : Rep h₁ (some p.1) u := hu.frame fun b hb => hkeep₁ b fun hbc => hdisju hb hbc
  obtain ⟨h₂, hadopt, hu₂, hkeep₂⟩ := hu₁.adopt (ε := ε) hndu (up (f :: c))
  have haround₂ : RepAround h₂ (rootOf u) (f :: c) :=
    haround₁.frame fun b hb => hkeep₂ b fun hbu => hdisju hbu hb
  refine ⟨h₁, h₂, hrelink, hadopt, hkeep₁ _ hpc, ?_, ?_⟩
  · rw [hkeep₂ _ hpu, hkeep₁ _ hpc]
  · exact linked_plug.mpr ⟨hu₂, haround₂, hndu, hnda, hdisju⟩

/-- The same for a whole tree. -/
theorem Linked.splice_root (hl : Linked h (branch s p u nil)) :
    ∃ h', (adopt h (rootOf u) none : Except ε _) = .ok h' ∧ h'.cells p.1 = h.cells p.1 ∧
      Linked h' u := by
  obtain ⟨-, hu, -⟩ := rep_branch.mp hl.rep
  obtain ⟨hpu, -, hndu, -⟩ := nodup_branch.mp hl.nodup
  obtain ⟨h', hadopt, hu', hkeep⟩ := hu.adopt (ε := ε) hndu none
  exact ⟨h', hadopt, hkeep _ hpu, hu', hndu⟩

end Splice

/-! ## Rotations

A rotation turns two nodes, a parent and its child, and hands the inner subtree of the child over to the
parent. The two are linked first; the subtree and the node above do not know of it yet, and `Pivoted`
says what they have on record until they are told. -/

section Rotation

variable [HeapFault ε]

/-- The start of a rotation of the node `a` with its child on the side `s`: the two change places,
and the child's inner subtree becomes one of `a`. The child is returned, with that subtree and the
parent it now has; neither of these two knows of it yet. -/
def pivot (s : Side) (h : Heap (Node β)) (a : Ptr) :
    Except ε (Heap (Node β) × Ptr × Ptr × Ptr) := do
  let na ← h.load a
  let x := na.child s
  let nx ← h.load x
  let inner := nx.child s.other
  let y := na.parent
  let h ← h.modify a fun n => { n with parent := x }
  let h ← h.modify a fun n => n.setChild inner s
  let h ← h.modify x fun n => n.setChild a s.other
  let h ← h.modify x fun n => { n with parent := y }
  return (h, x, inner, y)

/-- Two nodes that have changed places. The inner subtree has the parent `wm` on record, and what is
around has `wc` in the hole. -/
structure Pivoted (h : Heap (Node β)) (c : List (Frame β)) (s : Side) (a b : ℕ × β)
    (outer inner sib : Shape β) (wm wc : Ptr) : Prop where
  cell_a : h.cells a.1 = some (.link s (some b.1) (rootOf inner) (rootOf sib) a.2)
  cell_b : h.cells b.1 = some (.link s (up c) (rootOf outer) (some a.1) b.2)
  outer_rep : Rep h (some b.1) outer
  inner_rep : Rep h wm inner
  sib_rep : Rep h (some a.1) sib
  around_rep : RepAround h wc c
  nodup : (addrs inner ++ (around c ++ (a.1 :: b.1 :: (addrs outer ++ addrs sib)))).Nodup

variable {b : ℕ × β} {outer inner sib : Shape β} {wm wc : Ptr}

theorem addrs_turned_perm (c : List (Frame β)) (s : Side) (a b : ℕ × β)
    (outer inner sib : Shape β) :
    (addrs (plug c (branch s b outer (branch s a inner sib)))).Perm
      (addrs inner ++ (around c ++ (a.1 :: b.1 :: (addrs outer ++ addrs sib)))) := by
  have hab := addrs_branch_perm s a inner sib
  refine (addrs_plug_perm c _).trans (((addrs_branch_perm s b outer _).append_right _).trans ?_)
  apply (((hab.cons b.1).append_left _).append_right _).trans
  simp only [List.perm_iff_count, List.count_append, List.count_cons]
  intro z
  omega

theorem addrs_unturned_perm (c : List (Frame β)) (s : Side) (a b : ℕ × β)
    (outer inner sib : Shape β) :
    (addrs (plug c (branch s a (branch s b outer inner) sib))).Perm
      (addrs inner ++ (around c ++ (a.1 :: b.1 :: (addrs outer ++ addrs sib)))) := by
  have hab := addrs_branch_perm s b outer inner
  refine (addrs_plug_perm c _).trans (((addrs_branch_perm s a _ sib).append_right _).trans ?_)
  apply ((hab.append_right _).append_right _).trans
  simp only [List.perm_iff_count, List.count_append, List.count_cons]
  intro z
  omega

/-- The two nodes that a rotation turns are different, and none of the others. -/
theorem unturned_apart {c : List (Frame β)} {a b : ℕ × β} {outer inner sib : Shape β}
    (hnd : (addrs inner ++ (around c ++ (a.1 :: b.1 :: (addrs outer ++ addrs sib)))).Nodup) :
    a.1 ≠ b.1 ∧ ∀ z, z ∈ addrs inner ∨ z ∈ around c ∨ z ∈ addrs outer ∨ z ∈ addrs sib →
      z ≠ a.1 ∧ z ≠ b.1 := by
  have hp : (addrs inner ++ (around c ++ (a.1 :: b.1 :: (addrs outer ++ addrs sib)))).Perm
      ([a.1, b.1] ++ (addrs inner ++ around c ++ addrs outer ++ addrs sib)) := by
    simp only [List.perm_iff_count, List.count_append, List.count_cons]
    intro z
    simp only [List.count_nil]
    omega
  obtain ⟨hpair, -, hdisj⟩ := List.nodup_append'.mp (hp.nodup_iff.mp hnd)
  refine ⟨by simpa using hpair, fun z hz => ?_⟩
  have hnot : z ∉ [a.1, b.1] := by
    intro hmem
    exact hdisj hmem (by simpa [or_assoc] using hz)
  simpa using hnot

/-- **A pivot** changes the links of the two nodes, of the inner subtree and of the parent. -/
theorem Linked.pivot {a : ℕ × β} (hl : Linked h (plug c (branch s a (branch s b outer inner) sib))) :
    ∃ h', (pivot s h (some a.1) : Except ε _) = .ok (h', some b.1, rootOf inner, up c) ∧
      Pivoted h' c s a b outer inner sib (some b.1) (some a.1) := by
  have hnd := (addrs_unturned_perm c s a b outer inner sib).nodup_iff.mp hl.nodup
  obtain ⟨hrep, haround, -⟩ := linked_plug.mp hl
  obtain ⟨hcella, hrepb, hsib⟩ := rep_branch.mp hrep
  obtain ⟨hcellb, houter, hinner⟩ := rep_branch.mp hrepb
  rw [root_branch] at haround hcella
  obtain ⟨hab, hapart⟩ := unturned_apart hnd
  -- the writes to `a`, then those to `b`
  have ha₁ := Heap.cells_put_self (f := fun n : Node β => { n with parent := some b.1 }) hcella
  rw [Node.setParent_link] at ha₁
  have ha₂ := Heap.cells_put_self (f := fun n : Node β => n.setChild (rootOf inner) s) ha₁
  rw [Node.setChild_link] at ha₂
  have hb₂ : ((h.put a.1 fun n => { n with parent := some b.1 }).put a.1 fun n =>
      n.setChild (rootOf inner) s).cells b.1 =
        some (.link s (some a.1) (rootOf outer) (rootOf inner) b.2) := by
    rw [Heap.cells_put_of_ne hab.symm, Heap.cells_put_of_ne hab.symm, hcellb]
  have hb₃ := Heap.cells_put_self (f := fun n : Node β => n.setChild (some a.1) s.other) hb₂
  rw [Node.setChild_link_other] at hb₃
  have hb₄ := Heap.cells_put_self (f := fun n : Node β => { n with parent := up c }) hb₃
  rw [Node.setParent_link] at hb₄
  have hkeep : ∀ z, z ≠ a.1 ∧ z ≠ b.1 →
      ((((h.put a.1 fun n => { n with parent := some b.1 }).put a.1 fun n =>
        n.setChild (rootOf inner) s).put b.1 fun n => n.setChild (some a.1) s.other).put b.1 fun n =>
          { n with parent := up c }).cells z = h.cells z := by
    rintro z ⟨hza, hzb⟩
    rw [Heap.cells_put_of_ne hzb, Heap.cells_put_of_ne hzb, Heap.cells_put_of_ne hza,
      Heap.cells_put_of_ne hza]
  refine ⟨_, ?_, ⟨?_, hb₄, ?_, ?_, ?_, ?_, hnd⟩⟩
  · have hloada : (h.load (some a.1) : Except ε _) = .ok _ := Heap.load_eq hcella
    have hloadb : (h.load (some b.1) : Except ε _) = .ok _ := Heap.load_eq hcellb
    have hm₁ := Heap.modify_eq (ε := ε) (f := fun n : Node β => { n with parent := some b.1 }) hcella
    have hm₂ := Heap.modify_eq (ε := ε) (f := fun n : Node β => n.setChild (rootOf inner) s) ha₁
    have hm₃ := Heap.modify_eq (ε := ε) (f := fun n : Node β => n.setChild (some a.1) s.other) hb₂
    have hm₄ := Heap.modify_eq (ε := ε) (f := fun n : Node β => { n with parent := up c }) hb₃
    unfold LinkedTree.pivot
    simp only [hloada, hloadb, hm₁, hm₂, hm₃, hm₄, Node.child_link, Node.child_link_other,
      Node.parent_link, bind, Except.bind, pure, Except.pure]
  · rw [Heap.cells_put_of_ne hab, Heap.cells_put_of_ne hab, ha₂]
  · exact houter.frame fun z hz => hkeep z (hapart z (Or.inr (Or.inr (Or.inl hz))))
  · exact hinner.frame fun z hz => hkeep z (hapart z (Or.inl hz))
  · exact hsib.frame fun z hz => hkeep z (hapart z (Or.inr (Or.inr (Or.inr hz))))
  · exact haround.frame fun z hz => hkeep z (hapart z (Or.inr (Or.inl hz)))

/-- The inner subtree learns of its new parent. -/
theorem Pivoted.adopt {a : ℕ × β} (hp : Pivoted h c s a b outer inner sib wm wc) :
    ∃ h', (adopt h (rootOf inner) (some a.1) : Except ε _) = .ok h' ∧
      Pivoted h' c s a b outer inner sib (some a.1) wc := by
  obtain ⟨hndi, -, hdisj⟩ := List.nodup_append'.mp hp.nodup
  obtain ⟨h', hadopt, hinner, hkeep⟩ := hp.inner_rep.adopt (ε := ε) hndi (some a.1)
  have hkeep' : ∀ z, z ∈ around c ++ (a.1 :: b.1 :: (addrs outer ++ addrs sib)) →
      h'.cells z = h.cells z := fun z hz => hkeep z fun hzi => hdisj hzi hz
  refine ⟨h', hadopt, ⟨?_, ?_, ?_, hinner, ?_, ?_, hp.nodup⟩⟩
  · rw [hkeep' a.1 (by simp), hp.cell_a]
  · rw [hkeep' b.1 (by simp), hp.cell_b]
  · exact hp.outer_rep.frame fun z hz => hkeep' z (by simp [hz])
  · exact hp.sib_rep.frame fun z hz => hkeep' z (by simp [hz])
  · exact hp.around_rep.frame fun z hz => hkeep' z (by simp [hz])

/-- The node above learns of its new child; a root has none. -/
theorem Pivoted.relink {a : ℕ × β} (hp : Pivoted h c s a b outer inner sib wm (some a.1)) :
    ∃ h', (if up c ≠ none then relink h (up c) (some a.1) (some b.1) else .ok h : Except ε _) =
        .ok h' ∧
      Pivoted h' c s a b outer inner sib wm (some b.1) := by
  cases c with
  | nil =>
    exact ⟨h, rfl, hp.cell_a, hp.cell_b, hp.outer_rep, hp.inner_rep, hp.sib_rep, trivial, hp.nodup⟩
  | cons f c =>
    obtain ⟨-, hnd, hdisji⟩ := List.nodup_append'.mp hp.nodup
    obtain ⟨hndc, -, hdisj⟩ := List.nodup_append'.mp hnd
    have hac : a.1 ∉ around (f :: c) := fun hmem => hdisj hmem (by simp)
    obtain ⟨h', hrelink, haround, hkeep⟩ := hp.around_rep.relink (ε := ε) hndc hac (some b.1)
    have hkeep' : ∀ z, z ∈ a.1 :: b.1 :: (addrs outer ++ addrs sib) → h'.cells z = h.cells z :=
      fun z hz => hkeep z fun hzc => hdisj hzc hz
    refine ⟨h', ?_, ⟨?_, ?_, ?_, ?_, ?_, haround, hp.nodup⟩⟩
    · exact (if_pos (show up (f :: c) ≠ none from Option.some_ne_none _)).trans hrelink
    · rw [hkeep' a.1 (by simp), hp.cell_a]
    · rw [hkeep' b.1 (by simp), hp.cell_b]
    · exact hp.outer_rep.frame fun z hz => hkeep' z (by simp [hz])
    · refine hp.inner_rep.frame fun z hz => hkeep z fun hzc => hdisji hz ?_
      simp [hzc]
    · exact hp.sib_rep.frame fun z hz => hkeep' z (by simp [hz])

/-- **Two nodes that changed places, and that everything around knows of, are linked again.** -/
theorem Pivoted.linked {a : ℕ × β}
    (hp : Pivoted h c s a b outer inner sib (some a.1) (some b.1)) :
    Linked h (plug c (branch s b outer (branch s a inner sib))) := by
  refine ⟨rep_plug.mpr ⟨rep_branch.mpr ⟨?_, hp.outer_rep, rep_branch.mpr ⟨?_, ?_, ?_⟩⟩, ?_⟩, ?_⟩
  · rw [root_branch]
    exact hp.cell_b
  · exact hp.cell_a
  · exact hp.inner_rep
  · exact hp.sib_rep
  · rw [root_branch]
    exact hp.around_rep
  · exact (addrs_turned_perm c s a b outer inner sib).nodup_iff.mpr hp.nodup

end Rotation

/-! ## The blocks of a linked tree

The nodes of a linked tree are blocks in use, one each. When there are no others, the tree accounts for
all of the memory. -/

theorem length_addrs (t : Shape β) : (addrs t).length = t.numNodes := by
  rw [addrs, List.length_map, length_inorder]

theorem Linked.addrs_subset (hl : Linked h t) : (addrs t).toFinset ⊆ h.inUse := by
  intro a ha
  exact Heap.mem_inUse.mpr (hl.rep.exists_cell (List.mem_toFinset.mp ha))

/-- Where there are as many blocks in use as nodes, no block is lost. -/
theorem Linked.inUse_eq (hl : Linked h t) (hcard : h.inUse.card = t.numNodes) :
    h.inUse = (addrs t).toFinset := by
  refine (Finset.eq_of_subset_of_card_le hl.addrs_subset ?_).symm
  rw [hcard, List.toFinset_card_of_nodup hl.nodup, length_addrs]

end LinkedTree
