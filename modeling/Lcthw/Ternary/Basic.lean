import Mathlib

/-!
# Ternary — ternary search trees over any ordered alphabet

A ternary search tree stores one character a node. The `low` and `high` links of a node lead to
the nodes of the same level that carry smaller and larger characters, its `equal` link leads to
the level of the next character. A string is stored by the node at which its walk ends.

A link is `nil`, a `node`, or `dead`: a link whose target is no longer a node. Every walk here is
total and stops at a dead link, so that a client can tell a missing string from a walk that ran
into one.

* **`walk`**: the link at which the search for a string ends.
* **`get?`**: the record of a nonempty string, read through `walk`.
* **`alter`**: the record of one string changed in place. It changes that record and no other
  (`get?_alter`), without any assumption on the order of the tree.
* **`shape`**: the tree without its records. Walks only look at it (`walk_shape`), so whatever
  keeps the shape keeps every walk.
* **`Ordered`** and **`Live`**: the search order of every level, and the absence of dead links.
-/

namespace Ternary

inductive Tree (α β : Type*) where
  | nil
  | dead
  | node (splitchar : α) (low high equal : Tree α β) (data : β)
  deriving DecidableEq

namespace Tree

variable {α β γ : Type*}

/-- The record of a link, if the link leads to a node. -/
def data? : Tree α β → Option β
  | node _ _ _ _ d => some d
  | nil => none
  | dead => none

def map (f : β → γ) : Tree α β → Tree α γ
  | nil => nil
  | dead => dead
  | node c low high equal d => node c (low.map f) (high.map f) (equal.map f) (f d)

/-- The tree without its records: links and split characters only. -/
def shape (t : Tree α β) : Tree α Unit :=
  t.map fun _ => ()

@[simp] theorem shape_nil : (nil : Tree α β).shape = nil := rfl

@[simp] theorem shape_dead : (dead : Tree α β).shape = dead := rfl

@[simp] theorem shape_node (c : α) (low high equal : Tree α β) (d : β) :
    (node c low high equal d).shape = node c low.shape high.shape equal.shape () := rfl

@[simp] theorem shape_eq_nil {t : Tree α β} : t.shape = nil ↔ t = nil := by
  cases t <;> simp [shape, map]

@[simp] theorem shape_eq_dead {t : Tree α β} : t.shape = dead ↔ t = dead := by
  cases t <;> simp [shape, map]

theorem shape_map (f : β → γ) (t : Tree α β) : (t.map f).shape = t.shape := by
  induction t with
  | nil => rfl
  | dead => rfl
  | node c low high equal d ihl ihh ihe => simp [map, ihl, ihh, ihe]

/-- No link of the tree is dead. -/
def Live : Tree α β → Prop
  | nil => True
  | dead => False
  | node _ low high equal _ => low.Live ∧ high.Live ∧ equal.Live

/-- The characters of one level: those a walk can meet through `low` and `high` alone. -/
def level : Tree α β → List α
  | nil => []
  | dead => []
  | node c low high _ _ => c :: (low.level ++ high.level)

theorem live_shape {t : Tree α β} : t.shape.Live ↔ t.Live := by
  induction t with
  | nil => rfl
  | dead => rfl
  | node c low high equal d ihl ihh ihe => simp [Live, ihl, ihh, ihe]

theorem level_shape (t : Tree α β) : t.shape.level = t.level := by
  induction t with
  | nil => rfl
  | dead => rfl
  | node c low high equal d ihl ihh _ => simp [level, ihl, ihh]

section Order

variable [LinearOrder α]

/-- Every level is a binary search tree on its characters. -/
def Ordered : Tree α β → Prop
  | nil => True
  | dead => True
  | node c low high equal _ =>
      (∀ x ∈ low.level, x < c) ∧ (∀ x ∈ high.level, c < x) ∧
        low.Ordered ∧ high.Ordered ∧ equal.Ordered

theorem ordered_shape {t : Tree α β} : t.shape.Ordered ↔ t.Ordered := by
  induction t with
  | nil => rfl
  | dead => rfl
  | node c low high equal d ihl ihh ihe =>
    simp only [shape_node, Ordered, level_shape, ihl, ihh, ihe]

/-! ## Walking a string

All walks compare in the same order: below, above, or the same character. Each has one equation for each
of the three, and proofs use these and do not unfold the walk. -/

/-- The link at which the walk for a string ends: `nil` when the string has no node, `dead` when
the walk runs into a dead link. -/
def walk : Tree α β → List α → Tree α β
  | t, [] => t
  | nil, _ :: _ => nil
  | dead, _ :: _ => dead
  | node c low high equal d, k :: ks =>
      if k < c then low.walk (k :: ks)
      else if k = c then
        if ks = [] then node c low high equal d else equal.walk ks
      else high.walk (k :: ks)

/-- The record stored for a nonempty string. -/
def get? (t : Tree α β) : List α → Option β
  | [] => none
  | k :: ks => (t.walk (k :: ks)).data?

@[simp] theorem walk_nil (p : List α) : (nil : Tree α β).walk p = nil := by
  cases p <;> rfl

@[simp] theorem walk_dead (p : List α) : (dead : Tree α β).walk p = dead := by
  cases p <;> rfl

section Node

variable {c k : α} {low high equal : Tree α β} {d : β}

theorem walk_lt (h : k < c) (ks : List α) :
    (node c low high equal d).walk (k :: ks) = low.walk (k :: ks) := by
  simp [walk, h]

theorem walk_gt (h : c < k) (ks : List α) :
    (node c low high equal d).walk (k :: ks) = high.walk (k :: ks) := by
  simp [walk, h.not_gt, h.ne']

@[simp] theorem walk_self : (node c low high equal d).walk [c] = node c low high equal d := by
  simp [walk]

@[simp] theorem walk_self_cons (ks : List α) :
    (node c low high equal d).walk (c :: k :: ks) = equal.walk (k :: ks) := by
  simp [walk]

end Node

@[simp] theorem get?_empty (t : Tree α β) : t.get? [] = none := rfl

@[simp] theorem get?_nil (p : List α) : (nil : Tree α β).get? p = none := by
  cases p <;> rfl

@[simp] theorem get?_dead (p : List α) : (dead : Tree α β).get? p = none := by
  cases p <;> rfl

section Node

variable {c k : α} {low high equal : Tree α β} {d : β}

theorem get?_lt (h : k < c) (ks : List α) :
    (node c low high equal d).get? (k :: ks) = low.get? (k :: ks) := by
  simp [get?, walk_lt h]

theorem get?_gt (h : c < k) (ks : List α) :
    (node c low high equal d).get? (k :: ks) = high.get? (k :: ks) := by
  simp [get?, walk_gt h]

@[simp] theorem get?_self : (node c low high equal d).get? [c] = some d := by
  simp [get?, data?]

@[simp] theorem get?_self_cons (ks : List α) :
    (node c low high equal d).get? (c :: k :: ks) = equal.get? (k :: ks) := by
  simp [get?]

end Node

theorem get?_of_ne_nil (t : Tree α β) {p : List α} (hp : p ≠ []) :
    t.get? p = (t.walk p).data? := by
  cases p with
  | nil => exact absurd rfl hp
  | cons k ks => rfl

theorem ne_nil_of_get? {t : Tree α β} {p : List α} {d : β} (h : t.get? p = some d) : p ≠ [] := by
  rintro rfl
  cases h

/-- The walk for a stored string ends at a node, which has the record. -/
theorem walk_of_get? {t : Tree α β} {p : List α} {d : β} (h : t.get? p = some d) :
    ∃ c low high equal, t.walk p = node c low high equal d := by
  rw [t.get?_of_ne_nil (ne_nil_of_get? h)] at h
  cases hw : t.walk p with
  | nil => simp [hw, data?] at h
  | dead => simp [hw, data?] at h
  | node c low high equal d' =>
    obtain rfl : d' = d := by simpa [hw, data?] using h
    exact ⟨c, low, high, equal, rfl⟩

/-- A walk ends in an ordered tree. -/
theorem Ordered.walk {t : Tree α β} (h : t.Ordered) (p : List α) : (t.walk p).Ordered := by
  induction t generalizing p with
  | nil => simpa using h
  | dead => simpa using h
  | node c low high equal d ihl ihh ihe =>
    obtain ⟨-, -, hol, hoh, hoe⟩ := id h
    match p with
    | [] => exact h
    | k :: ks =>
      rcases lt_trichotomy k c with hlt | rfl | hgt
      · rw [walk_lt hlt]
        exact ihl hol _
      · cases ks with
        | nil => rwa [walk_self]
        | cons j js =>
          rw [walk_self_cons]
          exact ihe hoe _
      · rw [walk_gt hgt]
        exact ihh hoh _

/-- The node of a string carries its last character. -/
theorem getLast?_of_walk {t low high equal : Tree α β} {c : α} {d : β} {p : List α} (hp : p ≠ [])
    (h : t.walk p = node c low high equal d) : p.getLast? = some c := by
  induction t generalizing p with
  | nil => simp at h
  | dead => simp at h
  | node c' low' high' equal' d' ihl ihh ihe =>
    obtain ⟨k, ks, rfl⟩ := List.exists_cons_of_ne_nil hp
    rcases lt_trichotomy k c' with hlt | rfl | hgt
    · rw [walk_lt hlt] at h
      exact ihl hp h
    · cases ks with
      | nil =>
        rw [walk_self] at h
        cases h
        rfl
      | cons j js =>
        rw [walk_self_cons] at h
        rw [List.getLast?_cons_cons]
        exact ihe (by simp) h
    · rw [walk_gt hgt] at h
      exact ihh hp h

/-- Walks look at the shape only. -/
theorem walk_shape (t : Tree α β) (p : List α) : t.shape.walk p = (t.walk p).shape := by
  induction t generalizing p with
  | nil => simp
  | dead => simp
  | node c low high equal d ihl ihh ihe =>
    cases p with
    | nil => rfl
    | cons k ks =>
      simp only [shape_node, walk, ihl, ihh, ihe]
      split_ifs <;> rfl

theorem walk_eq_nil_of_shape {t u : Tree α β} (h : t.shape = u.shape) (p : List α) :
    t.walk p = nil ↔ u.walk p = nil := by
  rw [← shape_eq_nil, ← walk_shape, h, walk_shape, shape_eq_nil]

theorem walk_eq_dead_of_shape {t u : Tree α β} (h : t.shape = u.shape) (p : List α) :
    t.walk p = dead ↔ u.walk p = dead := by
  rw [← shape_eq_dead, ← walk_shape, h, walk_shape, shape_eq_dead]

theorem isSome_get?_of_shape {t u : Tree α β} (h : t.shape = u.shape) (p : List α) :
    (t.get? p).isSome = (u.get? p).isSome := by
  cases p with
  | nil => rfl
  | cons k ks =>
    have hnil := walk_eq_nil_of_shape h (k :: ks)
    have hdead := walk_eq_dead_of_shape h (k :: ks)
    simp only [get?]
    cases ht : t.walk (k :: ks) <;> cases hu : u.walk (k :: ks) <;> simp_all [data?]

/-- A walk in a live tree does not end at a dead link. -/
theorem Live.walk_ne_dead {t : Tree α β} (h : t.Live) (p : List α) : t.walk p ≠ dead := by
  induction t generalizing p with
  | nil => simp
  | dead => exact h.elim
  | node c low high equal d ihl ihh ihe =>
    obtain ⟨hl, hh, he⟩ := h
    match p with
    | [] => simp [walk]
    | k :: ks =>
      rcases lt_trichotomy k c with hlt | rfl | hgt
      · rw [walk_lt hlt]
        exact ihl hl _
      · cases ks with
        | nil => simp
        | cons j js =>
          rw [walk_self_cons]
          exact ihe he _
      · rw [walk_gt hgt]
        exact ihh hh _

/-- It ends in a live tree. -/
theorem Live.walk {t : Tree α β} (h : t.Live) (p : List α) : (t.walk p).Live := by
  induction t generalizing p with
  | nil => simpa using h
  | dead => exact h.elim
  | node c low high equal d ihl ihh ihe =>
    match p with
    | [] => exact h
    | k :: ks =>
      rcases lt_trichotomy k c with hlt | rfl | hgt
      · rw [walk_lt hlt]
        exact ihl h.1 _
      · cases ks with
        | nil => rwa [walk_self]
        | cons j js =>
          rw [walk_self_cons]
          exact ihe h.2.2 _
      · rw [walk_gt hgt]
        exact ihh h.2.1 _

/-- In a live tree a missing record is a missing node. -/
theorem Live.get?_eq_none {t : Tree α β} (h : t.Live) {p : List α} (hp : p ≠ []) :
    t.get? p = none ↔ t.walk p = nil := by
  rw [t.get?_of_ne_nil hp]
  have hdead := h.walk_ne_dead p
  cases hw : t.walk p with
  | nil => simp [data?]
  | dead => exact absurd hw hdead
  | node c low high equal d => simp [data?]

/-- A string whose first character is not in the level has no record. -/
theorem get?_of_not_mem_level {t : Tree α β} {k : α} (h : k ∉ t.level) (ks : List α) :
    t.get? (k :: ks) = none := by
  induction t with
  | nil => simp
  | dead => simp
  | node c low high equal d ihl ihh _ =>
    simp only [level, List.mem_cons, List.mem_append, not_or] at h
    obtain ⟨hne, hl, hh⟩ := h
    rcases lt_or_gt_of_ne hne with hlt | hgt
    · rw [get?_lt hlt, ihl hl]
    · rw [get?_gt hgt, ihh hh]

/-- The strings that go on from a node are those of its `equal` link. -/
theorem get?_append_of_walk {t low high equal : Tree α β} {c : α} {d : β} {p w : List α}
    (h : t.walk p = node c low high equal d) (hp : p ≠ []) (hw : w ≠ []) :
    t.get? (p ++ w) = equal.get? w := by
  induction t generalizing p with
  | nil => simp at h
  | dead => simp at h
  | node c' low' high' equal' d' ihl ihh ihe =>
    obtain ⟨k, ks, rfl⟩ := List.exists_cons_of_ne_nil hp
    rcases lt_trichotomy k c' with hlt | rfl | hgt
    · rw [walk_lt hlt] at h
      rw [List.cons_append, get?_lt hlt]
      exact ihl h hp
    · cases ks with
      | nil =>
        rw [walk_self] at h
        cases h
        obtain ⟨j, js, rfl⟩ := List.exists_cons_of_ne_nil hw
        exact get?_self_cons js
      | cons j js =>
        rw [walk_self_cons] at h
        exact (get?_self_cons (js ++ w)).trans (ihe h (by simp))
    · rw [walk_gt hgt] at h
      rw [List.cons_append, get?_gt hgt]
      exact ihh h hp

/-- Every nonempty prefix of a stored string has a node of its own. -/
theorem get?_isSome_of_prefix {t : Tree α β} {p q : List α} (hp : p ≠ []) (hpq : p <+: q)
    (hq : (t.get? q).isSome) : (t.get? p).isSome := by
  induction t generalizing p q with
  | nil => simp at hq
  | dead => simp at hq
  | node c low high equal d ihl ihh ihe =>
    obtain ⟨k, ks, rfl⟩ := List.exists_cons_of_ne_nil hp
    obtain ⟨rest, rfl⟩ := hpq
    rcases lt_trichotomy k c with hlt | rfl | hgt
    · rw [List.cons_append, get?_lt hlt] at hq
      rw [get?_lt hlt]
      exact ihl hp ⟨rest, rfl⟩ hq
    · cases ks with
      | nil => simp
      | cons j js =>
        rw [List.cons_append, List.cons_append, get?_self_cons] at hq
        rw [get?_self_cons]
        exact ihe (by simp) ⟨rest, rfl⟩ hq
    · rw [List.cons_append, get?_gt hgt] at hq
      rw [get?_gt hgt]
      exact ihh hp ⟨rest, rfl⟩ hq

/-! ## Changing one record in place

A change in place goes along the walk and keeps every link on it, so whatever is said of links is said
before and after. -/

/-- Apply `f` to the record of the string, if it has one. -/
def alter (f : β → β) : Tree α β → List α → Tree α β
  | t, [] => t
  | nil, _ :: _ => nil
  | dead, _ :: _ => dead
  | node c low high equal d, k :: ks =>
      if k < c then node c (low.alter f (k :: ks)) high equal d
      else if k = c then
        if ks = [] then node c low high equal (f d) else node c low high (equal.alter f ks) d
      else node c low (high.alter f (k :: ks)) equal d

@[simp] theorem alter_empty (f : β → β) (t : Tree α β) : t.alter f [] = t := by
  cases t <;> rfl

@[simp] theorem alter_nil (f : β → β) (p : List α) : (nil : Tree α β).alter f p = nil := by
  cases p <;> rfl

@[simp] theorem alter_dead (f : β → β) (p : List α) : (dead : Tree α β).alter f p = dead := by
  cases p <;> rfl

section Node

variable {c k : α} {low high equal : Tree α β} {d : β} {f : β → β}

theorem alter_lt (h : k < c) (ks : List α) :
    (node c low high equal d).alter f (k :: ks) =
      node c (low.alter f (k :: ks)) high equal d := by
  simp [alter, h]

theorem alter_gt (h : c < k) (ks : List α) :
    (node c low high equal d).alter f (k :: ks) =
      node c low (high.alter f (k :: ks)) equal d := by
  simp [alter, h.not_gt, h.ne']

@[simp] theorem alter_self :
    (node c low high equal d).alter f [c] = node c low high equal (f d) := by
  simp [alter]

@[simp] theorem alter_self_cons (ks : List α) :
    (node c low high equal d).alter f (c :: k :: ks) =
      node c low high (equal.alter f (k :: ks)) d := by
  simp [alter]

end Node

/-- Changing a record keeps links and split characters. -/
@[simp] theorem shape_alter (f : β → β) (t : Tree α β) (p : List α) :
    (t.alter f p).shape = t.shape := by
  induction t generalizing p with
  | nil => simp
  | dead => simp
  | node c low high equal d ihl ihh ihe =>
    cases p with
    | nil => simp
    | cons k ks =>
      simp only [alter]
      split_ifs <;> simp [ihl, ihh, ihe]

/-- **One record changes, every other record is kept.** No order is needed: a node is reached
only by the string its own links spell. -/
theorem get?_alter (f : β → β) (t : Tree α β) (q p : List α) :
    (t.alter f q).get? p = if p = q then (t.get? q).map f else t.get? p := by
  induction t generalizing p q with
  | nil => simp
  | dead => simp
  | node c low high equal d ihl ihh ihe =>
    match p, q with
    | [], _ :: _ => simp
    | p, [] =>
      by_cases hp : p = []
      · simp [hp]
      · simp [hp]
    | k :: ks, j :: js =>
      -- the walk of `q` decides which subtree is rebuilt, the walk of `p` which one is read
      rcases lt_trichotomy j c with hjlt | rfl | hjgt
      · rw [alter_lt hjlt, get?_lt hjlt]
        rcases lt_trichotomy k c with hlt | rfl | hgt
        · rw [get?_lt hlt, get?_lt hlt, ihl]
        · have hne : k :: ks ≠ j :: js := by simp [hjlt.ne']
          cases ks <;> simp [hne]
        · have hne : k :: ks ≠ j :: js := by simp [(hjlt.trans hgt).ne']
          rw [get?_gt hgt, get?_gt hgt, if_neg hne]
      · rcases lt_trichotomy k j with hlt | rfl | hgt
        · have hne : k :: ks ≠ j :: js := by simp [hlt.ne]
          cases js <;> simp [get?_lt hlt, hne]
        · cases js <;> cases ks <;> simp [ihe]
        · have hne : k :: ks ≠ j :: js := by simp [hgt.ne']
          cases js <;> simp [get?_gt hgt, hne]
      · rw [alter_gt hjgt, get?_gt hjgt]
        rcases lt_trichotomy k c with hlt | rfl | hgt
        · have hne : k :: ks ≠ j :: js := by simp [(hlt.trans hjgt).ne]
          rw [get?_lt hlt, get?_lt hlt, if_neg hne]
        · have hne : k :: ks ≠ j :: js := by simp [hjgt.ne]
          cases ks <;> simp [hne]
        · rw [get?_gt hgt, get?_gt hgt, ihh]

/-- The same change made to several records. -/
theorem get?_foldl_alter (f : β → β) {qs : List (List α)} (hqs : qs.Nodup) (t : Tree α β)
    (p : List α) :
    (qs.foldl (fun t q => t.alter f q) t).get? p =
      if p ∈ qs then (t.get? p).map f else t.get? p := by
  induction qs generalizing t with
  | nil => simp
  | cons q qs ih =>
    obtain ⟨hq, hqs⟩ := List.nodup_cons.mp hqs
    rw [List.foldl_cons, ih hqs, get?_alter]
    by_cases hp : p = q
    · subst hp
      simp [hq]
    · simp [hp]

/-- Two changes of one record are one change. -/
theorem alter_alter (f g : β → β) (t : Tree α β) (p : List α) :
    (t.alter f p).alter g p = t.alter (g ∘ f) p := by
  induction t generalizing p with
  | nil => simp
  | dead => simp
  | node c low high equal d ihl ihh ihe =>
    match p with
    | [] => simp
    | k :: ks =>
      rcases lt_trichotomy k c with hlt | rfl | hgt
      · rw [alter_lt hlt, alter_lt hlt, alter_lt hlt, ihl]
      · cases ks with
        | nil => simp
        | cons j js => rw [alter_self_cons, alter_self_cons, alter_self_cons, ihe]
      · rw [alter_gt hgt, alter_gt hgt, alter_gt hgt, ihh]

/-- Nothing changes when the record of the string, if there is one, is a fixed point. -/
theorem alter_eq_self {f : β → β} {t : Tree α β} {p : List α}
    (h : ∀ d, t.get? p = some d → f d = d) : t.alter f p = t := by
  induction t generalizing p with
  | nil => simp
  | dead => simp
  | node c low high equal d ihl ihh ihe =>
    match p with
    | [] => simp
    | k :: ks =>
      rcases lt_trichotomy k c with hlt | rfl | hgt
      · rw [alter_lt hlt, ihl (by simpa only [get?_lt hlt] using h)]
      · cases ks with
        | nil => rw [alter_self, h d get?_self]
        | cons j js => rw [alter_self_cons, ihe (by simpa only [get?_self_cons] using h)]
      · rw [alter_gt hgt, ihh (by simpa only [get?_gt hgt] using h)]

end Order

end Tree

end Ternary
