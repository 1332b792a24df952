import Lcthw.Ternary.Basic

/-!
# Ternary — routes: naming the nodes of a tree

A pointer to a node of a tree is modelled by the route of links that leads to it from the root.
Nodes never move in a ternary search tree, so a route stays valid while records change and while
new nodes are hung below.

* **`follow`**, **`modify`**, **`graft`**: the link at a route, the record at a route changed in
  place, the link at a route replaced.
* **`spell`**: the string of the node at a route.
* **`route`**: the route a walk takes; `follow_route` and `spell_route` tie it to `walk`.
* **`route_of_spell`**: in an ordered tree, the walk of the string that a route spells takes that
  route. This is where the order of the levels is used.
* **`get?_of_spell`**, **`alter_eq_modify`**: reading and changing a record through a pointer is
  reading and changing it by name.
-/

namespace Ternary

inductive Dir where
  | low
  | high
  | equal
  deriving DecidableEq

abbrev Route := List Dir

namespace Tree

variable {α β : Type*}

/-- The link at the end of a route. A route that leaves the tree ends at the link it leaves
through. -/
def follow : Tree α β → Route → Tree α β
  | t, [] => t
  | nil, _ :: _ => nil
  | dead, _ :: _ => dead
  | node _ low _ _ _, .low :: r => low.follow r
  | node _ _ high _ _, .high :: r => high.follow r
  | node _ _ _ equal _, .equal :: r => equal.follow r

/-- Apply `f` to the record of the node at a route. -/
def modify (f : β → β) : Tree α β → Route → Tree α β
  | nil, _ => nil
  | dead, _ => dead
  | node c low high equal d, [] => node c low high equal (f d)
  | node c low high equal d, .low :: r => node c (low.modify f r) high equal d
  | node c low high equal d, .high :: r => node c low (high.modify f r) equal d
  | node c low high equal d, .equal :: r => node c low high (equal.modify f r) d

/-- Make the link at a route lead to `s`. -/
def graft : Tree α β → Route → Tree α β → Tree α β
  | _, [], s => s
  | nil, _ :: _, _ => nil
  | dead, _ :: _, _ => dead
  | node c low high equal d, .low :: r, s => node c (low.graft r s) high equal d
  | node c low high equal d, .high :: r, s => node c low (high.graft r s) equal d
  | node c low high equal d, .equal :: r, s => node c low high (equal.graft r s) d

/-- The string of the node at a route: the characters left through `equal` links, then its own. -/
def spell : Tree α β → Route → Option (List α)
  | nil, _ => none
  | dead, _ => none
  | node c _ _ _ _, [] => some [c]
  | node _ low _ _ _, .low :: r => low.spell r
  | node _ _ high _ _, .high :: r => high.spell r
  | node c _ _ equal _, .equal :: r => (equal.spell r).map (c :: ·)

@[simp] theorem follow_root (t : Tree α β) : t.follow [] = t := by
  cases t <;> rfl

@[simp] theorem follow_nil (r : Route) : (nil : Tree α β).follow r = nil := by
  cases r <;> rfl

@[simp] theorem follow_dead (r : Route) : (dead : Tree α β).follow r = dead := by
  cases r <;> rfl

@[simp] theorem modify_nil (f : β → β) (r : Route) : (nil : Tree α β).modify f r = nil := by
  cases r <;> rfl

@[simp] theorem modify_dead (f : β → β) (r : Route) : (dead : Tree α β).modify f r = dead := by
  cases r <;> rfl

@[simp] theorem spell_nil (r : Route) : (nil : Tree α β).spell r = none := by
  cases r <;> rfl

@[simp] theorem spell_dead (r : Route) : (dead : Tree α β).spell r = none := by
  cases r <;> rfl

/-- A route spells a string exactly when it ends at a node. -/
theorem isSome_spell (t : Tree α β) (r : Route) :
    (t.spell r).isSome = (t.follow r).data?.isSome := by
  induction t generalizing r with
  | nil => simp [data?]
  | dead => simp [data?]
  | node c low high equal d ihl ihh ihe =>
    cases r with
    | nil => rfl
    | cons link r =>
      cases link with
      | low => exact ihl r
      | high => exact ihh r
      | equal => simpa [spell, follow] using ihe r

theorem spell_shape (t : Tree α β) (r : Route) : t.shape.spell r = t.spell r := by
  induction t generalizing r with
  | nil => simp
  | dead => simp
  | node c low high equal d ihl ihh ihe =>
    match r with
    | [] => rfl
    | .low :: r => exact ihl r
    | .high :: r => exact ihh r
    | .equal :: r => simp [spell, ihe r]

@[simp] theorem shape_modify (f : β → β) (t : Tree α β) (r : Route) :
    (t.modify f r).shape = t.shape := by
  induction t generalizing r with
  | nil => simp
  | dead => simp
  | node c low high equal d ihl ihh ihe =>
    match r with
    | [] => rfl
    | .low :: r => simp [modify, ihl]
    | .high :: r => simp [modify, ihh]
    | .equal :: r => simp [modify, ihe]

@[simp] theorem spell_modify (f : β → β) (t : Tree α β) (r s : Route) :
    (t.modify f r).spell s = t.spell s := by
  rw [← spell_shape, shape_modify, spell_shape]

/-- The record at a route after the record at a route was changed. -/
theorem data?_follow_modify (f : β → β) (t : Tree α β) (r s : Route) :
    ((t.modify f r).follow s).data? =
      if s = r then (t.follow r).data?.map f else (t.follow s).data? := by
  induction t generalizing r s with
  | nil => simp [data?]
  | dead => simp [data?]
  | node c low high equal d ihl ihh ihe =>
    cases r with
    | nil =>
      cases s with
      | nil => rfl
      | cons link s => cases link <;> rfl
    | cons link r =>
      cases s with
      | nil => cases link <;> rfl
      | cons link' s =>
        -- routes that part here cannot meet again below
        by_cases hlink : link' = link
        · subst hlink
          cases link' with
          | low => simpa [modify, follow] using ihl r s
          | high => simpa [modify, follow] using ihh r s
          | equal => simpa [modify, follow] using ihe r s
        · rw [if_neg fun h => hlink (List.cons.inj h).1]
          cases link <;> cases link' <;> first | contradiction | rfl

/-- Only what `f` does to the record at the route matters. -/
theorem modify_congr {f g : β → β} {t : Tree α β} {r : Route}
    (h : ∀ d, (t.follow r).data? = some d → f d = g d) : t.modify f r = t.modify g r := by
  induction t generalizing r with
  | nil => simp
  | dead => simp
  | node c low high equal d ihl ihh ihe =>
    match r with
    | [] => rw [modify, modify, h d rfl]
    | .low :: r => rw [modify, modify, ihl h]
    | .high :: r => rw [modify, modify, ihh h]
    | .equal :: r => rw [modify, modify, ihe h]

theorem Live.of_shape {t u : Tree α β} (h : t.shape = u.shape) (ht : t.Live) : u.Live := by
  rwa [← live_shape, ← h, live_shape]

/-! ## Spelled strings

A route that ends at a node spells the string of that node. In a tree without an order two routes may
spell the same string. -/

theorem spell_ne_nil {t : Tree α β} {r : Route} {q : List α} (h : t.spell r = some q) : q ≠ [] := by
  induction t generalizing r q with
  | nil => simp at h
  | dead => simp at h
  | node c low high equal d ihl ihh ihe =>
    match r with
    | [] =>
      obtain rfl : [c] = q := by simpa [spell] using h
      simp
    | .low :: r => exact ihl h
    | .high :: r => exact ihh h
    | .equal :: r =>
      obtain ⟨q', -, rfl⟩ := Option.map_eq_some_iff.mp h
      simp

/-- The first character of a spelled string belongs to the level it is spelled from. -/
theorem mem_level_of_spell {t : Tree α β} {r : Route} {k : α} {ks : List α}
    (h : t.spell r = some (k :: ks)) : k ∈ t.level := by
  induction t generalizing r with
  | nil => simp at h
  | dead => simp at h
  | node c low high equal d ihl ihh _ =>
    simp only [level, List.mem_cons, List.mem_append]
    cases r with
    | nil =>
      obtain ⟨rfl, rfl⟩ : c = k ∧ [] = ks := by simpa [spell] using h
      exact Or.inl rfl
    | cons link r =>
      cases link with
      | low => exact Or.inr (Or.inl (ihl h))
      | high => exact Or.inr (Or.inr (ihh h))
      | equal =>
        obtain ⟨q', -, hq⟩ := Option.map_eq_some_iff.mp h
        exact Or.inl (List.cons.inj hq).1.symm

section Order

variable [LinearOrder α]

/-! ## The route of a walk

From a string to a route, and back: in an ordered tree the two are inverse to each other. -/

/-- The route the walk for a string takes, to the link at which it ends. -/
def route : Tree α β → List α → Route
  | _, [] => []
  | nil, _ :: _ => []
  | dead, _ :: _ => []
  | node c low high equal _, k :: ks =>
      if k < c then .low :: low.route (k :: ks)
      else if k = c then
        if ks = [] then [] else .equal :: equal.route ks
      else .high :: high.route (k :: ks)

section Node

variable {c k : α} {low high equal : Tree α β} {d : β}

theorem route_lt (h : k < c) (ks : List α) :
    (node c low high equal d).route (k :: ks) = .low :: low.route (k :: ks) := by
  simp [route, h]

theorem route_gt (h : c < k) (ks : List α) :
    (node c low high equal d).route (k :: ks) = .high :: high.route (k :: ks) := by
  simp [route, h.not_gt, h.ne']

@[simp] theorem route_self : (node c low high equal d).route [c] = [] := by
  simp [route]

@[simp] theorem route_self_cons (ks : List α) :
    (node c low high equal d).route (c :: k :: ks) = .equal :: equal.route (k :: ks) := by
  simp [route]

end Node

@[simp] theorem follow_route (t : Tree α β) (p : List α) : t.follow (t.route p) = t.walk p := by
  induction t generalizing p with
  | nil => simp
  | dead => simp
  | node c low high equal d ihl ihh ihe =>
    match p with
    | [] => rfl
    | k :: ks =>
      rcases lt_trichotomy k c with hlt | rfl | hgt
      · rw [route_lt hlt, walk_lt hlt, follow, ihl]
      · cases ks with
        | nil => simp
        | cons j js => rw [route_self_cons, walk_self_cons, follow, ihe]
      · rw [route_gt hgt, walk_gt hgt, follow, ihh]

/-- The route of a stored string spells it. -/
theorem spell_route {t : Tree α β} {p : List α} (h : (t.get? p).isSome) :
    t.spell (t.route p) = some p := by
  induction t generalizing p with
  | nil => simp at h
  | dead => simp at h
  | node c low high equal d ihl ihh ihe =>
    match p with
    | [] => simp at h
    | k :: ks =>
      rcases lt_trichotomy k c with hlt | rfl | hgt
      · rw [get?_lt hlt] at h
        rw [route_lt hlt, spell, ihl h]
      · cases ks with
        | nil => simp [spell]
        | cons j js =>
          rw [get?_self_cons] at h
          rw [route_self_cons, spell, ihe h]
          rfl
      · rw [get?_gt hgt] at h
        rw [route_gt hgt, spell, ihh h]

/-- In an ordered tree the walk of a spelled string takes the route that spells it. -/
theorem route_of_spell {t : Tree α β} (ht : t.Ordered) {r : Route} {q : List α}
    (h : t.spell r = some q) : t.route q = r := by
  induction t generalizing r q with
  | nil => simp at h
  | dead => simp at h
  | node c low high equal d ihl ihh ihe =>
    obtain ⟨hl, hh, hol, hoh, hoe⟩ := ht
    match r with
    | [] =>
      obtain rfl : [c] = q := by simpa [spell] using h
      exact route_self
    | .low :: r =>
      obtain ⟨k, ks, rfl⟩ := List.exists_cons_of_ne_nil (spell_ne_nil h)
      have hk : k < c := hl k (mem_level_of_spell (t := low) h)
      rw [route_lt hk, ihl hol h]
    | .high :: r =>
      obtain ⟨k, ks, rfl⟩ := List.exists_cons_of_ne_nil (spell_ne_nil h)
      have hk : c < k := hh k (mem_level_of_spell (t := high) h)
      rw [route_gt hk, ihh hoh h]
    | .equal :: r =>
      obtain ⟨q', hq', rfl⟩ := Option.map_eq_some_iff.mp h
      obtain ⟨k, ks, rfl⟩ := List.exists_cons_of_ne_nil (spell_ne_nil hq')
      rw [route_self_cons, ihe hoe hq']

/-- **Reading through a pointer is reading by name.** In an ordered tree the walk of the string that a
route spells ends where the route does. -/
theorem get?_of_spell {t : Tree α β} (ht : t.Ordered) {r : Route} {q : List α}
    (h : t.spell r = some q) : t.get? q = (t.follow r).data? := by
  rw [t.get?_of_ne_nil (spell_ne_nil h), ← follow_route, route_of_spell ht h]

/-- Changing a stored record is changing it at its route. -/
theorem alter_eq_modify (f : β → β) {t : Tree α β} {p : List α} (h : (t.get? p).isSome) :
    t.alter f p = t.modify f (t.route p) := by
  induction t generalizing p with
  | nil => simp at h
  | dead => simp at h
  | node c low high equal d ihl ihh ihe =>
    match p with
    | [] => simp at h
    | k :: ks =>
      rcases lt_trichotomy k c with hlt | rfl | hgt
      · rw [get?_lt hlt] at h
        rw [route_lt hlt, alter_lt hlt, modify, ihl h]
      · cases ks with
        | nil => rw [route_self, alter_self, modify]
        | cons j js =>
          rw [get?_self_cons] at h
          rw [route_self_cons, alter_self_cons, modify, ihe h]
      · rw [get?_gt hgt] at h
        rw [route_gt hgt, alter_gt hgt, modify, ihh h]

/-- Routes look at the shape only. -/
theorem route_shape (t : Tree α β) (p : List α) : t.shape.route p = t.route p := by
  induction t generalizing p with
  | nil => cases p <;> rfl
  | dead => cases p <;> rfl
  | node c low high equal d ihl ihh ihe =>
    cases p with
    | nil => rfl
    | cons k ks => simp only [shape_node, route, ihl, ihh, ihe]

/-- Once the link at the route of a stored string is dead, the walk for the string finds it so. -/
theorem walk_graft_route (t : Tree α β) {p : List α} (h : (t.get? p).isSome) :
    (t.graft (t.route p) dead).walk p = dead := by
  induction t generalizing p with
  | nil => simp at h
  | dead => simp at h
  | node c low high equal d ihl ihh ihe =>
    match p with
    | [] => simp at h
    | k :: ks =>
      rcases lt_trichotomy k c with hlt | rfl | hgt
      · rw [get?_lt hlt] at h
        rw [route_lt hlt, graft, walk_lt hlt, ihl h]
      · cases ks with
        | nil => rw [route_self, graft, walk_dead]
        | cons j js =>
          rw [get?_self_cons] at h
          rw [route_self_cons, graft, walk_self_cons, ihe h]
      · rw [get?_gt hgt] at h
        rw [route_gt hgt, graft, walk_gt hgt, ihh h]

/-- Changing a record keeps links and split characters, so it keeps the search order. -/
theorem Ordered.of_shape {t u : Tree α β} (h : t.shape = u.shape) (ht : t.Ordered) : u.Ordered := by
  rwa [← ordered_shape, ← h, ordered_shape]

omit [LinearOrder α] in
/-- What is cut off leaves the level, and nothing comes in. -/
theorem mem_level_graft_dead {t : Tree α β} {r : Route} {k : α}
    (h : k ∈ (t.graft r dead).level) : k ∈ t.level := by
  induction t generalizing r with
  | nil => cases r <;> simp [graft, level] at h
  | dead => cases r <;> simp [graft, level] at h
  | node c low high equal d ihl ihh _ =>
    cases r with
    | nil => simp [graft, level] at h
    | cons link r =>
      cases link with
      | low =>
        simp only [graft, level, List.mem_cons, List.mem_append] at h ⊢
        exact h.imp_right (Or.imp_left ihl)
      | high =>
        simp only [graft, level, List.mem_cons, List.mem_append] at h ⊢
        exact h.imp_right (Or.imp_right ihh)
      | equal => exact h

/-- Cutting a link off keeps the search order. -/
theorem Ordered.graft_dead {t : Tree α β} (ht : t.Ordered) (r : Route) :
    (t.graft r dead).Ordered := by
  induction t generalizing r with
  | nil => cases r <;> trivial
  | dead => cases r <;> trivial
  | node c low high equal d ihl ihh ihe =>
    obtain ⟨hl, hh, hol, hoh, hoe⟩ := ht
    match r with
    | [] => trivial
    | .low :: r => exact ⟨fun x hx => hl x (mem_level_graft_dead hx), hh, ihl hol r, hoh, hoe⟩
    | .high :: r => exact ⟨hl, fun x hx => hh x (mem_level_graft_dead hx), hol, ihh hoh r, hoe⟩
    | .equal :: r => exact ⟨hl, hh, hol, hoh, ihe hoe r⟩

end Order

end Tree

end Ternary
