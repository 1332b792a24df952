import Lcthw.Ternary.Entries

/-!
# Ternary — growing a path

`grow fresh p t` gives every nonempty prefix of `p` a node, with the record `fresh c` for a new
node with character `c`. It is written as an insertion is: `growLevel` moves along one level
until the character is found or a `nil` link is reached, and `grow` goes on below with the next
character.

* **`get?_grow`**: old records are kept, the missing prefixes of `p` get fresh ones.
* **`Ordered.grow`**, **`Live.grow`**: growing keeps both properties.
* **`missing`**, **`total_grow`**: the prefixes that get a node, and what they add to a sum.
* **`upsert`**: grow a path, then change the record at its end. Insertions are upserts.
-/

namespace Ternary.Tree

variable {α β M : Type*} [LinearOrder α]

/-- Move along one level to the character `k`, hanging a new node where it is missing, and apply
`onward` to the `equal` link found there. -/
def growLevel (fresh : α → β) (k : α) (onward : Tree α β → Tree α β) : Tree α β → Tree α β
  | nil => node k nil nil (onward nil) (fresh k)
  | dead => dead
  | node c low high equal d =>
      if k < c then node c (low.growLevel fresh k onward) high equal d
      else if k = c then node c low high (onward equal) d
      else node c low (high.growLevel fresh k onward) equal d

def grow (fresh : α → β) : List α → Tree α β → Tree α β
  | [], t => t
  | k :: ks, t => t.growLevel fresh k (grow fresh ks)

section Equations

variable {fresh : α → β} {c k : α} {ks : List α} {low high equal : Tree α β} {d : β}

@[simp] theorem grow_empty (t : Tree α β) : grow fresh [] t = t := rfl

@[simp] theorem grow_nil : grow fresh (k :: ks) nil = node k nil nil (grow fresh ks nil) (fresh k) :=
  rfl

@[simp] theorem grow_dead (p : List α) : grow fresh p dead = dead := by
  cases p <;> rfl

theorem grow_lt (h : k < c) :
    grow fresh (k :: ks) (node c low high equal d) =
      node c (grow fresh (k :: ks) low) high equal d := by
  simp [grow, growLevel, h]

theorem grow_gt (h : c < k) :
    grow fresh (k :: ks) (node c low high equal d) =
      node c low (grow fresh (k :: ks) high) equal d := by
  simp [grow, growLevel, h.not_gt, h.ne']

@[simp] theorem grow_self :
    grow fresh (c :: ks) (node c low high equal d) = node c low high (grow fresh ks equal) d := by
  simp [grow, growLevel]

end Equations

/-- Induction along a growing walk: over the level for one character, then over the string. -/
theorem grow_induction {P : List α → Tree α β → Prop}
    (empty : ∀ t, P [] t)
    (nil : ∀ k ks, P ks nil → P (k :: ks) nil)
    (dead : ∀ k ks, P (k :: ks) dead)
    (lt : ∀ k ks c low high equal d, k < c → P (k :: ks) low →
      P (k :: ks) (node c low high equal d))
    (self : ∀ c ks low high equal d, P ks equal → P (c :: ks) (node c low high equal d))
    (gt : ∀ k ks c low high equal d, c < k → P (k :: ks) high →
      P (k :: ks) (node c low high equal d)) :
    ∀ p t, P p t := by
  intro p
  induction p with
  | nil => exact empty
  | cons k ks ih =>
    intro t
    induction t with
    | nil => exact nil k ks (ih _)
    | dead => exact dead k ks
    | node c low high equal d ihl ihh _ =>
      rcases lt_trichotomy k c with hlt | rfl | hgt
      · exact lt k ks c low high equal d hlt ihl
      · exact self k ks low high equal d (ih _)
      · exact gt k ks c low high equal d hgt ihh

variable (fresh : α → β)

/-- Growing adds no character but the first one to a level. -/
theorem mem_level_grow {k : α} {ks : List α} {t : Tree α β} {x : α}
    (h : x ∈ (grow fresh (k :: ks) t).level) : x = k ∨ x ∈ t.level := by
  induction t with
  | nil => simpa [level] using h
  | dead => exact Or.inr h
  | node c low high equal d ihl ihh _ =>
    rcases lt_trichotomy k c with hlt | rfl | hgt
    · rw [grow_lt hlt] at h
      simp only [level, List.mem_cons, List.mem_append] at h ⊢
      rcases h with h | h | h
      · exact Or.inr (Or.inl h)
      · exact (ihl h).imp_right fun h => Or.inr (Or.inl h)
      · exact Or.inr (Or.inr (Or.inr h))
    · rw [grow_self] at h
      exact Or.inr h
    · rw [grow_gt hgt] at h
      simp only [level, List.mem_cons, List.mem_append] at h ⊢
      rcases h with h | h | h
      · exact Or.inr (Or.inl h)
      · exact Or.inr (Or.inr (Or.inl h))
      · exact (ihh h).imp_right fun h => Or.inr (Or.inr h)

/-- A new node hangs where the search for it ends, so it is in order. -/
theorem Ordered.grow {t : Tree α β} (h : t.Ordered) (p : List α) : (grow fresh p t).Ordered := by
  induction p, t using grow_induction with
  | empty t => exact h
  | nil k ks ih => simpa [Ordered, level] using ih trivial
  | dead k ks => exact h
  | lt k ks c low high equal d hlt ih =>
    obtain ⟨hl, hh, hol, hoh, hoe⟩ := h
    rw [grow_lt hlt]
    refine ⟨fun x hx => ?_, hh, ih hol, hoh, hoe⟩
    rcases mem_level_grow fresh hx with rfl | hx
    · exact hlt
    · exact hl x hx
  | self c ks low high equal d ih =>
    obtain ⟨hl, hh, hol, hoh, hoe⟩ := h
    rw [grow_self]
    exact ⟨hl, hh, hol, hoh, ih hoe⟩
  | gt k ks c low high equal d hgt ih =>
    obtain ⟨hl, hh, hol, hoh, hoe⟩ := h
    rw [grow_gt hgt]
    refine ⟨hl, fun x hx => ?_, hol, ih hoh, hoe⟩
    rcases mem_level_grow fresh hx with rfl | hx
    · exact hgt
    · exact hh x hx

theorem Live.grow {t : Tree α β} (h : t.Live) (p : List α) : (grow fresh p t).Live := by
  induction p, t using grow_induction with
  | empty t => exact h
  | nil k ks ih => exact ⟨trivial, trivial, ih trivial⟩
  | dead k ks => exact h.elim
  | lt k ks c low high equal d hlt ih =>
    rw [grow_lt hlt]
    exact ⟨ih h.1, h.2.1, h.2.2⟩
  | self c ks low high equal d ih =>
    rw [grow_self]
    exact ⟨h.1, h.2.1, ih h.2.2⟩
  | gt k ks c low high equal d hgt ih =>
    rw [grow_gt hgt]
    exact ⟨h.1, ih h.2.1, h.2.2⟩

/-- A pointer into the tree still names the same node after growing. -/
theorem spell_grow {t : Tree α β} {r : Route} {q : List α} (h : t.spell r = some q) (p : List α) :
    (grow fresh p t).spell r = some q := by
  induction p, t using grow_induction generalizing r q with
  | empty t => exact h
  | nil k ks ih => simp at h
  | dead k ks => simp at h
  | lt k ks c low high equal d hlt ih =>
    rw [grow_lt hlt]
    match r with
    | [] => exact h
    | .low :: r => exact ih h
    | .high :: r => exact h
    | .equal :: r => exact h
  | self c ks low high equal d ih =>
    rw [grow_self]
    match r with
    | [] => exact h
    | .low :: r => exact h
    | .high :: r => exact h
    | .equal :: r =>
      obtain ⟨q', hq', rfl⟩ := Option.map_eq_some_iff.mp h
      simp [spell, ih hq']
  | gt k ks c low high equal d hgt ih =>
    rw [grow_gt hgt]
    match r with
    | [] => exact h
    | .low :: r => exact h
    | .high :: r => exact ih h
    | .equal :: r => exact h

/-- Growing a path that exists changes nothing. -/
theorem grow_eq_self {t : Tree α β} {p : List α} (h : (t.get? p).isSome) : grow fresh p t = t := by
  induction p, t using grow_induction with
  | empty t => rfl
  | nil k ks ih => simp at h
  | dead k ks => rfl
  | lt k ks c low high equal d hlt ih =>
    rw [get?_lt hlt] at h
    rw [grow_lt hlt, ih h]
  | self c ks low high equal d ih =>
    cases ks with
    | nil => simp
    | cons j js =>
      rw [get?_self_cons] at h
      rw [grow_self, ih h]
  | gt k ks c low high equal d hgt ih =>
    rw [get?_gt hgt] at h
    rw [grow_gt hgt, ih h]

/-- **Growing keeps every record and gives the missing prefixes a fresh one.** -/
theorem get?_grow {t : Tree α β} (ht : t.Live) (p q : List α) :
    (grow fresh p t).get? q =
      (t.get? q).or (if q <+: p then q.getLast?.map fresh else none) := by
  -- along the way of `p`; at each node `q` leaves it to either side or takes the same letter
  induction p, t using grow_induction generalizing q with
  | empty t =>
    cases q <;> simp
  | nil k ks ih =>
    match q with
    | [] => simp
    | [j] =>
      rcases lt_trichotomy j k with hlt | rfl | hgt
      · simp [get?_lt hlt, List.cons_prefix_cons, hlt.ne]
      · simp [List.cons_prefix_cons]
      · simp [get?_gt hgt, List.cons_prefix_cons, hgt.ne']
    | j :: i :: is =>
      rcases lt_trichotomy j k with hlt | rfl | hgt
      · simp [get?_lt hlt, List.cons_prefix_cons, hlt.ne]
      · rw [grow_nil, get?_self_cons, ih trivial]
        simp [List.cons_prefix_cons, List.getLast?_cons_cons]
      · simp [get?_gt hgt, List.cons_prefix_cons, hgt.ne']
  | dead k ks => exact ht.elim
  | lt k ks c low high equal d hlt ih =>
    rw [grow_lt hlt]
    match q with
    | [] => simp
    | j :: js =>
      rcases lt_trichotomy j c with hjlt | rfl | hjgt
      · rw [get?_lt hjlt, get?_lt hjlt, ih ht.1]
      · have hj : ¬ (j = k) := hlt.ne'
        cases js <;> simp [List.cons_prefix_cons, hj]
      · have hj : ¬ (j = k) := (hlt.trans hjgt).ne'
        simp [get?_gt hjgt, List.cons_prefix_cons, hj]
  | self c ks low high equal d ih =>
    rw [grow_self]
    match q with
    | [] => simp
    | [j] =>
      rcases lt_trichotomy j c with hjlt | rfl | hjgt
      · simp [get?_lt hjlt, List.cons_prefix_cons, hjlt.ne]
      · simp
      · simp [get?_gt hjgt, List.cons_prefix_cons, hjgt.ne']
    | j :: i :: is =>
      rcases lt_trichotomy j c with hjlt | rfl | hjgt
      · simp [get?_lt hjlt, List.cons_prefix_cons, hjlt.ne]
      · rw [get?_self_cons, get?_self_cons, ih ht.2.2]
        simp [List.cons_prefix_cons, List.getLast?_cons_cons]
      · simp [get?_gt hjgt, List.cons_prefix_cons, hjgt.ne']
  | gt k ks c low high equal d hgt ih =>
    rw [grow_gt hgt]
    match q with
    | [] => simp
    | j :: js =>
      rcases lt_trichotomy j c with hjlt | rfl | hjgt
      · have hj : ¬ (j = k) := (hjlt.trans hgt).ne
        simp [get?_lt hjlt, List.cons_prefix_cons, hj]
      · have hj : ¬ (j = k) := hgt.ne
        cases js <;> simp [List.cons_prefix_cons, hj]
      · rw [get?_gt hjgt, get?_gt hjgt, ih ht.2.1]

/-! ## The nodes that are added

The prefixes of a string that have a node are shorter than those that have none. What growing adds to a
sum is the summands of the latter. -/

/-- The nonempty prefixes of a string that have no node yet, shortest first. -/
def missing (t : Tree α β) (p : List α) : List (List α) :=
  p.inits.filter fun q => q ≠ [] ∧ (t.get? q).isNone

/-- What is missing are the nonempty prefixes without a node. -/
theorem mem_missing {t : Tree α β} {p q : List α} :
    q ∈ t.missing p ↔ q <+: p ∧ q ≠ [] ∧ t.get? q = none := by
  simp [missing, Option.isNone_iff_eq_none]

@[simp] theorem missing_empty (t : Tree α β) : t.missing [] = [] := by
  simp [missing]

theorem missing_nil_cons (k : α) (ks : List α) :
    (nil : Tree α β).missing (k :: ks) = [k] :: ((nil : Tree α β).missing ks).map (k :: ·) := by
  cases ks with
  | nil => simp [missing]
  | cons j js =>
    simp [missing, List.filter_map, Function.comp_def]

section Missing

variable {c k : α} {low high equal : Tree α β} {d : β}

theorem missing_lt (h : k < c) (ks : List α) :
    (node c low high equal d).missing (k :: ks) = low.missing (k :: ks) := by
  simp [missing, List.filter_map, Function.comp_def, get?_lt h]

theorem missing_gt (h : c < k) (ks : List α) :
    (node c low high equal d).missing (k :: ks) = high.missing (k :: ks) := by
  simp [missing, List.filter_map, Function.comp_def, get?_gt h]

theorem missing_self (ks : List α) :
    (node c low high equal d).missing (c :: ks) = (equal.missing ks).map (c :: ·) := by
  have hsame : ∀ q : List α,
      (decide (c :: q ≠ [] ∧ ((node c low high equal d).get? (c :: q)).isNone) =
        decide (q ≠ [] ∧ (equal.get? q).isNone)) := by
    intro q
    cases q <;> simp
  simp only [missing, List.inits_cons, List.filter_cons, List.filter_map, Function.comp_def, hsame]
  simp

end Missing

variable [AddCommMonoid M]

/-- What a fresh node for the string `q` adds to a sum. -/
def freshSummand (g : List α → β → M) (q : List α) : M :=
  (q.getLast?.map fresh).elim 0 (g q)

omit [LinearOrder α] in
theorem freshSummand_cons (g : List α → β → M) (c : α) {q : List α} (hq : q ≠ []) :
    freshSummand fresh g (c :: q) = freshSummand fresh (fun p => g (c :: p)) q := by
  obtain ⟨k, ks, rfl⟩ := List.exists_cons_of_ne_nil hq
  simp [freshSummand, List.getLast?_cons_cons]

omit [LinearOrder α] in
theorem sum_map_cons_freshSummand (g : List α → β → M) (c : α) {qs : List (List α)}
    (h : ∀ q ∈ qs, q ≠ []) :
    ((qs.map (c :: ·)).map (freshSummand fresh g)).sum =
      (qs.map (freshSummand fresh fun p => g (c :: p))).sum := by
  rw [List.map_map]
  congr 1
  exact List.map_congr_left fun q hq => freshSummand_cons fresh g c (h q hq)

/-- **Growing a path adds the summands of the nodes it creates.** -/
theorem total_grow (g : List α → β → M) {t : Tree α β} (ht : t.Live) (p : List α) :
    (grow fresh p t).total g = t.total g + ((t.missing p).map (freshSummand fresh g)).sum := by
  induction p, t using grow_induction generalizing g with
  | empty t => simp
  | nil k ks ih =>
    rw [grow_nil, total_node, ih _ trivial, missing_nil_cons, List.map_cons, List.sum_cons,
      sum_map_cons_freshSummand fresh g k fun q hq => (mem_missing.mp hq).2.1]
    simp [freshSummand]
  | dead k ks => exact ht.elim
  | lt k ks c low high equal d hlt ih =>
    rw [grow_lt hlt, total_node, total_node, ih _ ht.1, missing_lt hlt]
    abel
  | self c ks low high equal d ih =>
    rw [grow_self, total_node, total_node, ih _ ht.2.2, missing_self,
      sum_map_cons_freshSummand fresh g c fun q hq => (mem_missing.mp hq).2.1]
    abel
  | gt k ks c low high equal d hgt ih =>
    rw [grow_gt hgt, total_node, total_node, ih _ ht.2.1, missing_gt hgt]
    abel

omit [AddCommMonoid M] in
/-- An entry of the grown tree is an old one, or the one of a fresh node. -/
theorem mem_entries_grow {t : Tree α β} {p : List α} {e : List α × β}
    (h : e ∈ (grow fresh p t).entries) :
    e ∈ t.entries ∨ ∃ q k, e = (q ++ [k], fresh k) := by
  induction p, t using grow_induction generalizing e with
  | empty t => exact Or.inl h
  | nil k ks ih =>
    rw [grow_nil, mem_entries_node] at h
    -- a node for the first character, and more below it
    rcases h with h | h | rfl | ⟨y, hy, rfl⟩
    · exact Or.inl h
    · exact Or.inl h
    · exact Or.inr ⟨[], k, rfl⟩
    · rcases ih hy with hy | ⟨q, j, rfl⟩
      · simp [entries] at hy
      · exact Or.inr ⟨k :: q, j, rfl⟩
  | dead k ks => exact Or.inl h
  | lt k ks c low high equal d hlt ih =>
    rw [grow_lt hlt, mem_entries_node] at h
    rw [mem_entries_node]
    rcases h with h | h
    · exact (ih h).imp_left Or.inl
    · exact Or.inl (Or.inr h)
  | self c ks low high equal d ih =>
    rw [grow_self, mem_entries_node] at h
    rw [mem_entries_node]
    rcases h with h | h | h | ⟨y, hy, rfl⟩
    · exact Or.inl (Or.inl h)
    · exact Or.inl (Or.inr (Or.inl h))
    · exact Or.inl (Or.inr (Or.inr (Or.inl h)))
    · rcases ih hy with hy | ⟨q, j, rfl⟩
      · exact Or.inl (Or.inr (Or.inr (Or.inr ⟨y, hy, rfl⟩)))
      · exact Or.inr ⟨c :: q, j, rfl⟩
  | gt k ks c low high equal d hgt ih =>
    rw [grow_gt hgt, mem_entries_node] at h
    rw [mem_entries_node]
    rcases h with h | h | h
    · exact Or.inl (Or.inl h)
    · exact (ih h).imp_left fun h => Or.inr (Or.inl h)
    · exact Or.inl (Or.inr (Or.inr h))

/-! ## Insertion

Both insertions of a client grow a path and then change the record at its end, and differ in the record
that they put into a new node and in the change. -/

/-- Give a string a node and apply `f` to its record. -/
def upsert (f : β → β) (p : List α) (t : Tree α β) : Tree α β :=
  (grow fresh p t).alter f p

variable {fresh}

/-- An insertion keeps the search order. -/
theorem Ordered.upsert {t : Tree α β} (h : t.Ordered) (f : β → β) (p : List α) :
    (upsert fresh f p t).Ordered :=
  (h.grow fresh p).of_shape (shape_alter f _ p).symm

theorem Live.upsert {t : Tree α β} (h : t.Live) (f : β → β) (p : List α) :
    (upsert fresh f p t).Live :=
  (h.grow fresh p).of_shape (shape_alter f _ p).symm

theorem Every.grow {P : List α → β → Prop} {t : Tree α β} (h : t.Every P)
    (hfresh : ∀ q k, P (q ++ [k]) (fresh k)) (p : List α) : (grow fresh p t).Every P := by
  intro e he
  rcases mem_entries_grow fresh he with he | ⟨q, k, rfl⟩
  · exact h e he
  · exact hfresh q k

theorem Every.upsert {P : List α → β → Prop} {t : Tree α β} (h : t.Every P) {f : β → β}
    (hf : ∀ p d, P p d → P p (f d)) (hfresh : ∀ q k, P (q ++ [k]) (fresh k)) (p : List α) :
    (upsert fresh f p t).Every P :=
  (h.grow hfresh p).alter hf p

/-- **An upsert changes the record of its own string, gives the missing prefixes fresh records,
and keeps every other record.** -/
theorem get?_upsert {t : Tree α β} (ht : t.Live) (f : β → β) (p q : List α) :
    (upsert fresh f p t).get? q =
      if q = p then ((t.get? p).or (p.getLast?.map fresh)).map f
      else (t.get? q).or (if q <+: p then q.getLast?.map fresh else none) := by
  rw [upsert, get?_alter, get?_grow fresh ht, get?_grow fresh ht]
  simp

section Equations

variable {f : β → β} {c k : α} {ks : List α} {low high equal : Tree α β} {d : β}

@[simp] theorem upsert_dead (p : List α) : upsert fresh f p dead = dead := by
  simp [upsert]

@[simp] theorem upsert_nil : upsert fresh f [k] nil = node k nil nil nil (f (fresh k)) := by
  simp [upsert]

@[simp] theorem upsert_nil_cons {j : α} :
    upsert fresh f (k :: j :: ks) nil = node k nil nil (upsert fresh f (j :: ks) nil) (fresh k) := by
  simp [upsert]

theorem upsert_lt (h : k < c) :
    upsert fresh f (k :: ks) (node c low high equal d) =
      node c (upsert fresh f (k :: ks) low) high equal d := by
  simp [upsert, grow_lt h, alter_lt h]

theorem upsert_gt (h : c < k) :
    upsert fresh f (k :: ks) (node c low high equal d) =
      node c low (upsert fresh f (k :: ks) high) equal d := by
  simp [upsert, grow_gt h, alter_gt h]

@[simp] theorem upsert_self :
    upsert fresh f [c] (node c low high equal d) = node c low high equal (f d) := by
  simp [upsert]

@[simp] theorem upsert_self_cons :
    upsert fresh f (c :: k :: ks) (node c low high equal d) =
      node c low high (upsert fresh f (k :: ks) equal) d := by
  simp [upsert]

end Equations

end Ternary.Tree
