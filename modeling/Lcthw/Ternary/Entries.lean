import Lcthw.Ternary.Route

/-!
# Ternary — the entries of a tree, and sums over them

`entries` lists every node with the string that leads to it. In an ordered tree the list is the
graph of `get?` (`mem_entries`). `total` sums a function over the entries, in any commutative
monoid: the aggregate a client keeps about a tree is such a sum, and `total_modify` says by how
much it moves when one record is changed.
-/

namespace Ternary.Tree

variable {α β M : Type*}

/-- Every node with its string. -/
def entries : Tree α β → List (List α × β)
  | nil => []
  | dead => []
  | node c low high equal d =>
      low.entries ++ high.entries ++ ([c], d) :: equal.entries.map fun e => (c :: e.1, e.2)

theorem mem_entries_node {c : α} {low high equal : Tree α β} {d : β} {e : List α × β} :
    e ∈ (node c low high equal d).entries ↔
      e ∈ low.entries ∨ e ∈ high.entries ∨ e = ([c], d) ∨
        ∃ e' ∈ equal.entries, (c :: e'.1, e'.2) = e := by
  simp only [entries, List.mem_append, List.mem_cons, List.mem_map, or_assoc]

theorem ne_nil_of_mem_entries {t : Tree α β} {e : List α × β} (h : e ∈ t.entries) : e.1 ≠ [] := by
  induction t generalizing e with
  | nil => simp [entries] at h
  | dead => simp [entries] at h
  | node c low high equal d ihl ihh _ =>
    rcases mem_entries_node.mp h with h | h | rfl | ⟨e', -, rfl⟩
    · exact ihl h
    · exact ihh h
    · simp
    · simp

theorem mem_level_of_mem_entries {t : Tree α β} {k : α} {ks : List α} {d : β}
    (h : (k :: ks, d) ∈ t.entries) : k ∈ t.level := by
  induction t with
  | nil => simp [entries] at h
  | dead => simp [entries] at h
  | node c low high equal d' ihl ihh _ =>
    simp only [level, List.mem_cons, List.mem_append]
    rcases mem_entries_node.mp h with h | h | h | ⟨e', -, h⟩
    · exact Or.inr (Or.inl (ihl h))
    · exact Or.inr (Or.inr (ihh h))
    · exact Or.inl (by simpa using congrArg (fun e => e.1.head?) h)
    · exact Or.inl (by simpa using (congrArg (fun e => e.1.head?) h).symm)

section Order

variable [LinearOrder α]

/-- A record that is found has an entry, in any tree. -/
theorem mem_entries_of_get? {t : Tree α β} {p : List α} {d : β} (h : t.get? p = some d) :
    (p, d) ∈ t.entries := by
  induction t generalizing p with
  | nil => simp at h
  | dead => simp at h
  | node c low high equal d' ihl ihh ihe =>
    rw [mem_entries_node]
    match p with
    | [] => simp at h
    | k :: ks =>
      rcases lt_trichotomy k c with hlt | rfl | hgt
      · rw [get?_lt hlt] at h
        exact Or.inl (ihl h)
      · cases ks with
        | nil =>
          rw [get?_self] at h
          exact Or.inr (Or.inr (Or.inl (by simp [Option.some.inj h])))
        | cons j js =>
          rw [get?_self_cons] at h
          exact Or.inr (Or.inr (Or.inr ⟨(j :: js, d), ihe h, rfl⟩))
      · rw [get?_gt hgt] at h
        exact Or.inr (Or.inl (ihh h))

/-- What is at and below the node of a string is in the tree, behind the string up to its last
character. -/
theorem mem_entries_of_walk {t : Tree α β} {p : List α} {e : List α × β}
    (h : e ∈ (t.walk p).entries) : (p.dropLast ++ e.1, e.2) ∈ t.entries := by
  induction t generalizing p with
  | nil => simp [entries] at h
  | dead => simp [entries] at h
  | node c low high equal d ihl ihh ihe =>
    match p with
    | [] => exact h
    | k :: ks =>
      rw [mem_entries_node]
      rcases lt_trichotomy k c with hlt | rfl | hgt
      · rw [walk_lt hlt] at h
        exact Or.inl (ihl h)
      · cases ks with
        | nil =>
          rw [walk_self] at h
          exact mem_entries_node.mp h
        | cons j js =>
          rw [walk_self_cons] at h
          exact Or.inr (Or.inr (Or.inr ⟨_, ihe h, rfl⟩))
      · rw [walk_gt hgt] at h
        exact Or.inr (Or.inl (ihh h))

/-- **In an ordered tree the entries are the graph of `get?`.** -/
theorem mem_entries {t : Tree α β} (ht : t.Ordered) {p : List α} {d : β} :
    (p, d) ∈ t.entries ↔ t.get? p = some d := by
  refine ⟨fun h => ?_, mem_entries_of_get?⟩
  induction t generalizing p with
  | nil => simp [entries] at h
  | dead => simp [entries] at h
  | node c low high equal d' ihl ihh ihe =>
    obtain ⟨hl, hh, hol, hoh, hoe⟩ := ht
    obtain ⟨k, ks, rfl⟩ := List.exists_cons_of_ne_nil (ne_nil_of_mem_entries h)
    rcases mem_entries_node.mp h with h | h | h | ⟨e, he, h⟩
    · rw [get?_lt (hl k (mem_level_of_mem_entries h)), ihl hol h]
    · rw [get?_gt (hh k (mem_level_of_mem_entries h)), ihh hoh h]
    · obtain ⟨⟨rfl, rfl⟩, rfl⟩ : (k = c ∧ ks = []) ∧ d = d' := by simpa using h
      simp
    · obtain ⟨⟨rfl, rfl⟩, rfl⟩ : (c = k ∧ e.1 = ks) ∧ e.2 = d := by simpa using h
      obtain ⟨j, js, hjs⟩ := List.exists_cons_of_ne_nil (ne_nil_of_mem_entries he)
      rw [hjs, get?_self_cons, ← hjs]
      exact ihe hoe he

end Order

/-! ## What the operations do to the entries

Here the tree need not be ordered, so the statements are about the list of entries and not about `get?`. -/

/-- An entry after a record was changed in place is an old entry, or an old entry changed. -/
theorem mem_entries_modify {f : β → β} {t : Tree α β} {r : Route} {e : List α × β}
    (h : e ∈ (t.modify f r).entries) :
    e ∈ t.entries ∨ ∃ e' ∈ t.entries, e = (e'.1, f e'.2) := by
  induction t generalizing r e with
  | nil => simp [entries] at h
  | dead => simp [entries] at h
  | node c low high equal d ihl ihh ihe =>
    simp only [mem_entries_node]
    -- where the route ends the record is changed, and above there one subtree is
    match r with
    | [] =>
      rw [modify, mem_entries_node] at h
      rcases h with h | h | rfl | h
      · exact Or.inl (Or.inl h)
      · exact Or.inl (Or.inr (Or.inl h))
      · exact Or.inr ⟨([c], d), Or.inr (Or.inr (Or.inl rfl)), rfl⟩
      · exact Or.inl (Or.inr (Or.inr (Or.inr h)))
    | .low :: r =>
      rw [modify, mem_entries_node] at h
      rcases h with h | h
      · rcases ihl h with h | ⟨e', he', rfl⟩
        · exact Or.inl (Or.inl h)
        · exact Or.inr ⟨e', Or.inl he', rfl⟩
      · exact Or.inl (Or.inr h)
    | .high :: r =>
      rw [modify, mem_entries_node] at h
      rcases h with h | h | h
      · exact Or.inl (Or.inl h)
      · rcases ihh h with h | ⟨e', he', rfl⟩
        · exact Or.inl (Or.inr (Or.inl h))
        · exact Or.inr ⟨e', Or.inr (Or.inl he'), rfl⟩
      · exact Or.inl (Or.inr (Or.inr h))
    | .equal :: r =>
      rw [modify, mem_entries_node] at h
      rcases h with h | h | h | ⟨y, hy, rfl⟩
      · exact Or.inl (Or.inl h)
      · exact Or.inl (Or.inr (Or.inl h))
      · exact Or.inl (Or.inr (Or.inr (Or.inl h)))
      · rcases ihe hy with hy | ⟨y', hy', rfl⟩
        · exact Or.inl (Or.inr (Or.inr (Or.inr ⟨y, hy, rfl⟩)))
        · exact Or.inr ⟨(c :: y'.1, y'.2), Or.inr (Or.inr (Or.inr ⟨y', hy', rfl⟩)), rfl⟩

/-- Cutting a link off leaves some of the entries. -/
theorem mem_entries_graft_dead {t : Tree α β} {r : Route} {e : List α × β}
    (h : e ∈ (t.graft r dead).entries) : e ∈ t.entries := by
  induction t generalizing r e with
  | nil => cases r <;> simp [graft, entries] at h
  | dead => cases r <;> simp [graft, entries] at h
  | node c low high equal d ihl ihh ihe =>
    cases r with
    | nil => simp [graft, entries] at h
    | cons link r =>
      cases link with
      | low =>
        rw [graft, mem_entries_node] at h
        exact mem_entries_node.mpr (h.imp_left ihl)
      | high =>
        rw [graft, mem_entries_node] at h
        exact mem_entries_node.mpr (h.imp_right fun h => h.imp_left ihh)
      | equal =>
        rw [graft, mem_entries_node] at h
        rcases h with h | h | h | ⟨y, hy, rfl⟩
        · exact mem_entries_node.mpr (Or.inl h)
        · exact mem_entries_node.mpr (Or.inr (Or.inl h))
        · exact mem_entries_node.mpr (Or.inr (Or.inr (Or.inl h)))
        · exact mem_entries_node.mpr (Or.inr (Or.inr (Or.inr ⟨y, ihe hy, rfl⟩)))

/-! ## Properties of every entry

An invariant of nodes is a property of every entry. The operations keep one when they keep it at the
record that they change. -/

/-- `P` holds of every string and its record. -/
def Every (P : List α → β → Prop) (t : Tree α β) : Prop :=
  ∀ e ∈ t.entries, P e.1 e.2

theorem every_nil (P : List α → β → Prop) : (nil : Tree α β).Every P := by
  simp [Every, entries]

theorem Every.modify {P : List α → β → Prop} {t : Tree α β} (h : t.Every P) {f : β → β}
    (hf : ∀ p d, P p d → P p (f d)) (r : Route) : (t.modify f r).Every P := by
  intro e he
  rcases mem_entries_modify he with he | ⟨e', he', rfl⟩
  · exact h e he
  · exact hf _ _ (h e' he')

theorem Every.graft_dead {P : List α → β → Prop} {t : Tree α β} (h : t.Every P) (r : Route) :
    (t.graft r dead).Every P :=
  fun e he => h e (mem_entries_graft_dead he)

theorem Every.alter [LinearOrder α] {P : List α → β → Prop} {t : Tree α β} (h : t.Every P)
    {f : β → β} (hf : ∀ p d, P p d → P p (f d)) (p : List α) : (t.alter f p).Every P := by
  by_cases hp : (t.get? p).isSome
  · rw [alter_eq_modify f hp]
    exact h.modify hf _
  · rw [alter_eq_self fun d hd => absurd (by rw [hd]; rfl) hp]
    exact h

/-- In an ordered tree only the record of the changed string has to be looked at. -/
theorem Every.alter_at [LinearOrder α] {P : List α → β → Prop} {t : Tree α β} (ht : t.Ordered)
    (h : t.Every P) {f : β → β} {p : List α} (hf : ∀ d, P p d → P p (f d)) :
    (t.alter f p).Every P := by
  rintro ⟨q, d⟩ he
  rw [mem_entries (ht.of_shape (shape_alter f t p).symm), get?_alter] at he
  split at he
  · next hq =>
    obtain ⟨d', hd', rfl⟩ := Option.map_eq_some_iff.mp he
    subst hq
    exact hf d' (h (q, d') (mem_entries_of_get? hd'))
  · exact h (q, d) (mem_entries_of_get? he)

/-- The node a walk ends at has an entry. -/
theorem Every.of_walk [LinearOrder α] {P : List α → β → Prop} {t : Tree α β} (h : t.Every P)
    {p : List α} {d : β} (hd : (t.walk p).data? = some d) : ∃ q, P q d := by
  cases p with
  | nil =>
    cases t with
    | nil => simp [walk, data?] at hd
    | dead => simp [walk, data?] at hd
    | node c low high equal d' =>
      obtain rfl : d' = d := by simpa [walk, data?] using hd
      exact ⟨[c], h ([c], d') (mem_entries_node.mpr (Or.inr (Or.inr (Or.inl rfl))))⟩
  | cons k ks => exact ⟨k :: ks, h (k :: ks, d) (mem_entries_of_get? hd)⟩

theorem Every.get? [LinearOrder α] {P : List α → β → Prop} {t : Tree α β} (h : t.Every P)
    {p : List α} {d : β} (hd : t.get? p = some d) : P p d :=
  h (p, d) (mem_entries_of_get? hd)

/-! ## Sums over the entries

A sum over the nodes with some property is a sum over all entries with zeros in it. So one rule for a
changed record is enough for every sum that a client keeps. -/

section Total

variable [AddCommMonoid M]

/-- The sum of `g` over the entries of a tree. -/
def total (g : List α → β → M) (t : Tree α β) : M :=
  (t.entries.map fun e => g e.1 e.2).sum

@[simp] theorem total_nil (g : List α → β → M) : (nil : Tree α β).total g = 0 := rfl

@[simp] theorem total_dead (g : List α → β → M) : (dead : Tree α β).total g = 0 := rfl

theorem total_node (g : List α → β → M) (c : α) (low high equal : Tree α β) (d : β) :
    (node c low high equal d).total g =
      low.total g + high.total g + (g [c] d + equal.total fun p => g (c :: p)) := by
  simp [total, entries, Function.comp_def, add_assoc]

/-- Nothing but zeros to sum. -/
theorem total_eq_zero {g : List α → β → M} {t : Tree α β} (h : ∀ e ∈ t.entries, g e.1 e.2 = 0) :
    t.total g = 0 :=
  List.sum_eq_zero fun x hx => by
    obtain ⟨e, he, rfl⟩ := List.mem_map.mp hx
    exact h e he

/-- **One changed record moves a sum by the change of its own summand.** -/
theorem total_modify (g : List α → β → M) {f : β → β} {t : Tree α β} {r : Route} {q : List α}
    {d : β} (hq : t.spell r = some q) (hd : (t.follow r).data? = some d) :
    (t.modify f r).total g + g q d = t.total g + g q (f d) := by
  induction t generalizing r q g with
  | nil => simp at hq
  | dead => simp at hq
  | node c low high equal d' ihl ihh ihe =>
    -- the route ends at the node, or one of the subtrees moves the sum
    match r with
    | [] =>
      obtain rfl : [c] = q := by simpa [spell] using hq
      obtain rfl : d' = d := by simpa [data?] using hd
      rw [modify, total_node, total_node]
      abel
    | .low :: r =>
      have h := ihl g hq hd
      rw [modify, total_node, total_node]
      calc
        _ = ((low.modify f r).total g + g q d) + high.total g +
              (g [c] d' + equal.total fun p => g (c :: p)) := by abel
        _ = _ := by rw [h]; abel
    | .high :: r =>
      have h := ihh g hq hd
      rw [modify, total_node, total_node]
      calc
        _ = low.total g + ((high.modify f r).total g + g q d) +
              (g [c] d' + equal.total fun p => g (c :: p)) := by abel
        _ = _ := by rw [h]; abel
    | .equal :: r =>
      obtain ⟨q', hq', rfl⟩ := Option.map_eq_some_iff.mp hq
      have h := ihe (fun p => g (c :: p)) hq' hd
      rw [modify, total_node, total_node]
      calc
        _ = low.total g + high.total g +
              (g [c] d' + (((equal.modify f r).total fun p => g (c :: p)) + g (c :: q') d)) := by abel
        _ = _ := by rw [h]; abel

theorem total_alter [LinearOrder α] (g : List α → β → M) {f : β → β} {t : Tree α β} {p : List α}
    {d : β} (hd : t.get? p = some d) :
    (t.alter f p).total g + g p d = t.total g + g p (f d) := by
  have hsome : (t.get? p).isSome := by simp [hd]
  rw [alter_eq_modify f hsome]
  apply total_modify g (spell_route hsome)
  rw [follow_route, ← t.get?_of_ne_nil (ne_nil_of_get? hd), hd]

/-- A sum that does not see the change of a record does not move. -/
theorem total_alter_of_eq [IsCancelAdd M] [LinearOrder α] {g : List α → β → M} {f : β → β}
    {t : Tree α β} {p : List α} (h : ∀ d, t.get? p = some d → g p (f d) = g p d) :
    (t.alter f p).total g = t.total g := by
  cases hd : t.get? p with
  | none => rw [alter_eq_self fun d hd' => absurd (hd.symm.trans hd') (by simp)]
  | some d =>
    have htotal := total_alter g (f := f) hd
    rw [h d hd] at htotal
    exact add_right_cancel htotal

/-- Nor do changes of several records that it does not see. -/
theorem total_foldl_alter_of_eq [IsCancelAdd M] [LinearOrder α] {g : List α → β → M} {f : β → β}
    {qs : List (List α)} (hqs : qs.Nodup) {t : Tree α β}
    (h : ∀ q ∈ qs, ∀ d, t.get? q = some d → g q (f d) = g q d) :
    (qs.foldl (fun t q => t.alter f q) t).total g = t.total g := by
  induction qs generalizing t with
  | nil => rfl
  | cons q qs ih =>
    obtain ⟨hq, hqs⟩ := List.nodup_cons.mp hqs
    rw [List.foldl_cons, ih hqs, total_alter_of_eq (h q (by simp))]
    intro p hp d hd
    have hne : p ≠ q := by
      rintro rfl
      exact hq hp
    rw [get?_alter, if_neg hne] at hd
    exact h p (by simp [hp]) d hd

/-- Summing over some of the entries. -/
theorem total_ite (P : List α → β → Prop) [∀ p d, Decidable (P p d)] (g : List α → β → M)
    (t : Tree α β) :
    t.total (fun p d => if P p d then g p d else 0) =
      ((t.entries.filter fun e => P e.1 e.2).map fun e => g e.1 e.2).sum := by
  rw [total]
  induction t.entries with
  | nil => rfl
  | cons e es ih =>
    rw [List.map_cons, List.sum_cons, ih, List.filter_cons]
    by_cases he : P e.1 e.2 <;> simp [he]

/-- A string has at most one entry in an ordered tree. -/
theorem total_single [LinearOrder α] {t : Tree α β} (ht : t.Ordered) (h : β → M) (p : List α) :
    t.total (fun q d => if q = p then h d else 0) = (t.get? p).elim 0 h := by
  induction t generalizing p with
  | nil => simp
  | dead => simp
  | node c low high equal d ihl ihh ihe =>
    obtain ⟨hl, hh, hol, hoh, hoe⟩ := ht
    rw [total_node, ihl hol, ihh hoh]
    match p with
    | [] => simp [total_eq_zero]
    | k :: ks =>
      have hequal : (equal.total fun q d => if c :: q = k :: ks then h d else 0) =
          if c = k then (equal.get? ks).elim 0 h else 0 := by
        by_cases hc : c = k
        · simp [hc, ihe hoe]
        · simp [hc, total_eq_zero]
      rw [hequal]
      -- the order keeps the string out of the other subtrees
      rcases lt_trichotomy k c with hlt | rfl | hgt
      · have hhigh : high.get? (k :: ks) = none :=
          get?_of_not_mem_level (fun hk => (hh k hk).not_gt hlt) ks
        simp [get?_lt hlt, hhigh, hlt.ne']
      · have hlow : low.get? (k :: ks) = none :=
          get?_of_not_mem_level (fun hk => (hl k hk).false) ks
        have hhigh : high.get? (k :: ks) = none :=
          get?_of_not_mem_level (fun hk => (hh k hk).false) ks
        cases ks <;> simp [hlow, hhigh]
      · have hlow : low.get? (k :: ks) = none :=
          get?_of_not_mem_level (fun hk => (hl k hk).not_gt hgt) ks
        simp [get?_gt hgt, hlow, hgt.ne]

/-- **No string of an ordered tree has two entries.** -/
theorem nodup_entries [LinearOrder α] {t : Tree α β} (ht : t.Ordered) :
    (t.entries.map Prod.fst).Nodup := by
  refine List.nodup_iff_count_le_one.mpr fun p => ?_
  have hcount : (t.entries.map Prod.fst).count p =
      t.total fun q _ => if q = p then (1 : ℕ) else 0 := by
    rw [total_ite (fun q _ => q = p) fun _ _ => 1, List.map_const', List.sum_replicate,
      List.count_eq_countP, List.countP_map, List.countP_eq_length_filter]
    simp [Function.comp_def, beq_eq_decide]
  rw [hcount, total_single ht (fun _ => (1 : ℕ)) p]
  cases t.get? p <;> simp

end Total

end Ternary.Tree
