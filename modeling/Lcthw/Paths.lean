import Mathlib

/-!
# Paths — the directories of a string with separators

A string over any alphabet is read as a path: its *directories* are its prefixes that end in the
separator `sep`, and its *parent* is the longest of them that is not the string itself.

* **`dirs`**, **`mem_dirs`**: the directories of a string, shortest first.
* **`getLast?_dirs`**: the longest one, by what follows it.
* **`parent_eq_some_iff`**: `d` is the parent of `d ++ w` when `w` has no separator, but maybe at
  its end.
* **`isChain_dirs`**: along the directories of a string each is the parent of the next.
* **`parent_eq_getLast?`**: the same, said of any cut through that chain.
* **`count_parent`**: so every link of a chain of parents is counted once.
-/

namespace Paths

variable {α : Type*} [DecidableEq α] (sep : α)

/-- The prefixes that end in the separator, shortest first. -/
def dirs (p : List α) : List (List α) :=
  p.inits.filter fun q => q.getLast? = some sep

/-- The longest directory of `p` that is not `p`. -/
def parent (p : List α) : Option (List α) :=
  (dirs sep p.dropLast).getLast?

variable {sep}

theorem mem_dirs {p q : List α} : q ∈ dirs sep p ↔ q <+: p ∧ q.getLast? = some sep := by
  simp [dirs]

theorem ne_nil_of_mem_dirs {p q : List α} (h : q ∈ dirs sep p) : q ≠ [] := by
  rintro rfl
  simpa using (mem_dirs.mp h).2

@[simp] theorem dirs_nil : dirs sep ([] : List α) = [] := by
  simp [dirs]

theorem dirs_cons (c : α) (p : List α) :
    dirs sep (c :: p) = (if c = sep then [[c]] else []) ++ (dirs sep p).map (c :: ·) := by
  -- the shortest prefix is empty, the next one is `[c]`, the others go on in `p`
  cases p with
  | nil => by_cases hc : c = sep <;> simp [dirs, hc]
  | cons d p =>
    by_cases hc : c = sep <;>
      simp [dirs, hc, List.filter_map, Function.comp_def, List.getLast?_cons_cons]

theorem dirs_snoc (p : List α) (c : α) :
    dirs sep (p ++ [c]) = dirs sep p ++ if c = sep then [p ++ [c]] else [] := by
  by_cases hc : c = sep <;> simp [dirs, List.inits_append, hc]

theorem nodup_dirs (p : List α) : (dirs sep p).Nodup := by
  apply List.Nodup.filter _
  induction p with
  | nil => simp
  | cons c p ih =>
    rw [List.inits_cons, List.nodup_cons]
    exact ⟨by simp, ih.map (List.cons_injective)⟩

theorem nodup_dirs_append {p : List α} (hp : p.getLast? ≠ some sep) :
    (dirs sep p ++ [p]).Nodup := by
  refine List.nodup_append'.mpr ⟨nodup_dirs p, by simp, fun q hq hqp => ?_⟩
  obtain rfl : q = p := by simpa using hqp
  exact hp (mem_dirs.mp hq).2

/-- The longest directory of a string is followed by no separator. -/
theorem getLast?_dirs {p d : List α} :
    (dirs sep p).getLast? = some d ↔ d.getLast? = some sep ∧ ∃ w, p = d ++ w ∧ sep ∉ w := by
  induction p using List.reverseRecOn with
  | nil =>
    refine ⟨fun h => by simp at h, ?_⟩
    rintro ⟨hd, w, hw, -⟩
    obtain ⟨rfl, -⟩ := List.append_eq_nil_iff.mp hw.symm
    simp at hd
  | append_singleton p c ih =>
    rw [dirs_snoc]
    -- a path that ends with the separator is the last of its own directories
    by_cases hc : c = sep
    · rw [if_pos hc, List.getLast?_concat]
      constructor
      · intro h
        obtain rfl := Option.some.inj h
        exact ⟨by simp [hc], [], by simp, by simp⟩
      · rintro ⟨-, w, hw, hsep⟩
        rcases List.eq_nil_or_concat' w with rfl | ⟨w, x, rfl⟩
        · simpa using hw
        · rw [← List.append_assoc] at hw
          obtain ⟨-, rfl⟩ := List.append_inj' hw rfl |>.imp_right List.singleton_inj.mp
          simp [hc] at hsep
    · rw [if_neg hc, List.append_nil, ih]
      refine and_congr_right fun hd => ⟨?_, ?_⟩
      · rintro ⟨w, rfl, hsep⟩
        exact ⟨w ++ [c], by simp, by simp [hsep, Ne.symm hc]⟩
      · rintro ⟨w, hw, hsep⟩
        rcases List.eq_nil_or_concat' w with rfl | ⟨w, x, rfl⟩
        · rw [List.append_nil] at hw
          rw [← hw, List.getLast?_concat] at hd
          exact absurd (Option.some.inj hd) hc
        · rw [← List.append_assoc] at hw
          obtain ⟨hp, -⟩ := List.append_inj' hw rfl
          exact ⟨w, hp, fun h => hsep (by simp [h])⟩

@[simp] theorem parent_snoc (p : List α) (c : α) :
    parent sep (p ++ [c]) = (dirs sep p).getLast? := by
  rw [parent, List.dropLast_concat]

/-- What lies directly in a directory: a separator may end it, and occurs nowhere else in it. -/
theorem parent_eq_some_iff {p d : List α} :
    parent sep p = some d ↔
      d.getLast? = some sep ∧ ∃ w, w ≠ [] ∧ p = d ++ w ∧ sep ∉ w.dropLast := by
  rcases List.eq_nil_or_concat' p with rfl | ⟨p, c, rfl⟩
  · simp [parent]
  · rw [parent_snoc, getLast?_dirs]
    refine and_congr_right fun _ => ⟨?_, ?_⟩
    · rintro ⟨w, rfl, hsep⟩
      exact ⟨w ++ [c], by simp, by simp, by simpa using hsep⟩
    · rintro ⟨w, hw, hp, hsep⟩
      obtain ⟨w, x, rfl⟩ := List.eq_nil_or_concat' w |>.resolve_left hw
      rw [← List.append_assoc] at hp
      obtain ⟨hp, -⟩ := List.append_inj' hp rfl
      exact ⟨w, hp, by simpa using hsep⟩

/-- A path that does not end in the separator lies in its longest directory. -/
theorem parent_eq {p : List α} (hp : p.getLast? ≠ some sep) :
    parent sep p = (dirs sep p).getLast? := by
  rcases List.eq_nil_or_concat' p with rfl | ⟨p, c, rfl⟩
  · rfl
  · have hc : c ≠ sep := by simpa using hp
    rw [parent_snoc, dirs_snoc, if_neg hc, List.append_nil]

theorem mem_dirs_of_parent {p d : List α} (h : parent sep p = some d) : d ∈ dirs sep p := by
  obtain ⟨hd, w, -, rfl, -⟩ := parent_eq_some_iff.mp h
  exact mem_dirs.mpr ⟨List.prefix_append d w, hd⟩

theorem ne_of_parent {p d : List α} (h : parent sep p = some d) : d ≠ p := by
  obtain ⟨-, w, hw, rfl, -⟩ := parent_eq_some_iff.mp h
  simpa using hw

/-! ## Chains of parents

The directories of a path are a chain, in which each is the parent of the next one. So a directory that
is the parent of several paths is counted once along each chain that goes through it. -/

theorem isChain_dirs (p : List α) :
    (dirs sep p).IsChain fun a b => parent sep b = some a := by
  induction p using List.reverseRecOn with
  | nil => simp
  | append_singleton p c ih =>
    rw [dirs_snoc]
    split
    · refine List.isChain_append.mpr ⟨ih, by simp, fun a ha b hb => ?_⟩
      obtain rfl : p ++ [c] = b := by simpa using hb
      rw [parent_snoc]
      exact ha
    · rwa [List.append_nil]

/-- A path together with its directories. -/
theorem isChain_dirs_append {p : List α} (hp : p.getLast? ≠ some sep) :
    (dirs sep p ++ [p]).IsChain fun a b => parent sep b = some a := by
  refine List.isChain_append.mpr ⟨isChain_dirs p, by simp, fun a ha b hb => ?_⟩
  obtain rfl : p = b := by simpa using hb
  rw [parent_eq hp]
  exact ha

/-- The first directory of a string lies in no other. -/
theorem parent_head?_dirs {p d : List α} (h : (dirs sep p).head? = some d) :
    parent sep d = none := by
  induction p using List.reverseRecOn with
  | nil => simp at h
  | append_singleton p c ih =>
    rw [dirs_snoc] at h
    cases hp : dirs sep p with
    | nil =>
      rw [hp] at h
      split at h
      · obtain rfl : p ++ [c] = d := by simpa using h
        rw [parent_snoc, hp]
        rfl
      · simp at h
    | cons q qs =>
      rw [hp] at h
      exact ih (by simpa [hp] using h)

/-- The parent of a directory of `p`, or of `p` itself, is the directory before it. -/
theorem parent_eq_getLast? {p a : List α} {l₁ l₂ : List (List α)} (hp : p.getLast? ≠ some sep)
    (h : dirs sep p ++ [p] = l₁ ++ a :: l₂) : parent sep a = l₁.getLast? := by
  rcases List.eq_nil_or_concat' l₁ with rfl | ⟨l₁, x, rfl⟩
  · cases hd : dirs sep p with
    | nil =>
      obtain rfl : p = a := by simpa [hd] using congrArg List.head? h
      rw [parent_eq hp, hd]
    | cons d ds =>
      obtain rfl : d = a := by simpa [hd] using congrArg List.head? h
      exact parent_head?_dirs (by rw [hd]; rfl)
  · have hchain := isChain_dirs_append hp
    rw [h] at hchain
    rw [List.getLast?_concat]
    exact (List.isChain_append.mp hchain).2.2 x (by simp) a (by simp)

/-- Along a chain of parents, `d` is the parent of one path if it is the parent of the first or
stands before the last, and of none otherwise. -/
theorem count_parent {a : List α} {l : List (List α)} (d : List α)
    (h : (a :: l).IsChain fun x y => parent sep y = some x) :
    ((a :: l).filter fun q => parent sep q = some d).length =
      (if parent sep a = some d then 1 else 0) + (a :: l).dropLast.count d := by
  induction l generalizing a with
  | nil => by_cases ha : parent sep a = some d <;> simp [ha]
  | cons b l ih =>
    obtain ⟨hab, hrest⟩ := List.isChain_cons_cons.mp h
    have ihb := ih hrest
    rw [hab] at ihb
    rw [List.filter_cons, List.dropLast_cons_cons, List.count_cons]
    by_cases ha : parent sep a = some d
    · simp only [ha, decide_true, if_true, List.length_cons, ihb, Option.some.injEq, beq_iff_eq]
      omega
    · simp only [ha, decide_false, if_false, ihb, Option.some.injEq, beq_iff_eq,
        Bool.false_eq_true]
      omega

end Paths
