import Lcthw.Paths
import Lcthw.TSTree.Trace

/-!
# Lcthw — the '/' nodes by name

The lists of `tstree.c` hold pointers. Here they are read as lists of paths: a '/' node is a
directory of `Paths`, with `delim` as the separator.

* **`matched_eq`**, **`trail_eq`**: a walk matches the directories of its key that exist.
* **`added_eq`**, **`passed_spells`**: an insertion creates the missing ones; what it passes are
  '/' nodes, but maybe of other keys.
* **`dirs_eq_append`**: the existing directories of a key come before the missing ones.
* **`IsChild`**, **`isChild_iff`**: what a directory is the parent of.
-/

namespace Lcthw.TSTree

open Ternary Ternary.Tree Paths

variable {ν : Type}

/-! ## Routes and names

A walk through an ordered tree meets the directories of its key at the places where they are spelled.
Which of them exist is a matter of `get?`, and those that do are the shorter ones. -/

/-- The directories of a key that have a node. -/
def existing (t : TSTree ν) (key : List CChar) : List (List CChar) :=
  (dirs delim key).filter fun q => (t.get? q).isSome

/-- The directories of a key that have none. -/
def absent (t : TSTree ν) (key : List CChar) : List (List CChar) :=
  (dirs delim key).filter fun q => (t.get? q).isNone

theorem mem_existing {t : TSTree ν} {key q : List CChar} :
    q ∈ existing t key ↔ q ∈ dirs delim key ∧ (t.get? q).isSome := by
  rw [existing, List.mem_filter]

theorem mem_absent {t : TSTree ν} {key q : List CChar} :
    q ∈ absent t key ↔ q ∈ dirs delim key ∧ t.get? q = none := by
  simp [absent, Option.isNone_iff_eq_none]

theorem ne_nil_of_mem_existing {t : TSTree ν} {key q : List CChar} (h : q ∈ existing t key) :
    q ≠ [] :=
  ne_nil_of_mem_dirs (mem_existing.mp h).1

theorem exists_cons_of_mem_dirs {k : CChar} {ks q : List CChar} (h : q ∈ dirs delim (k :: ks)) :
    ∃ qs, q = k :: qs := by
  obtain ⟨hq, -⟩ := mem_dirs.mp h
  obtain ⟨j, js, rfl⟩ := List.exists_cons_of_ne_nil (ne_nil_of_mem_dirs h)
  exact ⟨js, by rw [(List.cons_prefix_cons.mp hq).1]⟩

section Cons

variable {c k : CChar} {ks : List CChar} {low high equal : TSTree ν} {d : Cell ν}

theorem existing_lt (h : k < c) :
    existing (node c low high equal d) (k :: ks) = existing low (k :: ks) :=
  List.filter_congr fun q hq => by
    obtain ⟨qs, rfl⟩ := exists_cons_of_mem_dirs hq
    rw [get?_lt h]

theorem existing_gt (h : c < k) :
    existing (node c low high equal d) (k :: ks) = existing high (k :: ks) :=
  List.filter_congr fun q hq => by
    obtain ⟨qs, rfl⟩ := exists_cons_of_mem_dirs hq
    rw [get?_gt h]

theorem get?_self_of_ne_nil {q : List CChar} (hq : q ≠ []) :
    (node c low high equal d).get? (c :: q) = equal.get? q := by
  obtain ⟨j, js, rfl⟩ := List.exists_cons_of_ne_nil hq
  exact get?_self_cons js

theorem route_self_of_ne_nil {q : List CChar} (hq : q ≠ []) :
    (node c low high equal d).route (c :: q) = .equal :: equal.route q := by
  obtain ⟨j, js, rfl⟩ := List.exists_cons_of_ne_nil hq
  exact route_self_cons js

theorem existing_self :
    existing (node c low high equal d) (c :: ks) =
      (if c = delim then [[c]] else []) ++ (existing equal ks).map (c :: ·) := by
  have hsame : ∀ q ∈ dirs delim ks,
      ((node c low high equal d).get? (c :: q)).isSome = (equal.get? q).isSome := fun q hq => by
    rw [get?_self_of_ne_nil (ne_nil_of_mem_dirs hq)]
  rw [existing, dirs_cons, List.filter_append, List.filter_map]
  congr 1
  · split <;> simp
  · exact congrArg (List.map (c :: ·)) (List.filter_congr fun q hq => hsame q hq)

theorem absent_lt (h : k < c) :
    absent (node c low high equal d) (k :: ks) = absent low (k :: ks) :=
  List.filter_congr fun q hq => by
    obtain ⟨qs, rfl⟩ := exists_cons_of_mem_dirs hq
    rw [get?_lt h]

theorem absent_gt (h : c < k) :
    absent (node c low high equal d) (k :: ks) = absent high (k :: ks) :=
  List.filter_congr fun q hq => by
    obtain ⟨qs, rfl⟩ := exists_cons_of_mem_dirs hq
    rw [get?_gt h]

theorem absent_self :
    absent (node c low high equal d) (c :: ks) = (absent equal ks).map (c :: ·) := by
  have hsame : ∀ q ∈ dirs delim ks,
      ((node c low high equal d).get? (c :: q)).isNone = (equal.get? q).isNone := fun q hq => by
    rw [get?_self_of_ne_nil (ne_nil_of_mem_dirs hq)]
  rw [absent, dirs_cons, List.filter_append, List.filter_map]
  have hhead : (if c = delim then [[c]] else []).filter
      (fun q => ((node c low high equal d).get? q).isNone) = [] := by
    split <;> simp
  rw [hhead, List.nil_append]
  exact congrArg (List.map (c :: ·)) (List.filter_congr fun q hq => hsame q hq)

theorem absent_nil : absent (nil : TSTree ν) ks = dirs delim ks := by
  simp [absent]

end Cons

/-- **A walk matches the directories of its key that exist.** -/
theorem matched_eq (t : TSTree ν) (key : List CChar) :
    matched t key = (existing t key).map t.route := by
  induction t generalizing key with
  | nil => simp [matched, existing]
  | dead => simp [matched, existing]
  | node c low high equal d ihl ihh ihe =>
    cases key with
    | nil => simp [existing]
    | cons k ks =>
      rcases lt_trichotomy k c with hlt | rfl | hgt
      · rw [matched, if_pos hlt, ihl, existing_lt hlt, List.map_map]
        refine List.map_congr_left fun q hq => ?_
        -- every directory of the key begins with its first character
        obtain ⟨qs, rfl⟩ := exists_cons_of_mem_dirs (mem_existing.mp hq).1
        rw [route_lt hlt, Function.comp_apply]
      · rw [matched, if_neg (lt_irrefl k), if_pos rfl, ihe, existing_self, List.map_append,
          List.map_map, List.map_map]
        congr 1
        · split <;> simp
        · refine List.map_congr_left fun q hq => ?_
          rw [Function.comp_apply, Function.comp_apply,
            route_self_of_ne_nil (ne_nil_of_mem_existing hq)]
      · rw [matched, if_neg hgt.not_gt, if_neg hgt.ne', ihh, existing_gt hgt, List.map_map]
        refine List.map_congr_left fun q hq => ?_
        obtain ⟨qs, rfl⟩ := exists_cons_of_mem_dirs (mem_existing.mp hq).1
        rw [route_gt hgt, Function.comp_apply]

theorem newDirs_eq (key : List CChar) :
    newDirs key = (dirs delim key).map (grow (freshCell (ν := ν)) key nil).route := by
  induction key with
  | nil => simp [newDirs]
  | cons k ks ih =>
    rw [newDirs, ih, dirs_cons, grow_nil, List.map_append, List.map_map, List.map_map]
    congr 1
    · split <;> simp
    · refine List.map_congr_left fun q hq => ?_
      rw [Function.comp_apply, Function.comp_apply, route_self_of_ne_nil (ne_nil_of_mem_dirs hq)]

/-- **An insertion creates the missing directories of its key.** -/
theorem added_eq {t : TSTree ν} (ht : t.Live) (key : List CChar) :
    added t key = (absent t key).map (grow freshCell key t).route := by
  induction key, t using grow_induction with
  | empty t => simp [absent]
  | nil k ks ih =>
    rw [added, absent_nil]
    exact newDirs_eq (k :: ks)
  | dead k ks => exact ht.elim
  | lt k ks c low high equal d hlt ih =>
    rw [added_lt hlt, ih ht.1, absent_lt hlt, grow_lt hlt, List.map_map]
    refine List.map_congr_left fun q hq => ?_
    obtain ⟨qs, rfl⟩ := exists_cons_of_mem_dirs (mem_absent.mp hq).1
    rw [route_lt hlt, Function.comp_apply]
  | self c ks low high equal d ih =>
    rw [added_self, ih ht.2.2, absent_self, grow_self, List.map_map, List.map_map]
    refine List.map_congr_left fun q hq => ?_
    rw [Function.comp_apply, Function.comp_apply,
      route_self_of_ne_nil (ne_nil_of_mem_dirs (mem_absent.mp hq).1)]
  | gt k ks c low high equal d hgt ih =>
    rw [added_gt hgt, ih ht.2.1, absent_gt hgt, grow_gt hgt, List.map_map]
    refine List.map_congr_left fun q hq => ?_
    obtain ⟨qs, rfl⟩ := exists_cons_of_mem_dirs (mem_absent.mp hq).1
    rw [route_gt hgt, Function.comp_apply]

theorem passed_here {c : CChar} {low high equal : TSTree ν} {d : Cell ν} {r : Route}
    (h : r ∈ if c = delim then [[]] else []) :
    ∃ q, (node c low high equal d).spell r = some q ∧ q.getLast? = some delim := by
  split at h
  · next hc =>
    obtain rfl : r = [] := by simpa using h
    exact ⟨[c], rfl, by simp [hc]⟩
  · simp at h

/-- **What an insertion passes are '/' nodes.** -/
theorem passed_spells {t : TSTree ν} {key : List CChar} {r : Route} (h : r ∈ passed t key) :
    ∃ q, t.spell r = some q ∧ q.getLast? = some delim := by
  induction key, t using grow_induction generalizing r with
  | empty t => simp at h
  | nil k ks ih => simp [passed] at h
  | dead k ks => simp [passed] at h
  | lt k ks c low high equal d hlt ih =>
    rw [passed_lt hlt, List.mem_append] at h
    rcases h with h | h
    · exact passed_here h
    · obtain ⟨r', hr', rfl⟩ := List.mem_map.mp h
      exact ih hr'
  | self c ks low high equal d ih =>
    rw [passed_self, List.mem_append] at h
    rcases h with h | h
    · exact passed_here h
    · obtain ⟨r', hr', rfl⟩ := List.mem_map.mp h
      obtain ⟨q, hq, hlast⟩ := ih hr'
      refine ⟨c :: q, by simp [spell, hq], ?_⟩
      obtain ⟨j, js, rfl⟩ := List.exists_cons_of_ne_nil (spell_ne_nil hq)
      rwa [List.getLast?_cons_cons]
  | gt k ks c low high equal d hgt ih =>
    rw [passed_gt hgt, List.mem_append] at h
    rcases h with h | h
    · exact passed_here h
    · obtain ⟨r', hr', rfl⟩ := List.mem_map.mp h
      exact ih hr'

/-- **Existing directories come before missing ones.** -/
theorem dirs_eq_append (t : TSTree ν) (key : List CChar) :
    dirs delim key = existing t key ++ absent t key := by
  induction key using List.reverseRecOn with
  | nil => simp [existing, absent]
  | append_singleton key c ih =>
    rw [existing, absent] at ih
    by_cases hc : c = delim
    · rw [existing, absent, dirs_snoc, if_pos hc, List.filter_append, List.filter_append]
      cases hx : t.get? (key ++ [c]) with
      | none => simpa [hx, ← List.append_assoc] using ih
      | some d =>
        -- the whole key has a node, so each of its directories has one
        have hall : ∀ q ∈ dirs delim key, (t.get? q).isSome := fun q hq =>
          get?_isSome_of_prefix (ne_nil_of_mem_dirs hq)
            ((mem_dirs.mp hq).1.trans (List.prefix_append key [c])) (by simp [hx])
        have habsent : (dirs delim key).filter (fun q => (t.get? q).isNone) = [] := by
          rw [List.filter_eq_nil_iff]
          intro q hq
          simp [Option.isSome_iff_ne_none.mp (hall q hq)]
        simp [hx, List.filter_eq_self.mpr hall, habsent]
    · rw [existing, absent, dirs_snoc, if_neg hc, List.append_nil]
      exact ih

theorem existing_eq_dirs {t : TSTree ν} {key : List CChar} (h : (t.get? key).isSome) :
    existing t key = dirs delim key :=
  List.filter_eq_self.mpr fun _ hq =>
    get?_isSome_of_prefix (ne_nil_of_mem_dirs hq) (mem_dirs.mp hq).1 h

/-- **The trail of a stored key is the key with its directories.** -/
theorem trail_eq {t : TSTree ν} {key : List CChar} (h : (t.get? key).isSome)
    (hkey : key.getLast? ≠ some delim) :
    trail t key = (dirs delim key ++ [key]).map t.route := by
  obtain ⟨d, hd⟩ := Option.isSome_iff_exists.mp h
  obtain ⟨c, low, high, equal, hw⟩ := walk_of_get? hd
  have hc : c ≠ delim := by
    rintro rfl
    exact hkey (getLast?_of_walk (ne_nil_of_get? hd) hw)
  rw [trail, hw]
  simp only [if_neg hc]
  rw [matched_eq, existing_eq_dirs h, List.map_append, List.map_singleton]

/-! ## Direct children

What is a child is said of the keys, as the source means it, and then by the directory that a key lies
in. -/

/-- The direct children of the '/' node at `p`: the bound urls `p ++ w` with `w` nonempty and
without '/', and the '/' nodes at `p ++ w ++ "/"` with `w` without '/'. -/
def IsChild (p : List CChar) (e : List CChar × Cell ν) : Prop :=
  p <+: e.1 ∧
    (e.1.drop p.length ≠ [] ∧ delim ∉ e.1.drop p.length ∧ e.2.value.isSome ∨
      (e.1.drop p.length).getLast? = some delim ∧ delim ∉ (e.1.drop p.length).dropLast)

instance (p : List CChar) (e : List CChar × Cell ν) : Decidable (IsChild p e) := by
  unfold IsChild
  infer_instance

def children (p : List CChar) (t : TSTree ν) : List (List CChar × Cell ν) :=
  t.entries.filter fun e => IsChild p e

/-- What a directory can have as a child: a '/' node or a bound url. -/
def IsItem (q : List CChar) (c : Cell ν) : Prop :=
  q.getLast? = some delim ∨ c.value.isSome

instance (q : List CChar) (c : Cell ν) : Decidable (IsItem q c) :=
  inferInstanceAs (Decidable (_ ∨ _))

/-- A child of a directory is what lies in it and in no directory further down. -/
theorem isChild_iff {p q : List CChar} (hp : p.getLast? = some delim) (c : Cell ν) :
    IsChild p (q, c) ↔ parent delim q = some p ∧ IsItem q c := by
  rw [parent_eq_some_iff, IsItem]
  constructor
  · rintro ⟨⟨w, hw⟩, h⟩
    subst hw
    simp only [List.drop_left] at h
    rcases h with ⟨hne, hdelim, hc⟩ | ⟨hlast, hdelim⟩
    · exact ⟨⟨hp, w, hne, rfl, fun h => hdelim (List.mem_of_mem_dropLast h)⟩, Or.inr hc⟩
    · have hne : w ≠ [] := by
        rintro rfl
        simp at hlast
      exact ⟨⟨hp, w, hne, rfl, hdelim⟩, Or.inl (by simp [List.getLast?_append, hlast])⟩
  · rintro ⟨⟨-, w, hne, rfl, hdelim⟩, hitem⟩
    refine ⟨List.prefix_append p w, ?_⟩
    simp only [List.drop_left]
    by_cases hlast : w.getLast? = some delim
    · exact Or.inr ⟨hlast, hdelim⟩
    · refine Or.inl ⟨hne, fun h => ?_, hitem.resolve_left ?_⟩
      · obtain ⟨v, x, rfl⟩ := List.eq_nil_or_concat' w |>.resolve_left hne
        simp at h hdelim hlast
        rcases h with h | rfl
        · exact hdelim h
        · exact hlast rfl
      · obtain ⟨v, x, rfl⟩ := List.eq_nil_or_concat' w |>.resolve_left hne
        simpa [← List.append_assoc] using hlast

end Lcthw.TSTree
