import Lcthw.TSTree.Children

/-!
# Lcthw — the child counts of '/' nodes

The `n` of a '/' node is meant to count its direct children.

* **`countsChildren_created_iff`**: an insertion keeps the counts right exactly when the node it
  credits is the parent of what it adds, and its counter has room.
* **`countsChildren_deleted`**: a deletion always does.
-/

namespace Lcthw.TSTree

open Ternary Ternary.Tree Paths

variable {ν : Type}

/-- Every '/' node counts its direct children. -/
def CountsChildren (t : TSTree ν) : Prop :=
  ∀ p c, (p, c) ∈ t.entries → p.getLast? = some delim →
    ∃ st, c.stat = some st ∧ st.n.toNat = (children p t).length

theorem countsChildren_nil : CountsChildren (nil : TSTree ν) := by
  intro p c h
  simp [entries] at h

/-- The counts by name. -/
theorem countsChildren_iff {t : TSTree ν} (ht : Regular t) :
    CountsChildren t ↔ ∀ p st, p.getLast? = some delim → statFor t p = some st →
      st.n.toNat = (children p t).length := by
  constructor
  · intro h p st hp hst
    obtain ⟨c, hc, hcst⟩ := Option.bind_eq_some_iff.mp hst
    obtain ⟨st', hst', hn⟩ := h p c (mem_entries_of_get? hc) hp
    obtain rfl : st = st' := Option.some.inj (hcst.symm.trans hst')
    exact hn
  · intro h p c hmem hp
    have hc := (mem_entries ht.ordered).mp hmem
    obtain ⟨st, hst⟩ := Option.isSome_iff_exists.mp ((ht.cells.get? hc).stat_of_dir hp)
    exact ⟨st, hst, h p st hp (by rw [statFor, hc]; exact hst)⟩

theorem length_children {p : List CChar} (hp : p.getLast? = some delim) (t : TSTree ν) :
    (children p t).length = t.total (share (fun _ => 1) p) := by
  rw [total_share _ p hp]
  simp

/-- Changing records keeps the children. -/
theorem length_children_restat {p : List CChar} (hp : p.getLast? = some delim) (t : TSTree ν)
    (f : Stats → Stats) (q : List CChar) :
    (children p (t.alter (restat f) q)).length = (children p t).length := by
  rw [length_children hp, length_children hp]
  exact total_alter_of_eq fun d _ => rfl

theorem length_children_retrace {p : List CChar} (hp : p.getLast? = some delim) (new : Stats)
    (qs : List (List CChar)) (t : TSTree ν) :
    (children p (retrace new qs t)).length = (children p t).length := by
  fun_induction retrace new qs t with
  | case1 t => rfl
  | case2 q t => exact length_children_restat hp t _ q
  | case3 a b rest t u ih =>
    rw [length_children_restat hp, ih, length_children_restat hp]

theorem length_children_uncount {p : List CChar} (hp : p.getLast? = some delim)
    (parent : Option (List CChar)) (t : TSTree ν) :
    (children p (uncount parent t)).length = (children p t).length := by
  cases parent with
  | none => rfl
  | some m => exact length_children_restat hp t _ m

/-! ## Insertion

An insertion adds to the children of the directories that it creates, and of the last one that was
there. It counts at the former, and at the last '/' node that its walk passes. -/

section Insert

variable {t : TSTree ν} {key : List CChar} (value : ν) {p : List CChar}

theorem nodup_absent (t : TSTree ν) (key : List CChar) : (absent t key).Nodup :=
  (nodup_dirs key).filter _

theorem nodup_counted (ht : t.Ordered) :
    ((credited t key).toList ++ absent t key).Nodup := by
  refine List.nodup_append'.mpr ⟨?_, nodup_absent t key, ?_⟩
  · cases credited t key <;> simp
  · intro q hq habsent
    -- the credited node exists, the created ones do not
    have hcredited : credited t key = some q := by simpa using hq
    have hnode := isSome_get?_of_credited ht hcredited
    rw [(mem_absent.mp habsent).2] at hnode
    simp at hnode

/-- The record of a directory once the path is grown. -/
theorem statFor_upsert (ht : t.Live) (hkey : key.getLast? ≠ some delim)
    (hp : p.getLast? = some delim) :
    statFor (upsert freshCell (bindFresh value) key t) p =
      if p ∈ absent t key then some Stats.create else statFor t p := by
  have hne : p ≠ key := by
    rintro rfl
    exact hkey hp
  rw [statFor, get?_upsert ht, if_neg hne, statFor, hp]
  have hmem : p ∈ absent t key ↔ p <+: key ∧ t.get? p = none := by
    rw [mem_absent, mem_dirs, and_assoc]
    simp [hp]
  cases hc : t.get? p with
  | some c => simp [hmem, hc]
  | none => by_cases hpre : p <+: key <;> simp [hmem, hc, hpre, freshCell]

/-- The records after an insertion: those of new directories, that of the node it credits, and the
others. -/
theorem statFor_created (ht : Regular t) (hkey : key.getLast? ≠ some delim)
    (hv : valueAt t key = none) (hp : p.getLast? = some delim) :
    statFor (created t key value) p =
      if p ∈ absent t key then some (bump 1 Stats.create)
      else if credited t key = some p then (statFor t p).map (bump 1) else statFor t p := by
  have hbump : ∀ u : TSTree ν, statFor (((credited t key).toList ++ absent t key).foldl
      (fun t q => t.alter (restat (bump 1)) q) u) p =
        if p ∈ (credited t key).toList ++ absent t key then (statFor u p).map (bump 1)
        else statFor u p := by
    intro u
    rw [statFor, get?_foldl_alter _ (nodup_counted ht.ordered)]
    split
    · cases hu : u.get? p <;> simp [statFor, hu, restat]
    · rfl
  rw [created, hv, if_neg (by simp), hbump, statFor_upsert value ht.live hkey hp]
  by_cases habsent : p ∈ absent t key
  · simp [habsent]
  · simp [habsent]

/-- An insertion gives one child to each directory that it creates and to the last one that was there,
and to no other. -/
theorem length_children_created (ht : Regular t) (hne : key ≠ [])
    (hkey : key.getLast? ≠ some delim) (hv : valueAt t key = none) (hp : p.getLast? = some delim) :
    (children p (created t key value)).length =
      (children p t).length + ((if (existing t key).getLast? = some p then 1 else 0) +
        (absent t key).count p) := by
  have hupsert := total_share_upsert (fun _ => 1) p ht value hne hkey hv
  rw [smul_eq_mul, mul_one, length_new_children t hkey] at hupsert
  rw [length_children hp, length_children hp, ← hupsert, created, hv, if_neg (by simp)]
  exact total_foldl_alter_of_eq (nodup_counted ht.ordered) fun q _ c _ => rfl

/-- A directory that does not exist has no children. -/
theorem length_children_of_absent (ht : t.Ordered) (habsent : p ∈ absent t key) :
    (children p t).length = 0 := by
  obtain ⟨hmem, hnone⟩ := mem_absent.mp habsent
  rw [length_children (mem_dirs.mp hmem).2]
  exact total_share_of_get?_eq_none _ p ht (ne_nil_of_mem_dirs hmem) hnone

/-- A counter steps by one, unless it wraps around. -/
theorem toNat_add_one_eq_iff (n : UInt64) (P : Prop) [Decidable P] :
    (n + 1).toNat = n.toNat + (if P then 1 else 0) ↔ P ∧ n + 1 ≠ 0 := by
  have hlt := n.toNat_lt
  have hzero : n + 1 = 0 ↔ (n.toNat + 1) % 2 ^ 64 = 0 := by
    rw [← UInt64.toNat_inj, UInt64.toNat_add]
    rfl
  rw [Ne, hzero, UInt64.toNat_add, UInt64.toNat_one]
  by_cases hP : P
  · simp only [hP, if_true, true_and]
    omega
  · simp only [hP, if_false, false_and, iff_false]
    omega

/-- The created directories count their only child; what decides is the existing ones. -/
theorem countsChildren_created_iff_existing (ht : Regular t) (hcounts : CountsChildren t)
    (hne : key ≠ []) (hkey : key.getLast? ≠ some delim) (hv : valueAt t key = none) :
    CountsChildren (created t key value) ↔
      ∀ p st, p.getLast? = some delim → statFor t p = some st →
        (if credited t key = some p then st.n + 1 else st.n).toNat =
          st.n.toNat + if (existing t key).getLast? = some p then 1 else 0 := by
  rw [countsChildren_iff ht] at hcounts
  rw [countsChildren_iff (ht.created value hkey)]
  have hlength := fun p => length_children_created value ht hne hkey hv (p := p)
  constructor
  · intro h p st hp hst
    have hpresent : p ∉ absent t key := by
      intro habsent
      rw [statFor, (mem_absent.mp habsent).2] at hst
      simp at hst
    have hn := h p (if credited t key = some p then bump 1 st else st) hp
      (by rw [statFor_created value ht hkey hv hp, if_neg hpresent, hst]; split <;> rfl)
    rw [hlength p hp, ← hcounts p st hp hst, List.count_eq_zero_of_not_mem hpresent,
      add_zero] at hn
    rw [← hn]
    split <;> rfl
  · intro h p st hp hst
    rw [statFor_created value ht hkey hv hp] at hst
    rw [hlength p hp]
    by_cases habsent : p ∈ absent t key
    · -- its counter starts at zero, and the one node that is created in it counts there
      have hlast : (existing t key).getLast? ≠ some p := by
        intro hlast
        have hnode := (mem_existing.mp (List.mem_of_getLast? hlast)).2
        rw [(mem_absent.mp habsent).2] at hnode
        simp at hnode
      rw [if_pos habsent] at hst
      obtain rfl := Option.some.inj hst
      rw [length_children_of_absent ht.ordered habsent, if_neg hlast,
        List.count_eq_one_of_mem (nodup_absent t key) habsent]
      rfl
    · rw [if_neg habsent] at hst
      rw [List.count_eq_zero_of_not_mem habsent, add_zero]
      by_cases hx : credited t key = some p
      · rw [if_pos hx] at hst
        obtain ⟨st', hst', rfl⟩ := Option.map_eq_some_iff.mp hst
        rw [← hcounts p st' hp hst', ← h p st' hp hst', if_pos hx]
        rfl
      · rw [if_neg hx] at hst
        rw [← hcounts p st hp hst, ← h p st hp hst, if_neg hx]

/-- **When an insertion keeps the counts right.** The last '/' node that its walk passes has to be
the last directory of the key that exists, and its counter must not wrap around. -/
theorem countsChildren_created_iff (ht : Regular t) (hcounts : CountsChildren t) (hne : key ≠ [])
    (hkey : key.getLast? ≠ some delim) :
    CountsChildren (created t key value) ↔
      (valueAt t key).isSome ∨
        credited t key = (existing t key).getLast? ∧
          ∀ x st, credited t key = some x → statFor t x = some st → st.n + 1 ≠ 0 := by
  by_cases hbound : (valueAt t key).isSome
  · simp [created, hbound, hcounts]
  rw [countsChildren_created_iff_existing value ht hcounts hne hkey (by simpa using hbound)]
  simp only [hbound, Bool.false_eq_true, false_or]
  have hstat : ∀ {x : List CChar}, x.getLast? = some delim → (t.get? x).isSome →
      ∃ st, statFor t x = some st := fun hx hnode =>
    Option.isSome_iff_exists.mp (ht.isSome_statFor_dir hx hnode)
  constructor
  · intro h
    cases hx : credited t key with
    | none =>
      -- nothing was credited, so no existing directory may have a new child
      refine ⟨?_, fun x st h => by simp at h⟩
      cases hm : (existing t key).getLast? with
      | none => rfl
      | some m =>
        obtain ⟨hmem, hnode⟩ := mem_existing.mp (List.mem_of_getLast? hm)
        obtain ⟨st, hst⟩ := hstat (mem_dirs.mp hmem).2 hnode
        have hn := h m st (mem_dirs.mp hmem).2 hst
        rw [hx, hm] at hn
        simp at hn
    | some x =>
      obtain ⟨hlast, -, -⟩ := credited_spec ht.ordered hx
      obtain ⟨st, hst⟩ := hstat hlast (isSome_get?_of_credited ht.ordered hx)
      have hn := h x st hlast hst
      rw [if_pos hx, toNat_add_one_eq_iff] at hn
      refine ⟨hn.1.symm, ?_⟩
      intro x' st' hx' hst'
      obtain rfl := Option.some.inj hx'
      obtain rfl := Option.some.inj (hst.symm.trans hst')
      exact hn.2
  · rintro ⟨hsame, hroom⟩ p st hp hst
    rw [← hsame]
    by_cases hx : credited t key = some p
    · rw [if_pos hx, toNat_add_one_eq_iff]
      exact ⟨hx, hroom p st hx hst⟩
    · rw [if_neg hx, if_neg hx, add_zero]

end Insert

/-! ## Deletion

The url was a child of one directory, and that is where the count goes down. -/

section Delete

variable {t : TSTree ν} {key : List CChar} {c : Cell ν} {p : List CChar}

/-- The url leaves the children of its parent. -/
theorem length_children_deleted (ht : Regular t) (hc : t.get? key = some c)
    (hv : c.value.isSome) (hp : p.getLast? = some delim) :
    (children p (deleted t key)).length + (if parent delim key = some p then 1 else 0) =
      (children p t).length := by
  obtain ⟨d, hd, hstat, hdv⟩ := get?_deleted_leaf ht hc hv
  have hclear := total_share_clear (fun _ => 1) p hd hstat hdv (ht.getLast?_ne_of_bound hc hv)
  rw [length_children hp, deleted, hclear, ← length_children hp, length_children_uncount hp,
    length_children_retrace hp]

/-- The parent of the url counts one node less, and no other count changes. -/
theorem n_deleted (hp : p ≠ key) :
    (statFor (deleted t key) p).map Stats.n =
      (statFor t p).map fun st => if parent delim key = some p then st.n + -1 else st.n := by
  have hretrace : (statFor (retrace Stats.create (dirs delim key ++ [key]) t) p).map Stats.n =
      (statFor t p).map Stats.n :=
    map_retrace (fun _ _ => rfl) (fun _ _ => rfl) (by simpa [eq_comm] using hp)
  rw [deleted, statFor_clear]
  cases hm : parent delim key with
  | none => simpa [uncount] using hretrace
  | some m =>
    rw [uncount, statFor_alter]
    by_cases hpm : p = m
    · subst hpm
      rw [if_pos rfl, Option.map_map]
      have h := congrArg (Option.map fun n : UInt64 => n + -1) hretrace
      simpa [Function.comp_def, bump] using h
    · simpa [hpm, Ne.symm hpm] using hretrace

/-- **A deletion keeps the counts right.** -/
theorem countsChildren_deleted (ht : Regular t) (hcounts : CountsChildren t)
    (hc : t.get? key = some c) (hv : c.value.isSome) : CountsChildren (deleted t key) := by
  have hkey := ht.getLast?_ne_of_bound hc hv
  rw [countsChildren_iff ht] at hcounts
  rw [countsChildren_iff (ht.deleted key)]
  intro p st hp hst
  have hne : p ≠ key := by
    rintro rfl
    exact hkey hp
  have hn := n_deleted (t := t) hne
  rw [hst, Option.map_some] at hn
  obtain ⟨st', hst', hn⟩ := Option.map_eq_some_iff.mp hn.symm
  have hlength := length_children_deleted ht hc hv hp
  rw [← hcounts p st' hp hst'] at hlength
  rw [← hn]
  by_cases hm : parent delim key = some p
  · -- the url was one of the children, so the counter does not wrap around
    rw [if_pos hm] at hlength ⊢
    have hlt := st'.n.toNat_lt
    rw [UInt64.toNat_add, show (-1 : UInt64).toNat = 2 ^ 64 - 1 from rfl]
    omega
  · rw [if_neg hm] at hlength ⊢
    omega

end Delete

end Lcthw.TSTree
