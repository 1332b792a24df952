import Lcthw.TSTree.Retrace

/-!
# Lcthw — what a directory's children add up to

The counters and the sums of a '/' node are about its direct children. `share` is what one node
adds to its parent, and a sum over the children is a `total` over the tree, so every operation
moves it by what it does to the nodes it touches.

* **`Regular`**: the trees that requests on urls which do not end in '/' lead to.
* **`created`**, **`delimInsert_created`**: insertion by name. `credited` is the '/' node that an
  insertion takes for the parent of what it adds.
* **`deleted`**, **`deleteAllSubnodes_deleted`**: deletion by name.
* **`total_share_upsert`**, **`total_share_restat`**, **`total_share_clear`**: how the sums over
  the children move.
-/

namespace Lcthw.TSTree

open Ternary Ternary.Tree Paths

variable {ν M : Type}

/-! ## Regular trees

A regular tree is live and in order, its '/' nodes have records and no values, and its nodes with values
have records. The allowed requests keep this, and in such a tree the tracer finds a record wherever it
looks. -/

/-- A '/' node has a record and no value, and a node with a value has a record. -/
structure RegularCell (p : List CChar) (c : Cell ν) : Prop where
  stat_of_dir : p.getLast? = some delim → c.stat.isSome
  value_of_dir : p.getLast? = some delim → c.value = none
  stat_of_bound : c.value.isSome → c.stat.isSome

structure Regular (t : TSTree ν) : Prop where
  live : t.Live
  ordered : t.Ordered
  cells : t.Every RegularCell

theorem regular_nil : Regular (nil : TSTree ν) :=
  ⟨trivial, trivial, every_nil _⟩

theorem RegularCell.restat {p : List CChar} {c : Cell ν} (h : RegularCell p c)
    (f : Stats → Stats) : RegularCell p (restat f c) := by
  refine ⟨fun hp => ?_, h.value_of_dir, fun hv => ?_⟩
  · simpa [TSTree.restat] using h.stat_of_dir hp
  · simpa [TSTree.restat] using h.stat_of_bound hv

/-- Free the value of a cell. -/
def clear (c : Cell ν) : Cell ν :=
  { c with value := none }

theorem RegularCell.clear {p : List CChar} {c : Cell ν} (h : RegularCell p c) :
    RegularCell p (TSTree.clear c) :=
  ⟨h.stat_of_dir, fun _ => rfl, fun hv => by simp [TSTree.clear] at hv⟩

theorem regularCell_freshCell (q : List CChar) (k : CChar) :
    RegularCell (ν := ν) (q ++ [k]) (freshCell k) := by
  refine ⟨fun h => ?_, fun _ => rfl, fun hv => by simp [freshCell] at hv⟩
  obtain rfl : k = delim := by simpa using h
  rfl

theorem Regular.alter {t : TSTree ν} (h : Regular t) {f : Cell ν → Cell ν}
    (hf : ∀ p c, RegularCell p c → RegularCell p (f c)) (q : List CChar) :
    Regular (t.alter f q) :=
  ⟨h.live.of_shape (shape_alter f t q).symm, h.ordered.of_shape (shape_alter f t q).symm,
    h.cells.alter hf q⟩

theorem Regular.restat {t : TSTree ν} (h : Regular t) (f : Stats → Stats) (q : List CChar) :
    Regular (t.alter (TSTree.restat f) q) :=
  h.alter (fun _ _ hc => hc.restat f) q

theorem Regular.foldl_restat {t : TSTree ν} (h : Regular t) (f : Stats → Stats)
    (qs : List (List CChar)) : Regular (qs.foldl (fun t q => t.alter (TSTree.restat f) q) t) := by
  induction qs generalizing t with
  | nil => exact h
  | cons q qs ih => exact ih (h.restat f q)

theorem Regular.retrace {t : TSTree ν} (h : Regular t) (new : Stats) (qs : List (List CChar)) :
    Regular (retrace new qs t) := by
  fun_induction TSTree.retrace new qs t with
  | case1 t => exact h
  | case2 q t => exact h.restat _ q
  | case3 a b rest t u ih => exact (ih (h.restat _ a)).restat _ a

theorem Regular.uncount {t : TSTree ν} (h : Regular t) (parent : Option (List CChar)) :
    Regular (uncount parent t) := by
  cases parent with
  | none => exact h
  | some m => exact h.restat _ m

/-- A search tree in which the '/' nodes and the nodes with a value have records. A '/' node may have
a value here, and links elsewhere may be dead. -/
structure Recorded (t : TSTree ν) : Prop where
  ordered : t.Ordered
  cells : t.Every fun p c => IsItem p c → c.stat.isSome

theorem Regular.recorded {t : TSTree ν} (h : Regular t) : Recorded t where
  ordered := h.ordered
  cells e he hitem := hitem.elim (h.cells e he).stat_of_dir (h.cells e he).stat_of_bound

theorem Recorded.restat {t : TSTree ν} (h : Recorded t) (f : Stats → Stats) (q : List CChar) :
    Recorded (t.alter (TSTree.restat f) q) where
  ordered := h.ordered.of_shape (shape_alter (TSTree.restat f) t q).symm
  cells := h.cells.alter (fun _ c hc hitem => by
    have hsome : c.stat.isSome := hc hitem
    rw [TSTree.restat, Option.isSome_map]
    exact hsome) q

theorem Recorded.retrace {t : TSTree ν} (h : Recorded t) (new : Stats) (qs : List (List CChar)) :
    Recorded (retrace new qs t) := by
  fun_induction TSTree.retrace new qs t with
  | case1 t => exact h
  | case2 q t => exact h.restat _ q
  | case3 a b rest t u ih => exact (ih (h.restat _ a)).restat _ a

/-- A bound url and all its directories have records. -/
theorem Recorded.isSome_statFor_of_bound {t : TSTree ν} (h : Recorded t) {key : List CChar}
    {c : Cell ν} (hc : t.get? key = some c) (hv : c.value.isSome) :
    ∀ q ∈ dirs delim key ++ [key], (statFor t q).isSome := by
  have hnode : ∀ q d, t.get? q = some d → IsItem q d → (statFor t q).isSome := by
    intro q d hd hitem
    rw [statFor, hd]
    exact h.cells.get? hd hitem
  intro q hq
  rcases List.mem_append.mp hq with hq | hq
  · obtain ⟨hpre, hlast⟩ := mem_dirs.mp hq
    have hsome : (t.get? q).isSome :=
      get?_isSome_of_prefix (ne_nil_of_mem_dirs hq) hpre (by simp [hc])
    obtain ⟨d, hd⟩ := Option.isSome_iff_exists.mp hsome
    exact hnode q d hd (Or.inl hlast)
  · obtain rfl : q = key := by simpa using hq
    exact hnode q c hc (Or.inr hv)

/-- A stored directory has a record. -/
theorem Regular.isSome_statFor_dir {t : TSTree ν} (h : Regular t) {q : List CChar}
    (hq : q.getLast? = some delim) (hnode : (t.get? q).isSome) : (statFor t q).isSome := by
  obtain ⟨c, hc⟩ := Option.isSome_iff_exists.mp hnode
  rw [statFor, hc]
  exact (h.cells.get? hc).stat_of_dir hq

/-- So have a bound url and all its directories. -/
theorem Regular.isSome_statFor_of_bound {t : TSTree ν} (h : Regular t) {key : List CChar}
    {c : Cell ν} (hc : t.get? key = some c) (hv : c.value.isSome) :
    ∀ q ∈ dirs delim key ++ [key], (statFor t q).isSome :=
  h.recorded.isSome_statFor_of_bound hc hv

/-- A bound url does not end in '/'. -/
theorem Regular.getLast?_ne_of_bound {t : TSTree ν} (h : Regular t) {key : List CChar}
    {c : Cell ν} (hc : t.get? key = some c) (hv : c.value.isSome) :
    key.getLast? ≠ some delim := by
  intro hkey
  rw [(h.cells.get? hc).value_of_dir hkey] at hv
  simp at hv

/-! ## Insertion by name

An insertion gives the missing prefixes a node and adds one to some counts. By name these are the
directories that it creates, and the last '/' node that it passes before them, which may belong to
another url. -/

/-- The last '/' node that the walk of an insertion passes. -/
def credited (t : TSTree ν) (key : List CChar) : Option (List CChar) :=
  (passed t key).getLast?.bind t.spell

/-- The tree after an insertion. -/
def created (t : TSTree ν) (key : List CChar) (value : ν) : TSTree ν :=
  if (valueAt t key).isSome then t
  else ((credited t key).toList ++ absent t key).foldl (fun t q => t.alter (restat (bump 1)) q)
    (upsert freshCell (bindFresh value) key t)

/-- What an insertion credits is a '/' node that is there. -/
theorem credited_spec {t : TSTree ν} (ht : t.Ordered) {key : List CChar} {q : List CChar}
    (h : credited t key = some q) :
    q.getLast? = some delim ∧ t.spell (t.route q) = some q ∧
      (passed t key).getLast? = some (t.route q) := by
  obtain ⟨r, hr, hq⟩ := Option.bind_eq_some_iff.mp h
  obtain ⟨q', hq', hlast⟩ := passed_spells (List.mem_of_getLast? hr)
  obtain rfl : q = q' := Option.some.inj (hq.symm.trans hq')
  rw [route_of_spell ht hq]
  exact ⟨hlast, hq, hr⟩

theorem credited_eq_none {t : TSTree ν} {key : List CChar} :
    credited t key = none ↔ (passed t key).getLast? = none := by
  rw [credited]
  cases hr : (passed t key).getLast? with
  | none => simp
  | some r =>
    obtain ⟨q, hq, -⟩ := passed_spells (List.mem_of_getLast? hr)
    simp [hq]

/-- The credited node has a node. -/
theorem isSome_get?_of_credited {t : TSTree ν} (ht : t.Ordered) {key : List CChar} {q : List CChar}
    (h : credited t key = some q) : (t.get? q).isSome := by
  obtain ⟨-, hspell, -⟩ := credited_spec ht h
  rw [get?_of_spell ht hspell, ← isSome_spell, hspell]
  rfl

theorem toList_passed {t : TSTree ν} (ht : t.Ordered) (key : List CChar) :
    (passed t key).getLast?.toList = (credited t key).toList.map t.route := by
  cases h : credited t key with
  | none => rw [credited_eq_none.mp h]; rfl
  | some q =>
    obtain ⟨-, -, hlast⟩ := credited_spec ht h
    rw [hlast]
    rfl

section Insert

variable {t : TSTree ν} {key : List CChar} (value : ν)

/-- The nodes that an insertion counts at have a record once the path is grown. -/
theorem isSome_statFor_counted (ht : Regular t) (hkey : key.getLast? ≠ some delim) :
    ∀ q ∈ (credited t key).toList ++ absent t key,
      (statFor (upsert freshCell (bindFresh value) key t) q).isSome := by
  intro q hq
  rcases List.mem_append.mp hq with hq | hq
  · have hq : credited t key = some q := by simpa using hq
    obtain ⟨hlast, -, -⟩ := credited_spec ht.ordered hq
    have hne : q ≠ key := by
      rintro rfl
      exact hkey hlast
    have hnode := isSome_get?_of_credited ht.ordered hq
    obtain ⟨c, hc⟩ := Option.isSome_iff_exists.mp hnode
    have hstat := ht.isSome_statFor_dir hlast hnode
    rw [statFor, hc] at hstat
    rw [statFor, get?_upsert ht.live, if_neg hne, hc]
    exact hstat
  · obtain ⟨hmem, hnone⟩ := mem_absent.mp hq
    obtain ⟨hpre, hlast⟩ := mem_dirs.mp hmem
    have hne : q ≠ key := by
      rintro rfl
      exact hkey hlast
    rw [statFor, get?_upsert ht.live, if_neg hne, hnone, if_pos hpre, hlast]
    rfl

theorem upsert_bound {c : Cell ν} (hc : t.get? key = some c) (hv : c.value.isSome) :
    upsert freshCell (bindFresh value) key t = t := by
  rw [upsert, grow_eq_self _ (by simp [hc])]
  refine alter_eq_self fun d hd => ?_
  obtain rfl : c = d := Option.some.inj (hc.symm.trans hd)
  rw [bindFresh, if_neg (Option.isSome_iff_ne_none.mp hv)]

/-- **An insertion by name**, of a key that does not end in '/'. -/
theorem delimInsert_created (ht : Regular t) (hkey : (storedKey key).getLast? ≠ some delim)
    (blocks : ℕ) :
    delimInsert zeroFilled blocks t key value =
      .ok (created t (storedKey key) value, blocks + (t.missing (storedKey key)).length) := by
  rw [delimInsert_eq, unlessDead_of_ne (ht.live.walk_ne_dead _), created, counted]
  show Except.map _ _ = _
  by_cases hbound : (valueAt t (storedKey key)).isSome
  · obtain ⟨v, hv⟩ := Option.isSome_iff_exists.mp hbound
    obtain ⟨c, hc, hcv⟩ := Option.bind_eq_some_iff.mp hv
    rw [if_pos hbound, if_pos hbound, upsert_bound value hc (by simp [hcv])]
    rfl
  · rw [if_neg hbound, if_neg hbound]
    -- routes stay as they are, so that the nodes counted before are found after
    have hgrow : (grow freshCell (storedKey key) t).route =
        (upsert freshCell (bindFresh value) (storedKey key) t).route :=
      route_of_shape (shape_alter ..).symm
    have hcredited : (credited t (storedKey key)).toList.map t.route =
        (credited t (storedKey key)).toList.map
          (upsert freshCell (bindFresh value) (storedKey key) t).route := by
      refine List.map_congr_left fun q hq => ?_
      have hcredited : credited t (storedKey key) = some q := by simpa using hq
      obtain ⟨-, hspell, -⟩ := credited_spec ht.ordered hcredited
      refine (route_of_spell (ht.ordered.upsert _ _) ?_).symm
      rw [upsert, ← spell_shape, shape_alter, spell_shape]
      exact spell_grow _ hspell _
    rw [toList_passed ht.ordered, added_eq ht.live, hgrow, hcredited, ← List.map_append,
      foldlM_addCount_eq 1 (isSome_statFor_counted value ht hkey)]
    rfl

/-- An insertion of a key that does not end in '/' keeps a tree regular. -/
theorem Regular.created (ht : Regular t) (hkey : key.getLast? ≠ some delim) :
    Regular (created t key value) := by
  rw [TSTree.created]
  split
  · exact ht
  · refine Regular.foldl_restat ⟨ht.live.upsert _ _, ht.ordered.upsert _ _, ?_⟩ _ _
    apply Every.alter_at (ht.ordered.grow _ _) (ht.cells.grow regularCell_freshCell key)
    intro c hc
    rw [bindFresh]
    split
    · exact ⟨fun _ => rfl, fun h => absurd h hkey, fun _ => rfl⟩
    · exact hc

end Insert

/-! ## Deletion by name

A deletion re-traces the means along the url, takes one off the count of its directory, and frees the
value. -/

/-- The tree after the deletion of a url. -/
def deleted (t : TSTree ν) (key : List CChar) : TSTree ν :=
  (uncount (parent delim key) (retrace Stats.create (dirs delim key ++ [key]) t)).alter clear key

theorem statFor_clear (t : TSTree ν) (q p : List CChar) :
    statFor (t.alter clear q) p = statFor t p := by
  rw [statFor, get?_alter]
  split
  · next hp =>
    subst hp
    cases hq : t.get? p <;> simp [statFor, hq, clear]
  · rfl

section Delete

variable {t : TSTree ν} {key : List CChar} {c : Cell ν}

theorem deleteAllSubnodes_deleted (ht : Regular t) (hc : t.get? key = some c)
    (hv : c.value.isSome) : deleteAllSubnodes t key = .ok (0, deleted t key) :=
  deleteAllSubnodes_eq (by simp [hc]) (ht.getLast?_ne_of_bound hc hv)
    (ht.isSome_statFor_of_bound hc hv)

/-- What the url's own cell has become when its value is freed. -/
theorem get?_deleted_leaf (ht : Regular t) (hc : t.get? key = some c) (hv : c.value.isSome) :
    ∃ d, (uncount (parent delim key)
        (retrace Stats.create (dirs delim key ++ [key]) t)).get? key = some d ∧
      d.stat = some Stats.create ∧ d.value.isSome := by
  have hkey := ht.getLast?_ne_of_bound hc hv
  have hstat : statFor (retrace Stats.create (dirs delim key ++ [key]) t) key =
      some Stats.create :=
    statFor_retrace_last (nodup_dirs_append hkey) List.getLast?_concat
      (ht.isSome_statFor_of_bound hc hv key (by simp))
  have hvalue : ((retrace Stats.create (dirs delim key ++ [key]) t).get? key).map Cell.value =
      (t.get? key).map Cell.value := value_retrace
  rw [hc, Option.map_some] at hvalue
  obtain ⟨d, hd, hdv⟩ := Option.map_eq_some_iff.mp hvalue
  refine ⟨d, ?_, by simpa [statFor, hd] using hstat, by rwa [hdv]⟩
  cases hm : parent delim key with
  | none => exact hd
  | some m => rw [uncount, get?_alter, if_neg (ne_of_parent hm).symm, hd]

/-- So does the deletion of a url. -/
theorem Regular.deleted (ht : Regular t) (key : List CChar) : Regular (deleted t key) :=
  ((ht.retrace _ _).uncount _).alter (fun _ _ hc => hc.clear) key

end Delete

/-! ## Sums over the children of a directory

A child is known by its name, so the children of a directory are some of the entries, and a sum over
them is a sum over all entries. It moves with the records that an operation changes and by nothing else. -/

section Share

variable [AddCommMonoid M] (worth : Option Stats → M) (p : List CChar)

/-- What a node adds to a sum over the children of `p`. -/
def share (q : List CChar) (c : Cell ν) : M :=
  if parent delim q = some p ∧ IsItem q c then worth c.stat else 0

/-- A sum over the children is a sum over the tree. -/
theorem total_share (hp : p.getLast? = some delim) (t : TSTree ν) :
    t.total (share worth p) = ((children p t).map fun e => worth e.2.stat).sum := by
  have hchildren : children p t =
      t.entries.filter fun e => parent delim e.1 = some p ∧ IsItem e.1 e.2 :=
    List.filter_congr fun e _ => by simp only [isChild_iff hp e.2]
  rw [hchildren]
  exact total_ite _ _ t

/-- A directory without a node has no children. -/
theorem total_share_of_get?_eq_none {t : TSTree ν} (ht : t.Ordered) (hp : p ≠ [])
    (h : t.get? p = none) : t.total (share worth p) = 0 := by
  refine total_eq_zero fun e he => if_neg ?_
  rintro ⟨hparent, -⟩
  obtain ⟨hpre, -⟩ := mem_dirs.mp (mem_dirs_of_parent hparent)
  have hnode : (t.get? p).isSome :=
    get?_isSome_of_prefix hp hpre (by rw [(mem_entries ht).mp he]; rfl)
  simp [h] at hnode

/-- A changed record moves the sum over its parent's children. -/
theorem total_share_restat {t : TSTree ν} {q : List CChar} {st : Stats} {c : Cell ν}
    (hc : t.get? q = some c) (hst : c.stat = some st) (hitem : IsItem q c) (f : Stats → Stats) :
    (t.alter (restat f) q).total (share worth p) +
        (if parent delim q = some p then worth (some st) else 0) =
      t.total (share worth p) + if parent delim q = some p then worth (some (f st)) else 0 := by
  have h := total_alter (share worth p) (f := restat f) hc
  have hitem' : IsItem q (restat f c) := hitem
  have hst' : (restat f c).stat = some (f st) := by simp [restat, hst]
  simpa only [share, hitem, hitem', and_true, hst, hst'] using h

/-- A cleared url leaves the children of its parent. -/
theorem total_share_clear {t : TSTree ν} {q : List CChar} {st : Stats} {c : Cell ν}
    (hc : t.get? q = some c) (hst : c.stat = some st) (hv : c.value.isSome)
    (hq : q.getLast? ≠ some delim) :
    (t.alter clear q).total (share worth p) +
        (if parent delim q = some p then worth (some st) else 0) =
      t.total (share worth p) := by
  have h := total_alter (share worth p) (f := clear) hc
  have hitem : IsItem q c := Or.inr hv
  have hitem' : ¬ IsItem q (clear c) := by simp [IsItem, clear, hq]
  simpa only [share, hitem, hitem', and_true, and_false, if_false, hst, add_zero] using h

variable {worth p}

theorem share_freshCell (q : List CChar) (k : CChar) :
    share worth p (q ++ [k]) (freshCell (ν := ν) k) =
      if k = delim ∧ parent delim (q ++ [k]) = some p then worth (some Stats.create) else 0 := by
  by_cases hk : k = delim
  · simp [share, IsItem, freshCell, hk]
  · simp [share, IsItem, freshCell, hk]

/-- New directories add to the sums of their parents. -/
theorem sum_freshSummand {qs : List (List CChar)} (h : ∀ q ∈ qs, q ≠ []) :
    (qs.map (freshSummand (freshCell (ν := ν)) (share worth p))).sum =
      ((qs.filter fun q => q.getLast? = some delim).filter
        fun q => parent delim q = some p).length • worth (some Stats.create) := by
  induction qs with
  | nil => simp
  | cons q qs ih =>
    obtain ⟨q, k, rfl⟩ := List.eq_nil_or_concat' q |>.resolve_left (h q (by simp))
    have hfresh : freshSummand (freshCell (ν := ν)) (share worth p) (q ++ [k]) =
        if k = delim ∧ parent delim (q ++ [k]) = some p then worth (some Stats.create) else 0 := by
      rw [← share_freshCell (ν := ν), freshSummand, List.getLast?_concat]
      rfl
    rw [List.map_cons, List.sum_cons, hfresh, ih fun r hr => h r (by simp [hr])]
    by_cases hk : k = delim
    · rw [List.filter_cons_of_pos (by simp [hk])]
      by_cases hparent : parent delim (q ++ [k]) = some p
      · rw [if_pos ⟨hk, hparent⟩, List.filter_cons_of_pos (by simpa using hparent),
          List.length_cons, succ_nsmul']
      · rw [if_neg fun h => hparent h.2, List.filter_cons_of_neg (by simpa using hparent), zero_add]
    · rw [if_neg fun h => hk h.1, List.filter_cons_of_neg (by simp [hk]), zero_add]

theorem absent_eq_filter_missing (t : TSTree ν) (key : List CChar) :
    absent t key = (t.missing key).filter fun q => q.getLast? = some delim := by
  rw [absent, dirs, missing, List.filter_filter, List.filter_filter]
  refine List.filter_congr fun q _ => ?_
  cases q with
  | nil => simp
  | cons j js => cases t.get? (j :: js) <;> simp

variable (worth p)

/-- **What an insertion adds to the sums**, before the counting: every created directory and the
key itself join the children of their parents. -/
theorem total_share_upsert {t : TSTree ν} (ht : Regular t) {key : List CChar} (value : ν)
    (hne : key ≠ []) (hkey : key.getLast? ≠ some delim) (hv : valueAt t key = none) :
    (upsert freshCell (bindFresh value) key t).total (share worth p) =
      t.total (share worth p) + ((absent t key ++ [key]).filter
        fun q => parent delim q = some p).length • worth (some Stats.create) := by
  have hgrow := total_grow freshCell (share worth p) ht.live key
  rw [sum_freshSummand fun q hq => (mem_missing.mp hq).2.1, ← absent_eq_filter_missing] at hgrow
  -- the node at the key has no value yet, so it is nobody's child
  obtain ⟨d, hd, hdv⟩ : ∃ d, (grow freshCell key t).get? key = some d ∧ d.value = none := by
    rw [get?_grow _ ht.live, if_pos (List.prefix_refl key)]
    cases hc : t.get? key with
    | some c => exact ⟨c, rfl, by simpa [valueAt, hc] using hv⟩
    | none =>
      obtain ⟨q, k, rfl⟩ := List.eq_nil_or_concat' key |>.resolve_left hne
      exact ⟨freshCell k, by simp, rfl⟩
  have hbind := total_alter (share worth p) (f := bindFresh value) hd
  have hold : share worth p key d = 0 := if_neg (by simp [IsItem, hkey, hdv])
  have hnew : share worth p key (bindFresh value d) =
      if parent delim key = some p then worth (some Stats.create) else 0 := by
    simp [share, IsItem, bindFresh, hdv]
  rw [hold, hnew, add_zero, hgrow] at hbind
  rw [upsert, hbind, List.filter_append, List.length_append, add_nsmul, add_assoc]
  by_cases hparent : parent delim key = some p <;> simp [hparent]

end Share

/-- The directories that an insertion gives a child: the last one it finds, if it finds one, and
all those it creates. -/
theorem length_new_children (t : TSTree ν) {key : List CChar} (hkey : key.getLast? ≠ some delim)
    (p : List CChar) :
    ((absent t key ++ [key]).filter fun q => parent delim q = some p).length =
      (if (existing t key).getLast? = some p then 1 else 0) + (absent t key).count p := by
  obtain ⟨a, l, hl⟩ : ∃ a l, absent t key ++ [key] = a :: l :=
    List.exists_cons_of_ne_nil (by simp)
  have hsplit : dirs delim key ++ [key] = existing t key ++ a :: l := by
    rw [dirs_eq_append t key, List.append_assoc, hl]
  have hchain := isChain_dirs_append hkey
  rw [hsplit] at hchain
  have hcount := count_parent p (List.isChain_append.mp hchain).2.1
  rwa [parent_eq_getLast? hkey hsplit, ← hl, List.dropLast_concat] at hcount

end Lcthw.TSTree
