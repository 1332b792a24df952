import Lcthw.SuffixTree.Defs

/-!
# Lcthw — strings whose edges are not split (`suffix_tree.c`)

Until a letter comes that is there already, every phase adds a leaf to the root (`Growing`). From then
on a phase only moves the active point along one leaf, for as long as the letters are the ones that
followed the first time (`Matching`). An edge is split when they are not (`FirstSplit`).

* **`run_growing`**, **`run_matching`**: the construction up to there.
* **`represents_of_unsplit`**: where no edge is split, every suffix is spelled along a leaf.
-/

namespace Lcthw.SuffixTree

/-- The first edge to be split: the letters before `m` are distinct, the one at `m` is also at `j`, and
the `k` letters from there are the same, but not the one behind them. -/
structure FirstSplit (string : List CChar) (m j k : ℕ) : Prop where
  nodup : (string.take m).Nodup
  lt : j < m
  pos : 0 < k
  same : ∀ i < k, string[m + i]? = string[j + i]?
  inside : m + k < string.length
  differ : string[m + k]? ≠ string[j + k]?

def Unsplit (string : List CChar) : Prop :=
  ∀ m j k, ¬ FirstSplit string m j k

/-- The letters before `m` are distinct, and the rest repeats what is at `j`. -/
structure Repeats (string : List CChar) (m j : ℕ) : Prop where
  nodup : (string.take m).Nodup
  lt : j < m
  inside : m < string.length
  same : ∀ i, m + i < string.length → string[m + i]? = string[j + i]?

/-! ## Letters and slots

A letter from 'a' to 'z' has a slot of its own. -/

def slotOf (c : CChar) : Fin 26 :=
  ⟨(c.toInt - 97).toNat % 26, Nat.mod_lt _ (by decide)⟩

variable {string : List CChar} {c d : CChar} {m j k r t f : ℕ} {s : State}

theorem slotOf_val (hc : 97 ≤ c.toInt ∧ c.toInt < 97 + 26) : ((slotOf c : ℕ) : ℤ) = c.toInt - 97 := by
  have hlt : (c.toInt - 97).toNat < 26 := by omega
  show (((c.toInt - 97).toNat % 26 : ℕ) : ℤ) = c.toInt - 97
  rw [Nat.mod_eq_of_lt hlt]
  omega

theorem slot_eq (hc : 97 ≤ c.toInt ∧ c.toInt < 97 + 26) : slot (c.toInt - 97) = .ok (slotOf c) := by
  have hval := slotOf_val hc
  unfold slot
  rw [dif_pos (by omega)]
  congr 1
  apply Fin.ext
  show (c.toInt - 97).toNat = (slotOf c : ℕ)
  omega

theorem slotOf_inj (hc : 97 ≤ c.toInt ∧ c.toInt < 97 + 26) (hd : 97 ≤ d.toInt ∧ d.toInt < 97 + 26)
    (h : slotOf c = slotOf d) : c = d := by
  have hcd := slotOf_val hc
  rw [h, slotOf_val hd] at hcd
  apply Int8.toInt_inj.mp
  omega

theorem Letters.of_getElem? (hs : Letters string) (h : string[r]? = some c) :
    97 ≤ c.toInt ∧ c.toInt < 97 + 26 :=
  hs c (List.mem_of_getElem? h)

theorem charAt_eq (h : string[r]? = some c) : charAt string r = .ok c := by
  have hlt : r < string.length := (List.getElem?_eq_some_iff.mp h).1
  have hread : (string ++ [0])[r]? = some c := by rw [List.getElem?_append_left hlt, h]
  unfold charAt
  rw [readAt_eq hread]
  rfl

/-! ## The leaves of the root

While no letter comes twice, the root has one leaf for each, and there is no other node. -/

def leaf (r : ℕ) : Edge :=
  { start := r, stop := .loop, node := none }

/-- The edges of the root after `r` phases that add a leaf. -/
def leaves (string : List CChar) : ℕ → Fin 26 → Option Edge
  | 0 => fun _ => none
  | r + 1 =>
    match string[r]? with
    | none => leaves string r
    | some c => Function.update (leaves string r) (slotOf c) (some (leaf r))

theorem leaves_succ (h : string[r]? = some c) :
    leaves string (r + 1) = Function.update (leaves string r) (slotOf c) (some (leaf r)) := by
  show (match string[r]? with
    | none => leaves string r
    | some c => Function.update (leaves string r) (slotOf c) (some (leaf r))) = _
  rw [h]

theorem leaves_behind (h : string[r]? = none) : leaves string (r + 1) = leaves string r := by
  show (match string[r]? with
    | none => leaves string r
    | some c => Function.update (leaves string r) (slotOf c) (some (leaf r))) = _
  rw [h]

/-- Every edge of the root is the leaf of a letter that has come. -/
theorem exists_of_leaves {i : Fin 26} {e : Edge} (h : leaves string r i = some e) :
    ∃ a c, a < r ∧ string[a]? = some c ∧ slotOf c = i ∧ e = leaf a := by
  induction r with
  | zero => cases h
  | succ r ih =>
    cases hr : string[r]? with
    | none =>
      rw [leaves_behind hr] at h
      obtain ⟨a, c, ha, hrest⟩ := ih h
      exact ⟨a, c, by omega, hrest⟩
    | some c =>
      rw [leaves_succ hr] at h
      by_cases hi : i = slotOf c
      · subst hi
        rw [Function.update_self] at h
        exact ⟨r, c, by omega, hr, rfl, (Option.some.inj h).symm⟩
      · rw [Function.update_of_ne hi] at h
        obtain ⟨a, c, ha, hrest⟩ := ih h
        exact ⟨a, c, by omega, hrest⟩

/-- A letter that has not come yet has no leaf. -/
theorem leaves_of_notMem (hs : Letters string) (hc : 97 ≤ c.toInt ∧ c.toInt < 97 + 26)
    (h : c ∉ string.take r) : leaves string r (slotOf c) = none := by
  by_contra hne
  obtain ⟨e, he⟩ := Option.ne_none_iff_exists'.mp hne
  obtain ⟨a, d, ha, hd, hslot, -⟩ := exists_of_leaves he
  obtain rfl := slotOf_inj (hs.of_getElem? hd) hc hslot
  refine h (List.mem_of_getElem? (i := a) ?_)
  rw [List.getElem?_take_of_lt ha, hd]

/-- The leaf of a letter starts where it comes first. -/
theorem leaves_of_getElem? (hs : Letters string) (hnd : (string.take r).Nodup) (hj : j < r)
    (h : string[j]? = some c) : leaves string r (slotOf c) = some (leaf j) := by
  induction r with
  | zero => omega
  | succ r ih =>
    have hlt : j < string.length := (List.getElem?_eq_some_iff.mp h).1
    cases hr : string[r]? with
    | none =>
      have hle : string.length ≤ r := List.getElem?_eq_none_iff.mp hr
      rw [leaves_behind hr]
      refine ih (hnd.sublist ?_) (by omega)
      rw [List.take_of_length_le hle, List.take_of_length_le (by omega)]
    | some d =>
      have htake : string.take (r + 1) = string.take r ++ [d] := by
        rw [List.take_add_one, hr]
        rfl
      rw [htake] at hnd
      obtain ⟨hnd', -, hdisj⟩ := List.nodup_append'.mp hnd
      rw [leaves_succ hr]
      -- the letters do not repeat, so that a later one has an edge of its own
      by_cases hjr : j = r
      · subst hjr
        obtain rfl : c = d := Option.some.inj (h.symm.trans hr)
        exact Function.update_self ..
      · have hmem : c ∈ string.take r := by
          apply List.mem_of_getElem? (i := j)
          rw [List.getElem?_take_of_lt (by omega), h]
        have hne : slotOf c ≠ slotOf d := by
          intro heq
          obtain rfl := slotOf_inj (hs.of_getElem? h) (hs.of_getElem? hr) heq
          exact hdisj hmem (by simp)
        rw [Function.update_of_ne hne]
        exact ih hnd' (by omega)

/-! ## Adding leaves

A phase with a new letter makes one turn of the inner loop, which adds its leaf. -/

/-- The state after `r` phases that add a leaf. -/
structure Growing (string : List CChar) (r : ℕ) (s : State) : Prop where
  cell : s.heap.cells 0 = some { edges := leaves string r, link := none }
  brk : s.heap.brk = 1
  ap : s.ap = { node := some 0, order := 0, active_length := 0 }
  remain : s.remain = 0

/-- The state when `t` letters from `m` are the ones from `j`. -/
structure Matching (string : List CChar) (m j t : ℕ) (c : CChar) (s : State) : Prop where
  cell : s.heap.cells 0 = some { edges := leaves string m, link := none }
  brk : s.heap.brk = 1
  ap : s.ap = { node := some 0, order := c, active_length := t }
  remain : s.remain = t

theorem growing_begin (string : List CChar) : Growing string 0 begin :=
  ⟨Heap.cells_alloc_self, rfl, rfl, rfl⟩

theorem edgeAt_eq {heap : Heap Node} {n : Node} {v : ℕ} (hn : heap.cells v = some n)
    (hc : 97 ≤ c.toInt ∧ c.toInt < 97 + 26) :
    edgeAt heap (some v) c = .ok (slotOf c, n.edges (slotOf c)) := by
  unfold edgeAt
  rw [Heap.load_eq hn, ok_bind, slot_eq hc]
  rfl

/-- A letter without an edge gets a leaf. -/
theorem extend_leaf {root : Ptr} {i : Fin 26} {x : ℤ} {s' : State} (hc : charAt string x = .ok c)
    (hal : s.ap.active_length = 0) (hedge : edgeAt s.heap s.ap.node c = .ok (i, none))
    (hgrow : growLeaf root x c s = .ok s') : extend string root x f s = .ok (s', false) := by
  unfold extend
  rw [hc, ok_bind, if_pos hal, hedge, ok_bind]
  show (if (none : Option Edge) = none then growLeaf root x c s >>= fun s => .ok (s, false) else _) = _
  rw [if_pos rfl, hgrow]
  rfl

/-- A letter that has an edge ends the loop, with the active point on that edge. -/
theorem extend_enter {root : Ptr} {i : Fin 26} {e : Edge} {x : ℤ} (hc : charAt string x = .ok c)
    (hal : s.ap.active_length = 0) (hedge : edgeAt s.heap s.ap.node c = .ok (i, some e)) :
    extend string root x f s =
      .ok ({ s with ap := { s.ap with order := c, active_length := s.ap.active_length + 1 } }, true) := by
  unfold extend
  rw [hc, ok_bind, if_pos hal, hedge, ok_bind]
  exact if_neg (Option.some_ne_none e)

/-- On an edge, the letter that follows there moves the active point on, and any other one splits the
edge. -/
theorem extend_along {root : Ptr} {i : Fin 26} {e : Edge} {x y : ℤ} {ap : ActivePoint}
    (hc : charAt string x = .ok c) (hal : s.ap.active_length ≠ 0)
    (hwalk : walkDown string x s.heap f s.ap = .ok (ap, i, e))
    (hpoint : activePoint s.heap ap = .ok y) (hd : charAt string y = .ok d) :
    extend string root x f s =
      if d = c then
        .ok ({ s with ap := { ap with active_length := ap.active_length + 1 } }, true)
      else splitEdge string root x c ap i e s >>= fun s => .ok (s, false) := by
  unfold extend
  rw [hc, ok_bind, if_neg hal, hwalk, ok_bind]
  show (activePoint s.heap ap >>= _) = _
  rw [hpoint, ok_bind, hd, ok_bind]
  rfl

theorem insertAll_break {root : Ptr} {x : ℤ} {s' : State} (hpos : 0 < s.remain)
    (h : extend string root x f s = .ok (s', true)) :
    insertAll string root x (f + 1) s = .ok s' := by
  rw [insertAll, if_pos hpos, h]
  rfl

theorem insertAll_step {root : Ptr} {x : ℤ} {s' : State} (hpos : 0 < s.remain)
    (h : extend string root x f s = .ok (s', false)) :
    insertAll string root x (f + 1) s = insertAll string root x f s' := by
  rw [insertAll, if_pos hpos, h]
  rfl

theorem insertAll_done {root : Ptr} {x : ℤ} (hzero : s.remain ≤ 0) :
    insertAll string root x (f + 1) s = .ok s := by
  rw [insertAll, if_neg (by omega)]
  rfl

/-- **A new letter is a new leaf of the root.** -/
theorem phase_growing (hs : Letters string) (h : string[r]? = some c)
    (hnew : c ∉ string.take r) (hg : Growing string r s) :
    ∃ s', phase string (some 0) (f + 2) s r = .ok s' ∧ Growing string (r + 1) s' := by
  have hc := hs.of_getElem? h
  obtain ⟨hcell, hbrk, hap, hremain⟩ := hg
  -- the letter is new, so that the root has no edge for it
  have hedge : edgeAt s.heap (some 0) c = .ok (slotOf c, leaves string r (slotOf c)) :=
    edgeAt_eq hcell hc
  rw [leaves_of_notMem hs hc hnew] at hedge
  have hcell' : (s.heap.put 0 fun n => n.setEdge (slotOf c) (leaf r)).cells 0 =
      some { edges := leaves string (r + 1), link := none } := by
    rw [Heap.cells_put_self hcell, leaves_succ h]
    rfl
  have hcreate : createEdge s.heap (some 0) c r = .ok
      (s.heap.put 0 fun n => n.setEdge (slotOf c) (leaf r)) := by
    unfold createEdge
    rw [slot_eq hc, ok_bind]
    exact Heap.modify_eq hcell
  let s₁ : State := { s with remain := s.remain + 1, prev_node := none }
  let s₂ : State := { heap := s.heap.put 0 fun n => n.setEdge (slotOf c) (leaf r)
                      ap := s.ap, prev_node := some 0, remain := s₁.remain - 1 }
  have hgrow : growLeaf (some 0) r c s₁ = .ok s₂ := by
    unfold growLeaf
    show (do
      let heap ← createEdge s.heap s.ap.node c r
      let heap ← setLink heap none s.ap.node
      let n ← heap.load s.ap.node
      return { heap
               ap := { s.ap with node := if n.link ≠ none then n.link else some 0 }
               prev_node := s.ap.node
               remain := s₁.remain - 1 } : Except Stop State) = _
    rw [hap]
    show (createEdge s.heap (some 0) c r >>= _) = _
    rw [hcreate, ok_bind]
    show ((s.heap.put 0 fun n => n.setEdge (slotOf c) (leaf r)).load (some 0) >>= _) = _
    rw [Heap.load_eq hcell', ok_bind]
    show _ = Except.ok s₂
    simp only [s₂, hap]
    rfl
  have hextend : extend string (some 0) r (f + 1) s₁ = .ok (s₂, false) := by
    have hal : s₁.ap.active_length = 0 := by
      show s.ap.active_length = 0
      rw [hap]
    have hedge₁ : edgeAt s₁.heap s₁.ap.node c = .ok (slotOf c, none) := by
      show edgeAt s.heap s.ap.node c = _
      rw [hap]
      exact hedge
    exact extend_leaf (charAt_eq h) hal hedge₁ hgrow
  have hpos : 0 < s₁.remain := by
    show 0 < s.remain + 1
    omega
  have hzero : s₂.remain = 0 := by
    show s.remain + 1 - 1 = 0
    omega
  refine ⟨s₂, ?_, hcell', hbrk, hap, hzero⟩
  show insertAll string (some 0) r (f + 2) s₁ = _
  rw [insertAll_step hpos hextend, insertAll_done hzero.le]

/-! ## Following a leaf

From the first letter that is there already on, a phase only moves the active point along that leaf, for
as long as the string repeats itself. -/

/-- A letter that is there already is where the active point goes. -/
theorem phase_enter (hs : Letters string) (hnd : (string.take m).Nodup) (hlt : j < m)
    (hj : string[j]? = some c) (hm : string[m]? = some c) (hg : Growing string m s) :
    ∃ s', phase string (some 0) (f + 1) s m = .ok s' ∧ Matching string m j 1 c s' := by
  have hc := hs.of_getElem? hj
  obtain ⟨hcell, hbrk, hap, hremain⟩ := hg
  have hedge : edgeAt s.heap (some 0) c = .ok (slotOf c, leaves string m (slotOf c)) :=
    edgeAt_eq hcell hc
  rw [leaves_of_getElem? hs hnd hlt hj] at hedge
  let s₁ : State := { s with remain := s.remain + 1, prev_node := none }
  have hal : s₁.ap.active_length = 0 := by
    show s.ap.active_length = 0
    rw [hap]
  have hedge₁ : edgeAt s₁.heap s₁.ap.node c = .ok (slotOf c, some (leaf j)) := by
    show edgeAt s.heap s.ap.node c = _
    rw [hap]
    exact hedge
  have hextend : extend string (some 0) m f s₁ = _ := extend_enter (charAt_eq hm) hal hedge₁
  have hpos : 0 < s₁.remain := by
    show 0 < s.remain + 1
    omega
  refine ⟨_, insertAll_break hpos hextend, hcell, hbrk, ?_, ?_⟩
  · show { s.ap with order := c, active_length := s.ap.active_length + 1 } = _
    rw [hap]
    rfl
  · show s.remain + 1 = _
    rw [hremain]
    rfl

/-- On a leaf the active point is never behind the end. -/
theorem walkDown_leaf (f t : ℕ) {heap : Heap Node} {n : Node} (hs : Letters string)
    (hn : heap.cells 0 = some n) (hj : string[j]? = some c)
    (he : n.edges (slotOf c) = some (leaf j)) (hlt : j < m) :
    walkDown string (m + t : ℕ) heap (f + 1) { node := some 0, order := c, active_length := t } =
        .ok ({ node := some 0, order := c, active_length := t }, slotOf c, leaf j) ∧
      activePoint heap { node := some 0, order := c, active_length := t } = .ok ((j + t : ℕ) : ℤ) := by
  have hc := hs.of_getElem? hj
  have hedge := edgeAt_eq hn hc
  rw [he] at hedge
  have hne : c ≠ 0 := by
    rintro rfl
    exact absurd hc.1 (by decide)
  have hpoint : activePoint heap { node := some 0, order := c, active_length := t } =
      .ok ((j + t : ℕ) : ℤ) := by
    unfold activePoint
    rw [if_neg hne, hedge]
    rfl
  refine ⟨?_, hpoint⟩
  have hcurrent : currentEdge heap { node := some 0, order := c, active_length := t } =
      .ok (slotOf c, some (leaf j)) := hedge
  rw [walkDown, hpoint, ok_bind, hcurrent, ok_bind]
  apply if_neg
  show ¬ ((j + t : ℕ) : ℤ) > ((m + t : ℕ) : ℤ)
  omega

/-- On the edge of a leaf the letter that comes in is compared with the next one there. -/
theorem extend_matching {e : CChar} (hs : Letters string) (hnd : (string.take m).Nodup)
    (hlt : j < m) (hpos : 0 < t) (hj : string[j]? = some c) (hin : string[m + t]? = some e)
    (hd : string[j + t]? = some d) (hg : Matching string m j t c s) :
    extend string (some 0) (m + t : ℕ) (f + 1) { s with remain := s.remain + 1, prev_node := none } =
      if d = e then
        .ok ({ heap := s.heap, ap := { node := some 0, order := c, active_length := (t : ℤ) + 1 }
               prev_node := none, remain := s.remain + 1 }, true)
      else
        splitEdge string (some 0) (m + t : ℕ) e { node := some 0, order := c, active_length := t }
          (slotOf c) (leaf j) { s with remain := s.remain + 1, prev_node := none } >>=
            fun s => .ok (s, false) := by
  obtain ⟨hwalk, hpoint⟩ :=
    walkDown_leaf f t hs hg.cell hj (leaves_of_getElem? hs hnd hlt hj) hlt
  have hal : s.ap.active_length ≠ 0 := by
    rw [hg.ap]
    show (t : ℤ) ≠ 0
    omega
  have hwalk₁ : walkDown string (m + t : ℕ) s.heap (f + 1) s.ap =
      .ok ({ node := some 0, order := c, active_length := t }, slotOf c, leaf j) := by
    rw [hg.ap]
    exact hwalk
  exact extend_along (charAt_eq hin) hal hwalk₁ hpoint (charAt_eq hd)

/-- **A letter that follows as it did the first time moves the active point on.** -/
theorem phase_matching (hs : Letters string) (hnd : (string.take m).Nodup) (hlt : j < m)
    (hpos : 0 < t) (hj : string[j]? = some c) (hinside : m + t < string.length)
    (hsame : string[m + t]? = string[j + t]?) (hg : Matching string m j t c s) :
    ∃ s', phase string (some 0) (f + 2) s (m + t : ℕ) = .ok s' ∧
      Matching string m j (t + 1) c s' := by
  obtain ⟨d, hd⟩ : ∃ d, string[m + t]? = some d := ⟨_, List.getElem?_eq_getElem hinside⟩
  have hextend := extend_matching (f := f) hs hnd hlt hpos hj hd (hsame ▸ hd) hg
  obtain ⟨hcell, hbrk, hap, hremain⟩ := hg
  rw [if_pos rfl] at hextend
  have hpos₁ : 0 < s.remain + 1 := by omega
  refine ⟨_, insertAll_break hpos₁ hextend, hcell, hbrk, ?_, ?_⟩
  · show ({ node := some 0, order := c, active_length := (t : ℤ) + 1 } : ActivePoint) = _
    push_cast
    rfl
  · show s.remain + 1 = _
    rw [hremain]
    push_cast
    rfl

/-! ## Whole strings

The phases one after the other. A string comes to its end while it adds leaves, or while it follows one,
or it comes to a letter where an edge is split. -/

/-- **While the letters are new, the construction adds a leaf for each.** -/
theorem run_growing (hs : Letters string) (hnd : (string.take r).Nodup) (hle : r ≤ string.length) :
    ∃ s, Run.run (phase string (some 0) (f + 2)) begin (List.range r) = .ok s ∧
      Growing string r s := by
  induction r with
  | zero => exact ⟨begin, rfl, growing_begin string⟩
  | succ r ih =>
    obtain ⟨c, hc⟩ : ∃ c, string[r]? = some c := ⟨_, List.getElem?_eq_getElem (by omega)⟩
    have htake : string.take (r + 1) = string.take r ++ [c] := by
      rw [List.take_add_one, hc]
      rfl
    rw [htake] at hnd
    obtain ⟨hnd', -, hdisj⟩ := List.nodup_append'.mp hnd
    have hnew : c ∉ string.take r := fun hmem => hdisj hmem (by simp)
    obtain ⟨s, hrun, hg⟩ := ih hnd' (by omega)
    obtain ⟨s', hphase, hg'⟩ := phase_growing (f := f) hs hc hnew hg
    refine ⟨s', ?_, hg'⟩
    rw [List.range_succ, Run.run_append, hrun]
    show Run.run _ s [r] = _
    rw [Run.run_cons, hphase]
    rfl

/-- **While the letters are the ones from `j`, the construction changes nothing but the active
point.** -/
theorem run_matching (hs : Letters string) (hnd : (string.take m).Nodup) (hlt : j < m)
    (hj : string[j]? = some c) (hpos : 0 < t) (hle : m + t ≤ string.length)
    (hsame : ∀ i < t, string[m + i]? = string[j + i]?) :
    ∃ s, Run.run (phase string (some 0) (f + 2)) begin (List.range (m + t)) = .ok s ∧
      Matching string m j t c s := by
  induction t with
  | zero => omega
  | succ t ih =>
    -- one more phase
    have happ : ∀ s, Run.run (phase string (some 0) (f + 2)) begin (List.range (m + t)) = .ok s →
        Run.run (phase string (some 0) (f + 2)) begin (List.range (m + (t + 1))) =
          phase string (some 0) (f + 2) s (m + t : ℕ) := by
      intro s hrun
      show Run.run _ begin (List.range (m + t + 1)) = _
      rw [List.range_succ, Run.run_append, hrun]
      show Run.run _ s [m + t] = _
      rw [Run.run_cons]
      cases phase string (some 0) (f + 2) s (m + t : ℕ) <;> rfl
    cases t with
    | zero =>
      have hm : string[m]? = some c := (hsame 0 (by omega)).trans hj
      obtain ⟨s, hrun, hg⟩ := run_growing (f := f) hs hnd (by omega)
      obtain ⟨s', hphase, hg'⟩ := phase_enter (f := f + 1) hs hnd hlt hj hm hg
      exact ⟨s', (happ s hrun).trans hphase, hg'⟩
    | succ t =>
      obtain ⟨s, hrun, hg⟩ := ih (by omega) (by omega) fun i hi => hsame i (by omega)
      obtain ⟨s', hphase, hg'⟩ := phase_matching (f := f) hs hnd hlt (by omega) hj (by omega)
        (hsame (t + 1) (by omega)) hg
      exact ⟨s', (happ s hrun).trans hphase, hg'⟩

/-- A string without repetition, one that goes on as it did before, or one whose edge is split. -/
theorem nodup_or_repeats_or_firstSplit (string : List CChar) :
    string.Nodup ∨ (∃ m j, Repeats string m j) ∨ ∃ m j k, FirstSplit string m j k := by
  classical
  by_cases hnd : string.Nodup
  · exact .inl hnd
  · refine .inr ?_
    -- the first letter that is there already
    have hex : ∃ m, ¬ (string.take (m + 1)).Nodup := by
      refine ⟨string.length, ?_⟩
      rw [List.take_of_length_le (by omega)]
      exact hnd
    let m := Nat.find hex
    have hdup : ¬ (string.take (m + 1)).Nodup := Nat.find_spec hex
    have hmnd : (string.take m).Nodup := by
      cases hm : m with
      | zero => exact List.nodup_nil
      | succ q => exact not_not.mp (Nat.find_min hex (show q < m by omega))
    have hmlt : m < string.length := by
      by_contra hge
      rw [List.take_of_length_le (by omega)] at hmnd
      exact hnd hmnd
    obtain ⟨c, hc⟩ : ∃ c, string[m]? = some c := ⟨_, List.getElem?_eq_getElem hmlt⟩
    have hmem : c ∈ string.take m := by
      by_contra hnotMem
      apply hdup
      rw [List.take_add_one, hc]
      exact hmnd.append (List.nodup_singleton c) (by simpa using hnotMem)
    obtain ⟨j, hj⟩ := List.mem_iff_getElem?.mp hmem
    have hjm : j < m := by
      have hlen := (List.getElem?_eq_some_iff.mp hj).1
      rw [List.length_take] at hlen
      omega
    rw [List.getElem?_take_of_lt hjm] at hj
    by_cases hsame : ∀ i, m + i < string.length → string[m + i]? = string[j + i]?
    · exact .inl ⟨m, j, hmnd, hjm, hmlt, hsame⟩
    · -- the first letter that is not the one that followed before
      refine .inr ?_
      have hexk : ∃ k, m + k < string.length ∧ string[m + k]? ≠ string[j + k]? := by
        push Not at hsame
        exact hsame
      obtain ⟨hin, hne⟩ := Nat.find_spec hexk
      refine ⟨m, j, Nat.find hexk, hmnd, hjm, ?_, ?_, hin, hne⟩
      · refine Nat.pos_of_ne_zero fun hzero => hne ?_
        rw [hzero]
        exact hc.trans hj.symm
      · intro i hi
        have hmin := Nat.find_min hexk hi
        push Not at hmin
        exact hmin (by omega)

/-! ## The tree

Where no edge is split the tree is the leaves of the root. A suffix that did not get its own leaf is a
prefix of one that did. -/

theorem label_leaf (h : r ≤ string.length) : label string (leaf r) = string.drop r := by
  show (string.drop (r : ℤ).toNat).take ((string.length : ℤ) - 1 + 1 - r).toNat = _
  rw [Int.toNat_natCast]
  apply List.take_of_length_le
  rw [List.length_drop]
  omega

theorem spelled_singleton {i : Fin 26} {e : Edge} : spelled string [(i, e)] = label string e :=
  List.flatMap_singleton ..

/-- Below the root there are only leaves. -/
theorem eq_of_path {heap : Heap Node} {es : List (Fin 26 × Edge)}
    (hcell : heap.cells 0 = some { edges := leaves string m, link := none })
    (hpath : Path heap (some 0) es) :
    es = [] ∨ ∃ a c, a < m ∧ string[a]? = some c ∧ es = [(slotOf c, leaf a)] := by
  cases hpath with
  | nil => exact .inl rfl
  | cons hn he hes =>
    obtain rfl := Option.some.inj (hcell.symm.trans hn)
    obtain ⟨a, c, ha, hc, rfl, rfl⟩ := exists_of_leaves he
    cases hes
    exact .inr ⟨a, c, ha, hc, rfl⟩

/-- The leaves of the root are the tree, when every suffix is a prefix of what one of them spells. -/
theorem represents_of_leaves {heap : Heap Node} (hs : Letters string)
    (hnd : (string.take m).Nodup) (hle : m ≤ string.length)
    (hbuild : build string f = .ok heap)
    (hcell : heap.cells 0 = some { edges := leaves string m, link := none })
    (hcover : ∀ i < string.length, ∃ a < m, string.drop i <+: string.drop a) :
    Represents string := by
  refine ⟨f, heap, hbuild, ?_, ?_⟩
  · rintro w ⟨u, rfl⟩
    by_cases hw : w = []
    · subst hw
      exact ⟨[], .nil _, fun ie hie => absurd hie List.not_mem_nil, List.nil_prefix⟩
    · have hpos : 0 < w.length := List.length_pos_iff.mpr hw
      -- a suffix without a leaf begins another one
      obtain ⟨a, ha, hpre⟩ := hcover u.length (by rw [List.length_append]; omega)
      rw [List.drop_left] at hpre
      obtain ⟨c, hc⟩ : ∃ c, (u ++ w)[a]? = some c := ⟨_, List.getElem?_eq_getElem (by omega)⟩
      have hlabel : label (u ++ w) (leaf a) = (u ++ w).drop a := label_leaf (by omega)
      refine ⟨[(slotOf c, leaf a)],
        .cons hcell (leaves_of_getElem? hs hnd ha hc) (.nil _), ?_, ?_⟩
      · intro ie hie
        obtain rfl := List.mem_singleton.mp hie
        refine ⟨c, ?_, (slotOf_val (hs.of_getElem? hc)).symm⟩
        rw [hlabel, List.head?_drop, hc]
      · rw [spelled_singleton, hlabel]
        exact hpre
  · intro es hpath
    obtain rfl | ⟨a, c, ha, hc, rfl⟩ := eq_of_path hcell hpath
    · exact List.nil_infix
    · rw [spelled_singleton, label_leaf (by omega)]
      exact (List.drop_suffix a string).isInfix

/-- What comes after a repetition is there from the first time on. -/
theorem Repeats.exists_prefix (h : Repeats string m j) (i : ℕ) (hi : i < string.length) :
    ∃ a < m, string.drop i <+: string.drop a := by
  induction i using Nat.strong_induction_on with
  | _ i ih =>
    by_cases him : i < m
    · exact ⟨i, him, List.prefix_rfl⟩
    · have hlt := h.lt
      obtain ⟨a, ha, hpre⟩ := ih (j + (i - m)) (by omega) (by omega)
      refine ⟨a, ha, List.IsPrefix.trans ?_ hpre⟩
      rw [List.prefix_iff_getElem?]
      intro x hx
      rw [List.length_drop] at hx
      have hsame := h.same (i - m + x) (by omega)
      rw [List.getElem?_drop, List.getElem_drop, ← List.getElem?_eq_getElem,
        show j + (i - m) + x = j + (i - m + x) by omega, ← hsame]
      congr 1
      omega

/-- **Where no edge is split, the tree represents every suffix.** -/
theorem represents_of_unsplit (hs : Letters string) (h : Unsplit string) : Represents string := by
  obtain hnd | ⟨m, j, hr⟩ | ⟨m, j, k, hsplit⟩ := nodup_or_repeats_or_firstSplit string
  · have htake : (string.take string.length).Nodup := by rwa [List.take_length]
    obtain ⟨s, hrun, hg⟩ := run_growing (f := 0) hs htake le_rfl
    have hbuild : build string 2 = .ok s.heap := by
      unfold build
      rw [hrun]
      rfl
    exact represents_of_leaves hs htake le_rfl hbuild hg.cell fun i hi => ⟨i, hi, List.prefix_rfl⟩
  · have hinside := hr.inside
    have hlt := hr.lt
    obtain ⟨c, hj⟩ : ∃ c, string[j]? = some c := ⟨_, List.getElem?_eq_getElem (by omega)⟩
    obtain ⟨s, hrun, hg⟩ := run_matching (t := string.length - m) (f := 0) hs hr.nodup hlt hj
      (by omega) (by omega) fun i hi => hr.same i (by omega)
    rw [show m + (string.length - m) = string.length by omega] at hrun
    have hbuild : build string 2 = .ok s.heap := by
      unfold build
      rw [hrun]
      rfl
    exact represents_of_leaves hs hr.nodup hinside.le hbuild hg.cell hr.exists_prefix
  · exact absurd hsplit (h m j k)

end Lcthw.SuffixTree
