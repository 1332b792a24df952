import Lcthw.SuffixTree.Depths

/-!
# Lcthw — strings whose first edge is split (`suffix_tree.c`)

When the position of the lower half is not the slot of its letter, no way leads to it, and nothing that
happens afterwards brings an earlier suffix back.

* **`build_of_le`**: more fuel builds the same.
* **`Site.Active`**, **`Site.Rest`**: the invariant at the head of the inner loop, and between two
  phases. The active point is never deeper than suffixes remain to be inserted.
* **`not_represents_of_misplaced`**: the suffix that was split off is lost.
* **`represents_until_split`**: strings without a split, and those with a first split like that.
-/

namespace Lcthw.SuffixTree

/-! ## Fuel

The loops have as much fuel as they are given. A loop that has ended would have ended the same way with
more, so it is enough to give one amount that works. -/

section Fuel

variable {string : List CChar} {root : Ptr} {«end» : ℤ} {heap : Heap Node} {ap : ActivePoint}
  {s s' : State} {is : List ℕ} {f f' : ℕ}

/-- A walk that has ended ends the same with more fuel. -/
theorem walkDown_mono {r : ActivePoint × Fin 26 × Edge}
    (h : walkDown string «end» heap f ap = .ok r) :
    walkDown string «end» heap (f + 1) ap = .ok r := by
  induction f generalizing ap with
  | zero => cases h
  | succ f ih =>
    rw [walkDown] at h ⊢
    obtain ⟨point, hpoint, h⟩ := bind_eq_ok.mp h
    obtain ⟨⟨i, e⟩, hcurrent, h⟩ := bind_eq_ok.mp h
    rw [hpoint, ok_bind, hcurrent, ok_bind]
    cases e with
    | none => cases h
    | some e =>
      simp only [] at h ⊢
      split at h
      · next hover =>
        rw [if_pos hover]
        obtain ⟨order, horder, h⟩ := bind_eq_ok.mp h
        rw [horder, ok_bind]
        exact ih h
      · next hinside =>
        rw [if_neg hinside]
        exact h

theorem extend_mono {r : State × Bool} (h : extend string root «end» f s = .ok r) :
    extend string root «end» (f + 1) s = .ok r := by
  unfold extend at h ⊢
  obtain ⟨c, hc, h⟩ := bind_eq_ok.mp h
  rw [hc, ok_bind]
  split at h
  · next hzero =>
    rw [if_pos hzero]
    exact h
  · next hzero =>
    rw [if_neg hzero]
    obtain ⟨found, hwalk, h⟩ := bind_eq_ok.mp h
    rw [walkDown_mono hwalk, ok_bind]
    exact h

/-- And so does the inner loop. -/
theorem insertAll_mono (h : insertAll string root «end» f s = .ok s') :
    insertAll string root «end» (f + 1) s = .ok s' := by
  induction f generalizing s with
  | zero => cases h
  | succ f ih =>
    rw [insertAll] at h ⊢
    split at h
    · next hmore =>
      rw [if_pos hmore]
      obtain ⟨⟨s₁, stop⟩, hextend, h⟩ := bind_eq_ok.mp h
      rw [extend_mono hextend, ok_bind]
      simp only [] at h ⊢
      split at h
      · next hstop =>
        rw [if_pos hstop]
        exact h
      · next hstop =>
        rw [if_neg hstop]
        exact ih h
    · next hdone =>
      rw [if_neg hdone]
      exact h

theorem run_mono (h : Run.run (phase string root f) s is = .ok s') :
    Run.run (phase string root (f + 1)) s is = .ok s' := by
  induction is generalizing s with
  | nil => exact h
  | cons i is ih =>
    obtain ⟨s₁, hphase, hrest⟩ := (Run.run_cons_ok _).mp h
    exact (Run.run_cons_ok _).mpr ⟨s₁, insertAll_mono hphase, ih hrest⟩

theorem build_mono (h : build string f = .ok heap) : build string (f + 1) = .ok heap := by
  unfold build at h ⊢
  obtain ⟨s, hrun, h⟩ := bind_eq_ok.mp h
  rw [run_mono hrun, ok_bind]
  exact h

theorem build_of_le (h : build string f = .ok heap) (hle : f ≤ f') : build string f' = .ok heap := by
  induction f', hle using Nat.le_induction with
  | base => exact h
  | succ f' _ ih => exact build_mono ih

end Fuel

namespace Site

variable {L : Site} {g : Survey} {heap heap' : Heap Node} {u v : ℕ} {n : Node} {i : Fin 26} {e : Edge}
  {t : ℤ}

/-! ## The inner loop

Each turn inserts a suffix and moves the active point to the next one. The invariant is about depths:
the active point is never deeper than there are suffixes to insert, so no turn can come back to a suffix
before the one that was split off. -/

/-- Between two phases: the next one is `t`, and the active point is at most as deep as suffixes remain
to be inserted, none of which starts before `m`. -/
structure Rest (L : Site) (g : Survey) (t : ℤ) (s : State) : Prop where
  sound : L.Sound g s.heap
  length_nonneg : 0 ≤ s.ap.active_length
  remain_nonneg : 0 ≤ s.remain
  depth_le : ∀ v, s.ap.node = some v → g.depth v + s.ap.active_length ≤ s.remain
  remain_le : L.m + s.remain ≤ t

/-- At the head of the inner loop of phase `t`. The node that waits for its link is above the active
point, or it is the root, which has an edge for the letter by then. -/
structure Active (L : Site) (g : Survey) (t : ℤ) (s : State) : Prop where
  sound : L.Sound g s.heap
  length_nonneg : 0 ≤ s.ap.active_length
  remain_nonneg : 0 ≤ s.remain
  depth_le : ∀ v, s.ap.node = some v →
    g.depth v + s.ap.active_length ≤ s.remain - 1 ∨ s.remain = 0 ∧
      g.depth v + s.ap.active_length ≤ 0
  remain_le : L.m + s.remain ≤ t + 1
  prev : ∀ u, s.prev_node = some u →
    u = 0 ∧ s.ap.node = some 0 ∧ s.ap.active_length = 0 ∧
      (∀ c, charAt L.string t = .ok c → ∃ i e, edgeAt s.heap (some 0) c = .ok (i, some e)) ∨
    u ≠ 0 ∧ u < s.heap.brk ∧
      ∀ v, s.ap.node = some v → g.depth v + s.ap.active_length < g.depth u

variable {s s' : State} {c : CChar} {f : ℕ}

/-- A phase starts with one more suffix to insert. -/
theorem Rest.active (h : L.Rest g t s) :
    L.Active g t { s with remain := s.remain + 1, prev_node := none } where
  sound := h.sound
  length_nonneg := h.length_nonneg
  remain_nonneg := by
    have hnonneg := h.remain_nonneg
    show 0 ≤ s.remain + 1
    omega
  depth_le v hv := by
    left
    have hle := h.depth_le v hv
    show g.depth v + s.ap.active_length ≤ s.remain + 1 - 1
    omega
  remain_le := by
    have hle := h.remain_le
    show L.m + (s.remain + 1) ≤ t + 1
    omega
  prev := nofun

/-- A new leaf belongs to a suffix that starts at `m` or later. -/
theorem leafOk {brk : ℕ} (ht : 0 ≤ t) (hm : L.m ≤ t - g.depth v) :
    L.EdgeOk g brk v i { start := t, stop := .loop, node := none } where
  start_nonneg := ht
  stop := nofun
  child := nofun
  late _ := ⟨Or.inl hm, nofun⟩

/-! ### What the operations on the state have done -/

theorem of_growLeaf {root : Ptr} (h : SuffixTree.growLeaf root t c s = .ok s') :
    ∃ heap₁ heap₂ n, createEdge s.heap s.ap.node c t = .ok heap₁ ∧
      SuffixTree.setLink heap₁ s.prev_node s.ap.node = .ok heap₂ ∧
      (heap₂.load s.ap.node : Except Stop Node) = .ok n ∧
      s' = { heap := heap₂
             ap := { s.ap with node := if n.link ≠ none then n.link else root }
             prev_node := s.ap.node
             remain := s.remain - 1 } := by
  unfold SuffixTree.growLeaf at h
  obtain ⟨heap₁, hcreate, hrest₁⟩ := bind_eq_ok.mp h
  obtain ⟨heap₂, hlink, hrest₂⟩ := bind_eq_ok.mp hrest₁
  obtain ⟨n, hload, hret⟩ := bind_eq_ok.mp hrest₂
  exact ⟨heap₁, heap₂, n, hcreate, hlink, hload, (Except.ok.inj hret).symm⟩

theorem of_splitEdge {string : List CChar} {root : Ptr} {ap : ActivePoint}
    (h : SuffixTree.splitEdge string root t c ap i e s = .ok s') :
    ∃ heap₁ node heap₂ heap₃ ap₃, createNode s.heap ap.node i e ap.active_length = .ok (heap₁, node) ∧
      createEdge heap₁ node c t = .ok heap₂ ∧
      SuffixTree.setLink heap₂ s.prev_node node = .ok heap₃ ∧
      SuffixTree.nextPoint string root t heap₃ ap = .ok ap₃ ∧
      s' = { heap := heap₃, ap := ap₃, prev_node := node, remain := s.remain - 1 } := by
  unfold SuffixTree.splitEdge at h
  obtain ⟨⟨heap₁, node⟩, hcreate, hrest₁⟩ := bind_eq_ok.mp h
  obtain ⟨heap₂, hleaf, hrest₂⟩ := bind_eq_ok.mp hrest₁
  obtain ⟨heap₃, hlink, hrest₃⟩ := bind_eq_ok.mp hrest₂
  obtain ⟨ap₃, hnext, hret⟩ := bind_eq_ok.mp hrest₃
  exact ⟨heap₁, node, heap₂, heap₃, ap₃, hcreate, hleaf, hlink, hnext, (Except.ok.inj hret).symm⟩

/-- At the root the active point gets shorter; anywhere else it goes along a link and keeps its length.
-/
theorem of_nextPoint {string : List CChar} {root : Ptr} {ap ap' : ActivePoint}
    (h : SuffixTree.nextPoint string root t heap ap = .ok ap') :
    ap.node = root ∧ ap'.node = root ∧ ap'.active_length = ap.active_length - 1 ∨
      ∃ v n, ap.node = some v ∧ heap.cells v = some n ∧ ap'.node = n.link ∧
        ap'.active_length = ap.active_length := by
  unfold SuffixTree.nextPoint at h
  split at h
  · next hroot =>
    obtain ⟨order, -, hret⟩ := bind_eq_ok.mp h
    obtain rfl := Except.ok.inj hret
    exact Or.inl ⟨hroot, hroot, rfl⟩
  · obtain ⟨n, hload, hret⟩ := bind_eq_ok.mp h
    obtain rfl := Except.ok.inj hret
    obtain ⟨v, hv, hn⟩ := Heap.of_load hload
    exact Or.inr ⟨v, n, hv, hn, rfl, rfl⟩

/-- **The active point behind a split is less deep.** -/
theorem Sound.nextPoint (h : L.Sound g heap) {ap ap' : ActivePoint} (hv : ap.node = some v)
    (hal : 0 ≤ ap.active_length) (hdepth : 1 ≤ g.depth v + ap.active_length)
    (hnext : SuffixTree.nextPoint L.string (some 0) t heap ap = .ok ap') :
    0 ≤ ap'.active_length ∧ ∀ w, ap'.node = some w →
      g.depth w + ap'.active_length < g.depth v + ap.active_length := by
  obtain ⟨hroot, hroot', hal'⟩ | ⟨v', n, hv', hn, hlink, hal'⟩ := of_nextPoint hnext
  · -- at the root the suffix gets one letter shorter
    obtain rfl : v = 0 := Option.some.inj (hv.symm.trans hroot)
    rw [g.depth_root] at hdepth ⊢
    refine ⟨by omega, fun w hw => ?_⟩
    obtain rfl : 0 = w := Option.some.inj (hroot'.symm.trans hw)
    rw [g.depth_root]
    omega
  · -- elsewhere the link leads to a node that is less deep
    obtain rfl : v = v' := Option.some.inj (hv.symm.trans hv')
    refine ⟨by omega, fun w hw => ?_⟩
    have hlt := (h.link v n w hn (hlink.symm.trans hw)).2
    omega

/-- The active point behind a new leaf goes along the link, or back to the root. -/
theorem Sound.next_of_link (h : L.Sound g heap) (hn : heap.cells v = some n) {w : ℕ}
    (hw : (if n.link ≠ none then n.link else some 0) = some w) : w = 0 ∨ g.depth w < g.depth v := by
  split at hw
  · exact Or.inr (h.link v n w hn hw).2
  · exact Or.inl (Option.some.inj hw).symm

/-- There is no link from the root. -/
theorem Sound.link_root (h : L.Sound g heap) (hn : heap.cells 0 = some n) : n.link = none := by
  by_contra hsome
  obtain ⟨w, hw⟩ := Option.ne_none_iff_exists'.mp hsome
  have hlt := (h.link 0 n w hn hw).2
  have hnonneg := g.depth_nonneg w
  rw [g.depth_root] at hlt
  omega

/-- The root only waits for its link while it has an edge for the letter. -/
theorem Active.prev_of_leaf (h : L.Active g t s) (hc : charAt L.string t = .ok c)
    (hedge : edgeAt s.heap s.ap.node c = .ok (i, none)) (hv : s.ap.node = some v)
    (hal : s.ap.active_length = 0) : ∀ u, s.prev_node = some u → g.depth v < g.depth u := by
  intro u hu
  rcases h.prev u hu with ⟨-, hroot, -, hthere⟩ | ⟨-, -, hless⟩
  · obtain ⟨i', e', he'⟩ := hthere c hc
    rw [hroot, he'] at hedge
    cases hedge
  · have hlt := hless v hv
    rw [hal, add_zero] at hlt
    exact hlt

/-! ### The two ways in which a suffix is inserted -/

/-- A new leaf of the active node. -/
theorem Active.growLeaf (h : L.Active g t s) (ht : 0 ≤ t) (hpos : 0 < s.remain)
    (hc : charAt L.string t = .ok c) (hal : s.ap.active_length = 0)
    (hedge : edgeAt s.heap s.ap.node c = .ok (i, none))
    (hgrow : SuffixTree.growLeaf (some 0) t c s = .ok s') : L.Active g t s' := by
  obtain ⟨heap₁, heap₂, n', hcreate, hlink, hload, rfl⟩ := of_growLeaf hgrow
  obtain ⟨v, n, k, hv, hn, hslot, rfl⟩ := of_createEdge hcreate
  have hprev := h.prev_of_leaf hc hedge hv hal
  rw [hv] at hlink hload
  have hdepth : g.depth v ≤ s.remain - 1 := by
    rcases h.depth_le v hv with hle | ⟨hzero, -⟩ <;> omega
  have hremain := h.remain_le
  have hnonneg := g.depth_nonneg v
  have hleaf : L.EdgeOk g s.heap.brk v k { start := t, stop := .loop, node := none } :=
    leafOk ht (by omega)
  have hsound₁ := h.sound.setEdge hn hleaf
  have hlt : v < s.heap.brk := Heap.lt_brk hn
  obtain ⟨hsound₂, hbrk₂, hcell⟩ := hsound₁.relink hlink (show v < s.heap.brk from hlt) hprev
  change heap₂.brk = s.heap.brk at hbrk₂
  have hn' : heap₂.cells v = some (n.setEdge k ⟨t, .loop, none⟩) :=
    hcell.trans (Heap.cells_put_self hn)
  obtain rfl : n.setEdge k ⟨t, .loop, none⟩ = n' :=
    Except.ok.inj ((Heap.load_eq hn').symm.trans hload)
  have hnext : ∀ w, (if n.link ≠ none then n.link else some 0) = some w →
      w = 0 ∨ g.depth w < g.depth v := fun w hw => hsound₂.next_of_link hn' hw
  refine ⟨hsound₂, h.length_nonneg, ?_, ?_, ?_, ?_⟩
  · show 0 ≤ s.remain - 1
    omega
  · intro w hw
    show g.depth w + s.ap.active_length ≤ s.remain - 1 - 1 ∨
      s.remain - 1 = 0 ∧ g.depth w + s.ap.active_length ≤ 0
    rcases hnext w hw with rfl | hlt
    · rw [g.depth_root]
      omega
    · omega
  · show L.m + (s.remain - 1) ≤ t + 1
    omega
  · intro u hu
    obtain rfl : v = u := Option.some.inj (hv.symm.trans hu)
    by_cases hzero : v = 0
    · -- the root waits: it has the new edge, and the active point stays on it
      left
      subst hzero
      refine ⟨rfl, ?_, hal, ?_⟩
      · show (if n.link ≠ none then n.link else some 0) = some 0
        exact if_neg (not_not.mpr (hsound₂.link_root hn'))
      · intro c' hc'
        obtain rfl := Except.ok.inj (hc.symm.trans hc')
        refine ⟨k, ⟨t, .loop, none⟩, ?_⟩
        show edgeAt heap₂ (some 0) c = _
        unfold edgeAt
        rw [Heap.load_eq hn', ok_bind, hslot, ok_bind]
        exact congrArg (fun e => Except.ok (k, e)) (Function.update_self ..)
    · -- any other node is deeper than where the active point goes
      right
      refine ⟨hzero, ?_, fun w hw => ?_⟩
      · show v < heap₂.brk
        omega
      · show g.depth w + s.ap.active_length < g.depth v
        rw [hal, add_zero]
        rcases hnext w hw with rfl | hlt
        · rw [g.depth_root]
          exact g.depth_pos v hzero
        · exact hlt

/-- An edge of the active node is split. -/
theorem Active.splitEdge (h : L.Active g t s) (ht₀ : 0 ≤ t) (ht : t < L.string.length)
    (hpos : 0 < s.remain) (hal : s.ap.active_length ≠ 0) {ap : ActivePoint}
    (hwalk : SuffixTree.walkDown L.string t s.heap f s.ap = .ok (ap, i, e))
    (hsplit : SuffixTree.splitEdge L.string (some 0) t c ap i e s = .ok s') :
    ∃ g', L.Active g' t s' := by
  obtain ⟨v, v', n, hv, hv', hn, he, hal', hkeep, hreach⟩ :=
    h.sound.walkDown h.length_nonneg hwalk
  have hnonneg := h.length_nonneg
  have hroot := g.depth_nonneg v
  have hdepth : g.depth v' + ap.active_length ≤ s.remain - 1 := by
    rcases h.depth_le v hv with hle | ⟨hzero, -⟩ <;> omega
  have hremain := h.remain_le
  obtain ⟨heap₁, node, heap₂, heap₃, ap₃, hcreate, hleaf, hlink, hnext, rfl⟩ := of_splitEdge hsplit
  -- the new node
  rw [hv'] at hcreate
  obtain ⟨g', rfl, hsound₁, hbrk₁, hbrk, hself, hother⟩ :=
    h.sound.split hn he hal' (by omega) hreach ht hcreate
  have hsame : ∀ w, w < s.heap.brk → g'.depth w = g.depth w := fun w hw => hother w hw.ne
  -- its leaf for the letter
  obtain ⟨_, n₁, k, hnode, hn₁, -, rfl⟩ := of_createEdge hleaf
  obtain rfl := Option.some.inj hnode
  have hsound₂ := hsound₁.setEdge hn₁ (leafOk (i := k) ht₀ (by rw [hself]; omega))
  -- the node that waits is deeper than the new one
  have hprev : ∀ u, s.prev_node = some u → g'.depth s.heap.brk < g'.depth u := by
    intro u hu
    rcases h.prev u hu with ⟨-, -, hzero, -⟩ | ⟨hne, hlt, hless⟩
    · exact absurd hzero hal
    · have hlt' := hless v hv
      rw [hself, hsame u hlt]
      omega
  obtain ⟨hsound₃, hbrk₃, -⟩ := hsound₂.relink hlink
    (show s.heap.brk < heap₁.brk from Heap.lt_brk hn₁) hprev
  change heap₃.brk = heap₁.brk at hbrk₃
  have hdepth' : g'.depth v' + ap.active_length = g'.depth s.heap.brk := by
    rw [hself, hsame v' (Heap.lt_brk hn)]
  obtain ⟨hal₃, hless₃⟩ := hsound₃.nextPoint hv' hal' (by omega) hnext
  rw [hdepth'] at hless₃
  refine ⟨g', hsound₃, hal₃, ?_, ?_, ?_, ?_⟩
  · show 0 ≤ s.remain - 1
    omega
  · intro w hw
    left
    have hlt := hless₃ w hw
    rw [hself] at hlt
    show g'.depth w + ap₃.active_length ≤ s.remain - 1 - 1
    omega
  · show L.m + (s.remain - 1) ≤ t + 1
    omega
  · intro u hu
    obtain rfl : s.heap.brk = u := Option.some.inj hu
    refine Or.inr ⟨hbrk, ?_, hless₃⟩
    show s.heap.brk < heap₃.brk
    omega

/-- **One turn of the inner loop.** -/
theorem Active.extend (h : L.Active g t s) (ht₀ : 0 ≤ t) (ht : t < L.string.length)
    (hpos : 0 < s.remain) {stop : Bool}
    (hextend : SuffixTree.extend L.string (some 0) t f s = .ok (s', stop)) :
    ∃ g', (stop = false → L.Active g' t s') ∧ (stop = true → L.Rest g' (t + 1) s') := by
  unfold SuffixTree.extend at hextend
  obtain ⟨c, hc, hextend⟩ := bind_eq_ok.mp hextend
  have hnonneg := h.length_nonneg
  have hremain := h.remain_le
  -- without an active length the edge is looked up, and otherwise walked to
  split at hextend
  · next hal =>
    obtain ⟨⟨k, oe⟩, hedge, hextend⟩ := bind_eq_ok.mp hextend
    simp only [] at hextend
    split at hextend
    · next hnone =>
      obtain rfl : oe = none := hnone
      obtain ⟨s₁, hgrow, hret⟩ := bind_eq_ok.mp hextend
      obtain ⟨rfl, rfl⟩ := Prod.mk.inj (Except.ok.inj hret)
      exact ⟨g, fun _ => h.growLeaf ht₀ hpos hc hal hedge hgrow, nofun⟩
    · obtain ⟨rfl, rfl⟩ := Prod.mk.inj (Except.ok.inj hextend)
      refine ⟨g, nofun, fun _ => ⟨h.sound, ?_, h.remain_nonneg, ?_, ?_⟩⟩
      · show 0 ≤ s.ap.active_length + 1
        omega
      · intro v hv
        show g.depth v + (s.ap.active_length + 1) ≤ s.remain
        rcases h.depth_le v hv with hle | ⟨hzero, -⟩ <;> omega
      · show L.m + s.remain ≤ t + 1
        exact hremain
  · next hal =>
    obtain ⟨⟨ap, i, e⟩, hwalk, hextend⟩ := bind_eq_ok.mp hextend
    simp only [] at hextend
    obtain ⟨point, -, hextend⟩ := bind_eq_ok.mp hextend
    obtain ⟨d, -, hextend⟩ := bind_eq_ok.mp hextend
    split at hextend
    · obtain ⟨rfl, rfl⟩ := Prod.mk.inj (Except.ok.inj hextend)
      obtain ⟨v, v', n, hv, hv', -, -, hal', hkeep, -⟩ := h.sound.walkDown hnonneg hwalk
      refine ⟨g, nofun, fun _ => ⟨h.sound, ?_, h.remain_nonneg, ?_, ?_⟩⟩
      · show 0 ≤ ap.active_length + 1
        omega
      · intro w hw
        obtain rfl : v' = w := Option.some.inj (hv'.symm.trans hw)
        show g.depth v' + (ap.active_length + 1) ≤ s.remain
        rcases h.depth_le v hv with hle | ⟨hzero, -⟩ <;> omega
      · exact hremain
    · obtain ⟨s₁, hsplit, hret⟩ := bind_eq_ok.mp hextend
      obtain ⟨rfl, rfl⟩ := Prod.mk.inj (Except.ok.inj hret)
      obtain ⟨g', h'⟩ := h.splitEdge ht₀ ht hpos hal hwalk hsplit
      exact ⟨g', fun _ => h', nofun⟩

/-- **The inner loop** keeps the invariant, and ends with what holds between two phases. -/
theorem Active.insertAll (h : L.Active g t s) (ht₀ : 0 ≤ t) (ht : t < L.string.length)
    (hinsert : SuffixTree.insertAll L.string (some 0) t f s = .ok s') :
    ∃ g', L.Rest g' (t + 1) s' := by
  induction f generalizing g s with
  | zero => cases hinsert
  | succ f ih =>
    rw [SuffixTree.insertAll] at hinsert
    split at hinsert
    · next hpos =>
      obtain ⟨⟨s₁, stop⟩, hextend, hrest⟩ := bind_eq_ok.mp hinsert
      obtain ⟨g', hgo, hend⟩ := h.extend ht₀ ht hpos hextend
      cases stop with
      | true =>
        obtain rfl := Except.ok.inj hrest
        exact ⟨g', hend rfl⟩
      | false => exact ih (hgo rfl) hrest
    · next hdone =>
      obtain rfl := Except.ok.inj hinsert
      have hnonneg := h.remain_nonneg
      refine ⟨g, h.sound, h.length_nonneg, hnonneg, fun v hv => ?_, h.remain_le⟩
      rcases h.depth_le v hv with hle | ⟨hzero, hle⟩ <;> omega

/-- **The phases after a split.** -/
theorem Rest.run {r q : ℕ} (h : L.Rest g r s) (hq : r + q ≤ L.string.length)
    (hrun : Run.run (phase L.string (some 0) f) s (List.range' r q) = .ok s') :
    ∃ g', L.Rest g' (r + q : ℕ) s' := by
  induction q generalizing r g s with
  | zero =>
    obtain rfl := Except.ok.inj hrun
    exact ⟨g, h⟩
  | succ q ih =>
    rw [List.range'_succ] at hrun
    obtain ⟨s₁, hphase, hrest⟩ := (Run.run_cons_ok _).mp hrun
    obtain ⟨g', h'⟩ := h.active.insertAll (by omega) (by omega) hphase
    obtain ⟨g'', h''⟩ := ih (r := r + 1) (g := g') (by exact_mod_cast h') (by omega) hrest
    refine ⟨g'', ?_⟩
    rw [show r + (q + 1) = r + 1 + q by omega]
    exact h''

/-! ## Paths

In a sound heap a way that is filed rightly below the first split is bounded by its edges, and these
belong to later suffixes. So it spells less than the suffix that was split off. -/

/-- The label of an edge is no longer than the edge. -/
theorem length_label_le (string : List CChar) (e : Edge) :
    (label string e).length ≤ (e.stop.value (string.length - 1) + 1 - e.start).toNat :=
  List.length_take_le ..

theorem length_label_pos {string : List CChar} {c : CChar}
    (h : (label string e).head? = some c) : 0 < (label string e).length := by
  apply List.length_pos_of_ne_nil
  intro hnil
  rw [hnil] at h
  cases h

/-- The first letter of a label is the one at the start of the edge. -/
theorem getElem?_of_label_head {string : List CChar} {c : CChar}
    (h : (label string e).head? = some c) : string[e.start.toNat]? = some c := by
  have hlen := (length_label_pos h).trans_le (length_label_le string e)
  unfold label at h
  rwa [List.head?_take, if_neg hlen.ne', List.head?_drop] at h

theorem length_spelled_cons (string : List CChar) (i : Fin 26) (e : Edge)
    (es : List (Fin 26 × Edge)) : (spelled string ((i, e) :: es)).length =
      (label string e).length + (spelled string es).length := by
  unfold spelled
  rw [List.flatMap_cons, List.length_append]

/-- What is filed rightly below the first split is shorter than the suffix that was split off. -/
theorem Sound.spelled_le (h : L.Sound g heap) {B : ℤ} (hm : (L.string.length : ℤ) - L.m ≤ B)
    (hp : (L.p : ℤ) - L.j ≤ B) {es : List (Fin 26 × Edge)} (hpath : Path heap (some v) es)
    (hfiled : SuffixTree.Filed L.string es) (hne : es ≠ [])
    (hway : ∀ ie, es.head? = some ie → v = 0 ∧ ie.1 = L.x ∨ g.below v) :
    g.depth v + (spelled L.string es).length ≤ B := by
  induction es generalizing v with
  | nil => exact absurd rfl hne
  | cons ie es ih =>
    obtain ⟨i, e⟩ := ie
    cases hpath with
    | cons hn he hes =>
      obtain ⟨hstart, hstop, hchild, hlate⟩ := h.edge _ _ i e hn he
      obtain ⟨c, hhead, hc⟩ : ∃ c, (label L.string e).head? = some c ∧ c.toInt - 97 = (i : ℕ) :=
        hfiled (i, e) List.mem_cons_self
      have hlen := length_label_le L.string e
      have hnonempty := length_label_pos hhead
      obtain ⟨hlate, hbelow⟩ := hlate ⟨⟨c, getElem?_of_label_head hhead, hc⟩, hway _ rfl⟩
      rw [length_spelled_cons]
      by_cases hnil : es = []
      · -- the way ends with this edge, on a leaf or in front of a node
        subst hnil
        show g.depth v + (((label L.string e).length + 0 : ℕ) : ℤ) ≤ B
        rcases hlate with hlate | ⟨hlate, b, hb, hlt⟩
        · cases hs : e.stop with
          | loop =>
            rw [hs] at hlen
            change _ ≤ ((L.string.length : ℤ) - 1 + 1 - e.start).toNat at hlen
            omega
          | own b =>
            have hb := (hstop b hs).2
            rw [hs] at hlen
            change _ ≤ (b + 1 - e.start).toNat at hlen
            omega
        · rw [hb] at hlen
          change _ ≤ (b + 1 - e.start).toNat at hlen
          omega
      · -- the way goes on below a node
        cases hu : e.node with
        | none =>
          rw [hu] at hes
          cases hes
          exact absurd rfl hnil
        | some u =>
          rw [hu] at hes
          obtain ⟨-, -, b, hb, hdepth⟩ := hchild u hu
          have hrest := ih hes (fun ie hie => hfiled ie (List.mem_cons_of_mem _ hie)) hnil
            fun _ _ => Or.inr (hbelow u hu)
          have hb' := (hstop b hb).1
          rw [hb] at hlen
          change _ ≤ (b + 1 - e.start).toNat at hlen
          push_cast
          omega

/-! ## The first split

Up to the first split the edges are the leaves of the root. Behind it the heap is sound with one node
below the split, and from there on the lemmas about the loop apply. -/

/-- No node is below a split yet. -/
def start : Survey where
  depth v := if v = 0 then 0 else 1
  below _ := False
  depth_root := if_pos rfl
  depth_pos v hv := by rw [if_neg hv]
  below_root := id

section First

variable {string : List CChar} {m j k : ℕ}

/-- The split of the leaf of the suffix at `j`. -/
def first (string : List CChar) (m j k : ℕ) (c : CChar) : Site :=
  { string, m, j, p := j + k, x := slotOf c }

/-- The leaves of the root belong to suffixes before `m`, but only one of them is watched. -/
theorem edgeOk_of_leaves {brk : ℕ} (hbelow : ¬ g.below 0) (hi : i ≠ slotOf c)
    (he : leaves string m i = some e) : (first string m j k c).EdgeOk g brk 0 i e := by
  obtain ⟨a, d, -, -, -, rfl⟩ := exists_of_leaves he
  refine ⟨?_, nofun, nofun, ?_⟩
  · show (0 : ℤ) ≤ a
    omega
  · rintro ⟨-, ⟨-, hx⟩ | hb⟩
    · exact absurd hx hi
    · exact absurd hb hbelow

/-- The upper half of that leaf belongs to the suffix at `j`, and ends before the split. -/
theorem edgeOk_upperHalf (h : FirstSplit string m j k) (hdepth : g.depth 1 = k) (hbelow : g.below 1) :
    (first string m j k c).EdgeOk g 2 0 (slotOf c) (upperHalf (leaf j) k 1) := by
  have hpos := h.pos
  have hlt := h.lt
  have hinside := h.inside
  refine ⟨?_, ?_, ?_, ?_⟩
  · show (0 : ℤ) ≤ j
    omega
  · intro b hb
    obtain rfl := End.own.inj hb
    show (j : ℤ) ≤ j + k - 1 + 1 ∧ (j : ℤ) + k - 1 < string.length
    omega
  · intro u hu
    obtain rfl : 1 = u := Option.some.inj hu
    refine ⟨one_ne_zero, one_lt_two, _, rfl, ?_⟩
    rw [hdepth, g.depth_root]
    show (k : ℤ) = 0 + (j + k - 1 + 1 - j)
    omega
  · intro _
    refine ⟨Or.inr ⟨?_, _, rfl, ?_⟩, ?_⟩
    · rw [g.depth_root]
      exact sub_zero _
    · show (j : ℤ) + k - 1 < (j + k : ℕ)
      omega
    · intro u hu
      obtain rfl : 1 = u := Option.some.inj hu
      exact hbelow

/-- The lower half is not in the slot of its letter, so no way that is filed rightly leads to it. -/
theorem edgeOk_lowerHalf (hmis : ∀ d, string[j + k]? = some d → d.toInt - 97 ≠ (j + k : ℕ))
    (hi : (j : ℤ) + k - 1 + 1 = (i : ℕ)) :
    (first string m j k c).EdgeOk g 2 1 i (lowerHalf (leaf j) k) := by
  refine ⟨?_, nofun, nofun, ?_⟩
  · show (0 : ℤ) ≤ j + k - 1 + 1
    omega
  · rintro ⟨⟨d, hd, hdi⟩, -⟩
    have hindex : ((j : ℤ) + k - 1 + 1).toNat = j + k := by omega
    change string[((j : ℤ) + k - 1 + 1).toNat]? = some d at hd
    rw [hindex] at hd
    refine absurd ?_ (hmis d hd)
    push_cast
    omega

/-- The heap after the first split is sound, but for the edges of the new node. -/
theorem sound_of_firstSplit {heap : Heap Node} (h : FirstSplit string m j k)
    (hcell : heap.cells 0 = some { edges := leaves string m, link := none }) (hbrk : heap.brk = 1)
    (hdepth : g.depth 1 = k) (hbelow : g.below 1) :
    (first string m j k c).Sound g
      ((heap.alloc emptyNode).put 0 fun n => n.setEdge (slotOf c) (upperHalf (leaf j) k 1)) := by
  have hcell' : (heap.alloc emptyNode).cells 0 = some { edges := leaves string m, link := none } :=
    Heap.cells_alloc_of_some hcell
  have hnew : (heap.alloc emptyNode).cells 1 = some emptyNode := by
    rw [← hbrk]
    exact Heap.cells_alloc_self
  -- there are the root and the new node
  have hcells : ∀ v n, ((heap.alloc emptyNode).put 0 fun n => n.setEdge (slotOf c)
      (upperHalf (leaf j) k 1)).cells v = some n →
      v = 0 ∧ n.link = none ∧ n.edges = Function.update (leaves string m) (slotOf c)
        (some (upperHalf (leaf j) k 1)) ∨
      v = 1 ∧ n = emptyNode := by
    intro v n hn
    have hv := Heap.lt_brk hn
    change v < heap.brk + 1 at hv
    by_cases hzero : v = 0
    · subst hzero
      rw [Heap.cells_put_self hcell'] at hn
      obtain rfl := Option.some.inj hn
      exact Or.inl ⟨rfl, rfl, rfl⟩
    · obtain rfl : v = 1 := by omega
      rw [Heap.cells_put_of_ne one_ne_zero, hnew] at hn
      exact Or.inr ⟨rfl, (Option.some.inj hn).symm⟩
  have hbrk' : ((heap.alloc emptyNode).put 0 fun n => n.setEdge (slotOf c)
      (upperHalf (leaf j) k 1)).brk = 2 := by
    show heap.brk + 1 = 2
    omega
  constructor
  · intro v n i e hn he
    rw [hbrk']
    rcases hcells v n hn with ⟨rfl, -, hedges⟩ | ⟨rfl, rfl⟩
    · rw [hedges] at he
      by_cases hi : i = slotOf c
      · subst hi
        rw [Function.update_self] at he
        obtain rfl := Option.some.inj he
        exact edgeOk_upperHalf h hdepth hbelow
      · rw [Function.update_of_ne hi] at he
        exact edgeOk_of_leaves g.below_root hi he
    · cases he
  · intro v n u hn hu
    rcases hcells v n hn with ⟨rfl, hlink, -⟩ | ⟨rfl, rfl⟩
    · rw [hlink] at hu
      cases hu
    · cases hu

/-- The state behind the first split. -/
theorem active_of_firstSplit (h : FirstSplit string m j k)
    (hmis : ∀ d, string[j + k]? = some d → d.toInt - 97 ≠ (j + k : ℕ))
    (hcell : s.heap.cells 0 = some { edges := leaves string m, link := none })
    (hbrk : s.heap.brk = 1) (hprev : s.prev_node = none) (hremain : s.remain = k + 1)
    {c' : CChar}
    (hsplit : SuffixTree.splitEdge string (some 0) (m + k : ℕ) c'
      { node := some 0, order := c, active_length := k } (slotOf c) (leaf j) s = .ok s') :
    ∃ g', (first string m j k c).Active g' (m + k : ℕ) s' := by
  have hpos := h.pos
  have hk : (1 : ℤ) ≤ k := by omega
  let L := first string m j k c
  let g := start.add 1 one_ne_zero k hk True
  have hself : g.depth 1 = k := Survey.depth_add_self one_ne_zero hk
  have hbelow : g.below 1 := by
    show (start.add 1 one_ne_zero k hk True).below 1
    rw [Survey.below_add_self]
    trivial
  obtain ⟨heap₁, node, heap₂, heap₃, ap₃, hcreate, hleaf, hlink, hnext, rfl⟩ := of_splitEdge hsplit
  obtain ⟨n₁, n₂, x, rfl, -, hn₂, hx, rfl⟩ := of_createNode hcreate
  obtain ⟨_, n₃, i, hv₃, hn₃, -, rfl⟩ := of_createEdge hleaf
  obtain rfl := Option.some.inj hv₃
  rw [hprev] at hlink
  obtain ⟨-, rfl⟩ | ⟨u, -, hu, -, -⟩ := of_setLink hlink
  · rw [hbrk] at hn₂ hn₃
    -- the new node has the address 1, and below it hang the lower half and the new leaf
    have hsound : L.Sound g _ := sound_of_firstSplit h hcell hbrk hself hbelow
    have hlowerOk : L.EdgeOk g 2 1 x (lowerHalf (leaf j) k) := edgeOk_lowerHalf hmis hx
    have hleafOk : L.EdgeOk g 2 1 i { start := (m + k : ℕ), stop := .loop, node := none } := by
      apply leafOk (by omega)
      rw [hself]
      show (m : ℤ) ≤ (m + k : ℕ) - k
      omega
    have hbrk₁ : (s.heap.alloc emptyNode).brk = 2 := by
      show s.heap.brk + 1 = 2
      omega
    rw [← hbrk₁] at hlowerOk hleafOk
    have hsound₃ := (hsound.setEdge hn₂ hlowerOk).setEdge hn₃ hleafOk
    rw [← hbrk] at hsound₃
    obtain ⟨hal₃, hless₃⟩ := hsound₃.nextPoint rfl (show (0 : ℤ) ≤ k by omega)
      (show 1 ≤ g.depth 0 + k by rw [g.depth_root]; omega) hnext
    change ∀ w, ap₃.node = some w → g.depth w + ap₃.active_length < g.depth 0 + k at hless₃
    rw [g.depth_root] at hless₃
    -- the active point has gone to a smaller depth than that of the new node
    refine ⟨g, hsound₃, hal₃, ?_, ?_, ?_, ?_⟩
    · show 0 ≤ s.remain - 1
      omega
    · intro v hv
      left
      have hlt := hless₃ v hv
      show g.depth v + ap₃.active_length ≤ s.remain - 1 - 1
      omega
    · show (m : ℤ) + (s.remain - 1) ≤ (m + k : ℕ) + 1
      omega
    · intro u hu
      right
      obtain rfl : s.heap.brk = u := Option.some.inj hu
      rw [hbrk]
      refine ⟨one_ne_zero, ?_, fun v hv => ?_⟩
      · show 1 < (s.heap.alloc emptyNode).brk
        omega
      · have hlt := hless₃ v hv
        rw [hself]
        show g.depth v + ap₃.active_length < k
        omega
  · cases hu

/-- **The phase of the first split**, when the lower half is not in the slot of its letter. -/
theorem rest_of_firstSplit (hs : Letters string) (h : FirstSplit string m j k)
    (hmis : ∀ d, string[j + k]? = some d → d.toInt - 97 ≠ (j + k : ℕ)) (hj : string[j]? = some c)
    (hg : Matching string m j k c s)
    (hphase : phase string (some 0) (f + 2) s (m + k : ℕ) = .ok s') :
    ∃ g', (first string m j k c).Rest g' (m + k + 1 : ℕ) s' := by
  have hlt := h.lt
  have hinside := h.inside
  obtain ⟨c', hc'⟩ : ∃ c', string[m + k]? = some c' := ⟨_, List.getElem?_eq_getElem hinside⟩
  obtain ⟨d, hd⟩ : ∃ d, string[j + k]? = some d := ⟨_, List.getElem?_eq_getElem (by omega)⟩
  have hne : d ≠ c' := by
    rintro rfl
    exact h.differ (hc'.trans hd.symm)
  have hextend := extend_matching (f := f) hs h.nodup hlt h.pos hj hc' hd hg
  rw [if_neg hne] at hextend
  obtain ⟨hcell, hbrk, hap, hremain⟩ := hg
  let s₁ : State := { s with remain := s.remain + 1, prev_node := none }
  have hpos₁ : 0 < s₁.remain := by
    show 0 < s.remain + 1
    omega
  change SuffixTree.insertAll string (some 0) (m + k : ℕ) (f + 2) s₁ = .ok s' at hphase
  rw [SuffixTree.insertAll, if_pos hpos₁, hextend] at hphase
  obtain ⟨⟨s₂, stop⟩, hturn, hrest⟩ := bind_eq_ok.mp hphase
  obtain ⟨s₃, hsplit, hret⟩ := bind_eq_ok.mp hturn
  obtain ⟨rfl, rfl⟩ := Prod.mk.inj (Except.ok.inj hret)
  -- the edge is split there, and the other suffixes follow
  have hactive : ∃ g', (first string m j k c).Active g' (m + k : ℕ) s₃ := by
    refine active_of_firstSplit (s := s₁) h hmis hcell hbrk rfl ?_ hsplit
    show s.remain + 1 = _
    rw [hremain]
  obtain ⟨g', hg'⟩ := hactive
  obtain ⟨g'', hg''⟩ := hg'.insertAll (by omega) (by exact_mod_cast hinside) hrest
  exact ⟨g'', by exact_mod_cast hg''⟩

/-- **A suffix is lost at the first split**, when the position of the lower half is not the slot of its
letter. -/
theorem not_represents_of_misplaced (hs : Letters string) (h : FirstSplit string m j k)
    (hmis : ∀ d, string[j + k]? = some d → d.toInt - 97 ≠ (j + k : ℕ)) : ¬ Represents string := by
  rintro ⟨f, heap, hbuild, hspell, -⟩
  have hlt := h.lt
  have hinside := h.inside
  obtain ⟨c, hj⟩ : ∃ c, string[j]? = some c := ⟨_, List.getElem?_eq_getElem (by omega)⟩
  have hbuild₂ := build_of_le hbuild (show f ≤ f + 2 by omega)
  unfold build at hbuild₂
  obtain ⟨s, hrun, hret⟩ := bind_eq_ok.mp hbuild₂
  obtain rfl := Except.ok.inj hret
  have hrange : List.range string.length = List.range (m + k) ++
      (m + k) :: List.range' (m + k + 1) (string.length - (m + k + 1)) := by
    have happend := List.range'_append_1 (s := 0) (m := m + k) (n := string.length - (m + k + 1) + 1)
    rw [zero_add, List.range'_succ, show m + k + (string.length - (m + k + 1) + 1) = string.length by
      omega] at happend
    rw [List.range_eq_range', List.range_eq_range', happend]
  rw [hrange] at hrun
  obtain ⟨s₀, hrun₀, hrest₀⟩ := (Run.run_append_ok _).mp hrun
  obtain ⟨s₁, hphase, hrest₁⟩ := (Run.run_cons_ok _).mp hrest₀
  obtain ⟨s₀', hrun₀', hg⟩ := run_matching (f := f) hs h.nodup hlt hj h.pos hinside.le h.same
  obtain rfl := Except.ok.inj (hrun₀'.symm.trans hrun₀)
  obtain ⟨g, hg₁⟩ := rest_of_firstSplit hs h hmis hj hg hphase
  obtain ⟨g', hg'⟩ := hg₁.run (L := first string m j k c)
    (show m + k + 1 + (string.length - (m + k + 1)) ≤ string.length by omega) hrest₁
  -- the way of the suffix would be longer than what is filed below the split
  obtain ⟨es, hpath, hfiled, hstarts⟩ := hspell (string.drop j) (List.drop_suffix j string)
  have hlength := hstarts.length_le
  rw [List.length_drop] at hlength
  have hne : es ≠ [] := by
    rintro rfl
    have hzero : (spelled string []).length = 0 := rfl
    omega
  have hway : ∀ ie, es.head? = some ie → 0 = 0 ∧ ie.1 = slotOf c ∨ g'.below 0 := by
    intro ie hie
    left
    obtain ⟨es', rfl⟩ := List.head?_eq_some_iff.mp hie
    obtain ⟨c', hhead, hc'⟩ := hfiled ie List.mem_cons_self
    refine ⟨rfl, Fin.ext ?_⟩
    have hsame : c' = c := by
      obtain ⟨rest, hrest⟩ := hstarts
      have hfirst : (string.drop j ++ rest).head? = some c := by
        rw [List.head?_append, List.head?_drop, hj]
        rfl
      have hfirst' : (spelled string (ie :: es')).head? = some c' := by
        show (List.flatMap _ _).head? = _
        rw [List.flatMap_cons, List.head?_append, hhead]
        rfl
      rw [hrest] at hfirst
      exact Option.some.inj (hfirst'.symm.trans hfirst)
    have hval := slotOf_val (hs.of_getElem? hj)
    rw [hsame] at hc'
    omega
  have hle : g'.depth 0 + ((spelled string es).length : ℤ) ≤ string.length - j - 1 := by
    refine hg'.sound.spelled_le ?_ ?_ hpath hfiled hne hway
    · show (string.length : ℤ) - m ≤ string.length - j - 1
      omega
    · show ((j + k : ℕ) : ℤ) - j ≤ string.length - j - 1
      omega
  rw [g'.depth_root] at hle
  omega

end First

end Site

/-- **The tree represents every suffix as long as no edge is split**, and does not any more when the
lower half of the first edge that is split comes into a slot that is not the one of its letter. -/
theorem represents_until_split {string : List CChar} (hs : Letters string) :
    (Unsplit string → Represents string) ∧
      ∀ m j k, FirstSplit string m j k →
        (∀ d, string[j + k]? = some d → d.toInt - 97 ≠ (j + k : ℕ)) → ¬ Represents string :=
  ⟨represents_of_unsplit hs, fun _ _ _ h hmis => Site.not_represents_of_misplaced hs h hmis⟩

/-- A string that repeats its beginning, and one that does not go on as it did before. -/
theorem represents_until_split_abcab :
    Represents (cstr "abcab") ∧ ¬ Represents (cstr "xyxz") := by
  constructor
  · refine (represents_until_split ?_).1 fun m j k h => ?_
    · unfold Letters
      decide +kernel
    · have hlt := h.lt
      have hpos := h.pos
      have hinside : m + k < 5 := h.inside
      have hsame := h.same 0 hpos
      have hdiffer := h.differ
      -- the only letter that comes again is the first one, and the next one follows again
      have hm : m ≤ 3 := by omega
      interval_cases m <;> interval_cases j <;> first
        | exact absurd hsame (by decide)
        | obtain rfl : k = 1 := by omega
          exact absurd rfl hdiffer
  · refine (represents_until_split ?_).2 2 0 1 ?_ ?_
    · unfold Letters
      decide +kernel
    · refine ⟨by decide, by decide, by decide, fun i hi => ?_, by decide, by decide⟩
      obtain rfl : i = 0 := by omega
      rfl
    · intro d hd
      obtain rfl : 121 = d := Option.some.inj hd
      decide

/-- The lower half of the edge of `a` comes into the slot of `b`, where the edge of the new letter
overwrites it. -/
theorem split_loses_suffix : ¬ Represents (cstr "aab") := by
  apply Site.not_represents_of_misplaced (m := 1) (j := 0) (k := 1)
  · unfold Letters
    decide +kernel
  · refine ⟨by decide, by decide, by decide, fun i hi => ?_, by decide, by decide⟩
    obtain rfl : i = 0 := by omega
    rfl
  · intro d hd
    obtain rfl : 97 = d := Option.some.inj hd
    decide

end Lcthw.SuffixTree
