import Lcthw.SuffixTree.Unsplit

/-!
# Lcthw — the depths of the nodes (`suffix_tree.c`)

`Suffix_create_node` files the lower half of an edge under its position, so the tree of a string is not
what it should be once an edge is split. What can still be said of it is how deep its nodes are, and
which of them are below the edge that was split first.

* **`Survey`**: these two.
* **`Site.EdgeOk`**, **`Site.Sound`**: what they have to do with the edges and the links. What is filed
  rightly below the first split belongs to a suffix that starts later (`Site.Late`).
* **`Site.Sound.walkDown`**, **`Site.Sound.split`**: the way down to an edge, and its split.
-/

namespace Lcthw.SuffixTree

/-- What is known of the nodes: how many letters are above them, and whether they are below the edge
that was split first. -/
structure Survey where
  depth : ℕ → ℤ
  below : ℕ → Prop
  depth_root : depth 0 = 0
  depth_pos : ∀ v ≠ 0, 1 ≤ depth v
  below_root : ¬ below 0

/-- Where the first edge is split: its suffix starts at `j`, the split is at `p`, it is in the slot `x`
of the root, and the suffixes before `m` have their leaves. -/
structure Site where
  string : List CChar
  m : ℕ
  j : ℕ
  p : ℕ
  x : Fin 26

namespace Survey

/-- A new node. -/
def add (g : Survey) (u : ℕ) (hu : u ≠ 0) (d : ℤ) (hd : 1 ≤ d) (below : Prop) : Survey where
  depth := Function.update g.depth u d
  below := Function.update g.below u below
  depth_root := by rw [Function.update_of_ne hu.symm, g.depth_root]
  depth_pos v hv := by
    by_cases hvu : v = u
    · rw [hvu, Function.update_self]
      exact hd
    · rw [Function.update_of_ne hvu]
      exact g.depth_pos v hv
  below_root := by
    rw [Function.update_of_ne hu.symm]
    exact g.below_root

variable {g : Survey} {u v : ℕ} {d : ℤ} {below : Prop}

theorem depth_nonneg (g : Survey) (v : ℕ) : 0 ≤ g.depth v := by
  by_cases hv : v = 0
  · rw [hv, g.depth_root]
  · have hpos := g.depth_pos v hv
    omega

@[simp] theorem depth_add_self (hu : u ≠ 0) (hd : 1 ≤ d) : (g.add u hu d hd below).depth u = d :=
  Function.update_self ..

theorem depth_add_of_ne (hu : u ≠ 0) (hd : 1 ≤ d) (hv : v ≠ u) :
    (g.add u hu d hd below).depth v = g.depth v :=
  Function.update_of_ne hv ..

@[simp] theorem below_add_self (hu : u ≠ 0) (hd : 1 ≤ d) :
    (g.add u hu d hd below).below u = below :=
  Function.update_self ..

theorem below_add_of_ne (hu : u ≠ 0) (hd : 1 ≤ d) (hv : v ≠ u) :
    (g.add u hu d hd below).below v = g.below v :=
  Function.update_of_ne hv ..

end Survey

namespace Site

/-- The edge is in the slot of its first letter. -/
def Filed (L : Site) (i : Fin 26) (e : Edge) : Prop :=
  ∃ c, L.string[e.start.toNat]? = some c ∧ c.toInt - 97 = (i : ℕ)

/-- Under a node at depth `d`, the edge belongs to a suffix that starts at `m` or later, or it is a part
of the upper half. -/
def Late (L : Site) (d : ℤ) (e : Edge) : Prop :=
  L.m ≤ e.start - d ∨ e.start - d = L.j ∧ ∃ b, e.stop = .own b ∧ b < L.p

/-- A way from the edge that was split first can go on with this one. -/
def Watched (L : Site) (g : Survey) (v : ℕ) (i : Fin 26) (e : Edge) : Prop :=
  L.Filed i e ∧ (v = 0 ∧ i = L.x ∨ g.below v)

/-- The invariant of an edge in the slot `i` of the node `v`. -/
structure EdgeOk (L : Site) (g : Survey) (brk v : ℕ) (i : Fin 26) (e : Edge) : Prop where
  start_nonneg : 0 ≤ e.start
  stop : ∀ b, e.stop = .own b → e.start ≤ b + 1 ∧ b < L.string.length
  child : ∀ u, e.node = some u →
    u ≠ 0 ∧ u < brk ∧ ∃ b, e.stop = .own b ∧ g.depth u = g.depth v + (b + 1 - e.start)
  late : L.Watched g v i e → L.Late (g.depth v) e ∧ ∀ u, e.node = some u → g.below u

/-- The invariant of the heap. -/
structure Sound (L : Site) (g : Survey) (heap : Heap Node) : Prop where
  edge : ∀ v n i e, heap.cells v = some n → n.edges i = some e → L.EdgeOk g heap.brk v i e
  link : ∀ v n u, heap.cells v = some n → n.link = some u → u < heap.brk ∧ g.depth u < g.depth v

variable {L : Site} {g : Survey} {heap heap' : Heap Node} {u v : ℕ} {n : Node} {i : Fin 26} {e : Edge}
  {d t : ℤ} {below : Prop}

/-! ## The heap

The invariant speaks of every edge and every link, so each change of the heap has a lemma: a new node,
an edge in a slot, a link. -/

theorem watched_add (hu : u ≠ 0) (hd : 1 ≤ d) (hv : v ≠ u) :
    L.Watched (g.add u hu d hd below) v i e ↔ L.Watched g v i e := by
  unfold Watched
  rw [Survey.below_add_of_ne hu hd hv]

/-- A new node is no end of an edge that was there. -/
theorem EdgeOk.add {brk : ℕ} (h : L.EdgeOk g brk v i e) (hbrk : brk ≠ 0) (hd : 1 ≤ d) (hv : v < brk) :
    L.EdgeOk (g.add brk hbrk d hd below) (brk + 1) v i e where
  start_nonneg := h.start_nonneg
  stop := h.stop
  child u hu := by
    obtain ⟨hne, hlt, b, hb, hdepth⟩ := h.child u hu
    refine ⟨hne, by omega, b, hb, ?_⟩
    rw [Survey.depth_add_of_ne hbrk hd hlt.ne, Survey.depth_add_of_ne hbrk hd hv.ne]
    exact hdepth
  late hw := by
    obtain ⟨hlate, hbelow⟩ := h.late ((watched_add hbrk hd hv.ne).mp hw)
    rw [Survey.depth_add_of_ne hbrk hd hv.ne]
    refine ⟨hlate, fun u hu => ?_⟩
    rw [Survey.below_add_of_ne hbrk hd (h.child u hu).2.1.ne]
    exact hbelow u hu

/-- A new node has no edges, and nothing leads to it. -/
theorem Sound.alloc (h : L.Sound g heap) (hbrk : heap.brk ≠ 0) (hd : 1 ≤ d) :
    L.Sound (g.add heap.brk hbrk d hd below) (heap.alloc emptyNode) where
  edge v n i e hn he := by
    by_cases hv : v = heap.brk
    · subst hv
      rw [Heap.cells_alloc_self] at hn
      obtain rfl := Option.some.inj hn
      cases he
    · rw [Heap.cells_alloc_of_ne hv] at hn
      exact (h.edge v n i e hn he).add hbrk hd (Heap.lt_brk hn)
  link v n u hn hu := by
    by_cases hv : v = heap.brk
    · subst hv
      rw [Heap.cells_alloc_self] at hn
      obtain rfl := Option.some.inj hn
      cases hu
    · rw [Heap.cells_alloc_of_ne hv] at hn
      obtain ⟨hlt, hdepth⟩ := h.link v n u hn hu
      rw [Survey.depth_add_of_ne hbrk hd hv, Survey.depth_add_of_ne hbrk hd hlt.ne]
      exact ⟨Nat.lt_succ_of_lt hlt, hdepth⟩

/-- An edge that is right by itself may be put into any slot. -/
theorem Sound.setEdge (h : L.Sound g heap) (hn : heap.cells v = some n)
    (he : L.EdgeOk g heap.brk v i e) : L.Sound g (heap.put v fun n => n.setEdge i e) where
  edge w n' i' e' hn' he' := by
    by_cases hw : w = v
    · subst hw
      rw [Heap.cells_put_self hn] at hn'
      obtain rfl := Option.some.inj hn'
      by_cases hi : i' = i
      · subst hi
        have heq : some e = some e' := (Function.update_self (f := n.edges) ..).symm.trans he'
        obtain rfl := Option.some.inj heq
        exact he
      · have heq : n.edges i' = some e' := (Function.update_of_ne hi ..).symm.trans he'
        exact h.edge w n i' e' hn heq
    · rw [Heap.cells_put_of_ne hw] at hn'
      exact h.edge w n' i' e' hn' he'
  link w n' u hn' hu := by
    by_cases hw : w = v
    · subst hw
      rw [Heap.cells_put_self hn] at hn'
      obtain rfl := Option.some.inj hn'
      exact h.link w n u hn hu
    · rw [Heap.cells_put_of_ne hw] at hn'
      exact h.link w n' u hn' hu

/-- A link leads to a node that is less deep. -/
theorem Sound.setLink (h : L.Sound g heap) (hn : heap.cells v = some n) (hu : u < heap.brk)
    (hdepth : g.depth u < g.depth v) :
    L.Sound g (heap.put v fun n => { n with link := some u }) where
  edge w n' i' e' hn' he' := by
    by_cases hw : w = v
    · subst hw
      rw [Heap.cells_put_self hn] at hn'
      obtain rfl := Option.some.inj hn'
      exact h.edge w n i' e' hn he'
    · rw [Heap.cells_put_of_ne hw] at hn'
      exact h.edge w n' i' e' hn' he'
  link w n' u' hn' hu' := by
    by_cases hw : w = v
    · subst hw
      rw [Heap.cells_put_self hn] at hn'
      obtain rfl := Option.some.inj hn'
      obtain rfl : u = u' := Option.some.inj hu'
      exact ⟨hu, hdepth⟩
    · rw [Heap.cells_put_of_ne hw] at hn'
      exact h.link w n' u' hn' hu'

/-! ## What an operation that does not fault has done

The operations fault on a slot that is not there and on a node that is not there. What one that ends has
done is read off its definition here, once. -/

theorem of_slot {x : ℤ} {k : Fin 26} (h : slot x = .ok k) : x = (k : ℕ) := by
  unfold slot at h
  split at h
  · next hx =>
    obtain rfl := Except.ok.inj h
    show x = (x.toNat : ℤ)
    omega
  · cases h

theorem of_edgeAt {p : Ptr} {c : CChar} {oe : Option Edge} (h : edgeAt heap p c = .ok (i, oe)) :
    ∃ v n, p = some v ∧ heap.cells v = some n ∧ slot (c.toInt - 97) = .ok i ∧ n.edges i = oe := by
  unfold edgeAt at h
  obtain ⟨n, hload, hrest⟩ := bind_eq_ok.mp h
  obtain ⟨k, hslot, hret⟩ := bind_eq_ok.mp hrest
  obtain ⟨rfl, rfl⟩ := Prod.mk.inj (Except.ok.inj hret)
  obtain ⟨v, rfl, hn⟩ := Heap.of_load hload
  exact ⟨v, n, rfl, hn, hslot, rfl⟩

theorem of_createEdge {p : Ptr} {c : CChar} (h : createEdge heap p c t = .ok heap') :
    ∃ v n i, p = some v ∧ heap.cells v = some n ∧ slot (c.toInt - 97) = .ok i ∧
      heap' = heap.put v fun n => n.setEdge i { start := t, stop := .loop, node := none } := by
  unfold createEdge at h
  obtain ⟨k, hslot, h⟩ := bind_eq_ok.mp h
  obtain ⟨v, n, rfl, hn, rfl⟩ := Heap.of_modify h
  exact ⟨v, n, k, rfl, hn, hslot, rfl⟩

/-- The upper half of an edge, which leads to the new node. -/
def upperHalf (e : Edge) (a : ℤ) (u : ℕ) : Edge :=
  { start := e.start, stop := .own (e.start + a - 1), node := some u }

/-- The lower half, which leads nowhere. -/
def lowerHalf (e : Edge) (a : ℤ) : Edge :=
  { start := e.start + a - 1 + 1, stop := e.stop, node := none }

/-- The upper half stays in the slot of the edge; the lower half comes into the slot of its position. -/
theorem of_createNode {a : ℤ} {node : Ptr}
    (h : createNode heap (some v) i e a = .ok (heap', node)) :
    ∃ n₁ n₂, ∃ k : Fin 26, node = some heap.brk ∧ (heap.alloc emptyNode).cells v = some n₁ ∧
      ((heap.alloc emptyNode).put v fun n => n.setEdge i (upperHalf e a heap.brk)).cells heap.brk =
        some n₂ ∧
      e.start + a - 1 + 1 = (k : ℕ) ∧
      heap' = ((heap.alloc emptyNode).put v fun n => n.setEdge i (upperHalf e a heap.brk)).put
        heap.brk fun n => n.setEdge k (lowerHalf e a) := by
  unfold createNode at h
  simp only [] at h
  obtain ⟨heap₁, hupper, hrest₁⟩ := bind_eq_ok.mp h
  obtain ⟨k, hslot, hrest₂⟩ := bind_eq_ok.mp hrest₁
  obtain ⟨heap₂, hlower, hret⟩ := bind_eq_ok.mp hrest₂
  obtain ⟨rfl, rfl⟩ := Prod.mk.inj (Except.ok.inj hret)
  obtain ⟨_, n₁, hv₁, hn₁, rfl⟩ := Heap.of_modify hupper
  obtain rfl := Option.some.inj hv₁
  obtain ⟨_, n₂, hv₂, hn₂, rfl⟩ := Heap.of_modify hlower
  obtain rfl := Option.some.inj hv₂
  exact ⟨n₁, n₂, k, rfl, hn₁, hn₂, of_slot hslot, rfl⟩

theorem of_setLink {p q : Ptr} (h : SuffixTree.setLink heap p q = .ok heap') :
    p = none ∧ heap' = heap ∨ ∃ u n, p = some u ∧ heap.cells u = some n ∧
      heap' = heap.put u fun n => { n with link := q } := by
  unfold SuffixTree.setLink at h
  split at h
  · obtain ⟨u, n, rfl, hn, rfl⟩ := Heap.of_modify h
    exact Or.inr ⟨u, n, rfl, hn, rfl⟩
  · next hnone =>
    cases h
    exact Or.inl ⟨not_not.mp hnone, rfl⟩

/-- A node that waits for its link may get one to any node that is less deep. -/
theorem Sound.relink (h : L.Sound g heap) {prev : Ptr} {w : ℕ}
    (hlink : SuffixTree.setLink heap prev (some w) = .ok heap') (hw : w < heap.brk)
    (hless : ∀ u, prev = some u → g.depth w < g.depth u) :
    L.Sound g heap' ∧ heap'.brk = heap.brk ∧ heap'.cells w = heap.cells w := by
  rcases of_setLink hlink with ⟨-, rfl⟩ | ⟨u, n, hu, hn, rfl⟩
  · exact ⟨h, rfl, rfl⟩
  · have hlt := hless u hu
    have hne : w ≠ u := by
      rintro rfl
      exact absurd hlt (lt_irrefl _)
    exact ⟨h.setLink hn hw hlt, rfl, Heap.cells_put_of_ne hne⟩

theorem slot_nul : ∀ k, slot ((0 : CChar).toInt - 97) ≠ .ok k := by
  intro k h
  have hk := of_slot h
  have hzero : (0 : CChar).toInt - 97 = -97 := by decide
  omega

/-! ## Walking down

The depth of a node is the number of letters above it. The active point goes from a node to a deeper
one, and gives up as many letters of its length as the edge between them has. -/

theorem activePoint_eq {heap : Heap Node} {ap : ActivePoint}
    (h : edgeAt heap ap.node ap.order = .ok (i, some e)) :
    activePoint heap ap = .ok (e.start + ap.active_length) := by
  obtain ⟨v, n, -, -, hslot, -⟩ := of_edgeAt h
  have hne : ap.order ≠ 0 := by
    intro hzero
    rw [hzero] at hslot
    exact slot_nul _ hslot
  unfold activePoint
  rw [if_neg hne, h]
  rfl

/-- **The way down keeps the depth of the active point**, and ends on an edge that reaches it. -/
theorem Sound.walkDown (h : L.Sound g heap) {f : ℕ} {ap ap' : ActivePoint}
    (hal : 0 ≤ ap.active_length)
    (hwalk : SuffixTree.walkDown L.string t heap f ap = .ok (ap', i, e)) :
    ∃ v v' n, ap.node = some v ∧ ap'.node = some v' ∧ heap.cells v' = some n ∧
      n.edges i = some e ∧ 0 ≤ ap'.active_length ∧
      g.depth v' + ap'.active_length = g.depth v + ap.active_length ∧
      e.start + ap'.active_length ≤ e.stop.value t := by
  induction f generalizing ap with
  | zero => cases hwalk
  | succ f ih =>
    rw [SuffixTree.walkDown] at hwalk
    obtain ⟨point, hpoint, hwalk⟩ := bind_eq_ok.mp hwalk
    obtain ⟨⟨k, oe⟩, hcurrent, hwalk⟩ := bind_eq_ok.mp hwalk
    cases oe with
    | none => cases hwalk
    | some e₁ =>
      simp only [] at hwalk
      obtain ⟨v, n, hv, hn, hslot, he⟩ := of_edgeAt hcurrent
      obtain rfl : point = e₁.start + ap.active_length :=
        (Except.ok.inj ((activePoint_eq hcurrent).symm.trans hpoint)).symm
      -- the walk goes past the edge, into the node below it, or stays on it
      split at hwalk
      · next hover =>
        obtain ⟨order, horder, hwalk⟩ := bind_eq_ok.mp hwalk
        let ap₁ : ActivePoint := {
          node := e₁.node
          order
          active_length := e₁.start + ap.active_length - (e₁.stop.value t + 1) }
        have hal₁ : 0 ≤ ap₁.active_length := by
          show 0 ≤ e₁.start + ap.active_length - (e₁.stop.value t + 1)
          omega
        have hwalk₁ : SuffixTree.walkDown L.string t heap f ap₁ = .ok (ap', i, e) := hwalk
        obtain ⟨u, v', n', hu, hv', hn', he', hal', hdepth, hreach⟩ := ih hal₁ hwalk₁
        obtain ⟨-, -, b, hb, hchild⟩ := (h.edge v n k e₁ hn he).child u hu
        refine ⟨v, v', n', hv, hv', hn', he', hal', ?_, hreach⟩
        have hvalue : e₁.stop.value t = b := by rw [hb]; rfl
        have hlength : ap₁.active_length = e₁.start + ap.active_length - (b + 1) := by
          rw [← hvalue]
        rw [hdepth, hchild, hlength]
        omega
      · next hinside =>
        cases hwalk
        exact ⟨v, v, n, hv, hv, hn, he, hal, rfl, by omega⟩

/-! ## Splitting an edge

The edge ends at a new node, and that node has the rest of it. The rest is in the slot of its position,
which is the one of its letter only by chance. -/

/-! ### The halves -/

section Halves

variable {a : ℤ}

/-- What is filed rightly is so for its place in the string, so the upper half is when the edge is. -/
theorem watched_upperHalf : L.Watched g v i (upperHalf e a u) ↔ L.Watched g v i e :=
  Iff.rfl

theorem Late.upperHalf (h : L.Late d e) (ha : ∀ b, e.stop = .own b → e.start + a ≤ b) :
    L.Late d (upperHalf e a u) := by
  rcases h with h | ⟨h, b, hb, hlt⟩
  · exact Or.inl h
  · have hle := ha b hb
    refine Or.inr ⟨h, _, rfl, ?_⟩
    omega

theorem Late.lowerHalf (h : L.Late d e) : L.Late (d + a) (lowerHalf e a) := by
  rcases h with h | ⟨h, hstop⟩
  · left
    show L.m ≤ e.start + a - 1 + 1 - (d + a)
    omega
  · right
    refine ⟨?_, hstop⟩
    show e.start + a - 1 + 1 - (d + a) = L.j
    omega

/-- The upper half ends at the new node, which is as deep as the half is long. -/
theorem EdgeOk.upperHalf {brk : ℕ} (h : L.EdgeOk g brk v i e)
    (hend : e.start + a - 1 < L.string.length) (ha : 0 ≤ a)
    (hreach : ∀ b, e.stop = .own b → e.start + a ≤ b) (hne : u ≠ 0) (hu : u < brk)
    (hdepth : g.depth u = g.depth v + a) (hbelow : L.Watched g v i e → g.below u) :
    L.EdgeOk g brk v i (upperHalf e a u) where
  start_nonneg := h.start_nonneg
  stop b hb := by
    obtain rfl := End.own.inj hb
    refine ⟨?_, hend⟩
    show e.start ≤ e.start + a - 1 + 1
    omega
  child w hw := by
    obtain rfl := Option.some.inj hw
    refine ⟨hne, hu, _, rfl, ?_⟩
    show g.depth u = g.depth v + (e.start + a - 1 + 1 - e.start)
    omega
  late hw := by
    have hw' := watched_upperHalf.mp hw
    refine ⟨(h.late hw').1.upperHalf hreach, fun w hu => ?_⟩
    obtain rfl := Option.some.inj hu
    exact hbelow hw'

/-- The lower half is watched only when the edge was, for the way to it leads through the upper
half. -/
theorem EdgeOk.lowerHalf {brk : ℕ} {k : Fin 26} (h : L.EdgeOk g brk v i e) (ha : 0 ≤ a)
    (hreach : ∀ b, e.stop = .own b → e.start + a ≤ b) (hne : u ≠ 0)
    (hdepth : g.depth u = g.depth v + a) (hbelow : g.below u → L.Watched g v i e) :
    L.EdgeOk g brk u k (lowerHalf e a) where
  start_nonneg := by
    have hstart := h.start_nonneg
    show 0 ≤ e.start + a - 1 + 1
    omega
  stop b hb := by
    have hle := hreach b hb
    refine ⟨?_, (h.stop b hb).2⟩
    show e.start + a - 1 + 1 ≤ b + 1
    omega
  child := nofun
  late := by
    rintro ⟨-, ⟨hzero, -⟩ | hu⟩
    · exact absurd hzero hne
    · refine ⟨?_, nofun⟩
      rw [hdepth]
      exact (h.late (hbelow hu)).1.lowerHalf

end Halves

/-- **A split keeps the heap sound.** The new node is below the first split when the way to it is. -/
theorem Sound.split (h : L.Sound g heap) (hn : heap.cells v = some n) (he : n.edges i = some e)
    {a : ℤ} (hal : 0 ≤ a) (hdepth : 1 ≤ g.depth v + a) (hreach : e.start + a ≤ e.stop.value t)
    (ht : t < L.string.length) {node : Ptr}
    (hcreate : createNode heap (some v) i e a = .ok (heap', node)) :
    ∃ g', node = some heap.brk ∧ L.Sound g' heap' ∧ heap'.brk = heap.brk + 1 ∧ heap.brk ≠ 0 ∧
      g'.depth heap.brk = g.depth v + a ∧ ∀ w, w ≠ heap.brk → g'.depth w = g.depth w := by
  have hv : v < heap.brk := Heap.lt_brk hn
  have hbrk : heap.brk ≠ 0 := by omega
  have hok := h.edge v n i e hn he
  let g' := g.add heap.brk hbrk (g.depth v + a) hdepth (L.Watched g v i e)
  have hself : g'.depth heap.brk = g.depth v + a := Survey.depth_add_self hbrk hdepth
  have hother : ∀ w, w ≠ heap.brk → g'.depth w = g.depth w := by
    intro w hw
    exact Survey.depth_add_of_ne hbrk hdepth hw
  have hbelow : g'.below heap.brk = L.Watched g v i e := Survey.below_add_self hbrk hdepth
  -- the split is inside the edge, and so inside the string
  have hinside : ∀ b, e.stop = .own b → e.start + a ≤ b := by
    intro b hb
    rw [hb] at hreach
    exact hreach
  have hend : e.start + a - 1 < L.string.length := by
    cases hs : e.stop with
    | loop =>
      rw [hs] at hreach
      change e.start + a ≤ t at hreach
      omega
    | own b =>
      have hb := hinside b hs
      have hb' := (hok.stop b hs).2
      omega
  -- both halves are right in the heap with the new node
  have halloc : L.Sound g' (heap.alloc emptyNode) := h.alloc hbrk hdepth
  have hok' : L.EdgeOk g' (heap.brk + 1) v i e := hok.add hbrk hdepth hv
  have hwatched : L.Watched g' v i e ↔ L.Watched g v i e := watched_add hbrk hdepth hv.ne
  have hdepth' : g'.depth heap.brk = g'.depth v + a := by rw [hself, hother v hv.ne]
  obtain ⟨n₁, n₂, k, rfl, hn₁, hn₂, -, rfl⟩ := of_createNode hcreate
  have hupperOk : L.EdgeOk g' (heap.brk + 1) v i (upperHalf e a heap.brk) := by
    refine hok'.upperHalf hend hal hinside hbrk (Nat.lt_succ_self _) hdepth' fun hw => ?_
    rw [hbelow]
    exact hwatched.mp hw
  have hlowerOk : L.EdgeOk g' (heap.brk + 1) heap.brk k (lowerHalf e a) := by
    refine hok'.lowerHalf hal hinside hbrk hdepth' fun hw => ?_
    rw [hbelow] at hw
    exact hwatched.mpr hw
  refine ⟨g', rfl, ?_, rfl, hbrk, hself, hother⟩
  exact (halloc.setEdge hn₁ hupperOk).setEdge hn₂ hlowerOk

end Site

end Lcthw.SuffixTree
