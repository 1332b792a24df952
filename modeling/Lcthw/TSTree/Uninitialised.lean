import Lcthw.TSTree.Trace
import Lcthw.Run

/-!
# Lcthw — delimiter insertion and what malloc hands out

`TSTree_delim_insert_base` sets `splitchar`, and the `stat` of a '/' node, in the block it gets
from malloc; `low`, `high`, `equal` and `value` stay as they are in the block.

* **`insertAll`**: a sequence of insertions from a NULL root.
* **`low_dead_of_delimInsert`**: a garbage `low` link in the first node outlives every insertion.
* **`insertAll_determined_iff`**: only the empty sequence does not depend on the blocks.
* **`delimInsert_every`**: what holds of all nodes that the blocks lead to stays true of all nodes.
-/

namespace Lcthw.TSTree

open Ternary Ternary.Tree

variable {ν : Type}

/-- Insert in order; the second component counts the blocks taken from malloc. -/
def insertAll (malloc : Malloc ν) (kvs : List (List CChar × ν)) : Except Fault (TSTree ν × ℕ) :=
  kvs.foldlM (fun t kv => delimInsert malloc t.2 t.1 kv.1 kv.2) (nil, 0)

/-- Blocks of zeros but for a `low` link that leads nowhere. -/
def wildLow : Malloc ν := fun _ => { Block.zero with low := dead }

/-- The `low` link of the root is dead. -/
def LowDead : TSTree ν → Prop
  | node _ low _ _ _ => low = dead
  | nil => False
  | dead => False

theorem LowDead.of_shape {t u : TSTree ν} (h : u.shape = t.shape) (ht : LowDead t) : LowDead u := by
  cases t with
  | nil => exact ht.elim
  | dead => exact ht.elim
  | node c low high equal d =>
    obtain rfl : low = dead := ht
    cases u with
    | nil => simp at h
    | dead => simp at h
    | node c' low' high' equal' d' =>
      rw [shape_node, shape_node] at h
      injection h with _ hlow
      simpa [LowDead] using hlow

theorem LowDead.not_live {t : TSTree ν} (h : LowDead t) : ¬ t.Live := by
  cases t with
  | nil => exact h.elim
  | dead => exact h.elim
  | node c low high equal d =>
    obtain rfl : low = dead := h
    exact fun hlive => hlive.1

/-- Along its level an insertion keeps the `low` link of the root, and gives a new root the one of
its block. -/
theorem low_dead_of_delimInsertLevel {key : CChar}
    {matched : CChar → TSTree ν → TSTree ν → TSTree ν → Cell ν → Route → InsertState →
      Except Fault (TSTree ν × InsertState)}
    (hmatched : ∀ c low high equal d here s u s',
      matched c low high equal d here s = .ok (u, s') → low = dead → LowDead u)
    {t u : TSTree ν} (ht : t = nil ∨ LowDead t) {here : Route} {s s' : InsertState}
    (h : delimInsertLevel wildLow key matched t here s = .ok (u, s')) : LowDead u := by
  -- a new node has the link from its block
  rcases ht with rfl | ht
  · simp only [delimInsertLevel] at h
    split_ifs at h
    · exact hmatched _ _ _ _ _ _ _ _ _ h rfl
    · exact hmatched _ _ _ _ _ _ _ _ _ h rfl
  · cases t with
    | nil => exact ht.elim
    | dead => exact ht.elim
    | node c low high equal d =>
      obtain rfl : low = dead := ht
      rw [delimInsertLevel] at h
      generalize (if c = delim then s.push here else s) = s₁ at h
      split_ifs at h with hgt heq
      · obtain ⟨r, -, hr⟩ := bind_eq_ok.mp h
        obtain ⟨rfl, -⟩ := Prod.mk.inj (Except.ok.inj hr)
        rfl
      · exact hmatched _ _ _ _ _ _ _ _ _ h rfl
      · obtain ⟨r, hr, -⟩ := bind_eq_ok.mp h
        cases hr

theorem low_dead_of_delimInsertBase {key : List CChar} (hkey : key ≠ []) (value : ν)
    {t u : TSTree ν} (ht : t = nil ∨ LowDead t) {here : Route} {s s' : InsertState}
    (h : delimInsertBase wildLow key value t here s = .ok (u, s')) : LowDead u := by
  obtain ⟨k, ks, rfl⟩ := List.exists_cons_of_ne_nil hkey
  rw [delimInsertBase] at h
  refine low_dead_of_delimInsertLevel (fun c low high equal d here s u s' hm hlow => ?_) ht h
  split_ifs at hm with hks hv
  · obtain ⟨r, -, hr⟩ := bind_eq_ok.mp hm
    obtain ⟨rfl, -⟩ := Prod.mk.inj (Except.ok.inj hr)
    exact hlow
  · obtain ⟨rfl, -⟩ := Prod.mk.inj (Except.ok.inj hm)
    exact hlow
  · obtain ⟨rfl, -⟩ := Prod.mk.inj (Except.ok.inj hm)
    exact hlow

/-- **A garbage `low` link in the root stays.** -/
theorem low_dead_of_delimInsert {key : List CChar} {value : ν} {blocks blocks' : ℕ} {t u : TSTree ν}
    (ht : t = nil ∨ LowDead t) (h : delimInsert wildLow blocks t key value = .ok (u, blocks')) :
    LowDead u := by
  rw [delimInsert] at h
  obtain ⟨⟨t₁, s⟩, hbase, h⟩ := bind_eq_ok.mp h
  obtain ⟨t₂, hcount, h⟩ := bind_eq_ok.mp h
  obtain ⟨rfl, -⟩ := Prod.mk.inj (Except.ok.inj h)
  exact (low_dead_of_delimInsertBase (storedKey_ne_nil key) value ht hbase).of_shape
    (foldlM_addCount_restated hcount).shape_eq

/-- On zero-filled blocks an insertion keeps a tree live. -/
theorem live_of_delimInsert {key : List CChar} {value : ν} {blocks blocks' : ℕ} {t u : TSTree ν}
    (ht : t.Live) (h : delimInsert zeroFilled blocks t key value = .ok (u, blocks')) : u.Live := by
  rw [delimInsert_eq] at h
  obtain ⟨_, -, h⟩ := bind_eq_ok.mp h
  obtain ⟨v, hcount, hv⟩ := map_eq_ok.mp h
  obtain ⟨rfl, -⟩ := Prod.mk.inj hv
  exact (ht.upsert (bindFresh value) (storedKey key)).of_shape
    (foldlM_addCount_restated hcount).shape_eq.symm

/-- On zero-filled blocks a sequence leads to a live tree. -/
theorem live_of_insertAll {kvs : List (List CChar × ν)} {r : TSTree ν × ℕ}
    (h : insertAll zeroFilled kvs = .ok r) : r.1.Live :=
  Run.run_invariant (I := fun t : TSTree ν × ℕ => t.1.Live) _
    (fun _ _ _ ht h => live_of_delimInsert ht h) (s := (nil, 0)) trivial h

/-- A sequence that is not empty leaves the link of its first block. -/
theorem low_dead_of_insertAll {kvs : List (List CChar × ν)} (hkvs : kvs ≠ []) {r : TSTree ν × ℕ}
    (h : insertAll wildLow kvs = .ok r) : LowDead r.1 := by
  obtain ⟨kv, kvs, rfl⟩ := List.exists_cons_of_ne_nil hkvs
  rw [insertAll, List.foldlM_cons] at h
  obtain ⟨t, ht, hrest⟩ := bind_eq_ok.mp h
  exact Run.run_invariant (I := fun t : TSTree ν × ℕ => LowDead t.1) _
    (fun _ _ _ ht h => low_dead_of_delimInsert (Or.inr ht) h)
    (low_dead_of_delimInsert (Or.inl rfl) ht) hrest

/-- **The result of creating urls depends on uninitialised memory.** Only the empty sequence builds
the same tree from any two contents of the blocks. -/
theorem insertAll_determined_iff (kvs : List (List CChar × ν)) :
    (∀ m₁ m₂ : Malloc ν, ∃ t₁ t₂, insertAll m₁ kvs = .ok t₁ ∧ insertAll m₂ kvs = .ok t₂ ∧
        t₁.1.map Cell.value = t₂.1.map Cell.value) ↔
      kvs = [] := by
  constructor
  · intro h
    by_contra hkvs
    obtain ⟨t₁, t₂, ht₁, ht₂, heq⟩ := h zeroFilled wildLow
    have hshape : t₁.1.shape = t₂.1.shape := by
      rw [← shape_map Cell.value, heq, shape_map]
    exact (low_dead_of_insertAll hkvs ht₂).not_live ((live_of_insertAll ht₁).of_shape hshape)
  · rintro rfl m₁ m₂
    exact ⟨(nil, 0), (nil, 0), rfl, rfl, rfl⟩

/-- One url is enough: the `low` link of its node is whatever the block held. -/
theorem insert_keeps_garbage :
    ∃ t₁ t₂, insertAll (ν := Unit) zeroFilled [(cstr "a", ())] = .ok t₁ ∧
      insertAll (ν := Unit) wildLow [(cstr "a", ())] = .ok t₂ ∧
      t₁.1.map Cell.value ≠ t₂.1.map Cell.value :=
  ⟨_, _, rfl, rfl, by decide⟩

/-! ## What an insertion keeps

Whatever the blocks hold, an insertion makes no other nodes than those of its blocks and what their
links lead to. So a property of nodes that these have is kept. -/

/-- `P` holds of a new node made of the block, and of every node that its links lead to. -/
structure Block.Holds (P : Cell ν → Prop) (block : Block ν) : Prop where
  low : block.low.Every fun _ => P
  high : block.high.Every fun _ => P
  equal : block.equal.Every fun _ => P
  cell : P ⟨block.stat, block.value⟩

theorem Block.holds_zero {P : Cell ν → Prop} (h : P ⟨none, none⟩) : Block.zero.Holds P :=
  ⟨every_nil _, every_nil _, every_nil _, h⟩

section Every

variable {P : Cell ν → Prop} {malloc : Malloc ν}

/-- What no key matters to holds of the three subtrees and of the node. -/
theorem every_node {c : CChar} {low high equal : TSTree ν} {d : Cell ν} :
    (node c low high equal d).Every (fun _ => P) ↔
      low.Every (fun _ => P) ∧ high.Every (fun _ => P) ∧ equal.Every (fun _ => P) ∧ P d := by
  constructor
  · intro h
    refine ⟨fun e he => ?_, fun e he => ?_, fun e he => ?_, ?_⟩
    · exact h e (mem_entries_node.mpr (.inl he))
    · exact h e (mem_entries_node.mpr (.inr (.inl he)))
    · exact h (c :: e.1, e.2) (mem_entries_node.mpr (.inr (.inr (.inr ⟨e, he, rfl⟩))))
    · exact h ([c], d) (mem_entries_node.mpr (.inr (.inr (.inl rfl))))
  · rintro ⟨hlow, hhigh, hequal, hd⟩ e he
    rcases mem_entries_node.mp he with he | he | rfl | ⟨e', he', rfl⟩
    · exact hlow e he
    · exact hhigh e he
    · exact hd
    · exact hequal e' he'

/-- Along a level, when the work at the matching node keeps `P`. -/
theorem delimInsertLevel_every (hblocks : ∀ i, (malloc i).Holds P)
    (hstat : ∀ c st, P c → P { c with stat := some st }) {key : CChar}
    {matched : CChar → TSTree ν → TSTree ν → TSTree ν → Cell ν → Route → InsertState →
      Except Fault (TSTree ν × InsertState)}
    (hmatched : ∀ c low high equal d here s u s', (node c low high equal d).Every (fun _ => P) →
      matched c low high equal d here s = .ok (u, s') → u.Every fun _ => P)
    {t u : TSTree ν} (ht : t.Every fun _ => P) {here : Route} {s s' : InsertState}
    (h : delimInsertLevel malloc key matched t here s = .ok (u, s')) : u.Every fun _ => P := by
  induction t generalizing u here s s' with
  | nil =>
    -- the node is the next block, and a '/' node gets a `Stats` besides
    obtain ⟨hlow, hhigh, hequal, hcell⟩ := hblocks s.blocks
    simp only [delimInsertLevel] at h
    split_ifs at h
    · exact hmatched _ _ _ _ _ _ _ _ _ (every_node.mpr ⟨hlow, hhigh, hequal, hstat _ _ hcell⟩) h
    · exact hmatched _ _ _ _ _ _ _ _ _ (every_node.mpr ⟨hlow, hhigh, hequal, hcell⟩) h
  | dead => cases h
  | node c low high equal d ihl ihh ihe =>
    obtain ⟨hlow, hhigh, hequal, hd⟩ := every_node.mp ht
    rw [delimInsertLevel] at h
    generalize (if c = delim then s.push here else s) = s₁ at h
    split_ifs at h with hgt heq
    · obtain ⟨r, hr, hret⟩ := bind_eq_ok.mp h
      obtain ⟨rfl, -⟩ := Prod.mk.inj (Except.ok.inj hret)
      exact every_node.mpr ⟨hlow, ihh hhigh hr, hequal, hd⟩
    · exact hmatched _ _ _ _ _ _ _ _ _ ht h
    · obtain ⟨r, hr, hret⟩ := bind_eq_ok.mp h
      obtain ⟨rfl, -⟩ := Prod.mk.inj (Except.ok.inj hret)
      exact every_node.mpr ⟨ihl hlow hr, hhigh, hequal, hd⟩

/-- The recursion along the levels of the key. -/
theorem delimInsertBase_every (hblocks : ∀ i, (malloc i).Holds P)
    (hstat : ∀ c st, P c → P { c with stat := some st }) {value : ν}
    (hnew : P ⟨some Stats.create, some value⟩) {key : List CChar} {t u : TSTree ν}
    (ht : t.Every fun _ => P) {here : Route} {s s' : InsertState}
    (h : delimInsertBase malloc key value t here s = .ok (u, s')) : u.Every fun _ => P := by
  induction key generalizing t u here s s' with
  | nil =>
    obtain ⟨rfl, -⟩ := Prod.mk.inj (Except.ok.inj h)
    exact ht
  | cons k ks ih =>
    rw [delimInsertBase] at h
    refine delimInsertLevel_every hblocks hstat (fun c low high equal d here s u s' hnode hm => ?_) ht h
    obtain ⟨hlow, hhigh, hequal, hd⟩ := every_node.mp hnode
    split_ifs at hm with hks hv
    · obtain ⟨r, hr, hret⟩ := bind_eq_ok.mp hm
      obtain ⟨rfl, -⟩ := Prod.mk.inj (Except.ok.inj hret)
      exact every_node.mpr ⟨hlow, hhigh, ih hequal hr, hd⟩
    · obtain ⟨rfl, -⟩ := Prod.mk.inj (Except.ok.inj hm)
      exact every_node.mpr ⟨hlow, hhigh, hequal, hnew⟩
    · obtain ⟨rfl, -⟩ := Prod.mk.inj (Except.ok.inj hm)
      exact hnode

/-- **What holds of the nodes, of the blocks and of the new value holds after an insertion**, if no
`Stats` matters to it. -/
theorem delimInsert_every (hblocks : ∀ i, (malloc i).Holds P)
    (hstat : ∀ c st, P c → P { c with stat := some st }) {value : ν}
    (hnew : P ⟨some Stats.create, some value⟩) {key : List CChar} {blocks blocks' : ℕ}
    {t u : TSTree ν} (ht : t.Every fun _ => P)
    (h : delimInsert malloc blocks t key value = .ok (u, blocks')) : u.Every fun _ => P := by
  rw [delimInsert] at h
  obtain ⟨⟨t₁, s⟩, hbase, h⟩ := bind_eq_ok.mp h
  obtain ⟨t₂, hcount, h⟩ := bind_eq_ok.mp h
  obtain ⟨rfl, -⟩ := Prod.mk.inj (Except.ok.inj h)
  exact (foldlM_addCount_restated hcount).every (fun _ c st hc => hstat c st hc)
    (delimInsertBase_every hblocks hstat hnew ht hbase)

end Every

end Lcthw.TSTree
