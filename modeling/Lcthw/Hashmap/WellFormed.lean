import Lcthw.Hashmap.Finite

/-!
# Lcthw — `Hashmap_set` on a well-formed map

* **`WellFormed`**: each bucket is strictly sorted by `bstrcmp`, and each node stores the hash of its
  key and is in the bucket of that hash.
* **`set_wellFormed`**: `Hashmap_set` keeps a map well formed and sets one key, also where the bucket of
  a new key has to grow.
-/

namespace Lcthw.Hashmap

open DArray (Junk)

variable {V : Type}

/-- A map with the default comparator and these nodes, bucket by bucket. -/
structure WellFormed (h : List CChar → UInt32) (map : Hashmap V)
    (nodes : List (List (HashmapNode V))) : Prop where
  layout : Layout h map nodes
  sorted : ∀ ns ∈ nodes, ns.Pairwise fun a b => bstrcmp a.key b.key < 0

variable {h : List CChar → UInt32} {map : Hashmap V} {nodes : List (List (HashmapNode V))}
  {ns : List (HashmapNode V)} {k : List CChar} {bound : Bindings V}

theorem sorted_iff : Sorted ns ↔ ns.Pairwise fun a b => bstrcmp a.key b.key < 0 := by
  unfold Sorted
  simp only [bstrcmp_lt]

/-- What the nodes bind. -/
def held (h : List CChar → UInt32) (nodes : List (List (HashmapNode V))) : Bindings V :=
  fun k => ((withKey (nodes[bucketN (h k)]?.getD []) k).map (·.data)).head?

theorem Models.wellFormed {s : Shadowed V} (hm : Models h s nodes) : WellFormed h s.map nodes :=
  ⟨hm.layout, fun ns hns => sorted_iff.mp (hm.sorted ns hns)⟩

/-- A map in order answers like the nodes in it. -/
theorem WellFormed.models (hm : WellFormed h map nodes) : Models h ⟨map, held h nodes⟩ nodes := by
  refine ⟨hm.layout, fun ns hns => sorted_iff.mpr (hm.sorted ns hns), ?_⟩
  intro k ns hns
  have hs : Sorted ns := sorted_iff.mpr (hm.sorted ns (List.mem_of_getElem? hns))
  show _ = (held h nodes k).toList
  unfold held
  rw [hns, Option.getD_some]
  by_cases hex : ∃ n ∈ ns, bstrcmp n.key k = 0
  · obtain ⟨n, hn, hk⟩ := hex
    obtain ⟨l, r, rfl⟩ := List.append_of_mem hn
    rw [hs.withKey_middle hk]
    rfl
  · have hnone : ∀ n ∈ ns, bstrcmp n.key k ≠ 0 := fun n hn hk => hex ⟨n, hn, hk⟩
    rw [withKey_eq_nil.mpr hnone]
    rfl

/-- A key is not bound when no node has it. -/
theorem WellFormed.held_eq_none_iff (hm : WellFormed h map nodes)
    (hh : ∀ a b, bstrcmp a b = 0 → h a = h b) (k : List CChar) :
    held h nodes k = none ↔ ∀ n ∈ nodes.flatten, bstrcmp n.key k ≠ 0 := by
  obtain ⟨ns, hns⟩ := hm.layout.exists_nodes k
  have hflat := withKey_flatten (s := ⟨map, held h nodes⟩) hm.layout hh hns
  have hbinds := hm.models.binds k ns hns
  rw [← withKey_eq_nil, hflat, ← List.map_eq_nil_iff (f := fun n : HashmapNode V => n.data), hbinds,
    Option.toList_eq_nil_iff]

/-- Allocation succeeds: the bucket of a key gets the block that a push asks for. -/
def Allocates (map : Hashmap V) (block : Option (Junk (HashmapNode V))) (k : List CChar) : Prop :=
  ∀ bucket hash, map.findBucket k false = .ok (map, some bucket, hash) → bucket.Allocates block

theorem WellFormed.roomFor (hm : WellFormed h map nodes) {junk : Junk (HashmapNode V)}
    (halloc : map.Allocates (some junk) k) : map.RoomFor k := by
  intro bucket hash hfind
  obtain ⟨ns, hns⟩ := hm.layout.exists_nodes k
  obtain ⟨bucket', hfind', hbucket⟩ := hm.layout.findBucket hns
  obtain ⟨rfl, -⟩ : bucket' = some bucket ∧ h k = hash := by
    simpa using Except.ok.inj (hfind'.symm.trans hfind)
  have hb : bucket.Holds (ns.map some) := hbucket
  exact (roomIn_iff junk hb).mpr (halloc bucket hash hfind)

/-- **`Hashmap_set` on a well-formed map** keeps it well formed, sets the key and no other one, and
adds a node exactly for a new key. Only a new key may need a larger block. -/
theorem set_wellFormed (junk : Junk (HashmapNode V)) (hm : WellFormed h map nodes)
    (hh : ∀ a b, bstrcmp a b = 0 → h a = h b) (k : List CChar) (data : Option V)
    (halloc : (∀ n ∈ nodes.flatten, bstrcmp n.key k ≠ 0) → map.Allocates (some junk) k) :
    ∃ map' nodes', map.set junk k data = .ok (map', 0) ∧ WellFormed h map' nodes' ∧
      map'.get k = .ok data ∧ (∀ k', bstrcmp k' k ≠ 0 → map'.get k' = map.get k') ∧
      ((∀ n ∈ nodes.flatten, bstrcmp n.key k ≠ 0) →
        nodes'.flatten.length = nodes.flatten.length + 1) ∧
      ((∃ n ∈ nodes.flatten, bstrcmp n.key k = 0) →
        nodes'.flatten.length = nodes.flatten.length) := by
  have hbound := hm.held_eq_none_iff hh k
  obtain ⟨map', nodes', hset, hm', hnew, hold⟩ :=
    set_models junk hm.models hh k data fun hnone => hm.roomFor (halloc (hbound.mp hnone))
  -- both maps answer like their bindings, and those differ at `k` alone
  have hbefore := hm.models.agrees junk hh
  have hafter := hm'.agrees junk hh
  refine ⟨map', nodes', hset, hm'.wellFormed, ?_, ?_, ?_, ?_⟩
  · rw [hafter.get k]
    simp [serve, bstrcmp_eq]
  · intro k' hne
    rw [hafter.get k', hbefore.get k']
    simp [serve, hne]
  · exact fun habsent => hnew (hbound.mpr habsent)
  · intro hpresent
    refine hold fun hnone => ?_
    obtain ⟨n, hn, hk⟩ := hpresent
    exact hbound.mp hnone n hn hk

/-- A map with all its nodes in the first bucket, that has one free slot. -/
def crowded (ns : List (HashmapNode V)) : Hashmap V where
  buckets :=
    { «end» := 10
      max := 10
      contents := some { «end» := ns.length, max := ns.length + 1, contents := ns.map some ++ [none] } ::
        List.replicate 9 none }
  compare := bstrcmp
  hash := fun _ => 0

/-- A map may have all its nodes in one bucket, and that bucket full. -/
theorem crowded_wellFormed (hs : ns.Pairwise fun a b => bstrcmp a.key b.key < 0)
    (hhash : ∀ n ∈ ns, n.hash = 0) (hmax : (ns.length : ℤ) + 1 ≤ INT_MAX) :
    WellFormed (fun _ => 0) (crowded ns) (ns :: List.replicate 9 []) := by
  -- all buckets but the first are empty
  have hnil : ∀ ms ∈ List.replicate 9 ([] : List (HashmapNode V)), ms = [] := by
    intro ms hms
    exact List.eq_of_mem_replicate hms
  refine ⟨⟨rfl, rfl, rfl, rfl, rfl, ?_, ?_⟩, ?_⟩
  · refine List.Forall₂.cons ⟨?_, ?_, hmax, ?_, ?_⟩ ?_
    · rw [List.length_map]
    · show (ns.length : ℤ) < ns.length + 1
      omega
    · show ((ns.map some ++ [none]).length : ℤ) = ns.length + 1
      simp
    · exact List.take_left
    · rw [List.forall₂_iff_get]
      refine ⟨rfl, fun i h1 h2 => ?_⟩
      rw [List.get_eq_getElem, List.get_eq_getElem, List.getElem_replicate, List.getElem_replicate]
      rfl
  · intro i ms hms n hn
    cases i with
    | zero =>
      obtain rfl : ns = ms := Option.some.inj hms
      exact ⟨hhash n hn, rfl⟩
    | succ i =>
      rw [hnil ms (List.mem_of_getElem? (by simpa using hms))] at hn
      cases hn
  · intro ms hms
    rcases List.mem_cons.mp hms with rfl | hms
    · exact hs
    · rw [hnil ms hms]
      exact List.Pairwise.nil

/-- A key between the two of a bucket, which grows for it. -/
theorem set_wellFormed_between :
    ∃ map' nodes', (crowded [⟨cstr "a", some 1, 0⟩, ⟨cstr "c", some 3, 0⟩]).set Junk.null (cstr "b")
        (some 2) = .ok (map', 0) ∧ WellFormed (fun _ => 0) map' nodes' ∧
      map'.get (cstr "b") = .ok (some 2) ∧ map'.get (cstr "c") = .ok (some 3) ∧
      nodes'.flatten.length = 3 := by
  have hm : WellFormed (fun _ => 0) (crowded [⟨cstr "a", some 1, 0⟩, ⟨cstr "c", some 3, 0⟩])
      ([⟨cstr "a", some 1, 0⟩, ⟨cstr "c", some 3, 0⟩] :: List.replicate 9 []) :=
    crowded_wellFormed (by decide) (by simp) (by decide)
  have hnew : ∀ n ∈ ([⟨cstr "a", some 1, 0⟩, ⟨cstr "c", some 3, 0⟩] :: List.replicate 9 [] :
      List (List (HashmapNode ℕ))).flatten, bstrcmp n.key (cstr "b") ≠ 0 := by
    simp
    decide
  obtain ⟨map', nodes', hset, hm', hget, hother, hcount, -⟩ :=
    set_wellFormed Junk.null hm (fun _ _ _ => rfl) (cstr "b") (some 2) (fun _ bucket hash hfind => by
      obtain ⟨-, hbucket⟩ := Prod.mk.inj (Except.ok.inj hfind)
      obtain ⟨hbucket, -⟩ := Prod.mk.inj hbucket
      obtain rfl := Option.some.inj hbucket
      -- a block of 303 slots
      intro _
      rfl)
  refine ⟨map', nodes', hset, hm', hget, ?_, hcount hnew⟩
  rw [hother (cstr "c") (by decide)]
  decide +kernel

end Lcthw.Hashmap
