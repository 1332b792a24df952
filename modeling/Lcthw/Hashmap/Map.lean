import Lcthw.Hashmap.Search

/-!
# Lcthw — the operations of the hash map on its nodes

* **`withKey`**: the nodes that `bstrcmp` cannot tell from a key. In a bucket in order there is at
  most one.
* **`Layout`**: the nodes of the ten buckets, and where they are.
* **`get_eq`**, **`set_found`**, **`set_new`**, **`traverse_eq`**: the operations on the nodes.
* **`delete_found`**: a deletion moves the last node of the bucket into the free slot.
-/

namespace Lcthw.Hashmap

open DArray (Junk)

variable {V : Type}

/-! ## The nodes with a key

`bstrcmp` does not tell keys apart that differ behind a NUL only, so it is the nodes that compare equal
which are counted. In a bucket in strict order there is one at most. -/

/-- The nodes with a key. -/
def withKey (ns : List (HashmapNode V)) (k : List CChar) : List (HashmapNode V) :=
  ns.filter fun n => decide (bstrcmp n.key k = 0)

section WithKey

variable {l r ns : List (HashmapNode V)} {n : HashmapNode V} {k : List CChar}

theorem withKey_append : withKey (l ++ r) k = withKey l k ++ withKey r k :=
  List.filter_append ..

theorem withKey_cons : withKey (n :: r) k = withKey [n] k ++ withKey r k := by
  rw [← withKey_append]
  rfl

theorem withKey_self (h : bstrcmp n.key k = 0) : withKey [n] k = [n] := by
  simp [withKey, h]

theorem withKey_other (h : bstrcmp n.key k ≠ 0) : withKey [n] k = [] := by
  simp [withKey, h]

theorem withKey_eq_nil : withKey ns k = [] ↔ ∀ n ∈ ns, bstrcmp n.key k ≠ 0 := by
  simp [withKey, List.filter_eq_nil_iff]

theorem bstrcmp_eq_trans {a b c : List CChar} (hab : bstrcmp a b = 0) (hbc : bstrcmp b c = 0) :
    bstrcmp a c = 0 := by
  rw [bstrcmp_eq] at *
  exact hab.trans hbc

theorem bstrcmp_eq_symm {a b : List CChar} (h : bstrcmp a b = 0) : bstrcmp b a = 0 := by
  rw [bstrcmp_eq] at *
  exact h.symm

/-- Around a node of a bucket in order no other node has its key. -/
theorem Sorted.withKey_around (hs : Sorted (l ++ n :: r)) (hk : bstrcmp n.key k = 0) :
    withKey l k = [] ∧ withKey r k = [] := by
  rw [bstrcmp_eq] at hk
  obtain ⟨-, hr, hlr⟩ := List.pairwise_append.mp hs
  constructor
  · refine withKey_eq_nil.mpr fun m hm heq => ?_
    have hlt := hlr m hm n List.mem_cons_self
    rw [hk, ← bstrcmp_eq.mp heq] at hlt
    exact lt_irrefl _ hlt
  · refine withKey_eq_nil.mpr fun m hm heq => ?_
    have hlt := List.rel_of_pairwise_cons hr hm
    rw [hk, ← bstrcmp_eq.mp heq] at hlt
    exact lt_irrefl _ hlt

theorem Sorted.withKey_middle (hs : Sorted (l ++ n :: r)) (hk : bstrcmp n.key k = 0) :
    withKey (l ++ n :: r) k = [n] := by
  obtain ⟨hl, hr⟩ := hs.withKey_around hk
  rw [withKey_append, withKey_cons, hl, hr, withKey_self hk]
  rfl

theorem withKey_skip (hk : bstrcmp n.key k ≠ 0) :
    withKey (l ++ n :: r) k = withKey (l ++ r) k := by
  rw [withKey_append, withKey_cons, withKey_other hk, List.nil_append, withKey_append]

end WithKey

/-! ## One node of a bucket

A bucket with one node singled out, and the others around it. -/

section Middle

variable {l r : List (HashmapNode V)} {m n : HashmapNode V}

/-- What holds of all nodes holds of one of them and of the others. -/
theorem forall_middle {P : HashmapNode V → Prop} :
    (∀ m ∈ l ++ n :: r, P m) ↔ P n ∧ ∀ m ∈ l ++ r, P m := by
  rw [← List.forall_mem_cons]
  exact forall_congr' fun m => imp_congr_left List.perm_middle.mem_iff

/-- An order looks at the keys, so that a node may change otherwise. -/
theorem pairwise_replace {R : List CChar → List CChar → Prop} (hkey : m.key = n.key)
    (h : (l ++ n :: r).Pairwise fun a b => R a.key b.key) :
    (l ++ m :: r).Pairwise fun a b => R a.key b.key := by
  have hkeys : (l ++ m :: r).map HashmapNode.key = (l ++ n :: r).map HashmapNode.key := by
    simp [hkey]
  rw [← List.pairwise_map, hkeys]
  exact List.pairwise_map.mpr h

end Middle

/-! ## The layout of a map

The layout says which nodes are in which bucket, and where the buckets are. An operation works on one
bucket and puts it back, which leaves the nodes of the other ones as they are. -/

/-- The nodes of a bucket, if it is there already. -/
def BucketHolds : Option (DArray (HashmapNode V)) → List (HashmapNode V) → Prop
  | none, ns => ns = []
  | some bucket, ns => bucket.Holds (ns.map some)

/-- The nodes of the map, bucket by bucket. -/
structure Layout (h : List CChar → UInt32) (map : Hashmap V)
    (nodes : List (List (HashmapNode V))) : Prop where
  compare : map.compare = bstrcmp
  hash : map.hash = h
  «end» : map.buckets.end = DEFAULT_NUMBER_OF_BUCKETS
  max : map.buckets.max = DEFAULT_NUMBER_OF_BUCKETS
  length : nodes.length = DEFAULT_NUMBER_OF_BUCKETS
  buckets : List.Forall₂ BucketHolds map.buckets.contents nodes
  placed : ∀ i ns, nodes[i]? = some ns → ∀ n ∈ ns, n.hash = h n.key ∧ bucketN (h n.key) = i

theorem bucketN_lt (hash : UInt32) : bucketN hash < DEFAULT_NUMBER_OF_BUCKETS :=
  Nat.mod_lt _ (by decide)

/-- A new map has no buckets. -/
theorem layout_create (h : List CChar → UInt32) :
    Layout h (create none (some h) : Hashmap V)
      (List.replicate DEFAULT_NUMBER_OF_BUCKETS []) where
  compare := rfl
  hash := rfl
  «end» := rfl
  max := rfl
  length := List.length_replicate
  buckets := by
    show List.Forall₂ BucketHolds (List.replicate 10 none) (List.replicate 10 [])
    rw [List.forall₂_iff_get]
    refine ⟨by simp, fun i h1 h2 => ?_⟩
    rw [List.get_eq_getElem, List.get_eq_getElem, List.getElem_replicate, List.getElem_replicate]
    rfl
  placed i ns hns n hn := by
    rw [List.eq_of_mem_replicate (List.mem_of_getElem? hns)] at hn
    cases hn

section Layout

variable {h : List CChar → UInt32} {map : Hashmap V} {nodes : List (List (HashmapNode V))}
  {ns : List (HashmapNode V)} {k : List CChar}

theorem Layout.length_contents (hl : Layout h map nodes) :
    map.buckets.contents.length = DEFAULT_NUMBER_OF_BUCKETS :=
  hl.buckets.length_eq.trans hl.length

/-- A bucket of a map, and the nodes in it. -/
theorem Layout.bucket (hl : Layout h map nodes) {i : ℕ} (hi : nodes[i]? = some ns) :
    ∃ bucket, map.buckets.get i = .ok bucket ∧ BucketHolds bucket ns := by
  obtain ⟨hlt, rfl⟩ := List.getElem?_eq_some_iff.mp hi
  have hlt' : i < map.buckets.contents.length := by
    rw [hl.length_contents, ← hl.length]
    exact hlt
  refine ⟨map.buckets.contents[i], ?_, hl.buckets.get hlt' hlt⟩
  unfold DArray.get
  rw [if_pos]
  · exact readAt_eq (List.getElem?_eq_getElem hlt')
  · rw [hl.max, ← hl.length]
    exact_mod_cast hlt

/-- The bucket of a key. -/
theorem Layout.exists_nodes (hl : Layout h map nodes) (k : List CChar) :
    ∃ ns, nodes[bucketN (h k)]? = some ns :=
  ⟨_, List.getElem?_eq_getElem (by rw [hl.length]; exact bucketN_lt _)⟩

theorem Layout.findBucket_eq (hl : Layout h map nodes) {bucket : Option (DArray (HashmapNode V))}
    (hget : map.buckets.get (bucketN (h k)) = .ok bucket) :
    map.findBucket k false = .ok (map, bucket, h k) := by
  unfold Hashmap.findBucket
  simp only []
  rw [hl.hash, hget, ok_bind, if_neg (by simp)]
  rfl

theorem Layout.findBucket (hl : Layout h map nodes) (hns : nodes[bucketN (h k)]? = some ns) :
    ∃ bucket, map.findBucket k false = .ok (map, bucket, h k) ∧ BucketHolds bucket ns := by
  obtain ⟨bucket, hget, hbucket⟩ := hl.bucket hns
  exact ⟨bucket, hl.findBucket_eq hget, hbucket⟩

/-- Any bucket can be put where the map keeps the nodes of a hash. -/
theorem Layout.putBucket_eq (hl : Layout h map nodes) (bucket : DArray (HashmapNode V))
    (hash : UInt32) :
    map.putBucket hash bucket = .ok { map with
      buckets := { map.buckets with
        contents := map.buckets.contents.set (bucketN hash) (some bucket) } } := by
  have hlt := bucketN_lt hash
  have hend := hl.end
  have hmax := hl.max
  have hlength := hl.length_contents
  -- the hash is below `end`, which stays as it is
  have hset : map.buckets.set (bucketN hash) (some bucket) = .ok
      { map.buckets with contents := map.buckets.contents.set (bucketN hash) (some bucket) } := by
    unfold DArray.set
    rw [if_pos (by omega), writeAt_eq (by omega), ok_bind, if_neg (by omega)]
    rfl
  unfold Hashmap.putBucket
  rw [hset]
  rfl

/-- It is found there. -/
theorem Layout.findBucket_put (hl : Layout h map nodes) (bucket : DArray (HashmapNode V)) :
    ∃ map', map.putBucket (h k) bucket = .ok map' ∧
      map'.findBucket k false = .ok (map', some bucket, h k) := by
  have hlt := bucketN_lt (h k)
  have hmax := hl.max
  have hlength := hl.length_contents
  refine ⟨_, hl.putBucket_eq bucket (h k), ?_⟩
  have hslot : readAt (map.buckets.contents.set (bucketN (h k)) (some bucket)) (bucketN (h k)) =
      .ok (some bucket) :=
    readAt_eq (List.getElem?_set_self (by omega))
  unfold Hashmap.findBucket DArray.get
  simp only []
  rw [hl.hash, if_pos (by omega), hslot, ok_bind, if_neg (by simp)]
  rfl

/-- A bucket with other nodes is put in its place. -/
theorem Layout.putBucket (hl : Layout h map nodes) {bucket : DArray (HashmapNode V)}
    (hb : bucket.Holds (ns.map some)) (hash : UInt32)
    (hplaced : ∀ n ∈ ns, n.hash = h n.key ∧ bucketN (h n.key) = bucketN hash) :
    ∃ map', map.putBucket hash bucket = .ok map' ∧
      Layout h map' (nodes.set (bucketN hash) ns) := by
  refine ⟨_, hl.putBucket_eq bucket hash, ⟨hl.compare, hl.hash, hl.end, hl.max, ?_, ?_, ?_⟩⟩
  · rw [List.length_set]
    exact hl.length
  · rw [List.forall₂_iff_get]
    refine ⟨by simp [hl.buckets.length_eq], fun i h1 h2 => ?_⟩
    rw [List.length_set] at h1 h2
    simp only [List.get_eq_getElem, List.getElem_set]
    split
    · exact hb
    · exact hl.buckets.get h1 h2
  · intro i ms hms
    rw [List.getElem?_set] at hms
    split at hms
    · next hi =>
      subst hi
      obtain rfl : ns = ms := by
        split at hms
        · exact Option.some.inj hms
        · cases hms
      exact hplaced
    · exact hl.placed i ms hms

/-- The bucket that `Hashmap_set` works on: it is there, or is made. -/
theorem Layout.findBucket_create (hl : Layout h map nodes)
    (hns : nodes[bucketN (h k)]? = some ns) :
    ∃ map' bucket, map.findBucket k true = .ok (map', some bucket, h k) ∧
      bucket.Holds (ns.map some) ∧ Layout h map' nodes ∧
      (map.findBucket k false = .ok (map, some bucket, h k) ∨
        map.findBucket k false = .ok (map, none, h k) ∧ bucket.end + 1 < bucket.max) := by
  obtain ⟨bucket, hget, hbucket⟩ := hl.bucket hns
  have hfalse := hl.findBucket_eq hget
  cases bucket with
  | some bucket =>
    refine ⟨map, bucket, ?_, hbucket, hl, Or.inl hfalse⟩
    unfold Hashmap.findBucket
    simp only []
    rw [hl.hash, hget, ok_bind, if_neg (by simp)]
    rfl
  | none =>
    obtain rfl : ns = [] := hbucket
    -- a bucket is made for the first key that belongs there
    have hnew : (DArray.create 50 : DArray (HashmapNode V)).Holds (List.map some []) :=
      DArray.holds_create (by decide) (by decide)
    obtain ⟨map', hput, hl'⟩ := hl.putBucket hnew (h k) (fun n hn => absurd hn List.not_mem_nil)
    refine ⟨map', DArray.create 50, ?_, hnew, ?_, Or.inr ⟨hfalse, show (0 : ℤ) + 1 < 50 by decide⟩⟩
    · unfold Hashmap.putBucket at hput
      obtain ⟨buckets, hset, hmap⟩ := bind_eq_ok.mp hput
      unfold Hashmap.findBucket
      simp only []
      rw [hl.hash, hget, ok_bind, if_pos (by simp), hset, ok_bind, ← Except.ok.inj hmap, hl.hash]
      rfl
    · obtain ⟨hlt, heq⟩ := List.getElem?_eq_some_iff.mp hns
      rwa [← heq, List.set_getElem_self] at hl'

/-! ## What a call does with the answer of the search

The operations search first, and what they do then depends on the answer alone. The lemmas here take the
answer as given, right or wrong. -/

theorem get_missing {bucket : DArray (HashmapNode V)} {hash : UInt32}
    (hfind : map.findBucket k false = .ok (map, some bucket, hash))
    (hloc : map.getNode hash bucket k 0 (bucket.end - 1) = .ok (-1)) : map.get k = .ok none := by
  unfold Hashmap.get
  rw [hfind, ok_bind]
  simp only []
  rw [hloc, ok_bind, if_pos rfl]
  rfl

theorem get_at {bucket : DArray (HashmapNode V)} {hash : UInt32} {i : ℕ} {n : HashmapNode V}
    (hfind : map.findBucket k false = .ok (map, some bucket, hash))
    (hloc : map.getNode hash bucket k 0 (bucket.end - 1) = .ok (i : ℤ))
    (hslot : bucket.get i = .ok (some n)) : map.get k = .ok n.data := by
  unfold Hashmap.get
  rw [hfind, ok_bind]
  simp only []
  rw [hloc, ok_bind, if_neg (by omega), hslot]
  rfl

section Junk

variable (junk : Junk (HashmapNode V)) {bucket : DArray (HashmapNode V)} {map₁ : Hashmap V}
  {hash : UInt32} {l r : List (HashmapNode V)} {n : HashmapNode V}

/-- The data of a node that is found are replaced. -/
theorem set_at (hfind : map.findBucket k true = .ok (map₁, some bucket, hash))
    (hb : bucket.Holds ((l ++ n :: r).map some))
    (hloc : map₁.getNode hash bucket k 0 (bucket.end - 1) = .ok (l.length : ℤ)) (data : Option V) :
    ∃ bucket' : DArray (HashmapNode V), bucket'.Holds ((l ++ { n with data } :: r).map some) ∧
      map.set junk k data = (do
        let map ← map₁.putBucket hash bucket'
        pure (map, 0)) := by
  have hslot : bucket.get l.length = .ok (some n) := hb.get (by simp)
  have hb' := hb.write l.length (some { n with data })
  rw [← List.map_set, List.set_append_right _ _ le_rfl, Nat.sub_self, List.set_cons_zero] at hb'
  refine ⟨_, hb', ?_⟩
  unfold Hashmap.set
  rw [hfind, ok_bind]
  simp only []
  rw [hloc, ok_bind, if_pos (by omega), hslot, ok_bind]
  simp only []
  rw [writeAt_eq (hb.lt_length (by simp))]
  rfl

/-- A node that is not found is pushed. -/
theorem set_missing (hfind : map.findBucket k true = .ok (map₁, some bucket, hash))
    (hloc : map₁.getNode hash bucket k 0 (bucket.end - 1) = .ok (-1)) (data : Option V) :
    map.set junk k data = (do
      let (_, bucket) ← bucket.pushSort (some junk) (some { key := k, data, hash }) compareNode
      let map ← map₁.putBucket hash bucket
      pure (map, 0)) := by
  unfold Hashmap.set
  rw [hfind, ok_bind]
  simp only []
  rw [hloc, ok_bind, if_neg (by omega)]

/-- Whether it could be pushed is not looked at. -/
theorem set_of_push {bucket' : DArray (HashmapNode V)} {map' : Hashmap V} {data : Option V} {rc : ℤ}
    (hset : map.set junk k data = (do
      let (_, bucket) ← bucket.pushSort (some junk) (some { key := k, data, hash }) compareNode
      let map ← map₁.putBucket hash bucket
      pure (map, 0)))
    (hpush : bucket.pushSort (some junk) (some ⟨k, data, hash⟩) compareNode = .ok (rc, bucket'))
    (hput : map₁.putBucket hash bucket' = .ok map') : map.set junk k data = .ok (map', 0) := by
  rw [hset, hpush, ok_bind]
  simp only []
  rw [hput]
  rfl

end Junk

/-- **Two neighbours in the wrong order**: one of them cannot be got. -/
theorem get_inverted {bucket : DArray (HashmapNode V)} {l r : List (HashmapNode V)}
    {z y : HashmapNode V} (hfind : ∀ n ∈ l ++ z :: y :: r,
      map.findBucket n.key false = .ok (map, some bucket, n.hash))
    (hb : bucket.Holds ((l ++ z :: y :: r).map some)) (hyz : map.compare y.key z.key < 0)
    (hzy : 0 < map.compare z.key y.key) (hdistinct : (l ++ z :: y :: r).Pairwise fun a b =>
      map.compare a.key b.key ≠ 0 ∧ map.compare b.key a.key ≠ 0) :
    ∃ n ∈ l ++ z :: y :: r, map.get n.key = .ok none := by
  -- no two nodes are equal, so that a hit could only be the node itself
  have hunique : ∀ (t : ℕ) (m : HashmapNode V), (l ++ z :: y :: r)[t]? = some m →
      ∀ j n, (l ++ z :: y :: r)[j]? = some n → map.compare n.key m.key = 0 → j = t := by
    intro t m hm j n hn heq
    obtain ⟨ht, rfl⟩ := List.getElem?_eq_some_iff.mp hm
    obtain ⟨hj, rfl⟩ := List.getElem?_eq_some_iff.mp hn
    have hpair := List.pairwise_iff_getElem.mp hdistinct
    rcases lt_trichotomy j t with hlt | rfl | hgt
    · exact absurd heq (hpair j t hj ht hlt).1
    · rfl
    · exact absurd heq (hpair t j ht hj hgt).2
  have hzi : (l ++ z :: y :: r)[l.length]? = some z := by simp
  have hyi : (l ++ z :: y :: r)[l.length + 1]? = some y := by
    rw [List.getElem?_append_right (by omega)]
    simp
  have hend : bucket.end = (l ++ z :: y :: r).length := by
    rw [hb.end, List.length_map]
  have hlong : l.length + 1 < (l ++ z :: y :: r).length := by simp
  have hmiss := getNode_inverted hb hzi hyi hyz hzy (hunique _ _ hzi) (hunique _ _ hyi) le_rfl
    (Nat.zero_le _) hlong
  rw [Nat.cast_zero, ← hend] at hmiss
  rcases hmiss with hmiss | hmiss
  · exact ⟨z, by simp, get_missing (hfind z (by simp)) hmiss⟩
  · exact ⟨y, by simp, get_missing (hfind y (by simp)) hmiss⟩

/-! ## The operations

With a bucket in order the answer is right, and each operation has one lemma for a key that has a node
and one for a key that has none. -/

/-- **The search for a key**, when equal keys have equal hashes. -/
theorem Layout.search (hl : Layout h map nodes) (hns : nodes[bucketN (h k)]? = some ns)
    (hh : ∀ a b, bstrcmp a b = 0 → h a = h b) (hs : Sorted ns) {bucket : DArray (HashmapNode V)}
    (hb : bucket.Holds (ns.map some)) :
    (∃ l n r, ns = l ++ n :: r ∧ bstrcmp n.key k = 0 ∧
      map.getNode (h k) bucket k 0 (bucket.end - 1) = .ok (l.length : ℤ)) ∨
    ((∀ n ∈ ns, bstrcmp n.key k ≠ 0) ∧
      map.getNode (h k) bucket k 0 (bucket.end - 1) = .ok (-1)) := by
  have hend : bucket.end = ns.length := by
    rw [hb.end, List.length_map]
  rw [hend]
  by_cases hex : ∃ n ∈ ns, bstrcmp n.key k = 0
  · obtain ⟨n, hn, hk⟩ := hex
    obtain ⟨l, r, rfl⟩ := List.append_of_mem hn
    have hhash : n.hash = h k := by
      rw [(hl.placed _ _ hns n hn).1]
      exact hh n.key k hk
    have hmiddle : (l ++ n :: r)[l.length]? = some n := by simp
    have hlt : l.length < (l ++ n :: r).length := by simp
    exact Or.inl ⟨l, n, r, rfl, hk, getNode_found hb hl.compare hs hmiddle hk hhash le_rfl
      (Nat.zero_le _) hlt⟩
  · have hnone : ∀ n ∈ ns, bstrcmp n.key k ≠ 0 := fun n hn hk => hex ⟨n, hn, hk⟩
    refine Or.inr ⟨hnone, getNode_none hb le_rfl fun i n _ _ hn => ?_⟩
    rw [hl.compare]
    exact hnone n (List.mem_of_getElem? hn)

/-- **`Hashmap_get`** of a key that has a node, and of one that has none. -/
theorem get_eq (hl : Layout h map nodes) (hns : nodes[bucketN (h k)]? = some ns)
    (hh : ∀ a b, bstrcmp a b = 0 → h a = h b) (hs : Sorted ns) :
    map.get k = .ok ((withKey ns k).map (·.data)).head?.join := by
  obtain ⟨bucket, hfind, hbucket⟩ := hl.findBucket hns
  cases bucket with
  | none =>
    obtain rfl : ns = [] := hbucket
    unfold Hashmap.get
    rw [hfind]
    rfl
  | some bucket =>
    rcases hl.search hns hh hs hbucket with ⟨l, n, r, rfl, hk, hget⟩ | ⟨hnone, hget⟩
    · have hslot : bucket.get l.length = .ok (some n) := hbucket.get (by simp)
      rw [get_at hfind hget hslot, hs.withKey_middle hk]
      rfl
    · rw [get_missing hfind hget, withKey_eq_nil.mpr hnone]
      rfl

variable (junk : Junk (HashmapNode V))

/-- **`Hashmap_set` of a key that has a node** replaces its data. -/
theorem set_found {l r : List (HashmapNode V)} {n : HashmapNode V} (hl : Layout h map nodes)
    (hns : nodes[bucketN (h k)]? = some (l ++ n :: r)) (hh : ∀ a b, bstrcmp a b = 0 → h a = h b)
    (hs : Sorted (l ++ n :: r)) (hk : bstrcmp n.key k = 0) (data : Option V) :
    ∃ map', map.set junk k data = .ok (map', 0) ∧
      Layout h map' (nodes.set (bucketN (h k)) (l ++ { n with data } :: r)) := by
  obtain ⟨map₁, bucket, hfind, hb, hl₁, -⟩ := hl.findBucket_create hns
  have hloc : map₁.getNode (h k) bucket k 0 (bucket.end - 1) = .ok (l.length : ℤ) := by
    have hhash : n.hash = h k := by
      rw [(hl.placed _ _ hns n (by simp)).1]
      exact hh n.key k hk
    rw [hb.end, List.length_map]
    exact getNode_found hb hl₁.compare hs (by simp) hk hhash le_rfl (Nat.zero_le _) (by simp)
  have hplaced : ∀ m ∈ l ++ { n with data } :: r,
      m.hash = h m.key ∧ bucketN (h m.key) = bucketN (h k) := by
    obtain ⟨hn, hrest⟩ := forall_middle.mp (hl.placed _ _ hns)
    exact forall_middle.mpr ⟨hn, hrest⟩
  obtain ⟨bucket', hb', hset⟩ := set_at junk hfind hb hloc data
  obtain ⟨map', hput, hl'⟩ := hl₁.putBucket hb' (h k) hplaced
  refine ⟨map', ?_, hl'⟩
  rw [hset, hput]
  rfl

/-- A bucket can take another node: there is a free slot behind it, or the bucket can grow. -/
def RoomIn (bucket : DArray (HashmapNode V)) : Prop :=
  bucket.end + 1 < bucket.max ∨ bucket.max + DEFAULT_EXPAND_RATE ≤ INT_MAX

/-- There is room exactly where a push that asks for a block gets it. -/
theorem roomIn_iff {bucket : DArray (HashmapNode V)} (hb : bucket.Holds (ns.map some)) :
    RoomIn bucket ↔ bucket.Allocates (some junk) := by
  rw [DArray.allocates_iff hb]
  exact or_congr_right (and_iff_left ⟨junk, rfl⟩).symm

/-- **A node comes before those that it is not above**, by `bstrcmp`, at the end of a bucket. -/
theorem pushNode_eq {bucket : DArray (HashmapNode V)} (hb : bucket.Holds (ns.map some))
    (hroom : RoomIn bucket) (n : HashmapNode V) :
    ∃ bucket' l r, bucket.pushSort (some junk) (some n) compareNode = .ok (0, bucket') ∧ ns = l ++ r ∧
      (∀ m ∈ r, bstrcmp n.key m.key ≤ 0) ∧
      (∀ m, l.getLast? = some m → 0 < bstrcmp n.key m.key) ∧
      bucket'.Holds ((l ++ n :: r).map some) := by
  let above : Option (HashmapNode V) → ℤ := fun y => (y.map fun m => bstrcmp n.key m.key).getD 0
  have hcmp : ∀ y ∈ ns.map some, compareNode (some n) y = .ok (above y) := by
    intro y hy
    obtain ⟨m, -, rfl⟩ := List.mem_map.mp hy
    rfl
  obtain ⟨bucket', l', r', hpush, hsplit, hr, hlast, hb'⟩ :=
    DArray.pushSort_eq hb hcmp ((roomIn_iff junk hb).mp hroom)
  obtain ⟨l, r, rfl, rfl, rfl⟩ := List.map_eq_append_iff.mp hsplit
  rw [← List.map_cons, ← List.map_append] at hb'
  refine ⟨bucket', l, r, hpush, rfl, ?_, ?_, hb'⟩
  · intro m hm
    exact hr (some m) (List.mem_map_of_mem hm)
  · intro m hm
    apply hlast (some m)
    rw [List.getLast?_map, hm]
    rfl

/-- Without room the node stays at the end, and `max` is negative. -/
theorem pushNode_full {bucket : DArray (HashmapNode V)} (hb : bucket.Holds (ns.map some))
    (hroom : ¬ RoomIn bucket) (n : HashmapNode V) :
    ∃ bucket', bucket.pushSort (some junk) (some n) compareNode = .ok (-1, bucket') ∧
      bucket'.max < 0 ∧ 0 < bucket'.end := by
  unfold RoomIn at hroom
  rw [not_or, not_lt, not_le] at hroom
  obtain ⟨hfull, hbig⟩ := hroom
  have hneg := DArray.toInt_expanded_neg hb.max hbig
  refine ⟨_, DArray.pushSort_full hb (some n) hfull (DArray.given_of_neg _ hneg), hneg, ?_⟩
  show 0 < bucket.end + 1
  have hend := hb.end
  omega

/-- The bucket of a key can take another node. -/
def RoomFor (map : Hashmap V) (k : List CChar) : Prop :=
  ∀ bucket hash, map.findBucket k false = .ok (map, some bucket, hash) → RoomIn bucket

/-- What `RoomFor` says of the bucket that `Hashmap_set` works on. A new one has room. -/
theorem roomFor_iff {bucket : DArray (HashmapNode V)} {hash : UInt32}
    (hsame : map.findBucket k false = .ok (map, some bucket, hash) ∨
      map.findBucket k false = .ok (map, none, hash) ∧ bucket.end + 1 < bucket.max) :
    map.RoomFor k ↔ RoomIn bucket := by
  constructor
  · intro hroom
    rcases hsame with hsame | ⟨-, hfree⟩
    · exact hroom bucket hash hsame
    · exact Or.inl hfree
  · intro hroom bucket' hash' hfind
    rcases hsame with hsame | ⟨hsame, -⟩
    · obtain ⟨rfl, -⟩ : bucket = bucket' ∧ hash = hash' := by
        simpa using Except.ok.inj (hsame.symm.trans hfind)
      exact hroom
    · cases hsame.symm.trans hfind

/-- A node between the smaller and the larger ones. -/
theorem Sorted.insert {l r : List (HashmapNode V)} {n : HashmapNode V} (hs : Sorted (l ++ r))
    (hr : ∀ m ∈ r, bstrcmp n.key m.key < 0)
    (hl : ∀ m, l.getLast? = some m → 0 < bstrcmp n.key m.key) : Sorted (l ++ n :: r) := by
  obtain ⟨hsl, hsr, hlr⟩ := List.pairwise_append.mp hs
  have hln : ∀ m ∈ l, upToNul m.key < upToNul n.key := by
    intro m hm
    rcases List.eq_nil_or_concat l with rfl | ⟨l', last, rfl⟩
    · cases hm
    · rw [List.concat_eq_append] at *
      have hlast : upToNul last.key < upToNul n.key := bstrcmp_gt.mp (hl last (by simp))
      rcases List.mem_append.mp hm with hm | hm
      · exact ((List.pairwise_append.mp hsl).2.2 m hm last (by simp)).trans hlast
      · rw [List.mem_singleton.mp hm]
        exact hlast
  refine List.pairwise_append.mpr ⟨hsl, List.pairwise_cons.mpr ⟨fun m hm => ?_, hsr⟩, ?_⟩
  · exact bstrcmp_lt.mp (hr m hm)
  · intro a ha b hb
    rcases List.mem_cons.mp hb with rfl | hb
    · exact hln a ha
    · exact hlr a ha b hb

/-- `Hashmap_set` of a key without a node, up to the push. -/
theorem set_push (hl : Layout h map nodes) (hns : nodes[bucketN (h k)]? = some ns)
    (hnone : ∀ n ∈ ns, bstrcmp n.key k ≠ 0) (data : Option V) :
    ∃ map₁ bucket, Layout h map₁ nodes ∧ bucket.Holds (ns.map some) ∧
      (map.findBucket k false = .ok (map, some bucket, h k) ∨
        map.findBucket k false = .ok (map, none, h k) ∧ bucket.end + 1 < bucket.max) ∧
      map.set junk k data = (do
        let (_, bucket) ← bucket.pushSort (some junk) (some { key := k, data, hash := h k })
          compareNode
        let map ← map₁.putBucket (h k) bucket
        pure (map, 0)) := by
  obtain ⟨map₁, bucket, hfind, hb, hl₁, hsame⟩ := hl.findBucket_create hns
  have hloc : map₁.getNode (h k) bucket k 0 (bucket.end - 1) = .ok (-1) := by
    rw [hb.end, List.length_map]
    refine getNode_none hb le_rfl fun i n _ _ hn => ?_
    rw [hl₁.compare]
    exact hnone n (List.mem_of_getElem? hn)
  exact ⟨map₁, bucket, hl₁, hb, hsame, set_missing junk hfind hloc data⟩

/-- **`Hashmap_set` of a new key** puts a node where it belongs in the order of the keys. -/
theorem set_new (hl : Layout h map nodes) (hns : nodes[bucketN (h k)]? = some ns)
    (hs : Sorted ns) (hnone : ∀ n ∈ ns, bstrcmp n.key k ≠ 0) (hroom : map.RoomFor k)
    (data : Option V) :
    ∃ map' l r, map.set junk k data = .ok (map', 0) ∧ ns = l ++ r ∧
      Layout h map' (nodes.set (bucketN (h k)) (l ++ ⟨k, data, h k⟩ :: r)) ∧
      Sorted (l ++ ⟨k, data, h k⟩ :: r) := by
  obtain ⟨map₁, bucket, hl₁, hb, hsame, hset⟩ := set_push junk hl hns hnone data
  obtain ⟨bucket', l, r, hpush, rfl, hr, hlast, hb'⟩ :=
    pushNode_eq junk hb ((roomFor_iff hsame).mp hroom) ⟨k, data, h k⟩
  -- the key is new, so that the nodes that are not below it are above it
  have hbelow : ∀ m ∈ r, bstrcmp k m.key < 0 := by
    intro m hm
    have hle : bstrcmp k m.key ≤ 0 := hr m hm
    have hne := hnone m (by simp [hm])
    rw [bstrcmp_neg k m.key] at hne
    omega
  have hplaced : ∀ m ∈ l ++ ⟨k, data, h k⟩ :: r,
      m.hash = h m.key ∧ bucketN (h m.key) = bucketN (h k) :=
    forall_middle.mpr ⟨⟨rfl, rfl⟩, hl.placed _ _ hns⟩
  obtain ⟨map', hput, hl'⟩ := hl₁.putBucket hb' (h k) hplaced
  exact ⟨map', l, r, set_of_push junk hset hpush hput, rfl, hl', hs.insert hbelow hlast⟩

/-- `DArray_get` gives NULL for every node of a bucket that could not grow, and the search reads it. -/
theorem get_spent {bucket : DArray (HashmapNode V)} {hash : UInt32}
    (hfind : map.findBucket k false = .ok (map, some bucket, hash)) (hmax : bucket.max < 0)
    (hend : 0 < bucket.end) : map.get k = .error .nullDeref := by
  have hslot : bucket.get (0 + (bucket.end - 1 - 0) / 2) = .ok none := by
    unfold DArray.get
    rw [if_neg (by omega)]
    rfl
  have hsearch : map.getNode hash bucket k 0 (bucket.end - 1) = .error .nullDeref := by
    rw [getNode, if_pos (by omega)]
    simp only [hslot, ok_bind]
    rfl
  unfold Hashmap.get
  rw [hfind, ok_bind]
  simp only []
  rw [hsearch]
  rfl

/-- **`Hashmap_set` of a new key in a bucket that cannot grow** returns 0, and the key cannot be got. -/
theorem set_spent {map₁ : Hashmap V} {bucket : DArray (HashmapNode V)} {hash : UInt32}
    {data : Option V} (hb : bucket.Holds (ns.map some)) (hroom : ¬ RoomIn bucket)
    (hput : ∀ bucket', ∃ map', map₁.putBucket hash bucket' = .ok map' ∧
      map'.findBucket k false = .ok (map', some bucket', hash))
    (hset : map.set junk k data = (do
      let (_, bucket) ← bucket.pushSort (some junk) (some { key := k, data, hash }) compareNode
      let map ← map₁.putBucket hash bucket
      pure (map, 0))) :
    ∃ map', map.set junk k data = .ok (map', 0) ∧ map'.get k = .error .nullDeref := by
  obtain ⟨bucket', hpush, hmax, hend⟩ := pushNode_full junk hb hroom ⟨k, data, hash⟩
  obtain ⟨map', hmap, hfind⟩ := hput bucket'
  exact ⟨map', set_of_push junk hset hpush hmap, get_spent hfind hmax hend⟩

theorem set_full (hl : Layout h map nodes) (hns : nodes[bucketN (h k)]? = some ns)
    (hnone : ∀ n ∈ ns, bstrcmp n.key k ≠ 0) (hroom : ¬ map.RoomFor k) (data : Option V) :
    ∃ map', map.set junk k data = .ok (map', 0) ∧ map'.get k = .error .nullDeref := by
  obtain ⟨map₁, bucket, hl₁, hb, hsame, hset⟩ := set_push junk hl hns hnone data
  exact set_spent junk hb (mt (roomFor_iff hsame).mpr hroom) hl₁.findBucket_put hset

/-- What a deletion leaves of the nodes behind the deleted one: the last of them is put first. -/
def rotated (r : List (HashmapNode V)) : List (HashmapNode V) :=
  r.getLast?.toList ++ r.dropLast

theorem rotated_perm (r : List (HashmapNode V)) : (rotated r).Perm r := by
  rcases List.eq_nil_or_concat r with rfl | ⟨r', z, rfl⟩
  · exact List.Perm.refl _
  · rw [List.concat_eq_append, rotated, List.getLast?_concat, List.dropLast_concat]
    exact List.perm_append_comm

theorem rotated_short {r : List (HashmapNode V)} (h : r.length ≤ 1) : rotated r = r := by
  cases r with
  | nil => rfl
  | cons n r =>
    obtain rfl : r = [] := List.eq_nil_of_length_eq_zero (by simpa using h)
    rfl

/-- The bucket after the pop and the move of what was popped: the last node takes the place of the
one that goes, unless it is that one. -/
theorem move_last {bucket : DArray (HashmapNode V)} {l r : List (HashmapNode V)} {n : HashmapNode V}
    (hb : bucket.Holds ((l ++ n :: r).map some)) :
    ∃ ending popped moved, bucket.pop (some junk) = .ok (ending, popped) ∧
      (if (l.length : ℤ) ≠ bucket.end - 1 then popped.set l.length ending else pure popped) =
        .ok moved ∧ moved.Holds ((l ++ rotated r).map some) := by
  have hend : bucket.end = l.length + (r.length + 1) := by
    rw [hb.end]
    simp
  -- the node is the last one itself, or the last one takes its place
  rcases List.eq_nil_or_concat r with rfl | ⟨r', z, rfl⟩
  · rw [List.map_append, List.map_singleton] at hb
    obtain ⟨popped, hpop, hb'⟩ := DArray.pop_eq junk hb
    refine ⟨some n, popped, popped, hpop, if_neg ?_, ?_⟩
    · rw [hend]
      simp
    · simpa [rotated] using hb'
  · rw [List.concat_eq_append] at *
    rw [← List.cons_append, ← List.append_assoc, List.map_append, List.map_singleton] at hb
    obtain ⟨popped, hpop, hb'⟩ := DArray.pop_eq junk hb
    obtain ⟨moved, hset, hb''⟩ := DArray.set_eq hb' (i := l.length) (by simp) (some z)
    refine ⟨some z, popped, moved, hpop, ?_, ?_⟩
    · rw [if_pos, hset]
      rw [hend, List.length_append, List.length_singleton]
      omega
    · rw [rotated, List.getLast?_concat, List.dropLast_concat]
      simpa [List.set_append] using hb''

/-- **`Hashmap_delete` of a key that has a node.** -/
theorem delete_found {l r : List (HashmapNode V)} {n : HashmapNode V} (hl : Layout h map nodes)
    (hns : nodes[bucketN (h k)]? = some (l ++ n :: r)) (hh : ∀ a b, bstrcmp a b = 0 → h a = h b)
    (hs : Sorted (l ++ n :: r)) (hk : bstrcmp n.key k = 0) :
    ∃ map', map.delete junk k = .ok (map', n.data) ∧
      Layout h map' (nodes.set (bucketN (h k)) (l ++ rotated r)) := by
  obtain ⟨bucket, hfind, hbucket⟩ := hl.findBucket hns
  cases bucket with
  | none => exact absurd hbucket (by simp [BucketHolds])
  | some bucket =>
    have hb : bucket.Holds ((l ++ n :: r).map some) := hbucket
    have hloc : map.getNode (h k) bucket k 0 (bucket.end - 1) = .ok (l.length : ℤ) := by
      have hhash : n.hash = h k := by
        rw [(hl.placed _ _ hns n (by simp)).1]
        exact hh n.key k hk
      rw [hb.end, List.length_map]
      exact getNode_found hb hl.compare hs (by simp) hk hhash le_rfl (Nat.zero_le _) (by simp)
    have hslot : bucket.get l.length = .ok (some n) := hb.get (by simp)
    -- the last node takes the free place, in the same bucket
    have hplaced : ∀ m ∈ l ++ rotated r, m.hash = h m.key ∧ bucketN (h m.key) = bucketN (h k) := by
      intro m hm
      apply hl.placed _ _ hns m
      rcases List.mem_append.mp hm with hm | hm
      · simp [hm]
      · simp [(rotated_perm r).mem_iff.mp hm]
    obtain ⟨ending, popped, moved, hpop, hmove, hb'⟩ := move_last junk hb
    obtain ⟨map', hput, hl'⟩ := hl.putBucket hb' (h k) hplaced
    refine ⟨map', ?_, hl'⟩
    unfold Hashmap.delete
    rw [hfind, ok_bind]
    simp only []
    rw [hloc, ok_bind, if_neg (by omega), hslot, ok_bind]
    simp only []
    rw [hpop, ok_bind]
    simp only []
    -- a last node that is the deleted one is not moved
    split at hmove
    · next hne =>
      rw [if_pos hne, hmove, ok_bind, hput]
      rfl
    · next heq =>
      rw [if_neg heq, hmove, ok_bind, hput]
      rfl

/-- `Hashmap_delete` of a key that has no node. -/
theorem delete_none (hl : Layout h map nodes) (hns : nodes[bucketN (h k)]? = some ns)
    (hnone : ∀ n ∈ ns, bstrcmp n.key k ≠ 0) : map.delete junk k = .ok (map, none) := by
  obtain ⟨bucket, hfind, hbucket⟩ := hl.findBucket hns
  unfold Hashmap.delete
  rw [hfind, ok_bind]
  cases bucket with
  | none => rfl
  | some bucket =>
    have hb : bucket.Holds (ns.map some) := hbucket
    have hloc : map.getNode (h k) bucket k 0 (bucket.end - 1) = .ok (-1) := by
      rw [hb.end, List.length_map]
      refine getNode_none hb le_rfl fun i n _ _ hn => ?_
      rw [hl.compare]
      exact hnone n (List.mem_of_getElem? hn)
    simp only []
    rw [hloc, ok_bind, if_pos rfl]
    rfl

/-! ## Traversal

The two loops call the callback for every node, bucket by bucket, as long as it returns 0. -/

section Traverse

variable {σ : Type} {traverse_cb : σ → Option (HashmapNode V) → ℤ × σ}

/-- The callback has been called with these nodes. -/
def called (traverse_cb : σ → Option (HashmapNode V) → ℤ × σ) (ns : List (HashmapNode V)) (s : σ) :
    σ :=
  ns.foldl (fun s n => (traverse_cb s (some n)).2) s

/-- The inner loop calls for the nodes of its bucket. -/
theorem traverseBucket_eq (hcb : ∀ s n, (traverse_cb s n).1 = 0) {bucket : DArray (HashmapNode V)}
    (hb : bucket.Holds (ns.map some)) {j : ℕ} (hj : j ≤ ns.length) (s : σ) :
    traverseBucket traverse_cb bucket j s = .ok (0, called traverse_cb (ns.drop j) s) := by
  have hend : bucket.end = ns.length := by
    rw [hb.end, List.length_map]
  induction hd : ns.length - j generalizing j s with
  | zero =>
    rw [traverseBucket, if_neg (by omega), List.drop_of_length_le (by omega)]
    rfl
  | succ d ih =>
    have hlt : j < ns.length := by omega
    have hget : bucket.get j = .ok (some ns[j]) := hb.get (by simp [hlt])
    rw [traverseBucket, if_pos (by omega), hget, ok_bind, List.drop_eq_getElem_cons hlt]
    simp only []
    rw [if_neg (by rw [hcb]; simp)]
    exact ih (j := j + 1) (by omega) _ (by omega)

/-- The outer loop goes on to the next bucket. -/
theorem traverseBuckets_eq (hl : Layout h map nodes) (hcb : ∀ s n, (traverse_cb s n).1 = 0) {i : ℕ}
    (hi : i ≤ nodes.length) (s : σ) :
    traverseBuckets traverse_cb map.buckets i s =
      .ok (0, called traverse_cb (nodes.drop i).flatten s) := by
  have hend : map.buckets.end = nodes.length := by
    rw [hl.end, hl.length]
  induction hd : nodes.length - i generalizing i s with
  | zero =>
    rw [traverseBuckets, if_neg (by omega), List.drop_of_length_le (by omega)]
    rfl
  | succ d ih =>
    have hlt : i < nodes.length := by omega
    obtain ⟨bucket, hget, hbucket⟩ := hl.bucket (List.getElem?_eq_getElem hlt)
    rw [traverseBuckets, if_pos (by omega), hget, ok_bind, List.drop_eq_getElem_cons hlt,
      List.flatten_cons]
    have hcast : (i : ℤ) + 1 = (i + 1 : ℕ) := by push_cast; rfl
    -- buckets that were never made are passed over
    cases bucket with
    | none =>
      have hnil : nodes[i] = [] := hbucket
      simp only []
      rw [hcast, ih (by omega) s (by omega), hnil, List.nil_append]
    | some bucket =>
      have htraverse := traverseBucket_eq hcb hbucket (Nat.zero_le _) s
      rw [Nat.cast_zero, List.drop_zero] at htraverse
      simp only []
      rw [htraverse, ok_bind]
      simp only []
      rw [if_neg (by simp), hcast, ih (by omega) _ (by omega), called, called, called,
        List.foldl_append]

/-- **`Hashmap_traverse`** calls the callback with the nodes of one bucket after the other. -/
theorem traverse_eq (hl : Layout h map nodes) (hcb : ∀ s n, (traverse_cb s n).1 = 0) (s : σ) :
    map.traverse traverse_cb s = .ok (0, called traverse_cb nodes.flatten s) :=
  traverseBuckets_eq hl hcb (Nat.zero_le _) s

end Traverse

end Layout

end Lcthw.Hashmap
