import Lcthw.Comparator
import Lcthw.Hashmap.Finite

/-!
# Lcthw — the hash map with any comparator

`Hashmap_get_node` searches a bucket by the comparison the map was created with. `Hashmap_set` puts
a new node where `bstrcmp` wants it: `compare_node` calls `default_compare`.

* **`Ranked`**: the keys of a bucket are in strict order by the comparison of the map.
* **`Fits`**: `bstrcmp` puts a key where that comparison does. It is exactly when an insertion keeps
  the bucket ranked (`ranked_insert_iff`).
* **`answers_of_settles`**: in a run of `Hashmap_set` whose new keys fit, `Hashmap_get` answers like
  the latest calls. When no data are null it does so for no longer than that.
-/

namespace Lcthw.Hashmap

open DArray (Junk)

variable {V : Type}

/-! ## Calls

The calls of this module are those of `Hashmap_set` alone, on a map with a comparator `cmp`. A key that
is set gets a node only if no stored key compares equal by `cmp`, and then `bstrcmp` chooses its place. -/

def beginWith (cmp : Comparator (List CChar)) (h : List CChar → UInt32) : Shadowed V :=
  { map := create (some cmp.compare) (some h), bound := fun _ => none }

/-- The latest `set` of a key that compares as equal. -/
def rebind (cmp : Comparator (List CChar)) (bound : Bindings V) (e : List CChar × Option V) :
    Bindings V :=
  fun k => if cmp.compare k e.1 = 0 then some e.2 else bound k

def setStep (junk : Junk (HashmapNode V)) (cmp : Comparator (List CChar)) (s : Shadowed V)
    (e : List CChar × Option V) : Except Fault (Shadowed V) := do
  let (map, _) ← s.map.set junk e.1 e.2
  pure { map, bound := rebind cmp s.bound e }

/-- `Hashmap_get` returns what a key is bound to, and NULL for a key that is not bound. -/
def Answers (s : Shadowed V) : Prop :=
  ∀ k, s.map.get k = .ok (s.bound k).join

/-- A node in the bucket of `k` has the key `a`. -/
def Stored (map : Hashmap V) (k a : List CChar) : Prop :=
  ∃ bucket hash, ∃ i : ℕ, ∃ n, map.findBucket k false = .ok (map, some bucket, hash) ∧
    i < bucket.end ∧ bucket.get i = .ok (some n) ∧ n.key = a

/-- `bstrcmp` does not put `k` behind a key that is above it by `cmp`, and puts it behind the greatest
of the keys that are below it by `cmp`. -/
def Fits (cmp : Comparator (List CChar)) (k : List CChar) (stored : List CChar → Prop) : Prop :=
  (∀ a, stored a → 0 < cmp.compare a k → bstrcmp k a ≤ 0) ∧
    ∀ a, stored a → cmp.compare a k < 0 →
      (∀ b, stored b → cmp.compare b k < 0 → cmp.compare b a ≤ 0) → 0 < bstrcmp k a

/-- A new key comes only into a bucket that can take it, and where it belongs. -/
def Settles (cmp : Comparator (List CChar)) (s : Shadowed V) (e : List CChar × Option V) : Prop :=
  s.bound e.1 = none → s.map.RoomFor e.1 ∧ Fits cmp e.1 (Stored s.map e.1)

/-! ## Buckets

A search by `cmp` needs its bucket to be in order by `cmp`. An insertion by `bstrcmp` keeps that if it
puts the key between those below and those above it, and otherwise makes two neighbours that are in the
wrong order. -/

/-- The keys are in strict order by a comparison. -/
def Ranked (cmp : Comparator (List CChar)) (ns : List (HashmapNode V)) : Prop :=
  ns.Pairwise fun a b => cmp.compare a.key b.key < 0

section Ranked

variable {cmp : Comparator (List CChar)} {l r ns : List (HashmapNode V)} {n m : HashmapNode V}
  {k : List CChar}

theorem Ranked.lt (hs : Ranked cmp ns) {i j : ℕ} {a b : HashmapNode V} (hij : i < j)
    (ha : ns[i]? = some a) (hb : ns[j]? = some b) : cmp.compare a.key b.key < 0 := by
  obtain ⟨hi, rfl⟩ := List.getElem?_eq_some_iff.mp ha
  obtain ⟨hj, rfl⟩ := List.getElem?_eq_some_iff.mp hb
  exact List.pairwise_iff_getElem.mp hs i j hi hj hij

theorem exists_last (hm : m ∈ l) : ∃ z, l.getLast? = some z :=
  ⟨_, List.getLast?_eq_some_getLast (List.ne_nil_of_mem hm)⟩

/-- The last of the nodes is above the other ones. -/
theorem Ranked.le_last (hs : Ranked cmp l) (hn : l.getLast? = some n) (hm : m ∈ l) :
    cmp.compare m.key n.key ≤ 0 := by
  obtain ⟨l', rfl⟩ := List.getLast?_eq_some_iff.mp hn
  rcases List.mem_append.mp hm with hm | hm
  · exact ((List.pairwise_append.mp hs).2.2 m hm n List.mem_cons_self).le
  · obtain rfl := List.mem_singleton.mp hm
    exact (cmp.self m.key).le

/-- A node between one that is below it and one that is above it. -/
theorem Ranked.insert (hs : Ranked cmp (l ++ r))
    (hl : ∀ m, l.getLast? = some m → cmp.compare m.key n.key < 0)
    (hr : ∀ m, r.head? = some m → cmp.compare n.key m.key < 0) : Ranked cmp (l ++ n :: r) := by
  obtain ⟨hsl, hsr, hlr⟩ := List.pairwise_append.mp hs
  have hbelow : ∀ m ∈ l, cmp.compare m.key n.key < 0 := by
    intro m hm
    obtain ⟨z, hz⟩ := exists_last hm
    exact cmp.lt_of_le_of_lt (Ranked.le_last hsl hz hm) (hl z hz)
  have habove : ∀ m ∈ r, cmp.compare n.key m.key < 0 := by
    intro m hm
    cases r with
    | nil => cases hm
    | cons y r =>
      have hy := hr y rfl
      rcases List.mem_cons.mp hm with rfl | hm
      · exact hy
      · exact cmp.lt_of_lt_of_le hy (List.rel_of_pairwise_cons hsr hm).le
  refine List.pairwise_append.mpr ⟨hsl, List.pairwise_cons.mpr ⟨habove, hsr⟩, ?_⟩
  intro a ha b hb
  rcases List.mem_cons.mp hb with rfl | hb
  · exact hbelow a ha
  · exact hlr a ha b hb

/-- **An insertion that breaks the order** makes neighbours of two nodes in the wrong order. -/
theorem exists_inverted (hs : Ranked cmp (l ++ r)) (hnone : ∀ m ∈ l ++ r, cmp.compare m.key n.key ≠ 0)
    (hnot : ¬ Ranked cmp (l ++ n :: r)) :
    ∃ l' z y r', l ++ n :: r = l' ++ z :: y :: r' ∧ cmp.compare y.key z.key < 0 := by
  by_contra hall
  push Not at hall
  refine hnot (hs.insert ?_ ?_)
  · intro z hz
    obtain ⟨l', rfl⟩ := List.getLast?_eq_some_iff.mp hz
    have hle := hall l' z n r (by simp)
    have hne := hnone z (by simp)
    have hge := cmp.le_iff_ge.mpr hle
    omega
  · intro y hy
    obtain ⟨r', rfl⟩ := List.head?_eq_some_iff.mp hy
    have hle := hall l n y r' rfl
    have hne := mt cmp.eq_comm.mp (hnone y (by simp))
    have hge := cmp.le_iff_ge.mpr hle
    omega

/-- The greatest of the nodes below a key. -/
theorem Ranked.exists_greatest (hs : Ranked cmp ns) (hm : m ∈ ns) (hmk : cmp.compare m.key k < 0) :
    ∃ a ∈ ns, cmp.compare a.key k < 0 ∧ cmp.compare m.key a.key ≤ 0 ∧
      ∀ b ∈ ns, cmp.compare b.key k < 0 → cmp.compare b.key a.key ≤ 0 := by
  have hbelow : m ∈ ns.filter fun a => decide (cmp.compare a.key k < 0) := by
    simp [hm, hmk]
  obtain ⟨a, ha⟩ := exists_last hbelow
  have hsorted : Ranked cmp (ns.filter fun a => decide (cmp.compare a.key k < 0)) := hs.filter _
  have hmem := List.mem_filter.mp (List.mem_of_getLast? ha)
  refine ⟨a, hmem.1, by simpa using hmem.2, hsorted.le_last ha hbelow, ?_⟩
  intro b hb hbk
  exact hsorted.le_last ha (by simp [hb, hbk])

/-- **A sorted push keeps a bucket ranked exactly when the new key fits.** -/
theorem ranked_insert_iff (hs : Ranked cmp (l ++ r))
    (hnone : ∀ m ∈ l ++ r, cmp.compare m.key n.key ≠ 0) (hr : ∀ m ∈ r, bstrcmp n.key m.key ≤ 0)
    (hl : ∀ m, l.getLast? = some m → 0 < bstrcmp n.key m.key) :
    Ranked cmp (l ++ n :: r) ↔ Fits cmp n.key fun a => ∃ m ∈ l ++ r, m.key = a := by
  obtain ⟨hsl, hsr, hlr⟩ := List.pairwise_append.mp hs
  constructor
  · intro hranked
    obtain ⟨-, hnr, hln⟩ := List.pairwise_append.mp hranked
    constructor
    · rintro a ⟨m, hm, rfl⟩ habove
      rcases List.mem_append.mp hm with hm | hm
      · have hlt := hln m hm n List.mem_cons_self
        omega
      · exact hr m hm
    · rintro a ⟨m, hm, rfl⟩ hbelow hgreatest
      rcases List.mem_append.mp hm with hm | hm
      · -- the greatest of the smaller keys is the last one before the new one
        obtain ⟨z, hz⟩ := exists_last hm
        have hzl : z ∈ l := List.mem_of_getLast? hz
        have hzm := hgreatest z.key ⟨z, List.mem_append_left r hzl, rfl⟩
          (hln z hzl n List.mem_cons_self)
        have hmz : m = z := by
          obtain ⟨l', rfl⟩ := List.getLast?_eq_some_iff.mp hz
          rcases List.mem_append.mp hm with hm | hm
          · have hlt := (List.pairwise_append.mp hsl).2.2 m hm z List.mem_cons_self
            have := cmp.le_iff_ge.mp hzm
            omega
          · exact List.mem_singleton.mp hm
        rw [hmz]
        exact hl z hz
      · have hgt := (cmp.lt_iff_gt _ _).mp (List.rel_of_pairwise_cons hnr hm)
        omega
  · rintro ⟨habove, hbelow⟩
    apply hs.insert
    · intro z hz
      have hzl : z ∈ l := List.mem_of_getLast? hz
      have hne := hnone z (List.mem_append_left r hzl)
      have hzk := habove z.key ⟨z, List.mem_append_left r hzl, rfl⟩
      have := hl z hz
      omega
    · intro y hy
      have hyr : y ∈ r := List.mem_of_head? hy
      by_contra hge
      have hlt : cmp.compare y.key n.key < 0 := by
        have hne := hnone y (List.mem_append_right l hyr)
        have := cmp.le_iff_ge (a := y.key) (b := n.key)
        omega
      -- then the greatest of the smaller keys would come behind the new one
      obtain ⟨a, ha, hak, hya, hgreatest⟩ :=
        hs.exists_greatest (List.mem_append_right l hyr) hlt
      have hpos := hbelow a.key ⟨a, ha, rfl⟩ hak (by
        rintro b ⟨m, hm, rfl⟩ hmk
        exact hgreatest m hm hmk)
      rcases List.mem_append.mp ha with hal | har
      · have hay := hlr a hal y hyr
        have := cmp.le_iff_ge.mp hya
        omega
      · have := hr a har
        omega

end Ranked

/-! ## Maps

Where the nodes of a map are does not depend on its comparator. So what is known of a map with `bstrcmp`
carries over, as long as no search is involved. -/

/-- The nodes of a map, as if its comparison were `bstrcmp`. Where they are does not depend on it. -/
structure Arranged (cmp : Comparator (List CChar)) (h : List CChar → UInt32) (map : Hashmap V)
    (nodes : List (List (HashmapNode V))) : Prop where
  compare : map.compare = cmp.compare
  layout : Layout h { map with compare := bstrcmp } nodes

/-- The nodes are those of the bound keys. -/
def BindsBy (cmp : Comparator (List CChar)) (h : List CChar → UInt32)
    (nodes : List (List (HashmapNode V))) (bound : Bindings V) : Prop :=
  ∀ k ns, nodes[bucketN (h k)]? = some ns →
    ∀ d, bound k = some d ↔ ∃ n ∈ ns, cmp.compare n.key k = 0 ∧ n.data = d

/-- The map is laid out, its buckets are ranked, and its nodes are those of the bound keys. -/
structure Keeps (cmp : Comparator (List CChar)) (h : List CChar → UInt32) (s : Shadowed V)
    (nodes : List (List (HashmapNode V))) : Prop where
  arranged : Arranged cmp h s.map nodes
  ranked : ∀ ns ∈ nodes, Ranked cmp ns
  binds : BindsBy cmp h nodes s.bound

section Maps

variable {cmp : Comparator (List CChar)} {h : List CChar → UInt32} {map map' : Hashmap V}
  {nodes : List (List (HashmapNode V))} {ns l r : List (HashmapNode V)} {n : HashmapNode V}
  {k : List CChar} {bound : Bindings V} {hash : UInt32}

/-- The comparator of a map has no part in the choice of a bucket. -/
theorem findBucket_compare {c : List CChar → List CChar → ℤ} {create : Bool}
    {bucket : Option (DArray (HashmapNode V))}
    (hfind : { map with compare := c }.findBucket k create = .ok (map', bucket, hash)) :
    map.findBucket k create = .ok ({ map' with compare := map.compare }, bucket, hash) := by
  unfold Hashmap.findBucket at hfind ⊢
  simp only [] at hfind ⊢
  obtain ⟨slot, hget, hrest⟩ := bind_eq_ok.mp hfind
  rw [hget, ok_bind]
  split at hrest
  · next hnew =>
    rw [if_pos hnew]
    obtain ⟨buckets, hset, hret⟩ := bind_eq_ok.mp hrest
    rw [hset, ok_bind]
    cases hret
    rfl
  · next hthere =>
    rw [if_neg hthere]
    cases hrest
    rfl

theorem putBucket_compare {c : List CChar → List CChar → ℤ} {bucket : DArray (HashmapNode V)}
    (hput : { map with compare := c }.putBucket hash bucket = .ok map') :
    map.putBucket hash bucket = .ok { map' with compare := map.compare } := by
  unfold Hashmap.putBucket at hput ⊢
  obtain ⟨buckets, hset, hret⟩ := bind_eq_ok.mp hput
  rw [hset, ok_bind]
  cases hret
  rfl

/-- A layout is one of the map with its own comparison put back. -/
theorem Layout.arranged (hl : Layout h map nodes) :
    Arranged cmp h { map with compare := cmp.compare } nodes := by
  refine ⟨rfl, ?_⟩
  show Layout h { map with compare := bstrcmp } nodes
  rw [← hl.compare]
  exact hl

theorem Arranged.findBucket (ha : Arranged cmp h map nodes) (hns : nodes[bucketN (h k)]? = some ns) :
    ∃ bucket, map.findBucket k false = .ok (map, bucket, h k) ∧ BucketHolds bucket ns := by
  obtain ⟨bucket, hfind, hbucket⟩ := ha.layout.findBucket hns
  have hfind' := findBucket_compare hfind
  exact ⟨bucket, hfind', hbucket⟩

/-- A bucket for the key, which is new and empty when there was none. -/
theorem Arranged.findBucket_create (ha : Arranged cmp h map nodes)
    (hns : nodes[bucketN (h k)]? = some ns) :
    ∃ map' bucket, map.findBucket k true = .ok (map', some bucket, h k) ∧
      bucket.Holds (ns.map some) ∧ Arranged cmp h map' nodes ∧
      (map.findBucket k false = .ok (map, some bucket, h k) ∨
        map.findBucket k false = .ok (map, none, h k) ∧ bucket.end + 1 < bucket.max) := by
  obtain ⟨map', bucket, hfind, hb, hl, hsame⟩ := ha.layout.findBucket_create hns
  refine ⟨_, bucket, findBucket_compare hfind, hb, ?_, ?_⟩
  · rw [ha.compare]
    exact hl.arranged
  · rcases hsame with hsame | ⟨hsame, hfree⟩
    · have hsame' := findBucket_compare hsame
      exact Or.inl hsame'
    · have hsame' := findBucket_compare hsame
      exact Or.inr ⟨hsame', hfree⟩

theorem Arranged.putBucket (ha : Arranged cmp h map nodes) {bucket : DArray (HashmapNode V)}
    (hb : bucket.Holds (ns.map some)) (hash : UInt32)
    (hplaced : ∀ n ∈ ns, n.hash = h n.key ∧ bucketN (h n.key) = bucketN hash) :
    ∃ map', map.putBucket hash bucket = .ok map' ∧
      Arranged cmp h map' (nodes.set (bucketN hash) ns) := by
  obtain ⟨map', hput, hl⟩ := ha.layout.putBucket hb hash hplaced
  refine ⟨_, putBucket_compare hput, ?_⟩
  rw [ha.compare]
  exact hl.arranged

theorem Arranged.exists_nodes (ha : Arranged cmp h map nodes) (k : List CChar) :
    ∃ ns, nodes[bucketN (h k)]? = some ns :=
  ha.layout.exists_nodes k

theorem Arranged.placed (ha : Arranged cmp h map nodes) (hns : nodes[bucketN (h k)]? = some ns) :
    ∀ n ∈ ns, n.hash = h n.key ∧ bucketN (h n.key) = bucketN (h k) :=
  ha.layout.placed _ _ hns

/-- **The search for a key that has a node.** -/
theorem Arranged.search_found (ha : Arranged cmp h map nodes)
    (hns : nodes[bucketN (h k)]? = some (l ++ n :: r))
    (hh : ∀ a b, cmp.compare a b = 0 → h a = h b) (hs : Ranked cmp (l ++ n :: r))
    (hk : cmp.compare n.key k = 0) {bucket : DArray (HashmapNode V)}
    (hb : bucket.Holds ((l ++ n :: r).map some)) :
    map.getNode (h k) bucket k 0 (bucket.end - 1) = .ok (l.length : ℤ) := by
  have hmiddle : (l ++ n :: r)[l.length]? = some n := by simp
  have hhash : n.hash = h k := by
    rw [(ha.placed hns n (by simp)).1]
    exact hh n.key k hk
  rw [hb.end, List.length_map]
  refine getNode_at hb hmiddle (by rw [ha.compare]; exact hk) hhash ?_ ?_ le_rfl (Nat.zero_le _)
    (by simp)
  · intro i m hm hi
    rw [ha.compare]
    exact cmp.lt_of_lt_of_le (hs.lt hi hm hmiddle) hk.le
  · intro i m hm hi
    rw [ha.compare]
    have hkm := cmp.lt_of_le_of_lt (cmp.eq_comm.mp hk).le (hs.lt hi hmiddle hm)
    exact (cmp.lt_iff_gt _ _).mp hkm

/-- The search for a key that has none. -/
theorem Arranged.search_none (ha : Arranged cmp h map nodes)
    (hnone : ∀ n ∈ ns, cmp.compare n.key k ≠ 0) {bucket : DArray (HashmapNode V)}
    (hb : bucket.Holds (ns.map some)) :
    map.getNode (h k) bucket k 0 (bucket.end - 1) = .ok (-1) := by
  rw [hb.end, List.length_map]
  refine getNode_none hb le_rfl fun i n _ _ hn => ?_
  rw [ha.compare]
  exact hnone n (List.mem_of_getElem? hn)

/-- The keys that are stored beside a key are those of the nodes of its bucket. -/
theorem Arranged.stored_iff (ha : Arranged cmp h map nodes)
    (hns : nodes[bucketN (h k)]? = some ns) (a : List CChar) :
    Stored map k a ↔ ∃ m ∈ ns, m.key = a := by
  obtain ⟨bucket, hfind, hbucket⟩ := ha.findBucket hns
  constructor
  · rintro ⟨bucket', hash, i, n, hfind', hi, hget, rfl⟩
    obtain ⟨rfl, -⟩ : bucket = some bucket' ∧ h k = hash := by
      simpa using Except.ok.inj (hfind.symm.trans hfind')
    have hb : bucket'.Holds (ns.map some) := hbucket
    have hlt : i < ns.length := by
      have hend := hb.end
      rw [List.length_map] at hend
      omega
    have hslot : bucket'.get i = .ok (some ns[i]) := hb.get (by simp [hlt])
    have heq : ns[i] = n := Option.some.inj (Except.ok.inj (hslot.symm.trans hget))
    exact ⟨n, heq ▸ List.getElem_mem hlt, rfl⟩
  · rintro ⟨m, hm, rfl⟩
    -- a bucket that was never made has no nodes
    cases bucket with
    | none =>
      obtain rfl : ns = [] := hbucket
      cases hm
    | some bucket =>
      have hb : bucket.Holds (ns.map some) := hbucket
      obtain ⟨i, hi, rfl⟩ := List.getElem_of_mem hm
      refine ⟨bucket, h k, i, ns[i], hfind, ?_, hb.get (by simp [hi]), rfl⟩
      rw [hb.end, List.length_map]
      exact_mod_cast hi

variable (junk : Junk (HashmapNode V))

/-- `Hashmap_set` of a key that has a node. -/
theorem Arranged.set_found (ha : Arranged cmp h map nodes)
    (hns : nodes[bucketN (h k)]? = some (l ++ n :: r))
    (hh : ∀ a b, cmp.compare a b = 0 → h a = h b) (hs : Ranked cmp (l ++ n :: r))
    (hk : cmp.compare n.key k = 0) (data : Option V) :
    ∃ map', map.set junk k data = .ok (map', 0) ∧
      Arranged cmp h map' (nodes.set (bucketN (h k)) (l ++ { n with data } :: r)) := by
  obtain ⟨map₁, bucket, hfind, hb, ha₁, -⟩ := ha.findBucket_create hns
  obtain ⟨bucket', hb', hset⟩ :=
    set_at junk hfind hb (ha₁.search_found hns hh hs hk hb) data
  have hplaced : ∀ m ∈ l ++ { n with data } :: r,
      m.hash = h m.key ∧ bucketN (h m.key) = bucketN (h k) := by
    obtain ⟨hn, hrest⟩ := forall_middle.mp (ha.placed hns)
    exact forall_middle.mpr ⟨hn, hrest⟩
  obtain ⟨map', hput, ha'⟩ := ha₁.putBucket hb' (h k) hplaced
  refine ⟨map', ?_, ha'⟩
  rw [hset, hput]
  rfl

/-- `Hashmap_set` of a new key, with room for it or without. -/
theorem Arranged.set_new (ha : Arranged cmp h map nodes) (hns : nodes[bucketN (h k)]? = some ns)
    (hnone : ∀ n ∈ ns, cmp.compare n.key k ≠ 0) (data : Option V) :
    (map.RoomFor k → ∃ map' l r, map.set junk k data = .ok (map', 0) ∧ ns = l ++ r ∧
      (∀ m ∈ r, bstrcmp k m.key ≤ 0) ∧ (∀ m, l.getLast? = some m → 0 < bstrcmp k m.key) ∧
      Arranged cmp h map' (nodes.set (bucketN (h k)) (l ++ ⟨k, data, h k⟩ :: r))) ∧
    (¬ map.RoomFor k → ∃ map', map.set junk k data = .ok (map', 0) ∧
      map'.get k = .error .nullDeref) := by
  obtain ⟨map₁, bucket, hfind, hb, ha₁, hsame⟩ := ha.findBucket_create hns
  have hset := set_missing junk hfind (ha₁.search_none hnone hb) data
  constructor
  · intro hroom
    obtain ⟨bucket', l, r, hpush, rfl, hr, hlast, hb'⟩ :=
      pushNode_eq junk hb ((roomFor_iff hsame).mp hroom) ⟨k, data, h k⟩
    -- the new node is in the bucket of its hash, as the others are
    have hplaced : ∀ m ∈ l ++ ⟨k, data, h k⟩ :: r,
        m.hash = h m.key ∧ bucketN (h m.key) = bucketN (h k) :=
      forall_middle.mpr ⟨⟨rfl, rfl⟩, ha.placed hns⟩
    obtain ⟨map', hput, ha'⟩ := ha₁.putBucket hb' (h k) hplaced
    exact ⟨map', l, r, set_of_push junk hset hpush hput, rfl, hr, hlast, ha'⟩
  · intro hroom
    refine set_spent junk hb (mt (roomFor_iff hsame).mpr hroom) (fun bucket' => ?_) hset
    obtain ⟨map', hput, hfind'⟩ := ha₁.layout.findBucket_put (k := k) bucket'
    have hfound : ({ map' with compare := map₁.compare } : Hashmap V).findBucket k _ = _ :=
      findBucket_compare (c := map'.compare) hfind'
    exact ⟨_, putBucket_compare hput, hfound⟩

/-! ## What is bound

One step of a run: a key that is bound keeps its node, and a new key gets one. A call that settles keeps
all buckets in order; one that does not hides a key, which the very next `Hashmap_get` of it shows. -/

/-- One bucket changes in the nodes with one key, of which there is one then. -/
theorem BindsBy.set {ms : List (HashmapNode V)} (hb : BindsBy cmp h nodes bound)
    (hh : ∀ a b, cmp.compare a b = 0 → h a = h b) (hns : nodes[bucketN (h k)]? = some ns)
    (hmem : n ∈ ms) (hk : cmp.compare n.key k = 0)
    (huniq : ∀ m ∈ ms, cmp.compare m.key k = 0 → m = n)
    (hrest : ∀ m, cmp.compare m.key k ≠ 0 → (m ∈ ms ↔ m ∈ ns)) :
    BindsBy cmp h (nodes.set (bucketN (h k)) ms) (rebind cmp bound (k, n.data)) := by
  intro a ms' hms' d
  show (if cmp.compare a k = 0 then some n.data else bound a) = some d ↔ _
  rw [List.getElem?_set] at hms'
  by_cases hak : cmp.compare a k = 0
  · rw [if_pos (by rw [hh a k hak])] at hms'
    obtain ⟨-, rfl⟩ : _ ∧ ms = ms' := by simpa using hms'
    rw [if_pos hak]
    constructor
    · intro hd
      exact ⟨n, hmem, cmp.eq_trans hk (cmp.eq_comm.mp hak), Option.some.inj hd⟩
    · rintro ⟨m, hm, hma, rfl⟩
      rw [huniq m hm (cmp.eq_trans hma hak)]
  · rw [if_neg hak]
    -- the nodes with another key are the same
    have hsame : ∀ m, cmp.compare m.key a = 0 → (m ∈ ms ↔ m ∈ ns) := by
      intro m hma
      refine hrest m fun hmk => hak ?_
      exact cmp.eq_trans (cmp.eq_comm.mp hma) hmk
    split at hms'
    · next hbucket =>
      obtain ⟨-, rfl⟩ : _ ∧ ms = ms' := by simpa using hms'
      rw [hb a ns (hbucket ▸ hns) d]
      constructor
      · rintro ⟨m, hm, hma, hmd⟩
        exact ⟨m, (hsame m hma).mpr hm, hma, hmd⟩
      · rintro ⟨m, hm, hma, hmd⟩
        exact ⟨m, (hsame m hma).mp hm, hma, hmd⟩
    · exact hb a ms' hms' d

theorem BindsBy.eq_some (hb : BindsBy cmp h nodes bound) (hns : nodes[bucketN (h k)]? = some ns)
    (hn : n ∈ ns) (hk : cmp.compare n.key k = 0) : bound k = some n.data :=
  (hb k ns hns n.data).mpr ⟨n, hn, hk, rfl⟩

theorem BindsBy.eq_none (hb : BindsBy cmp h nodes bound) (hns : nodes[bucketN (h k)]? = some ns) :
    bound k = none ↔ ∀ n ∈ ns, cmp.compare n.key k ≠ 0 := by
  constructor
  · intro hnone n hn hk
    rw [hb.eq_some hns hn hk] at hnone
    cases hnone
  · intro hnone
    cases hbound : bound k with
    | none => rfl
    | some d =>
      obtain ⟨n, hn, hk, -⟩ := (hb k ns hns d).mp hbound
      exact absurd hk (hnone n hn)

variable {s s' : Shadowed V} {e : List CChar × Option V}

/-- **A map in order answers like what is bound.** -/
theorem Keeps.answers (hm : Keeps cmp h s nodes) (hh : ∀ a b, cmp.compare a b = 0 → h a = h b) :
    Answers s := by
  intro k
  obtain ⟨ns, hns⟩ := hm.arranged.exists_nodes k
  have hs := hm.ranked ns (List.mem_of_getElem? hns)
  obtain ⟨bucket, hfind, hbucket⟩ := hm.arranged.findBucket hns
  cases bucket with
  | none =>
    obtain rfl : ns = [] := hbucket
    rw [(hm.binds.eq_none hns).mpr nofun]
    unfold Hashmap.get
    rw [hfind]
    rfl
  | some bucket =>
    -- the search is right because its bucket is in order by `cmp`
    by_cases hnone : ∀ n ∈ ns, cmp.compare n.key k ≠ 0
    · rw [(hm.binds.eq_none hns).mpr hnone,
        get_missing hfind (hm.arranged.search_none hnone hbucket)]
      rfl
    · push Not at hnone
      obtain ⟨n, hn, hk⟩ := hnone
      rw [hm.binds.eq_some hns hn hk]
      obtain ⟨l, r, rfl⟩ := List.append_of_mem hn
      have hb : bucket.Holds ((l ++ n :: r).map some) := hbucket
      have hslot : bucket.get l.length = .ok (some n) := hb.get (by simp)
      exact get_at hfind (hm.arranged.search_found hns hh hs hk hb) hslot

theorem keeps_begin (cmp : Comparator (List CChar)) (h : List CChar → UInt32) :
    Keeps cmp h (beginWith cmp h : Shadowed V) (List.replicate DEFAULT_NUMBER_OF_BUCKETS []) where
  arranged := ⟨rfl, layout_create h⟩
  ranked ns hns := by
    rw [List.eq_of_mem_replicate hns]
    exact List.Pairwise.nil
  binds k ns hns d := by
    rw [List.eq_of_mem_replicate (List.mem_of_getElem? hns)]
    exact iff_of_false nofun (by simp)

theorem Keeps.ranked_set (hm : Keeps cmp h s nodes) (hs : Ranked cmp ns) (i : ℕ) :
    ∀ ms ∈ nodes.set i ns, Ranked cmp ms := by
  intro ms hms
  rcases List.mem_or_eq_of_mem_set hms with hmem | rfl
  · exact hm.ranked ms hmem
  · exact hs

theorem setStep_eq (hset : s.map.set junk e.1 e.2 = .ok (map', 0)) :
    setStep junk cmp s e = .ok ⟨map', rebind cmp s.bound e⟩ := by
  unfold setStep
  rw [hset]
  rfl

/-- A call that sets a key that is bound. -/
theorem setStep_bound (hm : Keeps cmp h s nodes) (hh : ∀ a b, cmp.compare a b = 0 → h a = h b)
    (hbound : s.bound e.1 ≠ none) :
    ∃ s' nodes', setStep junk cmp s e = .ok s' ∧ Keeps cmp h s' nodes' := by
  obtain ⟨ns, hns⟩ := hm.arranged.exists_nodes e.1
  have hs := hm.ranked ns (List.mem_of_getElem? hns)
  rw [ne_eq, hm.binds.eq_none hns] at hbound
  push Not at hbound
  obtain ⟨n, hn, hk⟩ := hbound
  obtain ⟨l, r, rfl⟩ := List.append_of_mem hn
  obtain ⟨map', hset, ha'⟩ := hm.arranged.set_found junk hns hh hs hk e.2
  obtain ⟨hsl, hsr, hlr⟩ := List.pairwise_append.mp hs
  obtain ⟨hnr, hsr⟩ := List.pairwise_cons.mp hsr
  have hs' : Ranked cmp (l ++ { n with data := e.2 } :: r) :=
    pairwise_replace (n := n) (R := fun a b => cmp.compare a b < 0) rfl hs
  have hbinds : BindsBy cmp h (nodes.set (bucketN (h e.1)) (l ++ { n with data := e.2 } :: r))
      (rebind cmp s.bound e) := by
    apply hm.binds.set (n := { n with data := e.2 }) hh hns (by simp) hk
    · -- no other node of a ranked bucket has an equal key
      intro m hm' hmk
      have hmn : cmp.compare m.key n.key = 0 := cmp.eq_trans hmk (cmp.eq_comm.mp hk)
      rcases List.mem_append.mp hm' with hml | hmr
      · have := hlr m hml n List.mem_cons_self
        omega
      · rcases List.mem_cons.mp hmr with rfl | hmr
        · rfl
        · have := hnr m hmr
          have := cmp.eq_comm.mp hmn
          omega
    · intro m hmk
      have hne : m ≠ n := by
        rintro rfl
        exact hmk hk
      have hne' : m ≠ { n with data := e.2 } := by
        rintro rfl
        exact hmk hk
      simp [hne, hne']
  exact ⟨_, _, setStep_eq junk hset, ha', hm.ranked_set hs' _, hbinds⟩

/-- **A call that sets a new key**, with the nodes it leaves. They are ranked exactly when the key
fits. -/
theorem setStep_new (hm : Keeps cmp h s nodes) (hh : ∀ a b, cmp.compare a b = 0 → h a = h b)
    (hbound : s.bound e.1 = none) :
    (s.map.RoomFor e.1 → ∃ s' ns l r n, setStep junk cmp s e = .ok s' ∧
      nodes[bucketN (h e.1)]? = some ns ∧ ns = l ++ r ∧ n.key = e.1 ∧
      Arranged cmp h s'.map (nodes.set (bucketN (h e.1)) (l ++ n :: r)) ∧
      BindsBy cmp h (nodes.set (bucketN (h e.1)) (l ++ n :: r)) s'.bound ∧
      (∀ m ∈ ns, cmp.compare m.key n.key ≠ 0) ∧
      (Ranked cmp (l ++ n :: r) ↔ Fits cmp e.1 (Stored s.map e.1))) ∧
    (¬ s.map.RoomFor e.1 → ∃ s', setStep junk cmp s e = .ok s' ∧
      s'.map.get e.1 = .error .nullDeref) := by
  obtain ⟨ns, hns⟩ := hm.arranged.exists_nodes e.1
  have hs := hm.ranked ns (List.mem_of_getElem? hns)
  have hnone := (hm.binds.eq_none hns).mp hbound
  obtain ⟨hput, hfail⟩ := hm.arranged.set_new junk hns hnone e.2
  constructor
  · intro hroom
    obtain ⟨map', l, r, hset, rfl, hr, hlast, ha'⟩ := hput hroom
    refine ⟨_, _, l, r, ⟨e.1, e.2, h e.1⟩, setStep_eq junk hset, hns, rfl, rfl, ha', ?_, hnone, ?_⟩
    · refine hm.binds.set (n := ⟨e.1, e.2, h e.1⟩) hh hns (by simp) (cmp.self e.1) ?_ ?_
      · intro m hm' hmk
        by_contra hne
        refine hnone m ?_ hmk
        simpa [hne] using hm'
      · intro m hmk
        have hne : m ≠ ⟨e.1, e.2, h e.1⟩ := by
          rintro rfl
          exact hmk (cmp.self e.1)
        simp [hne]
    · -- what becomes of the order depends on where the push sorts the node in
      rw [ranked_insert_iff hs hnone hr hlast]
      have hstored : (fun a => ∃ m ∈ l ++ r, m.key = a) = Stored s.map e.1 := by
        funext a
        exact propext (hm.arranged.stored_iff hns a).symm
      rw [hstored]
  · intro hroom
    obtain ⟨map', hset, hget⟩ := hfail hroom
    exact ⟨_, setStep_eq junk hset, hget⟩

/-- **A call that settles** keeps the map in order. -/
theorem setStep_settles (hm : Keeps cmp h s nodes) (hh : ∀ a b, cmp.compare a b = 0 → h a = h b)
    (hsettles : Settles cmp s e) :
    ∃ s' nodes', setStep junk cmp s e = .ok s' ∧ Keeps cmp h s' nodes' := by
  by_cases hbound : s.bound e.1 = none
  · obtain ⟨hroom, hfits⟩ := hsettles hbound
    obtain ⟨s', ns, l, r, n, hstep, -, -, -, ha', hbinds, -, hranked⟩ :=
      (setStep_new junk hm hh hbound).1 hroom
    exact ⟨s', _, hstep, ha', hm.ranked_set (hranked.mpr hfits) _, hbinds⟩
  · exact setStep_bound junk hm hh hbound

/-- **A call that does not settle** hides a key. -/
theorem setStep_unsettled (hm : Keeps cmp h s nodes) (hh : ∀ a b, cmp.compare a b = 0 → h a = h b)
    (hsup : Supplied s') (hsettles : ¬ Settles cmp s e) (hstep : setStep junk cmp s e = .ok s') :
    ¬ Answers s' := by
  unfold Settles at hsettles
  rw [Classical.not_imp] at hsettles
  obtain ⟨hbound, hnot⟩ := hsettles
  obtain ⟨hput, hfail⟩ := setStep_new junk hm hh hbound
  by_cases hroom : s.map.RoomFor e.1
  · obtain ⟨s'', ns, l, r, n, hstep', hns, rfl, -, ha', hbinds, hnone, hranked⟩ := hput hroom
    obtain rfl : s'' = s' := Except.ok.inj (hstep'.symm.trans hstep)
    have hs := hm.ranked _ (List.mem_of_getElem? hns)
    have hbroken : ¬ Ranked cmp (l ++ n :: r) := fun h => hnot ⟨hroom, hranked.mp h⟩
    -- no two nodes have the same key, and two neighbours are in the wrong order
    have hdistinct : (l ++ n :: r).Pairwise fun a b =>
        cmp.compare a.key b.key ≠ 0 ∧ cmp.compare b.key a.key ≠ 0 := by
      refine (List.perm_middle.pairwise_iff fun {a b} h => h.symm).mpr (List.pairwise_cons.mpr ?_)
      refine ⟨fun m hm' => ?_, hs.imp fun hlt => ?_⟩
      · exact ⟨mt cmp.eq_comm.mp (hnone m hm'), hnone m hm'⟩
      · exact ⟨hlt.ne, mt cmp.eq_comm.mp hlt.ne⟩
    obtain ⟨l', z, y, r', hsplit, hyz⟩ := exists_inverted hs hnone hbroken
    have hslot : (nodes.set (bucketN (h e.1)) (l ++ n :: r))[bucketN (h e.1)]? =
        some (l' ++ z :: y :: r') := by
      rw [← hsplit]
      exact List.getElem?_set_self (List.getElem?_eq_some_iff.mp hns).1
    rw [hsplit] at hdistinct
    obtain ⟨bucket, hget, hbucket⟩ := ha'.layout.bucket hslot
    cases bucket with
    | none => exact absurd hbucket (by simp [BucketHolds])
    | some bucket =>
      have hfind : ∀ m ∈ l' ++ z :: y :: r',
          s''.map.findBucket m.key false = .ok (s''.map, some bucket, m.hash) := by
        intro m hm'
        obtain ⟨hhash, hplace⟩ := ha'.placed hslot m hm'
        rw [hhash]
        have hfind' := findBucket_compare (ha'.layout.findBucket_eq (k := m.key) (hplace ▸ hget))
        exact hfind'
      obtain ⟨m, hmem, hmiss⟩ := get_inverted hfind hbucket (by rw [ha'.compare]; exact hyz)
        (by rw [ha'.compare]; exact (cmp.lt_iff_gt _ _).mp hyz)
        (by rw [ha'.compare]; exact hdistinct)
      have hbucketN := (ha'.placed hslot m hmem).2
      have hbound' := hbinds.eq_some (hbucketN ▸ hslot) hmem (cmp.self m.key)
      intro hanswers
      have hdata : m.data = none := by
        have heq := hmiss.symm.trans (hanswers m.key)
        rw [hbound'] at heq
        exact (Except.ok.inj heq).symm
      rw [hdata] at hbound'
      exact hsup m.key hbound'
  · obtain ⟨s'', hstep', hget⟩ := hfail hroom
    obtain rfl : s'' = s' := Except.ok.inj (hstep'.symm.trans hstep)
    intro hanswers
    cases hget.symm.trans (hanswers e.1)

end Maps

/-! ## Runs

By the step lemmas a run that settles answers right, and the first call that does not settle is the end
of that. For the second half no data may be NULL, since NULL is also the answer for a key that is not
bound. -/

theorem supplied_setStep (junk : Junk (HashmapNode V)) {cmp : Comparator (List CChar)}
    {s s' : Shadowed V} {e : List CChar × Option V} (hs : Supplied s) (he : e.2 ≠ none)
    (hstep : setStep junk cmp s e = .ok s') : Supplied s' := by
  unfold setStep at hstep
  obtain ⟨_, -, hret⟩ := bind_eq_ok.mp hstep
  obtain rfl := Except.ok.inj hret
  intro k
  show (if cmp.compare k e.1 = 0 then some e.2 else s.bound k) ≠ some none
  split
  · exact fun h => he (Option.some.inj h)
  · exact hs k

/-- **A map with any comparator answers like the latest calls of `Hashmap_set` as long as they
settle.** When no data are null it does so for no longer than that. -/
theorem answers_of_settles (junk : Junk (HashmapNode V)) (cmp : Comparator (List CChar))
    {h : List CChar → UInt32} (hh : ∀ a b, cmp.compare a b = 0 → h a = h b)
    (sets : List (List CChar × Option V)) :
    (Run.Along (setStep junk cmp) (Settles cmp) (beginWith cmp h) sets →
      Run.Sustained (setStep junk cmp) Answers (beginWith cmp h) sets) ∧
    ((∀ e ∈ sets, e.2 ≠ none) → Run.Sustained (setStep junk cmp) Answers (beginWith cmp h) sets →
      Run.Along (setStep junk cmp) (Settles cmp) (beginWith cmp h) sets) := by
  constructor
  · intro hsettles
    have hinv := Run.sustained_of_along (Q := fun s => ∃ nodes, Keeps cmp h s nodes)
      (fun s e hm he => ?_) ⟨_, keeps_begin cmp h⟩ hsettles
    · exact hinv.mono fun s hm => hm.elim fun nodes hm => hm.answers hh
    · obtain ⟨nodes, hm⟩ := hm
      obtain ⟨s', nodes', hstep, hm'⟩ := setStep_settles junk hm hh he
      exact ⟨s', hstep, nodes', hm'⟩
  · intro hsupplies hsustained
    refine Run.along_of_sustained (I := fun s => (∃ nodes, Keeps cmp h s nodes) ∧ Supplied s)
      (A := fun _ e => e.2 ≠ none) ?_ ?_ ⟨⟨_, keeps_begin cmp h⟩, fun _ hk => by cases hk⟩
      (Run.along_of_forall hsupplies _) hsustained
    · rintro s e s' ⟨⟨nodes, hm⟩, hsup⟩ he hsettles hstep
      obtain ⟨s'', nodes', hstep', hm'⟩ := setStep_settles junk hm hh hsettles
      obtain rfl : s'' = s' := Except.ok.inj (hstep'.symm.trans hstep)
      exact ⟨⟨nodes', hm'⟩, supplied_setStep junk hsup he hstep⟩
    · -- a set that does not settle leaves a key without its answer
      rintro s e s' ⟨⟨nodes, hm⟩, hsup⟩ he hstep hanswers
      by_contra hsettles
      exact setStep_unsettled junk hm hh (supplied_setStep junk hsup he hstep) hsettles hstep hanswers

/-- Two keys in buckets of their own, in a map whose comparator turns the order of the keys around. -/
theorem answers_of_settles_apart :
    Run.Sustained (setStep Junk.null Lcthw.defaultCompare.reverse) Answers
      (beginWith Lcthw.defaultCompare.reverse fun k => if bstrcmp k (cstr "a") = 0 then 1 else 0)
      [(cstr "a", some 1), (cstr "b", some 2)] := by
  refine (answers_of_settles Junk.null Lcthw.defaultCompare.reverse ?_ _).1 ⟨?_, ?_⟩
  · intro a b hab
    have hab' : bstrcmp a b = 0 := neg_eq_zero.mp hab
    have hiff : bstrcmp a (cstr "a") = 0 ↔ bstrcmp b (cstr "a") = 0 := by
      rw [bstrcmp_eq, bstrcmp_eq, bstrcmp_eq.mp hab']
    simp only [hiff]
  · -- the bucket is not there yet
    intro _
    refine ⟨?_, ?_, ?_⟩
    · intro bucket hash hfind
      cases hfind
    · rintro a ⟨bucket, hash, i, n, hfind, -⟩
      cases hfind
    · rintro a ⟨bucket, hash, i, n, hfind, -⟩
      cases hfind
  · intro s hs
    refine ⟨fun _ => ?_, fun _ _ => trivial⟩
    -- the bucket of the second key is not there either
    have hout : (setStep Junk.null Lcthw.defaultCompare.reverse
        (beginWith Lcthw.defaultCompare.reverse fun k => if bstrcmp k (cstr "a") = 0 then 1 else 0)
        (cstr "a", some 1)).map (fun s => (s.map.findBucket (cstr "b") false).map
          fun r => r.2.1.isSome) = .ok (.ok false) := by
      decide +kernel
    rw [hs] at hout
    have hnone : ∀ bucket hash, s.map.findBucket (cstr "b") false ≠ .ok (s.map, some bucket, hash) := by
      intro bucket hash hfind
      have hfalse : (s.map.findBucket (cstr "b") false).map (fun r => r.2.1.isSome) = .ok false :=
        Except.ok.inj hout
      rw [hfind] at hfalse
      cases hfalse
    refine ⟨fun bucket hash hfind => absurd hfind (hnone bucket hash), ?_, ?_⟩
    · rintro a ⟨bucket, hash, i, n, hfind, -⟩
      exact absurd hfind (hnone bucket hash)
    · rintro a ⟨bucket, hash, i, n, hfind, -⟩
      exact absurd hfind (hnone bucket hash)

/-- The same two keys in one bucket. The second one is put behind the first one, and the search for it
goes to the front. -/
theorem reverse_hides_key :
    ¬ Run.Sustained (setStep Junk.null Lcthw.defaultCompare.reverse) Answers
      (beginWith Lcthw.defaultCompare.reverse fun _ => 0)
      [(cstr "a", some 1), (cstr "b", some 2)] := by
  intro hsustained
  obtain ⟨s, hrun, hanswers⟩ := hsustained.last
  have hout : (Run.run (setStep Junk.null Lcthw.defaultCompare.reverse)
      (beginWith Lcthw.defaultCompare.reverse fun _ => 0)
      [(cstr "a", some 1), (cstr "b", some 2)]).map
      (fun s => (s.bound (cstr "b"), s.map.get (cstr "b"))) = .ok (some (some 2), .ok none) := by
    decide +kernel
  rw [hrun] at hout
  obtain ⟨hbound, hget⟩ := Prod.mk.inj (Except.ok.inj hout)
  have heq := hget.symm.trans (hanswers (cstr "b"))
  rw [hbound] at heq
  cases heq

end Lcthw.Hashmap
