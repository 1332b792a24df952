import Lcthw.Bstr
import Lcthw.DArray

/-!
# Lcthw — the hash map (`hashmap.c`)

Ten buckets, each a dynamic array of nodes that is kept in the order of the keys, and a binary
search in the bucket of a key. A key is what its `bstring` holds, a `void *` of data is an
`Option V`, where `none` is the null pointer. Allocation succeeds; `junk` is what `realloc` appends.
-/

namespace Lcthw

structure HashmapNode (V : Type) where
  key : List CChar
  data : Option V
  hash : UInt32

structure Hashmap (V : Type) where
  buckets : DArray (DArray (HashmapNode V))
  compare : List CChar → List CChar → ℤ
  hash : List CChar → UInt32

def DEFAULT_NUMBER_OF_BUCKETS : ℕ := 10

namespace Hashmap

open DArray (Junk)

variable {V : Type}

/-- `default_compare` -/
def defaultCompare (a b : List CChar) : ℤ :=
  bstrcmp a b

/-- `compare_node`, which reads both nodes. -/
def compareNode (a b : Option (HashmapNode V)) : Except Fault ℤ :=
  match a, b with
  | some a, some b => pure (defaultCompare a.key b.key)
  | _, _ => throw .nullDeref

/-- `default_hash` -/
def defaultHash (key : List CChar) : UInt32 :=
  let hash := key.foldl (fun (hash : UInt32) c =>
    let hash := hash + c.toInt32.toUInt32
    let hash := hash + (hash <<< 10)
    hash ^^^ (hash >>> 6)) 0
  let hash := hash + (hash <<< 3)
  let hash := hash ^^^ (hash >>> 11)
  hash + (hash <<< 15)

/-- `Hashmap_create`: all ten slots of `buckets` are in use, and null. -/
def create (compare : Option (List CChar → List CChar → ℤ)) (hash : Option (List CChar → UInt32)) :
    Hashmap V :=
  let buckets := DArray.create DEFAULT_NUMBER_OF_BUCKETS
  { buckets := { buckets with «end» := buckets.max }
    compare := compare.getD defaultCompare
    hash := hash.getD defaultHash }

/-- `hash % DEFAULT_NUMBER_OF_BUCKETS`. It is never negative, so the check of it passes. -/
def bucketN (hash : UInt32) : ℕ :=
  hash.toNat % DEFAULT_NUMBER_OF_BUCKETS

/-- `Hashmap_find_bucket`, and the hash it stores for its caller. -/
def findBucket (map : Hashmap V) (key : List CChar) (create : Bool) :
    Except Fault (Hashmap V × Option (DArray (HashmapNode V)) × UInt32) := do
  let hash := map.hash key
  let bucket ← map.buckets.get (bucketN hash)
  if bucket.isNone ∧ create then do
    let bucket := some (DArray.create 50)
    let buckets ← map.buckets.set (bucketN hash) bucket
    pure ({ map with buckets }, bucket, hash)
  else pure (map, bucket, hash)

/-- What a bucket became while it was worked on, seen from the map that points to it. -/
def putBucket (map : Hashmap V) (hash : UInt32) (bucket : DArray (HashmapNode V)) :
    Except Fault (Hashmap V) := do
  let buckets ← map.buckets.set (bucketN hash) (some bucket)
  pure { map with buckets }

/-- The loop of `Hashmap_get_node`. -/
def getNode (map : Hashmap V) (hash : UInt32) (bucket : DArray (HashmapNode V)) (key : List CChar)
    (start «end» : ℤ) : Except Fault ℤ :=
  if start ≤ «end» then do
    let middle := start + («end» - start) / 2
    match ← bucket.get middle with
    | none => throw .nullDeref
    | some node =>
        if map.compare node.key key = 0 ∧ node.hash = hash then pure middle
        else if map.compare node.key key < 0 then getNode map hash bucket key (middle + 1) «end»
        else getNode map hash bucket key start (middle - 1)
  else pure (-1)
termination_by («end» - start + 1).toNat
decreasing_by all_goals omega

section Junk

variable (junk : Junk (HashmapNode V))

/-- `Hashmap_set`. Whether `DArray_push_sort` succeeded is not looked at. -/
def set (map : Hashmap V) (key : List CChar) (data : Option V) :
    Except Fault (Hashmap V × ℤ) := do
  let (map, bucket, hash) ← map.findBucket key true
  match bucket with
  | none => pure (map, -1)
  | some bucket => do
      let loc ← map.getNode hash bucket key 0 (bucket.end - 1)
      if loc ≥ 0 then
        match ← bucket.get loc with
        | none => throw .nullDeref
        | some node => do
            let contents ← writeAt bucket.contents loc (some { node with data })
            let map ← map.putBucket hash { bucket with contents }
            pure (map, 0)
      else do
        let (_, bucket) ← bucket.pushSort (some junk) (some { key, data, hash }) compareNode
        let map ← map.putBucket hash bucket
        pure (map, 0)

/-- `Hashmap_get` -/
def get (map : Hashmap V) (key : List CChar) : Except Fault (Option V) := do
  let (map, bucket, hash) ← map.findBucket key false
  match bucket with
  | none => pure none
  | some bucket => do
      let i ← map.getNode hash bucket key 0 (bucket.end - 1)
      if i = -1 then pure none
      else do
        match ← bucket.get i with
        | none => pure none
        | some node => pure node.data

/-- `Hashmap_delete`. It compares the popped pointer with the one of the deleted node, which is
only in its own slot. -/
def delete (map : Hashmap V) (key : List CChar) : Except Fault (Hashmap V × Option V) := do
  let (map, bucket, hash) ← map.findBucket key false
  match bucket with
  | none => pure (map, none)
  | some bucket => do
      let i ← map.getNode hash bucket key 0 (bucket.end - 1)
      if i = -1 then pure (map, none)
      else
        match ← bucket.get i with
        | none => throw .nullDeref
        | some node => do
            let last := bucket.end - 1
            let (ending, bucket) ← bucket.pop (some junk)
            let bucket ← if i ≠ last then bucket.set i ending else pure bucket
            let map ← map.putBucket hash bucket
            pure (map, node.data)

end Junk

/-! `Hashmap_traverse`, with a callback that goes from one of its own states to the next. -/

section Traverse

variable {σ : Type} (traverse_cb : σ → Option (HashmapNode V) → ℤ × σ)

/-- The loop over a bucket. -/
def traverseBucket (bucket : DArray (HashmapNode V)) (j : ℤ) (s : σ) : Except Fault (ℤ × σ) :=
  if j < bucket.end then do
    let node ← bucket.get j
    let (rc, s) := traverse_cb s node
    if rc ≠ 0 then pure (rc, s) else traverseBucket bucket (j + 1) s
  else pure (0, s)
termination_by (bucket.end - j).toNat
decreasing_by omega

/-- The loop over the buckets. -/
def traverseBuckets (buckets : DArray (DArray (HashmapNode V))) (i : ℤ) (s : σ) :
    Except Fault (ℤ × σ) :=
  if i < buckets.end then do
    match ← buckets.get i with
    | none => traverseBuckets buckets (i + 1) s
    | some bucket => do
        let (rc, s) ← traverseBucket traverse_cb bucket 0 s
        if rc ≠ 0 then pure (rc, s) else traverseBuckets buckets (i + 1) s
  else pure (0, s)
termination_by (buckets.end - i).toNat
decreasing_by all_goals omega

/-- `Hashmap_traverse` -/
def traverse (map : Hashmap V) (s : σ) : Except Fault (ℤ × σ) :=
  traverseBuckets traverse_cb map.buckets 0 s

end Traverse

end Hashmap

end Lcthw
