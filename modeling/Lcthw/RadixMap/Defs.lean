import Lcthw.Base

/-!
# Lcthw — the radix map (`radixmap.c`)

An array of 64-bit elements, kept sorted by the 32-bit key in the low half of each. On a
little-endian machine the bytes 0 to 3 of an element are the bytes of its key, least significant
first, and `radix_sort` sorts by one byte.

Indices of the source are `int`s: an index outside its array is a fault, and so is a sum that
leaves the range of `int`.
-/

namespace Lcthw

/-- `RMElement` -/
structure RMElement where
  key : UInt32
  value : UInt32
  deriving DecidableEq

def UINT32_MAX : UInt32 := 0xffffffff

structure RadixMap where
  max : ℕ
  «end» : ℕ
  contents : List RMElement
  temp : List RMElement
  deriving DecidableEq

namespace RadixMap

/-- The other member of the union: both halves as one number. -/
def raw (x : RMElement) : ℕ :=
  x.key.toNat + 2 ^ 32 * x.value.toNat

def byteof (x : RMElement) (y : ℕ) : ℕ :=
  raw x / 256 ^ y % 256

/-- A `size_t` made from an `int` expression -/
def toSize (x : ℤ) : ℕ :=
  (x % 2 ^ 64).toNat

/-- `RadixMap_create`, with `calloc`. -/
def create (max : ℕ) : RadixMap :=
  { max, «end» := 0, contents := List.replicate max ⟨0, 0⟩, temp := List.replicate max ⟨0, 0⟩ }

/-! ## Sorting

Three loops make one pass: they count the bytes, turn the counts into the places where each byte begins,
and move the elements. Four passes, back and forth between the two arrays, sort by the key. -/

/-- `count[byteof(sp,offset)]++` -/
def tally (offset : ℕ) (count : ℕ → ℕ) (x : RMElement) : ℕ → ℕ :=
  Function.update count (byteof x offset) (count (byteof x offset) + 1)

/-- The second loop of `radix_sort`, over the first `n` cells: `s` and the array. -/
def sums (count : ℕ → ℕ) : ℕ → ℕ × (ℕ → ℕ)
  | 0 => (0, count)
  | n + 1 =>
      let (s, cells) := sums count n
      let c := cells n
      (s + c, Function.update cells n s)

/-- `dest[*cp] = *sp; ++(*cp)` -/
def place (offset : ℕ) : (ℕ → ℕ) × List RMElement → RMElement →
    Except Fault ((ℕ → ℕ) × List RMElement)
  | (count, dest), x => do
      let cp := byteof x offset
      let dest ← writeAt dest (count cp) x
      pure (Function.update count cp (count cp + 1), dest)

/-- `radix_sort`: the new content of `dest`. -/
def radixSort (offset max : ℕ) (source dest : List RMElement) : Except Fault (List RMElement) :=
  if max ≤ source.length then do
    let xs := source.take max
    let count := xs.foldl (tally offset) fun _ => 0
    let (_, dest) ← xs.foldlM (place offset) ((sums count 256).2, dest)
    pure dest
  else throw .outOfBounds

/-- `RadixMap_sort` -/
def sort (map : RadixMap) (key_start : ℤ) : Except Fault RadixMap :=
  if 0 ≤ key_start ∧ key_start ≤ map.contents.length then do
    let start := key_start.toNat
    let max := toSize (map.end - key_start)
    let source := map.contents.drop start
    let temp := map.temp.drop start
    let temp ← radixSort 0 max source temp
    let source ← radixSort 1 max temp source
    let temp ← radixSort 2 max source temp
    let source ← radixSort 3 max temp source
    pure { map with
      contents := map.contents.take start ++ source
      temp := map.temp.take start ++ temp }
  else throw .outOfBounds

/-! ## The operations

Both searches are by bisection, and they are written differently: that of an add is inlined, and its
answer is only a place to sort from. An add has put its element at the end before it searches. -/

/-- The loop of `RadixMap_find`: an index into `contents`, or NULL. -/
def findLoop (data : List RMElement) (to_find : UInt32) (low high : ℤ) :
    Except Fault (Option ℤ) :=
  if _h : low ≤ high then do
    let _ ← int (high - low)
    let middle := low + (high - low) / 2
    let key := (← readAt data middle).key
    if to_find < key then findLoop data to_find low (middle - 1)
    else if to_find > key then findLoop data to_find (middle + 1) high
    else pure (some middle)
  else pure none
termination_by (high + 1 - low).toNat

def find (map : RadixMap) (to_find : UInt32) : Except Fault (Option ℤ) :=
  findLoop map.contents to_find 0 (toInt (map.end - 1))

/-- The loop of `RadixMap_add`. Its `middle` is computed from a sum that has to be an `int`, and so has
`end - 1`. -/
def bisect (data : List RMElement) (key : UInt32) (begin «end» sortkey : ℤ) : Except Fault ℤ :=
  if «end» - 1 < -INT_MAX - 1 then throw .intOverflow
  else if _h : begin < «end» - 1 then do
    let _ ← int (begin + «end»)
    let middle := (begin + «end») / 2
    let midkey := (← readAt data middle).key
    if key > midkey then bisect data key middle «end» («end» - 1)
    else if key < midkey then bisect data key begin middle (middle - 1)
    else pure middle
  else pure sortkey
termination_by («end» - begin).toNat

def add (map : RadixMap) (key value : UInt32) : Except Fault (ℤ × RadixMap) :=
  if key < UINT32_MAX then do
    let contents ← writeAt map.contents map.end ⟨key, value⟩
    let map := { map with contents, «end» := map.end + 1 }
    let sortkey ← bisect map.contents key 0 (toInt (map.end - 1)) 0
    let map ← map.sort sortkey
    pure (0, map)
  else pure (-1, map)

/-- `RadixMap_delete`; `el` points into `contents`. -/
def delete (map : RadixMap) (el : Option ℤ) : Except Fault (ℤ × RadixMap) :=
  if map.end > 0 then
    match el with
    | none => pure (-1, map)
    | some i => do
        let x ← readAt map.contents i
        let contents ← writeAt map.contents i { x with key := UINT32_MAX }
        let map := { map with contents }
        let map ← if map.end > 1 then map.sort 0 else pure map
        pure (0, { map with «end» := map.end - 1 })
  else pure (-1, map)

end RadixMap

end Lcthw
