import Lcthw.Base
import Lcthw.LinkedTree

/-!
# Lcthw — search trees (`bstree.c`), unbalanced and AVL

The code of the two trees is the same up to three things, which the functions here take as
parameters: an AVL tree holds the smaller keys to the left and a `BSTree` the greater ones, an
`AVLNode` has a height, and `AVLTree_setnode` rotates. Allocation succeeds, and a recursion is as deep
as its fuel allows; no operation gets there.

* **`SearchTree.get`**, **`set`**, **`delete`**: the code, for a comparison `cmp` of keys by which
  smaller is to the left. The two branches of a comparison differ in the side alone.
* **`BSTree`**, **`AVLTree`**: the two trees. `delete` of an AVL tree returns before the loop that
  would rotate on the way up, in each of its four cases, so that loop is not part of the function.
-/

namespace Lcthw

open LinkedTree

/-- What a node holds. A node that has no height holds one of the type `Unit`. -/
structure Payload (K V H : Type) where
  key : K
  data : Option V
  height : H

structure SearchTree (K V H : Type) where
  heap : Heap (Node (Payload K V H))
  compare : K → K → ℤ
  root : Ptr

namespace SearchTree

variable {K V H : Type}

/-- `BSTree_create` and `AVLTree_create`, for a comparison that is not NULL. -/
def create (compare : K → K → ℤ) : SearchTree K V H :=
  { heap := Heap.empty, compare, root := none }

/-- The heap with a new node, and the node. -/
def createNode (heap : Heap (Node (Payload K V H))) (parent : Ptr) (key : K) (data : Option V)
    (height : H) : Heap (Node (Payload K V H)) × Ptr :=
  (heap.alloc { parent, left := none, right := none, value := { key, data, height } }, some heap.brk)

/-- The side on which a key is set or sought, when `cmp` is the comparison of a node with it. -/
def side (cmp : ℤ) : Side :=
  if cmp ≥ 0 then .left else .right

/-- `node->left = AVLNode_create(node, key, data)`, or the same to the right. -/
def addChild (map : SearchTree K V H) (node : Ptr) (side : Side) (key : K) (data : Option V)
    (height : H) : Except Stop (SearchTree K V H) := do
  let (heap, new) := createNode map.heap node key data height
  let heap ← heap.modify node fun n => n.setChild new side
  return { map with heap }

section Compare

variable (cmp : K → K → ℤ)

def setNode (height : H) (rotate : SearchTree K V H → Ptr → Except Stop (SearchTree K V H)) :
    ℕ → SearchTree K V H → Ptr → K → Option V → Except Stop (SearchTree K V H)
  | 0, _, _, _, _ => .error .outOfFuel
  | fuel + 1, map, node, key, data =>
    if node = none then
      return map
    else do
      let n ← map.heap.load node
      let side := side (cmp n.value.key key)
      let map ←
        (if n.child side ≠ none then
          setNode height rotate fuel map (n.child side) key data
        else
          addChild map node side key data height)
      rotate map node

/-- Returns 0, since allocation succeeds. -/
def set (height : H) (rotate : SearchTree K V H → Ptr → Except Stop (SearchTree K V H))
    (map : SearchTree K V H) (key : K) (data : Option V) : Except Stop (SearchTree K V H × ℤ) :=
  if map.root = none then
    let (heap, root) := createNode map.heap none key data height
    return ({ map with heap, root }, 0)
  else do
    let map ← setNode cmp height rotate map.heap.brk map map.root key data
    return (map, 0)

def getNode : ℕ → Heap (Node (Payload K V H)) → Ptr → K → Except Stop Ptr
  | 0, _, _, _ => .error .outOfFuel
  | fuel + 1, heap, node, key => do
    let n ← heap.load node
    let c := cmp n.value.key key
    if c = 0 then
      return node
    else if n.child (side c) ≠ none then
      getNode fuel heap (n.child (side c)) key
    else
      return none

def get (map : SearchTree K V H) (key : K) : Except Stop (Option V) :=
  if map.root = none then
    return none
  else do
    let node ← getNode cmp map.heap.brk map.heap map.root key
    if node = none then
      return none
    else do
      let n ← map.heap.load node
      return n.value.data

end Compare

def findMin : ℕ → Heap (Node (Payload K V H)) → Ptr → Except Stop Ptr
  | 0, _, _ => .error .outOfFuel
  | fuel + 1, heap, node => do
    let n ← heap.load node
    if n.left ≠ none then findMin fuel heap n.left else return node

/-- Puts `new_value` where `node` is. -/
def replaceNodeInParent (map : SearchTree K V H) (node new_value : Ptr) :
    Except Stop (SearchTree K V H) := do
  let n ← map.heap.load node
  let map ←
    (if n.parent ≠ none then do
      let heap ← relink map.heap n.parent node new_value
      return { map with heap }
    else
      return { map with root := new_value })
  let n ← map.heap.load node
  let heap ← adopt map.heap new_value n.parent
  return { map with heap }

/-- Exchanges the keys and then the data of two nodes. -/
def swap (heap : Heap (Node (Payload K V H))) (a b : Ptr) :
    Except Stop (Heap (Node (Payload K V H))) := do
  let nb ← heap.load b
  let na ← heap.load a
  let heap ← heap.modify b fun n => { n with value := { n.value with key := na.value.key } }
  let heap ← heap.modify a fun n => { n with value := { n.value with key := nb.value.key } }
  let nb ← heap.load b
  let na ← heap.load a
  let heap ← heap.modify b fun n => { n with value := { n.value with data := na.value.data } }
  heap.modify a fun n => { n with value := { n.value with data := nb.value.data } }

/-- The end of `BSTree_node_delete` and `AVL_node_delete`, at a node with the key. The node that is
out of the tree is returned, and holds what was deleted. -/
def unlinkNode (map : SearchTree K V H) (node : Ptr) : Except Stop (SearchTree K V H × Ptr) := do
  let n ← map.heap.load node
  if n.left ≠ none ∧ n.right ≠ none then do
    let successor ← findMin map.heap.brk map.heap n.right
    let heap ← swap map.heap successor node
    let s ← heap.load successor
    let map ← replaceNodeInParent { map with heap } successor s.right
    return (map, successor)
  else if n.left ≠ none then do
    let map ← replaceNodeInParent map node n.left
    return (map, node)
  else if n.right ≠ none then do
    let map ← replaceNodeInParent map node n.right
    return (map, node)
  else do
    let map ← replaceNodeInParent map node none
    return (map, node)

section Compare

variable (cmp : K → K → ℤ)

def nodeDelete : ℕ → SearchTree K V H → Ptr → K → Except Stop (SearchTree K V H × Ptr)
  | 0, _, _, _ => .error .outOfFuel
  | fuel + 1, map, node, key => do
    let n ← map.heap.load node
    let c := cmp n.value.key key
    if c ≠ 0 then
      if n.child (side c) ≠ none then nodeDelete fuel map (n.child (side c)) key
      else return (map, none)
    else
      unlinkNode map node

def delete (map : SearchTree K V H) (key : K) : Except Stop (SearchTree K V H × Option V) :=
  if map.root ≠ none then do
    let (map, node) ← nodeDelete cmp map.heap.brk map map.root key
    if node ≠ none then do
      let n ← map.heap.load node
      let heap ← map.heap.free node
      return ({ map with heap }, n.value.data)
    else
      return (map, none)
  else
    return (map, none)

end Compare

end SearchTree

/-! ## The unbalanced tree

A `BSTree` puts the greater keys to the left, so its comparison is the reverse of the one that the
common code takes. -/

abbrev BSTree (K V : Type) := SearchTree K V Unit

namespace BSTree

variable {K V : Type}

/-- A greater key is to the left. -/
def order (map : BSTree K V) (a b : K) : ℤ :=
  -map.compare a b

def set (map : BSTree K V) (key : K) (data : Option V) : Except Stop (BSTree K V × ℤ) :=
  SearchTree.set map.order () (fun map _ => return map) map key data

def get (map : BSTree K V) (key : K) : Except Stop (Option V) :=
  SearchTree.get map.order map key

def delete (map : BSTree K V) (key : K) : Except Stop (BSTree K V × Option V) :=
  SearchTree.delete map.order map key

end BSTree

/-! ## The AVL tree

What an AVL tree has beside the common code: heights, and the rotations on the way up from a new leaf.
The heights are written by `updateHeight` alone. -/

/-- The heights are `int`s that the number of nodes keeps far from the greatest one. -/
abbrev AVLTree (K V : Type) := SearchTree K V ℤ

namespace AVLTree

variable {K V : Type}

def height (heap : Heap (Node (Payload K V ℤ))) (a : Ptr) : Except Stop ℤ :=
  if a = none then
    return 0
  else do
    let n ← heap.load a
    return n.value.height

def getBalance (heap : Heap (Node (Payload K V ℤ))) (a : Ptr) : Except Stop ℤ := do
  let n ← heap.load a
  let l ← height heap n.left
  let r ← height heap n.right
  return l - r

/-- `a->height = max(height(a->left), height(a->right)) + 1`. -/
def updateHeight (heap : Heap (Node (Payload K V ℤ))) (a : Ptr) :
    Except Stop (Heap (Node (Payload K V ℤ))) := do
  let n ← heap.load a
  let l ← height heap n.left
  let r ← height heap n.right
  heap.modify a fun n => { n with value := { n.value with height := max l r + 1 } }

def rightRotate (heap : Heap (Node (Payload K V ℤ))) (a : Ptr) :
    Except Stop (Heap (Node (Payload K V ℤ))) := do
  let (heap, x, T1, y) ← pivot .left heap a
  let heap ← (if y ≠ none then relink heap y a x else .ok heap)
  let heap ← adopt heap T1 a
  let heap ← updateHeight heap a
  updateHeight heap x

def leftRotate (heap : Heap (Node (Payload K V ℤ))) (a : Ptr) :
    Except Stop (Heap (Node (Payload K V ℤ))) := do
  let (heap, x, T1, y) ← pivot .right heap a
  let heap ← adopt heap T1 a
  let heap ← (if y ≠ none then relink heap y a x else .ok heap)
  let heap ← updateHeight heap a
  updateHeight heap x

/-- `map->root`, once `node` has been rotated down: its parent, when that has none itself. -/
def patchRoot (map : AVLTree K V) (node : Ptr) : Except Stop (AVLTree K V) := do
  let n ← map.heap.load node
  let p ← map.heap.load n.parent
  return if p.parent = none then { map with root := n.parent } else map

def rotate (map : AVLTree K V) (node : Ptr) : Except Stop (AVLTree K V) := do
  let balance ← getBalance map.heap node
  let map ←
    (if balance > 1 then do
      let n ← map.heap.load node
      let inner ← getBalance map.heap n.left
      let heap ← (if inner ≥ 0 then .ok map.heap else leftRotate map.heap n.left)
      let heap ← rightRotate heap node
      patchRoot { map with heap } node
    else if balance < -1 then do
      let n ← map.heap.load node
      let root := if n.parent = none then n.right else map.root
      let inner ← getBalance map.heap n.right
      let heap ← (if inner ≤ 0 then .ok map.heap else rightRotate map.heap n.right)
      let heap ← leftRotate heap node
      patchRoot { map with heap, root } node
    else
      return map)
  let heap ← updateHeight map.heap node
  return { map with heap }

/-- A smaller key is to the left. -/
def order (map : AVLTree K V) : K → K → ℤ :=
  map.compare

/-- A new node has the height 1. -/
def set (map : AVLTree K V) (key : K) (data : Option V) : Except Stop (AVLTree K V × ℤ) :=
  SearchTree.set map.order 1 rotate map key data

def get (map : AVLTree K V) (key : K) : Except Stop (Option V) :=
  SearchTree.get map.order map key

/-- `AVL_node_delete` checks that its node is not NULL; a recursion never gets to such a node. -/
def delete (map : AVLTree K V) (key : K) : Except Stop (AVLTree K V × Option V) :=
  SearchTree.delete map.order map key

end AVLTree

end Lcthw
