import Lcthw.Base
import Lcthw.Run

/-!
# Lcthw — suffix trees (`suffix_tree.c`)

The nodes are kept on a heap. Every edge is pointed to by one slot of one node, so it is kept there;
where the source passes an edge, the model passes the node, the slot and what is in it. An edge ends
at the loop variable `end` or at an `int` of its own, which is written once. New nodes and edges are
filled with zeros, and a loop runs as often as its fuel allows.

* **`createNode`**, **`createEdge`**, **`currentEdge`**, **`activePoint`**, **`build`**: the code.
* **`Path`**, **`Represents`**: what the tree of a string should look like when it is built.
-/

namespace Lcthw.SuffixTree

/-- Where the `int` is that an edge ends at. -/
inductive End where
  | loop
  | own (i : ℤ)
  deriving DecidableEq

structure Edge where
  start : ℤ
  stop : End
  node : Ptr
  deriving DecidableEq

structure Node where
  edges : Fin 26 → Option Edge
  link : Ptr

structure ActivePoint where
  node : Ptr
  order : CChar
  active_length : ℤ

/-- What the loops of `Suffix_tree_build` change. -/
structure State where
  heap : Heap Node
  ap : ActivePoint
  prev_node : Ptr
  remain : ℤ

/-- The value of the `int` an edge ends at, when the loop variable is `end`. -/
def End.value («end» : ℤ) : End → ℤ
  | .loop => «end»
  | .own i => i

/-- The slot at an index of an edge table. -/
def slot (i : ℤ) : Except Stop (Fin 26) :=
  if h : 0 ≤ i ∧ i < 26 then .ok ⟨i.toNat, by omega⟩ else .error (.fault .outOfBounds)

def emptyNode : Node :=
  { edges := fun _ => none, link := none }

def Node.setEdge (n : Node) (i : Fin 26) (e : Edge) : Node :=
  { n with edges := Function.update n.edges i (some e) }

/-- `Suffix_create_node`, for the edge `e` in the slot `i` of the node `v`. The lower half of the edge
goes into the slot of its position, and leads nowhere. -/
def createNode (heap : Heap Node) (v : Ptr) (i : Fin 26) (e : Edge) (active_length : ℤ) :
    Except Stop (Heap Node × Ptr) := do
  let node : Ptr := some heap.brk
  let heap := heap.alloc emptyNode
  let stop := e.start + active_length - 1
  let heap ← heap.modify v fun n => n.setEdge i { start := e.start, stop := .own stop, node }
  let k ← slot (stop + 1)
  let heap ← heap.modify node fun n =>
    n.setEdge k { start := stop + 1, stop := e.stop, node := none }
  return (heap, node)

/-- `Suffix_create_edge`. -/
def createEdge (heap : Heap Node) (node : Ptr) (order : CChar) («end» : ℤ) :
    Except Stop (Heap Node) := do
  let i ← slot (order.toInt - 97)
  heap.modify node fun n => n.setEdge i { start := «end», stop := .loop, node := none }

/-- What is in the slot of a character. -/
def edgeAt (heap : Heap Node) (node : Ptr) (order : CChar) :
    Except Stop (Fin 26 × Option Edge) := do
  let n ← heap.load node
  let i ← slot (order.toInt - 97)
  return (i, n.edges i)

def currentEdge (heap : Heap Node) (ap : ActivePoint) : Except Stop (Fin 26 × Option Edge) :=
  edgeAt heap ap.node ap.order

/-- `Suffix_active_point`. -/
def activePoint (heap : Heap Node) (ap : ActivePoint) : Except Stop ℤ :=
  if ap.order = 0 then
    return -1
  else do
    let (_, e) ← edgeAt heap ap.node ap.order
    match e with
    | none => return -1
    | some e => return e.start + ap.active_length

section Build

variable (string : List CChar)

/-- `String[i]`; behind the string there is a NUL. -/
def charAt (i : ℤ) : Except Stop CChar :=
  (readAt (string ++ [0]) i).mapError .fault

/-- The loop that goes down to the edge which the active point is on; that edge is returned too. -/
def walkDown («end» : ℤ) (heap : Heap Node) :
    ℕ → ActivePoint → Except Stop (ActivePoint × Fin 26 × Edge)
  | 0, _ => .error .outOfFuel
  | fuel + 1, ap => do
    let point ← activePoint heap ap
    let (i, e) ← currentEdge heap ap
    match e with
    | none => .error (.fault .nullDeref)
    | some e =>
      if point > e.stop.value «end» then do
        let temp_num := e.stop.value «end» + 1
        let order ← charAt string temp_num
        walkDown «end» heap fuel { node := e.node, order, active_length := point - temp_num }
      else
        return (ap, i, e)

/-- `if(prev_node != NULL) prev_node->link = node`. -/
def setLink (heap : Heap Node) (prev_node node : Ptr) : Except Stop (Heap Node) :=
  if prev_node ≠ none then heap.modify prev_node fun n => { n with link := node } else return heap

/-- A new edge from the active node. -/
def growLeaf (root : Ptr) («end» : ℤ) (c : CChar) (s : State) : Except Stop State := do
  let heap ← createEdge s.heap s.ap.node c «end»
  let heap ← setLink heap s.prev_node s.ap.node
  let n ← heap.load s.ap.node
  return {
    heap
    ap := { s.ap with node := if n.link ≠ none then n.link else root }
    prev_node := s.ap.node
    remain := s.remain - 1 }

/-- The next active point, when an edge of the active node was split. -/
def nextPoint (root : Ptr) («end» : ℤ) (heap : Heap Node) (ap : ActivePoint) :
    Except Stop ActivePoint :=
  if ap.node = root then do
    let active_length := ap.active_length - 1
    let order ← charAt string («end» - active_length)
    return { ap with active_length, order }
  else do
    let n ← heap.load ap.node
    return { ap with node := n.link }

/-- The edge that the active point is on is split. -/
def splitEdge (root : Ptr) («end» : ℤ) (c : CChar) (ap : ActivePoint) (i : Fin 26) (e : Edge)
    (s : State) : Except Stop State := do
  let (heap, node) ← createNode s.heap ap.node i e ap.active_length
  let heap ← createEdge heap node c «end»
  let heap ← setLink heap s.prev_node node
  let ap ← nextPoint string root «end» heap ap
  return { heap, ap, prev_node := node, remain := s.remain - 1 }

/-- The body of the inner loop, and whether it ends in a `break`. -/
def extend (root : Ptr) («end» : ℤ) (fuel : ℕ) (s : State) : Except Stop (State × Bool) := do
  let c ← charAt string «end»
  if s.ap.active_length = 0 then do
    let (_, e) ← edgeAt s.heap s.ap.node c
    if e = none then do
      let s ← growLeaf root «end» c s
      return (s, false)
    else
      return ({ s with
        ap := { s.ap with order := c, active_length := s.ap.active_length + 1 } }, true)
  else do
    let (ap, i, e) ← walkDown string «end» s.heap fuel s.ap
    let point ← activePoint s.heap ap
    let d ← charAt string point
    if d = c then
      return ({ s with ap := { ap with active_length := ap.active_length + 1 } }, true)
    else do
      let s ← splitEdge string root «end» c ap i e s
      return (s, false)

/-- The inner loop. -/
def insertAll (root : Ptr) («end» : ℤ) : ℕ → State → Except Stop State
  | 0, _ => .error .outOfFuel
  | fuel + 1, s =>
    if s.remain > 0 then do
      let (s, stop) ← extend string root «end» fuel s
      if stop then return s else insertAll root «end» fuel s
    else
      return s

/-- The body of the outer loop. -/
def phase (root : Ptr) (fuel : ℕ) (s : State) («end» : ℕ) : Except Stop State :=
  insertAll string root «end» fuel { s with remain := s.remain + 1, prev_node := none }

def begin : State where
  heap := Heap.empty.alloc emptyNode
  ap := { node := some 0, order := 0, active_length := 0 }
  prev_node := none
  remain := 0

/-- `Suffix_tree_build`: the nodes, of which the one at 0 is the root. -/
def build (fuel : ℕ) : Except Stop (Heap Node) := do
  let s ← Run.run (phase string (some 0) fuel) begin (List.range string.length)
  return s.heap

/-! ## Paths

What a suffix tree is for, said of the finished nodes: an edge is looked for in the slot of its first
character, and the characters along a way spell a part of the string. -/

/-- The characters of an edge, the open end of a leaf being the last index. -/
def label (e : Edge) : List CChar :=
  (string.drop e.start.toNat).take (e.stop.value (string.length - 1) + 1 - e.start).toNat

end Build

/-- The edges on a way down, each with its slot. -/
inductive Path (heap : Heap Node) : Ptr → List (Fin 26 × Edge) → Prop
  | nil (v : Ptr) : Path heap v []
  | cons {v : ℕ} {n : Node} {i : Fin 26} {e : Edge} {es : List (Fin 26 × Edge)}
      (hn : heap.cells v = some n) (he : n.edges i = some e) (hes : Path heap e.node es) :
      Path heap (some v) ((i, e) :: es)

variable (string : List CChar)

/-- The string along a path. -/
def spelled (es : List (Fin 26 × Edge)) : List CChar :=
  es.flatMap fun ie => label string ie.2

/-- Every edge is in the slot of its first character. -/
def Filed (es : List (Fin 26 × Edge)) : Prop :=
  ∀ ie ∈ es, ∃ c, (label string ie.2).head? = some c ∧ c.toInt - 97 = (ie.1 : ℕ)

/-- The construction ends, every suffix is spelled along a path with its edges in their slots (it may
end inside the last edge), and every path spells a part of the string. -/
def Represents : Prop :=
  ∃ fuel heap, build string fuel = .ok heap ∧
    (∀ w, w <:+ string → ∃ es, Path heap (some 0) es ∧ Filed string es ∧ w <+: spelled string es) ∧
    ∀ es, Path heap (some 0) es → spelled string es <:+: string

/-- Nothing but the letters from 'a' to 'z'. -/
def Letters : Prop :=
  ∀ c ∈ string, 97 ≤ c.toInt ∧ c.toInt < 97 + 26

end Lcthw.SuffixTree
