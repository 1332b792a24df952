import Lcthw.Ternary.Grow
import Lcthw.Stats

/-!
# Lcthw — the ternary search tree of `tstree.c`

`TSTree` is the library's tree over `char` with a `Cell` for the two data fields `stat` and
`value` of the source's struct. `nil` is the NULL pointer and `dead` is a pointer to a block that
was freed, or that malloc left in an uninitialised link: dereferencing it is a `useAfterFree`.

A key is its list of characters, so `len` is its length; the characters of a walk are compared in
the source's order. A `TSTree *` that a `List` carries is the route to the node (`Ternary.Route`).

The plain insertion `insert` allocates with calloc. The delimiter insertion `delimInsert`
allocates with malloc, and `Malloc` says what the n-th block it is handed holds.
-/

namespace Lcthw

open Ternary Ternary.Tree

/-- The `stat` and `value` fields of a node. -/
structure Cell (ν : Type) where
  stat : Option Stats
  value : Option ν
  deriving DecidableEq

abbrev TSTree (ν : Type) := Tree CChar (Cell ν)

def delim : CChar := 47

namespace TSTree

variable {ν : Type}

/-! ## Plain insertion, search and deletion

The loops of the source are recursions on the tree, with the characters of the key compared in its
order. An insertion recurses along a level first, and then with the next character. -/

/-- The part of `TSTree_insert_base` that moves along `low` and `high`; `matched` is what it does
at the node whose `splitchar` is `*key`. -/
def insertLevel (key : CChar)
    (matched : CChar → TSTree ν → TSTree ν → TSTree ν → Cell ν → Except Fault (TSTree ν)) :
    TSTree ν → Except Fault (TSTree ν)
  | nil => matched key nil nil nil ⟨none, none⟩
  | dead => throw .useAfterFree
  | node splitchar low high equal data =>
      if key < splitchar then do
        pure (node splitchar (← insertLevel key matched low) high equal data)
      else if key = splitchar then matched splitchar low high equal data
      else do
        pure (node splitchar low (← insertLevel key matched high) equal data)

def insertBase : List CChar → ν → TSTree ν → Except Fault (TSTree ν)
  | [], _, root => pure root
  | key :: rest, value, root =>
      insertLevel key
        (fun splitchar low high equal data =>
          if rest ≠ [] then do
            pure (node splitchar low high (← insertBase rest value equal) data)
          else if data.value = none then
            pure (node splitchar low high equal { data with value := some value })
          else
            -- "duplicate insert into tst"
            pure (node splitchar low high equal data))
        root

/-- `TSTree_insert`. With `len = 0` the recursion still reads `*key`, which is the NUL that ends
the key. -/
def insert (root : TSTree ν) (key : List CChar) (value : ν) : Except Fault (TSTree ν) :=
  match key with
  | [] => insertBase [0] value root
  | key => insertBase key value root

def search : TSTree ν → List CChar → Except Fault (Option ν)
  | nil, _ => pure none
  | dead, _ => throw .useAfterFree
  | node _ _ _ _ data, [] => pure data.value
  | node splitchar low high equal data, key :: rest =>
      if key < splitchar then search low (key :: rest)
      else if key = splitchar then
        if rest ≠ [] then search equal rest else pure data.value
      else search high (key :: rest)

/-- `TSTree_pinpoint`: the pointer itself is returned, so only the walk dereferences. -/
def pinpoint : TSTree ν → List CChar → Except Fault (TSTree ν)
  | root, [] => pure root
  | nil, _ :: _ => pure nil
  | dead, _ :: _ => throw .useAfterFree
  | node splitchar low high equal data, key :: rest =>
      if key < splitchar then pinpoint low (key :: rest)
      else if key = splitchar then
        if rest ≠ [] then pinpoint equal rest else pure (node splitchar low high equal data)
      else pinpoint high (key :: rest)

section Delete

-- the blocks of values that malloc has handed out and that are not freed yet
variable [DecidableEq ν] (blocks : Finset ν)

/-- `free(node->value)`. NULL is passed over; a value that is not the block of a malloc, or not any
more, must not be freed. -/
def free : Option ν → Except Fault (Finset ν)
  | none => pure blocks
  | some value => if value ∈ blocks then pure (blocks.erase value) else throw .useAfterFree

/-- `TSTree_delete`: 0 and the tree with the value of the node freed and cleared, or -1. -/
def delete : TSTree ν → List CChar → Except Fault (Int × TSTree ν × Finset ν)
  | nil, _ => pure (-1, nil, blocks)
  | dead, _ => throw .useAfterFree
  | node splitchar low high equal data, [] => do
      let blocks ← free blocks data.value
      pure (0, node splitchar low high equal { data with value := none }, blocks)
  | node splitchar low high equal data, key :: rest =>
      if key < splitchar then do
        let (rc, low, blocks) ← delete low (key :: rest)
        pure (rc, node splitchar low high equal data, blocks)
      else if key = splitchar then
        if rest = [] then do
          let blocks ← free blocks data.value
          pure (0, node splitchar low high equal { data with value := none }, blocks)
        else do
          let (rc, equal, blocks) ← delete equal rest
          pure (rc, node splitchar low high equal data, blocks)
      else do
        let (rc, high, blocks) ← delete high (key :: rest)
        pure (rc, node splitchar low high equal data, blocks)

end Delete

/-! ## Delimiter insertion

The recursion is the same, with blocks that are not cleared. Beside the tree it has the list of '/'
nodes that it has passed, and it counts at the last of these when it makes a new '/' node or a new
value. -/

/-- What a block holds when malloc hands it out. -/
structure Block (ν : Type) where
  low : TSTree ν
  high : TSTree ν
  equal : TSTree ν
  stat : Option Stats
  value : Option ν

/-- A block of zero bytes. -/
def Block.zero : Block ν :=
  { low := nil, high := nil, equal := nil, stat := none, value := none }

/-- The contents of the blocks malloc hands out, in the order it hands them out. -/
abbrev Malloc (ν : Type) := Nat → Block ν

def zeroFilled : Malloc ν := fun _ => Block.zero

/-- What one delimiter insertion keeps besides the tree: the `List` of '/' nodes it has passed,
the nodes whose `stat->n` it has incremented so far, and how many blocks malloc has handed out. -/
structure InsertState where
  list : List Route
  counted : List Route
  blocks : Nat
  deriving DecidableEq

namespace InsertState

/-- `List_push(list, node)` -/
def push (s : InsertState) (node : Route) : InsertState :=
  { s with list := s.list ++ [node] }

/-- `xxx = List_last(list); if (xxx != NULL) xxx->stat->n += 1`. The node is an ancestor that the
recursion still holds, so the increment is noted here and carried out when the tree is back
together; no step of the insertion reads `n`. -/
def countLast (s : InsertState) : InsertState :=
  { s with counted := s.counted ++ s.list.getLast?.toList }

end InsertState

/-- The part of `TSTree_delim_insert_base` that moves along `low` and `high`; `matched` is what it
does at the node whose `splitchar` is `*key`. -/
def delimInsertLevel (malloc : Malloc ν) (key : CChar)
    (matched : CChar → TSTree ν → TSTree ν → TSTree ν → Cell ν → Route → InsertState →
      Except Fault (TSTree ν × InsertState)) :
    TSTree ν → Route → InsertState → Except Fault (TSTree ν × InsertState)
  | nil, here, s =>
      let block := malloc s.blocks
      let s := { s with blocks := s.blocks + 1 }
      if key = delim then
        -- a new '/' node gets a Stats, is counted by the last '/' node, and joins the list
        matched key block.low block.high block.equal ⟨some Stats.create, block.value⟩ here
          (s.countLast.push here)
      else
        matched key block.low block.high block.equal ⟨block.stat, block.value⟩ here s
  | dead, _, _ => throw .useAfterFree
  | node splitchar low high equal data, here, s =>
      let s := if splitchar = delim then s.push here else s
      if key > splitchar then do
        let (high, s) ← delimInsertLevel malloc key matched high (here ++ [.high]) s
        pure (node splitchar low high equal data, s)
      else if key = splitchar then
        matched splitchar low high equal data here s
      else do
        let (low, s) ← delimInsertLevel malloc key matched low (here ++ [.low]) s
        pure (node splitchar low high equal data, s)

def delimInsertBase (malloc : Malloc ν) :
    List CChar → ν → TSTree ν → Route → InsertState → Except Fault (TSTree ν × InsertState)
  | [], _, root, _, s => pure (root, s)
  | key :: rest, value, root, here, s =>
      delimInsertLevel malloc key
        (fun splitchar low high equal data here s =>
          if rest ≠ [] then do
            let (equal, s) ← delimInsertBase malloc rest value equal (here ++ [.equal]) s
            pure (node splitchar low high equal data, s)
          else if data.value = none then
            pure (node splitchar low high equal ⟨some Stats.create, some value⟩, s.countLast)
          else
            -- "duplicate insert into tst"
            pure (node splitchar low high equal data, s))
        root here s

/-- `node->stat->n += d` -/
def addCount (d : UInt64) (root : TSTree ν) (node : Route) : Except Fault (TSTree ν) :=
  match (root.follow node).data? with
  | some ⟨some stat, _⟩ =>
      pure (root.modify (fun c => { c with stat := some { stat with n := stat.n + d } }) node)
  | some ⟨none, _⟩ => throw .nullDeref
  | none => throw .useAfterFree

/-- `TSTree_delim_insert` from the `blocks`-th block of malloc on. With `len = 0` the key read is
the NUL that ends the string. -/
def delimInsert (malloc : Malloc ν) (blocks : Nat) (root : TSTree ν) (key : List CChar) (value : ν) :
    Except Fault (TSTree ν × Nat) := do
  let key := if key = [] then [0] else key
  let (root, s) ← delimInsertBase malloc key value root [] ⟨[], [], blocks⟩
  let root ← s.counted.foldlM (addCount 1) root
  pure (root, s.blocks)

/-! ## Walks that collect the '/' nodes

Two functions have this loop. It ends with a list of pointers, of which the caller takes the last one
for the node it was looking for. -/

/-- The loop of `TSTree_delim_search` and of `TSTree_delete_all_subnodes`: the pointer it stops
at, the route of that pointer, and the list of '/' nodes at which a character matched. -/
def delimWalk : TSTree ν → Route → List Route → List CChar →
    Except Fault (TSTree ν × Route × List Route)
  | root, here, list, [] => pure (root, here, list)
  | nil, here, list, _ :: _ => pure (nil, here, list)
  | dead, _, _, _ :: _ => throw .useAfterFree
  | node splitchar low high equal data, here, list, key :: rest =>
      if key < splitchar then delimWalk low (here ++ [.low]) list (key :: rest)
      else if key = splitchar then
        let list := if splitchar = delim then list ++ [here] else list
        if rest ≠ [] then delimWalk equal (here ++ [.equal]) list rest
        else pure (node splitchar low high equal data, here, list)
      else delimWalk high (here ++ [.high]) list (key :: rest)

def delimSearch (root : TSTree ν) (list : List Route) (key : List CChar) :
    Except Fault (Option ν × List Route) := do
  let (found, here, list) ← delimWalk root [] list key
  match found with
  | node splitchar _ _ _ data =>
      pure (data.value, if splitchar ≠ delim then list ++ [here] else list)
  | nil => pure (none, list)
  | dead => throw .useAfterFree

/-! ## Re-tracing the means along a path

The two loops of `update_tracer` go down the list and up again, and stop at a node without a record. -/

/-- `((TSTree*) node->value)->stat` -/
def statAt (root : TSTree ν) (node : Route) : Except Fault (Option Stats) :=
  match (root.follow node).data? with
  | some c => pure c.stat
  | none => throw .useAfterFree

/-- `((TSTree*) node->value)->stat = stat`, also used for assignments to fields of `*stat`. -/
def setStat (root : TSTree ν) (node : Route) (stat : Stats) : TSTree ν :=
  root.modify (fun c => { c with stat := some stat }) node

def subMean (stat : Stats) (old_mean : ℚ) : Stats :=
  { stat with sum := stat.sum - old_mean, sumsq := stat.sumsq - old_mean * old_mean }

def addMean (stat : Stats) (new_mean : ℚ) : Stats :=
  { stat with sum := stat.sum + new_mean, sumsq := stat.sumsq + new_mean * new_mean }

/-- The loop of `update_tracer` from the first node of the list to the last: every node gives up
the old mean of the next one. -/
def traceDown (root : TSTree ν) : List Route → Except Fault (TSTree ν)
  | cur :: next :: rest => do
      match ← statAt root cur, ← statAt root next with
      | some value1, some value2 =>
          traceDown (setStat root cur (subMean value1 value2.meanOrZero)) (next :: rest)
      | _, _ => pure root
  | _ => pure root

/-- The loop of `update_tracer` from the last node of the list to the first, which is why the
list is taken in reverse: every node hands its new mean to the one before it. -/
def traceUp (root : TSTree ν) : List Route → Except Fault (TSTree ν)
  | cur :: prev :: rest => do
      match ← statAt root cur, ← statAt root prev with
      | some value1, some value2 =>
          traceUp (setStat root prev (addMean value2 value1.meanOrZero)) (prev :: rest)
      | _, _ => pure root
  | _ => pure root

def updateTracer (root : TSTree ν) (list : List Route) (new_stat : Stats) :
    Except Fault (Int × TSTree ν) :=
  match list.getLast? with
  | none => pure (-1, root)
  | some list_last => do
      let root ← traceDown root list
      let root := setStat root list_last new_stat
      let root ← traceUp root list.reverse
      pure (0, root)

/-! ## Deletion with its subtree

A '/' node is freed with all that is below it. Any other node only gives up its value, or what it has
for one. -/

/-- `TSTree_destroy`: it frees every node it can reach, so only whether it meets a freed node
matters to the rest of the model. -/
def destroy : TSTree ν → Except Fault Unit
  | nil => pure ()
  | dead => throw .useAfterFree
  | node _ low high equal _ => do
      destroy low
      destroy equal
      destroy high

/-- `cur_last = (list->last->prev != NULL) ? list->last->prev->value : NULL;`
`if (cur_last != NULL) cur_last->stat->n -= 1` -/
def uncountPrev (root : TSTree ν) (list : List Route) : Except Fault (TSTree ν) :=
  match list.reverse with
  | [] => throw .nullDeref
  | [_] => pure root
  | _ :: cur_last :: _ => addCount (-1) root cur_last

def deleteAllSubnodes (root : TSTree ν) (key : List CChar) : Except Fault (Int × TSTree ν) := do
  let (found, here, list) ← delimWalk root [] [] key
  match found with
  | nil => pure (-1, root)
  | dead => throw .useAfterFree
  | node splitchar _ _ equal _ =>
      if splitchar = delim then do
        let (_, root) ← updateTracer root list Stats.create
        let root ← uncountPrev root list
        destroy equal
        -- the node is freed, but whoever links to it still does
        pure (0, root.graft here dead)
      else do
        let list := list ++ [here]
        let (_, root) ← updateTracer root list Stats.create
        let root ← uncountPrev root list
        pure (0, root.modify (fun c => { c with value := none }) here)

/-! ## Traversal

The callback is called with the values in the order of the links. -/

/-- `TSTree_traverse`: the values the callback is called with, in order. -/
def traverse : TSTree ν → Except Fault (List ν)
  | nil => pure []
  | dead => throw .useAfterFree
  | node _ low high equal data => do
      let low ← traverse low
      let high ← traverse high
      let equal ← traverse equal
      pure (low ++ high ++ equal ++ data.value.toList)

end TSTree

end Lcthw
