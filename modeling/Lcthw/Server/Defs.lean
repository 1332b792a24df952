import Lcthw.TSTree.Defs
import Lcthw.Traced

/-!
# Lcthw — the statistics server (`proc_request.c`)

A request is the bytes of a C string. `processString` trims it and splits it into words, and
`processRequest` dispatches on the first one. The model is of the default build, in which the
arguments of `debug` are evaluated: a request walks to `a/b/c` first and looks at two words before
it dispatches, and an update looks at the sum of `a/b/` at its end.

Every read of `list->entry[i]` and every number sampled is an `Event`. `entry` is not terminated:
behind the words it has slots that `bsplit` allocated and did not write.
-/

namespace Lcthw.Server

open Ternary Ternary.Tree

/-! ## Words -/

/-- `isspace` on the bytes of a `bstring`, in the C locale. -/
def isspace (c : CChar) : Bool :=
  c = 32 ∨ 9 ≤ c ∧ c ≤ 13

def btrimws (b : List CChar) : List CChar :=
  trim isspace b

/-- A `struct bstrList`: `qty` words in an array of `mlen` slots. -/
structure BstrList where
  words : List (List CChar)
  mlen : ℕ

def BstrList.qty (l : BstrList) : ℕ :=
  l.words.length

/-- `bscb`: a full array is doubled before the next word goes in. `qty` never exceeds `mlen`, so
one doubling is enough for the loop of the source. -/
def bscb (l : BstrList) (word : List CChar) : BstrList :=
  { words := l.words ++ [word]
    mlen := if l.qty ≥ l.mlen then l.mlen * 2 else l.mlen }

def bsplit (b : List CChar) (splitChar : CChar) : BstrList :=
  (b.splitOn splitChar).foldl bscb { words := [], mlen := 4 }

/-- `process_string`; the C string ends at its first NUL. -/
def processString (string : List CChar) : BstrList :=
  bsplit (btrimws (string.takeWhile (· ≠ 0))) 32

/-! ## Requests -/

structure StatsPacket where
  url : List CChar
  stats : Stats
  deriving DecidableEq

/-- What a run depends on besides the requests: the library's `atof`, what is in the slots behind
the last word (NULL or some `bstring`), and what malloc hands out for tree nodes. -/
structure Env where
  atof : List CChar → ℚ
  slack : ℕ → Option (List CChar)
  malloc : TSTree.Malloc StatsPacket

/-- Memory that malloc hands out is zero-filled. -/
def Env.zeroFilled (atof : List CChar → ℚ) : Env :=
  { atof, slack := fun _ => none, malloc := TSTree.zeroFilled }

inductive Event where
  /-- `list->entry[i]` is read -/
  | entry (i : ℕ)
  /-- `Stats_sample` takes the number of this word -/
  | sample (word : List CChar)
  deriving DecidableEq

abbrev RequestM := Traced Fault Event

inductive Reply where
  | text (s : String)
  /-- the line `read` prints about a record -/
  | dump (stats : Stats)
  | listing (bytes : List CChar)
  deriving DecidableEq

/-- The root the server holds, and how many tree nodes it has allocated. -/
structure State where
  root : TSTree StatsPacket
  blocks : ℕ
  deriving DecidableEq

def init : State :=
  { root := nil, blocks := 0 }

/-- The array behind `list->entry`. -/
def BstrList.slots (l : BstrList) (env : Env) : List (Option (List CChar)) :=
  l.words.map some ++ (List.range' l.qty (l.mlen - l.qty)).map env.slack

/-- `list->entry[i]` -/
def BstrList.entry (l : BstrList) (env : Env) (i : ℕ) : RequestM (Option (List CChar)) := do
  Traced.emit (.entry i)
  match (l.slots env)[i]? with
  | some slot => pure slot
  | none => Traced.lift (.error .outOfBounds)

def createRequest (env : Env) (s : State) (url : Option (List CChar)) : Except Fault State :=
  match url with
  -- "no key to insert"
  | none => pure s
  | some key => do
      let pack : StatsPacket := { url := key, stats := Stats.create }
      let (root, blocks) ← TSTree.delimInsert env.malloc s.blocks s.root key pack
      pure { root, blocks }

def readRequest (root : TSTree StatsPacket) (url : Option (List CChar)) : Except Fault Reply := do
  match ← TSTree.search root (url.getD []) with
  | some pack => pure (.dump pack.stats)
  | none => pure (.text "no such statistic\n")

/-- The loop of `update_request` from the slot `i` on: it stops at a NULL slot. -/
def sampleEntries (env : Env) : ℕ → List (Option (List CChar)) → Stats → RequestM Stats
  | i, [], _ => do
      Traced.emit (.entry i)
      Traced.lift (.error .outOfBounds)
  | i, none :: _, st => do
      Traced.emit (.entry i)
      pure st
  | i, some word :: rest, st => do
      Traced.emit (.entry i)
      Traced.emit (.sample word)
      sampleEntries env (i + 1) rest (st.sample (env.atof word))

/-- `TSTree_pinpoint(root, key, len)->stat->sum` -/
def sumAt (root : TSTree StatsPacket) (key : List CChar) : Except Fault ℚ := do
  match ← TSTree.pinpoint root key with
  | node _ _ _ _ ⟨some stat, _⟩ => pure stat.sum
  | node _ _ _ _ ⟨none, _⟩ => throw .nullDeref
  | nil => throw .nullDeref
  | dead => throw .useAfterFree

def updateRequest (env : Env) (root : TSTree StatsPacket) (url : Option (List CChar))
    (list : BstrList) : RequestM (Reply × TSTree StatsPacket) := do
  let key := url.getD []
  let (_, delim_list) ← TSTree.delimSearch root [] key
  match ← TSTree.pinpoint root key with
  | nil => pure (.text "no such statistic", root)
  | dead => Traced.lift (.error .useAfterFree)
  | node _ _ _ _ ⟨none, _⟩ => Traced.lift (.error .nullDeref)
  | node _ _ _ _ ⟨some stat, _⟩ =>
      let temp_stat ← sampleEntries env 2 ((list.slots env).drop 2) stat
      let (me, root) ← TSTree.updateTracer root delim_list temp_stat
      let _ ← sumAt root (cstr "a/b/")
      -- `List_destroy(list)` is handed the words; it frees the array and keeps the tree
      if me ≠ 0 then pure (.text "error updating\n", root) else pure (.text "ok\n", root)

def deleteRequest (root : TSTree StatsPacket) (url : Option (List CChar)) :
    Except Fault (Reply × TSTree StatsPacket) := do
  let (rc, root) ← TSTree.deleteAllSubnodes root (url.getD [])
  pure (.text (if rc = 0 then "deleted\n" else "no such statistic\n"), root)

/-- `add_string`: the line of one packet behind what is written already. It ends with a NUL that
the next line overwrites. -/
def addString (list : List CChar) (pack : StatsPacket) : Except Fault (List CChar) :=
  let list := list ++ pack.url ++ [10]
  if list.length + 1 ≤ 1024 * 1024 then pure list else throw .outOfBounds

def listRequest (root : TSTree StatsPacket) : Except Fault Reply := do
  let packs ← TSTree.traverse root
  let list ← packs.foldlM addString []
  pure (.listing list)

def processRequest (env : Env) (s : State) (commands : Option (List CChar)) :
    RequestM (Reply × State) := do
  let _ ← TSTree.pinpoint s.root (cstr "a/b/c")
  match commands with
  | none => pure (.text "no argument sent", s)
  | some commands =>
      let list := processString commands
      let _ ← list.entry env 0
      let _ ← list.entry env 1
      if (← list.entry env 0) = some (cstr "create") then
        let s ← createRequest env s (← list.entry env 1)
        pure (.text "create stats successfully\n", s)
      else if (← list.entry env 0) = some (cstr "read") then
        let rs ← readRequest s.root (← list.entry env 1)
        pure (rs, s)
      else if (← list.entry env 0) = some (cstr "update") then
        let (rs, root) ← updateRequest env s.root (← list.entry env 1) list
        pure (rs, { s with root })
      else if (← list.entry env 0) = some (cstr "delete") then
        let (rs, root) ← deleteRequest s.root (← list.entry env 1)
        pure (rs, { s with root })
      else if (← list.entry env 0) = some (cstr "list") then
        let rs ← listRequest s.root
        pure (rs, s)
      else
        pure (.text "wrong format\n", s)

/-- One request to the server; a fault ends it. -/
def step (env : Env) (s : State) (commands : List CChar) : Except Fault State :=
  (processRequest env s (some commands)).result.map (·.2)

end Lcthw.Server
