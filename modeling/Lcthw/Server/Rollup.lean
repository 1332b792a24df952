import Lcthw.Server.Deletes
import Lcthw.Server.Updates
import Lcthw.TSTree.Means

/-!
# Lcthw — counts and sums over runs of the server

A run of requests on urls that do not end in '/', from an empty server, keeps the tree regular.
Its '/' nodes hold what they should as long as every step meets a condition on the tree before it.

* **`step_create`**, **`step_delete`**, **`step_update`**: the allowed requests, by name.
* **`counts_throughout_iff`**: the counts of direct children.
* **`sums_throughout_iff`**: the sums of their means.
-/

namespace Lcthw.Server

open Ternary Ternary.Tree Paths

variable {atof : List CChar → ℚ} {s s' : State} {c u : List CChar} {ws : List (List CChar)}

/-! ## The allowed requests

The claims about a run ask for urls that do not end in '/', and for deletes and updates of urls that are
bound. On such a request the handlers come down to one operation of the tree. -/

/-- The packet that `create` makes. -/
def packet (url : List CChar) : StatsPacket :=
  { url, stats := Stats.create }

theorem getLast?_storedKey (hu : u.getLast? ≠ some delim) :
    (TSTree.storedKey u).getLast? ≠ some delim := by
  rw [TSTree.storedKey]
  split
  · decide
  · exact hu

theorem step_of_dispatch {r : Except Fault (Reply × State)} (hs : TSTree.Regular s.root)
    {cmd : List CChar} (hc : (processString c).words = cmd :: u :: ws)
    (h : dispatch (Env.zeroFilled atof) s (processString c) cmd (some u) = r) :
    step (Env.zeroFilled atof) s c = r.map (·.2) := by
  obtain ⟨hcmd, hurl⟩ := command_of_words (Env.zeroFilled atof) hc
  have habc := hs.live.walk_ne_dead (cstr "a/b/c")
  rw [step, result_processRequest, pinpoint_abc, TSTree.unlessDead_of_ne habc, hcmd, hurl, ← h]
  rfl

/-- A create of a url that does not end in '/' inserts a fresh packet. -/
theorem step_create (hs : TSTree.Regular s.root)
    (hc : (processString c).words = cstr "create" :: u :: ws) (hu : u.getLast? ≠ some delim) :
    step (Env.zeroFilled atof) s c =
      .ok { root := TSTree.created s.root (TSTree.storedKey u) (packet u)
            blocks := s.blocks + (s.root.missing (TSTree.storedKey u)).length } := by
  rw [step_of_dispatch hs hc rfl, dispatch_create, createRequest, Env.zeroFilled]
  simp only [TSTree.delimInsert_created _ hs (getLast?_storedKey hu)]
  rfl

/-- The node that a bound url leads to: its own, or the root for the empty url. -/
theorem exists_key_of_bound (hs : TSTree.Regular s.root) (hb : bound s.root u) :
    ∃ key d, s.root.get? key = some d ∧ d.value.isSome ∧ parent delim key = parent delim u ∧
      (u ≠ [] → key = u) ∧ s.root.walk u = s.root.walk key ∧ s.root.route u = s.root.route key ∧
      TSTree.trail s.root u = TSTree.trail s.root key := by
  obtain ⟨pack, d, -, hd, hv⟩ := search_of_bound hb
  -- the walk for the empty url stays at the root, which is the node of one byte
  by_cases hu : u = []
  · subst hu
    cases hroot : s.root with
    | nil => simp [hroot, data?] at hd
    | dead => simp [hroot, data?] at hd
    | node k low high equal d' =>
      obtain rfl : d' = d := by simpa [hroot, walk, data?] using hd
      have hget : s.root.get? [k] = some d' := by rw [hroot, get?_self]
      have hk : k ≠ delim := by
        rintro rfl
        exact hs.getLast?_ne_of_bound hget (by simp [hv]) rfl
      refine ⟨[k], d', get?_self, by simp [hv], rfl, fun h => absurd rfl h, ?_, ?_, ?_⟩
      · rw [walk_self]
        rfl
      · rw [route_self]
        rfl
      · simp [TSTree.trail, TSTree.matched, walk, hk]
        rfl
  · rw [← s.root.get?_of_ne_nil hu] at hd
    exact ⟨u, d, hd, by simp [hv], rfl, fun _ => rfl, rfl, rfl, rfl⟩

/-- A delete of a bound url deletes the key of its node. -/
theorem step_delete (hs : TSTree.Regular s.root)
    (hc : (processString c).words = cstr "delete" :: u :: ws) (hb : bound s.root u) :
    ∃ key d, s.root.get? key = some d ∧ d.value.isSome ∧ parent delim key = parent delim u ∧
      (u ≠ [] → key = u) ∧
      step (Env.zeroFilled atof) s c = .ok { s with root := TSTree.deleted s.root key } := by
  obtain ⟨key, d, hd, hv, hparent, hu, hwalk, hroute, htrail⟩ := exists_key_of_bound hs hb
  refine ⟨key, d, hd, hv, hparent, hu, ?_⟩
  have hall : TSTree.deleteAllSubnodes s.root u = TSTree.deleteAllSubnodes s.root key := by
    obtain ⟨k, low, high, equal, hw⟩ := walk_of_get? hd
    rw [TSTree.deleteAllSubnodes_node hw, TSTree.deleteAllSubnodes_node (hwalk.trans hw), hroute,
      htrail]
  rw [step_of_dispatch hs hc rfl, dispatch_delete, deleteRequest, Option.getD_some, hall,
    TSTree.deleteAllSubnodes_deleted hs hd hv]
  rfl

/-- An update of a bound url samples into the record of its node, when the loop over the words ends. -/
theorem step_update (hs : TSTree.Regular s.root)
    (hc : (processString c).words = cstr "update" :: u :: ws) (hb : bound s.root u)
    (h : step (Env.zeroFilled atof) s c = .ok s') :
    ∃ key d new, s.root.get? key = some d ∧ d.value.isSome ∧
      s' = { s with root := TSTree.retrace new (dirs delim key ++ [key]) s.root } := by
  obtain ⟨key, d, hd, hv, -, -, hwalk, -, htrail⟩ := exists_key_of_bound hs hb
  obtain ⟨st, hst⟩ := Option.isSome_iff_exists.mp ((hs.cells.get? hd).stat_of_bound hv)
  obtain ⟨k, low, high, equal, hw⟩ := walk_of_get? hd
  rw [step_of_dispatch hs hc rfl, dispatch_update, map_eq_ok] at h
  obtain ⟨r, hr, rfl⟩ := h
  obtain ⟨⟨rs, root⟩, hup, rfl⟩ := map_eq_ok.mp hr
  obtain ⟨stat, v⟩ := d
  obtain rfl : stat = some st := hst
  rw [updateRequest_node (hwalk.trans hw), Option.getD_some, htrail] at hup
  obtain ⟨new, -, hup⟩ := bind_eq_ok.mp hup
  rw [TSTree.trail_eq (by simp [hd]) (hs.getLast?_ne_of_bound hd hv),
    TSTree.updateTracer_eq new (hs.isSome_statFor_of_bound hd hv), ok_bind, map_eq_ok] at hup
  obtain ⟨x, -, hroot⟩ := hup
  obtain ⟨-, rfl⟩ := Prod.mk.inj hroot
  exact ⟨key, _, new, hd, hv, rfl⟩

/-! ## Counts

A create of a new url adds one to the last '/' node that its walk passes, which need not be the last
directory of the url. A delete takes one off the right node, so it has nothing to find. -/

/-- A create for a url that does not end in '/', or a delete of a bound one. -/
def CreatesOrDeletes (s : State) (c : List CChar) : Prop :=
  ∃ u ws, u.getLast? ≠ some delim ∧
    ((processString c).words = cstr "create" :: u :: ws ∨
      (processString c).words = cstr "delete" :: u :: ws ∧ bound s.root u)

/-- What a create has to find: the url is bound already, or the last '/' node that the walk of the
insertion passes is the last directory of the url that exists, and its counter has room. -/
def KeepsCounts (s : State) (c : List CChar) : Prop :=
  ∀ u ws, (processString c).words = cstr "create" :: u :: ws →
    (TSTree.valueAt s.root (TSTree.storedKey u)).isSome ∨
      TSTree.credited s.root (TSTree.storedKey u) =
          (TSTree.existing s.root (TSTree.storedKey u)).getLast? ∧
        ∀ x st, TSTree.credited s.root (TSTree.storedKey u) = some x →
          TSTree.statFor s.root x = some st → st.n + 1 ≠ 0

/-- The allowed requests keep the tree regular. -/
theorem regular_step_createsOrDeletes (hs : TSTree.Regular s.root) (ha : CreatesOrDeletes s c) :
    ∃ s', step (Env.zeroFilled atof) s c = .ok s' ∧ TSTree.Regular s'.root := by
  obtain ⟨u, ws, hu, hc | ⟨hc, hb⟩⟩ := ha
  · exact ⟨_, step_create hs hc hu, hs.created _ (getLast?_storedKey hu)⟩
  · obtain ⟨key, d, -, -, -, -, hstep⟩ := step_delete hs hc hb
    exact ⟨_, hstep, hs.deleted key⟩

theorem keepsCounts_of_words {cmd : List CChar} (hc : (processString c).words = cmd :: u :: ws)
    (hcmd : cmd ≠ cstr "create") : KeepsCounts s c := by
  intro u' ws' hc'
  rw [hc] at hc'
  exact absurd (List.cons.inj hc').1 hcmd

/-- One step keeps the counts right exactly under its condition. -/
theorem countsChildren_step_iff (hs : TSTree.Regular s.root)
    (hcounts : TSTree.CountsChildren s.root) (ha : CreatesOrDeletes s c)
    (h : step (Env.zeroFilled atof) s c = .ok s') :
    TSTree.CountsChildren s'.root ↔ KeepsCounts s c := by
  obtain ⟨u, ws, hu, hc | ⟨hc, hb⟩⟩ := ha
  · rw [step_create hs hc hu] at h
    obtain rfl := Except.ok.inj h
    rw [TSTree.countsChildren_created_iff (packet u) hs hcounts (TSTree.storedKey_ne_nil u)
      (getLast?_storedKey hu)]
    constructor
    · intro hkeeps u' ws' hc'
      obtain ⟨rfl, -⟩ := List.cons.inj (List.cons.inj (hc.symm.trans hc')).2
      exact hkeeps
    · intro hkeeps
      exact hkeeps u ws hc
  · obtain ⟨key, d, hd, hv, -, -, hstep⟩ := step_delete hs hc hb
    rw [hstep] at h
    obtain rfl := Except.ok.inj h
    exact iff_of_true (TSTree.countsChildren_deleted hs hcounts hd hv)
      (keepsCounts_of_words hc (by decide))

/-- **When the counts stay right.** In a run of creates and deletes from an empty server, every
'/' node counts its direct children in every state exactly as long as every create finds what it
has to. -/
theorem counts_throughout_iff (atof : List CChar → ℚ) {cs : List (List CChar)}
    (ha : Run.Along (step (Env.zeroFilled atof)) CreatesOrDeletes init cs) :
    Run.Throughout (step (Env.zeroFilled atof)) (fun s => TSTree.CountsChildren s.root) init cs ↔
      Run.Along (step (Env.zeroFilled atof)) KeepsCounts init cs := by
  refine Run.throughout_iff_along (I := fun s : State => TSTree.Regular s.root) ?_ ?_ ?_
    (show TSTree.Regular init.root from TSTree.regular_nil) TSTree.countsChildren_nil ha
  · intro s c s' hs hac h
    obtain ⟨s'', hs'', hregular⟩ := regular_step_createsOrDeletes hs hac
    obtain rfl := Except.ok.inj (hs''.symm.trans h)
    exact hregular
  · intro s c s' hs hcounts hac h
    exact countsChildren_step_iff hs hcounts hac h
  · intro s c e hs _ hac h
    obtain ⟨s', hs', -⟩ := regular_step_createsOrDeletes hs hac
    rw [hs'] at h
    cases h

theorem createsOrDeletes_creates (s : State) {c u : List CChar} (hu : u.getLast? ≠ some delim)
    (hc : (processString c).words = [cstr "create", u]) : CreatesOrDeletes s c :=
  ⟨u, [], hu, Or.inl hc⟩

theorem counts_throughout_iff_ab :
    Run.Throughout (step (Env.zeroFilled digit)) (fun s => TSTree.CountsChildren s.root) init
        [cstr "create a/b", cstr "create a/c"] ↔
      Run.Along (step (Env.zeroFilled digit)) KeepsCounts init
        [cstr "create a/b", cstr "create a/c"] :=
  counts_throughout_iff digit
    ⟨createsOrDeletes_creates init (show (cstr "a/b").getLast? ≠ some delim by decide) (by decide),
      fun s _ => ⟨createsOrDeletes_creates s
        (show (cstr "a/c").getLast? ≠ some delim by decide) (by decide), fun _ _ => trivial⟩⟩

/-- The walk of `ab` passes the node of `a/`, which then counts two children and has one. -/
theorem sibling_counted_as_child :
    Run.Along (step (Env.zeroFilled digit)) CreatesOrDeletes init
        [cstr "create a/x", cstr "create ab"] ∧
      ¬ Run.Throughout (step (Env.zeroFilled digit)) (fun s => TSTree.CountsChildren s.root) init
        [cstr "create a/x", cstr "create ab"] := by
  refine ⟨⟨createsOrDeletes_creates init (show (cstr "a/x").getLast? ≠ some delim by decide)
    (by decide), fun s _ => ⟨createsOrDeletes_creates s
      (show (cstr "ab").getLast? ≠ some delim by decide) (by decide), fun _ _ => trivial⟩⟩, ?_⟩
  intro h
  have hcounts := h.last (show Run.run _ init [cstr "create a/x", cstr "create ab"] = .ok _ from rfl)
  obtain ⟨st, hst, hn⟩ := hcounts (cstr "a/") _ (mem_entries_of_get? rfl) (by decide)
  rw [← Option.some.inj hst] at hn
  exact absurd hn (by decide +kernel)

/-! ## Sums

A create and a delete change the count of a directory, and with it a mean that the directory above has
in its sum. An update puts every sum on its way right, so it has nothing to find. -/

/-- A create for a url that does not end in '/', or an update or a delete of a bound one. -/
def CreatesUpdatesDeletes (s : State) (c : List CChar) : Prop :=
  ∃ u ws, u.getLast? ≠ some delim ∧
    ((processString c).words = cstr "create" :: u :: ws ∨
      (processString c).words = cstr "update" :: u :: ws ∧ bound s.root u ∨
      (processString c).words = cstr "delete" :: u :: ws ∧ bound s.root u)

/-- What a step has to find. A create of an unbound url: the last '/' node that the walk of the
insertion passes, if there is one, lies in no other directory or holds a zero sum. A delete: the
directory of the url, if there is one, lies in no other directory or holds no more than the mean of
the url. -/
def KeepsSums (s : State) (c : List CChar) : Prop :=
  (∀ u ws, (processString c).words = cstr "create" :: u :: ws →
    (TSTree.valueAt s.root (TSTree.storedKey u)).isSome ∨
      ∀ x st, TSTree.credited s.root (TSTree.storedKey u) = some x → (parent delim x).isSome →
        TSTree.statFor s.root x = some st → st.sum = 0) ∧
  (∀ u ws, (processString c).words = cstr "delete" :: u :: ws →
    ∀ m st, parent delim u = some m → (parent delim m).isSome →
      TSTree.statFor s.root m = some st → st.sum = TSTree.meanAt s.root u)

theorem keepsSums_of_words {cmd : List CChar} (hc : (processString c).words = cmd :: u :: ws)
    (hcreate : cmd ≠ cstr "create") (hdelete : cmd ≠ cstr "delete") : KeepsSums s c := by
  constructor
  · intro u' ws' hc'
    rw [hc] at hc'
    exact absurd (List.cons.inj hc').1 hcreate
  · intro u' ws' hc'
    rw [hc] at hc'
    exact absurd (List.cons.inj hc').1 hdelete

theorem keepsSums_create_iff (hc : (processString c).words = cstr "create" :: u :: ws) :
    KeepsSums s c ↔ (TSTree.valueAt s.root (TSTree.storedKey u)).isSome ∨
      ∀ x st, TSTree.credited s.root (TSTree.storedKey u) = some x → (parent delim x).isSome →
        TSTree.statFor s.root x = some st → st.sum = 0 := by
  refine ⟨fun h => h.1 u ws hc, fun h => ⟨?_, ?_⟩⟩
  · intro u' ws' hc'
    obtain ⟨rfl, -⟩ := List.cons.inj (List.cons.inj (hc.symm.trans hc')).2
    exact h
  · intro u' ws' hc'
    have hcmd := (List.cons.inj (hc.symm.trans hc')).1
    exact absurd hcmd (by decide)

theorem keepsSums_delete_iff (hc : (processString c).words = cstr "delete" :: u :: ws) :
    KeepsSums s c ↔ ∀ m st, parent delim u = some m → (parent delim m).isSome →
      TSTree.statFor s.root m = some st → st.sum = TSTree.meanAt s.root u := by
  refine ⟨fun h => h.2 u ws hc, fun h => ⟨?_, ?_⟩⟩
  · intro u' ws' hc'
    have hcmd := (List.cons.inj (hc.symm.trans hc')).1
    exact absurd hcmd (by decide)
  · intro u' ws' hc'
    obtain ⟨rfl, -⟩ := List.cons.inj (List.cons.inj (hc.symm.trans hc')).2
    exact h

/-- One step keeps the tree regular, and the sums right exactly under its condition. -/
theorem rollsUp_step_iff (hs : TSTree.Regular s.root) (hsums : TSTree.RollsUp s.root)
    (ha : CreatesUpdatesDeletes s c) (h : step (Env.zeroFilled atof) s c = .ok s') :
    TSTree.RollsUp s'.root ↔ KeepsSums s c := by
  obtain ⟨u, ws, hu, hc | ⟨hc, hb⟩ | ⟨hc, hb⟩⟩ := ha
  · rw [step_create hs hc hu] at h
    obtain rfl := Except.ok.inj h
    rw [keepsSums_create_iff hc]
    exact TSTree.rollsUp_created_iff (packet u) hs hsums (TSTree.storedKey_ne_nil u)
      (getLast?_storedKey hu)
  · obtain ⟨key, d, new, hd, hv, rfl⟩ := step_update hs hc hb h
    exact iff_of_true (TSTree.rollsUp_retrace hs.recorded hsums hd hv (hs.getLast?_ne_of_bound hd hv) new)
      (keepsSums_of_words hc (by decide) (by decide))
  · obtain ⟨key, d, hd, hv, hparent, hkey, hstep⟩ := step_delete hs hc hb
    rw [hstep] at h
    obtain rfl := Except.ok.inj h
    rw [keepsSums_delete_iff hc, TSTree.rollsUp_deleted_iff hs hsums hd hv, hparent]
    -- the empty url has no directory, every other one names its own node
    by_cases hu' : u = []
    · simp [hu', parent]
    · rw [hkey hu']

theorem regular_step (hs : TSTree.Regular s.root) (ha : CreatesUpdatesDeletes s c)
    (h : step (Env.zeroFilled atof) s c = .ok s') : TSTree.Regular s'.root := by
  obtain ⟨u, ws, hu, hc | ⟨hc, hb⟩ | ⟨hc, hb⟩⟩ := ha
  · rw [step_create hs hc hu] at h
    obtain rfl := Except.ok.inj h
    exact hs.created _ (getLast?_storedKey hu)
  · obtain ⟨key, d, new, -, -, rfl⟩ := step_update hs hc hb h
    exact hs.retrace new _
  · obtain ⟨key, d, -, -, -, -, hstep⟩ := step_delete hs hc hb
    rw [hstep] at h
    obtain rfl := Except.ok.inj h
    exact hs.deleted key

/-- Only an update can fault, and an update has nothing to find. -/
theorem keepsSums_of_fault {e : Fault} (hs : TSTree.Regular s.root)
    (ha : CreatesUpdatesDeletes s c) (h : step (Env.zeroFilled atof) s c = .error e) :
    KeepsSums s c := by
  obtain ⟨u, ws, hu, hc | ⟨hc, hb⟩ | ⟨hc, hb⟩⟩ := ha
  · rw [step_create hs hc hu] at h
    cases h
  · exact keepsSums_of_words hc (by decide) (by decide)
  · obtain ⟨key, d, -, -, -, -, hstep⟩ := step_delete hs hc hb
    rw [hstep] at h
    cases h

/-- **When the sums stay right.** In a run of creates, updates and deletes from an empty server,
every '/' node holds the sums of its direct children's means and of their squares, in every state,
exactly as long as every step finds what it has to. -/
theorem sums_throughout_iff (atof : List CChar → ℚ) {cs : List (List CChar)}
    (ha : Run.Along (step (Env.zeroFilled atof)) CreatesUpdatesDeletes init cs) :
    Run.Throughout (step (Env.zeroFilled atof)) (fun s => TSTree.RollsUp s.root) init cs ↔
      Run.Along (step (Env.zeroFilled atof)) KeepsSums init cs :=
  Run.throughout_iff_along (I := fun s : State => TSTree.Regular s.root)
    (fun _ _ _ hs hac h => regular_step hs hac h)
    (fun _ _ _ hs hsums hac h => rollsUp_step_iff hs hsums hac h)
    (fun _ _ _ hs _ hac h => keepsSums_of_fault hs hac h)
    (show TSTree.Regular init.root from TSTree.regular_nil) TSTree.rollsUp_nil ha

theorem sums_throughout_iff_abc :
    Run.Throughout (step (Env.zeroFilled digit)) (fun s => TSTree.RollsUp s.root) init
        [cstr "create a/b/c", cstr "update a/b/c 4", cstr "delete a/b/c"] ↔
      Run.Along (step (Env.zeroFilled digit)) KeepsSums init
        [cstr "create a/b/c", cstr "update a/b/c 4", cstr "delete a/b/c"] := by
  refine sums_throughout_iff digit ⟨⟨cstr "a/b/c", [], by decide, Or.inl (by decide)⟩, ?_⟩
  intro s hs
  obtain rfl := Except.ok.inj hs
  refine ⟨⟨cstr "a/b/c", [cstr "4"], by decide, Or.inr (Or.inl ⟨by decide, by decide⟩)⟩, ?_⟩
  intro s hs
  obtain rfl := Except.ok.inj hs
  exact ⟨⟨cstr "a/b/c", [], by decide, Or.inr (Or.inr ⟨by decide, by decide +kernel⟩)⟩,
    fun _ _ => trivial⟩

/-- `a/b/` counts a second child and its mean falls from 4 to 2; `a/` still holds 4. -/
theorem created_child_not_rolled_up :
    Run.Along (step (Env.zeroFilled digit)) CreatesUpdatesDeletes init
        [cstr "create a/b/c", cstr "update a/b/c 4", cstr "create a/b/d"] ∧
      ¬ Run.Throughout (step (Env.zeroFilled digit)) (fun s => TSTree.RollsUp s.root) init
        [cstr "create a/b/c", cstr "update a/b/c 4", cstr "create a/b/d"] := by
  refine ⟨⟨⟨cstr "a/b/c", [], by decide, Or.inl (by decide)⟩, ?_⟩, fun h => ?_⟩
  · intro s hs
    obtain rfl := Except.ok.inj hs
    exact ⟨⟨cstr "a/b/c", [cstr "4"], by decide, Or.inr (Or.inl ⟨by decide, by decide⟩)⟩,
      fun _ _ => ⟨⟨cstr "a/b/d", [], by decide, Or.inl (by decide)⟩, fun _ _ => trivial⟩⟩
  · have hsums := h.last (show Run.run _ init
      [cstr "create a/b/c", cstr "update a/b/c 4", cstr "create a/b/d"] = .ok _ from rfl)
    obtain ⟨st, hst, hsum, -⟩ := hsums (cstr "a/") _ (mem_entries_of_get? rfl) (by decide)
    rw [← Option.some.inj hst] at hsum
    exact absurd hsum (by decide +kernel)

end Lcthw.Server
