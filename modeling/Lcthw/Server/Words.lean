import Lcthw.Server.Spec

/-!
# Lcthw — which words a request reads

* **`events_processRequest`**: a request whose first walk does not fault reads the first two slots
  of its words, some of them again, and what `updateRequest` reads.
* **`entry_mem_events_sampleEntries`**: the loop of an update goes on to the first NULL slot, which
  is never one of the words.
* **`reads_inside_iff`**: when a request stays inside its words.
-/

namespace Lcthw.Server

open Ternary Ternary.Tree

theorem events_entry (l : BstrList) (env : Env) (i : ℕ) : (l.entry env i).events = [.entry i] := by
  rw [BstrList.entry, Traced.events_bind_ok rfl]
  cases (l.slots env)[i]? <;> rfl

/-- What `process_request` reads after its first three reads, `update` being what the handler of
an update reads. -/
def dispatchEvents (command : List CChar) (update : List Event) : List Event :=
  if command = cstr "create" then [.entry 1]
  else .entry 0 ::
    if command = cstr "read" then [.entry 1]
    else .entry 0 ::
      if command = cstr "update" then .entry 1 :: update
      else .entry 0 :: if command = cstr "delete" then [.entry 1] else [.entry 0]

/-- The three reads in front of the dispatch, and then those of the handler. -/
theorem events_processRequest {env : Env} {s : State} {c : List CChar}
    (hwalk : s.root.walk (cstr "a/b/c") ≠ dead) :
    (processRequest env s (some c)).events =
      .entry 0 :: .entry 1 :: .entry 0 ::
        dispatchEvents (command c)
          (updateRequest env s.root (url env c) (processString c)).events := by
  have h0 := result_entry_zero env c
  have h1 := result_entry_one env c
  have hpin := TSTree.pinpoint_of_ne_dead hwalk
  simp only [processRequest, Traced.events_bind, Traced.result_lift, Traced.events_lift, h0, h1,
    hpin, events_entry, apply_ite Traced.events, Traced.events_pure, List.nil_append,
    List.cons_append, Option.some.injEq, dispatchEvents]
  split_ifs
  · cases createRequest env s (url env c) <;> rfl
  · cases readRequest s.root (url env c) <;> rfl
  · cases (updateRequest env s.root (url env c) (processString c)).result <;> simp
  · cases deleteRequest s.root (url env c) <;> rfl
  · cases listRequest s.root <;> rfl
  · rfl

/-- Everything a request reads: its first two slots, and what the handler of an update reads. -/
theorem mem_events_processRequest (env : Env) {s : State} (c : List CChar)
    (hwalk : s.root.walk (cstr "a/b/c") ≠ dead) (e : Event) :
    e ∈ (processRequest env s (some c)).events ↔
      e = .entry 0 ∨ e = .entry 1 ∨
        command c = cstr "update" ∧
          e ∈ (updateRequest env s.root (url env c) (processString c)).events := by
  have hcreate : cstr "create" ≠ cstr "update" := by decide
  have hread : cstr "read" ≠ cstr "update" := by decide
  rw [events_processRequest hwalk, dispatchEvents]
  generalize (updateRequest env s.root (url env c) (processString c)).events = es
  generalize command c = w at *
  split_ifs <;> grind

/-- A first walk that faults is the end of the request. -/
theorem events_processRequest_dead (env : Env) {s : State} (c : List CChar)
    (hwalk : s.root.walk (cstr "a/b/c") = dead) :
    (processRequest env s (some c)).events = [] := by
  have hpin : TSTree.pinpoint s.root (cstr "a/b/c") = .error .useAfterFree := by
    rw [pinpoint_abc, hwalk]
    rfl
  rw [processRequest, Traced.events_bind_error (e := .useAfterFree)]
  · rfl
  · exact hpin

/-! ## The loop of an update

Each turn reads a slot, and if it is not NULL the number in it is sampled. So the slot that ends the
loop has been read as well. -/

theorem events_sampleEntries_cons (env : Env) (i : ℕ) (w : List CChar)
    (rest : List (Option (List CChar))) (st : Stats) :
    (sampleEntries env i (some w :: rest) st).events =
      .entry i :: .sample w :: (sampleEntries env (i + 1) rest (st.sample (env.atof w))).events := by
  simp [sampleEntries]

/-- **The loop reads past the words.** It stops at a NULL slot, and no word is one: the slot behind
the last word is always read. -/
theorem entry_mem_events_sampleEntries (env : Env) (i : ℕ) (ws : List (List CChar))
    (rest : List (Option (List CChar))) (st : Stats) :
    .entry (i + ws.length) ∈ (sampleEntries env i (ws.map some ++ rest) st).events := by
  induction ws generalizing i st with
  | nil =>
    match rest with
    | [] => simp [sampleEntries]
    | none :: rest => simp [sampleEntries]
    | some w :: rest => simp [sampleEntries]
  | cons w ws ih =>
    have h := ih (i + 1) (st.sample (env.atof w))
    rw [show i + 1 + ws.length = i + (w :: ws).length by simp; omega] at h
    rw [List.map_cons, List.cons_append, events_sampleEntries_cons]
    exact List.mem_cons_of_mem _ (List.mem_cons_of_mem _ h)

/-- The record an update starts from. -/
def statFound (root : TSTree StatsPacket) (url : Option (List CChar)) : Option Stats :=
  (root.walk (url.getD [])).data?.bind Cell.stat

/-- An update that finds a record reads what its loop reads, and no other update reads anything. -/
theorem events_updateRequest (env : Env) (root : TSTree StatsPacket) (url : Option (List CChar))
    (list : BstrList) :
    (updateRequest env root url list).events =
      match statFound root url with
      | some st => (sampleEntries env 2 ((list.slots env).drop 2) st).events
      | none => [] := by
  have hsearch := TSTree.delimSearch_eq root (url.getD [])
  rw [statFound]
  cases hw : root.walk (url.getD []) with
  | nil =>
    have hpin := TSTree.pinpoint_of_ne_dead (show root.walk (url.getD []) ≠ dead by simp [hw])
    rw [hw] at hsearch hpin
    simp [updateRequest, hsearch, hpin, TSTree.deref, Except.map, pure, Except.pure, data?]
  | dead =>
    rw [hw] at hsearch
    simp [updateRequest, hsearch, TSTree.deref, Except.map, data?, throw, throwThe,
      MonadExceptOf.throw]
  | node c low high equal d =>
    have hpin := TSTree.pinpoint_of_ne_dead (show root.walk (url.getD []) ≠ dead by simp [hw])
    rw [hw] at hsearch hpin
    obtain ⟨stat, v⟩ := d
    cases stat with
    | none =>
      simp [updateRequest, hsearch, hpin, TSTree.deref, Except.map, pure, Except.pure, data?,
        Traced.lift]
    | some st =>
      simp [updateRequest, Traced.events_bind, hsearch, hpin, TSTree.deref, Except.map, pure,
        Except.pure, data?]
      -- nothing behind the loop is an event, wherever the handler ends
      cases (sampleEntries env 2 ((list.slots env).drop 2) st).result with
      | error e => rfl
      | ok temp =>
        cases htrace : TSTree.updateTracer root (TSTree.trail root (url.getD [])) temp with
        | error e => simp [htrace]
        | ok r =>
          cases hsum : sumAt r.2 (cstr "a/b/") with
          | error e => simp [htrace, hsum]
          | ok x => by_cases hr : r.1 = 0 <;> simp [htrace, hsum, hr]

/-- The word that an event samples. -/
def Event.sampled : Event → Option (List CChar)
  | .entry _ => none
  | .sample word => some word

/-- A request reads its words only, and the numbers it samples are those after the url. -/
structure ReadsInside (env : Env) (s : State) (c : List CChar) : Prop where
  entries : ∀ i, .entry i ∈ (processRequest env s (some c)).events → i < (processString c).qty
  samples : (processRequest env s (some c)).events.filterMap Event.sampled = [] ∨
    (processRequest env s (some c)).events.filterMap Event.sampled = (processString c).words.drop 2

/-- **When a request stays inside its words.** It has at least two of them, and it is not an update
that finds a record; or it faults before it reads any. -/
theorem reads_inside_iff (env : Env) (s : State) (c : List CChar) :
    ReadsInside env s c ↔
      s.root.walk (cstr "a/b/c") = dead ∨
        2 ≤ (processString c).qty ∧
          (command c = cstr "update" → statFound s.root (url env c) = none) := by
  by_cases hwalk : s.root.walk (cstr "a/b/c") = dead
  · have hnone := events_processRequest_dead env c hwalk
    exact iff_of_true ⟨by simp [hnone], by simp [hnone]⟩ (Or.inl hwalk)
  have hmem := mem_events_processRequest env c hwalk
  constructor
  · rintro ⟨hentries, -⟩
    have hqty : 2 ≤ (processString c).qty := hentries 1 ((hmem _).mpr (Or.inr (Or.inl rfl)))
    refine Or.inr ⟨hqty, fun hupdate => ?_⟩
    cases hst : statFound s.root (url env c) with
    | none => rfl
    | some st =>
      -- the loop reads the slot `qty`
      have hlen : (processString c).words.length = 2 + ((processString c).words.drop 2).length := by
        rw [List.length_drop]
        exact (Nat.add_sub_of_le hqty).symm
      have hslots : ((processString c).slots env).drop 2 =
          ((processString c).words.drop 2).map some ++
            (List.range' (processString c).qty
              ((processString c).mlen - (processString c).qty)).map env.slack := by
        rw [BstrList.slots, List.drop_append_of_le_length (by simpa [BstrList.qty] using hqty),
          List.map_drop]
      have hread := entry_mem_events_sampleEntries env 2 ((processString c).words.drop 2)
        ((List.range' (processString c).qty
          ((processString c).mlen - (processString c).qty)).map env.slack) st
      rw [← hslots, ← hlen] at hread
      have hlt := hentries _ ((hmem _).mpr (Or.inr (Or.inr ⟨hupdate, by
        rw [events_updateRequest, hst]
        exact hread⟩)))
      exact absurd hlt (lt_irrefl _)
  · rintro (hdead | ⟨hqty, hnone⟩)
    · exact absurd hdead hwalk
    · have hfirst : ∀ e ∈ (processRequest env s (some c)).events, e = .entry 0 ∨ e = .entry 1 := by
        intro e he
        rcases (hmem e).mp he with h | h | ⟨hupdate, h⟩
        · exact Or.inl h
        · exact Or.inr h
        · rw [events_updateRequest, hnone hupdate] at h
          simp at h
      refine ⟨fun i hi => ?_, Or.inl (List.filterMap_eq_nil_iff.mpr fun e he => ?_)⟩
      · rcases hfirst _ hi with h | h <;> cases h <;> omega
      · rcases hfirst e he with rfl | rfl <;> rfl

/-- An update of a stored url reads the slot behind its last word. -/
theorem update_reads_past_words :
    ∃ s, Run.run (step (Env.zeroFilled fun _ => 0)) init [cstr "create a/b/c"] = .ok s ∧
      (processString (cstr "update a/b/c 1")).qty = 3 ∧
      .entry 3 ∈ (processRequest (Env.zeroFilled fun _ => 0) s
        (some (cstr "update a/b/c 1"))).events :=
  ⟨_, rfl, rfl, by decide⟩

end Lcthw.Server
