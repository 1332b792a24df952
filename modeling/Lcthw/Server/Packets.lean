import Lcthw.Server.Spec

/-!
# Lcthw — the packets in the server's tree, and what `read` reports of them

A url has two records: the `Stats` of its packet, made by `create`, and the `Stats` of its node,
which `update` replaces. `read` reports the first.

* **`Sound`**: what holds of every node of a reachable tree, freed links or not.
* **`sound_run`**: every request keeps it.
* **`read_reports_iff`**: a read reports the numbers given since the url was created exactly when
  these numbers leave a record as it was created.
-/

namespace Lcthw.Server

open Ternary Ternary.Tree

/-! ## Every node of a reachable tree

The property is one of all nodes, also of those behind a freed link, and each request changes a few of
them. What a create makes has it by itself. -/

/-- A '/' node and a node with a value have a `Stats`, and a packet holds a record as
`Stats_create` makes it. -/
structure Sound (p : List CChar) (c : Cell StatsPacket) : Prop where
  dir : p.getLast? = some delim → c.stat.isSome
  bound : c.value.isSome → c.stat.isSome
  packet : ∀ pack, c.value = some pack → pack.stats = Stats.create

theorem Sound.setStat {p : List CChar} {c : Cell StatsPacket} (h : Sound p c) (st : Stats) :
    Sound p { c with stat := some st } :=
  ⟨fun _ => rfl, fun _ => rfl, h.packet⟩

theorem Sound.clear {p : List CChar} {c : Cell StatsPacket} (h : Sound p c) :
    Sound p { c with value := none } :=
  ⟨h.dir, fun hv => by simp at hv, fun _ hv => by simp at hv⟩

theorem sound_freshCell (q : List CChar) (k : CChar) : Sound (q ++ [k]) (TSTree.freshCell k) := by
  refine ⟨fun h => ?_, fun hv => by simp [TSTree.freshCell] at hv, fun _ hv => ?_⟩
  · obtain rfl : k = delim := by simpa using h
    rfl
  · simp [TSTree.freshCell] at hv

theorem Sound.bindFresh {p : List CChar} {c : Cell StatsPacket} (h : Sound p c) (url : List CChar) :
    Sound p (TSTree.bindFresh { url, stats := Stats.create } c) := by
  rw [TSTree.bindFresh]
  split
  · refine ⟨fun _ => rfl, fun _ => rfl, fun pack hpack => ?_⟩
    obtain rfl := Option.some.inj hpack
    rfl
  · exact h

section Steps

variable {atof : List CChar → ℚ} {s s' : State} {root root' : TSTree StatsPacket}
  {url : Option (List CChar)}

/-- A create stores a packet of its own url, and restates some of the '/' nodes. -/
theorem createRequest_restated {key : List CChar}
    (h : createRequest (Env.zeroFilled atof) s (some key) = .ok s') :
    TSTree.Restated (upsert TSTree.freshCell
        (TSTree.bindFresh { url := key, stats := Stats.create }) (TSTree.storedKey key) s.root)
      s'.root := by
  rw [createRequest, bind_eq_ok] at h
  obtain ⟨⟨t, blocks⟩, ht, hs'⟩ := h
  obtain rfl := Except.ok.inj hs'
  rw [Env.zeroFilled, TSTree.delimInsert_eq] at ht
  obtain ⟨_, -, ht⟩ := bind_eq_ok.mp ht
  obtain ⟨u, hu, hut⟩ := map_eq_ok.mp ht
  obtain ⟨rfl, -⟩ := Prod.mk.inj hut
  exact TSTree.foldlM_addCount_restated hu

/-- The packet of a create has a fresh record. -/
theorem sound_create (hs : s.root.Every Sound)
    (h : createRequest (Env.zeroFilled atof) s url = .ok s') : s'.root.Every Sound := by
  cases url with
  | none =>
    obtain rfl := Except.ok.inj h
    exact hs
  | some key =>
    have hup : (upsert TSTree.freshCell (TSTree.bindFresh { url := key, stats := Stats.create })
        (TSTree.storedKey key) s.root).Every Sound :=
      hs.upsert (fun _ _ hc => hc.bindFresh key) sound_freshCell _
    exact (createRequest_restated h).every (fun _ _ st hc => hc.setStat st) hup

/-- An update replaces records and no values. -/
theorem updateRequest_restated {env : Env} {list : BstrList} {rs : Reply}
    (h : (updateRequest env root url list).result = .ok (rs, root')) : TSTree.Restated root root' := by
  cases hw : root.walk (url.getD []) with
  | nil =>
    rw [updateRequest_nil hw] at h
    cases h
    exact TSTree.Restated.refl root
  | dead =>
    rw [updateRequest_dead hw] at h
    cases h
  | node c low high equal d =>
    obtain ⟨stat, v⟩ := d
    cases stat with
    | none =>
      rw [updateRequest_noStat hw] at h
      cases h
    | some st =>
      rw [updateRequest_node hw] at h
      obtain ⟨temp, -, h⟩ := bind_eq_ok.mp h
      obtain ⟨⟨me, u⟩, htrace, h⟩ := bind_eq_ok.mp h
      -- nothing but records has changed, whether the sum is read or not
      cases hsum : sumAt u (cstr "a/b/") with
      | error e => rw [hsum] at h; cases h
      | ok x =>
        rw [hsum] at h
        obtain rfl : u = root' := (Prod.mk.inj (Except.ok.inj h)).2
        obtain ⟨u', hu', hres⟩ := TSTree.updateTracer_restated root _ temp
          fun r hr => TSTree.isSome_data?_of_mem_trail hr
        obtain rfl : u' = u := (Prod.mk.inj (Except.ok.inj (hu'.symm.trans htrace))).2
        exact hres

/-- A delete that changes the tree puts records at zero first, and then takes a subtree or a value
out of it. -/
theorem deleteRequest_cases {rs : Reply} (h : deleteRequest root url = .ok (rs, root')) :
    root' = root ∨ ∃ v r, TSTree.Restated root v ∧
      (root' = v.graft r dead ∨ root' = v.modify (fun c => { c with value := none }) r) := by
  obtain ⟨⟨rc, u⟩, hu, h⟩ := bind_eq_ok.mp h
  obtain rfl : u = root' := (Prod.mk.inj (Except.ok.inj h)).2
  rcases TSTree.deleteAllSubnodes_cases hu with ⟨-, -, rfl⟩ |
    ⟨c, low, high, equal, d, v, -, -, hres, ⟨-, rfl⟩ | ⟨-, rfl⟩⟩
  · exact .inl rfl
  · exact .inr ⟨v, _, hres, .inl rfl⟩
  · exact .inr ⟨v, _, hres, .inr rfl⟩

theorem deleteRequest_every {P : List CChar → Cell StatsPacket → Prop} {rs : Reply}
    (hstat : ∀ p c st, P p c → P p { c with stat := some st })
    (hclear : ∀ p c, P p c → P p { c with value := none }) (hs : root.Every P)
    (h : deleteRequest root url = .ok (rs, root')) : root'.Every P := by
  rcases deleteRequest_cases h with rfl | ⟨v, r, hres, rfl | rfl⟩
  · exact hs
  · exact (hres.every hstat hs).graft_dead _
  · exact (hres.every hstat hs).modify hclear _

/-- **What every request keeps of the nodes**, when a create keeps it: no `Stats` matters to it, and
it is true of a node without a value if it is true of the node with one. -/
theorem every_step {env : Env} {P : List CChar → Cell StatsPacket → Prop} {c : List CChar}
    (hstat : ∀ p c st, P p c → P p { c with stat := some st })
    (hclear : ∀ p c, P p c → P p { c with value := none })
    (hcreate : createRequest env s (Server.url env c) = .ok s' → s'.root.Every P) (hs : s.root.Every P)
    (h : step env s c = .ok s') : s'.root.Every P := by
  rcases step_cases h with ⟨-, h⟩ | ⟨-, rs, root, hupdate, rfl⟩ | ⟨-, rs, root, hdelete, rfl⟩ |
    ⟨-, -, -, rfl⟩
  · exact hcreate h
  · exact (updateRequest_restated hupdate).every hstat hs
  · exact deleteRequest_every hstat hclear hs hdelete
  · exact hs

/-- **Every request keeps the packets sound.** -/
theorem sound_step {c : List CChar} (hs : s.root.Every Sound)
    (h : step (Env.zeroFilled atof) s c = .ok s') : s'.root.Every Sound :=
  every_step (fun _ _ st hc => hc.setStat st) (fun _ _ hc => hc.clear) (sound_create hs) hs h

theorem sound_run {cs : List (List CChar)} (h : Run.run (step (Env.zeroFilled atof)) init cs = .ok s) :
    s.root.Every Sound :=
  Run.run_invariant _ (fun _ _ _ hs h => sound_step hs h) (every_nil Sound) h

end Steps

/-! ## Reading after updates

The history has, for every url, the numbers that were given to it. A read prints the record of the
packet, and that is as the create has left it whatever the updates were. -/

/-- A url is bound when a search finds a packet. -/
def bound (root : TSTree StatsPacket) (url : List CChar) : Bool :=
  match TSTree.search root url with
  | .ok pack => pack.isSome
  | .error _ => false

/-- A server together with the numbers given to every url since it was created. -/
structure History where
  server : State
  given : List CChar → List ℚ

namespace History

/-- A create starts a url that is not bound afresh, an update adds its numbers. -/
def record (atof : List CChar → ℚ) (h : History) (commands : List CChar) : List CChar → List ℚ :=
  match (processString commands).words with
  | cmd :: u :: ws =>
      if cmd = cstr "create" ∧ ¬ bound h.server.root u then Function.update h.given u []
      else if cmd = cstr "update" then Function.update h.given u (h.given u ++ ws.map atof)
      else h.given
  | _ => h.given

def step (atof : List CChar → ℚ) (h : History) (commands : List CChar) : Except Fault History := do
  let server ← Server.step (Env.zeroFilled atof) h.server commands
  pure { server, given := record atof h commands }

def init : History :=
  { server := Server.init, given := fun _ => [] }

theorem sound_run {atof : List CChar → ℚ} {cs : List (List CChar)} {h : History}
    (hrun : Run.run (step atof) init cs = .ok h) : h.server.root.Every Sound := by
  refine Run.run_invariant (I := fun h : History => h.server.root.Every Sound) _ ?_
    (every_nil Sound) hrun
  intro h c h' hs hstep
  obtain ⟨server, hserver, hh'⟩ := bind_eq_ok.mp hstep
  obtain rfl := Except.ok.inj hh'
  exact sound_step hs hserver

end History

/-- The walk for a bound url ends at a node with its packet. -/
theorem search_of_bound {root : TSTree StatsPacket} {u : List CChar} (h : bound root u) :
    ∃ pack c, TSTree.search root u = .ok (some pack) ∧ (root.walk u).data? = some c ∧
      c.value = some pack := by
  rw [bound, TSTree.search_eq] at h
  rw [TSTree.search_eq]
  cases hw : root.walk u with
  | nil => simp [hw, TSTree.deref, Except.map, pure, Except.pure] at h
  | dead => simp [hw, TSTree.deref, Except.map, throw, throwThe, MonadExceptOf.throw] at h
  | node c low high equal d =>
    cases hv : d.value with
    | none => simp [hw, hv, TSTree.deref, Except.map, pure, Except.pure] at h
    | some pack => exact ⟨pack, d, by simp [TSTree.deref, Except.map, pure, Except.pure, hv], rfl, hv⟩

/-- **A read after updates.** In the server a run ends in, reading a bound url reports the fold of
the numbers given since its creation exactly when that fold is a fresh record: no number but zero
was given, and their count wraps to zero. -/
theorem read_reports_iff (atof : List CChar → ℚ) {cs : List (List CChar)} {h : History}
    (hrun : Run.run (History.step atof) History.init cs = .ok h) {u : List CChar}
    (hu : bound h.server.root u) {c : List CChar} {ws : List (List CChar)}
    (hc : (processString c).words = cstr "read" :: u :: ws) :
    (processRequest (Env.zeroFilled atof) h.server (some c)).result =
        .ok (.dump (Stats.create.sampleAll (h.given u)), h.server) ↔
      ((∀ x ∈ h.given u, x = 0) ∧ 2 ^ 64 ∣ (h.given u).length) ∧
        h.server.root.walk (cstr "a/b/c") ≠ dead := by
  obtain ⟨pack, cell, hsearch, hcell, hvalue⟩ := search_of_bound hu
  obtain ⟨q, hsound⟩ := (History.sound_run hrun).of_walk hcell
  have hpack : pack.stats = Stats.create := hsound.packet pack hvalue
  have hcmd : command c = cstr "read" := by simp [command, hc]
  have hurl : url (Env.zeroFilled atof) c = some u := by simp [url, hc]
  have hread : readRequest h.server.root (some u) = .ok (.dump Stats.create) := by
    simp [readRequest, hsearch, hpack, pure, Except.pure]
  rw [processRequest_ok, hcmd, hurl, dispatch_read, hread, and_comm,
    ← Stats.sampleAll_create_eq_create]
  simp [Except.map, eq_comm]

/-- An `atof` that reads the words `0` to `9`. -/
def digit (word : List CChar) : ℚ :=
  match word with
  | [c] => if 48 ≤ c ∧ c ≤ 57 then (c - 48).toInt else 0
  | _ => 0

/-- A url that was not updated, beside one that was. -/
theorem read_reports_iff_two :
    ∃ h, Run.run (History.step digit) History.init
        [cstr "create a/b/c", cstr "create ab", cstr "update a/b/c 2"] = .ok h ∧
      ((processRequest (Env.zeroFilled digit) h.server (some (cstr "read ab"))).result =
          .ok (.dump (Stats.create.sampleAll (h.given (cstr "ab"))), h.server) ↔
        ((∀ y ∈ h.given (cstr "ab"), y = 0) ∧ 2 ^ 64 ∣ (h.given (cstr "ab")).length) ∧
          h.server.root.walk (cstr "a/b/c") ≠ dead) :=
  ⟨_, rfl, read_reports_iff digit
    (show Run.run (History.step digit) History.init
      [cstr "create a/b/c", cstr "create ab", cstr "update a/b/c 2"] = .ok _ from rfl) (by decide)
    (show (processString (cstr "read ab")).words = [cstr "read", cstr "ab"] by decide)⟩

/-- The number an update gives does not reach the record that `read` reports. -/
theorem read_misses_update :
    ∃ h, Run.run (History.step digit) History.init [cstr "create a/b/c", cstr "update a/b/c 1"] =
        .ok h ∧
      bound h.server.root (cstr "a/b/c") ∧ h.given (cstr "a/b/c") = [1] ∧
      (processRequest (Env.zeroFilled digit) h.server (some (cstr "read a/b/c"))).result =
        .ok (.dump Stats.create, h.server) ∧
      Stats.create.sampleAll (h.given (cstr "a/b/c")) ≠ Stats.create :=
  ⟨_, rfl, by decide, by decide +kernel, rfl, by decide +kernel⟩

end Lcthw.Server
