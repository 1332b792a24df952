import Lcthw.Server.Deletes

/-!
# Lcthw — update requests

* **`exists_sumAt_iff`**: the sum of a '/' path can be looked at exactly when the path has a node.
* **`updates_safely_iff`**: when an update completes with the right answer.
-/

namespace Lcthw.Server

open Ternary Ternary.Tree

/-- The update completes: it answers `ok` for a bound url, and for another url it says so and
changes nothing. -/
def UpdatesSafely (env : Env) (s : State) (c u : List CChar) : Prop :=
  ∃ rs s', (processRequest env s (some c)).result = .ok (rs, s') ∧
    (bound s.root u → rs = .text "ok\n") ∧
    (bound s.root u = false → rs = .text "no such statistic" ∧ s' = s)

theorem exists_sumAt_iff {root : TSTree StatsPacket} (hs : root.Every Sound) {key : List CChar}
    (hkey : key.getLast? = some delim) :
    (∃ x, sumAt root key = .ok x) ↔ (root.get? key).isSome := by
  have hne : key ≠ [] := by
    rintro rfl
    simp at hkey
  rw [sumAt, TSTree.pinpoint_eq root hne, root.get?_of_ne_nil hne]
  cases hw : root.walk key with
  | nil => simp [TSTree.unlessDead, data?, pure, Except.pure, throw, throwThe, MonadExceptOf.throw]
  | dead => simp [TSTree.unlessDead, data?, throw, throwThe, MonadExceptOf.throw]
  | node c low high equal d =>
    have hd : root.get? key = some d := by rw [root.get?_of_ne_nil hne, hw]; rfl
    obtain ⟨st, hst⟩ := Option.isSome_iff_exists.mp ((hs.get? hd).dir hkey)
    obtain ⟨stat, v⟩ := d
    obtain rfl : stat = some st := hst
    simp [TSTree.unlessDead, data?, pure, Except.pure]

/-- A url is bound exactly when its walk ends at a node with a value. -/
theorem bound_eq (root : TSTree StatsPacket) (u : List CChar) :
    bound root u = ((root.walk u).data?.bind Cell.value).isSome := by
  rw [bound, TSTree.search_eq]
  cases root.walk u <;> rfl

section Found

variable (atof : List CChar → ℚ) {root : TSTree StatsPacket} {u : List CChar} (c : List CChar)
  {k : CChar}
  {low high equal : TSTree StatsPacket} {st : Stats} {v : Option StatsPacket}

/-- An update that finds a record completes exactly when the loop over the words ends and `a/b/`
exists. -/
theorem updateRequest_completes_iff (hs : root.Every Sound)
    (hw : root.walk u = node k low high equal ⟨some st, v⟩) :
    (∃ r, (updateRequest (Env.zeroFilled atof) root (some u) (processString c)).result = .ok r) ↔
      (root.get? (cstr "a/b/")).isSome ∧ (processString c).qty < (processString c).mlen := by
  rw [updateRequest_node hw, result_sampleEntries_zeroFilled]
  by_cases hq : (processString c).qty < (processString c).mlen
  · obtain ⟨t, htrace, hres⟩ := TSTree.updateTracer_restated root (TSTree.trail root u)
      (st.sampleAll (((processString c).words.drop 2).map atof))
      fun r hr => TSTree.isSome_data?_of_mem_trail hr
    have hsum := exists_sumAt_iff (hres.every (fun _ _ st hc => hc.setStat st) hs)
      (show (cstr "a/b/").getLast? = some delim by decide)
    rw [isSome_get?_of_shape hres.shape_eq] at hsum
    rw [if_pos hq, ok_bind, Option.getD_some, htrace, ok_bind, ← hsum]
    simp only [map_eq_ok, hq, and_true]
    exact ⟨fun ⟨_, x, hx, _⟩ => ⟨x, hx⟩, fun ⟨x, hx⟩ => ⟨_, x, hx, rfl⟩⟩
  · simp [hq]

/-- It then answers `ok`. -/
theorem updateRequest_reply (hu : u ≠ [])
    (hw : root.walk u = node k low high equal ⟨some st, v⟩) {r : Reply × TSTree StatsPacket}
    (h : (updateRequest (Env.zeroFilled atof) root (some u) (processString c)).result = .ok r) :
    r.1 = .text "ok\n" := by
  have hnode : (root.get? u).isSome := by
    rw [root.get?_of_ne_nil hu, hw]
    rfl
  rw [updateRequest_node hw] at h
  obtain ⟨temp, -, h⟩ := bind_eq_ok.mp h
  obtain ⟨⟨me, t⟩, htrace, h⟩ := bind_eq_ok.mp h
  obtain ⟨_, -, h⟩ := map_eq_ok.mp h
  obtain ⟨t', ht', -⟩ := TSTree.updateTracer_restated root
    (TSTree.trail root u) temp fun r hr => TSTree.isSome_data?_of_mem_trail hr
  have hme : me = 0 := by
    rw [if_neg (List.ne_nil_of_mem (TSTree.route_mem_trail hnode))] at ht'
    exact (Prod.mk.inj (Except.ok.inj (htrace.symm.trans ht'))).1
  rw [← h, if_neg (by simpa using hme)]

end Found

/-- **When an update is safe.** The url has no node at all; or it is bound, a node for `a/b/`
exists, and `bsplit` left an unused slot behind the words. -/
theorem updates_safely_iff (atof : List CChar → ℚ) {cs : List (List CChar)} {s : State}
    (hrun : Run.run (step (Env.zeroFilled atof)) init cs = .ok s) {u : List CChar} (hu : u ≠ [])
    {c : List CChar} {ws : List (List CChar)}
    (hc : (processString c).words = cstr "update" :: u :: ws) :
    UpdatesSafely (Env.zeroFilled atof) s c u ↔
      s.root.walk (cstr "a/b/c") ≠ dead ∧
        (s.root.walk u = nil ∨
          bound s.root u ∧ (s.root.get? (cstr "a/b/")).isSome ∧
            (processString c).qty < (processString c).mlen) := by
  have hs := sound_run hrun
  obtain ⟨hcmd, hurl⟩ := command_of_words (Env.zeroFilled atof) hc
  have hok : ∀ rs s', (processRequest (Env.zeroFilled atof) s (some c)).result = .ok (rs, s') ↔
      s.root.walk (cstr "a/b/c") ≠ dead ∧
        ∃ r, (updateRequest (Env.zeroFilled atof) s.root (some u) (processString c)).result = .ok r ∧
          (r.1, { s with root := r.2 }) = (rs, s') := by
    intro rs s'
    rw [processRequest_ok, hcmd, hurl, dispatch_update, map_eq_ok]
  simp only [UpdatesSafely, hok, bound_eq]
  cases hw : s.root.walk u with
  | nil =>
    rw [updateRequest_nil hw]
    simp [data?]
  | dead =>
    rw [updateRequest_dead hw]
    simp [data?]
  | node k low high equal d =>
    obtain ⟨stat, v⟩ := d
    cases stat with
    | none =>
      obtain ⟨q, hq⟩ := hs.of_walk (p := u) (d := ⟨none, v⟩) (by rw [hw]; rfl)
      have hv : v = none := by simpa using mt hq.bound (by simp)
      rw [updateRequest_noStat hw]
      simp [hv, data?]
    | some st =>
      have hcompletes := updateRequest_completes_iff atof c hs hw
      have hreply := fun r => updateRequest_reply atof c hu hw (r := r)
      cases v with
      | none =>
        -- an unbound url with a record: the answer is `ok` all the same
        constructor
        · rintro ⟨rs, s', ⟨-, r, hr, hrs⟩, -, hno⟩
          obtain ⟨hrs, -⟩ := Prod.mk.inj hrs
          obtain ⟨hbad, -⟩ := hno rfl
          rw [← hrs, hreply r hr] at hbad
          exact absurd hbad (by decide)
        · rintro ⟨-, hnil | ⟨hbound, -⟩⟩
          · cases hnil
          · cases hbound
      | some pack =>
        constructor
        · rintro ⟨rs, s', ⟨habc, r, hr, -⟩, -⟩
          exact ⟨habc, Or.inr ⟨rfl, hcompletes.mp ⟨r, hr⟩⟩⟩
        · rintro ⟨habc, hnil | ⟨-, hboth⟩⟩
          · cases hnil
          · obtain ⟨r, hr⟩ := hcompletes.mpr hboth
            exact ⟨r.1, _, ⟨habc, r, hr, rfl⟩, fun _ => hreply r hr, fun h => by cases h⟩

/-- One of two urls, after an update of the other. -/
theorem updates_safely_iff_two :
    ∃ s, Run.run (step (Env.zeroFilled digit)) init
        [cstr "create a/b/c", cstr "create ab", cstr "update a/b/c 2"] = .ok s ∧
      (UpdatesSafely (Env.zeroFilled digit) s (cstr "update ab 1") (cstr "ab") ↔
        s.root.walk (cstr "a/b/c") ≠ dead ∧
          (s.root.walk (cstr "ab") = nil ∨
            bound s.root (cstr "ab") ∧ (s.root.get? (cstr "a/b/")).isSome ∧
              (processString (cstr "update ab 1")).qty <
                (processString (cstr "update ab 1")).mlen)) :=
  ⟨_, rfl, updates_safely_iff digit
    (show Run.run (step (Env.zeroFilled digit)) init
      [cstr "create a/b/c", cstr "create ab", cstr "update a/b/c 2"] = .ok _ from rfl) (by decide)
    (show (processString (cstr "update ab 1")).words = [cstr "update", cstr "ab", cstr "1"] by
      decide)⟩

/-- Updating a url that is only a prefix of a created one dereferences a NULL stat. -/
theorem update_prefix_faults :
    ∃ s, Run.run (step (Env.zeroFilled digit)) init [cstr "create ab"] = .ok s ∧
      (processRequest (Env.zeroFilled digit) s (some (cstr "update a 1"))).result =
        .error .nullDeref :=
  ⟨_, rfl, rfl⟩

end Lcthw.Server
