import Lcthw.Server.Packets

/-!
# Lcthw — delete requests

* **`removes_subtree_never`**: deleting a '/' path that exists always leaves a freed node where a
  search finds it.
* **`delete_refused_iff`**: a delete answers that there is no such statistic exactly when the walk
  for the url ends at NULL; that the url is bound to nothing is not enough.
-/

namespace Lcthw.Server

open Ternary Ternary.Tree

/-- The first word of a request is its command. -/
theorem command_of_words (env : Env) {c u : List CChar} {ws : List (List CChar)} {cmd : List CChar}
    (hc : (processString c).words = cmd :: u :: ws) :
    command c = cmd ∧ url env c = some u := by
  simp [command, url, hc]

/-! ## Deleting a directory

The node of a directory is freed with everything below it, and the link that led to it stays. As the
walk to the directory came along this link, there is always one that comes to the freed node again. -/

/-- No walk from the root reaches a freed node. -/
structure NoFreedNode (root : TSTree StatsPacket) : Prop where
  search : ∀ key, TSTree.search root key ≠ .error .useAfterFree
  pinpoint : ∀ key, TSTree.pinpoint root key ≠ .error .useAfterFree
  traverse : TSTree.traverse root ≠ .error .useAfterFree
  insert : ∀ malloc blocks key value,
    TSTree.delimInsert malloc blocks root key value ≠ .error .useAfterFree

/-- What deleting the directory `p` is for: the request completes, every url under `p` is unbound,
every other url keeps its packet, and the freed nodes are out of reach. -/
def RemovesSubtree (env : Env) (s : State) (c p : List CChar) : Prop :=
  ∃ rs s', (processRequest env s (some c)).result = .ok (rs, s') ∧
    (∀ u, p <+: u → TSTree.search s'.root u = .ok none) ∧
    (∀ u pack, ¬ p <+: u → TSTree.search s.root u = .ok (some pack) →
      TSTree.search s'.root u = .ok (some pack)) ∧
    NoFreedNode s'.root

/-- **Deleting a directory leaves its freed node in the tree.** The link that led to the node still
does, so the next search for the path dereferences it. -/
theorem removes_subtree_never (env : Env) (s : State) {c p : List CChar} {ws : List (List CChar)}
    (hc : (processString c).words = cstr "delete" :: p :: ws) (hp : p.getLast? = some delim)
    (hnode : (s.root.get? p).isSome) : ¬ RemovesSubtree env s c p := by
  rintro ⟨rs, s', hres, -, -, hfree⟩
  obtain ⟨hcmd, hurl⟩ := command_of_words env hc
  obtain ⟨-, hdisp⟩ := processRequest_ok.mp hres
  rw [hcmd, hurl, dispatch_delete, map_eq_ok] at hdisp
  obtain ⟨⟨rs', root⟩, hdel, hs'⟩ := hdisp
  obtain ⟨-, rfl⟩ := Prod.mk.inj hs'
  obtain ⟨⟨rc, t⟩, hall, ht⟩ := bind_eq_ok.mp hdel
  obtain rfl : t = root := (Prod.mk.inj (Except.ok.inj ht)).2
  have hne : p ≠ [] := by
    rintro rfl
    simp at hp
  rcases TSTree.deleteAllSubnodes_cases hall with ⟨hnil, -⟩ |
    ⟨d, low, high, equal, cell, v, hwalk, -, hrest, ⟨-, rfl⟩ | ⟨hd, -⟩⟩
  · rw [Option.getD_some] at hnil
    simp [s.root.get?_of_ne_nil hne, hnil, data?] at hnode
  · -- the search for the directory comes to the node that was freed
    apply hfree.search p
    have hroute : s.root.route p = v.route p := by
      rw [← route_shape, ← hrest.shape_eq, route_shape]
    rw [← isSome_get?_of_shape hrest.shape_eq] at hnode
    rw [Option.getD_some, TSTree.search_eq, hroute, walk_graft_route v hnode]
    rfl
  · exact hd (Option.some.inj ((getLast?_of_walk hne hwalk).symm.trans hp))

theorem removes_subtree_never_ab :
    ∃ s, Run.run (step (Env.zeroFilled digit)) init [cstr "create a/b"] = .ok s ∧
      ¬ RemovesSubtree (Env.zeroFilled digit) s (cstr "delete a/") (cstr "a/") :=
  ⟨_, rfl, removes_subtree_never (Env.zeroFilled digit) _
    (show (processString (cstr "delete a/")).words = [cstr "delete", cstr "a/"] by decide)
    (by decide) (by decide)⟩

/-- After `delete a/` a search for `a/` dereferences the freed node. -/
theorem deleted_dir_dangles :
    ∃ s rs s', Run.run (step (Env.zeroFilled digit)) init [cstr "create a/b"] = .ok s ∧
      (processRequest (Env.zeroFilled digit) s (some (cstr "delete a/"))).result = .ok (rs, s') ∧
      TSTree.search s'.root (cstr "a/") = .error .useAfterFree :=
  ⟨_, _, _, rfl, rfl, rfl⟩

/-! ## Deleting an unbound url

The answer is that of the walk for the url, and a walk may end at a node that only leads on to longer
urls. -/

/-- **When a delete is refused.** The code asks whether the path of the url exists, not whether
the url is bound. -/
theorem delete_refused_iff (env : Env) (s : State) {c u : List CChar} {ws : List (List CChar)}
    (hc : (processString c).words = cstr "delete" :: u :: ws) :
    (processRequest env s (some c)).result = .ok (.text "no such statistic\n", s) ↔
      s.root.walk (cstr "a/b/c") ≠ dead ∧ s.root.walk u = nil := by
  obtain ⟨hcmd, hurl⟩ := command_of_words env hc
  rw [processRequest_ok, hcmd, hurl, dispatch_delete, map_eq_ok]
  refine and_congr_right fun _ => ⟨?_, fun hnil => ?_⟩
  · rintro ⟨⟨rs, root⟩, hdel, hrs⟩
    obtain ⟨⟨rc, t⟩, hall, ht⟩ := bind_eq_ok.mp hdel
    obtain ⟨hrs', rfl⟩ := Prod.mk.inj (Except.ok.inj ht)
    obtain ⟨rfl, -⟩ := Prod.mk.inj hrs
    rcases TSTree.deleteAllSubnodes_cases hall with ⟨hnil, -⟩ |
      ⟨d, low, high, equal, cell, v, -, rfl, -⟩
    · exact hnil
    · exact absurd hrs' (by decide)
  · refine ⟨(.text "no such statistic\n", s.root), ?_, rfl⟩
    rw [deleteRequest, Option.getD_some, TSTree.deleteAllSubnodes_nil hnil]
    rfl

/-- A url that is not there, beside two that are. -/
theorem delete_refused_iff_two :
    ∃ s, Run.run (step (Env.zeroFilled digit)) init
        [cstr "create a/b/c", cstr "create ab", cstr "update a/b/c 2"] = .ok s ∧
      ((processRequest (Env.zeroFilled digit) s (some (cstr "delete b"))).result =
          .ok (.text "no such statistic\n", s) ↔
        s.root.walk (cstr "a/b/c") ≠ dead ∧ s.root.walk (cstr "b") = nil) :=
  ⟨_, rfl, delete_refused_iff (Env.zeroFilled digit) _
    (show (processString (cstr "delete b")).words = [cstr "delete", cstr "b"] by decide)⟩

/-- `a` is only a prefix of the created url, and its deletion is carried out. -/
theorem delete_unbound_prefix :
    ∃ s, Run.run (step (Env.zeroFilled digit)) init [cstr "create ab"] = .ok s ∧
      bound s.root (cstr "a") = false ∧
      ¬ (processRequest (Env.zeroFilled digit) s (some (cstr "delete a"))).result =
        .ok (.text "no such statistic\n", s) := by
  refine ⟨_, rfl, by decide, fun h => ?_⟩
  have hreply := congrArg (Except.map Prod.fst) h
  exact absurd hreply (by decide)

end Lcthw.Server
