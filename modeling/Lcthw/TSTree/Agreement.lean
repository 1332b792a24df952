import Lcthw.TSTree.Trace

/-!
# Lcthw — the three walks of a key agree (`tstree.c`)

`TSTree_pinpoint`, `TSTree_search` and `TSTree_delim_search` each have the loop of their own.
`update_request` samples into the node that the first finds and hands the list of the third to
`update_tracer`, which takes its last node for the same one.

* **`Comes`**: the nodes that a walk comes to, and what is left of the key there.
* **`mem_matched_iff`**: what is collected are the '/' nodes at which a character matches.
* **`matched_pairwise`**: in the order of the path.
* **`walks_agree`**: all three walks end at the same node, and so does the list.
-/

namespace Lcthw.TSTree

open Ternary Ternary.Tree

variable {ν : Type}

/-! ## The nodes that a walk comes to

`Comes` follows a walk node by node, with what is left of the key, and does not say which of the three
loops it is. -/

/-- The walk of `key` comes to the link at the end of the route with the rest of the key. A character
that matches is used up, unless it is the last one: there the walk ends. -/
inductive Comes : TSTree ν → List CChar → Route → List CChar → Prop
  | here (t : TSTree ν) (key : List CChar) : Comes t key [] key
  | low {k c : CChar} {ks rest : List CChar} {low high equal : TSTree ν} {d : Cell ν} {r : Route}
      (hlt : k < c) (h : Comes low (k :: ks) r rest) :
      Comes (node c low high equal d) (k :: ks) (.low :: r) rest
  | high {k c : CChar} {ks rest : List CChar} {low high equal : TSTree ν} {d : Cell ν} {r : Route}
      (hgt : c < k) (h : Comes high (k :: ks) r rest) :
      Comes (node c low high equal d) (k :: ks) (.high :: r) rest
  | equal {j c : CChar} {js rest : List CChar} {low high equal : TSTree ν} {d : Cell ν} {r : Route}
      (h : Comes equal (j :: js) r rest) :
      Comes (node c low high equal d) (c :: j :: js) (.equal :: r) rest

/-- A character of the key matches at the node at `r`, whose character is `c`. -/
def Matches (t : TSTree ν) (key : List CChar) (c : CChar) (r : Route) : Prop :=
  ∃ rest low high equal d, Comes t key r (c :: rest) ∧ t.follow r = node c low high equal d

variable {t : TSTree ν} {key : List CChar} {r : Route}

/-- What a walk passes lies on its route. -/
theorem Comes.on_route {rest : List CChar} (h : Comes t key r rest) : r <+: t.route key := by
  induction h with
  | here t key => exact List.nil_prefix
  | low hlt h ih =>
    rw [route_lt hlt]
    exact List.cons_prefix_cons.mpr ⟨rfl, ih⟩
  | high hgt h ih =>
    rw [route_gt hgt]
    exact List.cons_prefix_cons.mpr ⟨rfl, ih⟩
  | equal h ih =>
    rw [route_self_cons]
    exact List.cons_prefix_cons.mpr ⟨rfl, ih⟩

/-- A walk that finds a node comes to it with its last character, which matches. -/
theorem comes_route {c : CChar} {low high equal : TSTree ν} {d : Cell ν} (hkey : key ≠ [])
    (h : t.walk key = node c low high equal d) : Comes t key (t.route key) [c] := by
  induction t generalizing key with
  | nil => simp at h
  | dead => simp at h
  | node c' low' high' equal' d' ihl ihh ihe =>
    obtain ⟨k, ks, rfl⟩ := List.exists_cons_of_ne_nil hkey
    rcases lt_trichotomy k c' with hlt | rfl | hgt
    · rw [walk_lt hlt] at h
      rw [route_lt hlt]
      exact .low hlt (ihl hkey h)
    · cases ks with
      | nil =>
        obtain ⟨rfl, -⟩ : k = c ∧ _ := by simpa using h
        rw [route_self]
        exact .here _ _
      | cons j js =>
        rw [walk_self_cons] at h
        rw [route_self_cons]
        exact .equal (ihe (by simp) h)
    · rw [walk_gt hgt] at h
      rw [route_gt hgt]
      exact .high hgt (ihh hkey h)

section Node

variable {c k x : CChar} {ks : List CChar} {low high equal : TSTree ν} {d : Cell ν}

theorem matches_lt (hlt : k < c) : Matches (node c low high equal d) (k :: ks) x r ↔
    ∃ r', .low :: r' = r ∧ Matches low (k :: ks) x r' := by
  constructor
  · rintro ⟨rest, low', high', equal', d', hcomes, hfollow⟩
    cases hcomes with
    | here =>
      obtain ⟨rfl, -⟩ : c = k ∧ _ := by simpa using hfollow
      exact absurd hlt (lt_irrefl c)
    | low _ h => exact ⟨_, rfl, rest, low', high', equal', d', h, hfollow⟩
    | high hgt _ => exact absurd hlt hgt.not_gt
    | equal _ => exact absurd hlt (lt_irrefl c)
  · rintro ⟨r', rfl, rest, low', high', equal', d', h, hfollow⟩
    exact ⟨rest, low', high', equal', d', .low hlt h, hfollow⟩

theorem matches_gt (hgt : c < k) : Matches (node c low high equal d) (k :: ks) x r ↔
    ∃ r', .high :: r' = r ∧ Matches high (k :: ks) x r' := by
  constructor
  · rintro ⟨rest, low', high', equal', d', hcomes, hfollow⟩
    cases hcomes with
    | here =>
      obtain ⟨rfl, -⟩ : c = k ∧ _ := by simpa using hfollow
      exact absurd hgt (lt_irrefl c)
    | low hlt _ => exact absurd hgt hlt.not_gt
    | high _ h => exact ⟨_, rfl, rest, low', high', equal', d', h, hfollow⟩
    | equal _ => exact absurd hgt (lt_irrefl c)
  · rintro ⟨r', rfl, rest, low', high', equal', d', h, hfollow⟩
    exact ⟨rest, low', high', equal', d', .high hgt h, hfollow⟩

theorem matches_self : Matches (node c low high equal d) (c :: ks) x r ↔
    (c = x ∧ r = []) ∨ ∃ r', .equal :: r' = r ∧ Matches equal ks x r' := by
  constructor
  · rintro ⟨rest, low', high', equal', d', hcomes, hfollow⟩
    cases hcomes with
    | here => exact .inl ⟨rfl, rfl⟩
    | low hlt _ => exact absurd hlt (lt_irrefl c)
    | high hgt _ => exact absurd hgt (lt_irrefl c)
    | equal h => exact .inr ⟨_, rfl, rest, low', high', equal', d', h, hfollow⟩
  · rintro (⟨rfl, rfl⟩ | ⟨r', rfl, rest, low', high', equal', d', h, hfollow⟩)
    · exact ⟨ks, low, high, equal, d, .here _ _, rfl⟩
    · cases ks with
      | nil => cases h
      | cons j js => exact ⟨rest, low', high', equal', d', .equal h, hfollow⟩

end Node

/-! ## The list

The list of '/' nodes is told by the walk alone. That it is in order, and that its last node is where
the walk ends, follows from the routes of its members. -/

/-- **What is collected are the '/' nodes at which a character matches.** -/
theorem mem_matched_iff : r ∈ matched t key ↔ Matches t key delim r := by
  induction t generalizing key r with
  | nil =>
    apply iff_of_false (by simp [matched])
    rintro ⟨rest, low, high, equal, d, -, hfollow⟩
    simp at hfollow
  | dead =>
    apply iff_of_false (by simp [matched])
    rintro ⟨rest, low, high, equal, d, -, hfollow⟩
    simp at hfollow
  | node c low high equal d ihl ihh ihe =>
    cases key with
    | nil =>
      apply iff_of_false (by simp)
      rintro ⟨rest, low, high, equal, d, hcomes, -⟩
      cases hcomes
    | cons k ks =>
      rcases lt_trichotomy k c with hlt | rfl | hgt
      · rw [matched, if_pos hlt, List.mem_map, matches_lt hlt]
        exact exists_congr fun r' => by rw [ihl, and_comm]
      · rw [matched, if_neg (lt_irrefl k), if_pos rfl, List.mem_append, List.mem_map, matches_self]
        -- the node itself, if its character is '/', and those below it
        apply or_congr
        · by_cases hk : k = delim <;> simp [hk]
        · exact exists_congr fun r' => by rw [ihe, and_comm]
      · rw [matched, if_neg hgt.not_gt, if_neg hgt.ne', List.mem_map, matches_gt hgt]
        exact exists_congr fun r' => by rw [ihh, and_comm]

/-- One route is further down the path than another. -/
def Above (r s : Route) : Prop :=
  r <+: s ∧ r ≠ s

theorem Above.cons {r s : Route} (h : Above r s) (d : Dir) : Above (d :: r) (d :: s) :=
  ⟨List.cons_prefix_cons.mpr ⟨rfl, h.1⟩, fun heq => h.2 (List.cons.inj heq).2⟩

theorem above_nil (d : Dir) (s : Route) : Above [] (d :: s) :=
  ⟨List.nil_prefix, fun heq => by cases heq⟩

/-- **They are collected in the order of the path**, and none of them twice. -/
theorem matched_pairwise (t : TSTree ν) (key : List CChar) : (matched t key).Pairwise Above := by
  induction t generalizing key with
  | nil => exact List.Pairwise.nil
  | dead => exact List.Pairwise.nil
  | node c low high equal d ihl ihh ihe =>
    have hmap : ∀ (dir : Dir) {rs : List Route}, rs.Pairwise Above →
        (rs.map (dir :: ·)).Pairwise Above := by
      intro dir rs hrs
      exact List.pairwise_map.mpr (hrs.imp fun h => h.cons dir)
    match key with
    | [] => exact List.Pairwise.nil
    | k :: ks =>
      rw [matched]
      split
      · exact hmap _ (ihl _)
      · split
        · split
          · -- the node is above all that are collected below it
            refine List.pairwise_cons.mpr ⟨fun s hs => ?_, hmap _ (ihe _)⟩
            obtain ⟨s', -, rfl⟩ := List.mem_map.mp hs
            exact above_nil .equal s'
          · exact hmap _ (ihe _)
        · exact hmap _ (ihh _)

/-- The lowest of a list of nodes on a path is the last one. -/
theorem getLast?_of_above {rs : List Route} {here : Route} (hrs : rs.Pairwise Above)
    (hmem : here ∈ rs) (hon : ∀ r ∈ rs, r <+: here) : rs.getLast? = some here := by
  obtain ⟨last, hlast⟩ : ∃ last, rs.getLast? = some last :=
    Option.isSome_iff_exists.mp (List.getLast?_isSome.mpr (List.ne_nil_of_mem hmem))
  obtain ⟨front, rfl⟩ := List.getLast?_eq_some_iff.mp hlast
  rcases List.mem_append.mp hmem with hfront | hsingle
  · -- `here` would be above the last node, which is on the way to it
    have habove := (List.pairwise_append.mp hrs).2.2 here hfront last (List.mem_singleton_self last)
    have hlen := (hon last (List.mem_append_right front (List.mem_singleton_self last))).length_le
    exact absurd (habove.1.eq_of_length_le hlen) habove.2
  · rw [hlast, List.mem_singleton.mp hsingle]

/-- What the list holds once the walk has found the node at `here`, whose character is `c`. -/
structure Collected (t : TSTree ν) (key : List CChar) (c : CChar) (here : Route) (list : List Route) :
    Prop where
  eq_append : ∃ slashes, list = slashes ++ (if c = delim then [] else [here]) ∧
    ∀ r, r ∈ slashes ↔ Matches t key delim r
  ordered : list.Pairwise Above
  last : list.getLast? = some here

/-- **The trail of a walk that finds a node.** -/
theorem trail_collected {c : CChar} {low high equal : TSTree ν} {d : Cell ν} (hkey : key ≠ [])
    (h : t.walk key = node c low high equal d) : Collected t key c (t.route key) (trail t key) := by
  have hfollow : t.follow (t.route key) = node c low high equal d := (follow_route t key).trans h
  have hon : ∀ r ∈ matched t key, r <+: t.route key := by
    intro r hr
    obtain ⟨rest, low', high', equal', d', hcomes, -⟩ := mem_matched_iff.mp hr
    exact hcomes.on_route
  have htrail : trail t key = matched t key ++ if c = delim then [] else [t.route key] := by
    rw [trail, h]
    simp only []
    split
    · rw [List.append_nil]
    · rfl
  refine ⟨⟨matched t key, htrail, fun r => mem_matched_iff⟩, ?_, ?_⟩
  · rw [htrail]
    refine List.pairwise_append.mpr ⟨matched_pairwise t key, by split <;> simp, ?_⟩
    intro r hr s hs
    split at hs
    · cases hs
    · next hc =>
      obtain rfl := List.mem_singleton.mp hs
      refine ⟨hon r hr, fun heq => hc ?_⟩
      -- what is collected in the loop is a '/' node
      obtain ⟨rest, low', high', equal', d', -, hslash⟩ := mem_matched_iff.mp hr
      rw [heq, hfollow] at hslash
      exact (node.inj hslash).1
  · rw [htrail]
    split
    · next hc =>
      subst hc
      rw [List.append_nil]
      exact getLast?_of_above (matched_pairwise t key) (route_mem_matched hkey h) hon
    · exact List.getLast?_concat ..

/-! ## The three walks

Each of the loops has its equation from `Walk`, in terms of the link that the walk ends at, so they can
be compared there. -/

/-- The node that `TSTree_pinpoint` returns has the value that both searches return, and it is the
last one of the list. -/
structure WalksAgree (t : TSTree ν) (key : List CChar) : Prop where
  search_eq : search t key = (pinpoint t key).map fun found => found.data?.bind Cell.value
  delimSearch_eq : (delimSearch t [] key).map Prod.fst = search t key
  collects : ∀ c low high equal d, pinpoint t key = .ok (node c low high equal d) →
    ∃ here list, t.follow here = node c low high equal d ∧ Comes t key here [c] ∧
      delimSearch t [] key = .ok (d.value, list) ∧ Collected t key c here list

/-- **The three walks agree**, on every tree and for every key but the empty one. A walk that comes to
a freed node faults in all three. -/
theorem walks_agree (t : TSTree ν) {key : List CChar} (hkey : key ≠ []) : WalksAgree t key := by
  have hpinpoint := pinpoint_eq t hkey
  have hsearch := search_eq t key
  have hdelim := TSTree.delimSearch_eq t key
  refine ⟨?_, ?_, ?_⟩
  · rw [hsearch, hpinpoint]
    cases t.walk key <;> rfl
  · rw [hdelim, hsearch]
    cases t.walk key <;> rfl
  · intro c low high equal d hfound
    have hwalk : t.walk key = node c low high equal d := by
      rw [hpinpoint] at hfound
      cases hw : t.walk key with
      | nil => rw [hw] at hfound; cases hfound
      | dead => rw [hw] at hfound; cases hfound
      | node c' low' high' equal' d' =>
        rw [hw] at hfound
        exact Except.ok.inj hfound
    refine ⟨t.route key, trail t key, (follow_route t key).trans hwalk, comes_route hkey hwalk, ?_,
      trail_collected hkey hwalk⟩
    rw [hdelim, hwalk]
    rfl

theorem walks_agree_dir :
    WalksAgree (node 97 nil nil (node delim nil nil nil ⟨none, some 4⟩) ⟨none, none⟩ : TSTree ℕ)
      (cstr "a/") :=
  walks_agree _ (by decide)

end Lcthw.TSTree
