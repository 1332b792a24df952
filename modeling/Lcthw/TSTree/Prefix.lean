import Lcthw.TSTree.Map

/-!
# Lcthw — prefix search (`TSTree_search_prefix`)

The search walks the key and remembers the last node with a value that it passed. When the key has
no node it goes back to that one; from where it is it then follows `equal` links to a value.

* **`searchPrefix_eq`**: on a live tree the search returns the value at the end of the `equal` links
  from the node of the key, or, without one, the value of the longest bound proper prefix.
* **`Fruitful`**: every node has a value or goes on. Insertion keeps this, deletion does not.
* **`searchPrefix_inserted`**: prefix search in a tree that was built by insertions.
-/

namespace Lcthw.TSTree

open Ternary Ternary.Tree

variable {ν : Type}

/-! ## The code -/

/-- The loop of `TSTree_search_prefix` and of `TSTree_possible_match_by_prefix`, from the index `i`:
the pointers `node` and `last` it ends with. `next` is the step `i++`, in the type of `i`. -/
def prefixWalk (next : ℤ → Except Fault ℤ) :
    TSTree ν → TSTree ν → ℤ → List CChar → Except Fault (TSTree ν × TSTree ν)
  | root, last, _, [] => pure (root, last)
  | nil, last, _, _ :: _ => pure (nil, last)
  | dead, _, _, _ :: _ => throw .useAfterFree
  | node splitchar low high equal data, last, i, key :: rest =>
      if key < splitchar then prefixWalk next low last i (key :: rest)
      else if key = splitchar then do
        let i ← next i
        if rest ≠ [] then
          if data.value ≠ none then
            prefixWalk next equal (node splitchar low high equal data) i rest
          else prefixWalk next equal last i rest
        else pure (node splitchar low high equal data, last)
      else prefixWalk next high last i (key :: rest)

/-- `node = (node != NULL) ? node : last` -/
def orLast (node last : TSTree ν) : TSTree ν :=
  match node with
  | nil => last
  | node => node

/-- The loop that follows `equal` links to a value. -/
def firstValue : TSTree ν → Except Fault (Option ν)
  | nil => pure none
  | dead => throw .useAfterFree
  | node _ _ _ equal data =>
      if data.value = none then firstValue equal else pure data.value

/-- `TSTree_search_prefix`. Its index is a `size_t`. -/
def searchPrefix (root : TSTree ν) (key : List CChar) : Except Fault (Option ν) :=
  if key = [] then pure none
  else do
    let (found, last) ← prefixWalk (fun i => pure (i + 1)) root nil 0 key
    firstValue (orLast found last)

/-! ## What the two loops compute

The first loop is a walk that remembers a node, and the second one follows `equal` links. On a live tree
both are functions of the keys that are bound. -/

/-- The value that the `equal` links from a node lead to. -/
def chainValue : TSTree ν → Option ν
  | nil => none
  | dead => none
  | node _ _ _ equal data => if data.value = none then chainValue equal else data.value

/-- On a live tree the loop ends at a value, or with NULL. -/
theorem firstValue_of_live {t : TSTree ν} (ht : t.Live) : firstValue t = .ok (chainValue t) := by
  induction t with
  | nil => rfl
  | dead => exact ht.elim
  | node c low high equal d ihl ihh ihe =>
    unfold firstValue chainValue
    split
    · exact ihe ht.2.2
    · rfl

/-- The value of a string, if it has one. -/
def lookup (t : TSTree ν) (q : List CChar) : Option ν :=
  (t.get? q).bind Cell.value

/-- What `b` says of the longest nonempty proper prefix that it says something of. -/
def longest (b : List CChar → Option ν) : List CChar → Option ν
  | [] => none
  | k :: ks => if ks = [] then none else (longest (fun q => b (k :: q)) ks).or (b [k])

theorem longest_congr {b b' : List CChar → Option ν} {k : CChar}
    (h : ∀ q, b (k :: q) = b' (k :: q)) (ks : List CChar) :
    longest b (k :: ks) = longest b' (k :: ks) := by
  unfold longest
  rw [h [], funext h]

/-- Nothing is said of any proper prefix. -/
theorem longest_eq_none {b : List CChar → Option ν} {p : List CChar} :
    longest b p = none ↔ ∀ q, q ≠ [] → q <+: p → q ≠ p → b q = none := by
  induction p generalizing b with
  | nil =>
    refine ⟨fun _ q hq hpre _ => absurd (List.prefix_nil.mp hpre) hq, fun _ => rfl⟩
  | cons k ks ih =>
    unfold longest
    constructor
    · rintro h q hq ⟨r, hr⟩ hne
      obtain ⟨j, js, rfl⟩ := List.exists_cons_of_ne_nil hq
      obtain ⟨rfl, hjs⟩ := List.cons.inj hr
      have hks : ks ≠ [] := by
        rintro rfl
        exact hne (by rw [(List.append_eq_nil_iff.mp hjs).1])
      rw [if_neg hks, Option.or_eq_none_iff] at h
      -- the prefix of one character is looked at last
      by_cases hj : js = []
      · subst hj
        exact h.2
      · exact ih.mp h.1 js hj ⟨r, hjs⟩ fun hjk => hne (by rw [hjk])
    · intro h
      split
      · rfl
      · next hks =>
        have hk : [k] <+: k :: ks := List.prefix_append [k] ks
        rw [Option.or_eq_none_iff]
        refine ⟨ih.mpr fun q hq hpre hne => ?_, h [k] (by simp) hk (by simpa using Ne.symm hks)⟩
        exact h (k :: q) (by simp) (List.cons_prefix_cons.mpr ⟨rfl, hpre⟩) (by simpa using hne)

/-- **The longest one.** What `longest` finds is what `b` says of a proper prefix, and `b` says
nothing of a longer one. -/
theorem longest_eq_some {b : List CChar → Option ν} {p : List CChar} {v : ν}
    (h : longest b p = some v) :
    ∃ q, q ≠ [] ∧ q <+: p ∧ q ≠ p ∧ b q = some v ∧
      ∀ q', q' <+: p → q' ≠ p → q.length < q'.length → b q' = none := by
  induction p generalizing b with
  | nil => simp [longest] at h
  | cons k ks ih =>
    unfold longest at h
    split at h
    · cases h
    · next hks =>
      -- a longer prefix has precedence over the one of a single character
      cases hdeep : longest (fun q => b (k :: q)) ks with
      | some w =>
        obtain rfl : w = v := by simpa [hdeep] using h
        obtain ⟨q, hq, hpre, hne, hbq, hlong⟩ := ih hdeep
        refine ⟨k :: q, by simp, List.cons_prefix_cons.mpr ⟨rfl, hpre⟩, by simpa using hne, hbq, ?_⟩
        intro q' hpre' hne' hlen
        obtain ⟨j, js, rfl⟩ := List.exists_cons_of_length_pos (Nat.zero_lt_of_lt hlen)
        obtain ⟨rfl, hjs⟩ := List.cons_prefix_cons.mp hpre'
        exact hlong js hjs (fun hjk => hne' (by rw [hjk])) (by simpa using hlen)
      | none =>
        have hk : b [k] = some v := by simpa [hdeep] using h
        refine ⟨[k], by simp, List.prefix_append [k] ks, by simpa using Ne.symm hks, hk, ?_⟩
        intro q' hpre' hne' hlen
        obtain ⟨j, js, rfl⟩ := List.exists_cons_of_length_pos (Nat.zero_lt_of_lt hlen)
        obtain ⟨rfl, hjs⟩ := List.cons_prefix_cons.mp hpre'
        have hj : js ≠ [] := by
          rintro rfl
          exact absurd hlen (by simp)
        exact longest_eq_none.mp hdeep js hj hjs fun hjk => hne' (by rw [hjk])

section Node

variable {c k : CChar} {low high equal : TSTree ν} {d : Cell ν}

theorem lookup_lt (h : k < c) (q : List CChar) :
    lookup (node c low high equal d) (k :: q) = lookup low (k :: q) := by
  rw [lookup, get?_lt h, lookup]

theorem lookup_gt (h : c < k) (q : List CChar) :
    lookup (node c low high equal d) (k :: q) = lookup high (k :: q) := by
  rw [lookup, get?_gt h, lookup]

theorem lookup_self : lookup (node c low high equal d) [c] = d.value := by
  simp [lookup]

theorem lookup_self_cons {q : List CChar} (hq : q ≠ []) :
    lookup (node c low high equal d) (c :: q) = lookup equal q := by
  obtain ⟨j, js, rfl⟩ := List.exists_cons_of_ne_nil hq
  rw [lookup, get?_self_cons, lookup]

end Node

/-- Prefixes of the rest of a key, seen from the node of its first character. -/
theorem longest_self {c : CChar} {low high equal : TSTree ν} {d : Cell ν} {ks : List CChar}
    (hks : ks ≠ []) : longest (lookup (node c low high equal d)) (c :: ks) =
      (longest (lookup equal) ks).or d.value := by
  obtain ⟨j, js, rfl⟩ := List.exists_cons_of_ne_nil hks
  have hdeep : longest (fun q => lookup (node c low high equal d) (c :: q)) (j :: js) =
      longest (lookup equal) (j :: js) :=
    longest_congr (fun q => lookup_self_cons (by simp)) js
  rw [longest, if_neg hks, hdeep, lookup_self]

/-- **The loop over the key.** It ends where the walk ends, and remembers a node with the value of
the longest bound proper prefix. -/
theorem prefixWalk_eq {t : TSTree ν} (ht : t.Live) {last : TSTree ν} (hlast : last.Live) (i : ℤ)
    {key : List CChar} (hkey : key ≠ []) :
    ∃ last', prefixWalk (fun i => pure (i + 1)) t last i key = .ok (t.walk key, last') ∧
      last'.Live ∧ chainValue last' = (longest (lookup t) key).or (chainValue last) := by
  induction t generalizing last i key with
  | nil =>
    obtain ⟨k, ks, rfl⟩ := List.exists_cons_of_ne_nil hkey
    refine ⟨last, by simp [prefixWalk, pure, Except.pure], hlast, ?_⟩
    rw [longest_eq_none.mpr fun q _ _ _ => by simp [lookup], Option.none_or]
  | dead => exact ht.elim
  | node c low high equal d ihl ihh ihe =>
    obtain ⟨hl, hh, he⟩ := ht
    obtain ⟨k, ks, rfl⟩ := List.exists_cons_of_ne_nil hkey
    rcases lt_trichotomy k c with hlt | rfl | hgt
    · obtain ⟨last', hwalk, hlive, hvalue⟩ := ihl hl hlast i hkey
      refine ⟨last', ?_, hlive, ?_⟩
      · rw [walk_lt hlt, prefixWalk, if_pos hlt]
        exact hwalk
      · rw [longest_congr (lookup_lt hlt), hvalue]
    · by_cases hks : ks = []
      · subst hks
        refine ⟨last, ?_, hlast, ?_⟩
        · rw [prefixWalk, if_neg (lt_irrefl k), if_pos rfl, walk_self]
          rfl
        · rfl
      · obtain ⟨j, js, rfl⟩ := List.exists_cons_of_ne_nil hks
        rw [walk_self_cons, longest_self hks, prefixWalk, if_neg (lt_irrefl k), if_pos rfl,
          pure_bind, if_pos hks]
        by_cases hv : d.value = none
        · -- a node without a value is not remembered
          obtain ⟨last', hwalk, hlive, hvalue⟩ := ihe he hlast (i + 1) hks
          rw [if_neg (not_not.mpr hv), hv, Option.or_none]
          exact ⟨last', hwalk, hlive, hvalue⟩
        · have hnode : (node k low high equal d).Live := ⟨hl, hh, he⟩
          obtain ⟨last', hwalk, hlive, hvalue⟩ := ihe he hnode (i + 1) hks
          refine ⟨last', ?_, hlive, ?_⟩
          · rw [if_pos hv]
            exact hwalk
          · obtain ⟨v, hdv⟩ := Option.ne_none_iff_exists'.mp hv
            rw [hvalue, chainValue, if_neg hv, hdv]
            cases longest (lookup equal) (j :: js) <;> rfl
    · obtain ⟨last', hwalk, hlive, hvalue⟩ := ihh hh hlast i hkey
      refine ⟨last', ?_, hlive, ?_⟩
      · rw [walk_gt hgt, prefixWalk, if_neg hgt.not_gt, if_neg hgt.ne']
        exact hwalk
      · rw [longest_congr (lookup_gt hgt), hvalue]

/-- **Prefix search** on a live tree. -/
theorem searchPrefix_eq {t : TSTree ν} (ht : t.Live) {key : List CChar} (hkey : key ≠ []) :
    searchPrefix t key = .ok (if (t.get? key).isNone then longest (lookup t) key
      else chainValue (t.walk key)) := by
  obtain ⟨last, hwalk, hlive, hvalue⟩ := prefixWalk_eq ht (show (nil : TSTree ν).Live from trivial) 0
    hkey
  unfold searchPrefix
  rw [if_neg hkey, hwalk, ok_bind]
  have hfound := ht.walk key
  rw [t.get?_of_ne_nil hkey]
  cases hw : t.walk key with
  | nil =>
    show firstValue last = .ok (longest (lookup t) key)
    rw [firstValue_of_live hlive, hvalue, chainValue, Option.or_none]
  | dead =>
    rw [hw] at hfound
    exact hfound.elim
  | node c low high equal d =>
    rw [hw] at hfound
    show firstValue (node c low high equal d) = .ok (chainValue (node c low high equal d))
    exact firstValue_of_live hfound

/-! ## Trees built by insertions

After insertions alone every new path ends with a value. So every node has a value or leads on to one,
and the search does not end at nothing when the key has a node. -/

/-- Every node has a value or goes on. -/
def Fruitful : TSTree ν → Prop
  | nil => True
  | dead => True
  | node _ low high equal data =>
      (data.value ≠ none ∨ equal ≠ nil) ∧ Fruitful low ∧ Fruitful high ∧ Fruitful equal

theorem bindValue_ne_none (value : ν) (c : Cell ν) : (bindValue value c).value ≠ none := by
  rw [bindValue_value]
  cases c.value <;> simp

theorem upsert_ne_nil (value : ν) {key : List CChar} (hkey : key ≠ []) (t : TSTree ν) :
    upsert blank (bindValue value) key t ≠ nil := by
  obtain ⟨k, ks, rfl⟩ := List.exists_cons_of_ne_nil hkey
  cases t with
  | nil => cases ks <;> simp
  | dead => simp
  | node c low high equal d =>
    rcases lt_trichotomy k c with hlt | rfl | hgt
    · simp [upsert_lt hlt]
    · cases ks <;> simp
    · simp [upsert_gt hgt]

/-- Insertion ends every new path with a value. -/
theorem Fruitful.upsert (value : ν) {key : List CChar} {t : TSTree ν} (h : Fruitful t)
    (hkey : key ≠ []) : Fruitful (upsert blank (bindValue value) key t) := by
  induction key, t using grow_induction with
  | empty t => exact absurd rfl hkey
  | nil k ks ih =>
    cases ks with
    | nil =>
      rw [upsert_nil]
      exact ⟨Or.inl (bindValue_ne_none value (blank k)), trivial, trivial, trivial⟩
    -- a new node without a value leads on to the one that will have it
    | cons j js =>
      rw [upsert_nil_cons]
      exact ⟨Or.inr (upsert_ne_nil value (by simp) nil), trivial, trivial, ih trivial (by simp)⟩
  | dead k ks => simpa using h
  | lt k ks c low high equal d hlt ih =>
    obtain ⟨hd, hl, hh, he⟩ := h
    rw [upsert_lt hlt]
    exact ⟨hd, ih hl hkey, hh, he⟩
  | self c ks low high equal d ih =>
    obtain ⟨hd, hl, hh, he⟩ := h
    cases ks with
    | nil =>
      rw [upsert_self]
      exact ⟨Or.inl (bindValue_ne_none value d), hl, hh, he⟩
    | cons j js =>
      rw [upsert_self_cons]
      exact ⟨Or.inr (upsert_ne_nil value (by simp) equal), hl, hh, ih he (by simp)⟩
  | gt k ks c low high equal d hgt ih =>
    obtain ⟨hd, hl, hh, he⟩ := h
    rw [upsert_gt hgt]
    exact ⟨hd, hl, ih hh hkey, he⟩

/-- Every part of a fruitful tree is fruitful. -/
theorem Fruitful.walk {t : TSTree ν} (h : Fruitful t) (p : List CChar) : Fruitful (t.walk p) := by
  induction t generalizing p with
  | nil => simpa using h
  | dead => simpa using h
  | node c low high equal d ihl ihh ihe =>
    match p with
    | [] => exact h
    | k :: ks =>
      rcases lt_trichotomy k c with hlt | rfl | hgt
      · rw [walk_lt hlt]
        exact ihl h.2.1 _
      · cases ks with
        | nil => rwa [walk_self]
        | cons j js =>
          rw [walk_self_cons]
          exact ihe h.2.2.2 _
      · rw [walk_gt hgt]
        exact ihh h.2.2.1 _

/-- The `equal` links from a node lead to a value, which is the one of a string. -/
theorem Fruitful.chainValue {t : TSTree ν} (h : Fruitful t) (ht : t.Live) (hne : t ≠ nil) :
    ∃ w v, w ≠ [] ∧ TSTree.chainValue t = some v ∧ lookup t w = some v := by
  induction t with
  | nil => exact absurd rfl hne
  | dead => exact ht.elim
  | node c low high equal d ihl ihh ihe =>
    obtain ⟨hd, -, -, he⟩ := h
    unfold TSTree.chainValue
    cases hv : d.value with
    | some v => exact ⟨[c], v, by simp, rfl, by rw [lookup_self, hv]⟩
    | none =>
      obtain ⟨w, v, hw, hchain, hat⟩ := ihe he ht.2.2 (hd.resolve_left (not_not.mpr hv))
      exact ⟨c :: w, v, by simp, hchain, by rw [lookup_self_cons hw, hat]⟩

/-- A node without a value goes on, to the value of a longer string. -/
theorem Fruitful.goes_on {t low high equal : TSTree ν} (h : Fruitful t) (ht : t.Live) {c : CChar}
    {d : Cell ν} {q : List CChar} (hq : q ≠ []) (hw : t.walk q = node c low high equal d)
    (hd : d.value = none) :
    ∃ w v, w ≠ [] ∧ TSTree.chainValue equal = some v ∧ lookup t (q ++ w) = some v := by
  have hnode := h.walk q
  have hlive := ht.walk q
  rw [hw] at hnode hlive
  obtain ⟨w, v, hw', hchain, hat⟩ := Fruitful.chainValue hnode.2.2.2 hlive.2.2
    (hnode.1.resolve_left (not_not.mpr hd))
  exact ⟨w, v, hw', hchain, by rw [lookup, get?_append_of_walk hw hq hw']; exact hat⟩

/-- The operations of a sequence of `TSTree_insert` calls, which free nothing. -/
def insertions (pairs : List (Key × ν)) : List (MapOp ν) :=
  pairs.map fun pair => .insert pair.1 pair.2

def insertPair (root : TSTree ν) (pair : Key × ν) : Except Fault (TSTree ν) :=
  insert root pair.1 pair.2

/-- What the route of a key is to be: its own value; without one, the value of a key that goes on
from it; without one, the value of the longest bound key that is a proper prefix of it. -/
structure RightRoute (b : Key → Option ν) (k : Key) (r : Option ν) : Prop where
  own : ∀ v, b k = some v → r = some v
  completion : b k = none → (∃ k' : Key, k.1 <+: k'.1 ∧ b k' ≠ none) →
    ∃ k' : Key, k.1 <+: k'.1 ∧ k' ≠ k ∧ b k' ≠ none ∧ r = b k'
  longest : (∀ k' : Key, k.1 <+: k'.1 → b k' = none) → ∀ k' : Key, k'.1 <+: k.1 → b k' ≠ none →
    ∃ q : Key, q.1 <+: k.1 ∧ b q ≠ none ∧ r = b q ∧
      ∀ k' : Key, k'.1 <+: k.1 → b k' ≠ none → k'.1.length ≤ q.1.length
  nothing : (∀ k' : Key, k.1 <+: k'.1 ∨ k'.1 <+: k.1 → b k' = none) → r = none

/-- A key without a node. The search goes back to the longest bound proper prefix. -/
theorem rightRoute_missing {t : TSTree ν} {k : Key} (hk : t.get? k = none) :
    RightRoute (valueOf t) k (longest (lookup t) k) := by
  have hover : ∀ k' : Key, k.1 <+: k'.1 → valueOf t k' = none := by
    intro k' hpre
    cases hget : t.get? k' with
    | none => rw [valueOf, hget]; rfl
    | some d =>
      have hsome := get?_isSome_of_prefix k.2 hpre (by rw [hget]; rfl)
      rw [hk] at hsome
      cases hsome
  -- so neither the key nor any that goes on from it is bound
  have hself := hover k (List.prefix_refl k.1)
  refine ⟨fun v hv => ?_, fun _ hex => ?_, fun _ k' hpre hk' => ?_, fun hall => ?_⟩
  · rw [hself] at hv
    cases hv
  · obtain ⟨k', hpre, hk'⟩ := hex
    exact absurd (hover k' hpre) hk'
  · have hne : k'.1 ≠ k.1 := fun heq => hk' (by rw [Subtype.ext heq, hself])
    cases hlong : longest (lookup t) k with
    | none => exact absurd (longest_eq_none.mp hlong k' k'.2 hpre hne) hk'
    | some v =>
      obtain ⟨q, hq, hqpre, -, hqv, hqlong⟩ := longest_eq_some hlong
      have hbound : valueOf t ⟨q, hq⟩ = some v := hqv
      refine ⟨⟨q, hq⟩, hqpre, by rw [hbound]; simp, hbound.symm, fun k'' hpre'' hk'' => ?_⟩
      by_contra hlt
      have hne'' : k''.1 ≠ k.1 := fun heq => hk'' (by rw [Subtype.ext heq, hself])
      exact hk'' (hqlong k'' hpre'' hne'' (not_le.mp hlt))
  · exact longest_eq_none.mpr fun q hq hpre _ => hall ⟨q, hq⟩ (Or.inr hpre)

/-- **Prefix search in a fruitful tree.** -/
theorem Fruitful.rightRoute {t : TSTree ν} (h : Fruitful t) (ht : t.Live) (k : Key) :
    ∃ r, searchPrefix t k = .ok r ∧ RightRoute (valueOf t) k r := by
  rw [searchPrefix_eq ht k.2]
  cases hget : t.get? k with
  | none => exact ⟨_, rfl, rightRoute_missing hget⟩
  | some d =>
    refine ⟨_, rfl, ?_⟩
    obtain ⟨c, low, high, equal, hw⟩ := walk_of_get? hget
    have hself : valueOf t k = d.value := by rw [valueOf, hget]; rfl
    have hrefl := List.prefix_refl k.1
    rw [show (some d).isNone = false from rfl, if_neg (by simp), hw, TSTree.chainValue]
    cases hv : d.value with
    | some v =>
      rw [hv] at hself
      refine ⟨fun v' hv' => ?_, fun hnone => ?_, fun hall => ?_, fun hall => ?_⟩
      · rw [← hself, hv', if_neg (by simp)]
      · rw [hself] at hnone
        cases hnone
      · rw [hall k hrefl] at hself
        cases hself
      · rw [hall k (Or.inl hrefl)] at hself
        cases hself
    | none =>
      rw [hv] at hself
      -- a node without a value leads on to one with a value
      obtain ⟨w, v, hw', hchain, hat⟩ := h.goes_on ht k.2 hw hv
      have hlong : valueOf t ⟨k.1 ++ w, by simp [k.2]⟩ = some v := hat
      rw [if_pos rfl, hchain]
      have hpre : k.1 <+: k.1 ++ w := List.prefix_append k.1 w
      refine ⟨fun v' hv' => ?_, fun _ _ => ⟨⟨k.1 ++ w, by simp [k.2]⟩, hpre, fun heq => ?_,
        by rw [hlong]; simp, hlong.symm⟩, fun hall => ?_, fun hall => ?_⟩
      · rw [hself] at hv'
        cases hv'
      · exact hw' (List.append_right_eq_self.mp (congrArg Subtype.val heq))
      · rw [hall _ hpre] at hlong
        cases hlong
      · rw [hall _ (Or.inl hpre)] at hlong
        cases hlong

/-- A run of insertions, which leaves a live and fruitful tree. -/
theorem run_insertions (pairs : List (Key × ν)) :
    ∃ root, Run.run insertPair nil pairs = .ok root ∧ root.Live ∧ root.Ordered ∧ Fruitful root ∧
      ∀ k, valueOf root k = bound k (insertions pairs) := by
  have hkeep : ∀ (ps : List (Key × ν)) (t : TSTree ν), t.Live → t.Ordered → Fruitful t →
      Run.run insertPair t ps = .ok ((insertions ps).foldl MapOp.tree t) ∧
        ((insertions ps).foldl MapOp.tree t).Ordered ∧
        Fruitful ((insertions ps).foldl MapOp.tree t) := by
    intro ps
    induction ps with
    | nil => exact fun t _ ho hf => ⟨rfl, ho, hf⟩
    | cons p ps ih =>
      intro t ht ho hf
      obtain ⟨hrun, hord, hfruit⟩ :=
        ih _ (ht.upsert _ _) (ho.upsert _ _) (hf.upsert p.2 p.1.2)
      exact ⟨(Run.run_cons_ok _).mpr ⟨_, insert_eq p.2 ht p.1.2, hrun⟩, hord, hfruit⟩
  obtain ⟨hrun, hord, hfruit⟩ := hkeep pairs nil trivial trivial trivial
  obtain ⟨hlive, hvalue⟩ := trees_nil (insertions pairs)
  exact ⟨_, hrun, hlive, hord, hfruit, hvalue⟩

/-- **Prefix search in a tree built by insertions** finds the right route for every key. -/
theorem searchPrefix_inserted (pairs : List (Key × ν)) :
    ∃ root, Run.run insertPair nil pairs = .ok root ∧
      ∀ k : Key, ∃ r, searchPrefix root k = .ok r ∧
        RightRoute (fun k => bound k (insertions pairs)) k r := by
  obtain ⟨root, hrun, hlive, -, hfruit, hvalue⟩ := run_insertions pairs
  refine ⟨root, hrun, fun k => ?_⟩
  rw [← funext hvalue]
  exact hfruit.rightRoute hlive k

end Lcthw.TSTree
