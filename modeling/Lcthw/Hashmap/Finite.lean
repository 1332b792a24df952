import Lcthw.Hashmap.Map
import Lcthw.Run

/-!
# Lcthw — the hash map is a finite map over whole runs

A map is compared with a function from keys to the data they are bound to, which does not tell
keys apart that `bstrcmp` finds equal.

* **`Agrees`**: the map answers every `get` and `delete` and every traversal like that function.
* **`Tidy`**: a deletion does not put the last node of a bucket before a smaller one, and a bucket
  that is full can grow.
* **`finite_map_of_tidy`**: over a whole run of tidy calls the map agrees. When no data are null it
  agrees for no longer than that: a bucket out of order hides one of its keys at once.
-/

namespace Lcthw.Hashmap

open DArray (Junk)

variable {V : Type}

/-! ## Calls

Each call is made on the map and on the bindings. Beside the calls that change something there are the
searches, for every key, and a traversal. -/

inductive Op (V : Type) where
  | set (key : List CChar) (data : Option V)
  | get (key : List CChar)
  | delete (key : List CChar)

/-- The keys that are bound, each to what it is bound to. -/
abbrev Bindings (V : Type) := List CChar → Option (Option V)

/-- The latest `set` of a key that no `delete` follows. -/
def serve (bound : Bindings V) : Op V → Bindings V
  | .set key data => fun k => if bstrcmp k key = 0 then some data else bound k
  | .get _ => bound
  | .delete key => fun k => if bstrcmp k key = 0 then none else bound k

/-- A map beside what is bound in it. -/
structure Shadowed (V : Type) where
  map : Hashmap V
  bound : Bindings V

def begin (h : List CChar → UInt32) : Shadowed V :=
  { map := create none (some h), bound := fun _ => none }

section Junk

variable (junk : Junk (HashmapNode V))

def exec (map : Hashmap V) : Op V → Except Fault (Hashmap V)
  | .set key data => do
      let (map, _) ← map.set junk key data
      pure map
  | .get key => do
      let _ ← map.get key
      pure map
  | .delete key => do
      let (map, _) ← map.delete junk key
      pure map

def step (s : Shadowed V) (op : Op V) : Except Fault (Shadowed V) := do
  let map ← exec junk s.map op
  pure { map, bound := serve s.bound op }

/-- The map answers like what is bound in it: a traversal whose callback returns 0 visits, for each
key, one node if the key is bound and none if it is not. -/
structure Agrees (s : Shadowed V) : Prop where
  get : ∀ k, s.map.get k = .ok (s.bound k).join
  delete : ∀ k, ∃ map, s.map.delete junk k = .ok (map, (s.bound k).join)
  traverse : ∀ {σ : Type} (traverse_cb : σ → Option (HashmapNode V) → ℤ × σ) (s₀ : σ),
    (∀ s n, (traverse_cb s n).1 = 0) → ∃ visited,
      s.map.traverse traverse_cb s₀ = .ok (0, called traverse_cb visited s₀) ∧
      ∀ k, (withKey visited k).map (·.data) = (s.bound k).toList

/-- The key is bound in the bucket of `k`, behind `k`. -/
def Behind (s : Shadowed V) (k a : List CChar) : Prop :=
  (s.bound a).isSome ∧ bucketN (s.map.hash a) = bucketN (s.map.hash k) ∧ bstrcmp k a < 0

/-- A bound key is deleted only with at most one key behind it in its bucket, and a new key comes
only into a bucket that can take it. -/
def Tidy (s : Shadowed V) : Op V → Prop
  | .set k _ => s.bound k = none → s.map.RoomFor k
  | .get _ => True
  | .delete k => (s.bound k).isSome → ∀ a b, Behind s k a → Behind s k b → bstrcmp a b = 0

end Junk

/-! ## What is bound, in the nodes

The nodes of a map bind keys to data, and a key belongs to one bucket. So a call that changes one bucket
changes the bindings of its keys and of no others. -/

/-- The nodes are those of the bound keys. -/
def Binds (h : List CChar → UInt32) (nodes : List (List (HashmapNode V))) (bound : Bindings V) :
    Prop :=
  ∀ k ns, nodes[bucketN (h k)]? = some ns → (withKey ns k).map (·.data) = (bound k).toList

section Binds

variable {h : List CChar → UInt32} {nodes : List (List (HashmapNode V))} {bound : Bindings V}
  {ns l r : List (HashmapNode V)} {n : HashmapNode V} {k : List CChar}

/-- One bucket changes, and what is bound changes in it only. -/
theorem Binds.change (hb : Binds h nodes bound) {i : ℕ} {bound' : Bindings V}
    (hin : ∀ k, bucketN (h k) = i → (withKey ns k).map (·.data) = (bound' k).toList)
    (hout : ∀ k, bucketN (h k) ≠ i → bound' k = bound k) : Binds h (nodes.set i ns) bound' := by
  intro k ms hms
  rw [List.getElem?_set] at hms
  by_cases hk : bucketN (h k) = i
  · rw [if_pos hk.symm] at hms
    split at hms
    · obtain rfl := Option.some.inj hms
      exact hin k hk
    · cases hms
  · rw [if_neg (Ne.symm hk)] at hms
    rw [hout k hk]
    exact hb k ms hms

/-- Keys in different buckets are different. -/
theorem bucketN_ne (hh : ∀ a b, bstrcmp a b = 0 → h a = h b) {a b : List CChar}
    (hne : bucketN (h a) ≠ bucketN (h b)) : bstrcmp a b ≠ 0 :=
  fun heq => hne (congrArg bucketN (hh a b heq))

/-- A bucket with the node of `k` replaced, or with a new one, binds `k` to its data. -/
theorem Binds.set (hb : Binds h nodes bound) (hh : ∀ a b, bstrcmp a b = 0 → h a = h b)
    (hns : nodes[bucketN (h k)]? = some ns) (hs : Sorted (l ++ n :: r)) (hk : bstrcmp n.key k = 0)
    (hrest : ∀ a, bstrcmp n.key a ≠ 0 → withKey (l ++ r) a = withKey ns a) :
    Binds h (nodes.set (bucketN (h k)) (l ++ n :: r)) (serve bound (.set k n.data)) := by
  apply hb.change
  · intro a ha
    show _ = (if bstrcmp a k = 0 then some n.data else bound a).toList
    by_cases hak : bstrcmp a k = 0
    · rw [if_pos hak, hs.withKey_middle (bstrcmp_eq_trans hk (bstrcmp_eq_symm hak))]
      rfl
    · have hna : bstrcmp n.key a ≠ 0 := fun h =>
        hak (bstrcmp_eq_trans (bstrcmp_eq_symm h) hk)
      rw [if_neg hak, withKey_skip hna, hrest a hna]
      exact hb a ns (ha ▸ hns)
  · intro a ha
    exact if_neg (bucketN_ne hh ha)

/-- A bucket without the node of `k` binds the other keys as before. -/
theorem Binds.delete (hb : Binds h nodes bound) (hh : ∀ a b, bstrcmp a b = 0 → h a = h b)
    (hns : nodes[bucketN (h k)]? = some (l ++ n :: r)) (hs : Sorted (l ++ n :: r))
    (hk : bstrcmp n.key k = 0) (hperm : ns.Perm (l ++ r)) :
    Binds h (nodes.set (bucketN (h k)) ns) (serve bound (.delete k)) := by
  apply hb.change
  · intro a ha
    show _ = (if bstrcmp a k = 0 then none else bound a).toList
    have hfilter : (withKey ns a).Perm (withKey (l ++ r) a) := hperm.filter _
    by_cases hak : bstrcmp a k = 0
    · obtain ⟨hl, hr⟩ := hs.withKey_around (bstrcmp_eq_trans hk (bstrcmp_eq_symm hak))
      rw [withKey_append, hl, hr] at hfilter
      rw [if_pos hak, hfilter.eq_nil]
      rfl
    · have hna : bstrcmp n.key a ≠ 0 := fun h =>
        hak (bstrcmp_eq_trans (bstrcmp_eq_symm h) hk)
      rw [← withKey_skip hna] at hfilter
      have hmap := hfilter.map (·.data)
      rw [hb a (l ++ n :: r) (ha ▸ hns)] at hmap
      -- there is at most one node with the key, so no other order of them
      rw [if_neg hak]
      cases hbound : bound a with
      | none =>
        rw [hbound] at hmap
        exact hmap.eq_nil
      | some d =>
        rw [hbound] at hmap
        exact List.perm_singleton.mp hmap
  · intro a ha
    exact if_neg (bucketN_ne hh ha)

theorem Binds.create (h : List CChar → UInt32) :
    Binds h (List.replicate DEFAULT_NUMBER_OF_BUCKETS ([] : List (HashmapNode V))) fun _ => none := by
  intro k ns hns
  rw [List.eq_of_mem_replicate (List.mem_of_getElem? hns)]
  rfl

end Binds

/-! ## Maps in order

A map all of whose buckets are in order answers like its bindings. A tidy call keeps it so: a new key
goes to its place, and a deletion moves a node past at most one other. -/

/-- The map is laid out, its buckets are in order, and its nodes are those of the bound keys. -/
structure Models (h : List CChar → UInt32) (s : Shadowed V)
    (nodes : List (List (HashmapNode V))) : Prop where
  layout : Layout h s.map nodes
  sorted : ∀ ns ∈ nodes, Sorted ns
  binds : Binds h nodes s.bound

section Models

variable {h : List CChar → UInt32} {s : Shadowed V} {nodes : List (List (HashmapNode V))}

/-- A key has a node with what it is bound to, or none. -/
theorem Models.cases (hm : Models h s nodes) (k : List CChar) :
    ∃ ns, nodes[bucketN (h k)]? = some ns ∧ Sorted ns ∧
      ((∃ l n r, ns = l ++ n :: r ∧ bstrcmp n.key k = 0 ∧ s.bound k = some n.data) ∨
        ((∀ n ∈ ns, bstrcmp n.key k ≠ 0) ∧ s.bound k = none)) := by
  obtain ⟨ns, hns⟩ := hm.layout.exists_nodes k
  have hs := hm.sorted ns (List.mem_of_getElem? hns)
  have hbinds := hm.binds k ns hns
  refine ⟨ns, hns, hs, ?_⟩
  by_cases hex : ∃ n ∈ ns, bstrcmp n.key k = 0
  · obtain ⟨n, hn, hk⟩ := hex
    obtain ⟨l, r, rfl⟩ := List.append_of_mem hn
    refine Or.inl ⟨l, n, r, rfl, hk, ?_⟩
    rw [hs.withKey_middle hk] at hbinds
    exact Option.toList_eq_singleton_iff.mp hbinds.symm
  · have hnone : ∀ n ∈ ns, bstrcmp n.key k ≠ 0 := fun n hn hk => hex ⟨n, hn, hk⟩
    refine Or.inr ⟨hnone, ?_⟩
    rw [withKey_eq_nil.mpr hnone] at hbinds
    exact Option.toList_eq_nil_iff.mp hbinds.symm

/-- The nodes with a key, among those of the whole map. -/
theorem withKey_flatten (hl : Layout h s.map nodes) (hh : ∀ a b, bstrcmp a b = 0 → h a = h b)
    {k : List CChar} {ns : List (HashmapNode V)} (hns : nodes[bucketN (h k)]? = some ns) :
    withKey nodes.flatten k = withKey ns k := by
  -- equal keys have equal hashes, so that no other bucket has one
  have helse : ∀ ms : List (List (HashmapNode V)),
      (∀ m ∈ ms, ∃ i, i ≠ bucketN (h k) ∧ nodes[i]? = some m) → withKey ms.flatten k = [] := by
    intro ms hms
    refine withKey_eq_nil.mpr fun n hn heq => ?_
    obtain ⟨m, hm, hnm⟩ := List.mem_flatten.mp hn
    obtain ⟨i, hi, hget⟩ := hms m hm
    have hplaced := (hl.placed i m hget n hnm).2
    exact hi (hplaced.symm.trans (congrArg bucketN (hh _ _ heq)))
  obtain ⟨hlt, rfl⟩ := List.getElem?_eq_some_iff.mp hns
  have hsplit : nodes = nodes.take (bucketN (h k)) ++ nodes[bucketN (h k)] ::
      nodes.drop (bucketN (h k) + 1) := by
    rw [← List.drop_eq_getElem_cons hlt, List.take_append_drop]
  have hflat := congrArg (fun ns => withKey (List.flatten ns) k) hsplit
  simp only [List.flatten_append, List.flatten_cons, withKey_append] at hflat
  rw [hflat, helse, helse, List.append_nil, List.nil_append]
  · intro m hm
    obtain ⟨j, hj⟩ := List.getElem?_of_mem hm
    rw [List.getElem?_drop] at hj
    exact ⟨_, by omega, hj⟩
  · intro m hm
    obtain ⟨j, hj⟩ := List.getElem?_of_mem hm
    have hjlt := (List.getElem?_eq_some_iff.mp hj).1
    rw [List.length_take] at hjlt
    rw [List.getElem?_take_of_lt (by omega)] at hj
    exact ⟨j, by omega, hj⟩

/-- **A map in order agrees with what is bound.** -/
theorem Models.agrees (junk : Junk (HashmapNode V)) (hm : Models h s nodes)
    (hh : ∀ a b, bstrcmp a b = 0 → h a = h b) : Agrees junk s where
  get k := by
    obtain ⟨ns, hns, hs, -⟩ := hm.cases k
    rw [get_eq hm.layout hns hh hs, hm.binds k ns hns]
    cases s.bound k <;> rfl
  delete k := by
    obtain ⟨ns, hns, hs, ⟨l, n, r, rfl, hk, hbound⟩ | ⟨hnone, hbound⟩⟩ := hm.cases k
    · obtain ⟨map', hdelete, -⟩ := delete_found junk hm.layout hns hh hs hk
      rw [hbound]
      exact ⟨map', hdelete⟩
    · rw [hbound]
      exact ⟨s.map, delete_none junk hm.layout hns hnone⟩
  traverse traverse_cb s₀ hcb := by
    refine ⟨nodes.flatten, traverse_eq hm.layout hcb s₀, fun k => ?_⟩
    obtain ⟨ns, hns, -⟩ := hm.cases k
    rw [withKey_flatten hm.layout hh hns]
    exact hm.binds k ns hns

theorem models_begin (h : List CChar → UInt32) :
    Models h (begin h : Shadowed V) (List.replicate DEFAULT_NUMBER_OF_BUCKETS []) where
  layout := layout_create h
  sorted ns hns := by
    rw [List.eq_of_mem_replicate hns]
    exact List.Pairwise.nil
  binds := Binds.create h

theorem sorted_set {ns : List (HashmapNode V)} (hm : Models h s nodes) (hs : Sorted ns) (i : ℕ) :
    ∀ ms ∈ nodes.set i ns, Sorted ms := by
  intro ms hms
  rcases List.mem_or_eq_of_mem_set hms with hmem | rfl
  · exact hm.sorted ms hmem
  · exact hs

variable (junk : Junk (HashmapNode V))

/-- How many nodes there are when one bucket changes. -/
theorem length_flatten_set {i : ℕ} {ns ms : List (HashmapNode V)} (hns : nodes[i]? = some ns) :
    (nodes.set i ms).flatten.length + ns.length = nodes.flatten.length + ms.length := by
  induction nodes generalizing i with
  | nil => cases hns
  | cons xs nodes ih =>
    cases i with
    | zero =>
      obtain rfl : xs = ns := Option.some.inj hns
      rw [List.set_cons_zero, List.flatten_cons, List.flatten_cons, List.length_append,
        List.length_append]
      omega
    | succ i =>
      have hrest := ih (i := i) (by simpa using hns)
      rw [List.set_cons_succ, List.flatten_cons, List.flatten_cons, List.length_append,
        List.length_append]
      omega

/-- **`Hashmap_set`** of a key that is bound, or for which there is room. There is one more node
exactly when the key was not bound. -/
theorem set_models (hm : Models h s nodes) (hh : ∀ a b, bstrcmp a b = 0 → h a = h b)
    (k : List CChar) (data : Option V) (htidy : s.bound k = none → s.map.RoomFor k) :
    ∃ map' nodes', s.map.set junk k data = .ok (map', 0) ∧
      Models h ⟨map', serve s.bound (.set k data)⟩ nodes' ∧
      (s.bound k = none → nodes'.flatten.length = nodes.flatten.length + 1) ∧
      (s.bound k ≠ none → nodes'.flatten.length = nodes.flatten.length) := by
  obtain ⟨ns, hns, hs, ⟨l, n, r, rfl, hk, hbound⟩ | ⟨hnone, hbound⟩⟩ := hm.cases k
  · -- the key has a node, whose data is replaced
    obtain ⟨map', hset, hl'⟩ := set_found junk hm.layout hns hh hs hk data
    have hs' : Sorted (l ++ { n with data } :: r) :=
      pairwise_replace (n := n) (R := fun a b => upToNul a < upToNul b) rfl hs
    have hbinds : Binds h _ (serve s.bound (.set k data)) :=
      hm.binds.set (n := { n with data }) hh hns hs' hk fun a ha => (withKey_skip (n := n) ha).symm
    have hlength : (nodes.set (bucketN (h k)) (l ++ { n with data } :: r)).flatten.length +
        (l ++ n :: r).length = nodes.flatten.length + (l ++ { n with data } :: r).length :=
      length_flatten_set hns
    refine ⟨map', _, hset, ⟨hl', sorted_set hm hs' _, hbinds⟩, ?_, ?_⟩
    · rw [hbound]
      exact nofun
    · intro _
      simp only [List.length_append, List.length_cons] at hlength
      omega
  · -- a new node goes where the order has it
    obtain ⟨map', l, r, hset, rfl, hl', hs'⟩ :=
      set_new junk hm.layout hns hs hnone (htidy hbound) data
    have hbinds : Binds h _ (serve s.bound (.set k data)) :=
      hm.binds.set hh hns hs' (bstrcmp_eq.mpr rfl) fun a _ => rfl
    have hlength : (nodes.set (bucketN (h k)) (l ++ ⟨k, data, h k⟩ :: r)).flatten.length +
        (l ++ r).length = nodes.flatten.length + (l ++ ⟨k, data, h k⟩ :: r).length :=
      length_flatten_set hns
    refine ⟨map', _, hset, ⟨hl', sorted_set hm hs' _, hbinds⟩, ?_, ?_⟩
    · intro _
      simp only [List.length_append, List.length_cons] at hlength
      omega
    · exact fun hne => absurd hbound hne

theorem step_set (hm : Models h s nodes) (hh : ∀ a b, bstrcmp a b = 0 → h a = h b)
    (k : List CChar) (data : Option V) (htidy : s.bound k = none → s.map.RoomFor k) :
    ∃ s' nodes', step junk s (.set k data) = .ok s' ∧ Models h s' nodes' := by
  obtain ⟨map', nodes', hset, hm', -⟩ := set_models junk hm hh k data htidy
  refine ⟨⟨map', serve s.bound (.set k data)⟩, nodes', ?_, hm'⟩
  unfold step exec
  simp only []
  rw [hset]
  rfl

/-- A deletion, with the nodes it leaves. They are those of the bound keys, in some order. -/
theorem step_delete (hm : Models h s nodes) (hh : ∀ a b, bstrcmp a b = 0 → h a = h b)
    {k : List CChar} {l r : List (HashmapNode V)} {n : HashmapNode V}
    (hns : nodes[bucketN (h k)]? = some (l ++ n :: r)) (hk : bstrcmp n.key k = 0) :
    ∃ s', step junk s (.delete k) = .ok s' ∧
      Layout h s'.map (nodes.set (bucketN (h k)) (l ++ rotated r)) ∧
      Binds h (nodes.set (bucketN (h k)) (l ++ rotated r)) s'.bound := by
  have hs := hm.sorted _ (List.mem_of_getElem? hns)
  obtain ⟨map', hdelete, hl'⟩ := delete_found junk hm.layout hns hh hs hk
  refine ⟨⟨map', serve s.bound (.delete k)⟩, ?_, hl', ?_⟩
  · unfold step exec
    simp only []
    rw [hdelete]
    rfl
  · exact hm.binds.delete hh hns hs hk ((rotated_perm r).append_left l)

/-- The nodes behind a key are those of the keys behind it. -/
theorem Models.behind (hm : Models h s nodes) {k a : List CChar} {l r : List (HashmapNode V)}
    {n : HashmapNode V} (hns : nodes[bucketN (h k)]? = some (l ++ n :: r))
    (hk : bstrcmp n.key k = 0) :
    (Behind s k a → ∃ m ∈ r, bstrcmp m.key a = 0) ∧ (∀ m ∈ r, Behind s k m.key) := by
  have hs := hm.sorted _ (List.mem_of_getElem? hns)
  obtain ⟨-, hnr, hlr⟩ := List.pairwise_append.mp hs
  rw [bstrcmp_eq] at hk
  constructor
  · rintro ⟨hbound, hbucket, hlt⟩
    rw [hm.layout.hash] at hbucket
    obtain ⟨ns, hns', -, ⟨l', m, r', rfl, hma, -⟩ | ⟨-, hnone⟩⟩ := hm.cases a
    · -- the node of `a` is in the same bucket, and the order says on which side
      rw [hbucket, hns] at hns'
      have hmem : m ∈ l ++ n :: r := by
        rw [Option.some.inj hns']
        simp
      rw [bstrcmp_lt, ← bstrcmp_eq.mp hma, ← hk] at hlt
      rcases List.mem_append.mp hmem with hml | hmr
      · exact absurd (hlr m hml n List.mem_cons_self) hlt.not_gt
      · rcases List.mem_cons.mp hmr with rfl | hmr
        · exact absurd hlt (lt_irrefl _)
        · exact ⟨m, hmr, hma⟩
    · rw [hnone] at hbound
      cases hbound
  · intro m hmr
    have hmem : m ∈ l ++ n :: r := by simp [hmr]
    have hbucket := (hm.layout.placed _ _ hns m hmem).2
    refine ⟨?_, by rw [hm.layout.hash]; exact hbucket, ?_⟩
    · have hbinds := hm.binds m.key _ (hbucket ▸ hns)
      cases hbound : s.bound m.key with
      | some d => rfl
      | none =>
        rw [hbound] at hbinds
        have hnil := withKey_eq_nil.mp (List.map_eq_nil_iff.mp hbinds) m hmem
        exact absurd (bstrcmp_eq.mpr rfl) hnil
    · rw [bstrcmp_lt, ← hk]
      exact List.rel_of_pairwise_cons hnr hmr

theorem exists_cons_cons {α : Type} {xs : List α} (h : ¬ xs.length ≤ 1) :
    ∃ a b ys, xs = a :: b :: ys := by
  match xs, h with
  | [], h => exact absurd (Nat.zero_le 1) h
  | [a], h => exact absurd le_rfl h
  | a :: b :: ys, _ => exact ⟨a, b, ys, rfl⟩

/-- **A tidy call** keeps the map in order. -/
theorem step_tidy (hm : Models h s nodes) (hh : ∀ a b, bstrcmp a b = 0 → h a = h b) {op : Op V}
    (htidy : Tidy s op) : ∃ s' nodes', step junk s op = .ok s' ∧ Models h s' nodes' := by
  cases op with
  | set k data => exact step_set junk hm hh k data htidy
  | get k =>
    refine ⟨s, nodes, ?_, hm⟩
    unfold step exec
    simp only []
    rw [(hm.agrees junk hh).get k]
    rfl
  | delete k =>
    obtain ⟨ns, hns, hs, ⟨l, n, r, rfl, hk, hbound⟩ | ⟨hnone, hbound⟩⟩ := hm.cases k
    · obtain ⟨s', hstep, hl', hbinds⟩ := step_delete junk hm hh hns hk
      -- two nodes behind the deleted one would be two keys behind it
      have hshort : r.length ≤ 1 := by
        by_contra hlong
        obtain ⟨a, b, r', rfl⟩ := exists_cons_cons hlong
        have hbehind := (hm.behind hns hk (a := k)).2
        have hab := htidy (by rw [hbound]; rfl) a.key b.key (hbehind a (by simp))
          (hbehind b (by simp))
        have hsr := (List.pairwise_append.mp hs).2.1
        have hlt := List.rel_of_pairwise_cons (List.pairwise_cons.mp hsr).2 List.mem_cons_self
        exact absurd (bstrcmp_eq.mp hab) hlt.ne
      rw [rotated_short hshort] at hl' hbinds
      have hs' : Sorted (l ++ r) := hs.sublist (by simp)
      exact ⟨s', _, hstep, hl', sorted_set hm hs' _, hbinds⟩
    · refine ⟨⟨s.map, serve s.bound (.delete k)⟩, nodes, ?_, hm.layout, hm.sorted, ?_⟩
      · unfold step exec
        simp only []
        rw [delete_none junk hm.layout hns hnone]
        rfl
      · have hsame : serve s.bound (.delete k) = s.bound := by
          funext a
          show (if bstrcmp a k = 0 then none else s.bound a) = s.bound a
          split
          · next hak =>
            obtain ⟨ms, hms, -, ⟨l, m, r, rfl, hma, -⟩ | ⟨-, hnone'⟩⟩ := hm.cases a
            · rw [hh a k hak, hns] at hms
              refine absurd (bstrcmp_eq_trans hma hak) (hnone m ?_)
              rw [Option.some.inj hms]
              simp
            · exact hnone'.symm
          · rfl
        show Binds h nodes (serve s.bound (.delete k))
        rw [hsame]
        exact hm.binds

/-! ## Untidy calls

A deletion moves the last node of a bucket into the free slot. With two nodes or more behind that slot
the moved one comes before a smaller one, and one of the two is not found any more. -/

/-- The data of every bound key are there. -/
def Supplied (s : Shadowed V) : Prop :=
  ∀ k, s.bound k ≠ some none

/-- A node of a bucket is the node of a bound key, whose data are there. -/
theorem Binds.data {bound : Bindings V} (hb : Binds h nodes bound) (hsup : ∀ k, bound k ≠ some none)
    {n : HashmapNode V} {ns : List (HashmapNode V)} (hns : nodes[bucketN (h n.key)]? = some ns)
    (hn : n ∈ ns) : ∃ d, bound n.key = some (some d) := by
  have hbinds := hb n.key ns hns
  have hmem : n.data ∈ (withKey ns n.key).map (·.data) := by
    apply List.mem_map_of_mem
    simp [withKey, hn, bstrcmp_eq]
  rw [hbinds, Option.mem_toList] at hmem
  cases hdata : n.data with
  | none =>
    rw [hdata] at hmem
    exact absurd hmem (hsup n.key)
  | some d =>
    rw [hdata] at hmem
    exact ⟨d, hmem⟩

/-- **A deletion that puts the last node of a bucket before a smaller one** hides one of the two. -/
theorem hidden {map : Hashmap V} {bound : Bindings V} {i : ℕ} {l r : List (HashmapNode V)}
    {z y : HashmapNode V} (hl : Layout h map nodes) (hb : Binds h nodes bound)
    (hsup : ∀ k, bound k ≠ some none) (hns : nodes[i]? = some (l ++ z :: y :: r))
    (hyz : bstrcmp y.key z.key < 0) (hdistinct : (l ++ z :: y :: r).Pairwise fun a b =>
      upToNul a.key ≠ upToNul b.key) : ∃ k, map.get k ≠ .ok (bound k).join := by
  obtain ⟨bucket, hget, hbucket⟩ := hl.bucket hns
  cases bucket with
  | none => exact absurd hbucket (by simp [BucketHolds])
  | some bucket =>
    have hfind : ∀ n ∈ l ++ z :: y :: r,
        map.findBucket n.key false = .ok (map, some bucket, n.hash) := by
      intro n hn
      obtain ⟨hhash, hplace⟩ := hl.placed _ _ hns n hn
      rw [hhash]
      exact hl.findBucket_eq (by rw [hplace]; exact hget)
    -- two neighbours in the wrong order: one of the two keys is not found
    have hzy : 0 < bstrcmp z.key y.key := bstrcmp_gt.mpr (bstrcmp_lt.mp hyz)
    obtain ⟨n, hn, hmiss⟩ := get_inverted hfind hbucket (by rw [hl.compare]; exact hyz)
      (by rw [hl.compare]; exact hzy) (hdistinct.imp fun hne => by
        rw [hl.compare]
        exact ⟨fun h => hne (bstrcmp_eq.mp h), fun h => hne (bstrcmp_eq.mp h).symm⟩)
    obtain ⟨d, hd⟩ := hb.data hsup ((hl.placed _ _ hns n hn).2 ▸ hns) hn
    refine ⟨n.key, ?_⟩
    rw [hmiss, hd]
    intro heq
    cases heq

/-- **An untidy call** leaves a map that does not agree. -/
theorem step_untidy (hm : Models h s nodes) (hh : ∀ a b, bstrcmp a b = 0 → h a = h b) {op : Op V}
    {s' : Shadowed V} (hsup : Supplied s') (htidy : ¬ Tidy s op) (hstep : step junk s op = .ok s') :
    ¬ Agrees junk s' := by
  cases op with
  | set k data =>
    simp only [Tidy, Classical.not_imp] at htidy
    obtain ⟨hbound, hroom⟩ := htidy
    obtain ⟨ns, hns, hs, ⟨l, n, r, rfl, hk, hsome⟩ | ⟨hnone, -⟩⟩ := hm.cases k
    · rw [hbound] at hsome
      cases hsome
    · obtain ⟨map', hset, hget⟩ := set_full junk hm.layout hns hnone hroom data
      unfold step exec at hstep
      simp only [] at hstep
      rw [hset] at hstep
      obtain rfl := Except.ok.inj hstep
      exact fun hagrees => nomatch hget.symm.trans (hagrees.get k)
  | get k => exact absurd trivial htidy
  | delete k =>
    simp only [Tidy, Classical.not_imp, not_forall] at htidy
    obtain ⟨hbound, a, b, ha, hb, hab⟩ := htidy
    obtain ⟨ns, hns, hs, ⟨l, n, r, rfl, hk, -⟩ | ⟨-, hnone⟩⟩ := hm.cases k
    · obtain ⟨s'', hstep', hl', hbinds⟩ := step_delete junk hm hh hns hk
      obtain rfl : s'' = s' := Except.ok.inj (hstep'.symm.trans hstep)
      -- the keys `a` and `b` have a node each
      have hlong : ¬ r.length ≤ 1 := by
        intro hshort
        obtain ⟨ma, hma, hka⟩ := (hm.behind hns hk).1 ha
        obtain ⟨mb, hmb, hkb⟩ := (hm.behind hns hk).1 hb
        have hsame : ma = mb := by
          obtain ⟨m, hr⟩ := List.length_eq_one_iff.mp
            (le_antisymm hshort (List.length_pos_of_mem hma))
          rw [hr, List.mem_singleton] at hma hmb
          rw [hma, hmb]
        subst hsame
        exact hab (bstrcmp_eq_trans (bstrcmp_eq_symm hka) hkb)
      obtain ⟨y, y', r', rfl⟩ := exists_cons_cons hlong
      obtain ⟨q, z, hq⟩ : ∃ q z, y' :: r' = q ++ [z] :=
        ⟨_, _, (List.dropLast_append_getLast (List.cons_ne_nil y' r')).symm⟩
      have hrotated : rotated (y :: y' :: r') = z :: y :: q := by
        rw [hq, rotated, ← List.cons_append, List.getLast?_concat, List.dropLast_concat]
        rfl
      have hsr := (List.pairwise_append.mp hs).2.1.of_cons
      have hyz : bstrcmp y.key z.key < 0 := by
        refine bstrcmp_lt.mpr (List.rel_of_pairwise_cons hsr ?_)
        rw [hq]
        simp
      have hdistinct : (l ++ rotated (y :: y' :: r')).Pairwise fun a b =>
          upToNul a.key ≠ upToNul b.key := by
        have hne : (l ++ y :: y' :: r').Pairwise fun a b => upToNul a.key ≠ upToNul b.key :=
          (hs.sublist (by simp)).imp fun hlt => hlt.ne
        exact (((rotated_perm _).append_left l).symm.pairwise_iff fun hne => hne.symm).mp hne
      have hlt : bucketN (h k) < nodes.length := (List.getElem?_eq_some_iff.mp hns).1
      rw [hrotated] at hl' hbinds hdistinct
      obtain ⟨key, hget⟩ := hidden hl' hbinds hsup (List.getElem?_set_self hlt) hyz hdistinct
      exact fun hagrees => hget (hagrees.get key)
    · rw [hnone] at hbound
      cases hbound

end Models

/-! ## Runs

The condition is checked at every call, in the state before it. When the data are not NULL it is not
only enough but needed, since the answers are wrong from the first untidy call on. -/

/-- A `set` of data that are not null, or another call. -/
def Op.Supplies : Op V → Prop
  | .set _ data => data ≠ none
  | _ => True

/-- Data that are not NULL stay so. -/
theorem supplied_step (junk : Junk (HashmapNode V)) {s s' : Shadowed V} {op : Op V}
    (hs : Supplied s) (hop : op.Supplies) (hstep : step junk s op = .ok s') : Supplied s' := by
  unfold step at hstep
  obtain ⟨map, -, hret⟩ := bind_eq_ok.mp hstep
  obtain rfl := Except.ok.inj hret
  intro k
  cases op with
  | set key data =>
    show (if bstrcmp k key = 0 then some data else s.bound k) ≠ some none
    split
    · exact fun h => hop (Option.some.inj h)
    · exact hs k
  | get key => exact hs k
  | delete key =>
    show (if bstrcmp k key = 0 then none else s.bound k) ≠ some none
    split
    · exact Option.some_ne_none none ∘ Eq.symm
    · exact hs k

/-- **A hash map is a finite map as long as its calls are tidy.** When the data are not null, it is
one for no longer than that. -/
theorem finite_map_of_tidy (junk : Junk (HashmapNode V)) {h : List CChar → UInt32}
    (hh : ∀ a b, bstrcmp a b = 0 → h a = h b) (ops : List (Op V)) :
    (Run.Along (step junk) Tidy (begin h) ops →
      Run.Sustained (step junk) (Agrees junk) (begin h) ops) ∧
    ((∀ op ∈ ops, op.Supplies) → Run.Sustained (step junk) (Agrees junk) (begin h) ops →
      Run.Along (step junk) Tidy (begin h) ops) := by
  constructor
  · intro htidy
    -- tidy calls keep the map in order, and such a map answers right
    have hinv := Run.sustained_of_along (Q := fun s => ∃ nodes, Models h s nodes)
      (fun s op hm hop => ?_) ⟨_, models_begin h⟩ htidy
    · exact hinv.mono fun s hm => hm.elim fun nodes hm => hm.agrees junk hh
    · obtain ⟨nodes, hm⟩ := hm
      obtain ⟨s', nodes', hstep, hm'⟩ := step_tidy junk hm hh hop
      exact ⟨s', hstep, nodes', hm'⟩
  · intro hsupplies hsustained
    refine Run.along_of_sustained (I := fun s => (∃ nodes, Models h s nodes) ∧ Supplied s)
      (A := fun _ op => op.Supplies) ?_ ?_ ⟨⟨_, models_begin h⟩, fun _ hk => by cases hk⟩
      (Run.along_of_forall hsupplies _) hsustained
    · rintro s op s' ⟨⟨nodes, hm⟩, hsup⟩ hop htidy hstep
      obtain ⟨s'', nodes', hstep', hm'⟩ := step_tidy junk hm hh htidy
      obtain rfl : s'' = s' := Except.ok.inj (hstep'.symm.trans hstep)
      exact ⟨⟨nodes', hm'⟩, supplied_step junk hsup hop hstep⟩
    · -- the first call that is not tidy leaves a wrong answer behind it
      rintro s op s' ⟨⟨nodes, hm⟩, hsup⟩ hop hstep hagrees
      by_contra htidy
      exact step_untidy junk hm hh (supplied_step junk hsup hop hstep) htidy hstep hagrees

theorem step_bound {junk : Junk (HashmapNode V)} {s s' : Shadowed V} {op : Op V}
    (hstep : step junk s op = .ok s') : s'.bound = serve s.bound op := by
  unfold step at hstep
  obtain ⟨map, -, hret⟩ := bind_eq_ok.mp hstep
  obtain rfl := Except.ok.inj hret
  rfl

/-- The elements and the slots of the bucket of a key. -/
def fill (map : Hashmap V) (k : List CChar) : Except Fault (Option (ℤ × ℤ)) :=
  (map.findBucket k false).map fun found => found.2.1.map fun bucket => (bucket.end, bucket.max)

theorem roomFor_of_fill {map : Hashmap V} {k : List CChar} {«end» max : ℤ}
    (h : fill map k = .ok (some («end», max))) (hfree : «end» + 1 < max) : map.RoomFor k := by
  intro bucket hash hfind
  unfold fill at h
  rw [hfind] at h
  obtain ⟨rfl, rfl⟩ := Prod.mk.inj (Option.some.inj (Except.ok.inj h))
  exact Or.inl hfree

/-- Three keys in one bucket, of which the second one is deleted. There is one key behind it. -/
theorem finite_map_of_tidy_three :
    Run.Sustained (step Junk.null) (Agrees Junk.null) (begin fun _ => 0)
      [.set (cstr "a") (some 1), .set (cstr "b") (some 2), .set (cstr "c") (some 3),
        .delete (cstr "b"), .get (cstr "c")] := by
  refine (finite_map_of_tidy Junk.null (fun _ _ _ => rfl) _).1 ⟨?_, fun s₁ h₁ => ?_⟩
  · -- the bucket is not there yet
    intro _ bucket hash hfind
    cases hfind
  have hrun₁ : Run.run (step Junk.null) (begin fun _ => 0) [.set (cstr "a") (some 1)] = .ok s₁ :=
    (Run.run_cons_ok _).mpr ⟨s₁, h₁, rfl⟩
  refine ⟨fun _ => ?_, fun s₂ h₂ => ?_⟩
  · have hfill : (Run.run (step Junk.null) (begin fun _ => 0) [.set (cstr "a") (some 1)]).map
        (fun s => fill s.map (cstr "b")) = .ok (.ok (some (1, 50))) := by
      decide +kernel
    rw [hrun₁] at hfill
    exact roomFor_of_fill (Except.ok.inj hfill) (by decide)
  have hrun₂ : Run.run (step Junk.null) (begin fun _ => 0)
      [.set (cstr "a") (some 1), .set (cstr "b") (some 2)] = .ok s₂ :=
    (Run.run_cons_ok _).mpr ⟨s₁, h₁, (Run.run_cons_ok _).mpr ⟨s₂, h₂, rfl⟩⟩
  refine ⟨fun _ => ?_, fun s₃ h₃ => ?_⟩
  · have hfill : (Run.run (step Junk.null) (begin fun _ => 0)
        [.set (cstr "a") (some 1), .set (cstr "b") (some 2)]).map
        (fun s => fill s.map (cstr "c")) = .ok (.ok (some (2, 50))) := by
      decide +kernel
    rw [hrun₂] at hfill
    exact roomFor_of_fill (Except.ok.inj hfill) (by decide)
  refine ⟨?_, fun s₄ _ => ⟨trivial, fun _ _ => trivial⟩⟩
  -- of the three keys only the last one is above the second one
  have hlast : ∀ x, Behind s₃ (cstr "b") x → bstrcmp x (cstr "c") = 0 := by
    rintro x ⟨hbound, -, hlt⟩
    rw [step_bound h₃, step_bound h₂, step_bound h₁] at hbound
    by_contra hc
    have hb : bstrcmp x (cstr "b") ≠ 0 := by
      rw [bstrcmp_neg (cstr "b")]
      omega
    have ha : bstrcmp x (cstr "a") ≠ 0 := by
      intro heq
      have hxa : upToNul x = upToNul (cstr "a") := bstrcmp_eq.mp heq
      have hba : upToNul (cstr "b") < upToNul x := bstrcmp_lt.mp hlt
      rw [hxa] at hba
      exact absurd hba (by decide)
    simp [serve, ha, hb, hc, begin] at hbound
  intro _ x y hx hy
  exact bstrcmp_eq_trans (hlast x hx) (bstrcmp_eq_symm (hlast y hy))

/-- Three keys in one bucket, of which the first is deleted: the third one comes before the second
one, which is not found any more. -/
theorem deletion_hides_key :
    ¬ Run.Sustained (step Junk.null) (Agrees Junk.null) (begin fun _ => 0)
      [.set (cstr "a") (some 1), .set (cstr "b") (some 2), .set (cstr "c") (some 3),
        .delete (cstr "a")] := by
  intro h
  obtain ⟨s, hrun, hagrees⟩ := h.last
  have hout : (Run.run (step Junk.null) (begin fun _ => 0)
      [.set (cstr "a") (some 1), .set (cstr "b") (some 2), .set (cstr "c") (some 3),
        .delete (cstr "a")]).map (fun s => (s.bound (cstr "b"), s.map.get (cstr "b"))) =
      .ok (some (some 2), .ok none) := by
    decide +kernel
  rw [hrun] at hout
  obtain ⟨hbound, hget⟩ := Prod.mk.inj (Except.ok.inj hout)
  have heq := hget.symm.trans (hagrees.get (cstr "b"))
  rw [hbound] at heq
  cases heq

end Lcthw.Hashmap
