import Lcthw.DArray
import Lcthw.TSTree.Traversal

/-!
# Lcthw — the completions of a prefix (`TSTree_possible_match_by_prefix`)

`add_all_psb` goes on from a node only when the node has a value, and it goes along all three links,
at the node of the prefix too.

* **`addAllPsb_eq`**: the values it pushes, as long as the array has room for them. An array that could
  not grow is `Spent`.
* **`collected_length_le`**: without a stop at a node without a value it pushes all values.
* **`completions_of_collectable`**: when the array holds the values of the stored keys that start
  with the prefix.
-/

namespace Lcthw.TSTree

open Ternary Ternary.Tree

open DArray (Junk)

variable {ν : Type}

/-! ## The code -/

section Junk

variable (junk : Junk ν)

/-- `add_all_psb`. Whether `DArray_push` succeeded is not looked at. -/
def addAllPsb : TSTree ν → DArray ν → Except Fault (DArray ν)
  | nil, list => pure list
  | dead, _ => throw .useAfterFree
  | node _ low high equal data, list =>
      match data.value with
      | none => pure list
      | some value => do
          let (_, list) ← list.push (some junk) (some value)
          let list ← addAllPsb equal list
          let list ← addAllPsb low list
          addAllPsb high list

/-- `TSTree_possible_match_by_prefix`. Its index is an `int`. -/
def possibleMatchByPrefix (root : TSTree ν) (key : List CChar) :
    Except Fault (Option (DArray ν)) :=
  if key = [] then pure none
  else do
    let (found, last) ← prefixWalk (fun i => int (i + 1)) root nil 0 key
    let list ← addAllPsb junk (orLast found last) (DArray.create 3)
    pure (some list)

end Junk

/-! ## What is pushed

The recursion pushes the value of a node and goes on along its three links, and stops at a node without
a value. What it would push into an array without bounds is a list; the array has that list for as long
as it can grow. -/

/-- The values that `add_all_psb` pushes. -/
def collected : TSTree ν → List ν
  | nil => []
  | dead => []
  | node _ low high equal data =>
      match data.value with
      | none => []
      | some value => value :: (collected equal ++ collected low ++ collected high)

/-- The value of a node. -/
def rootValue (t : TSTree ν) : Option ν :=
  t.data?.bind Cell.value

theorem collected_eq_nil {t : TSTree ν} : collected t = [] ↔ rootValue t = none := by
  cases t with
  | nil => exact ⟨fun _ => rfl, fun _ => rfl⟩
  | dead => exact ⟨fun _ => rfl, fun _ => rfl⟩
  | node c low high equal d =>
    show _ ↔ d.value = none
    unfold collected
    cases d.value <;> simp

/-- So many elements an array has room for that was created for three of them: its size is three
more than a multiple of 300, and an `int`. -/
def capacity : ℕ := 2147483402

/-- An array as `possibleMatchByPrefix` grows it. -/
structure Grown (list : DArray ν) (vs : List ν) : Prop where
  holds : list.Holds (vs.map some)
  max : list.max % DEFAULT_EXPAND_RATE = 3

theorem grown_create : Grown (DArray.create 3 : DArray ν) [] where
  holds := DArray.holds_create (by decide) (by decide)
  max := rfl

/-- An array that a push has filled and could not make larger. -/
structure Spent (list : DArray ν) : Prop where
  max : list.max < 0
  full : (list.contents.length : ℤ) ≤ list.end

theorem Spent.not_holds {list : DArray ν} (h : Spent list) (xs : List (Option ν)) :
    ¬ list.Holds xs := by
  intro hholds
  have hmax := h.max
  have hend := hholds.end
  have hroom := hholds.room
  omega

section Junk

variable (junk : Junk ν)

/-- There is room for one more. -/
theorem Grown.push {list : DArray ν} {vs : List ν} (h : Grown list vs) (v : ν)
    (hroom : vs.length < capacity) :
    ∃ list', list.push (some junk) (some v) = .ok (0, list') ∧ Grown list' (vs ++ [v]) := by
  have hrate : DEFAULT_EXPAND_RATE = 300 := rfl
  have hint : INT_MAX = 2147483647 := rfl
  have hcap : capacity = 2147483402 := rfl
  have hmod := h.max
  have hend := h.holds.end
  rw [hrate] at hmod
  rw [List.length_map] at hend
  have hfit : list.end + 1 < list.max ∨ list.max + DEFAULT_EXPAND_RATE ≤ INT_MAX := by omega
  obtain ⟨list', hpush, hholds⟩ := DArray.push_eq h.holds (some v) (h.holds.allocates junk hfit)
  have hmax := DArray.push_max junk h.holds hfit hpush
  refine ⟨list', hpush, by simpa using hholds, ?_⟩
  rw [hmax, hrate]
  split <;> omega

/-- A full array takes one value more than it can grow for. -/
theorem Grown.push_full {list : DArray ν} {vs : List ν} (h : Grown list vs) (v : ν)
    (hfull : capacity ≤ vs.length) :
    ∃ list', list.push (some junk) (some v) = .ok (-1, list') ∧ Spent list' := by
  have hrate : DEFAULT_EXPAND_RATE = 300 := rfl
  have hint : INT_MAX = 2147483647 := rfl
  have hcap : capacity = 2147483402 := rfl
  have hmod := h.max
  have hend := h.holds.end
  have hroom := h.holds.room
  have hmax := h.holds.max
  rw [hrate] at hmod
  rw [List.length_map] at hend
  have hlast : list.max ≤ list.end + 1 := by omega
  have hneg : toInt (list.max + DEFAULT_EXPAND_RATE) < 0 :=
    DArray.toInt_expanded_neg hmax (by omega)
  refine ⟨_, DArray.push_full (some junk) h.holds (some v) hlast (DArray.given_of_neg _ hneg), hneg, ?_⟩
  exact (h.holds.stored (some v)).2.1.trans_le hlast

/-- Nothing can be pushed any more. -/
theorem Spent.addAllPsb {t : TSTree ν} {list list' : DArray ν} (h : Spent list)
    (hadd : TSTree.addAllPsb junk t list = .ok list') : Spent list' := by
  cases t with
  | nil =>
    obtain rfl := Except.ok.inj hadd
    exact h
  | dead => cases hadd
  | node c low high equal d =>
    unfold TSTree.addAllPsb at hadd
    cases hv : d.value with
    | none =>
      rw [hv] at hadd
      obtain rfl := Except.ok.inj hadd
      exact h
    | some v =>
      rw [hv] at hadd
      simp only [DArray.push_behind (some junk) (some v) h.full] at hadd
      cases hadd

/-- **What `add_all_psb` pushes.** It leaves a spent array when there is no room for all of it. -/
theorem addAllPsb_eq {t : TSTree ν} (ht : t.Live) {list : DArray ν} {vs : List ν}
    (h : Grown list vs) (hle : vs.length ≤ capacity) :
    (vs.length + (collected t).length ≤ capacity ∧
      ∃ list', addAllPsb junk t list = .ok list' ∧ Grown list' (vs ++ collected t)) ∨
    (capacity < vs.length + (collected t).length ∧
      ∀ list', addAllPsb junk t list = .ok list' → Spent list') := by
  induction t generalizing list vs with
  | nil => exact Or.inl ⟨by simpa [collected] using hle, list, rfl, by simpa [collected] using h⟩
  | dead => exact ht.elim
  | node c low high equal d ihl ihh ihe =>
    obtain ⟨hl, hh, he⟩ := ht
    cases hv : d.value with
    | none =>
      have hnil : collected (node c low high equal d) = [] := by simp [collected, hv]
      have hstop : addAllPsb junk (node c low high equal d) list = .ok list := by
        unfold addAllPsb
        rw [hv]
        rfl
      rw [hnil, hstop, List.append_nil]
      exact Or.inl ⟨hle, list, rfl, h⟩
    | some v =>
      have hcons : collected (node c low high equal d) =
          v :: (collected equal ++ collected low ++ collected high) := by simp [collected, hv]
      rw [hcons]
      simp only [List.length_cons, List.length_append]
      unfold addAllPsb
      rw [hv]
      simp only []
      -- the value, and then the three links, as long as there is room
      rcases Nat.lt_or_ge vs.length capacity with hroom | hfull
      · obtain ⟨list₁, hpush, h₁⟩ := h.push junk v hroom
        have hle₁ : (vs ++ [v]).length ≤ capacity := by simpa using hroom
        rw [hpush, ok_bind]
        simp only []
        rcases ihe he h₁ hle₁ with ⟨hle₂, list₂, hadd₂, h₂⟩ | ⟨hlt, hspent⟩
        · rw [hadd₂, ok_bind]
          rcases ihl hl h₂ (by rwa [List.length_append]) with
            ⟨hle₃, list₃, hadd₃, h₃⟩ | ⟨hlt, hspent⟩
          · rw [hadd₃, ok_bind]
            rcases ihh hh h₃ (by rwa [List.length_append]) with
              ⟨hle₄, list₄, hadd₄, h₄⟩ | ⟨hlt, hspent⟩
            · refine Or.inl ⟨?_, list₄, hadd₄, by simpa using h₄⟩
              simp only [List.length_append, List.length_singleton] at hle₄
              omega
            · refine Or.inr ⟨?_, hspent⟩
              simp only [List.length_append, List.length_singleton] at hlt
              omega
          · refine Or.inr ⟨?_, fun list' hadd => ?_⟩
            · simp only [List.length_append, List.length_singleton] at hlt
              omega
            · obtain ⟨list₃, hlow, hhigh⟩ := bind_eq_ok.mp hadd
              exact (hspent list₃ hlow).addAllPsb junk hhigh
        · refine Or.inr ⟨?_, fun list' hadd => ?_⟩
          · simp only [List.length_append, List.length_singleton] at hlt
            omega
          · obtain ⟨list₂, hequal, hrest⟩ := bind_eq_ok.mp hadd
            obtain ⟨list₃, hlow, hhigh⟩ := bind_eq_ok.mp hrest
            exact ((hspent list₂ hequal).addAllPsb junk hlow).addAllPsb junk hhigh
      · obtain ⟨list₁, hpush, hspent⟩ := h.push_full junk v hfull
        refine Or.inr ⟨by omega, fun list' hadd => ?_⟩
        rw [hpush, ok_bind] at hadd
        obtain ⟨list₂, hequal, hrest⟩ := bind_eq_ok.mp hadd
        obtain ⟨list₃, hlow, hhigh⟩ := bind_eq_ok.mp hrest
        exact ((hspent.addAllPsb junk hequal).addAllPsb junk hlow).addAllPsb junk hhigh

end Junk

/-- **Where every node has a value**, all values are pushed. -/
theorem collected_perm {t : TSTree ν} (h : t.Every fun _ d => d.value ≠ none) :
    (collected t).Perm (values t) := by
  induction t with
  | nil => exact List.Perm.refl _
  | dead => exact List.Perm.refl _
  | node c low high equal d ihl ihh ihe =>
    have hl : low.Every fun _ d => d.value ≠ none :=
      fun e he => h e (mem_entries_node.mpr (Or.inl he))
    have hh : high.Every fun _ d => d.value ≠ none :=
      fun e he => h e (mem_entries_node.mpr (Or.inr (Or.inl he)))
    have he : equal.Every fun _ d => d.value ≠ none :=
      fun e he =>
        h (c :: e.1, e.2) (mem_entries_node.mpr (Or.inr (Or.inr (Or.inr ⟨e, he, rfl⟩))))
    obtain ⟨v, hv⟩ : ∃ v, d.value = some v := Option.ne_none_iff_exists'.mp
      (h ([c], d) (mem_entries_node.mpr (Or.inr (Or.inr (Or.inl rfl)))))
    have hcons : collected (node c low high equal d) =
        v :: (collected equal ++ collected low ++ collected high) := by simp [collected, hv]
    rw [hcons, values_node, hv]
    calc v :: (collected equal ++ collected low ++ collected high)
        _ = (v :: collected equal) ++ (collected low ++ collected high) := by simp
        _ |>.Perm ((v :: values equal) ++ (values low ++ values high)) :=
            ((ihe he).cons v).append ((ihl hl).append (ihh hh))
        _ |>.Perm (values low ++ values high ++ (v :: values equal)) := List.perm_append_comm

theorem collected_length_le (t : TSTree ν) : (collected t).length ≤ (values t).length := by
  induction t with
  | nil => exact le_rfl
  | dead => exact Nat.zero_le _
  | node c low high equal d ihl ihh ihe =>
    rw [values_node]
    cases hv : d.value with
    | none => simp [collected, hv]
    | some v =>
      simp only [collected, hv, List.length_cons, List.length_append, Option.toList_some,
        List.length_nil]
      omega

/-- **Where all values are pushed**, every node has a value. -/
theorem every_of_collected {t : TSTree ν} (ht : t.Live) (hf : Fruitful t)
    (h : (collected t).length = (values t).length) : t.Every fun _ d => d.value ≠ none := by
  induction t with
  | nil => exact every_nil _
  | dead => exact ht.elim
  | node c low high equal d ihl ihh ihe =>
    obtain ⟨hl, hh, he⟩ := ht
    obtain ⟨hgo, hfl, hfh, hfe⟩ := hf
    have hll := collected_length_le low
    have hlh := collected_length_le high
    have hle := collected_length_le equal
    rw [values_node] at h
    cases hv : d.value with
    | none =>
      -- the node goes on to a value, which is not pushed
      obtain ⟨w, v, -, -, hvalue⟩ := hfe.chainValue he (hgo.resolve_left (not_not.mpr hv))
      obtain ⟨d', hd', hv'⟩ := Option.bind_eq_some_iff.mp hvalue
      have hmem : v ∈ values equal :=
        List.mem_filterMap.mpr ⟨(w, d'), mem_entries_of_get? hd', hv'⟩
      have hpos := List.length_pos_of_mem hmem
      simp only [collected, hv, List.length_append, Option.toList_none, List.length_nil] at h
      omega
    | some v =>
      simp only [collected, hv, List.length_cons, List.length_append, Option.toList_some,
        List.length_nil] at h
      have hlow := ihl hl hfl (by omega)
      have hhigh := ihh hh hfh (by omega)
      have hequal := ihe he hfe (by omega)
      intro e hmem
      rcases mem_entries_node.mp hmem with hmem | hmem | rfl | ⟨e', he', rfl⟩
      · exact hlow e hmem
      · exact hhigh e hmem
      · exact ne_of_eq_of_ne hv (by simp)
      · exact hequal e' he'

/-! ## The node of a prefix

The walk ends at the node of the last character of the prefix, and what starts with the prefix is below
its `equal` link. Its `low` and `high` links lead to other keys. -/

/-- The walk to a node counts the characters of its string, in an `int`. -/
theorem prefixWalk_int {t low high equal : TSTree ν} {c : CChar} {d : Cell ν} {p : List CChar}
    (hp : p ≠ []) (h : t.walk p = node c low high equal d) (last : TSTree ν) {i : ℤ} (hi : 0 ≤ i)
    (hmax : i ≤ INT_MAX) :
    (i + p.length ≤ INT_MAX →
      ∃ last', prefixWalk (fun i => int (i + 1)) t last i p = .ok (t.walk p, last')) ∧
    (INT_MAX < i + p.length →
      prefixWalk (fun i => int (i + 1)) t last i p = .error .intOverflow) := by
  have hpos : (0 : ℤ) ≤ INT_MAX := by decide
  induction t generalizing last i p with
  | nil => simp at h
  | dead => simp at h
  | node c' low' high' equal' d' ihl ihh ihe =>
    obtain ⟨k, ks, rfl⟩ := List.exists_cons_of_ne_nil hp
    rcases lt_trichotomy k c' with hlt | rfl | hgt
    · rw [walk_lt hlt] at h ⊢
      rw [prefixWalk, if_pos hlt]
      exact ihl hp h last hi hmax
    · rw [prefixWalk, if_neg (lt_irrefl k), if_pos rfl, List.length_cons]
      -- the index may be more than an `int` counts
      rcases le_or_gt (i + 1) INT_MAX with hle | hgt
      · rw [int_ok (by omega) hle, ok_bind]
        cases ks with
        | nil =>
          rw [walk_self, if_neg (not_not.mpr rfl)]
          refine ⟨fun _ => ⟨last, rfl⟩, fun hover => ?_⟩
          simp only [List.length_nil] at hover
          omega
        | cons j js =>
          rw [walk_self_cons] at h ⊢
          rw [if_pos (by simp)]
          have hnext : ∀ last', _ := fun last' => ihe (by simp) h last' (by omega) hle
          have hsum : i + 1 + ((j :: js).length : ℤ) = i + ((j :: js).length + 1 : ℕ) := by
            push_cast
            ring
          rw [hsum] at hnext
          split
          · exact hnext _
          · exact hnext _
      · rw [int_overflow hgt]
        refine ⟨fun hle => ?_, fun _ => rfl⟩
        push_cast at hle
        omega
    · rw [walk_gt hgt] at h ⊢
      rw [prefixWalk, if_neg hgt.not_gt, if_neg hgt.ne']
      exact ihh hp h last hi hmax

/-- **The values of the keys that start with a prefix** are those of its node and of its `equal`
link. -/
theorem enumerates_walk {t low high equal : TSTree ν} (ht : t.Ordered) {c : CChar} {d : Cell ν}
    {p : Key} (h : t.walk p = node c low high equal d) :
    Enumerates (valueOf t) (fun k => p.1 <+: k.1) (d.value.toList ++ values equal) := by
  have hget : t.get? p = some d := by
    rw [t.get?_of_ne_nil p.2, h]
    rfl
  have hequal : equal.Ordered := by
    have hwalk := ht.walk p.1
    rw [h] at hwalk
    exact hwalk.2.2.2.2
  -- the entries behind the prefix
  have hentry : ∀ q d', (q, d') ∈ (p.1, d) :: equal.entries.map (fun e => (p.1 ++ e.1, e.2)) ↔
      p.1 <+: q ∧ t.get? q = some d' := by
    intro q d'
    rw [List.mem_cons, List.mem_map]
    constructor
    · rintro (heq | ⟨⟨w, d₁⟩, hw, heq⟩)
      · cases heq
        exact ⟨List.prefix_refl _, hget⟩
      · cases heq
        rw [get?_append_of_walk h p.2 (ne_nil_of_mem_entries hw)]
        exact ⟨List.prefix_append _ _, (mem_entries hequal).mp hw⟩
    · rintro ⟨⟨w, rfl⟩, hq⟩
      by_cases hw : w = []
      · subst hw
        rw [List.append_nil, hget] at hq
        exact Or.inl (by rw [List.append_nil, Option.some.inj hq])
      · rw [get?_append_of_walk h p.2 hw] at hq
        exact Or.inr ⟨(w, d'), mem_entries_of_get? hq, rfl⟩
  have hvalues : d.value.toList ++ values equal =
      ((p.1, d) :: equal.entries.map (fun e => (p.1 ++ e.1, e.2))).filterMap fun e => e.2.value := by
    rw [List.filterMap_cons, List.filterMap_map]
    cases d.value <;> rfl
  rw [hvalues]
  refine enumerates_of_entries ?_ (fun k v => ?_) fun e he => ?_
  · rw [List.map_cons, List.map_map, List.nodup_cons]
    constructor
    · intro hmem
      obtain ⟨e, he, heq⟩ := List.mem_map.mp hmem
      exact ne_nil_of_mem_entries he (List.append_right_eq_self.mp heq)
    · have hinj : Function.Injective fun q : List CChar => p.1 ++ q := fun _ _ =>
        List.append_cancel_left
      rw [show Prod.fst ∘ (fun e : List CChar × Cell ν => (p.1 ++ e.1, e.2)) =
        (fun q => p.1 ++ q) ∘ Prod.fst from rfl, ← List.map_map]
      exact (nodup_entries hequal).map hinj
  · rw [valueOf, Option.bind_eq_some_iff, ← exists_and_left]
    exact exists_congr fun d' => by rw [hentry, and_assoc]
  · intro hnil
    have hpre := ((hentry e.1 e.2).mp he).1
    rw [hnil] at hpre
    exact p.2 (List.prefix_nil.mp hpre)

/-! ## The completions

So the list is right when no node without a value is in the way, when there is nothing to the side, and
when it fits. -/

/-- The array lists the values of the bound keys that start with `p`. -/
def Completed (b : Key → Option ν) (p : Key) (r : Except Fault (Option (DArray ν))) : Prop :=
  ∃ list vs, r = .ok (some list) ∧ list.Holds (vs.map some) ∧
    Enumerates b (fun k => p.1 <+: k.1) vs

/-- When the completions of `p` can be collected. -/
structure Collectable (b : Key → Option ν) (root : TSTree ν) (p : Key) : Prop where
  /-- the index stays an `int` -/
  short : (p.1.length : ℤ) ≤ INT_MAX
  /-- the array has room for all values -/
  few : ∀ keys : List Key, keys.Nodup → (∀ k ∈ keys, p.1 <+: k.1 ∧ (b k).isSome) →
    keys.length ≤ capacity
  /-- every string between the prefix and a bound key is bound -/
  dense : ∀ k q : Key, p.1 <+: q.1 → q.1 <+: k.1 → (b k).isSome → (b q).isSome
  /-- no bound key differs from the prefix only by a last character that its node has a link to -/
  alone : ∀ {c low high equal d}, root.walk p = node c low high equal d →
    rootValue low = none ∧ rootValue high = none

section Enumerates

variable {b : Key → Option ν} {P : Key → Prop} {vs : List ν}

theorem Enumerates.length_le (h : Enumerates b P vs) {n : ℕ} :
    (∀ keys : List Key, keys.Nodup → (∀ k ∈ keys, P k ∧ (b k).isSome) → keys.length ≤ n) ↔
      vs.length ≤ n := by
  obtain ⟨keys, hnodup, hmem, hperm⟩ := h
  have hlength : vs.length = keys.length := by
    rw [hperm.length_eq]
    exact List.filterMap_length_eq_length.mpr fun k hk => ((hmem k).mp hk).2
  rw [hlength]
  constructor
  · exact fun hall => hall keys hnodup fun k hk => (hmem k).mp hk
  · intro hle ks hks hall
    exact ((hks.subperm fun k hk => (hmem k).mpr (hall k hk)).length_le).trans hle

end Enumerates

/-- What a link to the side leads to is a key that does not start with the prefix. -/
theorem aside {t low high equal : TSTree ν} (ht : t.Ordered) {c : CChar} {d : Cell ν} {p : Key}
    (h : t.walk p = node c low high equal d) {u : TSTree ν} (hu : u = low ∨ u = high) {v : ν}
    (hv : rootValue u = some v) : ∃ k : Key, ¬ p.1 <+: k.1 ∧ valueOf t k = some v := by
  have hwalk := ht.walk p.1
  rw [h] at hwalk
  obtain ⟨hlow, hhigh, -⟩ := hwalk
  cases u with
  | nil => cases hv
  | dead => cases hv
  | node c' low' high' equal' d' =>
    have hchar : c' ≠ c := by
      rcases hu with rfl | rfl
      · exact (hlow c' List.mem_cons_self).ne
      · exact (hhigh c' List.mem_cons_self).ne'
    have hmem : ([c'], d') ∈ (t.walk p.1).entries := by
      have hself : ([c'], d') ∈ (node c' low' high' equal' d').entries :=
        mem_entries_node.mpr (Or.inr (Or.inr (Or.inl rfl)))
      rw [h, mem_entries_node]
      rcases hu with rfl | rfl
      · exact Or.inl hself
      · exact Or.inr (Or.inl hself)
    -- it is bound where the last character of the prefix is the one of `u`
    have hget := (mem_entries ht).mp (mem_entries_of_walk hmem)
    refine ⟨⟨p.1.dropLast ++ [c'], by simp⟩, fun hpre => ?_, ?_⟩
    · have hpos := List.length_pos_iff.mpr p.2
      have heq : p.1 = p.1.dropLast ++ [c'] := hpre.eq_of_length (by
        rw [List.length_append, List.length_dropLast, List.length_singleton]
        omega)
      have hlast := getLast?_of_walk p.2 h
      rw [heq] at hlast
      exact hchar (by simpa using hlast)
    · rw [valueOf, hget]
      exact hv

/-- **What `TSTree_possible_match_by_prefix` returns**, for a prefix that has a node. -/
theorem possibleMatch_eq (junk : Junk ν) {t low high equal : TSTree ν} (ht : t.Live)
    {c : CChar} {d : Cell ν} {p : Key} (h : t.walk p = node c low high equal d) :
    ((p.1.length : ℤ) ≤ INT_MAX ∧ (collected (t.walk p)).length ≤ capacity ∧
      ∃ list, possibleMatchByPrefix junk t p = .ok (some list) ∧
        list.Holds ((collected (t.walk p)).map some)) ∨
    (¬ ((p.1.length : ℤ) ≤ INT_MAX ∧ (collected (t.walk p)).length ≤ capacity) ∧
      ∀ list, possibleMatchByPrefix junk t p = .ok (some list) → ∀ xs, ¬ list.Holds xs) := by
  obtain ⟨hshort, hlong⟩ := prefixWalk_int p.2 h nil le_rfl (by decide)
  rw [zero_add] at hshort hlong
  have horLast : ∀ last, orLast (t.walk p.1) last = t.walk p.1 := by
    intro last
    rw [h]
    rfl
  unfold possibleMatchByPrefix
  rw [if_neg p.2]
  -- the walk may overflow the index, and the list may outgrow its bound
  rcases le_or_gt (p.1.length : ℤ) INT_MAX with hle | hgt
  · obtain ⟨last, hwalk⟩ := hshort hle
    rw [hwalk, ok_bind]
    simp only []
    rw [horLast]
    rcases addAllPsb_eq junk (ht.walk p.1) grown_create (Nat.zero_le _) with
      ⟨hfew, list, hadd, hgrown⟩ | ⟨hmany, hspent⟩
    · refine Or.inl ⟨hle, by simpa using hfew, list, ?_, by simpa using hgrown.holds⟩
      rw [hadd]
      rfl
    · refine Or.inr ⟨fun hfew => absurd hfew.2 (not_le.mpr (by simpa using hmany)), ?_⟩
      intro list hmatch
      obtain ⟨list', hadd, hret⟩ := bind_eq_ok.mp hmatch
      obtain rfl := Option.some.inj (Except.ok.inj hret)
      exact (hspent list' hadd).not_holds
  · refine Or.inr ⟨fun hfew => absurd hfew.1 (not_le.mpr hgt), fun list hmatch => ?_⟩
    rw [hlong hgt] at hmatch
    cases hmatch

section Node

variable {t low high equal : TSTree ν} {c : CChar} {d : Cell ν} {p : Key}

/-- What is stored for the strings that go on from a node. -/
theorem valueOf_append (h : t.walk p = node c low high equal d) {w : List CChar} (hw : w ≠ []) :
    valueOf t ⟨p.1 ++ w, by simp [hw]⟩ = lookup equal w := by
  rw [valueOf, lookup, get?_append_of_walk h p.2 hw]

theorem valueOf_of_walk (h : t.walk p = node c low high equal d) : valueOf t p = d.value := by
  rw [valueOf, t.get?_of_ne_nil p.2, h]
  rfl

/-- **No value is missing behind a prefix** when every string between it and a bound key is
bound. -/
theorem every_iff_dense (ht : t.Live) (ho : t.Ordered) (hf : Fruitful t)
    (h : t.walk p = node c low high equal d) (hd : d.value ≠ none) :
    (equal.Every fun _ d => d.value ≠ none) ↔
      ∀ k q : Key, p.1 <+: q.1 → q.1 <+: k.1 → (valueOf t k).isSome → (valueOf t q).isSome := by
  have hequal : equal.Ordered ∧ equal.Live ∧ Fruitful equal := by
    have hwalk := ho.walk p.1
    have hlive := ht.walk p.1
    have hfruit := hf.walk p.1
    rw [h] at hwalk hlive hfruit
    exact ⟨hwalk.2.2.2.2, hlive.2.2, hfruit.2.2.2⟩
  constructor
  · rintro hall k q ⟨w, hw⟩ hqk hk
    by_cases hnil : w = []
    · have heq : q = p := Subtype.ext (by rw [← hw, hnil, List.append_nil])
      rw [heq, valueOf_of_walk h]
      exact Option.isSome_iff_ne_none.mpr hd
    · obtain ⟨v, hv⟩ := Option.isSome_iff_exists.mp hk
      obtain ⟨d', hd', -⟩ := Option.bind_eq_some_iff.mp hv
      have hnode : (t.get? q).isSome := get?_isSome_of_prefix q.2 hqk (by rw [hd']; rfl)
      obtain ⟨d₁, hd₁⟩ := Option.isSome_iff_exists.mp hnode
      rw [← hw, get?_append_of_walk h p.2 hnil] at hd₁
      have hsome := hall (w, d₁) (mem_entries_of_get? hd₁)
      have heq : q = ⟨p.1 ++ w, by simp [hnil]⟩ := Subtype.ext hw.symm
      rw [heq, valueOf_append h hnil, lookup, hd₁]
      exact Option.isSome_iff_ne_none.mpr hsome
  · rintro hdense ⟨w, d₁⟩ he
    have hnil : w ≠ [] := ne_nil_of_mem_entries he
    have hget : equal.get? w = some d₁ := (mem_entries hequal.1).mp he
    intro hd₁
    obtain ⟨c₁, low₁, high₁, equal₁, hwalk⟩ := walk_of_get? hget
    -- the node goes on to a value, of a key that `p ++ w` is a prefix of
    obtain ⟨w', v, -, -, hvalue⟩ := hequal.2.2.goes_on hequal.2.1 hnil hwalk hd₁
    have hlong := (valueOf_append h (w := w ++ w') (by simp [hnil])).trans hvalue
    have hbound := hdense ⟨p.1 ++ (w ++ w'), by simp [hnil]⟩ ⟨p.1 ++ w, by simp [hnil]⟩
      (List.prefix_append _ _) ⟨w', by simp⟩ (by rw [hlong]; rfl)
    rw [valueOf_append h hnil, lookup, hget] at hbound
    rw [show (some d₁).bind Cell.value = d₁.value from rfl, hd₁] at hbound
    cases hbound

/-- **The condition is sufficient**: everything bound behind the prefix is pushed, and fits. -/
theorem completed_of_collectable (junk : Junk ν) (ht : t.Live) (ho : t.Ordered)
    (hf : Fruitful t) (h : t.walk p = node c low high equal d)
    (hp : ∃ k : Key, p.1 <+: k.1 ∧ (valueOf t k).isSome) (hc : Collectable (valueOf t) t p) :
    Completed (valueOf t) p (possibleMatchByPrefix junk t p) := by
  obtain ⟨hshort, hfew, hdense, halone⟩ := hc
  obtain ⟨k, hpk, hk⟩ := hp
  obtain ⟨v, hv⟩ := Option.isSome_iff_exists.mp (hdense k p (List.prefix_refl _) hpk hk)
  rw [valueOf_of_walk h] at hv
  have hall := (every_iff_dense ht ho hf h (by simp [hv])).mpr hdense
  obtain ⟨hlow, hhigh⟩ := halone h
  have hcollected : (collected (t.walk p)).Perm (d.value.toList ++ values equal) := by
    rw [h, collected, hv]
    simp only []
    rw [collected_eq_nil.mpr hlow, collected_eq_nil.mpr hhigh, List.append_nil, List.append_nil]
    exact (collected_perm hall).cons v
  have hlist := (enumerates_walk ho h).perm hcollected
  rcases possibleMatch_eq junk ht h with ⟨-, -, list, hmatch, hholds⟩ | ⟨hmany, -⟩
  · exact ⟨list, _, hmatch, hholds, hlist⟩
  · exact absurd ⟨hshort, hlist.length_le.mp hfew⟩ hmany

/-- A value from a link to the side is the value of a key that does not start with the prefix, so it
is not listed when different keys have different values. -/
theorem rootValue_aside (ho : t.Ordered) (h : t.walk p = node c low high equal d)
    (hdistinct : ∀ (k k' : Key) v, valueOf t k = some v → valueOf t k' = some v → k = k')
    (hlisted : ∀ x ∈ collected (t.walk p), ∃ k : Key, p.1 <+: k.1 ∧ valueOf t k = some x)
    (hd : d.value ≠ none) {u : TSTree ν} (hu : u = low ∨ u = high) : rootValue u = none := by
  apply Option.eq_none_iff_forall_ne_some.mpr
  intro x hx
  obtain ⟨k, hpk, hk⟩ := aside ho h hu hx
  have hin : x ∈ collected u := by
    cases u with
    | nil => cases hx
    | dead => cases hx
    | node c' low' high' equal' d' =>
      rw [collected, show d'.value = some x from hx]
      exact List.mem_cons_self
  have hmem : x ∈ collected (t.walk p) := by
    obtain ⟨v, hv⟩ := Option.ne_none_iff_exists'.mp hd
    rw [h, collected, hv]
    rcases hu with rfl | rfl <;> simp [hin]
  obtain ⟨k', hpk', hk'⟩ := hlisted x hmem
  exact hpk (hdistinct k k' x hk hk' ▸ hpk')

/-- **The condition is necessary** when different keys have different values. -/
theorem collectable_of_completed (junk : Junk ν) (ht : t.Live) (ho : t.Ordered)
    (hf : Fruitful t) (h : t.walk p = node c low high equal d)
    (hp : ∃ k : Key, p.1 <+: k.1 ∧ (valueOf t k).isSome)
    (hdistinct : ∀ (k k' : Key) v, valueOf t k = some v → valueOf t k' = some v → k = k')
    (hc : Completed (valueOf t) p (possibleMatchByPrefix junk t p)) :
    Collectable (valueOf t) t p := by
  obtain ⟨list, vs, hmatch, hholds, hvs⟩ := hc
  have hlive := ht.walk p.1
  have hfruit := hf.walk p.1
  rw [h] at hlive hfruit
  rcases possibleMatch_eq junk ht h with ⟨hshort, hfew, list', hmatch', hholds'⟩ | ⟨-, hmatch'⟩
  · obtain rfl : list = list' := by simpa [hmatch] using hmatch'
    obtain rfl : vs = collected (t.walk p) :=
      List.map_injective_iff.mpr (Option.some_injective ν) (hholds.unique hholds')
    have hd : d.value ≠ none := by
      intro hnone
      -- nothing is pushed, but there is something to be listed
      obtain ⟨k, hpk, hk⟩ := hp
      obtain ⟨v, hv⟩ := Option.isSome_iff_exists.mp hk
      have hmem := hvs.mem.mpr ⟨k, hpk, hv⟩
      rw [collected_eq_nil.mpr (by rw [h]; exact hnone)] at hmem
      cases hmem
    have haside := fun u hu =>
      rootValue_aside ho h hdistinct (fun x hx => hvs.mem.mp hx) hd (u := u) hu
    have hlow := haside low (Or.inl rfl)
    have hhigh := haside high (Or.inr rfl)
    refine ⟨hshort, hvs.length_le.mpr hfew, ?_, fun h' => ?_⟩
    · -- as many values are pushed as are bound behind the prefix, so none of them is missing
      apply (every_iff_dense ht ho hf h hd).mp
      apply every_of_collected hlive.2.2 hfruit.2.2.2
      have hlength := (hvs.unique (enumerates_walk ho h)).length_eq
      obtain ⟨v, hv⟩ := Option.ne_none_iff_exists'.mp hd
      rw [h, collected, hv] at hlength
      simp only [] at hlength
      rw [collected_eq_nil.mpr hlow, collected_eq_nil.mpr hhigh] at hlength
      simpa using hlength
    · rw [h] at h'
      cases h'
      exact ⟨hlow, hhigh⟩
  · exact absurd hholds (hmatch' list hmatch _)

/-- **When the completions of a prefix are listed**, in a tree where some bound key starts with
it. The condition is sufficient, and necessary when different keys have different values. -/
theorem completed_iff (junk : Junk ν) (ht : t.Live) (ho : t.Ordered) (hf : Fruitful t)
    (h : t.walk p = node c low high equal d)
    (hp : ∃ k : Key, p.1 <+: k.1 ∧ (valueOf t k).isSome) :
    (Collectable (valueOf t) t p → Completed (valueOf t) p (possibleMatchByPrefix junk t p)) ∧
      ((∀ (k k' : Key) v, valueOf t k = some v → valueOf t k' = some v → k = k') →
        Completed (valueOf t) p (possibleMatchByPrefix junk t p) →
          Collectable (valueOf t) t p) :=
  ⟨completed_of_collectable junk ht ho hf h hp, collectable_of_completed junk ht ho hf h hp⟩

end Node

/-- **When the completions of a prefix are listed**, in a tree built by insertions. -/
theorem completions_of_collectable (junk : Junk ν) (pairs : List (Key × ν)) (p : Key)
    (hp : ∃ k : Key, p.1 <+: k.1 ∧ (bound k (insertions pairs)).isSome) :
    ∃ root, Run.run insertPair nil pairs = .ok root ∧
      (Collectable (fun k => bound k (insertions pairs)) root p →
        Completed (fun k => bound k (insertions pairs)) p (possibleMatchByPrefix junk root p)) ∧
      ((∀ (k k' : Key) v, bound k (insertions pairs) = some v →
          bound k' (insertions pairs) = some v → k = k') →
        Completed (fun k => bound k (insertions pairs)) p (possibleMatchByPrefix junk root p) →
          Collectable (fun k => bound k (insertions pairs)) root p) := by
  obtain ⟨root, hrun, hlive, hord, hfruit, hvalue⟩ := run_insertions pairs
  obtain ⟨c, low, high, equal, d, hnode⟩ : ∃ c low high equal d,
      root.walk p = node c low high equal d := by
    obtain ⟨k, hpk, hk⟩ := hp
    rw [← hvalue] at hk
    obtain ⟨v, hv⟩ := Option.isSome_iff_exists.mp hk
    obtain ⟨d, hd, -⟩ := Option.bind_eq_some_iff.mp hv
    have hsome := get?_isSome_of_prefix p.2 hpk (by rw [hd]; rfl)
    obtain ⟨d', hd'⟩ := Option.isSome_iff_exists.mp hsome
    obtain ⟨c, low, high, equal, hw⟩ := walk_of_get? hd'
    exact ⟨c, low, high, equal, d', hw⟩
  have h := completed_iff junk hlive hord hfruit hnode (by simpa only [hvalue] using hp)
  simp only [funext hvalue] at h
  exact ⟨root, hrun, h⟩

/-- Three keys behind one prefix, of which it is the first, and one aside. -/
def words : List (Key × ℕ) :=
  [(⟨cstr "ca", by decide⟩, 1), (⟨cstr "cat", by decide⟩, 2), (⟨cstr "car", by decide⟩, 3),
    (⟨cstr "dog", by decide⟩, 4)]

theorem completions_of_collectable_three :
    ∃ root, Run.run insertPair nil words = .ok root ∧
      (Collectable (fun k => bound k (insertions words)) root ⟨cstr "ca", by decide⟩ →
        Completed (fun k => bound k (insertions words)) ⟨cstr "ca", by decide⟩
          (possibleMatchByPrefix Junk.null root (cstr "ca"))) ∧
      ((∀ (k k' : Key) v, bound k (insertions words) = some v →
          bound k' (insertions words) = some v → k = k') →
        Completed (fun k => bound k (insertions words)) ⟨cstr "ca", by decide⟩
          (possibleMatchByPrefix Junk.null root (cstr "ca")) →
          Collectable (fun k => bound k (insertions words)) root ⟨cstr "ca", by decide⟩) :=
  completions_of_collectable Junk.null words ⟨cstr "ca", by decide⟩
    ⟨⟨cstr "cat", by decide⟩, ⟨cstr "t", rfl⟩, by decide⟩

/-- The node of a prefix that is no key itself has no value, and nothing is listed. -/
theorem prefix_without_value :
    ∃ root list, Run.run insertPair nil [(⟨cstr "abc", by decide⟩, 1)] = .ok root ∧
      bound ⟨cstr "abc", by decide⟩ (insertions [(⟨cstr "abc", by decide⟩, 1)]) = some 1 ∧
      possibleMatchByPrefix Junk.null root (cstr "a") = .ok (some list) ∧ list.end = 0 ∧
      ¬ Completed (fun k => bound k (insertions [(⟨cstr "abc", by decide⟩, 1)]))
        ⟨cstr "a", by decide⟩ (possibleMatchByPrefix Junk.null root (cstr "a")) := by
  refine ⟨_, DArray.create 3, rfl, by decide, rfl, rfl, ?_⟩
  rintro ⟨list, vs, hmatch, hholds, hvs⟩
  obtain rfl : list = DArray.create 3 := (Option.some.inj (Except.ok.inj hmatch)).symm
  have hlength : ((DArray.create 3 : DArray ℕ).end : ℤ) = (vs.map some).length := hholds.end
  have hmem : 1 ∈ vs := hvs.mem.mpr ⟨⟨cstr "abc", by decide⟩, ⟨cstr "bc", rfl⟩, by decide⟩
  obtain rfl : vs = [] := by
    rw [List.length_map] at hlength
    rw [show (DArray.create 3 : DArray ℕ).end = 0 from rfl] at hlength
    exact List.length_eq_zero_iff.mp (by exact_mod_cast hlength.symm)
  cases hmem

end Lcthw.TSTree
