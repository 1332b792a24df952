import Lcthw.RadixMap.Multimap

/-!
# Lcthw — the partial sort of `RadixMap_add`

An add does not sort the whole array: it sorts from the place on that its bisection has come to.

* **`sorted_append`**: sorting from a place on is sorting everything, down to the order among equal
  keys, since a stable sort has one result.
* **`add_sorts_all_iff`**: an add does just that, unless its bisection overflows.
-/

namespace Lcthw.RadixMap

theorem StablySorts.unique {xs ys zs : List RMElement} (hys : StablySorts xs ys)
    (hzs : StablySorts xs zs) : ys = zs :=
  CountingSort.eq_of_filter_eq UInt32.le_antisymm hys.sorted hzs.sorted fun key =>
    (hys.stable key).trans (hzs.stable key).symm

section Place

variable {xs : List RMElement} {x : RMElement} {p : ℕ}

/-- What is in front of a place is where a stable sort of everything puts it. -/
theorem Place.stablySorts (hs : Sorted xs) (hp : Place xs x.key p) :
    StablySorts (xs ++ [x]) (xs.take p ++ sorted (xs.drop p ++ [x])) where
  perm := by
    calc xs.take p ++ sorted (xs.drop p ++ [x])
      _ |>.Perm (xs.take p ++ (xs.drop p ++ [x])) := (sorted_perm _).append_left _
      _ = xs ++ [x] := by rw [← List.append_assoc, List.take_append_drop]
  sorted := sorted_place hs hp
  stable key := by
    calc (xs.take p ++ sorted (xs.drop p ++ [x])).filter (·.key = key)
      _ = (xs.take p).filter (·.key = key) ++ (xs.drop p ++ [x]).filter (·.key = key) := by
        rw [List.filter_append, (sorted_stable _).stable]
      _ = (xs ++ [x]).filter (·.key = key) := by
        rw [← List.filter_append, ← List.append_assoc, List.take_append_drop]

/-- **Sorting from a place on sorts everything.** -/
theorem sorted_append (hs : Sorted xs) (hp : Place xs x.key p) :
    xs.take p ++ sorted (xs.drop p ++ [x]) = sorted (xs ++ [x]) :=
  (hp.stablySorts hs).unique (sorted_stable _)

end Place

/-- An add leaves the contents that appending the element and sorting all of them leaves. -/
def SortsAll (m : RadixMap) (key value : UInt32) : Prop :=
  ∃ m₁ m₂, m.add key value = .ok (0, m₁) ∧ (m.append key value).sort 0 = .ok m₂ ∧
    m₁.contents = m₂.contents ∧ m₁.end = m₂.end

/-- **The partial sort of an add is the full sort, unless its bisection overflows.** -/
theorem add_sorts_all_iff {m : RadixMap} (h : Valid m) (hs : Sorted m.live) (hroom : m.end < m.max)
    (hsize : m.end < 2 ^ 31) {key : UInt32} (hkey : key < UINT32_MAX) (value : UInt32) :
    SortsAll m key value ↔ Bisectable m.live key := by
  have hmax : INT_MAX = 2 ^ 31 - 1 := rfl
  rw [← divides_iff h (by omega)]
  rcases add_bisects h hs hroom hkey value with ⟨hb, p, hp, hplace, hadd⟩ | ⟨hb, hadd⟩
  · -- both sorts are stable sorts of the same elements, one of them from `p` on
    refine iff_of_true ?_ hb
    have hcount : (m.append key value).end < 2 ^ 64 := show m.end + 1 < 2 ^ 64 by omega
    have hle : p ≤ (m.append key value).end := show p ≤ m.end + 1 by omega
    obtain ⟨m₁, hpart, -, -, hend₁, hcontents₁⟩ := sort_contents (h.append hroom) hcount hle
    obtain ⟨m₂, hfull, -, -, hend₂, hcontents₂⟩ :=
      sort_contents (h.append hroom) hcount (Nat.zero_le _)
    have hfront : (m.append key value).contents.take p = (m.append key value).live.take p := by
      rw [live, List.take_take, Nat.min_eq_left hle]
    have hdrop : p ≤ m.live.length := by rwa [h.length_live]
    refine ⟨m₁, m₂, ?_, hfull, ?_, hend₁.trans hend₂.symm⟩
    · rw [hadd, hpart]
      rfl
    · rw [hcontents₁, hcontents₂, hfront, h.live_append hroom, ← List.append_assoc,
        List.take_append_of_le_length hdrop, List.drop_append_of_le_length hdrop,
        sorted_append hs hplace, List.drop_zero, List.take_zero, List.nil_append]
  · -- the add has no result that could be compared
    refine iff_of_false ?_ hb
    rintro ⟨m₁, m₂, hok, -⟩
    cases hadd.symm.trans hok

theorem add_sorts_all_iff_two :
    SortsAll ⟨2, 1, [⟨7, 1⟩, ⟨0, 0⟩], [⟨0, 0⟩, ⟨0, 0⟩]⟩ 5 2 ↔ Bisectable [⟨7, 1⟩] 5 := by
  let m : RadixMap := {
    max := 2
    «end» := 1
    contents := [⟨7, 1⟩, ⟨0, 0⟩]
    temp := [⟨0, 0⟩, ⟨0, 0⟩] }
  have hvalid : Valid m := ⟨rfl, rfl, by decide⟩
  exact add_sorts_all_iff hvalid (List.pairwise_singleton _ _) (by decide) (by decide) (by decide) 2

/-- More than `2 ^ 30` equal keys, and room for one element more. -/
def crowd : RadixMap where
  max := 2 ^ 30 + 2
  «end» := 2 ^ 30 + 1
  contents := List.replicate (2 ^ 30 + 2) ⟨0, 0⟩
  temp := List.replicate (2 ^ 30 + 2) ⟨0, 0⟩

theorem valid_crowd : Valid crowd :=
  ⟨List.length_replicate, List.length_replicate, show 2 ^ 30 + 1 ≤ 2 ^ 30 + 2 by omega⟩

theorem live_crowd : crowd.live = List.replicate (2 ^ 30 + 1) ⟨0, 0⟩ := by
  rw [live, crowd, List.take_replicate]
  rfl

/-- A larger key is not added to it. -/
theorem add_to_crowd :
    Valid crowd ∧ Sorted crowd.live ∧ crowd.end < crowd.max ∧ crowd.end < 2 ^ 31 ∧
      (1 : UInt32) < UINT32_MAX ∧ ¬ SortsAll crowd 1 0 := by
  have hmax : INT_MAX = 2 ^ 31 - 1 := rfl
  have hs : Sorted crowd.live := by
    rw [live_crowd]
    exact List.pairwise_replicate.mpr (Or.inr (by decide))
  have hroom : crowd.end < crowd.max := show 2 ^ 30 + 1 < 2 ^ 30 + 2 by omega
  have hsize : crowd.end < 2 ^ 31 := show 2 ^ 30 + 1 < 2 ^ 31 by omega
  refine ⟨valid_crowd, hs, hroom, hsize, by decide, ?_⟩
  rintro ⟨m₁, m₂, hadd, -⟩
  rcases add_bisects valid_crowd hs hroom (show (1 : UInt32) < UINT32_MAX by decide) 0
    with ⟨hb, -⟩ | ⟨-, herr⟩
  · have hlarger : ∀ x ∈ crowd.live, x.key < 1 := by
      intro x hx
      rw [live_crowd] at hx
      rw [(List.mem_replicate.mp hx).2]
      decide
    have hlen :=
      Ledger.length_le_of_bisectable hlarger ((divides_iff valid_crowd (by omega)).mp hb)
    rw [live_crowd, List.length_replicate] at hlen
    omega
  · cases herr.symm.trans hadd

end Lcthw.RadixMap
