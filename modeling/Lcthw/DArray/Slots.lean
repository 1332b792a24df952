import Lcthw.DArray.Stack

/-!
# Lcthw — the slots of an array that hold no element (`darray.c`, `darray.h`)

`DArray_expand` and `DArray_contract` append slots. The one clears the first 37 of them and a part of the
next, the other clears none.

* **`exec_unused`**, **`tidy_iff_clears`**: the slots behind the elements are NULL exactly as long as
  `realloc` finds NULL wherever nothing is cleared.
-/

namespace Lcthw.DArray

variable {α : Type} {array array' : DArray α} {xs : List (Option α)} {el : Option α}

/-! ## The slots behind the elements

The slots that hold no element are NULL in a new array. Afterwards they are what the calls and `realloc`
have left there, and `DArray_get` and `DArray_clear` look at them. -/

/-- `DArray_clear`: the elements it frees. -/
def clearElements (array : DArray α) (element_size : ℕ) : Except Fault (List α) :=
  if 0 < element_size then
    (List.range array.max.toNat).foldlM (fun freed (i : ℕ) => do
      let x ← readAt array.contents i
      return freed ++ x.toList) []
  else return []

/-- Every slot behind the elements is NULL, and so `DArray_get` finds NULL there and `DArray_clear` frees
nothing but elements. -/
structure Tidy (array : DArray α) : Prop where
  unused : ∀ i : ℕ, array.end ≤ i → i < array.max → array.contents[i]? = some none
  get : ∀ i, array.end ≤ i → array.get i = .ok none
  freed : ∀ element_size, 0 < element_size → array.clearElements element_size =
    .ok ((array.contents.take array.end.toNat).flatMap Option.toList)

/-- `realloc` finds NULL behind `max` slots wherever an expansion clears nothing, and a pointer that its
five low bytes are all of where it clears a part. -/
structure NullBehind (junk : Junk α) (max : ℤ) : Prop where
  high : ∀ i : ℕ, (i : ℤ) = max + 37 → junk.high i = none
  slots : ∀ i : ℕ, max + 38 ≤ i → (i : ℤ) < max + DEFAULT_EXPAND_RATE → junk.slot i = none

/-- What a call appends and does not clear is NULL. -/
def Clears (array : DArray α) (call : Call α) : Prop :=
  match call.op with
  | .push _ => array.end + 1 ≥ array.max → NullBehind call.junk array.max
  | .pop => True
  | .pushSort _ _ => array.end + 1 ≥ array.max → NullBehind call.junk array.max
  | .expand => NullBehind call.junk array.max
  | .contract =>
    ∀ i : ℕ, array.max ≤ i → (i : ℤ) < array.contractedSize → call.junk.slot i = none

theorem foldlM_readAt (contents : List (Option α)) {n : ℕ} (hn : n ≤ contents.length) (freed : List α) :
    (List.range n).foldlM (fun freed (i : ℕ) => do
      let x ← readAt contents i
      return freed ++ x.toList : List α → ℕ → Except Fault (List α)) freed =
      .ok (freed ++ (contents.take n).flatMap Option.toList) := by
  induction n with
  | zero => exact congrArg Except.ok (List.append_nil freed).symm
  | succ n ih =>
    have hx : contents[n]? = some contents[n] := List.getElem?_eq_getElem (by omega)
    rw [List.range_succ, List.foldlM_append, ih (by omega), ok_bind, List.foldlM_cons, readAt_eq hx,
      ok_bind, List.take_add_one, hx, List.flatMap_append]
    show Except.ok (freed ++ _ ++ _) = Except.ok (freed ++ (_ ++ [contents[n]].flatMap Option.toList))
    rw [List.flatMap_singleton, List.append_assoc]

/-- It is about the slots alone. -/
theorem tidy_iff (h : array.Holds xs) :
    array.Tidy ↔ ∀ x ∈ array.contents.drop xs.length, x = none := by
  have hend := h.end
  have hroom := h.room
  have hlength := h.length
  constructor
  · intro ht x hx
    obtain ⟨i, hi⟩ := List.mem_iff_getElem?.mp hx
    rw [List.getElem?_drop] at hi
    have hlt := (List.getElem?_eq_some_iff.mp hi).1
    have hnone := ht.unused (xs.length + i) (by push_cast; omega) (by omega)
    exact Option.some.inj (hi.symm.trans hnone)
  · intro hnone
    have hunused : ∀ i : ℕ, array.end ≤ i → i < array.max → array.contents[i]? = some none := by
      intro i hi hlt
      have hget : array.contents[i]? = some array.contents[i] := List.getElem?_eq_getElem (by omega)
      have hmem : array.contents[i] ∈ array.contents.drop xs.length := by
        apply List.mem_of_getElem? (i := i - xs.length)
        rw [List.getElem?_drop, Nat.add_sub_cancel' (by omega), hget]
      rw [hget, hnone _ hmem]
    -- so that they read as NULL, and a clear frees nothing behind the elements
    refine ⟨hunused, fun i hi => ?_, fun element_size hpos => ?_⟩
    · obtain ⟨i, rfl⟩ := Int.eq_ofNat_of_zero_le (show 0 ≤ i by omega)
      unfold DArray.get
      split
      · next hlt => exact readAt_eq (hunused i hi hlt)
      · rfl
    · have hmax : array.max.toNat = array.contents.length := by omega
      have hrest : (array.contents.drop xs.length).flatMap Option.toList = [] := by
        rw [List.flatMap_eq_nil_iff]
        intro x hx
        rw [hnone x hx]
        rfl
      unfold clearElements
      rw [if_pos hpos, foldlM_readAt _ hmax.le, hmax, List.take_length, List.nil_append, hend,
        Int.toNat_natCast]
      conv_lhs => rw [← List.take_append_drop xs.length array.contents]
      rw [List.flatMap_append, hrest, List.append_nil]

/-! ### What is appended -/

section Realloc

variable (junk : Junk α) {contents : List (Option α)} {n m : ℕ}

/-- A block that gets larger has junk behind. -/
theorem unused_realloc (hn : n ≤ contents.length) (hnm : n ≤ m)
    (hnone : ∀ x ∈ contents.drop n, x = none) :
    (∀ x ∈ (realloc junk contents m).drop n, x = none) ↔
      ∀ i, contents.length ≤ i → i < m → junk.slot i = none := by
  unfold realloc
  rw [List.drop_append_of_le_length (by rw [List.length_take]; omega)]
  constructor
  · intro h i hi him
    refine h _ (List.mem_append_right _ (List.mem_map.mpr ⟨i, ?_, rfl⟩))
    rw [List.mem_range'_1]
    omega
  · intro h x hx
    rcases List.mem_append.mp hx with hold | hnew
    · rw [List.drop_take] at hold
      exact hnone x (List.mem_of_mem_take hold)
    · obtain ⟨i, hi, rfl⟩ := List.mem_map.mp hnew
      rw [List.mem_range'_1] at hi
      exact h i hi.1 (by omega)

/-- `memset` clears 37 of the slots that were appended, and leaves a part of the next. -/
theorem unused_zeroed (high : Option α) (hn : n ≤ contents.length) (hm : contents.length + 38 ≤ m)
    (hnone : ∀ x ∈ contents.drop n, x = none) :
    (∀ x ∈ (zeroed high (realloc junk contents m) contents.length).drop n, x = none) ↔
      high = none ∧ ∀ i, contents.length + 38 ≤ i → i < m → junk.slot i = none := by
  have hfront : (realloc junk contents m).take contents.length = contents := by
    rw [take_realloc junk (by omega) le_rfl, List.take_length]
  have hback : (realloc junk contents m).drop (contents.length + 38) =
      (List.range' (contents.length + 38) (m - (contents.length + 38))).map junk.slot := by
    have hlarge : realloc junk contents m =
        contents ++ (List.range' contents.length (m - contents.length)).map junk.slot := by
      unfold realloc
      rw [List.take_of_length_le (by omega)]
    rw [hlarge, List.drop_append, ← List.map_drop, List.drop_range', List.drop_of_length_le (by omega),
      List.nil_append, Nat.add_sub_cancel_left, Nat.mul_one, Nat.sub_sub]
  unfold zeroed
  rw [hfront, hback, List.append_assoc, List.drop_append_of_le_length hn]
  constructor
  · intro h
    refine ⟨h high (by simp), fun i hi him => h _ ?_⟩
    refine List.mem_append_right _ (List.mem_append_right _ (List.mem_cons_of_mem _ ?_))
    refine List.mem_map.mpr ⟨i, ?_, rfl⟩
    rw [List.mem_range'_1]
    omega
  · rintro ⟨hhigh, h⟩ x hx
    -- in front, cleared, cleared in part, behind
    rcases List.mem_append.mp hx with hold | hx
    · exact hnone x hold
    · rcases List.mem_append.mp hx with hcleared | hx
      · exact List.eq_of_mem_replicate hcleared
      · rcases List.mem_cons.mp hx with rfl | hjunk
        · exact hhigh
        · obtain ⟨i, hi, rfl⟩ := List.mem_map.mp hjunk
          rw [List.mem_range'_1] at hi
          exact h i hi.1 (by omega)

end Realloc

section Junk

variable {junk : Junk α}

theorem expanded_unused {n : ℕ} (hlength : (array.contents.length : ℤ) = array.max)
    (hn : n ≤ array.contents.length) (hnone : ∀ x ∈ array.contents.drop n, x = none) :
    (∀ x ∈ (array.expanded junk).contents.drop n, x = none) ↔ NullBehind junk array.max := by
  have hrate : DEFAULT_EXPAND_RATE = 300 := rfl
  show (∀ x ∈ (zeroed _ (realloc junk array.contents _) _).drop n, x = none) ↔ _
  rw [unused_zeroed junk _ hn (by omega) hnone]
  constructor
  · rintro ⟨hhigh, hslots⟩
    refine ⟨fun i hi => ?_, fun i hi him => hslots i (by omega) (by omega)⟩
    obtain rfl : i = array.contents.length + 37 := by omega
    exact hhigh
  · rintro ⟨hhigh, hslots⟩
    exact ⟨hhigh _ (by omega), fun i hi him => hslots i (by omega) (by omega)⟩

/-- Behind a contraction the slots behind the end are NULL exactly when those that it adds are. -/
theorem contract_unused (h : array.Holds xs) (hnone : ∀ x ∈ array.contents.drop xs.length, x = none) :
    (∀ x ∈ (realloc junk array.contents array.contractedSize.toNat).drop xs.length, x = none) ↔
      array.Clears ⟨.contract, junk⟩ := by
  have hrate : DEFAULT_EXPAND_RATE = 300 := rfl
  have hend := h.end
  have hlength := h.length
  have hroom := h.room
  have hsize : array.end < array.contractedSize := by
    unfold contractedSize
    split <;> omega
  rw [unused_realloc junk (by omega) (by omega) hnone]
  show _ ↔ ∀ i : ℕ, array.max ≤ i → (i : ℤ) < array.contractedSize → junk.slot i = none
  constructor
  · intro hclear i hi him
    exact hclear i (by omega) (by omega)
  · intro hclear i hi him
    exact hclear i (by omega) (by omega)

/-- A push writes to the first unused slot, and may make the array larger. -/
theorem push_unused {rc : ℤ} (h : array.Holds xs)
    (hroom : array.end + 1 < array.max ∨ array.max + DEFAULT_EXPAND_RATE ≤ INT_MAX)
    (hnone : ∀ x ∈ array.contents.drop xs.length, x = none)
    (hpush : array.push (some junk) el = .ok (rc, array')) :
    (∀ x ∈ array'.contents.drop (xs.length + 1), x = none) ↔
      (array.end + 1 ≥ array.max → NullBehind junk array.max) := by
  obtain ⟨-, hlength', -⟩ := h.stored el
  have hend := h.end
  have hlt := h.room
  have hrest : ∀ x ∈ (array.stored xs.length el).contents.drop (xs.length + 1), x = none := by
    show ∀ x ∈ (array.contents.set xs.length el).drop (xs.length + 1), x = none
    rw [List.drop_set_of_lt (Nat.lt_succ_self _), ← Nat.add_one, ← List.drop_drop]
    intro x hx
    exact hnone x (List.mem_of_mem_drop hx)
  rw [push_stored (some junk) h el] at hpush
  by_cases hfull : array.end + 1 ≥ array.max
  · -- the array was full: what counts is what comes behind the old slots
    have hfit : array.max + DEFAULT_EXPAND_RATE ≤ INT_MAX := hroom.resolve_left (not_lt.mpr hfull)
    rw [if_pos hfull, expand_some junk hlength' hfit] at hpush
    obtain ⟨-, rfl⟩ := Prod.mk.inj (Except.ok.inj hpush)
    rw [expanded_unused hlength' (by omega) hrest, imp_iff_right hfull]
    rfl
  · rw [if_neg hfull] at hpush
    obtain ⟨-, rfl⟩ := Prod.mk.inj (Except.ok.inj hpush)
    exact iff_of_true hrest fun h => absurd h hfull

/-- A pop that shrinks the array appends nothing. -/
theorem pop_unused {x : Option α} (h : array.Holds (xs ++ [x]))
    (hnone : ∀ y ∈ array.contents.drop (xs ++ [x]).length, y = none)
    (hpop : array.pop (some junk) = .ok (el, array')) :
    ∀ y ∈ array'.contents.drop xs.length, y = none := by
  have hrate : DEFAULT_EXPAND_RATE = 300 := rfl
  have hroom := h.room
  have hmax := h.max
  have hend := h.end
  have hlength := h.length
  have hread : readAt array.contents xs.length = .ok x := h.readAt (by simp)
  rw [List.length_append, List.length_singleton] at hend hnone
  have hn : xs.length < array.contents.length := by omega
  have hlast : array.end - 1 = (xs.length : ℕ) := by omega
  -- the slot of the popped element is cleared
  have hrest : ∀ y ∈ (array.contents.set xs.length none).drop xs.length, y = none := by
    rw [List.drop_eq_getElem_cons (by rw [List.length_set]; exact hn), List.getElem_set_self,
      List.drop_set_of_lt (Nat.lt_succ_self _)]
    intro y hy
    rcases List.mem_cons.mp hy with rfl | hy
    · rfl
    · exact hnone y hy
  unfold pop at hpop
  rw [if_neg (by omega), hlast, hread, ok_bind, writeAt_eq hn, ok_bind] at hpop
  simp only [] at hpop
  split at hpop
  · next hshrink =>
    obtain ⟨popped, hpopped⟩ : ∃ popped : DArray α, popped =
      { array with contents := array.contents.set xs.length none, «end» := xs.length } := ⟨_, rfl⟩
    have hsize : popped.contractedSize = xs.length + 1 := by
      have hpopped' : popped.end = xs.length := by rw [hpopped]
      rw [contractedSize, hpopped', if_neg (by omega)]
    rw [← hpopped, contract_some junk (by omega), ok_bind] at hpop
    obtain ⟨-, rfl⟩ := Prod.mk.inj (Except.ok.inj hpop)
    rw [hpopped] at hsize ⊢
    refine (unused_realloc junk ?_ ?_ hrest).mpr fun i hi hlt => ?_
    · rw [List.length_set]
      exact hn.le
    · rw [hsize]
      omega
    · rw [List.length_set] at hi
      rw [hsize] at hlt
      omega
  · obtain ⟨-, rfl⟩ := Prod.mk.inj (Except.ok.inj hpop)
    exact hrest

/-- **One call** leaves the unused slots NULL exactly when `realloc` finds NULL in those that are
appended and not cleared. -/
theorem exec_unused {call : Call α} {out : Option (Option α)} (h : array.Holds xs)
    (hfits : array.Fits call.op) (hnone : ∀ x ∈ array.contents.drop xs.length, x = none)
    (hexec : array.exec call = .ok (array', out)) :
    (∀ x ∈ array'.contents.drop (serve xs call.op).1.length, x = none) ↔ array.Clears call := by
  obtain ⟨op, junk⟩ := call
  cases op with
  | push el =>
    obtain ⟨⟨rc, array₁⟩, hpush, hret⟩ := bind_eq_ok.mp hexec
    obtain ⟨rfl, -⟩ := Prod.mk.inj (Except.ok.inj hret)
    show (∀ x ∈ array₁.contents.drop (xs ++ [el]).length, x = none) ↔ _
    rw [List.length_append, List.length_singleton]
    exact push_unused h hfits hnone hpush
  | pop =>
    refine iff_of_true ?_ trivial
    obtain ⟨⟨el, array₁⟩, hpop, hret⟩ := bind_eq_ok.mp hexec
    obtain ⟨rfl, -⟩ := Prod.mk.inj (Except.ok.inj hret)
    obtain rfl | ⟨ys, x, rfl⟩ := List.eq_nil_or_concat' xs
    · rw [pop_nil h] at hpop
      obtain ⟨-, rfl⟩ := Prod.mk.inj (Except.ok.inj hpop)
      exact hnone
    · show ∀ y ∈ array₁.contents.drop (ys ++ [x]).dropLast.length, y = none
      rw [List.dropLast_concat]
      exact pop_unused h hnone hpop
  | pushSort el cmp =>
    obtain ⟨⟨rc, array₁⟩, hsort, hret⟩ := bind_eq_ok.mp hexec
    obtain ⟨rfl, -⟩ := Prod.mk.inj (Except.ok.inj hret)
    -- sinking the element moves counted slots only
    obtain ⟨pushed, hpush, hpushed⟩ := push_eq h el (h.allocates junk hfits)
    obtain ⟨l, r, rfl, hr, hl, hsort'⟩ :=
      @pushSort_of_push α array xs (fun x y => .ok (cmp x y)) _ pushed el (cmp el) (fun _ _ => rfl)
        hpush hpushed
    obtain ⟨-, rfl⟩ := Prod.mk.inj (Except.ok.inj (hsort'.symm.trans hsort))
    have hlen : (l ++ el :: r).length = (l ++ r).length + 1 := by
      simp only [List.length_append, List.length_cons]
      omega
    show (∀ x ∈ (l ++ el :: (r ++ _)).drop (insertBack cmp el (l ++ r)).length, x = none) ↔ _
    rw [insertBack_append hr hl, ← List.cons_append, ← List.append_assoc, List.drop_left, hlen.symm]
    have hunused := push_unused h hfits hnone hpush
    rw [← hlen] at hunused
    exact hunused
  | expand =>
    obtain ⟨⟨rc, array₁⟩, hexpand, hret⟩ := bind_eq_ok.mp hexec
    obtain ⟨rfl, -⟩ := Prod.mk.inj (Except.ok.inj hret)
    rw [expand_some junk h.length hfits] at hexpand
    obtain ⟨-, rfl⟩ := Prod.mk.inj (Except.ok.inj hexpand)
    have hend := h.end
    have hroom := h.room
    have hlength := h.length
    exact expanded_unused hlength (show xs.length ≤ array.contents.length by omega) hnone
  | contract =>
    obtain ⟨⟨rc, array₁⟩, hcontract, hret⟩ := bind_eq_ok.mp hexec
    obtain ⟨rfl, -⟩ := Prod.mk.inj (Except.ok.inj hret)
    rw [contract_some junk h.contractedSize_le] at hcontract
    obtain ⟨-, rfl⟩ := Prod.mk.inj (Except.ok.inj hcontract)
    exact contract_unused h hnone

end Junk

/-! ### Over all calls -/

def step (array : DArray α) (call : Call α) : Except Fault (DArray α) := do
  let (array, _) ← array.exec call
  return array

theorem of_step {call : Call α} (hstep : array.step call = .ok array') :
    ∃ out, array.exec call = .ok (array', out) := by
  obtain ⟨⟨array₁, out⟩, hexec, hret⟩ := bind_eq_ok.mp hstep
  obtain rfl := Except.ok.inj hret
  exact ⟨out, hexec⟩

/-- **The unused slots are NULL exactly as long as `realloc` finds NULL** wherever an array grows and
nothing is cleared. -/
theorem tidy_iff_clears {initial_max : ℤ} (hm : 0 < initial_max) (hmax : initial_max ≤ INT_MAX)
    (calls : List (Call α))
    (hfits : Run.Along step (fun array call => array.Fits call.op) (create initial_max) calls) :
    Run.Throughout step Tidy (create initial_max) calls ↔
      Run.Along step (fun array call => array.Clears call) (create initial_max) calls := by
  have hinit : (create initial_max : DArray α).Holds [] := holds_create hm hmax
  refine Run.throughout_iff_along (I := fun array : DArray α => ∃ xs, array.Holds xs)
    ?_ ?_ ?_ ⟨[], hinit⟩ ?_ hfits
  · rintro array call array' ⟨xs, h⟩ hfit hstep
    obtain ⟨out, hexec⟩ := of_step hstep
    exact ⟨_, (of_exec h hfit hexec).2⟩
  · rintro array call array' ⟨xs, h⟩ htidy hfit hstep
    obtain ⟨out, hexec⟩ := of_step hstep
    rw [tidy_iff (of_exec h hfit hexec).2]
    exact exec_unused h hfit ((tidy_iff h).mp htidy) hexec
  · rintro array call e ⟨xs, h⟩ - hfit hstep
    obtain ⟨array', hexec, -⟩ := exec_eq h hfit
    unfold step at hstep
    rw [hexec] at hstep
    cases hstep
  · refine (tidy_iff hinit).mpr fun x hx => ?_
    exact List.eq_of_mem_replicate (List.mem_of_mem_drop hx)

/-- Memory that holds one pointer all over, in the high bytes of each slot too. -/
def Junk.all (p : α) : Junk α where
  slot _ := some p
  high _ := some p
  high_null _ := nofun

theorem tidy_iff_clears_two :
    Run.Throughout step Tidy (create 2)
        [⟨.push (some 7), .all 0⟩, ⟨.push (some 8), .all 0⟩, ⟨.contract, .all 0⟩] ↔
      Run.Along step (fun array call => array.Clears call) (create 2)
        [⟨.push (some 7), .all 0⟩, ⟨.push (some 8), .all 0⟩, ⟨.contract, .all 0⟩] := by
  refine tidy_iff_clears (by decide) (by decide) _ ⟨Or.inl (by decide), fun array hstep => ?_⟩
  obtain rfl := Except.ok.inj hstep
  exact ⟨Or.inr (by decide), fun _ _ => ⟨trivial, fun _ _ => trivial⟩⟩

/-- A new array of 100 slots, contracted to 301: there is junk in the slots behind. -/
theorem contract_junk : ¬ ∀ array' : DArray ℕ,
    step (create 100) ⟨.contract, .all 0⟩ = .ok array' → array'.Tidy := by
  intro h
  have hinit : (create 100 : DArray ℕ).Holds [] := holds_create (by decide) (by decide)
  obtain ⟨array', hcontract, hholds⟩ := contract_eq (.all 0) hinit
  have hexec := exec_contract hcontract
  have hstep : step (create 100) ⟨.contract, .all 0⟩ = .ok array' := by
    unfold step
    rw [hexec]
    rfl
  have hnone : ∀ x ∈ (create 100 : DArray ℕ).contents.drop 0, x = none :=
    fun x hx => List.eq_of_mem_replicate (List.mem_of_mem_drop hx)
  have hfits : (create 100 : DArray ℕ).Fits (.contract : Op ℕ) := trivial
  have htidy := (tidy_iff hholds).mp (h array' hstep)
  have hclears := (exec_unused hinit hfits hnone hexec).mp htidy
  exact absurd (hclears 100 (by decide) (by decide)) (by decide)

end Lcthw.DArray
