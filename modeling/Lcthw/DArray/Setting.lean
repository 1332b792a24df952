import Lcthw.DArray.Stack

/-!
# Lcthw — setting an element (`darray.h`)

`DArray_push` writes to the slot at `end`, so `end` is one behind the last element. `DArray_set` takes it
for the last one, and an element behind the others is not counted.

* **`Sized`**: an array has as many slots as `max` says, as long as that is a number of slots at all. No
  call changes that, also when a push finds that the array cannot grow.
* **`slots_of_pushes`**: pushing leaves the slots in front of `end` as they are.
* **`set_extends_iff`**: an element that is set stays there exactly when there was one before.
-/

namespace Lcthw.DArray

variable {α : Type} {array array' : DArray α} {xs : List (Option α)} {el : Option α}

/-! ## The calls -/

/-- A call that changes what is in the slots. -/
inductive Edit (α : Type) where
  | push (el : Option α) (junk : Junk α)
  | pop (junk : Junk α)
  | set (i : ℤ) (el : Option α)

/-- A call, whatever it returns. -/
def edit (array : DArray α) : Edit α → Except Fault (DArray α)
  | .push el junk => do
    let (_, array) ← array.push (some junk) el
    return array
  | .pop junk => do
    let (_, array) ← array.pop (some junk)
    return array
  | .set i el => array.set i el

/-- A push, whatever it returns. -/
def pushed (array : DArray α) (call : Option α × Junk α) : Except Fault (DArray α) :=
  array.edit (.push call.1 call.2)

/-- The element is counted, `DArray_get` finds it, and pushing leaves its slot and all others in front of
`end` as they are. -/
def Extends (array : DArray α) (i : ℤ) (el : Option α) : Prop :=
  ∃ array', array.set i el = .ok array' ∧ i < array'.end ∧ array'.get i = .ok el ∧
    ∀ calls array'', Run.run pushed array' calls = .ok array'' →
      ∀ k : ℕ, (k : ℤ) < array'.end → array''.contents[k]? = array'.contents[k]?

/-! ## As many slots as `max` says

A size that is no `int` comes out negative, and then there is no block; `max` is negative from there on,
and no index is below it. -/

structure Sized (array : DArray α) : Prop where
  max_le : array.max ≤ INT_MAX
  slots : 0 < array.max → (array.contents.length : ℤ) = array.max

theorem sized_create {initial_max : ℤ} (hmax : initial_max ≤ INT_MAX) :
    (create initial_max : DArray α).Sized where
  max_le := hmax
  slots hpos := by
    show ((List.replicate initial_max.toNat (none : Option α)).length : ℤ) = initial_max
    rw [List.length_replicate]
    exact Int.toNat_of_nonneg (le_of_lt hpos)

theorem toInt_le (n : ℤ) : toInt n ≤ INT_MAX := by
  have hint : INT_MAX = 2 ^ 31 - 1 := rfl
  have hlt := Int.bmod_lt (x := n) (m := 2 ^ 32) (by decide)
  unfold toInt
  omega

section Junk

variable {junk : Junk α} {rc : ℤ}

/-- A resize stores the new size only together with a block of that size. -/
theorem sized_of_resize {n : ℤ} (h : resize (some junk) array n = (rc, array')) : array'.Sized := by
  unfold resize at h
  simp only [] at h
  split at h
  · next hzero =>
    obtain ⟨-, rfl⟩ := Prod.mk.inj h
    exact ⟨toInt_le n, fun hpos => absurd hzero hpos.ne'⟩
  · unfold given at h
    by_cases hneg : toInt n < 0
    · rw [if_pos hneg] at h
      obtain ⟨-, rfl⟩ := Prod.mk.inj h
      exact ⟨toInt_le n, fun hpos => absurd hneg (not_lt.mpr (le_of_lt hpos))⟩
    · rw [if_neg hneg] at h
      obtain ⟨-, rfl⟩ := Prod.mk.inj h
      refine ⟨toInt_le n, fun _ => ?_⟩
      show ((realloc junk array.contents (toInt n).toNat).length : ℤ) = toInt n
      rw [length_realloc]
      exact Int.toNat_of_nonneg (not_lt.mp hneg)

/-- And so does an expansion. -/
theorem sized_of_expand (h : array.expand (some junk) = .ok (rc, array')) : array'.Sized := by
  unfold expand at h
  obtain ⟨rc', array₁, hresize⟩ : ∃ rc' array₁,
      resize (some junk) array (array.max + DEFAULT_EXPAND_RATE) = (rc', array₁) := ⟨_, _, rfl⟩
  have hsized := sized_of_resize hresize
  simp only [hresize] at h
  split at h
  · -- `memset` changes what is in the slots and not how many there are
    obtain ⟨contents, hclear, hret⟩ := bind_eq_ok.mp h
    obtain ⟨-, rfl⟩ := Prod.mk.inj (Except.ok.inj hret)
    unfold clear at hclear
    split at hclear
    · next hinside =>
      obtain rfl := Except.ok.inj hclear
      refine ⟨hsized.max_le, fun hpos => ?_⟩
      show ((zeroed _ array₁.contents _).length : ℤ) = array₁.max
      rw [length_zeroed _ (by omega), hsized.slots hpos]
    · cases hclear
  · obtain ⟨-, rfl⟩ := Prod.mk.inj (Except.ok.inj h)
    exact hsized

theorem sized_of_contract (h : array.contract (some junk) = .ok (rc, array')) : array'.Sized := by
  unfold contract at h
  obtain ⟨n, -, hret⟩ := bind_eq_ok.mp h
  exact sized_of_resize (Except.ok.inj hret)

theorem length_of_writeAt {contents contents' : List (Option α)} {i : ℤ}
    (h : writeAt contents i el = .ok contents') : contents'.length = contents.length := by
  unfold writeAt at h
  split at h
  · obtain rfl := Except.ok.inj h
    exact List.length_set
  · cases h

/-- A slot is written. -/
theorem Sized.write (h : array.Sized) {i e : ℤ} {contents : List (Option α)}
    (hwrite : writeAt array.contents i el = .ok contents) :
    { array with contents, «end» := e }.Sized where
  max_le := h.max_le
  slots hpos := by
    show (contents.length : ℤ) = array.max
    rw [length_of_writeAt hwrite]
    exact h.slots hpos

/-- **Every edit keeps the size right**, also when an allocation fails. -/
theorem Sized.edit {e : Edit α} (h : array.Sized) (hedit : array.edit e = .ok array') :
    array'.Sized := by
  cases e with
  | push el junk =>
    obtain ⟨⟨rc, array₁⟩, hpush, hret⟩ := bind_eq_ok.mp hedit
    obtain rfl := Except.ok.inj hret
    unfold push at hpush
    obtain ⟨contents, hwrite, hpush⟩ := bind_eq_ok.mp hpush
    obtain ⟨e, -, hpush⟩ := bind_eq_ok.mp hpush
    simp only [] at hpush
    split at hpush
    · exact sized_of_expand hpush
    · obtain ⟨-, rfl⟩ := Prod.mk.inj (Except.ok.inj hpush)
      exact h.write hwrite
  | pop junk =>
    obtain ⟨⟨el, array₁⟩, hpop, hret⟩ := bind_eq_ok.mp hedit
    obtain rfl := Except.ok.inj hret
    unfold pop at hpop
    split at hpop
    · obtain ⟨-, rfl⟩ := Prod.mk.inj (Except.ok.inj hpop)
      exact h
    · obtain ⟨el', -, hpop⟩ := bind_eq_ok.mp hpop
      obtain ⟨contents, hwrite, hpop⟩ := bind_eq_ok.mp hpop
      simp only [] at hpop
      split at hpop
      · obtain ⟨⟨rc, array₂⟩, hcontract, hpop⟩ := bind_eq_ok.mp hpop
        obtain ⟨-, rfl⟩ := Prod.mk.inj (Except.ok.inj hpop)
        exact sized_of_contract hcontract
      · obtain ⟨-, rfl⟩ := Prod.mk.inj (Except.ok.inj hpop)
        exact h.write hwrite
  | set i el =>
    change array.set i el = .ok array' at hedit
    unfold DArray.set at hedit
    split at hedit
    · obtain ⟨contents, hwrite, hret⟩ := bind_eq_ok.mp hedit
      obtain rfl := Except.ok.inj hret
      exact h.write hwrite
    · obtain rfl := Except.ok.inj hedit
      exact h

/-! ## Pushing

The last push of an array that cannot grow any more takes its last slot. A push behind that writes behind
the block. -/

/-- The slots up to `max` are there, or all slots are in use. -/
def Pushable (array : DArray α) : Prop :=
  (0 < array.max ∧ array.max ≤ INT_MAX ∧ (array.contents.length : ℤ) = array.max) ∨
    (array.contents.length : ℤ) ≤ array.end

/-- An expansion keeps the slots that there are. -/
theorem getElem?_expanded (junk : Junk α) {array : DArray α} {k : ℕ} (hk : k < array.contents.length) :
    (array.expanded junk).contents[k]? = array.contents[k]? := by
  have htake : (array.expanded junk).contents.take array.contents.length = array.contents := by
    show (zeroed _ _ _).take array.contents.length = array.contents
    rw [take_zeroed _ le_rfl (by rw [length_realloc]; omega), take_realloc junk (by omega) le_rfl,
      List.take_length]
  rw [← List.getElem?_take_of_lt hk, htake]

/-- **One push** writes behind the slots that are in use. -/
theorem Pushable.push {call : Option α × Junk α} (h : array.Pushable)
    (hpushed : array.pushed call = .ok array') :
    array'.Pushable ∧ array.end ≤ array'.end ∧
      ∀ k : ℕ, (k : ℤ) < array.end → array'.contents[k]? = array.contents[k]? := by
  obtain ⟨⟨rc, array₁⟩, hpush, hret⟩ := bind_eq_ok.mp hpushed
  obtain rfl := Except.ok.inj hret
  unfold DArray.push at hpush
  obtain ⟨contents, hwrite, hpush⟩ := bind_eq_ok.mp hpush
  obtain ⟨e, he, hpush⟩ := bind_eq_ok.mp hpush
  obtain rfl := eq_of_int he
  unfold writeAt at hwrite
  split at hwrite
  · next hslot =>
    obtain rfl := Except.ok.inj hwrite
    obtain ⟨hpos, hmax, hlength⟩ := h.resolve_right (not_le.mpr hslot.2)
    have hkeep : ∀ k : ℕ, (k : ℤ) < array.end →
        (array.contents.set array.end.toNat call.1)[k]? = array.contents[k]? :=
      fun k hk => List.getElem?_set_ne (by omega)
    have hlength' : ((array.stored array.end.toNat call.1).contents.length : ℤ) =
        (array.stored array.end.toNat call.1).max := by
      show ((array.contents.set array.end.toNat call.1).length : ℤ) = array.max
      rw [List.length_set, hlength]
    simp only [] at hpush
    split at hpush
    · next hfull =>
      change (array.stored array.end.toNat call.1).expand (some call.2) = _ at hpush
      -- the last slot was taken, so the array gets a block, or stays full
      by_cases hfit : array.max + DEFAULT_EXPAND_RATE ≤ INT_MAX
      · rw [expand_some call.2 hlength' hfit] at hpush
        obtain ⟨-, rfl⟩ := Prod.mk.inj (Except.ok.inj hpush)
        have hrate : DEFAULT_EXPAND_RATE = 300 := rfl
        refine ⟨Or.inl ⟨?_, hfit, ?_⟩, ?_, fun k hk => ?_⟩
        · show 0 < array.max + DEFAULT_EXPAND_RATE
          omega
        · show ((zeroed _ _ _).length : ℤ) = array.max + DEFAULT_EXPAND_RATE
          rw [length_zeroed _ (by rw [length_realloc]; omega), length_realloc]
          push_cast
          rw [hlength', hrate]
          rfl
        · show array.end ≤ array.end + 1
          omega
        · have hmax' : (array.stored array.end.toNat call.1).max = array.max := rfl
          rw [getElem?_expanded call.2 (by omega)]
          exact hkeep k hk
      · have hneg : toInt ((array.stored array.end.toNat call.1).max + DEFAULT_EXPAND_RATE) < 0 :=
          toInt_expanded_neg hmax (not_le.mp hfit)
        rw [expand_none _ (given_of_neg _ hneg)] at hpush
        obtain ⟨-, rfl⟩ := Prod.mk.inj (Except.ok.inj hpush)
        refine ⟨Or.inr ?_, ?_, hkeep⟩
        · exact hlength'.le.trans hfull
        · show array.end ≤ array.end + 1
          omega
    · obtain ⟨-, rfl⟩ := Prod.mk.inj (Except.ok.inj hpush)
      refine ⟨Or.inl ⟨hpos, hmax, hlength'⟩, ?_, hkeep⟩
      show array.end ≤ array.end + 1
      omega
  · cases hwrite

/-- **Pushing keeps the slots that are in use.** -/
theorem slots_of_pushes {calls : List (Option α × Junk α)} (h : array.Pushable)
    (hrun : Run.run pushed array calls = .ok array') {k : ℕ} (hk : (k : ℤ) < array.end) :
    array'.contents[k]? = array.contents[k]? := by
  induction calls generalizing array with
  | nil =>
    obtain rfl := Except.ok.inj hrun
    rfl
  | cons call calls ih =>
    obtain ⟨array₁, hpush, hrest⟩ := (Run.run_cons_ok _).mp hrun
    obtain ⟨h₁, hend, hkeep⟩ := h.push hpush
    rw [ih h₁ hrest (hk.trans_le hend), hkeep k hk]

end Junk

/-! ## Setting

An element in front of `end` is counted, and setting it changes nothing else. An element at `end` or
behind it is not counted: `end` is moved to it at most, where the next push writes. -/

/-- **`DArray_set` loses nothing exactly when the slot was in use.** At `end` and behind it the element
is not counted. -/
theorem set_extends_iff {initial_max i : ℤ} (hmax : initial_max ≤ INT_MAX)
    {edits : List (Edit α)} (hrun : Run.run edit (create initial_max) edits = .ok array)
    (hnonneg : 0 ≤ i) (hlt : i < array.max) (el : Option α) : array.Extends i el ↔ i < array.end := by
  have hsized : array.Sized :=
    Run.run_invariant (I := Sized) edit (fun _ _ _ h hedit => h.edit hedit) (sized_create hmax) hrun
  have hlength := hsized.slots (by omega)
  obtain ⟨n, rfl⟩ := Int.eq_ofNat_of_zero_le hnonneg
  constructor
  · -- `end` becomes the index itself
    rintro ⟨array', hset, hcount, -⟩
    unfold DArray.set at hset
    rw [if_pos hlt] at hset
    obtain ⟨contents, -, hret⟩ := bind_eq_ok.mp hset
    obtain rfl := Except.ok.inj hret
    change (n : ℤ) < (if (n : ℤ) > array.end then (n : ℤ) else array.end) at hcount
    split at hcount <;> omega
  · intro hn
    have hslot : n < array.contents.length := by omega
    have hset : array.set n el = .ok { array with contents := array.contents.set n el } := by
      unfold DArray.set
      rw [if_pos hlt, writeAt_eq hslot, ok_bind, if_neg (by omega)]
      rfl
    refine ⟨_, hset, hn, ?_, fun calls array'' hrun' k hk => ?_⟩
    · unfold DArray.get
      rw [if_pos hlt]
      exact readAt_eq (List.getElem?_set_self hslot)
    · have hpushable : { array with contents := array.contents.set n el }.Pushable := by
        refine Or.inl ⟨show 0 < array.max by omega, hsized.max_le, ?_⟩
        rw [List.length_set, hlength]
      exact slots_of_pushes hpushable hrun' hk

/-- The first of two elements is set. -/
theorem set_extends_iff_first :
    Extends (⟨2, 3, [some 7, some 9, none]⟩ : DArray ℕ) 0 (some 8) ↔ (0 : ℤ) < 2 := by
  have hrun : Run.run edit (create 3) [.push (some 7) .null, .push (some 9) .null] =
      .ok (⟨2, 3, [some 7, some 9, none]⟩ : DArray ℕ) := rfl
  exact set_extends_iff (by decide) hrun le_rfl (by decide) _

/-- The first element of an array that is set and not pushed is not counted. -/
theorem set_not_counted : ∃ array', (create 10 : DArray ℕ).set 0 (some 7) = .ok array' ∧
    array'.end = 0 ∧ ¬ (create 10 : DArray ℕ).Extends 0 (some 7) := by
  refine ⟨_, rfl, rfl, ?_⟩
  rintro ⟨array', hset, hcount, -⟩
  obtain rfl := Except.ok.inj hset
  exact absurd hcount (by decide)

end Lcthw.DArray
