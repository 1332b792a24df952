import Lcthw.DArray.BinSearch

/-!
# Lcthw — what `DArray_push_sort` leaves (`darray.c`)

`DArray_push_sort` sinks its element once `DArray_push` has returned 0, which it does whenever it gets the
block that it asks for.

* **`insertBack_perm`**: the elements of the list that the array then holds.
* **`pushSort_sorts`**: the array is in ascending order afterwards, with one element more.
-/

namespace Lcthw.DArray

variable {α : Type}

/-- One element more, and all of them in ascending order. -/
structure PushesSorted (cmp : Option α → Option α → ℤ) (xs : List (Option α)) (el : Option α)
    (array : DArray α) : Prop where
  end_eq : array.end = xs.length + 1
  ascending : Ascending cmp (array.contents.take (xs.length + 1))
  perm : (array.contents.take (xs.length + 1)).Perm (xs ++ [el])

variable {array : DArray α} {xs : List (Option α)}

theorem insertBack_perm (cmp : Option α → Option α → ℤ) (el : Option α) (xs : List (Option α)) :
    (insertBack cmp el xs).Perm (xs ++ [el]) := by
  have hxs : xs.rdropWhile (fun y => cmp el y ≤ 0) ++ xs.rtakeWhile (fun y => cmp el y ≤ 0) = xs :=
    List.rdropWhile_append_rtakeWhile ..
  have hmiddle : (insertBack cmp el xs).Perm
      (el :: (xs.rdropWhile (fun y => cmp el y ≤ 0) ++ xs.rtakeWhile (fun y => cmp el y ≤ 0))) :=
    List.perm_middle
  rw [hxs] at hmiddle
  exact hmiddle.trans (List.perm_append_singleton el xs).symm

/-- An array of the elements and the new one in their place. -/
theorem Holds.pushesSorted (order : Comparator (Option α)) (hasc : Ascending order.compare xs)
    {el : Option α} (h : array.Holds (insertBack order.compare el xs)) :
    PushesSorted order.compare xs el array := by
  have hperm := insertBack_perm order.compare el xs
  have hlen : (insertBack order.compare el xs).length = xs.length + 1 := by
    rw [hperm.length_eq, List.length_append, List.length_singleton]
  have helements := h.elements
  rw [hlen] at helements
  refine ⟨?_, ?_, ?_⟩
  · rw [h.end, hlen]
    push_cast
    rfl
  · rw [helements]
    exact ascending_insertBack order hasc el
  · rw [helements]
    exact hperm

/-- **`DArray_push_sort` keeps an array sorted**, when the allocation that it may need succeeds. -/
theorem pushSort_sorts (order : Comparator (Option α)) (h : array.Holds xs)
    (hasc : Ascending order.compare xs) (el : Option α) {block : Option (Junk α)}
    (halloc : array.Allocates block) :
    ∃ array', array.pushSort block el (fun x y => .ok (order.compare x y)) = .ok (0, array') ∧
      PushesSorted order.compare xs el array' := by
  obtain ⟨array', l, r, hsort, rfl, hr, hl, hholds⟩ :=
    @pushSort_eq α array xs (fun x y => .ok (order.compare x y)) block h el (order.compare el)
      (fun _ _ => rfl) halloc
  rw [← insertBack_append hr hl] at hholds
  exact ⟨array', hsort, hholds.pushesSorted order hasc⟩

/-- A 2 is pushed between 1 and 3, into the last slot. -/
theorem pushSort_sorts_between :
    ∃ array', pushSort (some .null) { «end» := 2, max := 3, contents := [some 1, some 3, none] } (some 2)
        (fun x y => .ok (Comparator.numbers.compare x y)) = .ok (0, array') ∧
      PushesSorted Comparator.numbers.compare [some 1, some 3] (some 2) array' := by
  have h : Holds ({ «end» := 2, max := 3, contents := [some 1, some 3, none] } : DArray ℕ)
      [some 1, some 3] := ⟨rfl, by decide, by decide, rfl, rfl⟩
  exact pushSort_sorts Comparator.numbers h (by simp [Ascending, Comparator.numbers]) (some 2)
    fun _ => rfl

end Lcthw.DArray
