import Lcthw.DArray.Mergesort

/-!
# Lcthw — what `DArray_mergesort` gets right (`darray_algos.c`)

`mergeTails` is the merge that the loops of `merger` compute: what is left of the right half is replaced
by copies of its first element. `msort` merges so at every level.

* **`mergesort_eq`**: on elements that are not NULL, `DArray_mergesort` computes `msort`.
* **`Spared`**: no merge has two different elements left in its right half.
* **`mergesort_sorts_iff`**: then the elements get sorted; otherwise they do not, unless elements that
  compare equal make up for each other.
-/

namespace Lcthw.DArray

variable {α : Type}

/-! ## The merge

What the loops of `merger` compute, on lists: the halves are merged, but what is left over on the right
is replaced by copies of its first element. -/

/-- A merge of two lists, of which the right one is not copied to its end. -/
def mergeTails (cmp : Option α → Option α → ℤ) :
    List (Option α) → List (Option α) → List (Option α)
  | l, [] => l
  | [], y :: r => List.replicate (r.length + 1) y
  | x :: l, y :: r =>
    if cmp x y > 0 then y :: mergeTails cmp (x :: l) r else x :: mergeTails cmp l (y :: r)
termination_by l r => l.length + r.length

def msort (cmp : Option α → Option α → ℤ) (xs : List (Option α)) : List (Option α) :=
  if xs.length ≤ 1 then xs
  else mergeTails cmp (msort cmp (xs.take (xs.length / 2))) (msort cmp (xs.drop (xs.length / 2)))
termination_by xs.length

namespace Algos

variable {cmp : Option α → Option α → ℤ} {done l l₁ l₂ r r₁ r₂ xs : List (Option α)} {x y : Option α}

/-! ## The loops

A loop writes into a block from the left. What it has written so far is the merge of what it has read,
and the slots behind are still to be written. -/

/-- The first slot that is not written yet. -/
theorem writeAt_next (done : List (Option α)) (n : ℕ) (x : Option α) :
    writeAt (done ++ List.replicate (n + 1) none) (done.length : ℕ) x =
      .ok ((done ++ [x]) ++ List.replicate n none) := by
  rw [writeAt_eq (by simp), List.set_append_right _ _ le_rfl, Nat.sub_self, List.append_assoc]
  rfl

theorem fillLeft_eq (l₁ l₂ done : List (Option α)) :
    fillLeft (l₁ ++ l₂) l₂.length (done ++ List.replicate l₂.length none) done.length l₁.length =
      .ok (done ++ l₂) := by
  induction l₂ generalizing l₁ done with
  | nil =>
    rw [List.append_nil]
    rfl
  | cons x l₂ ih =>
    have hnext := ih (l₁ ++ [x]) (done ++ [x])
    rw [List.append_assoc, List.length_append, List.length_append] at hnext
    rw [List.length_cons, fillLeft, readAt_middle, ok_bind, writeAt_next, ok_bind]
    apply hnext.trans
    rw [List.append_assoc]
    rfl

theorem fillRight_eq {j : ℕ} (hread : readAt r (j : ℕ) = .ok y) (n : ℕ) (done : List (Option α)) :
    fillRight r j n (done ++ List.replicate n none) done.length =
      .ok (done ++ List.replicate n y) := by
  induction n generalizing done with
  | zero => rfl
  | succ n ih =>
    have hnext := ih (done ++ [y])
    rw [List.length_append] at hnext
    rw [fillRight, hread, ok_bind, writeAt_next, ok_bind]
    apply hnext.trans
    rw [List.append_assoc]
    rfl

theorem length_concat (xs : List (Option α)) (x : Option α) : (xs ++ [x]).length = xs.length + 1 :=
  List.length_append

/-- **The loops of `merger`**, from where `l₁` and `r₁` have been merged to `done`. -/
theorem mergeLoop_eq (cmp : Option α → Option α → ℤ) (l₁ l₂ r₁ r₂ done : List (Option α))
    (hdone : done.length = l₁.length + r₁.length) :
    (mergeLoop cmp (l₁ ++ l₂) (r₁ ++ r₂) (l₁ ++ l₂).length (r₁ ++ r₂).length
        (done ++ List.replicate (l₂.length + r₂.length) none) done.length l₁.length r₁.length >>=
      fun (ar, order, i, j) =>
        fillRest (l₁ ++ l₂) (r₁ ++ r₂) (l₁ ++ l₂).length (r₁ ++ r₂).length ar order i j) =
      .ok (done ++ mergeTails cmp l₂ r₂) := by
  induction l₂, r₂ using mergeTails.induct cmp generalizing l₁ r₁ done with
  | case1 l =>
    have hrest : (l₁ ++ l).length + (r₁ ++ []).length - done.length = l.length := by
      simp only [List.length_append, List.length_nil]
      omega
    rw [mergeLoop, if_neg (by simp)]
    show fillRest _ _ _ _ _ _ _ _ = _
    unfold fillRest
    rw [hrest, mergeTails]
    split
    · next hleft =>
      -- nothing is left on either side
      rw [List.length_append] at hleft
      obtain rfl := List.length_eq_zero_iff.mp (show l.length = 0 by omega)
      rfl
    · exact fillLeft_eq l₁ l done
  | case2 y r =>
    have hrest : (l₁ ++ []).length + (r₁ ++ y :: r).length - done.length = r.length + 1 := by
      simp only [List.length_append, List.length_nil, List.length_cons]
      omega
    rw [mergeLoop, if_neg (by simp)]
    show fillRest _ _ _ _ _ _ _ _ = _
    unfold fillRest
    rw [hrest, if_pos (by rw [List.append_nil]), mergeTails, List.length_nil, List.length_cons,
      Nat.zero_add]
    exact fillRight_eq (readAt_middle r₁ y r) (r.length + 1) done
  | case3 x l y r hxy ih =>
    -- the next slot takes `y`, and the loop goes on behind it on the right
    have hnext := ih l₁ (r₁ ++ [y]) (done ++ [y]) (by rw [length_concat, length_concat]; omega)
    have hslots : (x :: l).length + (y :: r).length = (x :: l).length + r.length + 1 := rfl
    rw [List.append_assoc r₁, List.singleton_append, length_concat, length_concat] at hnext
    rw [mergeLoop, if_pos (by simp), readAt_middle, ok_bind, readAt_middle, ok_bind, if_pos hxy, hslots,
      writeAt_next, ok_bind, hnext, mergeTails, if_pos hxy, List.append_assoc]
    rfl
  | case4 x l y r hxy ih =>
    have hnext := ih (l₁ ++ [x]) r₁ (done ++ [x]) (by rw [length_concat, length_concat]; omega)
    have hslots : (x :: l).length + (y :: r).length = l.length + (y :: r).length + 1 := by
      rw [List.length_cons]
      omega
    rw [List.append_assoc l₁, List.singleton_append, length_concat, length_concat] at hnext
    rw [mergeLoop, if_pos (by simp), readAt_middle, ok_bind, readAt_middle, ok_bind, if_neg hxy, hslots,
      writeAt_next, ok_bind, hnext, mergeTails, if_neg hxy, List.append_assoc]
    rfl

theorem mergeBlocks_eq (cmp : Option α → Option α → ℤ) (l r : List (Option α)) :
    mergeBlocks cmp l r l.length r.length = .ok (mergeTails cmp l r) :=
  mergeLoop_eq cmp [] l [] r [] rfl

end Algos

/-! ## What a merge keeps

A merge of ascending halves is ascending even with the copies, and as long as before. What it may lose
is elements, and it loses none when those that are left over are all the same. -/

section Merge

variable {cmp : Option α → Option α → ℤ} {l r xs : List (Option α)}

theorem length_mergeTails (cmp : Option α → Option α → ℤ) (l r : List (Option α)) :
    (mergeTails cmp l r).length = l.length + r.length := by
  induction l, r using mergeTails.induct cmp with
  | case1 l => rw [mergeTails, List.length_nil, Nat.add_zero]
  | case2 y r => rw [mergeTails, List.length_replicate, List.length_nil, List.length_cons, Nat.zero_add]
  | case3 x l y r hxy ih =>
    rw [mergeTails, if_pos hxy, List.length_cons, ih, List.length_cons, List.length_cons]
    omega
  | case4 x l y r hxy ih =>
    rw [mergeTails, if_neg hxy, List.length_cons, ih, List.length_cons, List.length_cons]
    omega

/-- A merge makes no new elements. -/
theorem mem_mergeTails {z : Option α} (hz : z ∈ mergeTails cmp l r) : z ∈ l ∨ z ∈ r := by
  induction l, r using mergeTails.induct cmp with
  | case1 l =>
    rw [mergeTails] at hz
    exact Or.inl hz
  | case2 y r =>
    rw [mergeTails] at hz
    exact Or.inr (List.eq_of_mem_replicate hz ▸ List.mem_cons_self)
  | case3 x l y r hxy ih =>
    rw [mergeTails, if_pos hxy] at hz
    rcases List.mem_cons.mp hz with rfl | hz
    · exact Or.inr List.mem_cons_self
    · exact (ih hz).imp_right (List.mem_cons_of_mem y)
  | case4 x l y r hxy ih =>
    rw [mergeTails, if_neg hxy] at hz
    rcases List.mem_cons.mp hz with rfl | hz
    · exact Or.inl List.mem_cons_self
    · exact (ih hz).imp_left (List.mem_cons_of_mem x)

/-- A merge of ascending lists is ascending, copies or not. -/
theorem ascending_mergeTails (order : Comparator (Option α)) (hl : Ascending order.compare l)
    (hr : Ascending order.compare r) : Ascending order.compare (mergeTails order.compare l r) := by
  induction l, r using mergeTails.induct order.compare with
  | case1 l =>
    rw [mergeTails]
    exact hl
  | case2 y r =>
    rw [mergeTails]
    exact List.pairwise_replicate.mpr (Or.inr (order.self y).le)
  | case3 x l y r hxy ih =>
    rw [mergeTails, if_pos hxy]
    refine List.pairwise_cons.mpr ⟨fun z hz => ?_, ih hl (List.pairwise_cons.mp hr).2⟩
    -- `y` comes first: it is not above `x`, nor above what follows either of them
    have hyx : order.compare y x ≤ 0 := order.le_iff_ge.mpr hxy.le
    rcases mem_mergeTails hz with hz | hz
    · rcases List.mem_cons.mp hz with rfl | hz
      · exact hyx
      · exact order.le_trans y x z hyx ((List.pairwise_cons.mp hl).1 z hz)
    · exact (List.pairwise_cons.mp hr).1 z hz
  | case4 x l y r hxy ih =>
    rw [mergeTails, if_neg hxy]
    refine List.pairwise_cons.mpr ⟨fun z hz => ?_, ih (List.pairwise_cons.mp hl).2 hr⟩
    -- `x` comes first, and so on the other side
    have hxy' : order.compare x y ≤ 0 := not_lt.mp hxy
    rcases mem_mergeTails hz with hz | hz
    · exact (List.pairwise_cons.mp hl).1 z hz
    · rcases List.mem_cons.mp hz with rfl | hz
      · exact hxy'
      · exact order.le_trans x y z hxy' ((List.pairwise_cons.mp hr).1 z hz)

/-- Nothing is lost when the elements that may be left on the right are all the same. -/
theorem perm_mergeTails (order : Comparator (Option α)) (hr : Ascending order.compare r)
    (hsame : ∀ y ∈ r, ∀ z ∈ r, (∀ x ∈ l, order.compare x y ≤ 0) →
      (∀ x ∈ l, order.compare x z ≤ 0) → y = z) :
    (mergeTails order.compare l r).Perm (l ++ r) := by
  induction l, r using mergeTails.induct order.compare with
  | case1 l => rw [mergeTails, List.append_nil]
  | case2 y r =>
    -- all that is left on the right is the same, so its copies are what was there
    have hcopies : y :: r = List.replicate (r.length + 1) y := by
      refine List.eq_replicate_iff.mpr ⟨rfl, fun z hz => ?_⟩
      exact hsame z hz y List.mem_cons_self (by simp) (by simp)
    rw [mergeTails, List.nil_append, ← hcopies]
  | case3 x l y r hxy ih =>
    rw [mergeTails, if_pos hxy]
    refine ((ih (List.pairwise_cons.mp hr).2 fun v hv w hw => ?_).cons y).trans List.perm_middle.symm
    exact hsame v (List.mem_cons_of_mem y hv) w (List.mem_cons_of_mem y hw)
  | case4 x l y r hxy ih =>
    rw [mergeTails, if_neg hxy]
    -- what is not below the rest of the left side is not below `x` either
    have hall : ∀ v ∈ y :: r, (∀ w ∈ l, order.compare w v ≤ 0) →
        ∀ w ∈ x :: l, order.compare w v ≤ 0 := by
      intro v hv hle w hw
      rcases List.mem_cons.mp hw with rfl | hw
      · rcases List.mem_cons.mp hv with rfl | hv
        · exact not_lt.mp hxy
        · exact order.le_trans w y v (not_lt.mp hxy) ((List.pairwise_cons.mp hr).1 v hv)
      · exact hle w hw
    refine (ih hr fun v hv w hw hlv hlw => ?_).cons x
    exact hsame v hv w hw (hall v hv hlv) (hall w hw hlw)

/-! ### Counting -/

section Count

variable (order : Comparator (Option α)) {p : Option α → Bool}
  (hup : ∀ x y, p x = true → order.compare x y ≤ 0 → p y = true)

include hup

/-- In an ascending list, an element that counts has only elements behind it that count. -/
theorem countP_replicate_le {y : Option α} (hr : Ascending order.compare (y :: r)) :
    (List.replicate (r.length + 1) y).countP p ≤ (y :: r).countP p := by
  rw [List.countP_replicate]
  split
  · next hy =>
    have hall : (y :: r).countP p = (y :: r).length := by
      refine List.countP_eq_length.mpr fun z hz => ?_
      rcases List.mem_cons.mp hz with rfl | hz
      · exact hy
      · exact hup y z hy ((List.pairwise_cons.mp hr).1 z hz)
    exact hall.ge
  · exact Nat.zero_le _

/-- Nor does it make more of any kind than there were. -/
theorem countP_mergeTails_le (hr : Ascending order.compare r) :
    (mergeTails order.compare l r).countP p ≤ l.countP p + r.countP p := by
  induction l, r using mergeTails.induct order.compare with
  | case1 l => rw [mergeTails, List.countP_nil, Nat.add_zero]
  | case2 y r =>
    rw [mergeTails, List.countP_nil, Nat.zero_add]
    exact countP_replicate_le order hup hr
  | case3 x l y r hxy ih =>
    have hrest := ih (List.pairwise_cons.mp hr).2
    rw [mergeTails, if_pos hxy, List.countP_cons, List.countP_cons (l := r)]
    omega
  | case4 x l y r hxy ih =>
    have hrest := ih hr
    rw [mergeTails, if_neg hxy, List.countP_cons, List.countP_cons (l := l)]
    omega

/-- Of two elements that may be left on the right, one that counts is lost when the other does not. -/
theorem countP_mergeTails_lt {y z : Option α} (hr : Ascending order.compare r) (hy : y ∈ r) (hz : z ∈ r)
    (hly : ∀ x ∈ l, order.compare x y ≤ 0) (hlz : ∀ x ∈ l, order.compare x z ≤ 0)
    (hpy : p y ≠ true) (hpz : p z = true) :
    (mergeTails order.compare l r).countP p < l.countP p + r.countP p := by
  induction l, r using mergeTails.induct order.compare with
  | case1 l => cases hy
  | case2 y₀ r =>
    -- the first one left does not count, so its copies do not
    have hfirst : p y₀ ≠ true := by
      intro hp
      rcases List.mem_cons.mp hy with rfl | hmem
      · exact hpy hp
      · exact hpy (hup y₀ y hp ((List.pairwise_cons.mp hr).1 y hmem))
    rw [mergeTails, List.countP_replicate, if_neg hfirst, List.countP_nil, Nat.zero_add]
    exact List.countP_pos_iff.mpr ⟨z, hz, hpz⟩
  | case3 x l y₀ r hxy ih =>
    have hskip : ∀ w ∈ y₀ :: r, (∀ v ∈ x :: l, order.compare v w ≤ 0) → w ∈ r := by
      intro w hw hle
      rcases List.mem_cons.mp hw with rfl | hw
      · exact absurd (hle x List.mem_cons_self) (not_le.mpr hxy)
      · exact hw
    have hrest := ih (List.pairwise_cons.mp hr).2 (hskip y hy hly) (hskip z hz hlz) hly hlz
    rw [mergeTails, if_pos hxy, List.countP_cons, List.countP_cons (l := r)]
    omega
  | case4 x l y₀ r hxy ih =>
    have hrest := ih hr hy hz (fun v hv => hly v (List.mem_cons_of_mem x hv))
      (fun v hv => hlz v (List.mem_cons_of_mem x hv))
    rw [mergeTails, if_neg hxy, List.countP_cons, List.countP_cons (l := l)]
    omega

end Count

end Merge

/-! ## All merges

`Spared` says of the elements that no merge on any level has different ones left over. That it is enough
is an induction on the halves; that it is needed is a count of large elements, which no merge makes
greater. -/

/-- Wherever `xs` is halved, all elements of the second half that are not below any of the first are the
`same`. -/
def Spared (cmp : Option α → Option α → ℤ) (same : Option α → Option α → Prop)
    (xs : List (Option α)) : Prop :=
  if xs.length ≤ 1 then True
  else
    Spared cmp same (xs.take (xs.length / 2)) ∧ Spared cmp same (xs.drop (xs.length / 2)) ∧
      ∀ y ∈ xs.drop (xs.length / 2), ∀ z ∈ xs.drop (xs.length / 2),
        (∀ x ∈ xs.take (xs.length / 2), cmp x y ≤ 0) →
        (∀ x ∈ xs.take (xs.length / 2), cmp x z ≤ 0) → same y z
termination_by xs.length

section Halves

variable {cmp : Option α → Option α → ℤ} {xs : List (Option α)}

theorem length_msort (cmp : Option α → Option α → ℤ) (xs : List (Option α)) :
    (msort cmp xs).length = xs.length := by
  induction xs using msort.induct with
  | case1 xs hsmall => rw [msort, if_pos hsmall]
  | case2 xs hbig ihl ihr =>
    rw [msort, if_neg hbig, length_mergeTails, ihl, ihr, ← List.length_append, List.take_append_drop]

theorem mem_msort {x : Option α} (hx : x ∈ msort cmp xs) : x ∈ xs := by
  induction xs using msort.induct with
  | case1 xs hsmall =>
    rw [msort, if_pos hsmall] at hx
    exact hx
  | case2 xs hbig ihl ihr =>
    rw [msort, if_neg hbig] at hx
    rcases mem_mergeTails hx with hx | hx
    · exact List.mem_of_mem_take (ihl hx)
    · exact List.mem_of_mem_drop (ihr hx)

theorem ascending_msort (order : Comparator (Option α)) (xs : List (Option α)) :
    Ascending order.compare (msort order.compare xs) := by
  induction xs using msort.induct with
  | case1 xs hsmall =>
    rw [msort, if_pos hsmall]
    exact ascending_small order.compare hsmall
  | case2 xs hbig ihl ihr =>
    rw [msort, if_neg hbig]
    exact ascending_mergeTails order ihl ihr

/-- Two elements of `xs` that are the same in one sense may be so in another. -/
theorem Spared.imp {same same' : Option α → Option α → Prop} (h : Spared cmp same xs)
    (himp : ∀ y ∈ xs, ∀ z ∈ xs, same y z → same' y z) : Spared cmp same' xs := by
  induction xs using msort.induct with
  | case1 xs hsmall =>
    rw [Spared, if_pos hsmall]
    trivial
  | case2 xs hbig ihl ihr =>
    rw [Spared, if_neg hbig] at h ⊢
    obtain ⟨hl, hr, hsame⟩ := h
    refine ⟨ihl hl ?_, ihr hr ?_, ?_⟩
    · intro y hy z hz
      exact himp y (List.mem_of_mem_take hy) z (List.mem_of_mem_take hz)
    · intro y hy z hz
      exact himp y (List.mem_of_mem_drop hy) z (List.mem_of_mem_drop hz)
    · intro y hy z hz hly hlz
      exact himp y (List.mem_of_mem_drop hy) z (List.mem_of_mem_drop hz) (hsame y hy z hz hly hlz)

/-- **Enough**: nothing is lost in any merge. -/
theorem perm_msort (order : Comparator (Option α)) (h : Spared order.compare Eq xs) :
    (msort order.compare xs).Perm xs := by
  induction xs using msort.induct with
  | case1 xs hsmall => rw [msort, if_pos hsmall]
  | case2 xs hbig ihl ihr =>
    rw [Spared, if_neg hbig] at h
    obtain ⟨hl, hr, hsame⟩ := h
    rw [msort, if_neg hbig]
    refine (perm_mergeTails order (ascending_msort order _) ?_).trans ?_
    · intro y hy z hz hly hlz
      refine hsame y (mem_msort hy) z (mem_msort hz) (fun x hx => ?_) fun x hx => ?_
      · exact hly x ((ihl hl).mem_iff.mpr hx)
      · exact hlz x ((ihl hl).mem_iff.mpr hx)
    · have hhalves := (ihl hl).append (ihr hr)
      rwa [List.take_append_drop] at hhalves

section Count

variable (order : Comparator (Option α)) {p : Option α → Bool}

theorem countP_msort_le (hup : ∀ x y, p x = true → order.compare x y ≤ 0 → p y = true)
    (xs : List (Option α)) : (msort order.compare xs).countP p ≤ xs.countP p := by
  induction xs using msort.induct with
  | case1 xs hsmall => rw [msort, if_pos hsmall]
  | case2 xs hbig ihl ihr =>
    have hhalves : (xs.take (xs.length / 2)).countP p + (xs.drop (xs.length / 2)).countP p =
        xs.countP p := by rw [← List.countP_append, List.take_append_drop]
    have hmerge := countP_mergeTails_le order hup
      (l := msort order.compare (xs.take (xs.length / 2)))
      (ascending_msort order (xs.drop (xs.length / 2)))
    rw [msort, if_neg hbig]
    omega

/-- An element that counts only on the right makes a difference. -/
theorem countP_lt_countP {q : Option α → Bool} {x : Option α} (h : ∀ y ∈ xs, p y = true → q y = true)
    (hx : x ∈ xs) (hp : p x ≠ true) (hq : q x = true) : xs.countP p < xs.countP q := by
  obtain ⟨s, t, rfl⟩ := List.mem_iff_append.mp hx
  have hs : s.countP p ≤ s.countP q :=
    List.countP_mono_left fun y hy => h y (List.mem_append_left _ hy)
  have ht : t.countP p ≤ t.countP q :=
    List.countP_mono_left fun y hy => h y (List.mem_append_right _ (List.mem_cons_of_mem x hy))
  rw [List.countP_append, List.countP_append, List.countP_cons_of_neg hp, List.countP_cons_of_pos hq]
  omega

/-- One merge, when no count goes down in the halves and none in the merge. -/
theorem not_lt_of_counts {l r : List (Option α)}
    (hparts : ∀ p : Option α → Bool, (∀ x y, p x = true → order.compare x y ≤ 0 → p y = true) →
      (msort order.compare l).countP p = l.countP p ∧ (msort order.compare r).countP p = r.countP p ∧
        (mergeTails order.compare (msort order.compare l) (msort order.compare r)).countP p =
          (msort order.compare l).countP p + (msort order.compare r).countP p)
    {y z : Option α} (hy : y ∈ r) (hz : z ∈ r) (hly : ∀ x ∈ l, order.compare x y ≤ 0)
    (hlz : ∀ x ∈ l, order.compare x z ≤ 0) : ¬ order.compare y z < 0 := by
  intro hyz
  let above (w x : Option α) : Bool := decide (order.compare w x ≤ 0)
  have hup : ∀ w x v, above w x = true → order.compare x v ≤ 0 → above w v = true := by
    intro w x v hwx hxv
    exact decide_eq_true (order.le_trans w x v (of_decide_eq_true hwx) hxv)
  obtain ⟨-, hcountz, hmerge⟩ := hparts (above z) (hup z)
  obtain ⟨-, hcounty, -⟩ := hparts (above y) (hup y)
  -- the sorted half has an element that is above `y` and not above `z`, and one that is above `z`
  obtain ⟨y', hy', hyy', hzy'⟩ : ∃ y' ∈ msort order.compare r, above y y' = true ∧ above z y' ≠ true := by
    by_contra hnone
    have hle : (msort order.compare r).countP (above y) ≤ (msort order.compare r).countP (above z) := by
      refine List.countP_mono_left fun w hw hyw => ?_
      by_contra hzw
      exact hnone ⟨w, hw, hyw, hzw⟩
    have hzy : above z y ≠ true := by
      intro h
      exact absurd (order.le_iff_ge.mp (of_decide_eq_true h)) (not_le.mpr hyz)
    have hlt : r.countP (above z) < r.countP (above y) := by
      refine countP_lt_countP (fun w _ hw => ?_) hy hzy (decide_eq_true (order.self y).le)
      exact decide_eq_true (order.le_trans y z w hyz.le (of_decide_eq_true hw))
    omega
  obtain ⟨z', hz', hzz'⟩ : ∃ z' ∈ msort order.compare r, above z z' = true := by
    rw [← List.countP_pos_iff, hcountz, List.countP_pos_iff]
    exact ⟨z, hz, decide_eq_true (order.self z).le⟩
  have hly' : ∀ x ∈ msort order.compare l, order.compare x y' ≤ 0 := fun x hx =>
    order.le_trans x y y' (hly x (mem_msort hx)) (of_decide_eq_true hyy')
  have hlz' : ∀ x ∈ msort order.compare l, order.compare x z' ≤ 0 := fun x hx =>
    order.le_trans x z z' (hlz x (mem_msort hx)) (of_decide_eq_true hzz')
  have hlost := countP_mergeTails_lt order (hup z) (ascending_msort order r) hy' hz' hly' hlz' hzy' hzz'
  omega

/-- **Needed**: where as many elements count as before, in whatever way that favours larger ones, no
merge had two elements left that compare differently. -/
theorem spared_of_counts
    (hcounts : ∀ p : Option α → Bool, (∀ x y, p x = true → order.compare x y ≤ 0 → p y = true) →
      (msort order.compare xs).countP p = xs.countP p) :
    Spared order.compare (fun y z => order.compare y z = 0) xs := by
  induction xs using msort.induct with
  | case1 xs hsmall =>
    rw [Spared, if_pos hsmall]
    trivial
  | case2 xs hbig ihl ihr =>
    obtain ⟨l, hl⟩ : ∃ l, xs.take (xs.length / 2) = l := ⟨_, rfl⟩
    obtain ⟨r, hr⟩ : ∃ r, xs.drop (xs.length / 2) = r := ⟨_, rfl⟩
    rw [hl] at ihl
    rw [hr] at ihr
    -- no count goes down in either half, nor in the merge
    have hparts : ∀ p : Option α → Bool, (∀ x y, p x = true → order.compare x y ≤ 0 → p y = true) →
        (msort order.compare l).countP p = l.countP p ∧ (msort order.compare r).countP p = r.countP p ∧
        (mergeTails order.compare (msort order.compare l) (msort order.compare r)).countP p =
          (msort order.compare l).countP p + (msort order.compare r).countP p := by
      intro p hup
      have hhalves : l.countP p + r.countP p = xs.countP p := by
        rw [← hl, ← hr, ← List.countP_append, List.take_append_drop]
      have hall := hcounts p hup
      rw [msort, if_neg hbig, hl, hr] at hall
      have hmerge := countP_mergeTails_le order hup (l := msort order.compare l)
        (ascending_msort order r)
      have hleft := countP_msort_le order hup l
      have hright := countP_msort_le order hup r
      omega
    rw [Spared, if_neg hbig, hl, hr]
    refine ⟨ihl fun p hup => (hparts p hup).1, ihr fun p hup => (hparts p hup).2.1, ?_⟩
    intro y hy z hz hly hlz
    have hle := not_lt_of_counts order hparts hy hz hly hlz
    have hge := not_lt_of_counts order hparts hz hy hlz hly
    have := order.lt_iff_gt z y
    omega

end Count

end Halves

/-! ## The blocks

Between the lists and the code stand the blocks, with slots that may hold NULL. On elements that are not
NULL, a block is sorted as its list is. -/

namespace Algos

variable {contents l r xs rest : List (Option α)}

theorem copyHalf_eq {j n : ℕ} (h : j + n ≤ contents.length) :
    copyHalf contents j n = .ok ((contents.drop j).take n) := by
  unfold copyHalf
  induction n generalizing j with
  | zero => rfl
  | succ n ih =>
    have hj : j < contents.length := by omega
    have hrest : (List.range' (j + 1) n).mapM (fun k => readAt contents (k : ℕ)) =
        .ok ((contents.drop (j + 1)).take n) := ih (by omega)
    rw [List.range'_succ, List.mapM_cons, readAt_eq (List.getElem?_eq_getElem hj), ok_bind, hrest,
      List.drop_eq_getElem_cons hj, List.take_succ_cons]
    rfl

/-- Two halves of which neither is empty nor starts with NULL. -/
theorem mergeLists_eq (cmp : Option α → Option α → ℤ) (hl : l ≠ []) (hr : r ≠ []) (hnull : none ∉ l)
    (hnull' : none ∉ r) :
    mergeLists cmp l r l.length r.length = .ok (mergeTails cmp l r) := by
  obtain ⟨x, l, rfl⟩ := List.exists_cons_of_ne_nil hl
  obtain ⟨y, r, rfl⟩ := List.exists_cons_of_ne_nil hr
  obtain ⟨v, rfl⟩ := Option.ne_none_iff_exists'.mp (List.ne_of_not_mem_cons hnull).symm
  obtain ⟨w, rfl⟩ := Option.ne_none_iff_exists'.mp (List.ne_of_not_mem_cons hnull').symm
  exact mergeBlocks_eq cmp (some v :: l) (some w :: r)

/-- **Without NULL** the block that `mergesort` returns is what the merges compute. -/
theorem sortBlock_eq (cmp : Option α → Option α → ℤ) (hnull : none ∉ xs)
    (hrest : 2 ≤ xs.length ∨ rest = []) :
    sortBlock cmp (xs ++ rest) xs.length = .ok (msort cmp xs) := by
  induction xs using msort.induct generalizing rest with
  | case1 xs hsmall =>
    obtain rfl := hrest.resolve_left (by omega)
    rw [sortBlock, if_pos hsmall, msort, if_pos hsmall, List.append_nil]
    rfl
  | case2 xs hbig ihl ihr =>
    obtain ⟨l, hl⟩ : ∃ l, xs.take (xs.length / 2) = l := ⟨_, rfl⟩
    obtain ⟨r, hr⟩ : ∃ r, xs.drop (xs.length / 2) = r := ⟨_, rfl⟩
    have hllen : l.length = xs.length / 2 := by
      rw [← hl, List.length_take]
      omega
    have hrlen : r.length = xs.length - xs.length / 2 := by rw [← hr, List.length_drop]
    have hnulll : none ∉ l := fun h => hnull (List.mem_of_mem_take (hl ▸ h))
    have hnullr : none ∉ r := fun h => hnull (List.mem_of_mem_drop (hr ▸ h))
    have hsort : msort cmp xs = mergeTails cmp (msort cmp l) (msort cmp r) := by
      rw [msort, if_neg hbig, hl, hr]
    have hleft : copyHalf (xs ++ rest) 0 (xs.length / 2) = .ok l := by
      rw [copyHalf_eq (by rw [List.length_append]; omega), List.drop_zero,
        List.take_append_of_le_length (by omega), hl]
    have hright : copyHalf (xs ++ rest) (xs.length / 2) (xs.length - xs.length / 2) = .ok r := by
      rw [copyHalf_eq (by rw [List.length_append]; omega), List.drop_append_of_le_length (by omega), hr,
        ← hrlen, List.take_left]
    -- neither half has anything behind it
    rw [hl] at ihl
    rw [hr] at ihr
    have hsortl := ihl hnulll (Or.inr rfl)
    have hsortr := ihr hnullr (Or.inr rfl)
    rw [List.append_nil, hllen] at hsortl
    rw [List.append_nil, hrlen] at hsortr
    have hlpos : 0 < (msort cmp l).length := by
      rw [length_msort]
      omega
    have hrpos : 0 < (msort cmp r).length := by
      rw [length_msort]
      omega
    have hmerge := mergeLists_eq cmp (List.ne_nil_of_length_pos hlpos) (List.ne_nil_of_length_pos hrpos)
      (fun h => hnulll (mem_msort h)) (fun h => hnullr (mem_msort h))
    rw [length_msort, length_msort, hllen, hrlen] at hmerge
    rw [sortBlock, if_neg hbig, hleft, ok_bind, hright, ok_bind, hsortl, ok_bind, hsortr, ok_bind, hmerge,
      hsort]

end Algos

/-! ## The array

The block that comes back takes the place of the slots. What is said of the blocks is then said of an
array. -/

section Array

variable {array array' : DArray α} {xs : List (Option α)}

/-- **`DArray_mergesort`** on elements that are not NULL. -/
theorem mergesort_eq (cmp : Option α → Option α → ℤ) (array : DArray α) (xs : List (Option α))
    (hend : array.end = xs.length) (hxs : array.contents.take xs.length = xs) (hnull : none ∉ xs) :
    array.mergesort cmp = .ok { array with
      contents := if xs.length ≤ 1 then array.contents else msort cmp xs } := by
  obtain ⟨rest, hcontents⟩ : ∃ rest, array.contents = xs ++ rest :=
    ⟨_, by conv_lhs => rw [← List.take_append_drop xs.length array.contents, hxs]⟩
  have hblock : Algos.sortBlock cmp array.contents xs.length =
      .ok (if xs.length ≤ 1 then array.contents else msort cmp xs) := by
    split
    · next hsmall =>
      rw [Algos.sortBlock, if_pos hsmall]
      rfl
    · next hbig =>
      rw [hcontents]
      exact Algos.sortBlock_eq cmp hnull (Or.inl (by omega))
  refine mergesort_ok_iff.mpr ⟨_, ?_, rfl⟩
  rw [hend, Int.toNat_natCast, hblock]

/-- The elements of an array have been sorted. -/
def Sorts (cmp : Option α → Option α → ℤ) (xs : List (Option α)) (result : Except Fault (DArray α)) :
    Prop :=
  ∃ array', result = .ok array' ∧ (array'.contents.take xs.length).Perm xs ∧
    Ascending cmp (array'.contents.take xs.length)

/-- **`DArray_mergesort` sorts exactly what it spares.** No merge may have two different elements left on
the right; what breaks this can at best put an element in the place of one that compares equal. -/
theorem mergesort_sorts_iff (order : Comparator (Option α)) (array : DArray α)
    (hend : array.end = xs.length) (hxs : array.contents.take xs.length = xs) (hnull : none ∉ xs) :
    (Spared order.compare Eq xs → Sorts order.compare xs (array.mergesort order.compare)) ∧
    (Sorts order.compare xs (array.mergesort order.compare) →
      Spared order.compare (fun y z => order.compare y z = 0) xs) ∧
    ((∀ x ∈ xs, ∀ y ∈ xs, order.compare x y = 0 → x = y) →
      (Sorts order.compare xs (array.mergesort order.compare) ↔ Spared order.compare Eq xs)) := by
  have htake : (if xs.length ≤ 1 then array.contents else msort order.compare xs).take xs.length =
      msort order.compare xs := by
    split
    · next hsmall => rw [hxs, msort, if_pos hsmall]
    · next hbig =>
      rw [List.take_of_length_le]
      rw [length_msort]
  -- the result is in ascending order in any case: what counts is whether the elements are there
  have hsorts : Sorts order.compare xs (array.mergesort order.compare) ↔
      (msort order.compare xs).Perm xs := by
    constructor
    · rintro ⟨array', hrun, hperm, -⟩
      obtain rfl := Except.ok.inj ((mergesort_eq order.compare array xs hend hxs hnull).symm.trans hrun)
      rwa [htake] at hperm
    · intro hperm
      refine ⟨_, mergesort_eq order.compare array xs hend hxs hnull, ?_, ?_⟩
      · show (List.take xs.length _).Perm xs
        rwa [htake]
      · show Ascending order.compare (List.take xs.length _)
        rw [htake]
        exact ascending_msort order xs
  have hneeded : (msort order.compare xs).Perm xs →
      Spared order.compare (fun y z => order.compare y z = 0) xs :=
    fun hperm => spared_of_counts order fun p _ => hperm.countP_eq p
  rw [hsorts]
  refine ⟨perm_msort order, hneeded, fun hties => ⟨fun hperm => ?_, perm_msort order⟩⟩
  exact (hneeded hperm).imp hties

/-- Two elements out of order. -/
theorem mergesort_sorts_iff_two :
    let order : Comparator (Option ℕ) := Comparator.numbers
    let array : DArray ℕ := { «end» := 2, max := 3, contents := [some 2, some 1, none] }
    (Spared order.compare Eq [some 2, some 1] →
      Sorts order.compare [some 2, some 1] (array.mergesort order.compare)) ∧
    (Sorts order.compare [some 2, some 1] (array.mergesort order.compare) →
      Spared order.compare (fun y z => order.compare y z = 0) [some 2, some 1]) ∧
    ((∀ x ∈ [some 2, some 1], ∀ y ∈ [some 2, some 1], order.compare x y = 0 → x = y) →
      (Sorts order.compare [some 2, some 1] (array.mergesort order.compare) ↔
        Spared order.compare Eq [some 2, some 1])) :=
  mergesort_sorts_iff _ { «end» := 2, max := 3, contents := [some 2, some 1, none] } rfl rfl (by decide)

/-- Of 1, 2 and 3, already in order, the 3 is overwritten by a second 2. -/
theorem mergesort_copies : ¬ Sorts Comparator.numbers.compare [some 1, some 2, some 3]
    (mergesort { «end» := 3, max := 5, contents := [some 1, some 2, some 3, none, none] }
      Comparator.numbers.compare) := by
  rintro ⟨array', hrun, hperm, -⟩
  have hsort : msort Comparator.numbers.compare [some 1, some 2, some 3] =
      [some 1, some 2, some 2] := by
    simp [msort, mergeTails, Comparator.numbers]
  have heq := mergesort_eq Comparator.numbers.compare
    { «end» := 3, max := 5, contents := [some 1, some 2, some 3, none, none] }
    [some 1, some 2, some 3] rfl rfl (by decide)
  obtain rfl := Except.ok.inj (heq.symm.trans hrun)
  have hthree := hperm.mem_iff.mpr (show some 3 ∈ [some 1, some 2, some 3] by decide)
  change some 3 ∈ List.take 3 (msort _ [some 1, some 2, some 3]) at hthree
  rw [hsort] at hthree
  exact absurd hthree (by decide)

end Array

end Lcthw.DArray
