import Lcthw.Comparator
import Lcthw.DArray

/-!
# Lcthw — `DArray_qsort` (`darray_algos.c`)

Quicksort in place, on the slots from `start` to `end`, with the last one as pivot. Each division prints
its pivot with `%s`, in every build without `NDEBUG`.

* **`partition_eq`**: the loop collects in front the elements that are below the pivot.
* **`Pivot`**: the elements that become pivots. They depend on the comparator and not on what is printed.
* **`qsort_sorts_iff`**: the elements of the array get sorted, and no other slot is used, exactly when
  all pivots can be printed.
-/

namespace Lcthw.DArray

variable {α : Type}

/-- `swap` -/
def swap (array : List (Option α)) (a b : ℤ) : Except Fault (List (Option α)) := do
  let temp ← readAt array a
  let y ← readAt array b
  let array ← writeAt array a y
  writeAt array b temp

/-- The loop of `quicksort` over the `n` slots from `j` on. Those up to `i` are below the pivot. -/
def partition (cmp : Option α → Option α → ℤ) (pivot : Option α) :
    ℕ → List (Option α) → ℤ → ℤ → Except Fault (List (Option α) × ℤ)
  | 0, array, i, _ => pure (array, i)
  | n + 1, array, i, j => do
    let x ← readAt array j
    if cmp x pivot < 0 then
      let i := i + 1
      let array ← swap array i j
      partition cmp pivot n array i (j + 1)
    else
      partition cmp pivot n array i (j + 1)

/-- What `quicksort` does before it prints. -/
def divide (cmp : Option α → Option α → ℤ) (array : List (Option α)) (start «end» : ℤ) :
    Except Fault (List (Option α) × ℤ × Option α) := do
  let pivot ← readAt array «end»
  let (array, i) ← partition cmp pivot («end» - start).toNat array (start - 1) start
  let array ← swap array «end» (i + 1)
  return (array, i, pivot)

section Print

-- the bytes of what an element points to, up to the end of its object
variable (bytes : α → List UInt8)

/-- `%s` reads up to the first NUL, and prints "(null)" for NULL. -/
def printString : Option α → Except Fault Unit
  | none => pure ()
  | some el => if 0 ∈ bytes el then pure () else throw .outOfBounds

/-- `debug("piv_location: %d, pivot %s,same %s",i+1,pivot,array[i+1])` -/
def debugPivot (array : List (Option α)) (i : ℤ) (pivot : Option α) : Except Fault Unit := do
  printString bytes pivot
  let same ← readAt array (i + 1)
  printString bytes same

/-- `quicksort`. The fuel bounds the depth of the calls. -/
def quicksort (cmp : Option α → Option α → ℤ) :
    ℕ → List (Option α) → ℤ → ℤ → Except Stop (List (Option α))
  | 0, _, _, _ => .error .outOfFuel
  | fuel + 1, array, start, «end» =>
    if «end» - start ≥ 1 then do
      let (array, i, pivot) ← (divide cmp array start «end»).mapError .fault
      (debugPivot bytes array i pivot).mapError .fault
      let array ← quicksort cmp fuel array start i
      quicksort cmp fuel array (i + 2) «end»
    else pure array

/-- `DArray_qsort` -/
def qsort (array : DArray α) (cmp : Option α → Option α → ℤ) (fuel : ℕ) :
    Except Stop (DArray α) := do
  let contents ← quicksort bytes cmp fuel array.contents 0 (array.end - 1)
  return { array with contents }

end Print

/-- No element is above a later one. -/
def Ascending (cmp : Option α → Option α → ℤ) (xs : List (Option α)) : Prop :=
  xs.Pairwise fun x y => cmp x y ≤ 0

theorem ascending_small (cmp : Option α → Option α → ℤ) {xs : List (Option α)}
    (hsmall : xs.length ≤ 1) : Ascending cmp xs := by
  match xs, hsmall with
  | [], _ => exact List.Pairwise.nil
  | [x], _ => exact List.pairwise_singleton _ x

/-! ## Swapping

A swap in a list that is cut at the two places exchanges two elements between three parts that stay.
This form is what the invariant of the loop is made of. -/

theorem readAt_middle (pre : List (Option α)) (x : Option α) (post : List (Option α)) :
    readAt (pre ++ x :: post) (pre.length : ℕ) = .ok x := by
  apply readAt_eq
  rw [List.getElem?_append_right le_rfl, Nat.sub_self]
  rfl

theorem swap_eq {array : List (Option α)} {a b : ℕ} {x y : Option α} (ha : array[a]? = some x)
    (hb : array[b]? = some y) : swap array a b = .ok ((array.set a y).set b x) := by
  have halt : a < array.length := (List.getElem?_eq_some_iff.mp ha).1
  have hblt : b < (array.set a y).length := by
    rw [List.length_set]
    exact (List.getElem?_eq_some_iff.mp hb).1
  unfold swap
  rw [readAt_eq ha, ok_bind, readAt_eq hb, ok_bind, writeAt_eq halt, ok_bind, writeAt_eq hblt]

theorem swap_perm {array : List (Option α)} {a b : ℕ} {x y : Option α} (ha : array[a]? = some x)
    (hb : array[b]? = some y) : ((array.set a y).set b x).Perm array := by
  obtain ⟨halt, rfl⟩ := List.getElem?_eq_some_iff.mp ha
  obtain ⟨hblt, rfl⟩ := List.getElem?_eq_some_iff.mp hb
  exact List.set_set_perm halt hblt

theorem swap_comm {array : List (Option α)} {a b : ℕ} (ha : a < array.length)
    (hb : b < array.length) : swap array a b = swap array b a := by
  have hx := List.getElem?_eq_getElem ha
  have hy := List.getElem?_eq_getElem hb
  rw [swap_eq hx hy, swap_eq hy hx]
  by_cases hab : a = b
  · subst hab
    rfl
  · rw [List.set_comm _ _ hab]

theorem swap_self {array : List (Option α)} {a : ℕ} (ha : a < array.length) :
    swap array a a = .ok array := by
  have hx := List.getElem?_eq_getElem ha
  rw [swap_eq hx hx, List.set_set, List.set_getElem_self]

/-- Two elements with others before, between and behind them. -/
theorem swap_apart (pre mid post : List (Option α)) (x y : Option α) :
    swap (pre ++ x :: mid ++ y :: post) pre.length (pre ++ x :: mid).length =
      .ok (pre ++ y :: mid ++ x :: post) := by
  have ha : (pre ++ x :: mid ++ y :: post)[pre.length]? = some x := by
    rw [List.append_assoc, List.getElem?_append_right le_rfl, Nat.sub_self]
    rfl
  have hb : (pre ++ x :: mid ++ y :: post)[(pre ++ x :: mid).length]? = some y := by
    rw [List.getElem?_append_right le_rfl, Nat.sub_self]
    rfl
  have hset : (pre ++ x :: mid ++ y :: post).set pre.length y = pre ++ y :: mid ++ y :: post := by
    rw [List.append_assoc, List.set_append_right _ _ le_rfl, Nat.sub_self, List.append_assoc]
    rfl
  have hlength : (pre ++ x :: mid).length = (pre ++ y :: mid).length := by
    rw [List.length_append, List.length_append, List.length_cons, List.length_cons]
  rw [swap_eq ha hb, hset, hlength, List.set_append_right _ _ le_rfl, Nat.sub_self]
  rfl

/-- The first of some elements changes places with what comes behind them. -/
theorem swap_front (pre hi post : List (Option α)) (x : Option α) :
    swap (pre ++ hi ++ x :: post) pre.length (pre ++ hi).length =
      .ok (pre ++ x :: (hi.rotate 1 ++ post)) := by
  cases hi with
  | nil =>
    rw [List.append_nil, List.rotate_nil, List.nil_append]
    apply swap_self
    rw [List.length_append, List.length_cons]
    omega
  | cons h hs =>
    rw [swap_apart, List.rotate_cons_succ, List.rotate_zero, List.append_assoc, List.append_assoc]
    rfl

/-! ## One division

The loop keeps the elements below the pivot in front of the others. Behind it the pivot changes places
with the first of the others, which is how that one comes to stand behind all of them. -/

/-- An element below the pivot goes to the end of `lo`, in exchange for the first of `hi`. -/
theorem partition_below {cmp : Option α → Option α → ℤ} {pivot x : Option α} (hx : cmp x pivot < 0)
    (pre lo hi rest post : List (Option α)) :
    partition cmp pivot (rest.length + 1) (pre ++ lo ++ hi ++ (x :: rest ++ post))
        ((pre ++ lo).length - 1) (pre ++ lo ++ hi).length =
      partition cmp pivot rest.length (pre ++ (lo ++ [x]) ++ hi.rotate 1 ++ (rest ++ post))
        ((pre ++ (lo ++ [x])).length - 1) (pre ++ (lo ++ [x]) ++ hi.rotate 1).length := by
  have hread := readAt_middle (pre ++ lo ++ hi) x (rest ++ post)
  have hswap := swap_front (pre ++ lo) hi (rest ++ post) x
  have harray : pre ++ (lo ++ [x]) ++ hi.rotate 1 ++ (rest ++ post) =
      pre ++ lo ++ x :: (hi.rotate 1 ++ (rest ++ post)) := by simp
  have hi₁ : ((pre ++ (lo ++ [x])).length : ℤ) - 1 = (pre ++ lo).length := by
    simp only [List.length_append, List.length_singleton]
    omega
  have hj₁ : ((pre ++ (lo ++ [x]) ++ hi.rotate 1).length : ℤ) = (pre ++ lo ++ hi).length + 1 := by
    simp only [List.length_append, List.length_singleton, List.length_rotate]
    omega
  rw [List.cons_append, partition, hread, ok_bind, if_pos hx]
  simp only [Int.sub_add_cancel]
  rw [hswap, ok_bind, harray, hi₁, hj₁]

/-- Any other element stays where it is, at the end of `hi`. -/
theorem partition_above {cmp : Option α → Option α → ℤ} {pivot x : Option α} (hx : ¬ cmp x pivot < 0)
    (pre lo hi rest post : List (Option α)) :
    partition cmp pivot (rest.length + 1) (pre ++ lo ++ hi ++ (x :: rest ++ post))
        ((pre ++ lo).length - 1) (pre ++ lo ++ hi).length =
      partition cmp pivot rest.length (pre ++ lo ++ (hi ++ [x]) ++ (rest ++ post))
        ((pre ++ lo).length - 1) (pre ++ lo ++ (hi ++ [x])).length := by
  have hread := readAt_middle (pre ++ lo ++ hi) x (rest ++ post)
  have harray : pre ++ lo ++ (hi ++ [x]) ++ (rest ++ post) =
      pre ++ lo ++ hi ++ x :: (rest ++ post) := by simp
  have hj₁ : ((pre ++ lo ++ (hi ++ [x])).length : ℤ) = (pre ++ lo ++ hi).length + 1 := by
    simp only [List.length_append, List.length_singleton]
    omega
  rw [List.cons_append, partition, hread, ok_bind, if_neg hx, harray, hj₁]

/-- The elements below the pivot, and the others, in the order in which the loop leaves them. -/
def parts (cmp : Option α → Option α → ℤ) (pivot : Option α) :
    List (Option α) → List (Option α) → List (Option α) → List (Option α) × List (Option α)
  | lo, hi, [] => (lo, hi)
  | lo, hi, x :: rest =>
    if cmp x pivot < 0 then parts cmp pivot (lo ++ [x]) (hi.rotate 1) rest
    else parts cmp pivot lo (hi ++ [x]) rest

/-- The two parts are below the pivot and not below it, and together they are what there was. -/
theorem parts_spec (cmp : Option α → Option α → ℤ) (pivot : Option α) (rest : List (Option α)) :
    ∀ lo hi : List (Option α), (∀ x ∈ lo, cmp x pivot < 0) → (∀ x ∈ hi, ¬ cmp x pivot < 0) →
      (∀ x ∈ (parts cmp pivot lo hi rest).1, cmp x pivot < 0) ∧
        (∀ x ∈ (parts cmp pivot lo hi rest).2, ¬ cmp x pivot < 0) ∧
        ((parts cmp pivot lo hi rest).1 ++ (parts cmp pivot lo hi rest).2).Perm (lo ++ hi ++ rest) := by
  induction rest with
  | nil =>
    intro lo hi hlo hhi
    refine ⟨hlo, hhi, ?_⟩
    rw [List.append_nil]
    exact List.Perm.refl _
  | cons x rest ih =>
    intro lo hi hlo hhi
    unfold parts
    by_cases hx : cmp x pivot < 0
    · have hrotate : (x :: (hi.rotate 1 ++ rest)).Perm (hi ++ x :: rest) :=
        (((List.rotate_perm hi 1).append_right rest).cons x).trans List.perm_middle.symm
      rw [if_pos hx]
      obtain ⟨hlo', hhi', hperm⟩ := ih (lo ++ [x]) (hi.rotate 1)
        (List.forall_mem_append.mpr ⟨hlo, List.forall_mem_singleton.mpr hx⟩)
        (fun y hy => hhi y (List.mem_rotate.mp hy))
      refine ⟨hlo', hhi', hperm.trans ?_⟩
      rw [List.append_assoc, List.append_assoc, List.append_assoc]
      exact hrotate.append_left lo
    · rw [if_neg hx]
      obtain ⟨hlo', hhi', hperm⟩ := ih lo (hi ++ [x]) hlo
        (List.forall_mem_append.mpr ⟨hhi, List.forall_mem_singleton.mpr hx⟩)
      refine ⟨hlo', hhi', hperm.trans ?_⟩
      rw [List.append_assoc, List.append_assoc, List.append_assoc]
      rfl

/-- **The loop.** What it has seen stands in front of the rest, the part `lo` below the pivot and the
part `hi` behind it. The slots before and behind are of no account. -/
theorem partition_eq (cmp : Option α → Option α → ℤ) (pivot : Option α) (pre rest post : List (Option α))
    (lo hi : List (Option α)) :
    partition cmp pivot rest.length (pre ++ lo ++ hi ++ (rest ++ post)) ((pre ++ lo).length - 1)
        (pre ++ lo ++ hi).length =
      .ok (pre ++ (parts cmp pivot lo hi rest).1 ++ (parts cmp pivot lo hi rest).2 ++ post,
        ((pre ++ (parts cmp pivot lo hi rest).1).length : ℤ) - 1) := by
  induction rest generalizing lo hi with
  | nil => rfl
  | cons x rest ih =>
    unfold parts
    -- an element below the pivot changes places with the first that is not
    by_cases hx : cmp x pivot < 0
    · rw [if_pos hx, List.length_cons, partition_below hx, ih]
    · rw [if_neg hx, List.length_cons, partition_above hx, ih]

/-- The elements in front of the pivot once they are divided. -/
def below (cmp : Option α → Option α → ℤ) (front : List (Option α)) (pivot : Option α) :
    List (Option α) :=
  (parts cmp pivot [] [] front).1

/-- The elements behind it. The first of them has changed places with the pivot. -/
def above (cmp : Option α → Option α → ℤ) (front : List (Option α)) (pivot : Option α) :
    List (Option α) :=
  (parts cmp pivot [] [] front).2.rotate 1

section Divide

variable (cmp : Option α → Option α → ℤ) (front : List (Option α)) (pivot : Option α)

theorem of_mem_below {x : Option α} (hx : x ∈ below cmp front pivot) : cmp x pivot < 0 :=
  (parts_spec cmp pivot front [] [] (by simp) (by simp)).1 x hx

theorem of_mem_above {x : Option α} (hx : x ∈ above cmp front pivot) : ¬ cmp x pivot < 0 :=
  (parts_spec cmp pivot front [] [] (by simp) (by simp)).2.1 x (List.mem_rotate.mp hx)

theorem below_above_perm :
    (below cmp front pivot ++ pivot :: above cmp front pivot).Perm (front ++ [pivot]) := by
  obtain ⟨-, -, hperm⟩ := parts_spec cmp pivot front [] [] (by simp) (by simp)
  have hrotate : (pivot :: above cmp front pivot).Perm ((parts cmp pivot [] [] front).2 ++ [pivot]) :=
    ((List.rotate_perm _ 1).cons pivot).trans (List.perm_append_singleton pivot _).symm
  apply (hrotate.append_left _).trans
  rw [← List.append_assoc]
  exact hperm.append_right [pivot]

theorem length_below_above :
    (below cmp front pivot).length + (above cmp front pivot).length = front.length := by
  have hlength := (below_above_perm cmp front pivot).length_eq
  simp only [List.length_append, List.length_cons, List.length_nil] at hlength
  omega

/-- **One division.** The last element goes between those below it and the others. -/
theorem divide_eq (pre post : List (Option α)) :
    divide cmp (pre ++ (front ++ [pivot]) ++ post) pre.length (pre ++ front).length =
      .ok (pre ++ below cmp front pivot ++ pivot :: (above cmp front pivot ++ post),
        ((pre ++ below cmp front pivot).length : ℤ) - 1, pivot) := by
  obtain ⟨lo, hlo⟩ : ∃ lo, (parts cmp pivot [] [] front).1 = lo := ⟨_, rfl⟩
  obtain ⟨hi, hhi⟩ : ∃ hi, (parts cmp pivot [] [] front).2 = hi := ⟨_, rfl⟩
  have hpivot : readAt (pre ++ (front ++ [pivot]) ++ post) (pre ++ front).length = .ok pivot := by
    rw [← List.append_assoc, List.append_assoc]
    exact readAt_middle (pre ++ front) pivot post
  have hcount : (((pre ++ front).length : ℤ) - pre.length).toNat = front.length := by
    rw [List.length_append]
    omega
  have hloop : partition cmp pivot front.length (pre ++ (front ++ [pivot]) ++ post) (pre.length - 1)
      pre.length = .ok (pre ++ lo ++ hi ++ pivot :: post, ((pre ++ lo).length : ℤ) - 1) := by
    have hrun := partition_eq cmp pivot pre front (pivot :: post) [] []
    rw [List.append_nil, List.append_nil, hlo, hhi] at hrun
    rw [← hrun, List.append_assoc, List.append_assoc]
    rfl
  have hend : (pre ++ front).length = (pre ++ lo ++ hi).length := by
    have hlength := length_below_above cmp front pivot
    rw [below, above, hlo, hhi, List.length_rotate] at hlength
    simp only [List.length_append]
    omega
  have hlt : (pre ++ lo ++ hi).length < (pre ++ lo ++ hi ++ pivot :: post).length := by
    simp
  have hlt' : (pre ++ lo).length < (pre ++ lo ++ hi ++ pivot :: post).length := by
    simp
  -- the pivot changes places with the first element that is not below it
  have hswap : swap (pre ++ lo ++ hi ++ pivot :: post) (pre ++ front).length (pre ++ lo).length =
      .ok (pre ++ lo ++ pivot :: (hi.rotate 1 ++ post)) := by
    rw [hend, swap_comm hlt hlt']
    exact swap_front (pre ++ lo) hi post pivot
  unfold divide
  rw [hpivot, ok_bind, hcount, hloop, ok_bind]
  simp only [Int.sub_add_cancel]
  rw [hswap, below, above, hlo, hhi]
  rfl

end Divide

/-! ## What is printed

The debug line prints the pivot and the element that has come to its place, as C strings. They are the
same element by then, so it is the pivot that must be one. -/

section Print

variable {bytes : α → List UInt8} {x : Option α}

/-- NULL, or a pointer to a string. -/
def Printable (bytes : α → List UInt8) (x : Option α) : Prop :=
  ∀ el, x = some el → 0 ∈ bytes el

theorem printString_ok (h : Printable bytes x) : printString bytes x = .ok () := by
  cases x with
  | none => rfl
  | some el => exact if_pos (h el rfl)

theorem printString_error (h : ¬ Printable bytes x) : printString bytes x = .error .outOfBounds := by
  cases x with
  | none => exact absurd nofun h
  | some el =>
    refine if_neg fun hmem => h ?_
    rintro _ ⟨⟩
    exact hmem

/-- The pivot is in the slot behind the elements below it. -/
theorem debugPivot_ok (h : Printable bytes x) (pre post : List (Option α)) :
    debugPivot bytes (pre ++ x :: post) ((pre.length : ℤ) - 1) x = .ok () := by
  have hsame : readAt (pre ++ x :: post) ((pre.length : ℤ) - 1 + 1) = .ok x := by
    rw [Int.sub_add_cancel]
    exact readAt_middle pre x post
  unfold debugPivot
  rw [printString_ok h, ok_bind, hsame, ok_bind, printString_ok h]

theorem debugPivot_error (h : ¬ Printable bytes x) (array : List (Option α)) (i : ℤ) :
    debugPivot bytes array i x = .error .outOfBounds := by
  unfold debugPivot
  rw [printString_error h]
  rfl

/-- The elements that become pivots: the last of two or more, and those of the two parts. -/
inductive Pivot (cmp : Option α → Option α → ℤ) : List (Option α) → Option α → Prop where
  | last {front : List (Option α)} {pivot : Option α} (h : front ≠ []) :
    Pivot cmp (front ++ [pivot]) pivot
  | low {front : List (Option α)} {pivot x : Option α} (h : Pivot cmp (below cmp front pivot) x) :
    Pivot cmp (front ++ [pivot]) x
  | high {front : List (Option α)} {pivot x : Option α} (h : Pivot cmp (above cmp front pivot) x) :
    Pivot cmp (front ++ [pivot]) x

theorem Pivot.mem {cmp : Option α → Option α → ℤ} {xs : List (Option α)} (h : Pivot cmp xs x) :
    x ∈ xs := by
  induction h with
  | last _ => simp
  | low _ ih =>
    exact (below_above_perm _ _ _).mem_iff.mp (List.mem_append_left _ ih)
  | high _ ih =>
    exact (below_above_perm _ _ _).mem_iff.mp (List.mem_append_right _ (List.mem_cons_of_mem _ ih))

/-- An array of one element or none has no pivot. -/
theorem not_pivot_of_small {cmp : Option α → Option α → ℤ} {xs : List (Option α)} (h : xs.length ≤ 1) :
    ¬ Pivot cmp xs x := by
  -- a part of no elements has no last one
  have hnil : ∀ ys : List (Option α), ys = [] → ¬ Pivot cmp ys x := by
    rintro _ rfl hp
    exact absurd hp.mem List.not_mem_nil
  intro hp
  cases hp with
  | last hne =>
    rw [List.length_append, List.length_singleton] at h
    exact hne (List.eq_nil_of_length_eq_zero (by omega))
  | @low front pivot _ hp =>
    have hlength := length_below_above cmp front pivot
    rw [List.length_append, List.length_singleton] at h
    exact hnil _ (List.eq_nil_of_length_eq_zero (by omega)) hp
  | @high front pivot _ hp =>
    have hlength := length_below_above cmp front pivot
    rw [List.length_append, List.length_singleton] at h
    exact hnil _ (List.eq_nil_of_length_eq_zero (by omega)) hp

end Print

/-! ## All divisions

A part of two elements or more is divided, its pivot is printed, and the two parts follow. What is
sorted does not depend on the printing, but whether the sort gets there does. -/

section Quicksort

variable {bytes : α → List UInt8} {cmp : Option α → Option α → ℤ} {fuel : ℕ}

theorem quicksort_small {array : List (Option α)} {start «end» : ℤ} (h : «end» - start < 1) :
    quicksort bytes cmp (fuel + 1) array start «end» = .ok array :=
  if_neg (not_le.mpr h)

section Divided

variable {pre front post : List (Option α)} {pivot : Option α} (hpos : front ≠ [])

include hpos

/-- What is done with two elements or more, up to the two calls. -/
theorem quicksort_step :
    quicksort bytes cmp (fuel + 1) (pre ++ (front ++ [pivot]) ++ post) pre.length
        ((pre ++ (front ++ [pivot])).length - 1) = (do
      (debugPivot bytes (pre ++ below cmp front pivot ++ pivot :: (above cmp front pivot ++ post))
        (((pre ++ below cmp front pivot).length : ℤ) - 1) pivot).mapError Stop.fault
      let array ← quicksort bytes cmp fuel
        (pre ++ below cmp front pivot ++ pivot :: (above cmp front pivot ++ post)) pre.length
        (((pre ++ below cmp front pivot).length : ℤ) - 1)
      quicksort bytes cmp fuel array (((pre ++ below cmp front pivot).length : ℤ) - 1 + 2)
        (pre ++ front).length) := by
  have hend : ((pre ++ (front ++ [pivot])).length : ℤ) - 1 = (pre ++ front).length := by
    simp only [List.length_append, List.length_singleton]
    omega
  have hlength := List.length_pos_iff.mpr hpos
  have hbig : ((pre ++ front).length : ℤ) - pre.length ≥ 1 := by
    rw [List.length_append]
    omega
  rw [quicksort, hend, if_pos hbig, divide_eq]
  rfl

/-- The two calls, once the elements are divided and the pivot is printed. -/
theorem quicksort_divided {ls : List (Option α)} (hprint : Printable bytes pivot)
    (hls : ls.length = (below cmp front pivot).length)
    (hlrun : ∀ pre post, quicksort bytes cmp fuel (pre ++ below cmp front pivot ++ post) pre.length
      ((pre ++ below cmp front pivot).length - 1) = .ok (pre ++ ls ++ post)) :
    quicksort bytes cmp (fuel + 1) (pre ++ (front ++ [pivot]) ++ post) pre.length
        ((pre ++ (front ++ [pivot])).length - 1) =
      quicksort bytes cmp fuel ((pre ++ ls ++ [pivot]) ++ above cmp front pivot ++ post)
        (pre ++ ls ++ [pivot]).length
        (((pre ++ ls ++ [pivot]) ++ above cmp front pivot).length - 1) := by
  -- what comes before the second range is the first one, sorted, and the pivot
  have hstart : ((pre ++ below cmp front pivot).length : ℤ) - 1 + 2 = (pre ++ ls ++ [pivot]).length := by
    simp only [List.length_append, List.length_singleton]
    omega
  have hlength := length_below_above cmp front pivot
  have hend : ((pre ++ front).length : ℤ) =
      (pre ++ ls ++ [pivot] ++ above cmp front pivot).length - 1 := by
    simp only [List.length_append, List.length_singleton]
    omega
  have harray : pre ++ ls ++ pivot :: (above cmp front pivot ++ post) =
      pre ++ ls ++ [pivot] ++ above cmp front pivot ++ post := by simp
  rw [quicksort_step hpos, debugPivot_ok hprint, mapError_ok, ok_bind, hlrun, ok_bind, hstart, harray,
    hend]

end Divided

/-- Two ascending parts and a pivot between them. -/
theorem ascending_divided (order : Comparator (Option α)) {lo hi : List (Option α)} {pivot : Option α}
    (hlo : ∀ x ∈ lo, order.compare x pivot < 0) (hhi : ∀ x ∈ hi, ¬ order.compare x pivot < 0)
    (hl : Ascending order.compare lo) (hh : Ascending order.compare hi) :
    Ascending order.compare (lo ++ pivot :: hi) := by
  have hpivot : ∀ y ∈ hi, order.compare pivot y ≤ 0 := by
    intro y hy
    exact order.le_iff_ge.mpr (not_lt.mp (hhi y hy))
  refine List.pairwise_append.mpr ⟨hl, List.pairwise_cons.mpr ⟨hpivot, hh⟩, ?_⟩
  intro x hx y hy
  rcases List.mem_cons.mp hy with rfl | hy
  · exact (hlo x hx).le
  · exact order.le_trans x pivot y (hlo x hx).le (hpivot y hy)

/-- **Quicksort**, on some elements that have others before and behind them: it sorts them, or meets a
pivot that it cannot print. -/
theorem quicksort_eq (bytes : α → List UInt8) (cmp : Option α → Option α → ℤ) {fuel : ℕ}
    {seg : List (Option α)} (hfuel : seg.length < fuel) :
    ((∀ x, Pivot cmp seg x → Printable bytes x) ∧
      ∃ ys, ys.Perm seg ∧ (∀ order : Comparator (Option α), order.compare = cmp → Ascending cmp ys) ∧
        ∀ pre post, quicksort bytes cmp fuel (pre ++ seg ++ post) pre.length
          ((pre ++ seg).length - 1) = .ok (pre ++ ys ++ post)) ∨
    ((∃ x, Pivot cmp seg x ∧ ¬ Printable bytes x) ∧
      ∀ pre post, quicksort bytes cmp fuel (pre ++ seg ++ post) pre.length
        ((pre ++ seg).length - 1) = .error (.fault .outOfBounds)) := by
  induction fuel generalizing seg with
  | zero => exact absurd hfuel (Nat.not_lt_zero _)
  | succ fuel ih =>
    by_cases hsmall : seg.length ≤ 1
    · refine Or.inl ⟨fun x hx => absurd hx (not_pivot_of_small hsmall), seg, List.Perm.refl seg,
        fun _ _ => ascending_small cmp hsmall, fun pre post => quicksort_small ?_⟩
      rw [List.length_append]
      omega
    · obtain rfl | ⟨front, pivot, rfl⟩ := List.eq_nil_or_concat' seg
      · exact absurd (Nat.zero_le 1) hsmall
      have hlength := length_below_above cmp front pivot
      rw [List.length_append, List.length_singleton] at hfuel hsmall
      have hpos : front ≠ [] := List.ne_nil_of_length_pos (by omega)
      by_cases hprint : Printable bytes pivot
      · -- the parts are shorter than the whole, since the pivot is in neither
        rcases ih (show (below cmp front pivot).length < fuel by omega) with
          ⟨hlprint, ls, hls, hlsort, hlrun⟩ | ⟨⟨x, hx, hbad⟩, hlrun⟩
        · rcases ih (show (above cmp front pivot).length < fuel by omega) with
            ⟨hhprint, hs, hhs, hhsort, hhrun⟩ | ⟨⟨x, hx, hbad⟩, hhrun⟩
          · refine Or.inl ⟨?_, ls ++ pivot :: hs, ?_, ?_, fun pre post => ?_⟩
            · intro x hx
              generalize hseg : front ++ [pivot] = seg at hx
              cases hx with
              | last _ =>
                obtain ⟨-, hlast⟩ := List.append_inj' hseg rfl
                rw [← List.singleton_inj.mp hlast]
                exact hprint
              | low hx =>
                obtain ⟨rfl, hlast⟩ := List.append_inj' hseg rfl
                rw [← List.singleton_inj.mp hlast] at hx
                exact hlprint x hx
              | high hx =>
                obtain ⟨rfl, hlast⟩ := List.append_inj' hseg rfl
                rw [← List.singleton_inj.mp hlast] at hx
                exact hhprint x hx
            · exact (hls.append (hhs.cons pivot)).trans (below_above_perm cmp front pivot)
            · rintro order rfl
              refine ascending_divided order ?_ ?_ (hlsort order rfl) (hhsort order rfl)
              · intro x hx
                exact of_mem_below _ front pivot (hls.mem_iff.mp hx)
              · intro x hx
                exact of_mem_above _ front pivot (hhs.mem_iff.mp hx)
            · rw [quicksort_divided hpos hprint hls.length_eq hlrun, hhrun]
              simp
          · refine Or.inr ⟨⟨x, .high hx, hbad⟩, fun pre post => ?_⟩
            rw [quicksort_divided hpos hprint hls.length_eq hlrun, hhrun]
        · refine Or.inr ⟨⟨x, .low hx, hbad⟩, fun pre post => ?_⟩
          rw [quicksort_step hpos, debugPivot_ok hprint, mapError_ok, ok_bind, hlrun]
          rfl
      · refine Or.inr ⟨⟨pivot, .last hpos, hprint⟩, fun pre post => ?_⟩
        rw [quicksort_step hpos, debugPivot_error hprint]
        rfl

/-- **Quicksort** on all slots in use, whatever the others hold. -/
theorem quicksort_slots (bytes : α → List UInt8) (cmp : Option α → Option α → ℤ) {fuel : ℕ}
    {xs : List (Option α)} (hfuel : xs.length < fuel) :
    ((∀ x, Pivot cmp xs x → Printable bytes x) ∧
      ∃ ys, ys.Perm xs ∧ (∀ order : Comparator (Option α), order.compare = cmp → Ascending cmp ys) ∧
        ∀ post, quicksort bytes cmp fuel (xs ++ post) 0 (xs.length - 1) = .ok (ys ++ post)) ∨
    ((∃ x, Pivot cmp xs x ∧ ¬ Printable bytes x) ∧
      ∀ post, quicksort bytes cmp fuel (xs ++ post) 0 (xs.length - 1) =
        .error (.fault .outOfBounds)) := by
  rcases quicksort_eq bytes cmp hfuel with ⟨hprint, ys, hperm, hsort, hrun⟩ | ⟨hbad, hrun⟩
  · exact Or.inl ⟨hprint, ys, hperm, hsort, hrun []⟩
  · exact Or.inr ⟨hbad, hrun []⟩

end Quicksort

/-- The elements get sorted in the slots that are in use. The sort does the same in the block of exactly
`end` slots, which any other index would leave. -/
def QuickSorts (bytes : α → List UInt8) (cmp : Option α → Option α → ℤ) (fuel : ℕ) (array : DArray α) :
    Prop :=
  ∃ ys, ys.Perm (array.contents.take array.end.toNat) ∧ Ascending cmp ys ∧
    (∀ rest, quicksort bytes cmp fuel (array.contents.take array.end.toNat ++ rest) 0
      (array.end - 1) = .ok (ys ++ rest)) ∧
    array.qsort bytes cmp fuel =
      .ok { array with contents := ys ++ array.contents.drop array.end.toNat }

/-- **`DArray_qsort` sorts exactly when all pivots can be printed.** It ends within any number of calls
above `end`. -/
theorem qsort_sorts_iff (bytes : α → List UInt8) (order : Comparator (Option α)) (array : DArray α)
    (hend : 0 ≤ array.end) (hslots : array.end ≤ array.contents.length) {fuel : ℕ}
    (hfuel : array.end < fuel) :
    array.QuickSorts bytes order.compare fuel ↔
      ∀ x, Pivot order.compare (array.contents.take array.end.toNat) x → Printable bytes x := by
  have hlength : (array.contents.take array.end.toNat).length = array.end.toNat := by
    rw [List.length_take]
    omega
  have hcount : ((array.contents.take array.end.toNat).length : ℤ) = array.end := by omega
  have hfuel' : (array.contents.take array.end.toNat).length < fuel := by omega
  rcases quicksort_slots bytes order.compare hfuel' with
    ⟨hprint, ys, hperm, hsort, hrun⟩ | ⟨⟨x, hx, hbad⟩, hrun⟩
  · rw [hcount] at hrun
    refine iff_of_true ⟨ys, hperm, hsort order rfl, hrun, ?_⟩ hprint
    unfold qsort
    have hall := hrun (array.contents.drop array.end.toNat)
    rw [List.take_append_drop] at hall
    rw [hall]
    rfl
  · rw [hcount] at hrun
    refine iff_of_false ?_ fun hprint => hbad (hprint x hx)
    rintro ⟨ys, -, -, hys, -⟩
    exact nomatch (hrun []).symm.trans (hys [])

/-- The bytes of an `int`. -/
def intBytes (n : ℕ) : List UInt8 :=
  (List.range 4).map fun i => (n / 256 ^ i % 256).toUInt8

/-- Three elements out of order, and a free slot. All of the numbers have a byte that is zero. -/
theorem qsort_sorts_iff_three :
    QuickSorts intBytes Comparator.numbers.compare 4
        { «end» := 3, max := 4, contents := [some 3, some 1, some 2, none] } ↔
      ∀ x, Pivot Comparator.numbers.compare [some 3, some 1, some 2] x → Printable intBytes x :=
  qsort_sorts_iff intBytes _ { «end» := 3, max := 4, contents := [some 3, some 1, some 2, none] }
    (by decide) (by decide) (by decide)

/-- Two numbers without such a byte: what is printed goes on behind the second one. -/
theorem qsort_prints_behind :
    ¬ QuickSorts intBytes Comparator.numbers.compare 3
      { «end» := 2, max := 3, contents := [some 0x02020202, some 0x01010101, none] } := by
  rintro ⟨ys, -, -, -, hrun⟩
  have hfault : qsort intBytes
      { «end» := 2, max := 3, contents := [some 0x02020202, some 0x01010101, none] }
      Comparator.numbers.compare 3 = .error (.fault .outOfBounds) :=
    rfl
  exact nomatch hfault.symm.trans hrun

end Lcthw.DArray
