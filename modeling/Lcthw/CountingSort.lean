import Mathlib.Data.List.Perm.Basic
import Mathlib.Data.List.Range
import Mathlib.Logic.Function.Basic
import Mathlib.Data.Nat.Digits.Defs
import Mathlib.Tactic

/-!
# Counting sort — stable passes by one digit

A pass sorts by one digit and keeps the order of equal digits. It is stated as what it leaves:
for every digit in turn, the elements with that digit.

* **`pass_perm`**, **`pass_pairwise`**: a pass permutes its input, and an order of the input
  survives among the elements with equal digits.
* **`pairwise_mod_pow`**: a pass by the digit `k` of a number, after passes by the digits below
  it, sorts by the number modulo `b ^ (k + 1)`.
* **`eq_of_filter_eq`**: a stable sort has one result.
* **`Layout`**: an array while its blocks are being filled. `layout_set` and `cursor_update`: the
  next element with a digit goes where the cursor of the digit stands, and moves that cursor only.
-/

namespace CountingSort

variable {α : Type*}

/-- The elements with digit 0, those with digit 1, and so on, each in the order of the input. -/
def pass (digit : α → ℕ) (b : ℕ) (xs : List α) : List α :=
  (List.range b).flatMap fun d => xs.filter (digit · = d)

variable {digit : α → ℕ} {b : ℕ}

/-- A pass has every element whose digit is below `b`, once. -/
theorem pass_perm_filter (digit : α → ℕ) (b : ℕ) (xs : List α) :
    (pass digit b xs).Perm (xs.filter (digit · < b)) := by
  induction b with
  | zero => simp [pass]
  | succ b ih =>
    have hsplit := List.filter_append_perm (fun x => decide (digit x < b))
      (xs.filter (digit · < b + 1))
    have hlow : (xs.filter (digit · < b + 1)).filter (digit · < b) = xs.filter (digit · < b) := by
      rw [List.filter_filter]
      congr 1
      funext x
      simpa using fun h : digit x < b => h.le
    have htop : (xs.filter (digit · < b + 1)).filter (fun x => !decide (digit x < b)) =
        xs.filter (digit · = b) := by
      rw [List.filter_filter]
      refine List.filter_congr fun x _ => Bool.eq_iff_iff.mpr ?_
      simp only [Bool.and_eq_true, Bool.not_eq_true', decide_eq_false_iff_not, decide_eq_true_eq]
      omega
    rw [hlow, htop] at hsplit
    rw [pass, List.range_succ, List.flatMap_append, List.flatMap_singleton]
    exact (ih.append_right _).trans hsplit

/-- **A pass permutes its input.** -/
theorem pass_perm {xs : List α} (h : ∀ x ∈ xs, digit x < b) : (pass digit b xs).Perm xs := by
  have hall : xs.filter (digit · < b) = xs :=
    List.filter_eq_self.mpr fun x hx => decide_eq_true (h x hx)
  have hperm := pass_perm_filter digit b xs
  rwa [hall] at hperm

/-- **A pass is stable.** -/
theorem pass_pairwise {R : α → α → Prop} {xs : List α} (h : xs.Pairwise R) :
    (pass digit b xs).Pairwise fun x y => digit x < digit y ∨ digit x = digit y ∧ R x y := by
  rw [pass, List.pairwise_flatMap]
  constructor
  · intro d _
    refine (h.filter _).imp_of_mem fun {x y} hx hy hxy => Or.inr ⟨?_, hxy⟩
    rw [of_decide_eq_true (List.mem_filter.mp hx).2, of_decide_eq_true (List.mem_filter.mp hy).2]
  · refine List.pairwise_lt_range.imp fun {d e} hde x hx y hy => Or.inl ?_
    rwa [of_decide_eq_true (List.mem_filter.mp hx).2, of_decide_eq_true (List.mem_filter.mp hy).2]

/-- The elements that are alike, and so have one digit, stay in their order. -/
theorem filter_pass {p : α → Bool} {d : ℕ} (hp : ∀ x, p x = true → digit x = d) (b : ℕ) (xs : List α) :
    (pass digit b xs).filter p = if d < b then xs.filter p else [] := by
  induction b with
  | zero => rfl
  | succ b ih =>
    have hsplit : pass digit (b + 1) xs = pass digit b xs ++ xs.filter (digit · = b) := by
      rw [pass, pass, List.range_succ, List.flatMap_append, List.flatMap_singleton]
    rw [hsplit, List.filter_append, ih, List.filter_filter]
    by_cases hd : d = b
    · -- the block of the digit
      subst hd
      rw [if_neg (lt_irrefl _), if_pos (Nat.lt_succ_self _), List.nil_append]
      refine List.filter_congr fun x _ => ?_
      cases hx : p x with
      | false => rfl
      | true => exact decide_eq_true (hp x hx)
    · have hnone : (xs.filter fun x => p x && decide (digit x = b)) = [] := by
        rw [List.filter_eq_nil_iff]
        intro x _ hx
        rw [Bool.and_eq_true, decide_eq_true_eq] at hx
        exact hd ((hp x hx.1).symm.trans hx.2)
      rw [hnone, List.append_nil]
      by_cases hlt : d < b
      · rw [if_pos hlt, if_pos (by omega)]
      · rw [if_neg hlt, if_neg (by omega)]

/-- **Least significant digit first.** -/
theorem pairwise_mod_pow {key : α → ℕ} {xs : List α} {k : ℕ} (hb : 0 < b)
    (h : xs.Pairwise fun x y => key x % b ^ k ≤ key y % b ^ k) :
    (pass (fun x => key x / b ^ k % b) b xs).Pairwise
      fun x y => key x % b ^ (k + 1) ≤ key y % b ^ (k + 1) := by
  refine (pass_pairwise h).imp fun {x y} hxy => ?_
  rw [Nat.mod_pow_succ, Nat.mod_pow_succ]
  rcases hxy with hlt | ⟨heq, hle⟩
  · have hx : key x % b ^ k < b ^ k := Nat.mod_lt _ (Nat.pow_pos hb)
    calc key x % b ^ k + b ^ k * (key x / b ^ k % b)
        ≤ b ^ k + b ^ k * (key x / b ^ k % b) := by omega
      _ = b ^ k * (key x / b ^ k % b + 1) := by ring
      _ ≤ b ^ k * (key y / b ^ k % b) := Nat.mul_le_mul_left _ hlt
      _ ≤ key y % b ^ k + b ^ k * (key y / b ^ k % b) := Nat.le_add_left _ _
  · rw [heq]
    omega

theorem mem_iff_of_filter_eq {κ : Type*} [DecidableEq κ] {key : α → κ} {xs ys : List α}
    (hall : ∀ k, xs.filter (key · = k) = ys.filter (key · = k)) (z : α) : z ∈ xs ↔ z ∈ ys := by
  have hz : z ∈ xs.filter (key · = key z) ↔ z ∈ ys.filter (key · = key z) := by rw [hall]
  simpa using hz

/-- **A stable sort has one result.** Lists in the order of a key that agree on the elements of each
key are the same. -/
theorem eq_of_filter_eq {κ : Type*} [DecidableEq κ] {r : κ → κ → Prop}
    (antisymm : ∀ {j k}, r j k → r k j → j = k) {key : α → κ} {xs ys : List α}
    (hxs : xs.Pairwise fun x y => r (key x) (key y))
    (hys : ys.Pairwise fun x y => r (key x) (key y))
    (hall : ∀ k, xs.filter (key · = k) = ys.filter (key · = k)) : xs = ys := by
  induction xs generalizing ys with
  | nil =>
    cases ys with
    | nil => rfl
    | cons y ys =>
      exact absurd ((mem_iff_of_filter_eq hall y).mpr List.mem_cons_self) List.not_mem_nil
  | cons x xs ih =>
    cases ys with
    | nil => exact absurd ((mem_iff_of_filter_eq hall x).mp List.mem_cons_self) List.not_mem_nil
    | cons y ys =>
      obtain ⟨hx, hxs'⟩ := List.pairwise_cons.mp hxs
      obtain ⟨hy, hys'⟩ := List.pairwise_cons.mp hys
      -- each list has the other's first element, so their keys are equal
      have hkey : key x = key y := by
        rcases List.mem_cons.mp ((mem_iff_of_filter_eq hall x).mp List.mem_cons_self) with rfl | hin
        · rfl
        · rcases List.mem_cons.mp ((mem_iff_of_filter_eq hall y).mpr List.mem_cons_self)
            with rfl | hin'
          · rfl
          · exact antisymm (hx y hin') (hy x hin)
      have hfirst := hall (key x)
      rw [List.filter_cons_of_pos (by simp), List.filter_cons_of_pos (by simp [hkey])] at hfirst
      obtain ⟨hxy, -⟩ := List.cons.inj hfirst
      have hrest : ∀ k, xs.filter (key · = k) = ys.filter (key · = k) := by
        intro k
        have hk := hall k
        rw [hxy, List.filter_cons, List.filter_cons] at hk
        split at hk
        · exact (List.cons.inj hk).2
        · exact hk
      rw [hxy, ih hxs' hys' hrest]

/-! ## Filling the blocks

An array is sorted by one digit in place when every digit has a block of its own, as large as there are
elements with that digit. Between two steps a block has the elements that were placed in it, and behind
them the room that is left; the cursor of a digit stands at the border of the two. -/

/-- An array in blocks, one a digit: in each what is placed, and in front of what is not. -/
def Layout (b : ℕ) (placed room : ℕ → List α) : List α :=
  (List.range b).flatMap fun d => placed d ++ room d

theorem layout_succ (b : ℕ) (placed room : ℕ → List α) :
    Layout (b + 1) placed room = Layout b placed room ++ (placed b ++ room b) := by
  simp [Layout, List.range_succ]

theorem layout_congr {placed room placed' room' : ℕ → List α}
    (h : ∀ d < b, placed d ++ room d = placed' d ++ room' d) :
    Layout b placed room = Layout b placed' room' :=
  List.flatMap_congr fun d hd => h d (List.mem_range.mp hd)

/-- Where the next element with digit `d` goes. -/
def cursor (placed room : ℕ → List α) (d : ℕ) : ℕ :=
  (Layout d placed room).length + (placed d).length

/-- **Placing one element.** -/
theorem layout_set (placed : ℕ → List α) {room : ℕ → List α} {d : ℕ} (hd : d < b) {old : α}
    {rest : List α} (hroom : room d = old :: rest) (x : α) :
    cursor placed room d < (Layout b placed room).length ∧
      (Layout b placed room).set (cursor placed room d) x =
        Layout b (Function.update placed d (placed d ++ [x])) (Function.update room d rest) := by
  induction b with
  | zero => exact absurd hd (Nat.not_lt_zero d)
  | succ b ih =>
    rw [layout_succ, layout_succ]
    rcases Nat.lt_succ_iff_lt_or_eq.mp hd with hlt | rfl
    · obtain ⟨hbound, hset⟩ := ih hlt
      refine ⟨by rw [List.length_append]; omega, ?_⟩
      rw [List.set_append_left _ _ hbound, hset, Function.update_of_ne hlt.ne',
        Function.update_of_ne hlt.ne']
    · have hfront : Layout d (Function.update placed d (placed d ++ [x]))
          (Function.update room d rest) = Layout d placed room :=
        layout_congr fun e he => by
          rw [Function.update_of_ne he.ne, Function.update_of_ne he.ne]
      rw [hfront, Function.update_self, Function.update_self, hroom, cursor]
      refine ⟨by simp, ?_⟩
      rw [List.set_append_right _ _ (Nat.le_add_right _ _), Nat.add_sub_cancel_left,
        List.set_append_right _ _ le_rfl, Nat.sub_self, List.set_cons_zero, List.append_assoc]
      rfl

/-- An element goes to the cursor of its block, which then moves on by one. -/
theorem cursor_update {placed room : ℕ → List α} {d : ℕ} {old : α} {rest : List α}
    (hroom : room d = old :: rest) (x : α) :
    cursor (Function.update placed d (placed d ++ [x])) (Function.update room d rest) =
      Function.update (cursor placed room) d (cursor placed room d + 1) := by
  funext e
  have hlength : ∀ n, (Layout n (Function.update placed d (placed d ++ [x]))
      (Function.update room d rest)).length = (Layout n placed room).length := by
    intro n
    rw [Layout, Layout, List.length_flatMap, List.length_flatMap]
    congr 1
    refine List.map_congr_left fun e _ => ?_
    by_cases he : e = d
    · subst he
      simp [hroom, Nat.add_left_comm]
    · simp [he]
  rw [cursor, hlength]
  by_cases he : e = d
  · subst he
    simp [cursor, Nat.add_assoc]
  · simp [he, cursor]

/-- Any array divides into blocks of given sizes. -/
theorem exists_layout (b : ℕ) (size : ℕ → ℕ) {xs : List α}
    (h : xs.length = ((List.range b).map size).sum) :
    ∃ room : ℕ → List α, (∀ d < b, (room d).length = size d) ∧
      xs = Layout b (fun _ => []) room := by
  induction b generalizing xs with
  | zero =>
    obtain rfl : xs = [] := List.length_eq_zero_iff.mp h
    exact ⟨fun _ => [], fun d hd => absurd hd (Nat.not_lt_zero d), rfl⟩
  | succ b ih =>
    rw [List.range_succ, List.map_append, List.sum_append, List.map_singleton,
      List.sum_singleton] at h
    obtain ⟨room, hsize, hxs⟩ :=
      @ih (xs.take ((List.range b).map size).sum) (by rw [List.length_take]; omega)
    refine ⟨Function.update room b (xs.drop ((List.range b).map size).sum), fun d hd => ?_, ?_⟩
    · rcases Nat.lt_succ_iff_lt_or_eq.mp hd with hlt | rfl
      · rw [Function.update_of_ne hlt.ne, hsize d hlt]
      · rw [Function.update_self, List.length_drop]
        omega
    · have hfront : Layout b (fun _ => []) (Function.update room b
          (xs.drop ((List.range b).map size).sum)) = Layout b (fun _ => []) room :=
        layout_congr fun e he => by rw [Function.update_of_ne he.ne]
      rw [layout_succ, hfront, ← hxs, Function.update_self, List.nil_append, List.take_append_drop]

end CountingSort
