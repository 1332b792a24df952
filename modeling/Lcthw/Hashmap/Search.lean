import Lcthw.Hashmap.Defs

/-!
# Lcthw — the binary search in a bucket of the hash map

* **`getNode_at`**: in a bucket whose keys are in strict order by the comparison of the map, the search
  finds a node that is there. `getNode_found` is that for `bstrcmp`.
* **`getNode_inverted`**: where two neighbours are in the wrong order, it misses one of them.
-/

namespace Lcthw.Hashmap

variable {V : Type}

/-- The nodes of a bucket that the search finds its way in. -/
abbrev Sorted (ns : List (HashmapNode V)) : Prop :=
  ns.Pairwise fun a b => upToNul a.key < upToNul b.key

section Search

variable {map : Hashmap V} {bucket : DArray (HashmapNode V)} {ns : List (HashmapNode V)}
  {hash : UInt32} {key : List CChar}

theorem getNode_empty {start stop : ℕ} (h : stop ≤ start) :
    map.getNode hash bucket key start (stop - 1) = .ok (-1) := by
  rw [getNode, if_neg (by omega)]
  rfl

/-- **One turn of the search**, in the window from `start` up to `stop`. -/
theorem getNode_step (hb : bucket.Holds (ns.map some)) {start stop : ℕ} (hlt : start < stop)
    (hstop : stop ≤ ns.length) : ∃ (middle : ℕ) (n : HashmapNode V),
      start ≤ middle ∧ middle < stop ∧ ns[middle]? = some n ∧
      ∀ map hash key, Hashmap.getNode map hash bucket key start (stop - 1) =
        if map.compare n.key key = 0 ∧ n.hash = hash then .ok middle
        else if map.compare n.key key < 0 then
          map.getNode hash bucket key (middle + 1 : ℕ) (stop - 1)
        else map.getNode hash bucket key start (middle - 1) := by
  obtain ⟨middle, hmiddle⟩ : ∃ middle, middle = start + (stop - 1 - start) / 2 := ⟨_, rfl⟩
  have hcast : (start : ℤ) + ((stop : ℤ) - 1 - start) / 2 = (middle : ℕ) := by omega
  have hlt' : middle < ns.length := by omega
  have hn : ns[middle]? = some ns[middle] := List.getElem?_eq_getElem hlt'
  refine ⟨middle, _, by omega, by omega, hn, fun map hash key => ?_⟩
  have hget : bucket.get (middle : ℕ) = .ok (some ns[middle]) :=
    hb.get (by rw [List.getElem?_map, hn]; rfl)
  rw [getNode, if_pos (by omega)]
  simp only [hcast, hget, ok_bind]
  rfl

/-- **What is found is there.** The search ends at a node with the key, in its window, or at none. -/
theorem getNode_sound (hb : bucket.Holds (ns.map some)) {start stop : ℕ} (hstop : stop ≤ ns.length) :
    map.getNode hash bucket key start (stop - 1) = .ok (-1) ∨
      ∃ (i : ℕ) (n : HashmapNode V), start ≤ i ∧ i < stop ∧ ns[i]? = some n ∧
        map.compare n.key key = 0 ∧ map.getNode hash bucket key start (stop - 1) = .ok (i : ℤ) := by
  induction hw : stop - start using Nat.strong_induction_on generalizing start stop with
  | _ w ih =>
    subst hw
    rcases Nat.lt_or_ge start stop with hlt | hge
    · obtain ⟨middle, n, hle, hlt', hn, hstep⟩ := getNode_step hb hlt hstop
      rw [hstep map hash key]
      by_cases hfound : map.compare n.key key = 0 ∧ n.hash = hash
      · rw [if_pos hfound]
        exact Or.inr ⟨middle, n, hle, hlt', hn, hfound.1, rfl⟩
      · rw [if_neg hfound]
        by_cases hbelow : map.compare n.key key < 0
        · rw [if_pos hbelow]
          rcases ih (stop - (middle + 1)) (by omega) hstop rfl with h | ⟨i, m, hi, hi', h⟩
          · exact Or.inl h
          · exact Or.inr ⟨i, m, by omega, hi', h⟩
        · rw [if_neg hbelow]
          rcases ih (middle - start) (by omega) (by omega) rfl with h | ⟨i, m, hi, hi', h⟩
          · exact Or.inl h
          · exact Or.inr ⟨i, m, hi, by omega, h⟩
    · exact Or.inl (getNode_empty hge)

/-- A key that is not in the window is not found. -/
theorem getNode_none (hb : bucket.Holds (ns.map some)) {start stop : ℕ} (hstop : stop ≤ ns.length)
    (hnone : ∀ i n, start ≤ i → i < stop → ns[i]? = some n → map.compare n.key key ≠ 0) :
    map.getNode hash bucket key start (stop - 1) = .ok (-1) := by
  rcases getNode_sound hb hstop with h | ⟨i, n, hi, hi', hn, heq, -⟩
  · exact h
  · exact absurd heq (hnone i n hi hi' hn)

/-! ## Buckets in order

The comparison with the key rises through 0 along a bucket in order. Each turn keeps the place where it
does so inside the window. -/

theorem Sorted.lt (hs : Sorted ns) {i j : ℕ} {a b : HashmapNode V} (hij : i < j)
    (ha : ns[i]? = some a) (hb : ns[j]? = some b) : upToNul a.key < upToNul b.key := by
  obtain ⟨hi, rfl⟩ := List.getElem?_eq_some_iff.mp ha
  obtain ⟨hj, rfl⟩ := List.getElem?_eq_some_iff.mp hb
  exact List.pairwise_iff_getElem.mp hs i j hi hj hij

/-- **A node is found** where the comparison rises through 0 at it, whatever it is. -/
theorem getNode_at (hb : bucket.Holds (ns.map some)) {t : ℕ} {n : HashmapNode V}
    (hn : ns[t]? = some n) (hkey : map.compare n.key key = 0) (hhash : n.hash = hash)
    (hlow : ∀ i m, ns[i]? = some m → i < t → map.compare m.key key < 0)
    (hhigh : ∀ i m, ns[i]? = some m → t < i → 0 < map.compare m.key key)
    {start stop : ℕ} (hstop : stop ≤ ns.length) (hlo : start ≤ t) (hhi : t < stop) :
    map.getNode hash bucket key start (stop - 1) = .ok (t : ℤ) := by
  induction hw : stop - start using Nat.strong_induction_on generalizing start stop with
  | _ w ih =>
    subst hw
    obtain ⟨middle, m, hle, hlt, hm, hstep⟩ := getNode_step hb (show start < stop by omega) hstop
    rw [hstep map hash key]
    rcases lt_trichotomy middle t with hmt | rfl | htm
    · -- the node at `middle` is below the key, so the node looked for is to the right
      have hbelow := hlow middle m hm hmt
      rw [if_neg fun h => hbelow.ne h.1, if_pos hbelow]
      exact ih (stop - (middle + 1)) (by omega) hstop (by omega) hhi rfl
    · obtain rfl : m = n := Option.some.inj (hm.symm.trans hn)
      rw [if_pos ⟨hkey, hhash⟩]
    · have habove := hhigh middle m hm htm
      rw [if_neg fun h => habove.ne' h.1, if_neg (by omega)]
      exact ih (middle - start) (by omega) (by omega) hlo htm rfl

/-- A node is found in a bucket whose keys are in order. -/
theorem getNode_found (hb : bucket.Holds (ns.map some)) (hc : map.compare = bstrcmp)
    (hs : Sorted ns) {t : ℕ} {n : HashmapNode V} (hn : ns[t]? = some n)
    (hkey : bstrcmp n.key key = 0) (hhash : n.hash = hash) {start stop : ℕ} (hstop : stop ≤ ns.length)
    (hlo : start ≤ t) (hhi : t < stop) :
    map.getNode hash bucket key start (stop - 1) = .ok (t : ℤ) := by
  have hkey' : upToNul n.key = upToNul key := bstrcmp_eq.mp hkey
  refine getNode_at hb hn (by rw [hc]; exact hkey) hhash ?_ ?_ hstop hlo hhi
  · intro i m hm hit
    rw [hc, bstrcmp_lt, ← hkey']
    exact hs.lt hit hm hn
  · intro i m hm hti
    rw [hc, bstrcmp_gt, ← hkey']
    exact hs.lt hti hn hm

/-! ## Buckets out of order

Two searches for two keys look at the same slots as long as both go the same way. Where two neighbours
are in the wrong order, one of the two searches turns away from its node. -/

/-- A search whose window lies in front of the one node with its key. -/
theorem getNode_left (hb : bucket.Holds (ns.map some)) {z : HashmapNode V} {j middle start : ℕ}
    (hz : ∀ i n, ns[i]? = some n → map.compare n.key z.key = 0 → i = j) (hj : middle ≤ j)
    (hle : middle ≤ ns.length) :
    map.getNode z.hash bucket z.key start (middle - 1) = .ok (-1) := by
  apply getNode_none hb hle
  intro i m _ him hm heq
  have hij := hz i m hm heq
  omega

/-- A search whose window lies behind it. -/
theorem getNode_right (hb : bucket.Holds (ns.map some)) {z : HashmapNode V} {j middle stop : ℕ}
    (hz : ∀ i n, ns[i]? = some n → map.compare n.key z.key = 0 → i = j) (hj : j ≤ middle)
    (hstop : stop ≤ ns.length) :
    map.getNode z.hash bucket z.key (middle + 1 : ℕ) (stop - 1) = .ok (-1) := by
  apply getNode_none hb hstop
  intro i m hmi _ hm heq
  have hij := hz i m hm heq
  omega

/-- **Two neighbours in the wrong order.** The searches for them see the same nodes for as long as
they agree; where they part, or reach one of the two, the window of one search loses its node. -/
theorem getNode_inverted (hb : bucket.Holds (ns.map some)) {t : ℕ}
    {x y : HashmapNode V} (hx : ns[t]? = some x) (hy : ns[t + 1]? = some y)
    (hyx : map.compare y.key x.key < 0) (hxy : 0 < map.compare x.key y.key)
    (hux : ∀ i n, ns[i]? = some n → map.compare n.key x.key = 0 → i = t)
    (huy : ∀ i n, ns[i]? = some n → map.compare n.key y.key = 0 → i = t + 1)
    {start stop : ℕ} (hstop : stop ≤ ns.length) (hlo : start ≤ t) (hhi : t + 1 < stop) :
    map.getNode x.hash bucket x.key start (stop - 1) = .ok (-1) ∨
      map.getNode y.hash bucket y.key start (stop - 1) = .ok (-1) := by
  induction hw : stop - start using Nat.strong_induction_on generalizing start stop with
  | _ w ih =>
    subst hw
    obtain ⟨middle, n, hle, hlt, hn, hstep⟩ := getNode_step hb (show start < stop by omega) hstop
    rw [hstep map x.hash x.key, hstep map y.hash y.key]
    rcases lt_trichotomy middle t with hmt | rfl | htm
    · have hnotx : ¬ (map.compare n.key x.key = 0 ∧ n.hash = x.hash) :=
        fun h => absurd (hux _ _ hn h.1) hmt.ne
      have hnoty : ¬ (map.compare n.key y.key = 0 ∧ n.hash = y.hash) :=
        fun h => absurd (huy _ _ hn h.1) (by omega)
      rw [if_neg hnotx, if_neg hnoty]
      by_cases hnx : map.compare n.key x.key < 0
      · by_cases hny : map.compare n.key y.key < 0
        · rw [if_pos hnx, if_pos hny]
          exact ih (stop - (middle + 1)) (by omega) hstop (by omega) hhi rfl
        · rw [if_neg hny]
          exact Or.inr (getNode_left hb huy (by omega) (by omega))
      · rw [if_neg hnx]
        exact Or.inl (getNode_left hb hux hmt.le (by omega))
    · -- at the left one of the two, the search for the right one turns left
      obtain rfl : x = n := Option.some.inj (hx.symm.trans hn)
      right
      rw [if_neg fun h => absurd h.1 (by omega), if_neg (by omega)]
      exact getNode_left hb huy (by omega) (by omega)
    · rcases Nat.lt_or_ge (t + 1) middle with htm' | hmt'
      · have hnotx : ¬ (map.compare n.key x.key = 0 ∧ n.hash = x.hash) :=
          fun h => absurd (hux _ _ hn h.1) htm.ne'
        have hnoty : ¬ (map.compare n.key y.key = 0 ∧ n.hash = y.hash) :=
          fun h => absurd (huy _ _ hn h.1) htm'.ne'
        rw [if_neg hnotx, if_neg hnoty]
        by_cases hnx : map.compare n.key x.key < 0
        · rw [if_pos hnx]
          exact Or.inl (getNode_right hb hux htm.le hstop)
        · by_cases hny : map.compare n.key y.key < 0
          · rw [if_pos hny]
            exact Or.inr (getNode_right hb huy htm'.le hstop)
          · rw [if_neg hnx, if_neg hny]
            exact ih (middle - start) (by omega) (by omega) hlo htm' rfl
      · -- at the right one, the search for the left one turns right
        obtain rfl : middle = t + 1 := by omega
        obtain rfl : y = n := Option.some.inj (hy.symm.trans hn)
        left
        rw [if_neg fun h => absurd h.1 hyx.ne, if_pos hyx]
        exact getNode_right hb hux (Nat.le_succ t) hstop

end Search

end Lcthw.Hashmap
