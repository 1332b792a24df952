import Lcthw.Server.Packets

/-!
# Lcthw — listing the bound urls

`list_request` takes a block of 1024*1024 bytes from malloc, walks the tree, and prints the url of
every packet and a newline where the line before ended.

* **`Listing`**: the block and the cursor. `Listing.addString` prints one line into it.
* **`Filed`**: every packet lies under its own url. `filed_run`: every request keeps it.
* **`list_complete_iff`**: a listing is complete and inside its block exactly when the walk meets
  no freed node, some url is bound or the block starts with a NUL, and the text fits.
-/

namespace Lcthw.TSTree

open Ternary Ternary.Tree

variable {ν : Type}

/-! ## The walk over the values

The walk visits the nodes of every link, so it ends only in a tree that has no freed one. -/

/-- A traversal of a live tree meets every value of an entry once. -/
theorem traverse_perm {t : TSTree ν} (ht : t.Live) :
    ∃ values, traverse t = .ok values ∧ values.Perm (t.entries.filterMap fun e => e.2.value) := by
  induction t with
  | nil => exact ⟨[], rfl, List.Perm.refl _⟩
  | dead => exact absurd ht id
  | node c low high equal d ihl ihh ihe =>
    obtain ⟨hl, hh, he⟩ := ht
    obtain ⟨lows, hlow, hlows⟩ := ihl hl
    obtain ⟨highs, hhigh, hhighs⟩ := ihh hh
    obtain ⟨equals, hequal, hequals⟩ := ihe he
    refine ⟨lows ++ highs ++ equals ++ d.value.toList, ?_, ?_⟩
    · rw [traverse, hlow, hhigh, hequal]
      rfl
    · have hown : (([c], d) :: equal.entries.map fun e => (c :: e.1, e.2)).filterMap
            (fun e => e.2.value) =
          d.value.toList ++ equal.entries.filterMap fun e => e.2.value := by
        cases hv : d.value <;> simp [hv, List.filterMap_map]
      rw [entries, List.filterMap_append, List.filterMap_append, hown, List.append_assoc]
      -- the value of the node itself comes last in the walk and first among its entries
      exact (hlows.append hhighs).append
        ((hequals.append_right _).trans List.perm_append_comm)

/-- A traversal reads every link. -/
theorem traverse_not_live {t : TSTree ν} (ht : ¬ t.Live) : traverse t = .error .useAfterFree := by
  induction t with
  | nil => exact absurd trivial ht
  | dead => rfl
  | node c low high equal d ihl ihh ihe =>
    rw [traverse]
    by_cases hl : low.Live
    · obtain ⟨lows, hlow, -⟩ := traverse_perm hl
      by_cases hh : high.Live
      · obtain ⟨highs, hhigh, -⟩ := traverse_perm hh
        rw [hlow, hhigh, ihe fun he => ht ⟨hl, hh, he⟩]
        rfl
      · rw [hlow, ihh hh]
        rfl
    · rw [ihl hl]
      rfl

end Lcthw.TSTree

namespace Lcthw.Server

open Ternary Ternary.Tree

/-! ## The block

The lines are printed at a cursor, into a block that malloc hands out with any bytes. Each line ends
with a NUL that the next one overwrites, so the block is a C string from the first line on. -/

/-- The block that `list_request` prints into, and the `*list` where the next line goes. -/
structure Listing where
  block : ℕ → CChar
  list : ℕ

/-- The bytes of a block from `at` on replaced. -/
def overwrite (block : ℕ → CChar) (pos : ℕ) (bytes : List CChar) : ℕ → CChar :=
  fun i => if i < pos then block i else (bytes[i - pos]?).getD (block i)

/-- `add_string`: `sprintf(*list,"%s\n",string)`, which ends with a NUL, and `*list` moved behind
the newline. -/
def Listing.addString (l : Listing) (pack : StatsPacket) : Except Fault Listing :=
  let text := pack.url.takeWhile (· ≠ 0) ++ [10, 0]
  if l.list + text.length ≤ 1024 * 1024 then
    pure { block := overwrite l.block l.list text
           list := l.list + pack.url.length + 1 }
  else throw .outOfBounds

/-- `list_request`: the block as malloc hands it out, and what it holds at the end. -/
def Listing.listRequest (block : ℕ → CChar) (root : TSTree StatsPacket) :
    Except Fault (ℕ → CChar) := do
  let packs ← TSTree.traverse root
  let l ← packs.foldlM Listing.addString { block, list := 0 }
  pure l.block

/-- A block that starts with these bytes, none of them a NUL. -/
def StartsWith (block : ℕ → CChar) (text : List CChar) : Prop :=
  0 ∉ text ∧ ∀ i, (h : i < text.length) → block i = text[i]

/-- A block of 1024*1024 bytes that holds this C string. -/
def HoldsString (block : ℕ → CChar) (text : List CChar) : Prop :=
  StartsWith block text ∧ block text.length = 0 ∧ text.length < 1024 * 1024

theorem overwrite_of_lt {block : ℕ → CChar} {pos i : ℕ} (h : i < pos) (bytes : List CChar) :
    overwrite block pos bytes i = block i :=
  if_pos h

theorem overwrite_at {block : ℕ → CChar} {pos i : ℕ} {bytes : List CChar} (h : i < bytes.length) :
    overwrite block pos bytes (pos + i) = bytes[i] := by
  simp [overwrite, h]

/-- A line goes behind the text written before it, and a NUL behind the line. -/
theorem StartsWith.overwrite {block : ℕ → CChar} {text line : List CChar}
    (h : StartsWith block text) (hline : 0 ∉ line) :
    StartsWith (overwrite block text.length (line ++ [0])) (text ++ line) ∧
      overwrite block text.length (line ++ [0]) (text ++ line).length = 0 := by
  obtain ⟨h0, htext⟩ := h
  refine ⟨⟨by simp [h0, hline], fun i hi => ?_⟩, ?_⟩
  · by_cases hlt : i < text.length
    · rw [overwrite_of_lt hlt, htext i hlt, List.getElem_append_left hlt]
    · obtain ⟨j, rfl⟩ := Nat.exists_eq_add_of_le (Nat.not_lt.mp hlt)
      have hj : j < line.length := by
        rw [List.length_append] at hi
        omega
      rw [overwrite_at (by simp; omega), List.getElem_append_left hj,
        List.getElem_append_right (Nat.le_add_right _ _)]
      simp
  · rw [List.length_append, overwrite_at (by simp)]
    simp

/-! ## The lines

What is printed grows line by line, in the block and as the list of bytes of `Server.addString`. As long
as it fits the two agree. -/

/-- The text of a listing: every url and a newline. -/
def lines (urls : List (List CChar)) : List CChar :=
  urls.flatMap (· ++ [10])

theorem length_lines (urls : List (List CChar)) :
    (lines urls).length = (urls.map fun u => u.length + 1).sum := by
  simp [lines, List.length_flatMap]

/-- A text without a NUL is the C string of a block that it starts. -/
theorem takeWhile_ne_zero {text : List CChar} (h : 0 ∉ text) : text.takeWhile (· ≠ 0) = text :=
  List.takeWhile_eq_self_iff.mpr fun _ hx => decide_eq_true fun hx0 => h (hx0 ▸ hx)

/-- **One line.** It is printed behind the text when it fits, as the bytes of `addString` grow. -/
theorem Listing.addString_eq {block : ℕ → CChar} {text : List CChar} {pack : StatsPacket}
    (htext : StartsWith block text) (hurl : 0 ∉ pack.url)
    (hfit : text.length + (lines [pack.url]).length < 1024 * 1024) :
    Server.addString text pack = .ok (text ++ lines [pack.url]) ∧
      ∃ block', Listing.addString ⟨block, text.length⟩ pack =
          .ok ⟨block', (text ++ lines [pack.url]).length⟩ ∧
        HoldsString block' (text ++ lines [pack.url]) := by
  have hline : 0 ∉ pack.url ++ [10] := by simpa using hurl
  have hlines : lines [pack.url] = pack.url ++ [10] := by simp [lines]
  rw [hlines] at hfit ⊢
  simp only [List.length_append, List.length_singleton] at hfit
  obtain ⟨hstart, hnul⟩ := htext.overwrite hline
  refine ⟨?_, _, ?_, hstart, hnul, by simp only [List.length_append, List.length_singleton]; omega⟩
  · rw [Server.addString, if_pos (by simp; omega), List.append_assoc]
    rfl
  · rw [Listing.addString, takeWhile_ne_zero hurl, if_pos (by simp; omega)]
    simp [pure, Except.pure, Nat.add_assoc]

theorem Listing.addString_overflow (block : ℕ → CChar) {text : List CChar} {pack : StatsPacket}
    (hurl : 0 ∉ pack.url) (hfit : 1024 * 1024 ≤ text.length + (lines [pack.url]).length) :
    Server.addString text pack = .error .outOfBounds ∧
      Listing.addString ⟨block, text.length⟩ pack = .error .outOfBounds := by
  simp only [lines, List.flatMap_singleton, List.length_append, List.length_singleton] at hfit
  constructor
  · rw [Server.addString, if_neg (by simp; omega)]
    rfl
  · rw [Listing.addString, takeWhile_ne_zero hurl, if_neg (by simp; omega)]
    rfl

theorem lines_cons (url : List CChar) (urls : List (List CChar)) :
    lines (url :: urls) = lines [url] ++ lines urls := by
  simp [lines]

/-- **All lines.** Text that fits is printed, and at least one line leaves a C string. -/
theorem Listing.foldlM_addString {packs : List StatsPacket} (hurls : ∀ pack ∈ packs, 0 ∉ pack.url)
    {block : ℕ → CChar} {text : List CChar} (htext : StartsWith block text)
    (hfit : text.length + (lines (packs.map (·.url))).length < 1024 * 1024) :
    packs.foldlM Server.addString text = .ok (text ++ lines (packs.map (·.url))) ∧
      ∃ block', packs.foldlM Listing.addString ⟨block, text.length⟩ =
          .ok ⟨block', (text ++ lines (packs.map (·.url))).length⟩ ∧
        StartsWith block' (text ++ lines (packs.map (·.url))) ∧
        (packs = [] → block' = block) ∧
        (packs ≠ [] → HoldsString block' (text ++ lines (packs.map (·.url)))) := by
  induction packs generalizing block text with
  | nil => exact ⟨by simp [lines, pure, Except.pure], block, by simp [lines, pure, Except.pure],
      by simpa [lines] using htext, fun _ => rfl, fun h => absurd rfl h⟩
  | cons pack packs ih =>
    rw [List.map_cons, lines_cons, List.length_append] at hfit
    obtain ⟨hbytes, block', hblock, hholds⟩ :=
      Listing.addString_eq htext (hurls pack (by simp)) (by omega)
    obtain ⟨hbytes', block'', hblock', hstart, hsame, hholds'⟩ :=
      ih (fun p hp => hurls p (by simp [hp])) hholds.1 (by rw [List.length_append]; omega)
    rw [List.map_cons, lines_cons, ← List.append_assoc]
    refine ⟨?_, block'', ?_, hstart, fun h => absurd h (by simp), fun _ => ?_⟩
    · rw [List.foldlM_cons, hbytes]
      exact hbytes'
    · rw [List.foldlM_cons, hblock]
      exact hblock'
    · -- the last line ends the text with a zero byte
      cases packs with
      | nil =>
        rw [hsame rfl]
        simpa [lines] using hholds
      | cons p ps => exact hholds' (by simp)

/-- A line too many is printed past the end of the block. -/
theorem Listing.foldlM_overflow {packs : List StatsPacket} (hurls : ∀ pack ∈ packs, 0 ∉ pack.url)
    {block : ℕ → CChar} {text : List CChar} (htext : StartsWith block text)
    (hroom : text.length < 1024 * 1024)
    (hfit : 1024 * 1024 ≤ text.length + (lines (packs.map (·.url))).length) :
    packs.foldlM Server.addString text = .error .outOfBounds ∧
      packs.foldlM Listing.addString ⟨block, text.length⟩ = .error .outOfBounds := by
  induction packs generalizing block text with
  | nil =>
    -- no lines, and the text had room
    simp only [lines, List.map_nil, List.flatMap_nil, List.length_nil] at hfit
    omega
  | cons pack packs ih =>
    rw [List.map_cons, lines_cons, List.length_append] at hfit
    have hurl := hurls pack (by simp)
    rw [List.foldlM_cons, List.foldlM_cons]
    -- this line fits and a later one does not, or it is the one that does not
    by_cases hline : text.length + (lines [pack.url]).length < 1024 * 1024
    · obtain ⟨hbytes, block', hblock, hholds⟩ := Listing.addString_eq htext hurl hline
      rw [hbytes, hblock]
      exact ih (fun p hp => hurls p (by simp [hp])) hholds.1 hholds.2.2
        (by rw [List.length_append]; omega)
    · obtain ⟨hbytes, hblock⟩ := Listing.addString_overflow block hurl (Nat.not_lt.mp hline)
      rw [hbytes, hblock]
      exact ⟨rfl, rfl⟩

/-! ## Packets under their own urls

A line has the url of the packet and not the key that leads to it. So what is said of keys carries over
to lines only because every packet is stored under its own url. -/

/-- A packet lies under the key that its url is stored under. -/
def Named (p : List CChar) (c : Cell StatsPacket) : Prop :=
  ∀ pack, c.value = some pack → p = TSTree.storedKey pack.url ∧ 0 ∉ pack.url

/-- What the listing relies on: every key has one node, and a packet in it is its own. -/
structure Filed (root : TSTree StatsPacket) : Prop where
  ordered : root.Ordered
  named : root.Every Named

theorem Filed.restated {t u : TSTree StatsPacket} (h : Filed t) (hr : TSTree.Restated t u) :
    Filed u :=
  ⟨h.ordered.of_shape hr.shape_eq.symm, hr.every (fun _ _ _ hc => hc) h.named⟩

theorem named_freshCell (q : List CChar) (k : CChar) : Named (q ++ [k]) (TSTree.freshCell k) := by
  intro pack hpack
  cases hpack

theorem Named.bindFresh {url : List CChar} (hurl : 0 ∉ url) {c : Cell StatsPacket}
    (hc : Named (TSTree.storedKey url) c) (stats : Stats) :
    Named (TSTree.storedKey url) (TSTree.bindFresh { url, stats } c) := by
  unfold TSTree.bindFresh
  split
  · intro pack hpack
    obtain rfl := Option.some.inj hpack
    exact ⟨rfl, hurl⟩
  · exact hc

theorem mem_intercalate {α : Type} (sep : α) {x : α} {ws : List (List α)} {w : List α} (hw : w ∈ ws)
    (hx : x ∈ w) : x ∈ [sep].intercalate ws := by
  induction ws with
  | nil => simp at hw
  | cons v vs ih =>
    by_cases hvs : vs = []
    · subst hvs
      obtain rfl : w = v := by simpa using hw
      simpa using hx
    · rw [List.intercalate_cons_of_ne_nil hvs]
      rcases List.mem_cons.mp hw with rfl | hw
      · simp [hx]
      · simp [ih hw]

/-- A word of a request has no NUL: the request ends at its first one. -/
theorem zero_notMem_word {c w : List CChar} (hw : w ∈ (processString c).words) : 0 ∉ w := by
  intro h0
  rw [words_processString] at hw
  have hmem := mem_intercalate 32 hw h0
  rw [List.intercalate_splitOn, btrimws, trim] at hmem
  have htrim := (List.dropWhile_sublist _).subset hmem
  have htrim := (List.dropWhile_sublist _).subset (List.mem_reverse.mp htrim)
  simpa using List.mem_takeWhile_imp (List.mem_reverse.mp htrim)

section Steps

variable {atof : List CChar → ℚ} {s s' : State} {c : List CChar}

/-- A create binds a new packet to its own url, or changes none. -/
theorem filed_create {url : Option (List CChar)} (hs : Filed s.root) (hurl : ∀ u ∈ url, 0 ∉ u)
    (h : createRequest (Env.zeroFilled atof) s url = .ok s') : Filed s'.root := by
  cases url with
  | none =>
    obtain rfl := Except.ok.inj h
    exact hs
  | some key =>
    refine Filed.restated ⟨hs.ordered.upsert _ _, ?_⟩ (createRequest_restated h)
    have hgrow := hs.named.grow named_freshCell (TSTree.storedKey key)
    exact hgrow.alter_at (hs.ordered.grow _ _) fun d hd => hd.bindFresh (hurl key rfl) _

/-- A delete leaves the packets that it does not remove where they are. -/
theorem filed_delete {url : Option (List CChar)} {root root' : TSTree StatsPacket} {rs : Reply}
    (hs : Filed root) (h : deleteRequest root url = .ok (rs, root')) : Filed root' := by
  rcases deleteRequest_cases h with rfl | ⟨v, r, hres, rfl | rfl⟩
  · exact hs
  · have hv := hs.restated hres
    exact ⟨hv.ordered.graft_dead _, hv.named.graft_dead _⟩
  · have hv := hs.restated hres
    refine ⟨hv.ordered.of_shape (shape_modify _ _ _).symm, hv.named.modify ?_ _⟩
    intro _ _ _ pack hpack
    cases hpack

/-- **Every request keeps the packets under their own urls.** -/
theorem filed_step (hs : Filed s.root) (h : step (Env.zeroFilled atof) s c = .ok s') :
    Filed s'.root := by
  rcases step_cases h with ⟨-, hcreate⟩ | ⟨-, rs, root, hupdate, rfl⟩ |
    ⟨-, rs, root, hdelete, rfl⟩ | ⟨-, -, -, rfl⟩
  · refine filed_create hs (fun u hu => ?_) hcreate
    refine zero_notMem_word (c := c) (List.mem_of_getElem? (i := 1) ?_)
    simpa [url, Env.zeroFilled] using hu
  · exact hs.restated (updateRequest_restated hupdate)
  · exact filed_delete hs hdelete
  · exact hs

theorem filed_run {cs : List (List CChar)}
    (h : Run.run (step (Env.zeroFilled atof)) init cs = .ok s) : Filed s.root :=
  Run.run_invariant (I := fun s : State => Filed s.root) _ (fun _ _ _ hs h => filed_step hs h)
    (show Filed init.root from ⟨trivial, every_nil Named⟩) h

end Steps

/-! ## The bound urls

A listing is compared with the urls a search finds. In a live tree the walk over the values meets the
packets of exactly these, so it comes down to the room in the block. -/

/-- A url whose packet the tree holds. No url has a NUL. -/
def BoundUrl (root : TSTree StatsPacket) (u : List CChar) : Prop :=
  0 ∉ u ∧ (TSTree.valueAt root (TSTree.storedKey u)).isSome

/-- The urls of the packets of a tree. -/
def boundUrls (root : TSTree StatsPacket) : List (List CChar) :=
  (root.entries.filterMap fun e => e.2.value).map (·.url)

theorem storedKey_inj {u v : List CChar} (hu : 0 ∉ u) (hv : 0 ∉ v)
    (h : TSTree.storedKey u = TSTree.storedKey v) : u = v := by
  unfold TSTree.storedKey at h
  split_ifs at h with hu' hv' hv'
  · rw [hu', hv']
  · exact absurd (h ▸ List.mem_singleton_self 0) hv
  · exact absurd (h ▸ List.mem_singleton_self 0) hu
  · exact h

/-- In a live tree a url that is not empty is bound when a search finds its packet. -/
theorem boundUrl_iff_bound {root : TSTree StatsPacket} (hlive : root.Live) {u : List CChar}
    (hu : u ≠ []) : BoundUrl root u ↔ 0 ∉ u ∧ bound root u := by
  rw [BoundUrl, bound, TSTree.search_of_live hlive hu, TSTree.storedKey_of_ne_nil hu]
  rfl

section Filed

variable {root : TSTree StatsPacket}

theorem Filed.mem_boundUrls (hs : Filed root) {u : List CChar} :
    u ∈ boundUrls root ↔ BoundUrl root u := by
  simp only [boundUrls, List.mem_map, List.mem_filterMap]
  constructor
  · rintro ⟨pack, ⟨⟨p, d⟩, he, hpack⟩, rfl⟩
    obtain ⟨hp, hurl⟩ := hs.named _ he pack hpack
    refine ⟨hurl, ?_⟩
    rw [TSTree.valueAt, ← hp, (mem_entries hs.ordered).mp he, Option.bind_some, hpack]
    rfl
  · rintro ⟨h0, hvalue⟩
    obtain ⟨pack, hpack⟩ := Option.isSome_iff_exists.mp hvalue
    obtain ⟨d, hd, hpack⟩ := Option.bind_eq_some_iff.mp hpack
    obtain ⟨hkey, hurl⟩ := hs.named.get? hd pack hpack
    exact ⟨pack, ⟨_, mem_entries_of_get? hd, hpack⟩, (storedKey_inj h0 hurl hkey).symm⟩

theorem Filed.nodup_boundUrls (hs : Filed root) : (boundUrls root).Nodup := by
  have hkeys : root.entries.Pairwise fun e e' => e.1 ≠ e'.1 :=
    List.pairwise_map.mp (nodup_entries hs.ordered)
  rw [boundUrls, List.Nodup, List.pairwise_map, List.pairwise_filterMap]
  refine hkeys.imp_of_mem fun {e e'} he he' hne pack hpack pack' hpack' hurl => hne ?_
  rw [(hs.named e he pack hpack).1, (hs.named e' he' pack' hpack').1, hurl]

/-- The walk of a listing meets every bound url once. -/
theorem Filed.traverse (hs : Filed root) (hlive : root.Live) :
    ∃ packs, TSTree.traverse root = .ok packs ∧ (packs.map (·.url)).Perm (boundUrls root) ∧
      ∀ pack ∈ packs, 0 ∉ pack.url := by
  obtain ⟨packs, hpacks, hperm⟩ := TSTree.traverse_perm hlive
  refine ⟨packs, hpacks, hperm.map _, fun pack hpack => ?_⟩
  exact (hs.mem_boundUrls.mp ((hperm.map _).subset (List.mem_map_of_mem hpack))).1

end Filed

theorem length_lines_perm {us vs : List (List CChar)} (h : us.Perm vs) :
    (lines us).length = (lines vs).length := by
  rw [length_lines, length_lines, (h.map _).sum_eq]

/-- The block and the bytes of the server's model agree when a line is printed. -/
theorem Listing.listRequest_agrees {root : TSTree StatsPacket} (hs : Filed root)
    (hbound : ∃ u, BoundUrl root u) (block : ℕ → CChar) :
    (∃ text block', Server.listRequest root = .ok (.listing text) ∧
      Listing.listRequest block root = .ok block' ∧ HoldsString block' text) ∨
    ∃ e, Server.listRequest root = .error e ∧ Listing.listRequest block root = .error e := by
  unfold Server.listRequest Listing.listRequest
  by_cases hlive : root.Live
  · obtain ⟨packs, hpacks, hperm, hurls⟩ := hs.traverse hlive
    have hstart : StartsWith block [] := ⟨by simp, fun i hi => absurd hi (by simp)⟩
    rw [hpacks, ok_bind, ok_bind]
    by_cases hfit : (lines (packs.map (·.url))).length < 1024 * 1024
    · obtain ⟨hbytes, block', hblock, -, -, hholds⟩ :=
        Listing.foldlM_addString hurls hstart (by simpa using hfit)
      rw [List.length_nil] at hblock
      refine Or.inl ⟨_, block', by rw [hbytes]; rfl, by rw [hblock]; rfl, hholds ?_⟩
      -- some url is bound, so at least one line is printed
      rintro rfl
      obtain ⟨u, hu⟩ := hbound
      simpa using hperm.symm.subset (hs.mem_boundUrls.mpr hu)
    · obtain ⟨hbytes, hblock⟩ :=
        Listing.foldlM_overflow hurls hstart (by simp) (by simpa using hfit)
      rw [List.length_nil] at hblock
      exact Or.inr ⟨_, by rw [hbytes]; rfl, by rw [hblock]; rfl⟩
  · rw [TSTree.traverse_not_live hlive]
    exact Or.inr ⟨_, rfl, rfl⟩

/-- A block that holds the line of every bound url, once. -/
def Complete (root : TSTree StatsPacket) (block : ℕ → CChar) : Prop :=
  ∃ us : List (List CChar), us.Nodup ∧ (∀ u, u ∈ us ↔ BoundUrl root u) ∧
    HoldsString block (lines us)

/-- A listing is complete when its run ends and there is a line, or the block was a C string already. -/
theorem complete_iff {root : TSTree StatsPacket} (hs : Filed root) (block : ℕ → CChar) :
    (∃ block', Listing.listRequest block root = .ok block' ∧ Complete root block') ↔
      root.Live ∧ ((∃ u, BoundUrl root u) ∨ block 0 = 0) ∧
        ((boundUrls root).map fun u => u.length + 1).sum < 1024 * 1024 := by
  rw [← length_lines]
  by_cases hlive : root.Live
  · obtain ⟨packs, hpacks, hperm, hurls⟩ := hs.traverse hlive
    have hstart : StartsWith block [] := ⟨by simp, fun i hi => absurd hi (by simp)⟩
    have hmem : ∀ u, u ∈ packs.map (·.url) ↔ BoundUrl root u :=
      fun u => hperm.mem_iff.trans hs.mem_boundUrls
    have hnodup : (packs.map (·.url)).Nodup := hperm.nodup_iff.mpr hs.nodup_boundUrls
    rw [← length_lines_perm hperm, Listing.listRequest, hpacks, ok_bind]
    constructor
    · rintro ⟨block', hlist, us, hus, husmem, -, hnul, hsize⟩
      have husperm : us.Perm (packs.map (·.url)) :=
        (List.perm_ext_iff_of_nodup hus hnodup).mpr fun u => (husmem u).trans (hmem u).symm
      refine ⟨hlive, ?_, length_lines_perm husperm ▸ hsize⟩
      cases packs with
      | nil =>
        -- nothing is printed, and the block is as malloc hands it out
        obtain rfl : us = [] := husperm.eq_nil
        obtain rfl : block = block' := by simpa [pure, Except.pure] using hlist
        exact Or.inr hnul
      | cons pack packs => exact Or.inl ⟨pack.url, (hmem _).mp (by simp)⟩
    · rintro ⟨-, hfirst, hsize⟩
      obtain ⟨-, block', hblock, hstart', hsame, hholds⟩ :=
        Listing.foldlM_addString hurls hstart (by simpa using hsize)
      rw [List.length_nil] at hblock
      refine ⟨block', by rw [hblock]; rfl, _, hnodup, hmem, ?_⟩
      by_cases hpacks' : packs = []
      · subst hpacks'
        rcases hfirst with ⟨u, hu⟩ | h0
        · simpa using (hmem u).mpr hu
        · rw [hsame rfl]
          exact ⟨hstart, h0, by simp [lines]⟩
      · exact hholds hpacks'
  · rw [Listing.listRequest, TSTree.traverse_not_live hlive]
    constructor
    · rintro ⟨block', hlist, -⟩
      cases hlist
    · rintro ⟨hlive', -⟩
      exact absurd hlive' hlive

/-- **When a listing is complete.** In the server a run ends in, a listing returns the lines of
exactly the bound urls, once each, inside its block, exactly when no freed node is linked, some url
is bound or the block happens to start with a NUL, and the lines and the NUL fit. -/
theorem list_complete_iff (atof : List CChar → ℚ) {cs : List (List CChar)} {s : State}
    (hrun : Run.run (step (Env.zeroFilled atof)) init cs = .ok s) (block : ℕ → CChar) :
    (∃ block', Listing.listRequest block s.root = .ok block' ∧ Complete s.root block') ↔
      s.root.Live ∧ ((∃ u, BoundUrl s.root u) ∨ block 0 = 0) ∧
        ((boundUrls s.root).map fun u => u.length + 1).sum < 1024 * 1024 :=
  complete_iff (filed_run hrun) block

theorem list_complete_iff_ab :
    ∃ s, Run.run (step (Env.zeroFilled digit)) init [cstr "create a/b", cstr "create a/c"] =
        .ok s ∧
      ((∃ block', Listing.listRequest (fun _ => 1) s.root = .ok block' ∧ Complete s.root block') ↔
        s.root.Live ∧ ((∃ u, BoundUrl s.root u) ∨ (1 : CChar) = 0) ∧
          ((boundUrls s.root).map fun u => u.length + 1).sum < 1024 * 1024) :=
  ⟨_, rfl, list_complete_iff digit (show Run.run (step (Env.zeroFilled digit)) init
    [cstr "create a/b", cstr "create a/c"] = .ok _ from rfl) fun _ => 1⟩

/-- With no url left the block is returned as malloc handed it out, and here it has no NUL. -/
theorem empty_list_uninitialised :
    ∃ s, Run.run (step (Env.zeroFilled digit)) init [cstr "create x", cstr "delete x"] = .ok s ∧
      Listing.listRequest (fun _ => 1) s.root = .ok (fun _ => 1) ∧
      ¬ ∃ block', Listing.listRequest (fun _ => 1) s.root = .ok block' ∧
        Complete s.root block' := by
  refine ⟨_, rfl, rfl, ?_⟩
  rintro ⟨block', hlist, us, -, -, -, hnul, -⟩
  obtain rfl : (fun _ => 1) = block' := Except.ok.inj hlist
  exact absurd hnul (show ¬ (1 : CChar) = 0 by decide)

end Lcthw.Server
