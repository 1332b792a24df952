import Lcthw.Server.Defs
import Lcthw.Bstrlib.Trimming
import Lcthw.TSTree.Trace
import Lcthw.Run

/-!
# Lcthw — what one request to the server does

* **`btrimws_agrees`**: the words are trimmed as `bstrlib.c` does it in a block.
* **`mlen_processString`**, **`qty_le_mlen`**: the array of words always has room for two.
* **`result_processRequest`**: a request walks to `a/b/c`, reads its first two slots and then does
  what `dispatch` says.
* **`step_cases`**: a completed request is a create, an update, a delete, or leaves the server as
  it was.
-/

namespace Lcthw.Server

open Ternary Ternary.Tree

/-! ## The array of words

The array grows by doubling and its first size is four, so its first two slots exist whatever the
request is. What is in a slot behind the words is up to the environment. -/

theorem words_foldl_bscb (ws : List (List CChar)) (l : BstrList) :
    (ws.foldl bscb l).words = l.words ++ ws := by
  induction ws generalizing l with
  | nil => simp
  | cons w ws ih =>
    rw [List.foldl_cons, ih, bscb]
    simp

theorem qty_foldl_bscb (ws : List (List CChar)) {l : BstrList} (h4 : 4 ≤ l.mlen)
    (hq : l.qty ≤ l.mlen) :
    4 ≤ (ws.foldl bscb l).mlen ∧ (ws.foldl bscb l).qty ≤ (ws.foldl bscb l).mlen := by
  induction ws generalizing l with
  | nil => exact ⟨h4, hq⟩
  | cons w ws ih =>
    have hqty : (bscb l w).qty = l.qty + 1 := by simp [bscb, BstrList.qty]
    by_cases hfull : l.qty ≥ l.mlen
    · have hmlen : (bscb l w).mlen = l.mlen * 2 := by simp [bscb, hfull]
      exact ih (by omega) (by omega)
    · have hmlen : (bscb l w).mlen = l.mlen := by simp [bscb, hfull]
      exact ih (by omega) (by omega)

theorem words_processString (c : List CChar) :
    (processString c).words = (btrimws (c.takeWhile (· ≠ 0))).splitOn 32 := by
  rw [processString, bsplit, words_foldl_bscb, List.nil_append]

/-- On the characters of a block `btrimws` does the same. -/
theorem btrimws_agrees {b : Bstrlib.Bstring} (hb : Bstrlib.WellFormed b) :
    ∃ out, Bstrlib.btrimws b = .ok out ∧
      out.1.contents.map UInt8.toInt8 = btrimws (b.contents.map UInt8.toInt8) := by
  have hspace : isspace ∘ UInt8.toInt8 = Bstrlib.wspace := by
    have hbytes : ∀ n : Fin 256,
        isspace (UInt8.ofNat n).toInt8 = Bstrlib.wspace (UInt8.ofNat n) := by
      decide +kernel
    funext c
    have hc := hbytes ⟨c.toNat, c.toNat_lt⟩
    rwa [UInt8.ofNat_toNat] at hc
  obtain ⟨⟨b', rc⟩, htrim, -, hcontents, -⟩ := Bstrlib.btrimws_made hb
  refine ⟨_, htrim, ?_⟩
  rw [hcontents, btrimws, trim, trim, List.rdropWhile, List.rdropWhile, ← List.map_reverse,
    List.dropWhile_map, ← List.map_reverse, List.dropWhile_map, hspace]

/-- No request is split into an array of less than four slots. -/
theorem mlen_processString (c : List CChar) : 4 ≤ (processString c).mlen :=
  (qty_foldl_bscb _ (l := ⟨[], 4⟩) le_rfl (Nat.zero_le _)).1

/-- The words fit into their array. -/
theorem qty_le_mlen (c : List CChar) : (processString c).qty ≤ (processString c).mlen :=
  (qty_foldl_bscb _ (l := ⟨[], 4⟩) le_rfl (Nat.zero_le _)).2

theorem words_processString_ne_nil (c : List CChar) : (processString c).words ≠ [] := by
  rw [words_processString]
  exact List.splitOn_ne_nil _ _

/-- The command word. -/
def command (c : List CChar) : List CChar :=
  (processString c).words.headD []

/-- What `process_request` finds in `list->entry[1]`. -/
def url (env : Env) (c : List CChar) : Option (List CChar) :=
  ((processString c).words[1]?).or (env.slack 1)

theorem slots_zero (env : Env) (c : List CChar) :
    ((processString c).slots env)[0]? = some (some (command c)) := by
  obtain ⟨w, ws, hw⟩ := List.exists_cons_of_ne_nil (words_processString_ne_nil c)
  simp [BstrList.slots, command, hw]

theorem slots_one (env : Env) (c : List CChar) :
    ((processString c).slots env)[1]? = some (url env c) := by
  have h4 := mlen_processString c
  obtain ⟨w, ws, hw⟩ := List.exists_cons_of_ne_nil (words_processString_ne_nil c)
  cases ws with
  | nil =>
    have hq : (processString c).qty = 1 := by simp [BstrList.qty, hw]
    obtain ⟨m, hm⟩ : ∃ m, (processString c).mlen - 1 = m + 1 :=
      ⟨(processString c).mlen - 2, by omega⟩
    simp [BstrList.slots, url, hw, hq, hm, List.range'_succ]
  | cons v ws => simp [BstrList.slots, url, hw]

theorem result_entry_zero (env : Env) (c : List CChar) :
    ((processString c).entry env 0).result = .ok (some (command c)) := by
  simp [BstrList.entry, slots_zero, bind]

theorem result_entry_one (env : Env) (c : List CChar) :
    ((processString c).entry env 1).result = .ok (url env c) := by
  simp [BstrList.entry, slots_one, bind]

/-! ## One request

The reads that `process_request` makes of its array do not change anything, so its result is that of the
handler it dispatches to. -/

/-- What `process_request` does once it has its command word and its url. -/
def dispatch (env : Env) (s : State) (list : BstrList) (command : List CChar)
    (url : Option (List CChar)) : Except Fault (Reply × State) :=
  if command = cstr "create" then do
    let s ← createRequest env s url
    pure (.text "create stats successfully\n", s)
  else if command = cstr "read" then do
    let rs ← readRequest s.root url
    pure (rs, s)
  else if command = cstr "update" then do
    let (rs, root) ← (updateRequest env s.root url list).result
    pure (rs, { s with root })
  else if command = cstr "delete" then do
    let (rs, root) ← deleteRequest s.root url
    pure (rs, { s with root })
  else if command = cstr "list" then do
    let rs ← listRequest s.root
    pure (rs, s)
  else pure (.text "wrong format\n", s)

/-- The result of a request, without what it reads on the way. -/
theorem result_processRequest (env : Env) (s : State) (c : List CChar) :
    (processRequest env s (some c)).result =
      (TSTree.pinpoint s.root (cstr "a/b/c")).bind fun _ =>
        dispatch env s (processString c) (command c) (url env c) := by
  rw [processRequest, Traced.result_bind]
  change (TSTree.pinpoint s.root (cstr "a/b/c") >>= _) = (TSTree.pinpoint s.root (cstr "a/b/c") >>= _)
  congr 1
  funext _
  simp only [Traced.result_bind, result_entry_zero, result_entry_one, ok_bind,
    apply_ite Traced.result, Option.some.injEq, Traced.result_pure, Traced.result_lift, dispatch]
  rfl

section Dispatch

variable {env : Env} {s s' : State} {list : BstrList} {url : Option (List CChar)}

@[simp] theorem dispatch_create :
    dispatch env s list (cstr "create") url =
      (createRequest env s url).map fun s => (.text "create stats successfully\n", s) := rfl

@[simp] theorem dispatch_read :
    dispatch env s list (cstr "read") url = (readRequest s.root url).map fun rs => (rs, s) := rfl

@[simp] theorem dispatch_update :
    dispatch env s list (cstr "update") url =
      (updateRequest env s.root url list).result.map fun r => (r.1, { s with root := r.2 }) := rfl

@[simp] theorem dispatch_delete :
    dispatch env s list (cstr "delete") url =
      (deleteRequest s.root url).map fun r => (r.1, { s with root := r.2 }) := rfl

end Dispatch

/-- The walk to `a/b/c` that every request starts with. -/
theorem pinpoint_abc (root : TSTree StatsPacket) :
    TSTree.pinpoint root (cstr "a/b/c") =
      TSTree.unlessDead (root.walk (cstr "a/b/c")) (root.walk (cstr "a/b/c")) :=
  TSTree.pinpoint_eq root (by decide)

/-- A request completes exactly when the walk to `a/b/c` and its own handler do. -/
theorem processRequest_ok {env : Env} {s s' : State} {c : List CChar} {rs : Reply} :
    (processRequest env s (some c)).result = .ok (rs, s') ↔
      s.root.walk (cstr "a/b/c") ≠ dead ∧
        dispatch env s (processString c) (command c) (url env c) = .ok (rs, s') := by
  rw [result_processRequest, pinpoint_abc]
  cases s.root.walk (cstr "a/b/c") <;>
    simp [TSTree.unlessDead, Except.bind, throw, throwThe, MonadExceptOf.throw, pure, Except.pure]

/-- **What a completed request was.** -/
theorem step_cases {env : Env} {s s' : State} {c : List CChar} (h : step env s c = .ok s') :
    (command c = cstr "create" ∧ createRequest env s (url env c) = .ok s') ∨
    (command c = cstr "update" ∧ ∃ rs root,
      (updateRequest env s.root (url env c) (processString c)).result = .ok (rs, root) ∧
        s' = { s with root }) ∨
    (command c = cstr "delete" ∧ ∃ rs root,
      deleteRequest s.root (url env c) = .ok (rs, root) ∧ s' = { s with root }) ∨
    (command c ≠ cstr "create" ∧ command c ≠ cstr "update" ∧ command c ≠ cstr "delete" ∧ s' = s) := by
  rw [step] at h
  cases hres : (processRequest env s (some c)).result with
  | error e => rw [hres] at h; cases h
  | ok r =>
    obtain ⟨rs, s''⟩ := r
    rw [hres] at h
    obtain rfl : s'' = s' := Except.ok.inj h
    obtain ⟨-, hdisp⟩ := processRequest_ok.mp hres
    rw [dispatch] at hdisp
    -- a read and a list leave the tree, and so does an unknown command
    split_ifs at hdisp with hcreate hread hupdate hdelete hlist
    · obtain ⟨s', hs'', hr⟩ := bind_eq_ok.mp hdisp
      cases hr
      exact Or.inl ⟨hcreate, hs''⟩
    · obtain ⟨rs, -, hr⟩ := bind_eq_ok.mp hdisp
      cases hr
      exact Or.inr (Or.inr (Or.inr ⟨hcreate, by rw [hread]; decide, by rw [hread]; decide, rfl⟩))
    · obtain ⟨⟨rs, root⟩, hs'', hr⟩ := bind_eq_ok.mp hdisp
      cases hr
      exact Or.inr (Or.inl ⟨hupdate, rs, root, hs'', rfl⟩)
    · obtain ⟨⟨rs, root⟩, hs'', hr⟩ := bind_eq_ok.mp hdisp
      cases hr
      exact Or.inr (Or.inr (Or.inl ⟨hdelete, rs, root, hs'', rfl⟩))
    · obtain ⟨rs, -, hr⟩ := bind_eq_ok.mp hdisp
      cases hr
      exact Or.inr (Or.inr (Or.inr ⟨hcreate, hupdate, hdelete, rfl⟩))
    · cases hdisp
      exact Or.inr (Or.inr (Or.inr ⟨hcreate, hupdate, hdelete, rfl⟩))

/-! ## Updates

The loop of an update goes over the slots from the third one on. It stops at a NULL, and no word is
NULL, so what ends it lies behind the words. -/

/-- The loop over the words takes their numbers in order and stops at the first NULL slot. -/
theorem result_sampleEntries (env : Env) (i : ℕ) (ws : List (List CChar))
    (rest : List (Option (List CChar))) (st : Stats) :
    (sampleEntries env i (ws.map some ++ none :: rest) st).result =
      .ok (st.sampleAll (ws.map env.atof)) := by
  induction ws generalizing i st with
  | nil => simp [sampleEntries]
  | cons w ws ih => simp [sampleEntries, ih]

/-- Without a NULL slot it leaves the array. -/
theorem result_sampleEntries_full (env : Env) (i : ℕ) (ws : List (List CChar)) (st : Stats) :
    (sampleEntries env i (ws.map some) st).result = .error .outOfBounds := by
  induction ws generalizing i st with
  | nil => simp [sampleEntries, Traced.lift]
  | cons w ws ih => simp [sampleEntries, ih]

/-- With cleared memory behind the words, the loop ends at the first slot behind them, if there is
one. -/
theorem result_sampleEntries_zeroFilled (atof : List CChar → ℚ) (c : List CChar) (st : Stats) :
    (sampleEntries (Env.zeroFilled atof) 2
        (((processString c).slots (Env.zeroFilled atof)).drop 2) st).result =
      if (processString c).qty < (processString c).mlen then
        .ok (st.sampleAll (((processString c).words.drop 2).map atof))
      else .error .outOfBounds := by
  have h4 := mlen_processString c
  have hle := qty_le_mlen c
  have hslack : ∀ n m, (List.range' n m).map (Env.zeroFilled atof).slack = List.replicate m none := by
    intro n m
    simp [Env.zeroFilled, List.map_const']
  rw [BstrList.slots, hslack]
  split
  · next hlt =>
    have hq : (processString c).qty = (processString c).words.length := rfl
    -- a slot behind the words, and it is NULL
    obtain ⟨m, hm⟩ : ∃ m, (processString c).mlen - (processString c).qty -
        (2 - (processString c).words.length) = m + 1 :=
      ⟨_ - 1, (Nat.sub_add_cancel (by omega)).symm⟩
    rw [List.drop_append, List.length_map, List.drop_replicate, hm, List.replicate_succ,
      ← List.map_drop]
    exact result_sampleEntries ..
  · next hge =>
    rw [show (processString c).mlen - (processString c).qty = 0 by omega]
    simp only [List.replicate_zero, List.append_nil, ← List.map_drop]
    exact result_sampleEntries_full ..

section Update

variable {env : Env} {root : TSTree StatsPacket} {url : Option (List CChar)} {list : BstrList}

theorem updateRequest_nil (h : root.walk (url.getD []) = nil) :
    (updateRequest env root url list).result = .ok (.text "no such statistic", root) := by
  simp [updateRequest, TSTree.delimSearch_eq, h, TSTree.deref, Except.map, pure, Except.pure,
    TSTree.pinpoint_of_ne_dead (show root.walk (url.getD []) ≠ dead by simp [h])]

theorem updateRequest_dead (h : root.walk (url.getD []) = dead) :
    (updateRequest env root url list).result = .error .useAfterFree := by
  simp [updateRequest, TSTree.delimSearch_eq, h, TSTree.deref, Except.map, throw, throwThe,
    MonadExceptOf.throw]

variable {c : CChar} {low high equal : TSTree StatsPacket} {v : Option StatsPacket}

theorem updateRequest_noStat (h : root.walk (url.getD []) = node c low high equal ⟨none, v⟩) :
    (updateRequest env root url list).result = .error .nullDeref := by
  simp [updateRequest, TSTree.delimSearch_eq, h, TSTree.deref, Except.map, pure, Except.pure,
    TSTree.pinpoint_of_ne_dead (show root.walk (url.getD []) ≠ dead by simp [h]), Traced.lift]

/-- An update of a node samples, re-traces the trail, and looks at the sum of `a/b/`. -/
theorem updateRequest_node {st : Stats}
    (h : root.walk (url.getD []) = node c low high equal ⟨some st, v⟩) :
    (updateRequest env root url list).result =
      (sampleEntries env 2 ((list.slots env).drop 2) st).result >>= fun temp_stat =>
        TSTree.updateTracer root (TSTree.trail root (url.getD [])) temp_stat >>= fun r =>
          (sumAt r.2 (cstr "a/b/")).map fun _ =>
            (.text (if r.1 ≠ 0 then "error updating\n" else "ok\n"), r.2) := by
  simp only [updateRequest, TSTree.delimSearch_eq, h, TSTree.deref, Traced.result_bind,
    Traced.result_lift, TSTree.pinpoint_of_ne_dead (show root.walk (url.getD []) ≠ dead by simp [h])]
  cases hs : (sampleEntries env 2 ((list.slots env).drop 2) st).result with
  | error e => simp [hs, Except.map, pure, Except.pure]
  | ok temp =>
    cases ht : TSTree.updateTracer root (TSTree.trail root (url.getD [])) temp with
    | error e => simp [hs, ht, Except.map, pure, Except.pure]
    | ok r =>
      cases hsum : sumAt r.2 (cstr "a/b/") <;> by_cases hr : r.1 = 0 <;>
        simp [hs, ht, hsum, hr, Except.map, pure, Except.pure]

end Update

end Lcthw.Server
