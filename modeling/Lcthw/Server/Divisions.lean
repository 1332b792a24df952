import Lcthw.Server.Packets
import Lcthw.TSTree.Uninitialised

/-!
# Lcthw — the divisions of a read (`proc_request.c`)

`read_request` prints the mean and the deviation of the record of a packet. Updates sample into the
record of the node, so that the one of the packet stays as `Stats_create` made it.

* **`unsampled_step`**: every request keeps the records of the packets as they were created.
* **`divides_safely_iff`**: along a run the divisions are safe exactly as long as no bound url is read.
-/

namespace Lcthw.Server

open Ternary Ternary.Tree

/-- The packet of a node, if it has one, has no samples. -/
def Unsampled (c : Cell StatsPacket) : Prop :=
  ∀ pack, c.value = some pack → pack.stats = Stats.create

/-- A read that prints a line divides by no zero, and subtracts no 1 from 0. -/
def DividesSafely (env : Env) (s : State) (c : List CChar) : Prop :=
  command c = cstr "read" → ∀ st s', (processRequest env s (some c)).result = .ok (.dump st, s') →
    st.Divisible

/-- The request reads a bound url, and the walk to `a/b/c` in front of it meets no freed node. -/
structure ReadsBound (env : Env) (s : State) (c : List CChar) : Prop where
  command_eq : command c = cstr "read"
  bound : bound s.root ((url env c).getD [])
  walk_ne : s.root.walk (cstr "a/b/c") ≠ dead

theorem Unsampled.setStat {c : Cell StatsPacket} (h : Unsampled c) (st : Stats) :
    Unsampled { c with stat := some st } := h

theorem Unsampled.clear {c : Cell StatsPacket} (_ : Unsampled c) :
    Unsampled { c with value := none } :=
  fun _ hpack => by cases hpack

section Steps

variable {env : Env} {s s' : State} {c : List CChar}

/-- A create makes a packet without samples, and whatever else its nodes lead to was in the blocks. -/
theorem unsampled_create {url : Option (List CChar)} (hblocks : ∀ i, (env.malloc i).Holds Unsampled)
    (hs : s.root.Every fun _ => Unsampled) (h : createRequest env s url = .ok s') :
    s'.root.Every fun _ => Unsampled := by
  cases url with
  | none =>
    obtain rfl := Except.ok.inj h
    exact hs
  | some key =>
    rw [createRequest, bind_eq_ok] at h
    obtain ⟨⟨t, blocks⟩, ht, hret⟩ := h
    obtain rfl := Except.ok.inj hret
    refine TSTree.delimInsert_every hblocks (fun _ st hc => hc.setStat st) ?_ hs ht
    intro pack hpack
    obtain rfl := Option.some.inj hpack
    rfl

/-- **Every request keeps the packets without samples.** -/
theorem unsampled_step (hblocks : ∀ i, (env.malloc i).Holds Unsampled)
    (hs : s.root.Every fun _ => Unsampled) (h : step env s c = .ok s') :
    s'.root.Every fun _ => Unsampled :=
  every_step (fun _ _ st hc => hc.setStat st) (fun _ _ hc => hc.clear) (unsampled_create hblocks hs)
    hs h

/-- A read of a bound url prints a record without samples. -/
theorem ReadsBound.dump (hs : s.root.Every fun _ => Unsampled) (h : ReadsBound env s c) :
    (processRequest env s (some c)).result = .ok (.dump Stats.create, s) := by
  obtain ⟨pack, cell, hsearch, hcell, hvalue⟩ := search_of_bound h.bound
  obtain ⟨-, hcreate⟩ := hs.of_walk hcell
  have hpack : pack.stats = Stats.create := hcreate pack hvalue
  have hread : readRequest s.root (url env c) = .ok (.dump Stats.create) := by
    simp [readRequest, hsearch, hpack, pure, Except.pure]
  rw [processRequest_ok, h.command_eq, dispatch_read, hread]
  exact ⟨h.walk_ne, rfl⟩

/-- Only such a read prints a record. -/
theorem readsBound_of_dump {st : Stats} (hcmd : command c = cstr "read")
    (h : (processRequest env s (some c)).result = .ok (.dump st, s')) : ReadsBound env s c := by
  obtain ⟨hwalk, hdispatch⟩ := processRequest_ok.mp h
  rw [hcmd, dispatch_read] at hdispatch
  obtain ⟨rs, hread, hret⟩ := map_eq_ok.mp hdispatch
  obtain ⟨rfl, -⟩ := Prod.mk.inj hret
  refine ⟨hcmd, ?_, hwalk⟩
  unfold readRequest at hread
  obtain ⟨found, hfound, hread⟩ := bind_eq_ok.mp hread
  unfold bound
  rw [hfound]
  cases found with
  | none => cases hread
  | some pack => rfl

/-- **One request.** -/
theorem dividesSafely_iff (hs : s.root.Every fun _ => Unsampled) :
    DividesSafely env s c ↔ ¬ ReadsBound env s c := by
  constructor
  · intro hsafe hreads
    have hdivisible := hsafe hreads.command_eq Stats.create s (hreads.dump hs)
    exact hdivisible.mean rfl
  · intro hnot hcmd st s' hdump
    exact absurd (readsBound_of_dump hcmd hdump) hnot

end Steps

/-- **The divisions are safe as long as no bound url is read.** Malloc may hand out blocks with any
contents, as long as the packets that they lead to were made by a create. -/
theorem divides_safely_iff {env : Env} (hblocks : ∀ i, (env.malloc i).Holds Unsampled)
    (cs : List (List CChar)) :
    Run.Along (step env) (DividesSafely env) init cs ↔
      Run.Along (step env) (fun s c => ¬ ReadsBound env s c) init cs :=
  Run.along_iff_along (I := fun s : State => s.root.Every fun _ => Unsampled)
    (fun _ _ hs => dividesSafely_iff hs) (fun _ _ _ hs _ h => unsampled_step hblocks hs h)
    (every_nil _) cs

theorem divides_safely_iff_unread :
    Run.Along (step (Env.zeroFilled digit)) (DividesSafely (Env.zeroFilled digit)) init
        [cstr "create x", cstr "delete x", cstr "read x"] ↔
      Run.Along (step (Env.zeroFilled digit)) (fun s c => ¬ ReadsBound (Env.zeroFilled digit) s c) init
        [cstr "create x", cstr "delete x", cstr "read x"] :=
  divides_safely_iff (fun _ => TSTree.Block.holds_zero fun _ h => by cases h) _

/-- A read divides by zero even after three samples. -/
theorem read_divides_by_zero :
    ¬ Run.Along (step (Env.zeroFilled digit)) (DividesSafely (Env.zeroFilled digit)) init
      [cstr "create a/b/c", cstr "update a/b/c 1 2 3", cstr "read a/b/c"] := by
  rintro ⟨-, hcreated⟩
  obtain ⟨-, hupdated⟩ := hcreated _ rfl
  obtain ⟨hread, -⟩ := hupdated _ rfl
  exact (hread rfl Stats.create _ rfl).mean rfl

end Lcthw.Server
