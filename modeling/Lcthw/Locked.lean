import Lcthw.Run

/-!
# Locked — clients that share one object behind one lock

Each client goes round: a request comes in, the client takes the lock, fetches the object, stores
what the request makes of it, releases the lock and answers. Any client may take the next step. A
fetch and a store are steps of their own, so that it is the lock that keeps an update from being
lost.

* **`Step`**: one step of one client, and what it adds to the history.
* **`Inv`**: who holds the lock, what was fetched, and where each client is in its history.
* **`Linearizes`**: the history read as calls made one after the other.
* **`linearizes`**: every history is linearizable, and so is every part of it from the start on.
-/

namespace Locked

variable {τ σ ι ρ ε : Type*}

/-- Where a client is in its round. -/
inductive Phase (σ ι ρ : Type*) where
  | idle
  | waiting (i : ι)
  | entered (i : ι)
  | working (i : ι) (o : σ)
  | served (r : ρ)
  | answering (r : ρ)

namespace Phase

/-- The client is between the taking of the lock and the release of it. -/
def Holds : Phase σ ι ρ → Prop
  | idle | waiting _ | answering _ => False
  | entered _ | working _ _ | served _ => True

/-- The request that is under way and not served. -/
def asked : Phase σ ι ρ → List ι
  | waiting i | entered i | working i _ => [i]
  | idle | served _ | answering _ => []

/-- The reply that is under way. -/
def owed : Phase σ ι ρ → List ρ
  | served r | answering r => [r]
  | idle | waiting _ | entered _ | working _ _ => []

theorem length_asked_add_length_owed (p : Phase σ ι ρ) : p.asked.length + p.owed.length ≤ 1 := by
  cases p <;> simp [asked, owed]

end Phase

/-- What a history records of a client: its request, the change of the object for it, and the
reply. -/
inductive Event (τ ι ρ : Type*) where
  | invoke (t : τ) (i : ι)
  | commit (t : τ) (i : ι) (r : ρ)
  | respond (t : τ) (r : ρ)

structure System (τ σ ι ρ : Type*) where
  object : σ
  lock : Option τ
  phase : τ → Phase σ ι ρ
  history : List (Event τ ι ρ)

/-- All clients idle, and the lock free. -/
def start (o : σ) : System τ σ ι ρ :=
  { object := o, lock := none, phase := fun _ => .idle, history := [] }

section Histories

variable [DecidableEq τ] (t : τ)

def Event.request : Event τ ι ρ → Option ι
  | .invoke u i => if u = t then some i else none
  | .commit .. | .respond .. => none

def Event.change : Event τ ι ρ → Option (ι × ρ)
  | .commit u i r => if u = t then some (i, r) else none
  | .invoke .. | .respond .. => none

def Event.reply : Event τ ι ρ → Option ρ
  | .respond u r => if u = t then some r else none
  | .invoke .. | .commit .. => none

/-- The requests of a client. -/
def requests (h : List (Event τ ι ρ)) : List ι :=
  h.filterMap (Event.request t)

/-- The requests of a client that were served, with their replies. -/
def changes (h : List (Event τ ι ρ)) : List (ι × ρ) :=
  h.filterMap (Event.change t)

/-- The replies a client has got. -/
def replies (h : List (Event τ ι ρ)) : List ρ :=
  h.filterMap (Event.reply t)

end Histories

def Event.served : Event τ ι ρ → Option (ι × ρ)
  | .commit _ i r => some (i, r)
  | .invoke .. | .respond .. => none

/-- The requests that were served, in the order in which they changed the object. -/
def order (h : List (Event τ ι ρ)) : List (ι × ρ) :=
  h.filterMap Event.served

variable (serve : σ → ι → Except ε (σ × ρ))

/-- Serving the requests one after the other gives the replies, and leads from `o` to `o'`. -/
def Replays : σ → List (ι × ρ) → σ → Prop
  | o, [], o' => o = o'
  | o, c :: cs, o' => ∃ m, serve o c.1 = .ok (m, c.2) ∧ Replays m cs o'

section Steps

variable [DecidableEq τ]

/-- One step of one client. Whoever is at the release frees the lock, and a store does not look at
the lock at all. -/
inductive Step : System τ σ ι ρ → System τ σ ι ρ → Prop
  | invoke {s : System τ σ ι ρ} {t : τ} (i : ι) (ht : s.phase t = .idle) :
      Step s { s with
        phase := Function.update s.phase t (.waiting i)
        history := s.history ++ [.invoke t i] }
  | acquire {s : System τ σ ι ρ} {t : τ} {i : ι} (ht : s.phase t = .waiting i)
      (hfree : s.lock = none) :
      Step s { s with
        phase := Function.update s.phase t (.entered i)
        lock := some t }
  | fetch {s : System τ σ ι ρ} {t : τ} {i : ι} (ht : s.phase t = .entered i) :
      Step s { s with phase := Function.update s.phase t (.working i s.object) }
  | store {s : System τ σ ι ρ} {t : τ} {i : ι} {o o' : σ} {r : ρ}
      (ht : s.phase t = .working i o) (hserve : serve o i = .ok (o', r)) :
      Step s { s with
        object := o'
        phase := Function.update s.phase t (.served r)
        history := s.history ++ [.commit t i r] }
  | release {s : System τ σ ι ρ} {t : τ} {r : ρ} (ht : s.phase t = .served r) :
      Step s { s with
        phase := Function.update s.phase t (.answering r)
        lock := none }
  | respond {s : System τ σ ι ρ} {t : τ} {r : ρ} (ht : s.phase t = .answering r) :
      Step s { s with
        phase := Function.update s.phase t .idle
        history := s.history ++ [.respond t r] }

abbrev Reaches : System τ σ ι ρ → System τ σ ι ρ → Prop :=
  Relation.ReflTransGen (Step serve)

/-- A client at `p` holds the lock if it should, has fetched the object as it is, and has its
request or its reply under way. -/
structure InTurn (s : System τ σ ι ρ) (t : τ) (p : Phase σ ι ρ) : Prop where
  owner : p.Holds ↔ s.lock = some t
  fetched : ∀ i o, p = .working i o → o = s.object
  asked : requests t s.history = (changes t s.history).map Prod.fst ++ p.asked
  owed : (changes t s.history).map Prod.snd = replies t s.history ++ p.owed

/-- What holds in every state that is reached from `start o`. -/
structure Inv (o : σ) (s : System τ σ ι ρ) : Prop where
  turn : ∀ t, InTurn s t (s.phase t)
  replays : Replays serve o (order s.history) s.object

/-- The history is one of calls made one after the other, each of them at its `commit`: in that
order the calls give the replies they gave, and every client has its requests served in the order
it made them, at most one of them under way. -/
structure Linearizes (o : σ) (h : List (Event τ ι ρ)) : Prop where
  replays : ∃ o', Replays serve o (order h) o'
  asked : ∀ t, (changes t h).map Prod.fst <+: requests t h
  owed : ∀ t, replies t h <+: (changes t h).map Prod.snd
  prompt : ∀ t, (requests t h).length ≤ (replies t h).length + 1

/-! ## Histories

A history grows at its end, by one event a step. What each client has asked and got, and the order of
the changes, are read off from the history, and one more event adds to these at most one element at the
end. -/

variable (h : List (Event τ ι ρ)) (e : Event τ ι ρ) (t : τ)

@[simp] theorem requests_snoc : requests t (h ++ [e]) = requests t h ++ (e.request t).toList := by
  cases hr : e.request t <;> simp [requests, hr]

@[simp] theorem changes_snoc : changes t (h ++ [e]) = changes t h ++ (e.change t).toList := by
  cases hc : e.change t <;> simp [changes, hc]

@[simp] theorem replies_snoc : replies t (h ++ [e]) = replies t h ++ (e.reply t).toList := by
  cases hr : e.reply t <;> simp [replies, hr]

omit [DecidableEq τ] in
@[simp] theorem order_snoc : order (h ++ [e]) = order h ++ e.served.toList := by
  cases hs : e.served <;> simp [order, hs]

variable {serve h t}

omit [DecidableEq τ] in
theorem Replays.snoc {o m o' : σ} {cs : List (ι × ρ)} {i : ι} {r : ρ} (hcs : Replays serve o cs m)
    (hi : serve m i = .ok (o', r)) : Replays serve o (cs ++ [(i, r)]) o' := by
  induction cs generalizing o with
  | nil =>
    obtain rfl : o = m := hcs
    exact ⟨o', hi, rfl⟩
  | cons c cs ih =>
    obtain ⟨m', hm', hrest⟩ := hcs
    exact ⟨m', hm', ih hrest⟩

omit [DecidableEq τ] in
/-- The calls of a replay are a run of the machine that drops the replies. -/
theorem Replays.run {o o' : σ} {cs : List (ι × ρ)} (h : Replays serve o cs o') :
    Run.run (fun s i => (serve s i).map Prod.fst) o (cs.map Prod.fst) = .ok o' := by
  induction cs generalizing o with
  | nil =>
    obtain rfl : o = o' := h
    rfl
  | cons c cs ih =>
    obtain ⟨m, hm, hrest⟩ := h
    refine (Run.run_cons_ok _).mpr ⟨m, ?_, ih hrest⟩
    rw [hm]
    rfl

omit [DecidableEq τ] in
theorem Replays.append {o o' : σ} {cs ds : List (ι × ρ)} :
    Replays serve o (cs ++ ds) o' ↔ ∃ m, Replays serve o cs m ∧ Replays serve m ds o' := by
  induction cs generalizing o with
  | nil => simp [Replays]
  | cons c cs ih =>
    simp only [List.cons_append, Replays, ih]
    constructor
    · rintro ⟨m, hm, m', hcs, hds⟩
      exact ⟨m', ⟨m, hm, hcs⟩, hds⟩
    · rintro ⟨m', ⟨m, hm, hcs⟩, hds⟩
      exact ⟨m, hm, m', hcs, hds⟩

/-! ## What every step keeps

The invariant is about one client at a time, and about the lock. A step changes one client; the others
depend on the lock, on the object while they hold the lock, and on their own part of the history, and
none of these changes for them. -/

variable {s s' : System τ σ ι ρ} {o o' : σ} {u : τ} {i : ι} {r : ρ} {p q : Phase σ ι ρ}

/-- What holds of the client that moves and of the others holds of all clients. -/
theorem forall_update {P : τ → Phase σ ι ρ → Prop} {f : τ → Phase σ ι ρ} (ht : P t p)
    (hu : ∀ u, u ≠ t → P u (f u)) (u : τ) : P u (Function.update f t p u) := by
  by_cases hut : u = t
  · subst hut
    rwa [Function.update_self]
  · rw [Function.update_of_ne hut]
    exact hu u hut

namespace InTurn

/-- What a client depends on: whether it has the lock, the object while it has it, and its own part
of the history. -/
theorem frame (h : InTurn s u q) (hlock : s'.lock = some u ↔ s.lock = some u)
    (hobject : q.Holds → s'.object = s.object)
    (hrequests : requests u s'.history = requests u s.history)
    (hchanges : changes u s'.history = changes u s.history)
    (hreplies : replies u s'.history = replies u s.history) : InTurn s' u q where
  owner := h.owner.trans hlock.symm
  fetched i o hq := by
    rw [hobject (by rw [hq]; trivial)]
    exact h.fetched i o hq
  asked := by rw [hrequests, hchanges, h.asked]
  owed := by rw [hchanges, hreplies, h.owed]

end InTurn

theorem inv_start (o : σ) : Inv serve o (start o : System τ σ ι ρ) where
  turn t := by
    constructor <;> simp [start, Phase.Holds, requests, changes, replies, Phase.asked, Phase.owed]
  replays := rfl

/-- At most one client is between taking the lock and releasing it. -/
theorem Inv.eq_of_holds (hs : Inv serve o s) (ht : (s.phase t).Holds) (hu : (s.phase u).Holds) :
    t = u :=
  Option.some.inj (((hs.turn t).owner.mp ht).symm.trans ((hs.turn u).owner.mp hu))

/-- **Every step keeps the invariant**: only the owner of the lock is between `acquire` and `release`.
-/
theorem Inv.step (hs : Inv serve o s) (h : Step serve s s') : Inv serve o s' := by
  cases h with
  | @invoke t i ht =>
    have hturn := ht ▸ hs.turn t
    refine ⟨forall_update ⟨hturn.owner, by simp, ?_, ?_⟩ fun u hu => ?_, ?_⟩
    · simpa [Event.request, Event.change, Phase.asked] using hturn.asked
    · simpa [Event.change, Event.reply, Phase.owed] using hturn.owed
    · exact (hs.turn u).frame Iff.rfl (fun _ => rfl) (by simp [Event.request, hu.symm])
        (by simp [Event.change]) (by simp [Event.reply])
    · simpa [Event.served] using hs.replays
  | @acquire t i ht hfree =>
    have hturn := ht ▸ hs.turn t
    refine ⟨forall_update ⟨?_, by simp, hturn.asked, hturn.owed⟩ fun u hu => ?_, hs.replays⟩
    · simp [Phase.Holds]
    · exact (hs.turn u).frame (by simp [hfree, hu.symm]) (fun _ => rfl) rfl rfl rfl
  | @fetch t i ht =>
    have hturn := ht ▸ hs.turn t
    refine ⟨forall_update ⟨hturn.owner, ?_, hturn.asked, hturn.owed⟩ fun u _ => ?_, hs.replays⟩
    · intro j o' hj
      exact (Phase.working.inj hj).2.symm
    · exact (hs.turn u).frame Iff.rfl (fun _ => rfl) rfl rfl rfl
  | @store t i o₁ o₂ r ht hserve =>
    have hturn := ht ▸ hs.turn t
    -- what was fetched is still the object, so the store is a call on the object as it is
    obtain rfl := hturn.fetched i o₁ rfl
    refine ⟨forall_update ⟨hturn.owner, by simp, ?_, ?_⟩ fun u hu => ?_, ?_⟩
    · simpa [Event.request, Event.change, Phase.asked] using hturn.asked
    · simpa [Event.change, Event.reply, Phase.owed] using hturn.owed
    · refine (hs.turn u).frame Iff.rfl (fun hq => ?_) (by simp [Event.request])
        (by simp [Event.change, hu.symm]) (by simp [Event.reply])
      exact absurd (hs.eq_of_holds hq (by rw [ht]; trivial)) hu
    · simpa [Event.served] using hs.replays.snoc hserve
  | @release t r ht =>
    have hturn := ht ▸ hs.turn t
    have hlock : s.lock = some t := hturn.owner.mp trivial
    refine ⟨forall_update ⟨?_, by simp, hturn.asked, hturn.owed⟩ fun u hu => ?_, hs.replays⟩
    · simp [Phase.Holds]
    · exact (hs.turn u).frame (by simp [hlock, hu.symm]) (fun _ => rfl) rfl rfl rfl
  | @respond t r ht =>
    have hturn := ht ▸ hs.turn t
    refine ⟨forall_update ⟨hturn.owner, by simp, ?_, ?_⟩ fun u hu => ?_, ?_⟩
    · simpa [Event.request, Event.change, Phase.asked] using hturn.asked
    · simpa [Event.change, Event.reply, Phase.owed] using hturn.owed
    · exact (hs.turn u).frame Iff.rfl (fun _ => rfl) (by simp [Event.request])
        (by simp [Event.change]) (by simp [Event.reply, hu.symm])
    · simpa [Event.served] using hs.replays

/-! ## Runs

The invariant holds in all states that are reached. What is asked of the order of the calls has to hold
at every point of a run, but the history at every point is that of a state which was reached then, so it
is enough to show it at the end. -/

theorem Inv.reaches (hs : Inv serve o s) (h : Reaches serve s s') : Inv serve o s' := by
  induction h with
  | refl => exact hs
  | tail _ hstep ih => exact ih.step hstep

theorem inv_of_reaches (h : Reaches serve (start o) s) : Inv serve o s :=
  (inv_start o).reaches h

/-- A step adds at most one event to the history. -/
theorem Step.history_eq (h : Step serve s s') :
    s'.history = s.history ∨ ∃ e, s'.history = s.history ++ [e] := by
  cases h with
  | acquire | fetch | release => exact .inl rfl
  | invoke | store | respond => exact .inr ⟨_, rfl⟩

/-- What the history was at some point of the run is the history of a state reached. -/
theorem exists_reaches_of_history (hr : Reaches serve (start o) s) {h : List (Event τ ι ρ)}
    (hpre : h <+: s.history) : ∃ m, Reaches serve (start o) m ∧ m.history = h := by
  induction hr with
  | refl =>
    obtain rfl : h = [] := List.prefix_nil.mp hpre
    exact ⟨start o, .refl, rfl⟩
  | @tail m s hm hstep ih =>
    rcases hstep.history_eq with heq | ⟨e, heq⟩
    · exact ih (heq ▸ hpre)
    · rw [heq, List.prefix_concat_iff] at hpre
      rcases hpre with rfl | hpre
      · exact ⟨s, hm.tail hstep, heq⟩
      · exact ih hpre

theorem Inv.linearizes (hs : Inv serve o s) : Linearizes serve o s.history where
  replays := ⟨s.object, hs.replays⟩
  asked t := ⟨_, (hs.turn t).asked.symm⟩
  owed t := ⟨_, (hs.turn t).owed.symm⟩
  prompt t := by
    have hasked := congrArg List.length (hs.turn t).asked
    have howed := congrArg List.length (hs.turn t).owed
    have hone := (s.phase t).length_asked_add_length_owed
    simp only [List.length_append, List.length_map] at hasked howed
    omega

/-- **Calls under one lock are linearizable**, and so are they at every point of the run: a call
that was answered before another one was made comes before it in the order of the changes. -/
theorem linearizes (hr : Reaches serve (start o) s) {h : List (Event τ ι ρ)}
    (hpre : h <+: s.history) : Linearizes serve o h := by
  obtain ⟨m, hm, rfl⟩ := exists_reaches_of_history hr hpre
  exact (inv_of_reaches hm).linearizes

end Steps

end Locked
