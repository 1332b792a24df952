import Lcthw.Locked
import Lcthw.Server.Connection
import Lcthw.Server.Listing

/-!
# Lcthw — the threads of the statistics server (`stats_server.c`)

`main` starts `QUEUE_MAX` threads, and each of them serves one connection: it reads a request,
processes it between `pthread_mutex_lock` and `pthread_mutex_unlock`, and sends the reply. The
threads share the root and the lock; a ring buffer is a thread's own. The root is read when
`process_request` is called and written when it returns, as two steps, and any thread may take the
next step. `errno` is `EPIPE` only after a `send` that failed so.

* **`step`**: one step of one thread, with what the kernel answers to it.
* **`step_refines`**: seen from the lock and the root, it is a step of `Locked` or none.
* **`threads_linearize`**: so the replies are those of requests processed one after the other.
* **`run_commands`**: so every root the threads reach is one that single requests reach.
* **`requests_relayed`**: the requests of a thread are the bytes of its connection.
* **`exists_locks`**: a thread that waits for the lock can get it, unless the server ends first.
-/

namespace Lcthw.Server

open RingBuffer

abbrev QUEUE_MAX : ℕ := 10

abbrev Thread : Type := Fin QUEUE_MAX

/-- `bdata(data)`: the bytes of a C string, or NULL. -/
abbrev Request : Type := Option (List CChar)

/-! ## The code -/

/-- Where a thread is in `client_process`. -/
inductive Point where
  | accepting
  | reading
  | locking (data : Request)
  | entering (data : Request)
  /-- in `process_request`, which has read the root -/
  | processing (data : Request) (root : State)
  | unlocking (respond : Reply)
  | sending (respond : Reply)
  /-- after `close(new_sock)` -/
  | closed

structure Client where
  point : Point
  buffer : RingBuffer

structure Clients where
  root : State
  lock : Option Thread
  client : Thread → Client
  /-- the requests received, the returns of `process_request` and the replies sent -/
  trace : List (Locked.Event Thread Request Reply)

/-- A step of a thread, with the answers of the kernel to its system calls. -/
inductive Action where
  | accept (sock : Bool)
  | read (first second : Option (List CChar))
  | lock
  | enter
  | leave
  | unlock
  | send (epipe : Bool)
  deriving DecidableEq

/-- Why a step does not lead to a state. -/
inductive Halt where
  /-- the thread is not at this step, or the lock is not free -/
  | blocked
  | crash (c : Crash)
  /-- `exit(-1)` -/
  | exit

/-- `process_request` on the root of the server. -/
def serve (env : Env) (s : State) (data : Request) : Except Fault (State × Reply) :=
  (processRequest env s data).result.map Prod.swap

namespace Clients

/-- The threads at their start; `heap` is what lies around the block of each buffer. -/
def boot (heap : Thread → ℤ → CChar) : Clients :=
  { root := init
    lock := none
    client := fun t => { point := .accepting, buffer := create (heap t) BUFFER_SIZE }
    trace := [] }

/-- The thread `t` goes on to `point`. -/
def move (s : Clients) (t : Thread) (point : Point) : Clients :=
  { s with client := Function.update s.client t { s.client t with point } }

/-- `client_process`, one step at a time. -/
def step (env : Env) (s : Clients) (x : Thread × Action) : Except Halt Clients :=
  let t := x.1
  match (s.client t).point, x.2 with
  | .accepting, .accept sock => if sock then .ok (s.move t .reading) else .error .exit
  | .reading, .read first second =>
    match receive (s.client t).buffer first second with
    | .ok r => .ok { s with
        client := Function.update s.client t { point := .locking r.data, buffer := r.ring }
        trace := s.trace ++ [.invoke t r.data] }
    | .error c => .error (.crash c)
  | .locking data, .lock =>
    if s.lock = none then .ok { s.move t (.entering data) with lock := some t } else .error .blocked
  | .entering data, .enter => .ok (s.move t (.processing data s.root))
  | .processing data root, .leave =>
    match serve env root data with
    | .ok (root, respond) => .ok { s.move t (.unlocking respond) with
        root
        trace := s.trace ++ [.commit t data respond] }
    | .error f => .error (.crash (.fault f))
  | .unlocking respond, .unlock => .ok { s.move t (.sending respond) with lock := none }
  | .sending respond, .send epipe => .ok { s.move t (if epipe then .closed else .reading) with
      trace := s.trace ++ [.respond t respond] }
  | _, _ => .error .blocked

/-! ## The lock and the root

What is shared is an object behind one lock, and a thread is one of its clients. Each point of
`client_process` is a phase of that client, and each step of a thread is one of its steps or changes
nothing that is shared. -/

end Clients

def Point.phase : Point → Locked.Phase State Request Reply
  | .accepting | .reading | .closed => .idle
  | .locking data => .waiting data
  | .entering data => .entered data
  | .processing data root => .working data root
  | .unlocking respond => .served respond
  | .sending respond => .answering respond

namespace Clients

/-- What the threads share, and where each of them is with its request. -/
def shared (s : Clients) : Locked.System Thread State Request Reply :=
  { object := s.root
    lock := s.lock
    phase := Point.phase ∘ Client.point ∘ s.client
    history := s.trace }

variable {env : Env} {s s' : Clients} {t : Thread} {x : Thread × Action}

/-- What is shared after a step of `t` alone. -/
theorem shared_eq {c : Client} (h : s'.client = Function.update s.client t c) :
    s'.shared =
      { object := s'.root
        lock := s'.lock
        phase := Function.update s.shared.phase t c.point.phase
        history := s'.trace } := by
  unfold shared
  rw [h, Function.comp_update, Function.comp_update]

theorem refines {c : Client} (hclient : s'.client = Function.update s.client t c)
    (h : Locked.Step (serve env) s.shared
      { object := s'.root
        lock := s'.lock
        phase := Function.update s.shared.phase t c.point.phase
        history := s'.trace }) : Locked.Step (serve env) s.shared s'.shared := by
  rw [shared_eq hclient]
  exact h

/-- **Every step of a thread is a step of a client of one object behind one lock**, or one that
does not concern the others. -/
theorem step_refines (h : step env s x = .ok s') :
    s'.shared = s.shared ∨ Locked.Step (serve env) s.shared s'.shared := by
  obtain ⟨t, a⟩ := x
  have hphase : s.shared.phase t = (s.client t).point.phase := rfl
  cases hp : (s.client t).point with
  | accepting =>
    cases a <;> simp only [step, hp, reduceCtorEq] at h
    split at h
    · cases h
      rw [hp] at hphase
      refine .inl ((shared_eq rfl).trans ?_)
      rw [Function.update_eq_self_iff.mpr hphase.symm]
      rfl
    · cases h
  | reading =>
    cases a <;> simp only [step, hp, reduceCtorEq] at h
    split at h
    · next r _ =>
      cases h
      exact .inr (refines rfl (.invoke r.data (hphase.trans (by rw [hp]; rfl))))
    · cases h
  -- the lock is free, and the thread takes it
  | locking data =>
    cases a <;> simp only [step, hp, reduceCtorEq] at h
    split at h
    · next hfree =>
      cases h
      exact .inr (refines rfl (.acquire (hphase.trans (by rw [hp]; rfl)) hfree))
    · cases h
  | entering data =>
    -- from here on the thread works on the root that it has read
    cases a <;> simp only [step, hp, reduceCtorEq] at h
    cases h
    exact .inr (refines rfl (.fetch (hphase.trans (by rw [hp]; rfl))))
  | processing data root =>
    cases a <;> simp only [step, hp, reduceCtorEq] at h
    split at h
    · next root' respond hserve =>
      cases h
      -- `process_request` has returned, and its root is the one of the server
      exact .inr (refines rfl (.store (hphase.trans (by rw [hp]; rfl)) hserve))
    · cases h
  | unlocking respond =>
    cases a <;> simp only [step, hp, reduceCtorEq] at h
    cases h
    exact .inr (refines rfl (.release (hphase.trans (by rw [hp]; rfl))))
  | sending respond =>
    cases a with
    | send epipe =>
      simp only [step, hp] at h
      cases h
      -- with the reply sent the thread has no request, whether it goes on or not
      have hidle : (if epipe then Point.closed else .reading).phase = .idle := by
        cases epipe <;> rfl
      refine .inr (refines rfl ?_)
      show Locked.Step _ _ { s.shared with phase := Function.update _ _ (Point.phase _), history := _ }
      rw [hidle]
      exact .respond (hphase.trans (by rw [hp]; rfl))
    | _ => simp only [step, hp, reduceCtorEq] at h
  | closed =>
    cases a <;> simp only [step, hp, reduceCtorEq] at h

/-! ## Whatever the order of the steps

So what is known of the object with one lock is known of the server, without a look at `client_process`. -/

theorem reaches_of_run {xs : List (Thread × Action)} (h : Run.run (step env) s xs = .ok s') :
    Locked.Reaches (serve env) s.shared s'.shared := by
  induction xs generalizing s with
  | nil =>
    obtain rfl : s = s' := by simpa using h
    exact .refl
  | cons x xs ih =>
    obtain ⟨m, hm, hrest⟩ := (Run.run_cons_ok _).mp h
    rcases step_refines hm with heq | hstep
    · exact heq ▸ ih hrest
    · exact .head hstep (ih hrest)

/-- **The server is linearizable.** Whatever the order in which the threads take their steps, the
replies are those of the requests processed one after the other; a client's requests are processed
in the order it made them, one at a time; and a request that was answered before another came in is
processed before it. -/
theorem threads_linearize {heap : Thread → ℤ → CChar} {xs : List (Thread × Action)}
    (h : Run.run (step env) (boot heap) xs = .ok s)
    {trace : List (Locked.Event Thread Request Reply)} (hpre : trace <+: s.trace) :
    Locked.Linearizes (serve env) init trace :=
  Locked.linearizes (reaches_of_run h) hpre

/-- Two clients, one of which comes in between the request of the other and its turn. -/
def twoClients : List (Thread × Action) :=
  [(0, .accept true), (1, .accept true), (0, .read (some (cstr "create x")) none),
    (1, .read (some (cstr "read x")) none), (1, .lock), (1, .enter), (1, .leave), (1, .unlock),
    (0, .lock), (1, .send false), (0, .enter), (0, .leave), (0, .unlock), (0, .send true)]

theorem threads_linearize_two :
    ∃ s, Run.run (step (Env.zeroFilled digit)) (boot fun _ _ => 0) twoClients = .ok s ∧
      s.trace.length = 6 ∧ Locked.Linearizes (serve (Env.zeroFilled digit)) init s.trace :=
  ⟨_, rfl, by decide, threads_linearize (show Run.run (step (Env.zeroFilled digit))
    (boot fun _ _ => 0) twoClients = .ok _ from rfl) List.prefix_rfl⟩

theorem inv_of_run {heap : Thread → ℤ → CChar} {xs : List (Thread × Action)}
    (h : Run.run (step env) (boot heap) xs = .ok s) : Locked.Inv (serve env) init s.shared :=
  Locked.inv_of_reaches (reaches_of_run h)

/-! ## The roots the threads reach

The commands that were processed are a run of single requests, in the order in which they had the lock.
What every single request keeps is true of the roots the threads reach. -/

/-- Without a request nothing changes. -/
theorem eq_of_serve_none {root root' : State} {respond : Reply}
    (h : serve env root none = .ok (root', respond)) : root' = root := by
  obtain ⟨⟨rs, root''⟩, hres, hswap⟩ := map_eq_ok.mp h
  obtain ⟨rfl, rfl⟩ := Prod.mk.inj hswap
  rw [processRequest, Traced.result_bind] at hres
  obtain ⟨_, -, hpure⟩ := bind_eq_ok.mp hres
  cases hpure
  rfl

theorem step_of_serve {root root' : State} {c : List CChar} {respond : Reply}
    (h : serve env root (some c) = .ok (root', respond)) : Server.step env root c = .ok root' := by
  obtain ⟨⟨rs, root''⟩, hres, hswap⟩ := map_eq_ok.mp h
  obtain ⟨rfl, rfl⟩ := Prod.mk.inj hswap
  rw [Server.step, hres]
  rfl

/-- The commands that were processed, in their order. -/
def commands (trace : List (Locked.Event Thread Request Reply)) : List (List CChar) :=
  (Locked.order trace).filterMap Prod.fst

/-- Commands that are carried out one after the other are a run of the server. -/
theorem run_of_replays {root root' : State} {cs : List (Request × Reply)}
    (h : Locked.Replays (serve env) root cs root') :
    Run.run (Server.step env) root (cs.filterMap Prod.fst) = .ok root' := by
  induction cs generalizing root with
  | nil =>
    obtain rfl : root = root' := h
    rfl
  | cons c cs ih =>
    obtain ⟨m, hm, hrest⟩ := h
    obtain ⟨data, respond⟩ := c
    cases data with
    | none =>
      obtain rfl : m = root := eq_of_serve_none hm
      exact ih hrest
    | some c => exact (Run.run_cons_ok _).mpr ⟨m, step_of_serve hm, ih hrest⟩

/-- **What the threads reach together, single requests reach**: the root is the one after the
commands processed, one after the other. -/
theorem run_commands {heap : Thread → ℤ → CChar} {xs : List (Thread × Action)}
    (h : Run.run (step env) (boot heap) xs = .ok s) :
    Run.run (Server.step env) init (commands s.trace) = .ok s.root :=
  run_of_replays (inv_of_run h).replays

/-- The packets stay sound, and under their own urls, whoever works on the tree. -/
theorem sound_and_filed {atof : List CChar → ℚ} {heap : Thread → ℤ → CChar}
    {xs : List (Thread × Action)}
    (h : Run.run (step (Env.zeroFilled atof)) (boot heap) xs = .ok s) :
    s.root.root.Every Sound ∧ Filed s.root.root :=
  ⟨sound_run (run_commands h), filed_run (run_commands h)⟩

theorem sound_and_filed_two :
    ∃ s, Run.run (step (Env.zeroFilled digit)) (boot fun _ _ => 0) twoClients = .ok s ∧
      s.root.root.Every Sound ∧ Filed s.root.root :=
  ⟨_, rfl, sound_and_filed (show Run.run (step (Env.zeroFilled digit)) (boot fun _ _ => 0)
    twoClients = .ok _ from rfl)⟩

/-! ## The bytes of each connection

A buffer belongs to one thread, and only its own rounds touch it. So what one connection relays by
itself is what it relays among the others. -/

@[simp] theorem buffer_move (s : Clients) (t u : Thread) (point : Point) :
    ((s.move u point).client t).buffer = (s.client t).buffer := by
  by_cases htu : t = u
  · subst htu
    simp [move]
  · simp [move, htu]

/-- The rounds of one thread, with the answers of the kernel to its system calls. -/
def round (t : Thread) (x : Thread × Action) :
    Option (Option (List CChar) × Option (List CChar)) :=
  match x.2 with
  | .read first second => if x.1 = t then some (first, second) else none
  | _ => none

/-- The connection `c` is what the thread `t` has received up to the state `s`. -/
def Carries (s : Clients) (t : Thread) (c : Connection) : Prop :=
  c.ring = (s.client t).buffer ∧ c.requests = Locked.requests t s.trace

/-- Nothing but a round changes a buffer or makes a request. -/
theorem step_of_no_round {u : Thread} {a : Action} (h : step env s (u, a) = .ok s')
    (ha : ∀ first second, a ≠ .read first second) :
    (s'.client t).buffer = (s.client t).buffer ∧
      Locked.requests t s'.trace = Locked.requests t s.trace := by
  cases hp : (s.client u).point with
  | accepting =>
    cases a <;> simp only [step, hp, reduceCtorEq] at h
    split at h <;> cases h
    exact ⟨buffer_move .., rfl⟩
  | reading =>
    cases a <;> simp only [step, hp, reduceCtorEq] at h
    -- this step is a round
    next first second => exact absurd rfl (ha first second)
  | locking data =>
    cases a <;> simp only [step, hp, reduceCtorEq] at h
    split at h <;> cases h
    exact ⟨buffer_move .., rfl⟩
  | entering data =>
    cases a <;> simp only [step, hp, reduceCtorEq] at h
    cases h
    exact ⟨buffer_move .., rfl⟩
  | processing data root =>
    cases a <;> simp only [step, hp, reduceCtorEq] at h
    split at h <;> cases h
    exact ⟨buffer_move .., by simp [Locked.Event.request]⟩
  | unlocking respond =>
    cases a <;> simp only [step, hp, reduceCtorEq] at h
    cases h
    exact ⟨buffer_move .., rfl⟩
  | sending respond =>
    cases a <;> simp only [step, hp, reduceCtorEq] at h
    cases h
    exact ⟨buffer_move .., by simp [Locked.Event.request]⟩
  | closed => cases a <;> simp only [step, hp, reduceCtorEq] at h

/-- A round of `u` that leads on, and what it leads to. -/
theorem step_of_round {u : Thread} {first second : Option (List CChar)}
    (h : step env s (u, .read first second) = .ok s') :
    ∃ r, receive (s.client u).buffer first second = .ok r ∧
      s' = { s with
        client := Function.update s.client u { point := .locking r.data, buffer := r.ring }
        trace := s.trace ++ [.invoke u r.data] } := by
  cases hp : (s.client u).point with
  | reading =>
    simp only [step, hp] at h
    split at h
    · next r hr =>
      cases h
      exact ⟨r, hr, rfl⟩
    · cases h
  | accepting | locking | entering | processing | unlocking | sending | closed =>
    simp only [step, hp, reduceCtorEq] at h

/-- **One thread of the server is one connection**: what another thread does is nothing to it. -/
theorem Carries.step {c : Connection} (hc : s.Carries t c) (h : step env s x = .ok s') :
    ∃ c', Run.run Connection.step c (round t x).toList = .ok c' ∧ s'.Carries t c' := by
  obtain ⟨u, a⟩ := x
  obtain ⟨hring, hrequests⟩ := hc
  by_cases ha : ∃ first second, a = .read first second
  · obtain ⟨first, second, rfl⟩ := ha
    obtain ⟨r, hr, rfl⟩ := step_of_round h
    -- a round of the thread itself is one of the connection, and any other is none
    by_cases hut : u = t
    · subst hut
      have hstep : c.step (first, second) = .ok
          { ring := r.ring
            requests := c.requests ++ [r.data]
            chunks := c.chunks ++ [r.received] } := by
        rw [Connection.step, hring, hr]
        rfl
      have hround : (round u (u, .read first second)).toList = [(first, second)] := by simp [round]
      refine ⟨_, by rw [hround, Run.run_cons_ok]; exact ⟨_, hstep, rfl⟩, ?_, ?_⟩
      · simp
      · simp [hrequests, Locked.Event.request]
    · refine ⟨c, by simp [round, hut], ?_, ?_⟩
      · simpa [Function.update_of_ne (Ne.symm hut)] using hring
      · simpa [Locked.Event.request, hut] using hrequests
  · -- no round at all
    have hno : ∀ first second, a ≠ .read first second := fun f g hfg => ha ⟨f, g, hfg⟩
    obtain ⟨hbuffer, hreq⟩ := step_of_no_round (t := t) h hno
    have hround : round t (u, a) = none := by
      unfold round
      split
      · next f g hfg => exact absurd hfg (hno f g)
      · rfl
    exact ⟨c, by rw [hround]; rfl, hring.trans hbuffer.symm, hrequests.trans hreq.symm⟩

/-- The rounds of one thread. -/
def rounds (t : Thread) (xs : List (Thread × Action)) :
    List (Option (List CChar) × Option (List CChar)) :=
  xs.filterMap (round t)

theorem Carries.run {c : Connection} {xs : List (Thread × Action)} (hc : s.Carries t c)
    (h : Run.run (Clients.step env) s xs = .ok s') :
    ∃ c', Run.run Connection.step c (rounds t xs) = .ok c' ∧ s'.Carries t c' := by
  induction xs generalizing s c with
  | nil =>
    obtain rfl : s = s' := by simpa using h
    exact ⟨c, rfl, hc⟩
  | cons x xs ih =>
    obtain ⟨m, hm, hrest⟩ := (Run.run_cons_ok _).mp h
    obtain ⟨c₁, hc₁, hcarries⟩ := hc.step hm
    obtain ⟨c', hc', hcarries'⟩ := ih hcarries hrest
    have hrounds : rounds t (x :: xs) = (round t x).toList ++ rounds t xs := by
      cases hx : round t x <;> simp [rounds, hx]
    exact ⟨c', by rw [hrounds, Run.run_append_ok]; exact ⟨c₁, hc₁, hc'⟩, hcarries'⟩

/-- **The requests of a thread are the bytes of its connection**: as long as its system calls do not
fail, each of them is what one round received, whatever the other threads do. -/
theorem requests_relayed {heap : Thread → ℤ → CChar} {xs : List (Thread × Action)}
    (h : Run.run (step env) (boot heap) xs = .ok s)
    (ha : Run.Along Connection.step (fun c a => Answered BUFFER_SIZE c.offset a.1 a.2)
      (Connection.accept (heap t)) (rounds t xs)) :
    ∃ c, Run.run Connection.step (Connection.accept (heap t)) (rounds t xs) = .ok c ∧
      c.Relays ∧ Locked.requests t s.trace = c.chunks.map request := by
  have hboot : (boot heap).Carries t (Connection.accept (heap t)) := ⟨rfl, rfl⟩
  obtain ⟨c, hc, hcarries⟩ := hboot.run h
  have hrelays : c.Relays := ha.invariant (fun _ _ _ hc ha h => Connection.relays_of_step hc ha h)
    (Connection.relays_accept (heap t)) hc
  exact ⟨c, hc, hrelays, hcarries.2.symm.trans hrelays.requests⟩

theorem requests_relayed_two :
    ∃ s, Run.run (step (Env.zeroFilled digit)) (boot fun _ _ => 0) twoClients = .ok s ∧
      ∃ c, Run.run Connection.step (Connection.accept fun _ => 0) (rounds 0 twoClients) = .ok c ∧
        c.Relays ∧ Locked.requests 0 s.trace = c.chunks.map request :=
  ⟨_, rfl, requests_relayed (show Run.run (step (Env.zeroFilled digit)) (boot fun _ _ => 0)
    twoClients = .ok _ from rfl) ⟨⟨_, rfl, fun h => absurd h (by decide)⟩, fun _ _ => trivial⟩⟩

/-! ## The lock can be had

The owner of the lock is between `lock` and `unlock`, where nothing waits for another thread. Its steps
bring it to `unlock`, unless the server ends on the way, and from there the waiting thread goes on. -/

/-- The thread `t` can get the lock by steps of its owner and its own. -/
def Obtains (env : Env) (s : Clients) (t : Thread) : Prop :=
  ∃ xs, (∀ x ∈ xs, s.lock = some x.1 ∨ x = (t, .lock)) ∧
    ((∃ s', Run.run (step env) s xs = .ok s' ∧ s'.lock = some t) ∨
      ∃ c, Run.run (step env) s xs = .error (.crash c))

variable {data : Request}

theorem obtains_of_free (ht : (s.client t).point = .locking data) (hfree : s.lock = none) :
    Obtains env s t := by
  refine ⟨[(t, .lock)], by simp, .inl ?_⟩
  simp [Run.run_cons_ok, step, ht, hfree]

/-- A step of the owner that leaves the waiting thread where it is. -/
theorem Obtains.step {u : Thread} {a : Action} {m : Clients} (hlock : s.lock = some u)
    (hstep : step env s (u, a) = .ok m) (hm : m.lock = some u ∨ m.lock = none)
    (h : Obtains env m t) : Obtains env s t := by
  obtain ⟨xs, hxs, hrun⟩ := h
  refine ⟨(u, a) :: xs, fun x hx => ?_, ?_⟩
  · rcases List.mem_cons.mp hx with rfl | hx
    · exact .inl hlock
    · refine (hxs x hx).imp_left fun hx => ?_
      rcases hm with hm | hm
      · rw [hlock, ← hm, hx]
      · rw [hm] at hx
        cases hx
  · rw [Run.run_cons, hstep]
    exact hrun

theorem client_move_self (s : Clients) (u : Thread) (point : Point) :
    ((s.move u point).client u).point = point := by
  simp [move]

theorem client_move_of_ne (s : Clients) {u : Thread} (htu : t ≠ u) (point : Point) :
    (s.move u point).client t = s.client t := by
  simp [move, htu]

section Owner

variable {u : Thread} (hlock : s.lock = some u) (ht : (s.client t).point = .locking data)

include hlock ht

theorem obtains_of_unlocking {respond : Reply} (hu : (s.client u).point = .unlocking respond) :
    Obtains env s t := by
  have htu : t ≠ u := by
    rintro rfl
    rw [ht] at hu
    cases hu
  have hstep : step env s (u, .unlock) = .ok { s.move u (.sending respond) with lock := none } := by
    simp only [step, hu]
  have hwait : ((s.move u (.sending respond)).client t).point = .locking data := by
    rwa [client_move_of_ne s htu]
  exact Obtains.step hlock hstep (.inr rfl) (obtains_of_free hwait rfl)

/-- The owner has the root in its hands, and `process_request` returns or ends the server. -/
theorem obtains_of_processing {data' : Request} {root : State}
    (hu : (s.client u).point = .processing data' root) : Obtains env s t := by
  have htu : t ≠ u := by
    rintro rfl
    rw [ht] at hu
    cases hu
  cases hserve : serve env root data' with
  | error f =>
    refine ⟨[(u, .leave)], by simp [hlock], .inr ⟨.fault f, ?_⟩⟩
    rw [Run.run_cons, step]
    simp only [hu, hserve]
    rfl
  | ok r =>
    have hstep : step env s (u, .leave) = .ok { s.move u (.unlocking r.2) with
        root := r.1
        trace := s.trace ++ [.commit u data' r.2] } := by
      simp only [step, hu, hserve]
    have hwait : ((s.move u (.unlocking r.2)).client t).point = .locking data := by
      rwa [client_move_of_ne s htu]
    refine Obtains.step hlock hstep (.inl hlock) ?_
    exact obtains_of_unlocking hlock hwait (client_move_self s u (.unlocking r.2))

theorem obtains_of_entering {data' : Request} (hu : (s.client u).point = .entering data') :
    Obtains env s t := by
  have htu : t ≠ u := by
    rintro rfl
    rw [ht] at hu
    cases hu
  have hstep : step env s (u, .enter) = .ok (s.move u (.processing data' s.root)) := by
    simp only [step, hu]
  have hwait : ((s.move u (.processing data' s.root)).client t).point = .locking data := by
    rwa [client_move_of_ne s htu]
  refine Obtains.step hlock hstep (.inl hlock) ?_
  exact obtains_of_processing hlock hwait (client_move_self s u (.processing data' s.root))

end Owner

/-- **No thread waits for the lock in vain**: in every state the threads reach, the owner of the lock
can go on without any other thread until the lock is free, unless the server ends there. -/
theorem exists_locks {heap : Thread → ℤ → CChar} {xs : List (Thread × Action)}
    (h : Run.run (step env) (boot heap) xs = .ok s) (ht : (s.client t).point = .locking data) :
    Obtains env s t := by
  cases hlock : s.lock with
  | none => exact obtains_of_free ht hlock
  | some u =>
    have hholds : (s.client u).point.phase.Holds := ((inv_of_run h).turn u).owner.mpr hlock
    cases hu : (s.client u).point with
    | accepting | reading | locking | sending | closed =>
      rw [hu] at hholds
      exact hholds.elim
    | entering data' => exact obtains_of_entering hlock ht hu
    | processing data' root => exact obtains_of_processing hlock ht hu
    | unlocking respond => exact obtains_of_unlocking hlock ht hu

theorem exists_locks_two :
    ∃ s, Run.run (step (Env.zeroFilled digit)) (boot fun _ _ => 0) (twoClients.take 6) = .ok s ∧
      s.lock = some 1 ∧ Obtains (Env.zeroFilled digit) s 0 :=
  ⟨_, rfl, rfl, exists_locks (show Run.run (step (Env.zeroFilled digit)) (boot fun _ _ => 0)
    (twoClients.take 6) = .ok _ from rfl) (show _ = Point.locking (some (cstr "create x")) from rfl)⟩

end Clients

end Lcthw.Server
