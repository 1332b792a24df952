import Mathlib

/-!
# Traced — runs that leave a trace

A `Traced` run ends in a value or a fault, and carries the events up to that point: a fault ends
the run but not the record of what came before it. `result_bind` and `events_bind` take a composed
run apart; `result` alone is a homomorphism to `Except`, so facts about values need no events.
-/

structure Traced (ε ω α : Type) where
  events : List ω
  result : Except ε α

namespace Traced

variable {ε ω α β : Type}

instance : Monad (Traced ε ω) where
  pure a := { events := [], result := .ok a }
  bind m f :=
    match m.result with
    | .error e => { events := m.events, result := .error e }
    | .ok a => { events := m.events ++ (f a).events, result := (f a).result }

/-- Record an event. -/
def emit (w : ω) : Traced ε ω Unit :=
  { events := [w], result := .ok () }

/-- A step without events. -/
def lift (x : Except ε α) : Traced ε ω α :=
  { events := [], result := x }

instance : MonadLift (Except ε) (Traced ε ω) where
  monadLift := lift

@[simp] theorem result_pure (a : α) : (pure a : Traced ε ω α).result = .ok a := rfl

@[simp] theorem events_pure (a : α) : (pure a : Traced ε ω α).events = [] := rfl

@[simp] theorem result_emit (w : ω) : (emit w : Traced ε ω Unit).result = .ok () := rfl

@[simp] theorem events_emit (w : ω) : (emit w : Traced ε ω Unit).events = [w] := rfl

@[simp] theorem result_lift (x : Except ε α) : (liftM x : Traced ε ω α).result = x := rfl

@[simp] theorem events_lift (x : Except ε α) : (liftM x : Traced ε ω α).events = [] := rfl

/-- A step that succeeds without events. -/
theorem ok_bind (a : α) (f : α → Traced ε ω β) : (liftM (Except.ok a : Except ε α) >>= f) = f a := rfl

@[simp] theorem result_bind (m : Traced ε ω α) (f : α → Traced ε ω β) :
    (m >>= f).result = m.result >>= fun a => (f a).result := by
  simp only [bind]
  cases m.result <;> rfl

theorem events_bind (m : Traced ε ω α) (f : α → Traced ε ω β) :
    (m >>= f).events = m.events ++ match m.result with
      | .error _ => []
      | .ok a => (f a).events := by
  simp only [bind]
  cases m.result <;> simp

@[simp] theorem events_bind_ok {m : Traced ε ω α} {a : α} (h : m.result = .ok a)
    (f : α → Traced ε ω β) : (m >>= f).events = m.events ++ (f a).events := by
  rw [events_bind, h]

@[simp] theorem events_bind_error {m : Traced ε ω α} {e : ε} (h : m.result = .error e)
    (f : α → Traced ε ω β) : (m >>= f).events = m.events := by
  rw [events_bind, h, List.append_nil]

end Traced
