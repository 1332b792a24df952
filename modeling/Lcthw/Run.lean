import Mathlib

/-!
# Run — deterministic machines that can fault

A machine is a step function `σ → ι → Except ε σ`: it takes the next input and goes to the next
state or faults, and a faulted run has no further state.

* **`run`**: the state after a list of inputs.
* **`Along P`**: `P` holds of every step the run takes, at the state the step starts in.
* **`Throughout Q`**: `Q` holds in every state the run reaches; **`Sustained Q`** says also that
  the run does not fault.
* **`throughout_iff_along`**, **`sustained_iff_along`**: when a good step is exactly one that meets
  a condition, a run stays good exactly as long as all its steps meet the condition.
-/

namespace Run

variable {σ ι ε : Type*} (step : σ → ι → Except ε σ)

def run (s : σ) (is : List ι) : Except ε σ :=
  is.foldlM step s

@[simp] theorem run_nil (s : σ) : run step s [] = .ok s := rfl

theorem run_cons (s : σ) (i : ι) (is : List ι) :
    run step s (i :: is) = (step s i).bind fun s' => run step s' is := rfl

theorem run_cons_ok {s s' : σ} {i : ι} {is : List ι} :
    run step s (i :: is) = .ok s' ↔ ∃ m, step s i = .ok m ∧ run step m is = .ok s' := by
  rw [run_cons]
  cases step s i <;> simp [Except.bind]

theorem run_append (s : σ) (is js : List ι) :
    run step s (is ++ js) = (run step s is).bind fun s' => run step s' js := by
  induction is generalizing s with
  | nil => rfl
  | cons i is ih =>
    rw [List.cons_append, run_cons, run_cons]
    cases step s i with
    | error e => rfl
    | ok m => exact ih m

theorem run_append_ok {s s' : σ} {is js : List ι} :
    run step s (is ++ js) = .ok s' ↔ ∃ m, run step s is = .ok m ∧ run step m js = .ok s' := by
  rw [run_append]
  cases run step s is <;> simp [Except.bind]

/-- What every step keeps, every run keeps. -/
theorem run_invariant {I : σ → Prop}
    (hstep : ∀ s i s', I s → step s i = .ok s' → I s') {s s' : σ} {is : List ι}
    (hs : I s) (hrun : run step s is = .ok s') : I s' := by
  induction is generalizing s with
  | nil =>
    obtain rfl : s = s' := by simpa using hrun
    exact hs
  | cons i is ih =>
    obtain ⟨m, hm, hrest⟩ := (run_cons_ok step).mp hrun
    exact ih (hstep s i m hs hm) hrest

/-- `P` holds of every step the run takes. -/
def Along (P : σ → ι → Prop) : σ → List ι → Prop
  | _, [] => True
  | s, i :: is => P s i ∧ ∀ s', step s i = .ok s' → Along P s' is

/-- `Q` holds in every state of the run, for as long as it does not fault. -/
def Throughout (Q : σ → Prop) : σ → List ι → Prop
  | s, [] => Q s
  | s, i :: is => Q s ∧ ∀ s', step s i = .ok s' → Throughout Q s' is

/-- The run does not fault, and `Q` holds in every state of it. -/
def Sustained (Q : σ → Prop) : σ → List ι → Prop
  | s, [] => Q s
  | s, i :: is => Q s ∧ ∃ s', step s i = .ok s' ∧ Sustained Q s' is

variable {step}

theorem Throughout.head {Q : σ → Prop} {s : σ} {is : List ι} (h : Throughout step Q s is) : Q s := by
  cases is with
  | nil => exact h
  | cons i is => exact h.1

theorem Sustained.head {Q : σ → Prop} {s : σ} {is : List ι} (h : Sustained step Q s is) : Q s := by
  cases is with
  | nil => exact h
  | cons i is => exact h.1

/-- A property of every state of the run holds in the state it ends in. -/
theorem Throughout.last {Q : σ → Prop} {s s' : σ} {is : List ι} (h : Throughout step Q s is)
    (hrun : run step s is = .ok s') : Q s' := by
  induction is generalizing s with
  | nil =>
    obtain rfl : s = s' := by simpa using hrun
    exact h
  | cons i is ih =>
    obtain ⟨m, hm, hrest⟩ := (run_cons_ok step).mp hrun
    exact ih (h.2 m hm) hrest

/-- A sustained run ends, and in a state with the property. -/
theorem Sustained.last {Q : σ → Prop} {s : σ} {is : List ι} (h : Sustained step Q s is) :
    ∃ s', run step s is = .ok s' ∧ Q s' := by
  induction is generalizing s with
  | nil => exact ⟨s, rfl, h⟩
  | cons i is ih =>
    obtain ⟨-, m, hm, hrest⟩ := h
    obtain ⟨s', hrun, hq⟩ := ih hrest
    exact ⟨s', (run_cons_ok step).mpr ⟨m, hm, hrun⟩, hq⟩

theorem Sustained.mono {Q R : σ → Prop} (hqr : ∀ s, Q s → R s) {s : σ} {is : List ι}
    (h : Sustained step Q s is) : Sustained step R s is := by
  induction is generalizing s with
  | nil => exact hqr s h
  | cons i is ih =>
    obtain ⟨hq, s', hs', hrest⟩ := h
    exact ⟨hqr s hq, s', hs', ih hrest⟩

/-- Two conditions on steps that agree where an invariant holds, along a run whose good steps keep
it. -/
theorem along_iff_along {I : σ → Prop} {P C : σ → ι → Prop} (hpc : ∀ s i, I s → (P s i ↔ C s i))
    (hinv : ∀ s i s', I s → C s i → step s i = .ok s' → I s') {s : σ} (hs : I s) (is : List ι) :
    Along step P s is ↔ Along step C s is := by
  induction is generalizing s with
  | nil => exact Iff.rfl
  | cons i is ih =>
    constructor
    · rintro ⟨hp, hrest⟩
      have hc : C s i := (hpc s i hs).mp hp
      exact ⟨hc, fun s' hs' => (ih (hinv s i s' hs hc hs')).mp (hrest s' hs')⟩
    · rintro ⟨hc, hrest⟩
      exact ⟨(hpc s i hs).mpr hc, fun s' hs' => (ih (hinv s i s' hs hc hs')).mpr (hrest s' hs')⟩

/-- A run is sustained as long as its steps lead from good states to good states. -/
theorem sustained_of_along {Q : σ → Prop} {C : σ → ι → Prop}
    (hstep : ∀ s i, Q s → C s i → ∃ s', step s i = .ok s' ∧ Q s') {s : σ} {is : List ι} (hs : Q s)
    (hc : Along step C s is) : Sustained step Q s is := by
  induction is generalizing s with
  | nil => exact hs
  | cons i is ih =>
    obtain ⟨hci, hrest⟩ := hc
    obtain ⟨s', hs', hq⟩ := hstep s i hs hci
    exact ⟨hs, s', hs', ih hq (hrest s' hs')⟩

/-- The steps of a sustained run meet a condition without which no step leads to a good state. -/
theorem along_of_sustained {I Q : σ → Prop} {A C : σ → ι → Prop}
    (hinv : ∀ s i s', I s → A s i → C s i → step s i = .ok s' → I s')
    (hstep : ∀ s i s', I s → A s i → step s i = .ok s' → Q s' → C s i) {s : σ} {is : List ι}
    (hs : I s) (ha : Along step A s is) (hq : Sustained step Q s is) : Along step C s is := by
  induction is generalizing s with
  | nil => trivial
  | cons i is ih =>
    obtain ⟨hai, halong⟩ := ha
    obtain ⟨-, s', hs', hrest⟩ := hq
    have hci : C s i := hstep s i s' hs hai hs' hrest.head
    refine ⟨hci, fun s'' hs'' => ?_⟩
    obtain rfl : s' = s'' := Except.ok.inj (hs'.symm.trans hs'')
    exact ih (hinv s i s' hs hai hci hs') (halong s' hs') hrest

/-- **Good runs are the runs of good steps.** `I` is what every allowed step keeps, `A` says
which steps are allowed, and `C` is the condition under which an allowed step from a good state
leads to a good state; a step that faults is expected to meet it. -/
theorem throughout_iff_along {I Q : σ → Prop} {A C : σ → ι → Prop}
    (hinv : ∀ s i s', I s → A s i → step s i = .ok s' → I s')
    (hgood : ∀ s i s', I s → Q s → A s i → step s i = .ok s' → (Q s' ↔ C s i))
    (hfault : ∀ s i e, I s → Q s → A s i → step s i = .error e → C s i)
    {s : σ} {is : List ι} (hs : I s) (hq : Q s) (ha : Along step A s is) :
    Throughout step Q s is ↔ Along step C s is := by
  induction is generalizing s with
  | nil => exact ⟨fun _ => trivial, fun _ => hq⟩
  | cons i is ih =>
    obtain ⟨hai, halong⟩ := ha
    constructor
    · rintro ⟨-, hrest⟩
      refine ⟨?_, fun s' hs' => ?_⟩
      · cases hstep : step s i with
        | error e => exact hfault s i e hs hq hai hstep
        | ok s' => exact (hgood s i s' hs hq hai hstep).mp (hrest s' hstep).head
      · have hinv' := hinv s i s' hs hai hs'
        exact (ih hinv' (hrest s' hs').head (halong s' hs')).mp (hrest s' hs')
    · rintro ⟨hci, hcalong⟩
      refine ⟨hq, fun s' hs' => ?_⟩
      have hinv' := hinv s i s' hs hai hs'
      have hq' : Q s' := (hgood s i s' hs hq hai hs').mpr hci
      exact (ih hinv' hq' (halong s' hs')).mpr (hcalong s' hs')

/-- What every allowed step keeps, every run of allowed steps keeps. -/
theorem Along.invariant {I : σ → Prop} {A : σ → ι → Prop}
    (hinv : ∀ s i s', I s → A s i → step s i = .ok s' → I s') {s s' : σ} {is : List ι}
    (ha : Along step A s is) (hs : I s) (hrun : run step s is = .ok s') : I s' := by
  induction is generalizing s with
  | nil =>
    obtain rfl : s = s' := by simpa using hrun
    exact hs
  | cons i is ih =>
    obtain ⟨m, hm, hrest⟩ := (run_cons_ok step).mp hrun
    exact ih (ha.2 m hm) (hinv s i m hs ha.1 hm) hrest

/-- What holds of every input holds along the run. -/
theorem along_of_forall {P : ι → Prop} {is : List ι} (h : ∀ i ∈ is, P i) (s : σ) :
    Along step (fun _ i => P i) s is := by
  induction is generalizing s with
  | nil => trivial
  | cons i is ih =>
    obtain ⟨hi, his⟩ := List.forall_mem_cons.mp h
    exact ⟨hi, fun s' _ => ih his s'⟩

theorem along_true (s : σ) (is : List ι) : Along step (fun _ _ => True) s is :=
  along_of_forall (fun _ _ => trivial) s

/-- A run is sustained when every step from a good state leads to one. -/
theorem sustained_of_step {Q : σ → Prop} (hstep : ∀ s i, Q s → ∃ s', step s i = .ok s' ∧ Q s')
    {s : σ} (hs : Q s) (is : List ι) : Sustained step Q s is :=
  sustained_of_along (fun s i hq _ => hstep s i hq) hs (along_true s is)

/-- The same for runs that must not fault either. -/
theorem sustained_iff_along {I Q : σ → Prop} {A C : σ → ι → Prop}
    (hinv : ∀ s i s', I s → A s i → step s i = .ok s' → I s')
    (hgood : ∀ s i, I s → Q s → A s i → ((∃ s', step s i = .ok s' ∧ Q s') ↔ C s i))
    {s : σ} {is : List ι} (hs : I s) (hq : Q s) (ha : Along step A s is) :
    Sustained step Q s is ↔ Along step C s is := by
  induction is generalizing s with
  | nil => exact ⟨fun _ => trivial, fun _ => hq⟩
  | cons i is ih =>
    obtain ⟨hai, halong⟩ := ha
    constructor
    · rintro ⟨-, s', hs', hrest⟩
      refine ⟨(hgood s i hs hq hai).mp ⟨s', hs', hrest.head⟩, fun s'' hs'' => ?_⟩
      obtain rfl : s' = s'' := Except.ok.inj (hs'.symm.trans hs'')
      exact (ih (hinv s i s' hs hai hs') hrest.head (halong s' hs')).mp hrest
    · rintro ⟨hci, hcalong⟩
      obtain ⟨s', hs', hq'⟩ := (hgood s i hs hq hai).mpr hci
      exact ⟨hq, s', hs', (ih (hinv s i s' hs hai hs') hq' (halong s' hs')).mpr (hcalong s' hs')⟩

end Run
