import Mathlib.Data.List.Basic

/-! Runs of a labelled partial step function. An action carries every choice
that the scheduler or the environment makes, so a run is determined by its
list of actions and can be evaluated. Invariants are carried along a run under
a side condition on each step; the same rule serves unconditional invariants,
with the condition `True`. -/
namespace UdpFileProxy.Lib.Run

variable {State Action State' : Type*}

/-- Execute the actions in order; `none` as soon as one of them is disabled. -/
def exec (step : State → Action → Option State) : State → List Action → Option State
  | state, [] => some state
  | state, action :: rest =>
      match step state action with
      | none => none
      | some next => exec step next rest

/-- Every step of the run is taken in a state that meets `condition`. -/
def Meets (step : State → Action → Option State) (condition : State → Action → Prop) :
    State → List Action → Prop
  | _, [] => True
  | state, action :: rest =>
      condition state action ∧ ∀ next ∈ step state action, Meets step condition next rest

instance decidableMeets {step : State → Action → Option State} {condition : State → Action → Prop}
    [∀ state action, Decidable (condition state action)] :
    ∀ state actions, Decidable (Meets step condition state actions)
  | _, [] => inferInstanceAs (Decidable True)
  | state, action :: rest =>
      have : ∀ next, Decidable (Meets step condition next rest) := fun next => decidableMeets next rest
      inferInstanceAs (Decidable (condition state action ∧
        ∀ next ∈ step state action, Meets step condition next rest))

/-- Every state that the run visits is good. -/
def Always (step : State → Action → Option State) (good : State → Prop) :
    State → List Action → Prop
  | state, [] => good state
  | state, action :: rest =>
      good state ∧ ∀ next ∈ step state action, Always step good next rest

/-- No allowed action can be taken any more. -/
def Stuck (step : State → Action → Option State) (allowed : Action → Prop) (state : State) : Prop :=
  ∀ action, allowed action → step state action = none

section
variable {step : State → Action → Option State} {condition : State → Action → Prop}

@[simp] theorem exec_nil (state : State) : exec step state [] = some state := rfl

@[simp] theorem exec_cons_eq_some {state final : State} {action : Action} {rest : List Action} :
    exec step state (action :: rest) = some final ↔
      ∃ next, step state action = some next ∧ exec step next rest = some final := by
  simp only [exec]
  cases step state action <;> simp

theorem meets_of_forall (h : ∀ state action, condition state action) (state : State)
    (actions : List Action) : Meets step condition state actions := by
  induction actions generalizing state with
  | nil => trivial
  | cons action rest ih => exact ⟨h state action, fun next _ => ih next⟩

theorem Meets.mono {weaker : State → Action → Prop}
    (h : ∀ state action, condition state action → weaker state action) {state : State}
    {actions : List Action} (meets : Meets step condition state actions) :
    Meets step weaker state actions := by
  induction actions generalizing state with
  | nil => trivial
  | cons action rest ih =>
    exact ⟨h _ _ meets.1, fun next taken => ih (meets.2 next taken)⟩

/-- Two conditions that agree on the good states, when the one leads from good states to good
states. -/
theorem meets_congr {invariant : State → Prop} {assumed left right : State → Action → Prop}
    (agree : ∀ state action, invariant state → assumed state action →
      (left state action ↔ right state action))
    (preserved : ∀ state action next, invariant state → assumed state action → right state action →
      step state action = some next → invariant next)
    {state : State} {actions : List Action} (start : invariant state)
    (meets : Meets step assumed state actions) :
    Meets step left state actions ↔ Meets step right state actions := by
  induction actions generalizing state with
  | nil => exact Iff.rfl
  | cons action rest ih =>
    have heads := agree state action start meets.1
    constructor
    · rintro ⟨head, tail⟩
      refine ⟨heads.mp head, fun next taken => ?_⟩
      have hnext := preserved state action next start meets.1 (heads.mp head) taken
      exact (ih hnext (meets.2 next taken)).mp (tail next taken)
    · rintro ⟨head, tail⟩
      refine ⟨heads.mpr head, fun next taken => ?_⟩
      have hnext := preserved state action next start meets.1 head taken
      exact (ih hnext (meets.2 next taken)).mpr (tail next taken)

/-- The step lemma lifted to runs. -/
theorem exec_invariant {invariant : State → Prop}
    (preserved : ∀ state action next, invariant state → condition state action →
      step state action = some next → invariant next)
    {state final : State} {actions : List Action} (start : invariant state)
    (meets : Meets step condition state actions)
    (run : exec step state actions = some final) : invariant final := by
  induction actions generalizing state with
  | nil =>
    cases run
    exact start
  | cons action rest ih =>
    obtain ⟨next, taken, run⟩ := exec_cons_eq_some.mp run
    exact ih (preserved state action next start meets.1 taken) (meets.2 next taken) run

/-- An invariant that needs no condition on the steps. -/
theorem exec_invariant' {invariant : State → Prop}
    (preserved : ∀ state action next, invariant state → step state action = some next →
      invariant next)
    {state final : State} {actions : List Action} (start : invariant state)
    (run : exec step state actions = some final) : invariant final := by
  have unconditional : Meets step (fun _ _ => True) state actions :=
    meets_of_forall (fun _ _ => trivial) state actions
  exact exec_invariant (fun state action next h _ taken => preserved state action next h taken)
    start unconditional run

/-- An invariant that also speaks of the actions taken so far. -/
theorem exec_history {invariant : List Action → State → Prop}
    (preserved : ∀ past state action next, invariant past state → step state action = some next →
      invariant (past ++ [action]) next)
    {state final : State} {past actions : List Action} (start : invariant past state)
    (run : exec step state actions = some final) : invariant (past ++ actions) final := by
  induction actions generalizing past state with
  | nil =>
    cases run
    rw [List.append_nil]
    exact start
  | cons action rest ih =>
    obtain ⟨next, taken, run⟩ := exec_cons_eq_some.mp run
    rw [List.append_cons]
    exact ih (preserved past state action next start taken) run

theorem Always.head {good : State → Prop} {state : State} {actions : List Action}
    (always : Always step good state actions) : good state := by
  cases actions with
  | nil => exact always
  | cons action rest => exact always.1

theorem Always.final {good : State → Prop} {state final : State} {actions : List Action}
    (always : Always step good state actions) (run : exec step state actions = some final) :
    good final := by
  induction actions generalizing state with
  | nil =>
    cases run
    exact always
  | cons action rest ih =>
    obtain ⟨next, taken, run⟩ := exec_cons_eq_some.mp run
    exact ih (always.2 next taken) run

/-- A step that breaks the condition leaves the good states. Then the condition
on the steps is not only enough for good states, but exact. -/
theorem always_iff_meets {invariant good : State → Prop}
    (sound : ∀ state, invariant state → good state)
    (preserved : ∀ state action next, invariant state → condition state action →
      step state action = some next → invariant next)
    (broken : ∀ state action next, invariant state → ¬condition state action →
      step state action = some next → ¬good next)
    {state final : State} {actions : List Action} (start : invariant state)
    (run : exec step state actions = some final) :
    Always step good state actions ↔ Meets step condition state actions := by
  induction actions generalizing state with
  | nil => exact ⟨fun _ => trivial, fun _ => sound state start⟩
  | cons action rest ih =>
    obtain ⟨next, taken, run⟩ := exec_cons_eq_some.mp run
    have hnext : ∀ other ∈ step state action, other = next := by
      intro other hother
      exact Option.some.inj (hother.symm.trans taken)
    constructor
    · intro always
      have condition : condition state action := by
        by_contra hbroken
        exact broken state action next start hbroken taken (always.2 next taken).head
      refine ⟨condition, ?_⟩
      intro other hother
      rw [hnext other hother]
      exact (ih (preserved state action next start condition taken) run).mp (always.2 next taken)
    · intro meets
      refine ⟨sound state start, ?_⟩
      intro other hother
      rw [hnext other hother]
      exact (ih (preserved state action next start meets.1 taken) run).mpr (meets.2 next taken)

/-- A quantity that every step decreases bounds the length of every run. -/
theorem exec_length_le {measure : State → Nat} {invariant : State → Prop}
    (preserved : ∀ state action next, invariant state → condition state action →
      step state action = some next → invariant next)
    (decreases : ∀ state action next, invariant state → condition state action →
      step state action = some next → measure next < measure state)
    {state final : State} {actions : List Action} (start : invariant state)
    (meets : Meets step condition state actions)
    (run : exec step state actions = some final) :
    actions.length + measure final ≤ measure state := by
  induction actions generalizing state with
  | nil =>
    cases run
    simp
  | cons action rest ih =>
    obtain ⟨next, taken, run⟩ := exec_cons_eq_some.mp run
    have tail := ih (preserved state action next start meets.1 taken) (meets.2 next taken) run
    have head := decreases state action next start meets.1 taken
    simp only [List.length_cons]
    omega

theorem exec_length_le' (measure : State → Nat) (invariant : State → Prop)
    (step_lemma : ∀ state action next, invariant state → step state action = some next →
      invariant next ∧ measure next < measure state)
    {state final : State} {actions : List Action} (start : invariant state)
    (run : exec step state actions = some final) :
    actions.length + measure final ≤ measure state := by
  have unconditional : Meets step (fun _ _ => True) state actions :=
    meets_of_forall (fun _ _ => trivial) state actions
  exact exec_length_le (fun state action next h _ taken => (step_lemma state action next h taken).1)
    (fun state action next h _ taken => (step_lemma state action next h taken).2)
    start unconditional run

/-- Where some allowed step always gets nearer, there is a run that arrives. -/
theorem exec_reaches {invariant stop : State → Prop} (measure : State → Nat)
    (progress : ∀ state, invariant state → ¬stop state → ∃ action next, condition state action ∧
      step state action = some next ∧ invariant next ∧ measure next < measure state)
    {state : State} (start : invariant state) :
    ∃ actions final, exec step state actions = some final ∧ Meets step condition state actions ∧
      invariant final ∧ stop final := by
  induction hsize : measure state using Nat.strongRecOn generalizing state with
  | ind size ih =>
    by_cases hstop : stop state
    · exact ⟨[], state, rfl, trivial, start, hstop⟩
    · obtain ⟨action, next, allowed, taken, hnext, hless⟩ := progress state start hstop
      obtain ⟨actions, final, run, meets, hfinal⟩ := ih (measure next) (hsize ▸ hless) hnext rfl
      refine ⟨action :: actions, final, exec_cons_eq_some.mpr ⟨next, taken, run⟩, ⟨allowed, ?_⟩, hfinal⟩
      intro other hother
      rw [Option.some.inj (hother.symm.trans taken)]
      exact meets

end

/-- Forward simulation: `related` survives every step, and neither system is stuck under the
condition, so every run of the left one is matched by a run of the right one. -/
theorem exec_simulation_total {step : State → Action → Option State}
    {step' : State' → Action → Option State'} {condition : State → Action → Prop}
    {related : State → State' → Prop}
    (simulates : ∀ left right action, related left right → condition left action →
      ∃ next next', step left action = some next ∧ step' right action = some next' ∧
        related next next')
    {left : State} {right : State'} {actions : List Action} (start : related left right)
    (meets : Meets step condition left actions) :
    ∃ final final', exec step left actions = some final ∧ exec step' right actions = some final' ∧
      related final final' := by
  induction actions generalizing left right with
  | nil => exact ⟨left, right, rfl, rfl, start⟩
  | cons action rest ih =>
    obtain ⟨next, next', taken, taken', linked⟩ := simulates left right action start meets.1
    obtain ⟨final, final', run, run', done⟩ := ih linked (meets.2 next taken)
    exact ⟨final, final', exec_cons_eq_some.mpr ⟨next, taken, run⟩,
      exec_cons_eq_some.mpr ⟨next', taken', run'⟩, done⟩

end UdpFileProxy.Lib.Run
