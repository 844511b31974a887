import UdpFileProxy.Lib.Run
import Mathlib.Algebra.GroupWithZero.Nat

/-! Runs that are extended by a step, runs that a map of the states carries along, runs that are
runs of another system as well, runs that come to their goal after so many steps of one kind, and
runs whose steps are paid for. -/
namespace UdpFileProxy.Lib.Run

variable {State Action : Type*} {step : State → Action → Option State}
  {condition : State → Action → Prop}

theorem exec_concat {state next final : State} {actions : List Action} {action : Action}
    (run : exec step state actions = some next) (taken : step next action = some final) :
    exec step state (actions ++ [action]) = some final := by
  induction actions generalizing state with
  | nil =>
    cases run
    exact exec_cons_eq_some.mpr ⟨final, taken, rfl⟩
  | cons first rest ih =>
    obtain ⟨after, head, run⟩ := exec_cons_eq_some.mp run
    exact exec_cons_eq_some.mpr ⟨after, head, ih run⟩

theorem Meets.concat {state next : State} {actions : List Action} {action : Action}
    (meets : Meets step condition state actions) (run : exec step state actions = some next)
    (last : condition next action) : Meets step condition state (actions ++ [action]) := by
  induction actions generalizing state with
  | nil =>
    cases run
    exact ⟨last, fun _ _ => trivial⟩
  | cons first rest ih =>
    obtain ⟨after, head, run⟩ := exec_cons_eq_some.mp run
    refine ⟨meets.1, fun other taken => ?_⟩
    obtain rfl := Option.some.inj (head.symm.trans taken)
    exact ih (meets.2 after taken) run

/-- A map of the states that commutes with every step carries a run along, with its
condition. -/
theorem exec_commutes {map : State → State}
    (commutes : ∀ state action next, step state action = some next →
      step (map state) action = some (map next))
    (kept : ∀ state action, condition state action → condition (map state) action)
    {state final : State} {actions : List Action} (meets : Meets step condition state actions)
    (run : exec step state actions = some final) :
    Meets step condition (map state) actions ∧ exec step (map state) actions = some (map final) := by
  induction actions generalizing state with
  | nil =>
    cases run
    exact ⟨trivial, rfl⟩
  | cons action rest ih =>
    obtain ⟨next, taken, run⟩ := exec_cons_eq_some.mp run
    obtain ⟨tail, reaches⟩ := ih (meets.2 next taken) run
    have mapped := commutes state action next taken
    refine ⟨⟨kept state action meets.1, fun other hother => ?_⟩,
      exec_cons_eq_some.mpr ⟨map next, mapped, reaches⟩⟩
    obtain rfl := Option.some.inj (mapped.symm.trans hother)
    exact tail

theorem exec_append {state next final : State} {first second : List Action}
    (run : exec step state first = some next) (run' : exec step next second = some final) :
    exec step state (first ++ second) = some final := by
  induction first generalizing state with
  | nil =>
    cases run
    exact run'
  | cons action rest ih =>
    obtain ⟨after, head, run⟩ := exec_cons_eq_some.mp run
    exact exec_cons_eq_some.mpr ⟨after, head, ih run⟩

/-- The actions of another system that stand for those of a run. -/
def translated {Action' : Type*} (step : State → Action → Option State)
    (translate : State → Action → List Action') : State → List Action → List Action'
  | _, [] => []
  | state, action :: rest =>
      match step state action with
      | none => []
      | some next => translate state action ++ translated step translate next rest

/-- Forward simulation of each step by any number of steps. -/
theorem exec_translated {State' Action' : Type*} {step' : State' → Action' → Option State'}
    {translate : State → Action → List Action'} {related : State → State' → Prop}
    (simulates : ∀ left right action next, related left right → step left action = some next →
      ∃ next', exec step' right (translate left action) = some next' ∧ related next next')
    {left final : State} {right : State'} {actions : List Action} (start : related left right)
    (run : exec step left actions = some final) : ∃ final',
      exec step' right (translated step translate left actions) = some final' ∧
        related final final' := by
  induction actions generalizing left right with
  | nil =>
    cases run
    exact ⟨right, rfl, start⟩
  | cons action rest ih =>
    obtain ⟨next, taken, run⟩ := exec_cons_eq_some.mp run
    obtain ⟨next', run', linked⟩ := simulates left right action next start taken
    obtain ⟨final', tail, done⟩ := ih linked run
    refine ⟨final', ?_, done⟩
    simp only [translated, taken]
    exact exec_append run' tail

/-- What is done stays done, and until then the counted steps lower the measure. -/
theorem exec_counted {invariant done : State → Prop} {counted : Action → Bool}
    {measure : State → Nat}
    (preserved : ∀ state action next, invariant state → condition state action →
      step state action = some next → invariant next)
    (stays : ∀ state action next, invariant state → condition state action → done state →
      step state action = some next → done next)
    (lowers : ∀ state action next, invariant state → condition state action → ¬done state →
      step state action = some next → done next ∨
        (counted action).toNat + measure next ≤ measure state)
    {state final : State} {actions : List Action} (start : invariant state)
    (meets : Meets step condition state actions) (run : exec step state actions = some final) :
    done final ∨ actions.countP counted + measure final ≤ measure state := by
  induction actions generalizing state with
  | nil =>
    cases run
    simp
  | cons action rest ih =>
    obtain ⟨next, taken, run⟩ := exec_cons_eq_some.mp run
    have hnext := preserved state action next start meets.1 taken
    have htail := meets.2 next taken
    have hdone (h : done next) : done final := by
      have hboth : ∀ state action next, invariant state ∧ done state → condition state action →
          step state action = some next → invariant next ∧ done next :=
        fun state action next h hcondition htaken =>
          ⟨preserved state action next h.1 hcondition htaken,
            stays state action next h.1 hcondition h.2 htaken⟩
      exact (exec_invariant hboth ⟨hnext, h⟩ htail run).2
    by_cases hstart : done state
    · exact .inl (hdone (stays state action next start meets.1 hstart taken))
    rcases lowers state action next start meets.1 hstart taken with h | hless
    · exact .inl (hdone h)
    rcases ih hnext htail run with h | htotal
    · exact .inl h
    · right
      rw [List.countP_cons]
      cases hcounted : counted action with
      | true =>
        simp only [hcounted, Bool.toNat_true, if_true] at hless ⊢
        omega
      | false =>
        simp only [hcounted, Bool.toNat_false, Bool.false_eq_true, if_false] at hless ⊢
        omega

theorem meets_le {measure : State → Nat}
    (grows : ∀ state action next, step state action = some next → measure state ≤ measure next)
    {state final : State} {actions : List Action} (run : exec step state actions = some final) :
    Meets step (fun state _ => measure state ≤ measure final) state actions := by
  induction actions generalizing state with
  | nil => trivial
  | cons action rest ih =>
    obtain ⟨next, taken, run⟩ := exec_cons_eq_some.mp run
    have hgrows : ∀ other action after, measure next ≤ measure other →
        step other action = some after → measure next ≤ measure after :=
      fun other action after h htaken => Nat.le_trans h (grows other action after htaken)
    have hnext : measure next ≤ measure final := exec_invariant' hgrows (Nat.le_refl _) run
    refine ⟨Nat.le_trans (grows state action next taken) hnext, fun other hother => ?_⟩
    obtain rfl := Option.some.inj (taken.symm.trans hother)
    exact ih run

/-- Every step lowers the measure, but for what is paid for it; so what is paid bounds the
length of the run. -/
theorem exec_amortized {invariant : State → Prop} {measure : State → Nat} {credit : Action → Nat}
    (preserved : ∀ state action next, invariant state → condition state action →
      step state action = some next → invariant next)
    (lowers : ∀ state action next, invariant state → condition state action →
      step state action = some next → measure next + 1 ≤ measure state + credit action)
    {state final : State} {actions : List Action} (start : invariant state)
    (meets : Meets step condition state actions) (run : exec step state actions = some final) :
    actions.length + measure final ≤ measure state + (actions.map credit).sum := by
  induction actions generalizing state with
  | nil =>
    cases run
    simp only [List.length_nil, List.map_nil, List.sum_nil, Nat.zero_add, Nat.add_zero, Nat.le_refl]
  | cons action rest ih =>
    obtain ⟨next, taken, run⟩ := exec_cons_eq_some.mp run
    have hnext := preserved state action next start meets.1 taken
    have hhead := lowers state action next start meets.1 taken
    have htail := ih hnext (meets.2 next taken) run
    rw [List.length_cons, List.map_cons, List.sum_cons]
    omega

end UdpFileProxy.Lib.Run
