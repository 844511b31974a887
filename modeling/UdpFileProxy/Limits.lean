import UdpFileProxy.Speed
import UdpFileProxy.Lib.Allotment
import UdpFileProxy.Lib.Run
import Mathlib.Algebra.Order.BigOperators.Group.List
import Mathlib.Algebra.Order.Group.Int

/-! The speed manager under the limits that `main` installs. What `query_speed` keeps
back is a tenth of the default maximum for every limit, which is more than half of
the small ones. -/
namespace UdpFileProxy.Limits
open Lib.Run Lib.Allotment Protocol Speed

/-- The values of `max_speed` that `main` passes to `set_speed`. -/
abbrev Limit := {speed : Int // 0 < speed ∧ speed < 2000}

/-- `grants` are those that have not been returned. -/
structure State where
  speed : SpeedManger
  grants : List Int
  deriving DecidableEq, Repr

def start (limit : Limit) : State where
  speed := SpeedManger.new.setSpeed limit
  grants := []

inductive Action where
  | querySpeed
  | returnSpeed (index : Nat)
  deriving DecidableEq, Repr

/-- A grant is returned as it was given. -/
def step (state : State) (action : Action) : Option State :=
  match action with
  | .querySpeed =>
      some ⟨state.speed.querySpeed.2, state.grants ++ [state.speed.querySpeed.1]⟩
  | .returnSpeed index =>
      (state.grants[index]?).map fun grant =>
        ⟨state.speed.returnSpeed grant, state.grants.eraseIdx index⟩

structure Accounted (state : State) : Prop where
  current : state.speed.currentSpeed = state.grants.sum
  nonneg : 0 ≤ state.speed.currentSpeed
  le : state.speed.currentSpeed ≤ state.speed.maxSpeed
  grants : ∀ grant ∈ state.grants, 0 ≤ grant ∧ grant ≤ state.speed.maxSpeed.tdiv 2

/-- What is always left: below twice the amount kept back, no grant reaches into it. -/
def reserve (limit : Limit) : Int := if limit.val < 320 then 160 else 0

/-- The greatest grant: half of the limit less what is kept back, or half of its half. -/
def peak (limit : Limit) : Int := max (limit.val / 2 - 80) (limit.val / 4)

/-- A manager under a limit with the reserve left over. -/
structure Within (limit : Limit) (manager : SpeedManger) : Prop where
  max : manager.maxSpeed = limit
  base : manager.baseSpeed = 80
  nonneg : 0 ≤ manager.currentSpeed
  left : manager.currentSpeed + reserve limit ≤ limit

structure Steady (limit : Limit) (state : State) : Prop where
  max : state.speed.maxSpeed = limit
  base : state.speed.baseSpeed = 80
  current : state.speed.currentSpeed = state.grants.sum
  left : state.speed.currentSpeed + reserve limit ≤ limit
  grants : ∀ grant ∈ state.grants, 0 ≤ grant ∧ grant ≤ limit.val / 2

section
variable {limit : Limit} {state next : State} {action : Action}

@[simp] theorem half_limit (limit : Limit) : limit.val.tdiv 2 = limit.val / 2 :=
  Int.tdiv_eq_ediv_of_nonneg (le_of_lt limit.property.1)

theorem reserve_nonneg (limit : Limit) : 0 ≤ reserve limit := by
  unfold reserve
  split <;> omega

theorem within_start (hlimit : 160 ≤ limit.val) : Within limit (SpeedManger.new.setSpeed limit) where
  max := rfl
  base := rfl
  nonneg := le_refl 0
  left := by
    have hzero : (SpeedManger.new.setSpeed limit).currentSpeed = 0 := rfl
    rw [hzero, reserve]
    split <;> omega

theorem Within.granted {manager : SpeedManger} (h : Within limit manager) (hlimit : 160 ≤ limit.val) :
    0 ≤ manager.granted ∧ manager.granted ≤ peak limit ∧
      manager.currentSpeed + manager.granted + reserve limit ≤ limit := by
  have hleft := h.left
  have hnonneg := h.nonneg
  have hreserve := reserve_nonneg limit
  have hidle : (limit.val - manager.currentSpeed).tdiv 2 = (limit.val - manager.currentSpeed) / 2 :=
    Int.tdiv_eq_ediv_of_nonneg (by omega)
  simp only [SpeedManger.granted, h.max, h.base, half_limit, hidle]
  unfold reserve at hleft ⊢
  unfold peak
  split <;> split <;> omega

theorem Within.querySpeed {manager : SpeedManger} (h : Within limit manager)
    (hlimit : 160 ≤ limit.val) : Within limit manager.querySpeed.2 := by
  obtain ⟨hlow, -, hleft⟩ := h.granted hlimit
  exact ⟨h.max, h.base, Int.add_nonneg h.nonneg hlow, hleft⟩

theorem Within.returnSpeed {manager : SpeedManger} (h : Within limit manager)
    (hlimit : 160 ≤ limit.val) {speed : Int} (hspeed : 0 ≤ speed) :
    Within limit (manager.returnSpeed speed) := by
  have hleft := h.left
  refine ⟨h.max, h.base, ?_, ?_⟩
  · simp only [SpeedManger.returnSpeed]
    split <;> omega
  · simp only [SpeedManger.returnSpeed]
    unfold reserve at hleft ⊢
    split <;> split at hleft <;> omega

theorem Steady.nonneg (h : Steady limit state) : 0 ≤ state.speed.currentSpeed := by
  rw [h.current]
  exact List.sum_nonneg fun grant hgrant => (h.grants grant hgrant).1

theorem Steady.accounted (h : Steady limit state) : Accounted state where
  current := h.current
  nonneg := h.nonneg
  le := by
    have hleft := h.left
    have hreserve := reserve_nonneg limit
    rw [h.max]
    omega
  grants := by
    rw [h.max, half_limit]
    exact h.grants

theorem steady_start (hlimit : 160 ≤ limit.val) : Steady limit (start limit) where
  max := rfl
  base := rfl
  current := rfl
  left := (within_start hlimit).left
  grants := by simp [start]

theorem Steady.within (h : Steady limit state) : Within limit state.speed :=
  ⟨h.max, h.base, h.nonneg, h.left⟩

theorem peak_nonneg (limit : Limit) : 0 ≤ peak limit := by
  have hpos := limit.property.1
  unfold peak
  omega

theorem peak_le (limit : Limit) : peak limit ≤ limit.val / 2 := by
  have hpos := limit.property.1
  unfold peak
  omega

theorem Steady.step (h : Steady limit state) (hlimit : 160 ≤ limit.val)
    (hstep : Limits.step state action = some next) : Steady limit next := by
  cases action with
  | querySpeed =>
    obtain ⟨hlow, hhigh, hleft⟩ := h.within.granted hlimit
    cases hstep
    refine ⟨h.max, h.base, ?_, hleft, ?_⟩
    · simp [SpeedManger.querySpeed, h.current]
    · intro grant hgrant
      rcases List.mem_append.mp hgrant with hold | hnew
      · exact h.grants grant hold
      · rw [List.mem_singleton.mp hnew]
        exact ⟨hlow, hhigh.trans (peak_le limit)⟩
  | returnSpeed index =>
    obtain ⟨grant, hgrant, rfl⟩ := Option.map_eq_some_iff.mp hstep
    have hperm := (perm_of_get hgrant grant).1
    have hgrants : ∀ other ∈ state.grants.eraseIdx index, 0 ≤ other ∧ other ≤ limit.val / 2 :=
      fun other hother => h.grants other (List.mem_of_mem_eraseIdx hother)
    have hsum : state.grants.sum = grant + (state.grants.eraseIdx index).sum := by
      rw [hperm.sum_eq, List.sum_cons]
    have hrest : 0 ≤ (state.grants.eraseIdx index).sum :=
      List.sum_nonneg fun other hother => (hgrants other hother).1
    have hcurrent : (state.speed.returnSpeed grant).currentSpeed =
        (state.grants.eraseIdx index).sum := by
      have hcurrent : state.grants.sum - grant = (state.grants.eraseIdx index).sum := by omega
      rw [SpeedManger.returnSpeed, h.current, hcurrent]
      exact if_neg (not_lt_of_ge hrest)
    have hlow := (h.grants grant (hperm.mem_iff.mpr List.mem_cons_self)).1
    refine ⟨h.max, h.base, hcurrent, ?_, hgrants⟩
    have hleft := h.left
    rw [h.current] at hleft
    rw [hcurrent]
    omega

theorem first_grant (hlimit : limit.val < 160) : (start limit).speed.granted < 0 := by
  have hpos := limit.property.1
  have hidle : (start limit).speed.maxSpeed - (start limit).speed.currentSpeed = limit.val :=
    sub_zero limit.val
  have hmax : (start limit).speed.maxSpeed = limit.val := rfl
  have hbase : (start limit).speed.baseSpeed = 80 := rfl
  have hhalf := half_limit limit
  rw [SpeedManger.granted, hidle, hmax, hbase, hhalf]
  rw [if_pos (by omega)]
  omega

/-- Every query and return is accounted for, in every run, exactly for the limits
of which half covers what is kept back. -/
theorem accounts_exactly (limit : Limit) :
    (∀ actions final, exec step (start limit) actions = some final → Accounted final) ↔
      160 ≤ limit.val := by
  constructor
  · intro haccounted
    by_contra hsmall
    have hfirst : (start limit).speed.granted < 0 := first_grant (by omega)
    have hquery := haccounted [.querySpeed] _ rfl
    have hgrant := (hquery.grants _ List.mem_cons_self).1
    exact absurd hgrant (not_le_of_gt hfirst)
  · intro hlimit actions final run
    exact (exec_invariant' (fun _ _ _ h hstep => h.step hlimit hstep) (steady_start hlimit) run).accounted

end

/-- One query with a limit of 100. -/
theorem negative_grant : ∃ final, exec step (start ⟨100, by decide⟩) [.querySpeed] = some final ∧
    final.grants = [-30] ∧ final.speed.currentSpeed = -30 ∧ ¬Accounted final := by
  refine ⟨_, rfl, by decide, by decide, ?_⟩
  intro haccounted
  exact absurd haccounted.nonneg (by decide)

end UdpFileProxy.Limits
