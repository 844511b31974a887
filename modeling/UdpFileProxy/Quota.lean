import UdpFileProxy.Speed
import UdpFileProxy.Lib.Allotment
import UdpFileProxy.Lib.Run
import Mathlib.Algebra.Order.BigOperators.Group.List
import Mathlib.Algebra.Order.Group.Int
import Mathlib.Data.List.Perm.Basic

/-! Any number of `SendPack_ex` calls that share one speed manager. What the
grants leave shrinks with the number of calls that hold one, and with eleven of
them nothing may be left. -/
namespace UdpFileProxy.Quota
open Lib.Memory Lib.Run Lib.Allotment Protocol SendPack Speed

abbrev PackT := {packT : Int // 1 ≤ packT ∧ packT ≤ 1000}

/-- `grants` is history: what `query_speed` has returned so far. -/
structure State where
  speed : SpeedManger
  senders : List SendPack.State
  grants : List Int

def start : State where
  speed := .new
  senders := []
  grants := []

inductive Action where
  | sendPack (filePath : Bytes) (packT : PackT)
  | call (sender : Nat) (reply : Reply)

/-- A division by zero ends the process with all its threads. -/
def step (order : Endian) (state : State) (action : Action) : Option State :=
  if state.senders.any fun sender => sender.pc = .dividedByZero then none
  else
    match action with
    | .sendPack filePath packT =>
        some { state with senders := state.senders ++ [SendPack.start filePath packT] }
    | .call index reply =>
        match state.senders[index]? with
        | none => none
        | some sender =>
            match answer order state.speed sender reply with
            | none => none
            | some (speed, next) =>
                some {
                  speed := speed
                  senders := state.senders.set index next
                  grants := if sender.pc = .query then state.grants ++ [state.speed.granted]
                    else state.grants }

/-- The grants that are held now. -/
def holdings (senders : List SendPack.State) : List Int :=
  (senders.map held).filter fun grant => grant ≠ 0

/-- With the one that queries, no more than `bound` calls have a quota. -/
def AtMost (bound : Nat) (state : State) : Action → Prop
  | .sendPack _ _ => True
  | .call index _ => ∀ sender ∈ state.senders[index]?, sender.pc = .query →
      (holdings state.senders).length < bound

instance decidableAtMost (bound : Nat) (state : State) :
    ∀ action, Decidable (AtMost bound state action)
  | .sendPack _ _ => inferInstanceAs (Decidable True)
  | .call index _ => inferInstanceAs (Decidable (∀ sender ∈ state.senders[index]?,
      sender.pc = .query → (holdings state.senders).length < bound))

/-- No division by zero so far, and no negative sleep. -/
def Timed (sender : SendPack.State) : Prop :=
  1 ≤ sender.packT ∧ sender.pc ≠ .dividedByZero ∧ 0 ≤ sender.waitT

/-- `query_speed` never grants more than this, whatever has been returned before. -/
def limit (left : Int) : Int := if left ≤ 400 then left / 2 else max 200 (left / 2 - 80)

theorem limit_mono {less more : Int} (hle : less ≤ more) : limit less ≤ limit more := by
  unfold limit
  split <;> split <;> omega

theorem left_mono {less more : Int} (hle : less ≤ more) : less - limit less ≤ more - limit more := by
  unfold limit
  split <;> split <;> omega

theorem residue_limit : ∀ count < 11, 2 ≤ residue limit 800 count := by decide

theorem granted_le_limit {manager : SpeedManger} {total : Int}
    (hmanager : manager = { SpeedManger.new with currentSpeed := total }) (hleft : 2 ≤ 800 - total)
    (htotal : 0 ≤ total) : 1 ≤ manager.granted ∧ manager.granted ≤ limit (800 - total) := by
  have hhalf : (800 : Int).tdiv 2 = 400 := by decide
  have hbase : (800 : Int).tdiv 10 = 80 := by decide
  have hidle : (800 - total).tdiv 2 = (800 - total) / 2 := Int.tdiv_eq_ediv_of_nonneg (by omega)
  subst hmanager
  simp only [SpeedManger.granted, SpeedManger.new, maxSpeed, limit, hhalf, hbase, hidle]
  split <;> split <;> omega

section
variable {order : Endian} {state next : State} {action : Action} {bound : Nat}
  {senders : List SendPack.State} {sender sender' : SendPack.State} {index : Nat}

theorem holdings_perm {left right : List SendPack.State} (h : left.Perm right) :
    (holdings left).Perm (holdings right) :=
  (h.map held).filter _

@[simp] theorem holdings_cons_zero (h : held sender = 0) :
    holdings (sender :: senders) = holdings senders := by
  simp [holdings, h]

@[simp] theorem holdings_cons_ne (h : held sender ≠ 0) :
    holdings (sender :: senders) = held sender :: holdings senders := by
  simp [holdings, h]

@[simp] theorem holdings_append_zero (h : held sender = 0) :
    holdings (senders ++ [sender]) = holdings senders := by
  simp [holdings, h]

structure Fair (state : State) : Prop where
  speed : state.speed = { SpeedManger.new with currentSpeed := (holdings state.senders).sum }
  allotted : ∃ grants, Within limit 800 grants ∧ grants.Perm (holdings state.senders)
  ready : ∀ sender ∈ state.senders, Ready sender
  timed : ∀ sender ∈ state.senders, Timed sender
  grants : ∀ grant ∈ state.grants, 1 ≤ grant

theorem fair_start : Fair start :=
  ⟨rfl, ⟨[], trivial, .refl _⟩, by simp [start], by simp [start], by simp [start]⟩

theorem Fair.nonneg (h : Fair state) : 0 ≤ (holdings state.senders).sum := by
  obtain ⟨grants, hwithin, hperm⟩ := h.allotted
  rw [← hperm.sum_eq]
  exact List.sum_nonneg hwithin.nonneg

theorem Fair.granted (h : Fair state) (hfew : (holdings state.senders).length < 11) :
    1 ≤ state.speed.granted ∧
      state.speed.granted ≤ limit (800 - (holdings state.senders).sum) := by
  obtain ⟨grants, hwithin, hperm⟩ := h.allotted
  have hleft := hwithin.residue_le fun _ _ => left_mono
  rw [hperm.sum_eq, hperm.length_eq] at hleft
  have hresidue := residue_limit (holdings state.senders).length hfew
  exact granted_le_limit h.speed (by omega) h.nonneg

theorem resume_timed {reply : Reply} (timed : Timed sender)
    (positive : sender.pc = .query → ∀ speed, reply = .grant speed → 1 ≤ speed)
    (h : resume sender reply = some sender') : Timed sender' := by
  obtain ⟨hpackT, hpc, hwait⟩ := timed
  unfold resume at h
  split at h
  · -- stat
    cases h
    refine ⟨hpackT, ?_, hwait⟩
    dsimp only
    split <;> simp
  · -- openFile
    cases h
    refine ⟨hpackT, ?_, hwait⟩
    dsimp only
    split <;> simp
  · -- a failed read
    cases h
    exact ⟨hpackT, by simp, hwait⟩
  · -- the end of the file
    cases h
    refine ⟨hpackT, ?_, hwait⟩
    dsimp only
    split <;> simp
  · -- read
    split at h
    · cases h
      exact ⟨hpackT, afterRead_defined hpackT, hwait⟩
    · contradiction
  · -- giveBack
    cases h
    exact ⟨hpackT, by simp, hwait⟩
  · -- query
    rename_i speed hquery
    have hspeed := positive hquery speed rfl
    rw [if_neg (by omega)] at h
    cases h
    exact ⟨hpackT, by simp, Int.tdiv_nonneg (by omega) (by omega)⟩
  · -- a failed sendto
    cases h
    exact ⟨hpackT, by simp, hwait⟩
  · -- sendto
    cases h
    refine ⟨hpackT, ?_, hwait⟩
    dsimp only
    split
    · simp
    · exact afterSend_defined hpackT
  · -- sleepFirst
    cases h
    exact ⟨hpackT, afterSend_defined hpackT, hwait⟩
  · -- sleepBatch
    cases h
    exact ⟨hpackT, by simp, hwait⟩
  · -- okGiveBack
    cases h
    exact ⟨hpackT, by simp, hwait⟩
  · -- okClose
    cases h
    exact ⟨hpackT, by simp, hwait⟩
  · -- errClose
    cases h
    refine ⟨hpackT, ?_, hwait⟩
    dsimp only
    split <;> simp
  · -- errGiveBack
    cases h
    exact ⟨hpackT, by simp, hwait⟩
  · -- no such reply
    contradiction

theorem answer_timed {manager manager' : SpeedManger} {reply : Reply} (timed : Timed sender)
    (positive : sender.pc = .query → 1 ≤ manager.granted)
    (h : answer order manager sender reply = some (manager', sender')) : Timed sender' := by
  unfold answer at h
  split at h
  · contradiction
  · obtain ⟨resumed, hresume, hpair⟩ := Option.map_eq_some_iff.mp h
    cases hpair
    refine resume_timed timed ?_ hresume
    intro hpc speed hspeed
    cases hspeed
    exact positive hpc
  · obtain ⟨resumed, hresume, hpair⟩ := Option.map_eq_some_iff.mp h
    cases hpair
    exact resume_timed timed (by simp) hresume
  · rename_i hquery _ hcall
    obtain ⟨resumed, hresume, hpair⟩ := Option.map_eq_some_iff.mp h
    cases hpair
    refine resume_timed timed ?_ hresume
    intro hpc
    rw [call, hpc] at hcall
    exact absurd (Option.some.inj hcall).symm hquery

theorem Fair.step (h : Fair state) (few : AtMost 11 state action)
    (hstep : Quota.step order state action = some next) : Fair next := by
  unfold Quota.step at hstep
  split at hstep
  · contradiction
  cases action with
  | sendPack filePath packT =>
    cases hstep
    have hsame : holdings (state.senders ++ [SendPack.start filePath packT]) =
        holdings state.senders := holdings_append_zero (held_start _ _)
    refine ⟨?_, ?_, ?_, ?_, h.grants⟩
    · dsimp only
      rw [hsame, h.speed]
    · dsimp only
      rw [hsame]
      exact h.allotted
    · intro sender hsender
      rcases List.mem_append.mp hsender with hsender | hsender
      · exact h.ready sender hsender
      · rw [List.mem_singleton.mp hsender]
        exact ready_start _ _
    · intro sender hsender
      rcases List.mem_append.mp hsender with hsender | hsender
      · exact h.timed sender hsender
      · rw [List.mem_singleton.mp hsender]
        exact ⟨packT.2.1, by simp [SendPack.start], le_refl 0⟩
  | call index reply =>
    dsimp only at hstep
    split at hstep
    · contradiction
    rename_i sender hsender
    split at hstep
    · contradiction
    rename_i speed sender' hanswer
    cases hstep
    have hmem : sender ∈ state.senders := List.mem_of_getElem? hsender
    have hgranted (hquery : sender.pc = .query) := h.granted (few sender hsender hquery)
    obtain ⟨hready, hmoved⟩ := answer_cases (h.ready sender hmem) hanswer
    have htimed := answer_timed (h.timed sender hmem) (fun hquery => (hgranted hquery).1) hanswer
    obtain ⟨hbefore, hafter⟩ := perm_of_get hsender sender'
    replace hbefore := holdings_perm hbefore
    replace hafter := holdings_perm hafter
    have hallReady : ∀ other ∈ state.senders.set index sender', Ready other :=
      forall_mem_set h.ready hready
    have hallTimed : ∀ other ∈ state.senders.set index sender', Timed other :=
      forall_mem_set h.timed htimed
    obtain ⟨grants, hwithin, hperm⟩ := h.allotted
    replace hperm := hperm.trans hbefore
    have hsum := hbefore.sum_eq
    have hspeed := h.speed
    rcases hmoved with ⟨hquery, hheld, hnew, rfl⟩ | ⟨hquery, hheld, hnew, rfl⟩ | ⟨hquery, hnew, rfl⟩
    · -- a new grant is the latest one
      obtain ⟨hpositive, hlimit⟩ := hgranted hquery
      rw [holdings_cons_zero hheld] at hperm hsum
      rw [holdings_cons_ne (by omega), hnew] at hafter
      refine ⟨?_, ⟨state.speed.granted :: grants, ⟨⟨by omega, ?_⟩, hwithin⟩, ?_⟩,
        hallReady, hallTimed, ?_⟩
      · simp only [SpeedManger.querySpeed, hafter.sum_eq, List.sum_cons]
        rw [hspeed]
        simp only [hsum, add_comm]
      · rw [hperm.sum_eq, ← hsum]
        exact hlimit
      · exact (hperm.cons _).trans hafter.symm
      · rw [if_pos hquery]
        intro grant hgrant
        rcases List.mem_append.mp hgrant with hgrant | hgrant
        · exact h.grants grant hgrant
        · rw [List.mem_singleton.mp hgrant]
          exact hpositive
    · -- the grant goes, wherever it stands
      rw [holdings_cons_ne hheld] at hperm hsum
      rw [holdings_cons_zero hnew] at hafter
      have herase := hwithin.erase (fun _ _ => limit_mono) (held sender)
      have hrest := (List.cons_perm_iff_perm_erase.mp hperm.symm).2.symm
      have hnonneg := List.sum_nonneg herase.nonneg
      rw [hrest.sum_eq] at hnonneg
      rw [List.sum_cons] at hsum
      refine ⟨?_, ⟨grants.erase (held sender), herase, hrest.trans hafter.symm⟩,
        hallReady, hallTimed, ?_⟩
      · simp only [SpeedManger.returnSpeed, hafter.sum_eq]
        rw [hspeed]
        simp only [hsum, add_sub_cancel_left, if_neg (Int.not_lt.mpr hnonneg)]
      · rw [if_neg hquery]
        exact h.grants
    · have hsame : (holdings (state.senders.set index sender')).Perm (holdings state.senders) := by
        refine hafter.trans (.trans ?_ hbefore.symm)
        simp only [holdings, List.map_cons, hnew, List.Perm.refl]
      refine ⟨?_, ⟨grants, hwithin, (hperm.trans hbefore.symm).trans hsame.symm⟩,
        hallReady, hallTimed, ?_⟩
      · rw [hsame.sum_eq]
        exact hspeed
      · rw [if_neg hquery]
        exact h.grants

theorem AtMost.mono {less more : Nat} (hle : less ≤ more) (h : AtMost less state action) :
    AtMost more state action := by
  cases action with
  | sendPack filePath packT => trivial
  | call index reply => exact fun sender hsender hquery => (h sender hsender hquery).trans_le hle

end

/-- The transfer of a file of one byte, up to its first `query_speed`. -/
def firstQuery (index : Nat) : List Action :=
  [.sendPack [97] ⟨200, by decide⟩, .call index (.size 1), .call index (.fd 3),
    .call index (.data (some [7])), .call index .done]

/-- Twelve transfers begin at the same time. -/
def twelveQueries : List Action := (List.range 12).flatMap firstQuery

theorem twelveQueries_exec (order : Endian) : ∃ final,
    exec (step order) start twelveQueries = some final ∧
      final.grants = [320, 160, 160, 80, 40, 20, 10, 5, 2, 1, 1, 0] := by
  have hgrants : (exec (step order) start twelveQueries).any (fun final =>
      final.grants = [320, 160, 160, 80, 40, 20, 10, 5, 2, 1, 1, 0]) = true := by
    cases order <;> decide +kernel
  obtain ⟨final, run, hany⟩ := (Option.any_eq_true _ _).mp hgrants
  exact ⟨final, run, by simpa using hany⟩

theorem twelveQueries_meets (order : Endian) :
    Meets (step order) (AtMost 12) start twelveQueries := by
  cases order <;> decide +kernel

/-- Eleven calls can always share the speed, twelve cannot. -/
theorem every_grant_positive (order : Endian) (bound : Nat) :
    (∀ actions final, Meets (step order) (AtMost bound) start actions →
      exec (step order) start actions = some final →
        (∀ grant ∈ final.grants, 1 ≤ grant) ∧ ∀ sender ∈ final.senders, Timed sender) ↔
      bound ≤ 11 := by
  constructor
  · intro hpositive
    by_contra hmore
    obtain ⟨final, run, hgrants⟩ := twelveQueries_exec order
    have meets := (twelveQueries_meets order).mono fun _ _ =>
      AtMost.mono (show 12 ≤ bound by omega)
    have hzero := (hpositive _ final meets run).1 0 (by simp [hgrants])
    omega
  · intro hbound actions final meets run
    have few := meets.mono fun _ _ => AtMost.mono hbound
    have fair := exec_invariant (fun _ _ _ fair few hstep => fair.step few hstep) fair_start few run
    exact ⟨fair.grants, fair.timed⟩

theorem twelfth_grant_zero : ∃ final, exec (step .little) start twelveQueries = some final ∧
    ¬(∀ grant ∈ final.grants, 1 ≤ grant) ∧ ¬∀ sender ∈ final.senders, Timed sender := by
  have hzero : (exec (step .little) start twelveQueries).any (fun final =>
      final.grants.any (fun grant => ¬1 ≤ grant) &&
        final.senders.any fun sender => sender.pc = .dividedByZero) = true := by decide +kernel
  obtain ⟨final, run, hany⟩ := (Option.any_eq_true _ _).mp hzero
  simp only [Bool.and_eq_true, List.any_eq_true, decide_eq_true_eq] at hany
  obtain ⟨⟨grant, hgrant, hless⟩, sender, hsender, hpc⟩ := hany
  exact ⟨final, run, fun hall => hless (hall grant hgrant), fun hall => (hall sender hsender).2.1 hpc⟩

end UdpFileProxy.Quota
