import UdpFileProxy.SendPack

/-! The speed manager of `proxy_client.cpp`, and `SendPack_ex` with its calls of
`query_speed` and `return_speed` answered by it. -/
namespace UdpFileProxy.Speed
open Lib.Memory Protocol SendPack

structure SpeedManger where
  maxSpeed : Int
  currentSpeed : Int
  baseSpeed : Int
  deriving DecidableEq, Repr

namespace SpeedManger

/-- The default constructor. -/
def new : SpeedManger where
  maxSpeed := Protocol.maxSpeed
  currentSpeed := 0
  baseSpeed := Protocol.maxSpeed.tdiv 10

/-- What `query_speed` grants, out of what is left. -/
def granted (manager : SpeedManger) : Int :=
  let idleSpeed := manager.maxSpeed - manager.currentSpeed
  if idleSpeed > manager.maxSpeed.tdiv 2 then idleSpeed.tdiv 2 - manager.baseSpeed
  else idleSpeed.tdiv 2

def querySpeed (manager : SpeedManger) : Int × SpeedManger :=
  (manager.granted, { manager with currentSpeed := manager.currentSpeed + manager.granted })

def returnSpeed (manager : SpeedManger) (speed : Int) : SpeedManger :=
  let current := manager.currentSpeed - speed
  { manager with currentSpeed := if current < 0 then 0 else current }

/-- The base speed stays what the constructor made it. -/
def setSpeed (manager : SpeedManger) (speed : Int) : SpeedManger :=
  { manager with maxSpeed := speed }

end SpeedManger

/-- The call that `SendPack_ex` is about to make. The speed manager answers its
own; `reply` is the answer to any other. -/
def answer (order : Endian) (manager : SpeedManger) (sender : SendPack.State) (reply : Reply) :
    Option (SpeedManger × SendPack.State) :=
  match call order sender with
  | none => none
  | some .querySpeed =>
      (resume sender (.grant manager.querySpeed.1)).map (Prod.mk manager.querySpeed.2)
  | some (.returnSpeed speed) =>
      (resume sender .done).map (Prod.mk (manager.returnSpeed speed))
  | some _ => (resume sender reply).map (Prod.mk manager)

/-- The grant that the call holds; once it is given back, `queryed` is stale. -/
def held (sender : SendPack.State) : Int :=
  match sender.pc with
  | .okClose | .finished _ => 0
  | _ => sender.queryed

/-- A grant is queried when none is held and returned when one is. -/
def Ready (sender : SendPack.State) : Prop :=
  match sender.pc with
  | .stat | .openFile | .query => sender.queryed = 0
  | .giveBack | .okGiveBack | .errGiveBack => sender.queryed ≠ 0
  | _ => True

section
variable {order : Endian} {manager manager' : SpeedManger} {sender next : SendPack.State}
  {reply : Reply} {speed : Int}

/-- A manager as `main` leaves it by default, with no more than `max_speed` in use. -/
structure Bounded (manager : SpeedManger) : Prop where
  max : manager.maxSpeed = 800
  base : manager.baseSpeed = 80
  nonneg : 0 ≤ manager.currentSpeed
  le : manager.currentSpeed ≤ 800

theorem bounded_new : Bounded .new := ⟨rfl, rfl, by decide, by decide⟩

theorem Bounded.granted (h : Bounded manager) :
    0 ≤ manager.granted ∧ manager.currentSpeed + manager.granted ≤ 800 := by
  have hnonneg := h.nonneg
  have hle := h.le
  have hhalf : (800 : Int).tdiv 2 = 400 := by decide
  have hidle : (800 - manager.currentSpeed).tdiv 2 = (800 - manager.currentSpeed) / 2 :=
    Int.tdiv_eq_ediv_of_nonneg (by omega)
  simp only [SpeedManger.granted, h.max, h.base, hhalf, hidle]
  split <;> omega

theorem Bounded.querySpeed (h : Bounded manager) : Bounded manager.querySpeed.2 := by
  have hgranted := h.granted
  have hnonneg := h.nonneg
  refine ⟨h.max, h.base, ?_, hgranted.2⟩
  simp only [SpeedManger.querySpeed]
  omega

theorem Bounded.returnSpeed (h : Bounded manager) (hpart : 0 ≤ speed ∧ speed ≤ manager.currentSpeed) :
    Bounded (manager.returnSpeed speed) ∧
      (manager.returnSpeed speed).currentSpeed = manager.currentSpeed - speed := by
  have hle := h.le
  have hnot : ¬manager.currentSpeed - speed < 0 := by omega
  simp only [SpeedManger.returnSpeed, if_neg hnot, and_true]
  refine ⟨h.max, h.base, ?_, ?_⟩
  · dsimp only
    omega
  · dsimp only
    omega

theorem resume_query (hpc : sender.pc = .query) (h : resume sender (.grant speed) = some next) :
    Ready next ∧ held next = speed := by
  simp only [resume, hpc] at h
  split at h
  · cases h
    simp [Ready, held]
  · cases h
    simp [Ready, held]

theorem resume_return (hpc : sender.pc = .giveBack ∨ sender.pc = .okGiveBack ∨
    sender.pc = .errGiveBack) (h : resume sender .done = some next) :
    Ready next ∧ held next = 0 := by
  rcases hpc with hpc | hpc | hpc
  all_goals
    simp only [resume, hpc, Option.some.injEq] at h
    subst h
    simp [Ready, held]

theorem resume_other (ready : Ready sender) (hquery : sender.pc ≠ .query)
    (hreturn : ¬(sender.pc = .giveBack ∨ sender.pc = .okGiveBack ∨ sender.pc = .errGiveBack))
    (h : resume sender reply = some next) : Ready next ∧ held next = held sender := by
  unfold resume at h
  split at h
  · -- stat
    rename_i hpc
    cases h
    simp only [Ready, hpc] at ready
    split <;> simp [Ready, held, hpc, ready]
  · -- openFile
    rename_i hpc
    cases h
    simp only [Ready, hpc] at ready
    split <;> simp [Ready, held, hpc, ready]
  · -- a failed read
    rename_i hpc
    cases h
    simp [Ready, held, hpc]
  · -- the end of the file
    rename_i hpc
    cases h
    by_cases hheld : sender.queryed = 0
    · simp [Ready, held, hpc, hheld]
    · simp [Ready, held, hpc, hheld]
  · -- read
    rename_i bytes _ hpc
    split at h
    · cases h
      rcases afterRead_cases (packed sender bytes) with hnext | ⟨hnext, hheld⟩ | ⟨hnext, hheld⟩ | hnext
      all_goals simp_all [Ready, held, packed]
    · contradiction
  · -- giveBack
    rename_i hpc
    exact absurd (Or.inl hpc) hreturn
  · -- query
    rename_i hpc
    exact absurd hpc hquery
  · -- a failed sendto
    rename_i hpc
    cases h
    simp [Ready, held, hpc]
  · -- sendto
    rename_i hpc
    cases h
    split
    · simp [Ready, held, hpc]
    · rcases afterSend_cases sender with hnext | hnext | hnext
      all_goals simp [Ready, held, hpc, hnext]
  · -- sleepFirst
    rename_i hpc
    cases h
    rcases afterSend_cases sender with hnext | hnext | hnext
    all_goals simp [Ready, held, hpc, hnext]
  · -- sleepBatch
    rename_i hpc
    cases h
    simp [Ready, held, hpc]
  · -- okGiveBack
    rename_i hpc
    exact absurd (Or.inr (Or.inl hpc)) hreturn
  · -- okClose
    rename_i hpc
    cases h
    simp [Ready, held, hpc]
  · -- errClose
    rename_i hpc
    cases h
    by_cases hheld : sender.queryed = 0
    · simp [Ready, held, hpc, hheld]
    · simp [Ready, held, hpc, hheld]
  · -- errGiveBack
    rename_i hpc
    exact absurd (Or.inr (Or.inr hpc)) hreturn
  · -- no such reply
    contradiction

theorem call_query (h : call order sender = some .querySpeed) : sender.pc = .query := by
  unfold call at h
  split at h <;> simp_all

theorem call_returnSpeed (ready : Ready sender) (h : call order sender = some (.returnSpeed speed)) :
    (sender.pc = .giveBack ∨ sender.pc = .okGiveBack ∨ sender.pc = .errGiveBack) ∧
      speed = held sender ∧ speed ≠ 0 := by
  unfold call at h
  unfold Ready at ready
  unfold held
  split at h <;> simp_all

/-- What one call of `SendPack_ex` does with the quota. -/
theorem answer_cases (ready : Ready sender)
    (h : answer order manager sender reply = some (manager', next)) :
    Ready next ∧
      ((sender.pc = .query ∧ held sender = 0 ∧ held next = manager.granted ∧
          manager' = manager.querySpeed.2) ∨
        (sender.pc ≠ .query ∧ held sender ≠ 0 ∧ held next = 0 ∧
          manager' = manager.returnSpeed (held sender)) ∨
        (sender.pc ≠ .query ∧ held next = held sender ∧ manager' = manager)) := by
  unfold answer at h
  split at h
  · contradiction
  · rename_i hcall
    obtain ⟨resumed, hresume, hpair⟩ := Option.map_eq_some_iff.mp h
    cases hpair
    have hpc := call_query hcall
    obtain ⟨hready, hheld⟩ := resume_query hpc hresume
    have hnone : held sender = 0 := by
      simpa [Ready, held, hpc] using ready
    exact ⟨hready, .inl ⟨hpc, hnone, hheld, rfl⟩⟩
  · rename_i speed hcall
    obtain ⟨resumed, hresume, hpair⟩ := Option.map_eq_some_iff.mp h
    cases hpair
    obtain ⟨hpc, hspeed, hne⟩ := call_returnSpeed ready hcall
    obtain ⟨hready, hheld⟩ := resume_return hpc hresume
    have hquery : sender.pc ≠ .query := by
      rcases hpc with hpc | hpc | hpc <;> simp [hpc]
    subst hspeed
    exact ⟨hready, .inr (.inl ⟨hquery, hne, hheld, rfl⟩)⟩
  · rename_i made hquery hreturn hcall
    obtain ⟨resumed, hresume, hpair⟩ := Option.map_eq_some_iff.mp h
    cases hpair
    have hother : sender.pc ≠ .query ∧ ¬(sender.pc = .giveBack ∨ sender.pc = .okGiveBack ∨
        sender.pc = .errGiveBack) := by
      constructor
      · intro hpc
        rw [call, hpc] at hcall
        exact hquery (Option.some.inj hcall).symm
      · rintro (hpc | hpc | hpc)
        all_goals
          rw [call, hpc] at hcall
          exact hreturn sender.queryed (Option.some.inj hcall).symm
    obtain ⟨hready, hheld⟩ := resume_other ready hother.1 hother.2 hresume
    exact ⟨hready, .inr (.inr ⟨hother.1, hheld, rfl⟩)⟩

theorem ready_start (filePath : Bytes) (packT : Int) : Ready (SendPack.start filePath packT) := rfl

@[simp] theorem held_start (filePath : Bytes) (packT : Int) : held (SendPack.start filePath packT) = 0 := rfl

end

end UdpFileProxy.Speed
