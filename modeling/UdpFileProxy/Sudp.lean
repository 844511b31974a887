import UdpFileProxy.FileProcess
import UdpFileProxy.Sending

/-! The process `Sudp`: the receive loop of `main`, which puts every datagram
into a System V message queue under its packet number, and `File_Process`, which
takes messages out of it. A step of the process is one call of `recvfrom`, of
`msgsnd`, or of `msgrcv` with the work on the message that it returned. -/
namespace UdpFileProxy.Sudp
open Lib.Memory Lib.TypedFifo Protocol FileProcess
open Reassembly (Origin)
open Sending (Datagram)

/-- `origin` is the history that the datagram brought along. -/
structure Msg where
  mtype : Int
  mtext : Bytes
  origin : Origin

/-- The variables of the receive loop, and what it printed as lost: the pairs of
`save` and `pack_nu`. -/
structure RecvLoop where
  msg : Buffer maxdatasize
  save : Int
  lost : List (Int × Int)

/-- A message queue may be full: `room` says when it takes one more message. -/
structure Host where
  info : Info
  room : List Msg → Msg → Bool

/-- A job given to the thread pool, with the packets that were written. -/
structure Finished where
  job : Job
  packets : List Origin

inductive Phase where
  | polling
  | waiting
  deriving DecidableEq, Repr

structure State where
  incoming : List Datagram
  loop : RecvLoop
  held : Option Msg
  queue : List Msg
  phase : Phase
  fp : FileProcess.State
  packets : List Origin
  jobs : List Finished
  stopped : Option Stop

inductive Action where
  | recvfrom
  | msgsnd
  | poll (io : FileIo)
  | wait (io : FileIo)
  deriving DecidableEq, Repr

def start (arrivals : List Datagram) : State where
  incoming := arrivals
  loop := ⟨.zeros maxdatasize, 0, []⟩
  held := none
  queue := []
  phase := .polling
  fp := FileProcess.start
  packets := []
  jobs := []
  stopped := none

/-- From `recvfrom` to `msgsnd`: the packet number is read, compared with the
previous one, and the datagram is copied behind the type of the message. -/
def receive (order : Endian) (loop : RecvLoop) (datagram : Datagram) :
    Except Stop (RecvLoop × Msg) :=
  let text := datagram.bytes.take maxdatasize
  let msg := loop.msg.fill text
  let packNu := loadInt order ((msg.bytes.drop 2).take 8)
  let save := if packNu = 1 then 0 else loop.save
  let lost := if packNu ≠ wrap64 (save + 1) then loop.lost ++ [(save, packNu)] else loop.lost
  if msgbufText < text.length then .error .undefined
  else .ok (⟨msg, packNu, lost⟩, ⟨packNu, text, datagram.origin⟩)

/-- `File_Process` works on the message that `msgrcv` returned. -/
def takeMessage (host : Host) (io : FileIo) (state : State) (move : Int) (msg : Msg)
    (rest : List Msg) : State :=
  let packets :=
    if startsFile (FileProcess.receive state.fp move msg.mtext) then [msg.origin]
    else state.packets ++ [msg.origin]
  match iterate host.info io state.fp move msg.mtext with
  | .error stop => { state with queue := rest, stopped := some stop }
  | .ok (fp, job) =>
      { state with
        queue := rest
        phase := .polling
        fp := fp
        packets := if fp.packSaved = 0 then [] else packets
        jobs := state.jobs ++ (job.map fun done => Finished.mk done packets).toList }

/-- The message that a step takes, and what `pack_move` is before the increment. -/
def taken (state : State) (action : Action) : Option (Int × Msg × List Msg) :=
  match action, state.phase with
  | .poll _, .polling =>
      (msgrcv Msg.mtype state.queue state.fp.packMove).map fun found =>
        (state.fp.packMove, found.1, found.2)
  | .wait _, .waiting =>
      (msgrcv Msg.mtype state.queue 0).map fun found => (found.1.mtype, found.1, found.2)
  | _, _ => none

def step (host : Host) (state : State) (action : Action) : Option State :=
  if state.stopped.isSome then none
  else
    match action with
    | .recvfrom =>
        match state.incoming, state.held with
        | datagram :: rest, none =>
            match receive host.info.order state.loop datagram with
            | .error stop => some { state with stopped := some stop }
            | .ok (loop, msg) => some { state with incoming := rest, loop := loop, held := some msg }
        | _, _ => none
    | .msgsnd =>
        match state.held with
        | none => none
        | some msg =>
            -- a type below 1 fails with EINVAL, both times
            if msg.mtype < 1 then some { state with held := none }
            else if host.room state.queue msg then
              some { state with held := none, queue := state.queue ++ [msg] }
            else none
    | .poll io =>
        match state.phase with
        | .waiting => none
        | .polling =>
            match taken state (.poll io) with
            | some (move, msg, rest) => some (takeMessage host io state move msg rest)
            | none => some { state with phase := .waiting }
    | .wait io =>
        match taken state (.wait io) with
        | some (move, msg, rest) => some (takeMessage host io state move msg rest)
        | none => none

/-- Every step moves a datagram on, starts to wait, or ends the process. -/
def work (state : State) : Nat :=
  4 * state.incoming.length + 3 * state.held.toList.length + 2 * state.queue.length +
    (if state.phase = .polling then 1 else 0) + (if state.stopped.isSome then 0 else 1)

section
variable {host : Host} {io : FileIo} {state next : State} {action : Action} {move : Int} {msg : Msg}
  {rest : List Msg}

theorem split_of_taken (h : taken state action = some (move, msg, rest)) :
    ∃ older newer, state.queue = older ++ msg :: newer ∧ rest = older ++ newer := by
  unfold taken at h
  split at h
  · simp only [Option.map_eq_some_iff, Prod.exists, Prod.mk.injEq] at h
    obtain ⟨_, _, hfound, -, rfl, rfl⟩ := h
    exact split_of_msgrcv hfound
  · simp only [Option.map_eq_some_iff, Prod.exists, Prod.mk.injEq] at h
    obtain ⟨_, _, hfound, -, rfl, rfl⟩ := h
    exact split_of_msgrcv hfound
  · contradiction

theorem length_taken (h : taken state action = some (move, msg, rest)) :
    rest.length + 1 = state.queue.length := by
  obtain ⟨older, newer, hqueue, rfl⟩ := split_of_taken h
  rw [hqueue]
  simp only [List.length_append, List.length_cons]
  omega

theorem work_takeMessage (hlength : rest.length + 1 = state.queue.length) :
    work (takeMessage host io state move msg rest) < work state := by
  have hphase : (if state.phase = .polling then 1 else 0) ≤ 1 := by split <;> omega
  unfold takeMessage work
  dsimp only
  cases iterate host.info io state.fp move msg.mtext with
  | error stop =>
    simp only [Option.isSome_some, if_true]
    omega
  | ok result =>
    simp only [if_true]
    omega

theorem step_decreases (h : step host state action = some next) : work next < work state := by
  unfold step at h
  split at h
  · contradiction
  rename_i hrunning
  cases action with
  | recvfrom =>
    dsimp only at h
    split at h
    · rename_i sent rest hincoming hheld
      split at h
      · cases h
        simp [work, hrunning]
      · cases h
        simp only [work, hincoming, hheld, Option.toList_some, Option.toList_none, List.length_cons,
          List.length_nil]
        omega
    · contradiction
  | msgsnd =>
    dsimp only at h
    split at h
    · contradiction
    rename_i msg hheld
    split at h
    · cases h
      simp only [work, hheld, Option.toList_some, Option.toList_none, List.length_cons,
        List.length_nil]
      omega
    · split at h
      · cases h
        simp only [work, hheld, Option.toList_some, Option.toList_none, List.length_cons,
          List.length_nil, List.length_append]
        omega
      · contradiction
  | poll io =>
    dsimp only at h
    split at h
    · contradiction
    rename_i hphase
    split at h
    · rename_i move msg rest htaken
      cases h
      exact work_takeMessage (length_taken htaken)
    · cases h
      simp [work, hphase]
  | wait io =>
    dsimp only at h
    split at h
    · rename_i move msg rest htaken
      cases h
      exact work_takeMessage (length_taken htaken)
    · contradiction

/-- The same process with more datagrams on their way to it. -/
def expecting (state : State) (later : List Datagram) : State :=
  { state with incoming := state.incoming ++ later }

@[simp] theorem taken_expecting (later : List Datagram) :
    taken (expecting state later) action = taken state action := rfl

@[simp] theorem takeMessage_expecting (later : List Datagram) :
    takeMessage host io (expecting state later) move msg rest =
      expecting (takeMessage host io state move msg rest) later := by
  unfold takeMessage expecting
  dsimp only
  cases iterate host.info io state.fp move msg.mtext <;> rfl

theorem step_expecting (later : List Datagram) (h : step host state action = some next) :
    step host (expecting state later) action = some (expecting next later) := by
  have hstopped : (expecting state later).stopped = state.stopped := rfl
  have hheld : (expecting state later).held = state.held := rfl
  have hqueue : (expecting state later).queue = state.queue := rfl
  have hphase : (expecting state later).phase = state.phase := rfl
  have hloop : (expecting state later).loop = state.loop := rfl
  have hincoming : (expecting state later).incoming = state.incoming ++ later := rfl
  unfold step at h ⊢
  rw [hstopped]
  split at h
  · contradiction
  rename_i hrunning
  rw [if_neg hrunning]
  cases action with
  | recvfrom =>
    simp only [hincoming, hheld, hloop] at h ⊢
    cases harrived : state.incoming with
    | nil =>
      rw [harrived] at h
      contradiction
    | cons sent rest =>
      cases hfull : state.held with
      | some msg =>
        rw [harrived, hfull] at h
        contradiction
      | none =>
        simp only [harrived, hfull, List.cons_append] at h ⊢
        cases hreceive : receive host.info.order state.loop sent <;>
          simp only [hreceive] at h ⊢ <;> cases h <;> simp [expecting, harrived]
  | msgsnd =>
    simp only [hheld, hqueue] at h ⊢
    cases hfull : state.held with
    | none =>
      rw [hfull] at h
      contradiction
    | some msg =>
      simp only [hfull] at h ⊢
      split at h
      · rename_i hmtype
        cases h
        rw [if_pos hmtype]
        rfl
      · rename_i hmtype
        rw [if_neg hmtype]
        split at h
        · rename_i hroom
          cases h
          rw [if_pos hroom]
          rfl
        · contradiction
  | poll io =>
    simp only [hphase, taken_expecting, takeMessage_expecting] at h ⊢
    cases hphase' : state.phase with
    | waiting =>
      rw [hphase'] at h
      contradiction
    | polling =>
      simp only [hphase'] at h ⊢
      cases hfound : taken state (.poll io) <;> simp only [hfound] at h ⊢ <;> cases h <;> rfl
  | wait io =>
    simp only [taken_expecting, takeMessage_expecting] at h ⊢
    cases hfound : taken state (.wait io) with
    | none =>
      rw [hfound] at h
      contradiction
    | some found =>
      simp only [hfound] at h ⊢
      cases h
      rfl

end

end UdpFileProxy.Sudp
