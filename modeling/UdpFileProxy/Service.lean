import UdpFileProxy.EndToEnd
import UdpFileProxy.Receipts

/-! One `Sudp` with its pool and its files. The receive loop goes on while `File_Process` is
at work on a message, call by call, and the workers move the files that came before. -/
namespace UdpFileProxy.Service
open Lib.Memory Lib.Run Protocol FileProcess
open Sudp (Host Msg Finished taken takeMessage expecting)
open Notify (Phase)
open Receipts (isStopped)
open Reassembly (Origin)
open Sending (Datagram)
open Integrity (TakesOwn)
open EndToEnd (Flawless)

/-- When a message queue takes one more message is up to the system. -/
structure Setup where
  receipts : Receipts.Setup
  room : List Msg → Msg → Bool

def Setup.host (setup : Setup) : Host := ⟨setup.receipts.notify.info, setup.room⟩

/-- `sudp.fp`, `sudp.packets` and `sudp.jobs` are as `File_Process` left them when it was last
done with a message. `packets` are those of the open file, with the one that it is at work on. -/
structure State where
  sudp : Sudp.State
  packets : List Origin
  receipts : Receipts.State

def start (setup : Setup) (files : Bytes → Option Bytes) (arrivals : List Datagram) : State where
  sudp := Sudp.start arrivals
  packets := []
  receipts := Receipts.start setup.receipts files

inductive Action where
  | recvfrom
  | msgsnd
  | poll
  | wait
  | works (action : Receipts.Action)
  deriving DecidableEq

/-- `msgrcv`, where the other calls of `File_Process` are done. -/
def stepTakes (setup : Setup) (state : State) (action : Sudp.Action) : Option State :=
  match state.receipts.notify.phase with
  | .msgrcv =>
      match taken state.sudp action with
      | none => (Sudp.step setup.host state.sudp action).map fun sudp => { state with sudp := sudp }
      | some (move, msg, rest) =>
          (Receipts.step setup.receipts state.receipts (.process (.msgrcv move msg.mtext) 0)).map
            fun receipts =>
              { sudp := { state.sudp with queue := rest, phase := .polling }
                packets :=
                  if startsFile receipts.notify.fp then [msg.origin]
                  else state.sudp.packets ++ [msg.origin]
                receipts := receipts }
  | _ => none

/-- A message was written, and with it a file if there is a job. -/
def State.written (state : State) (fp : FileProcess.State) (job : Option Job) : Sudp.State :=
  { state.sudp with
    fp := fp
    packets := if fp.packSaved = 0 then [] else state.packets
    jobs := state.sudp.jobs ++ (job.map fun done => Finished.mk done state.packets).toList }

/-- The other calls of `File_Process` and those of the workers. -/
def stepWorks (setup : Setup) (state : State) (action : Receipts.Action) : Option State :=
  (Receipts.step setup.receipts state.receipts action).map fun receipts =>
    match action, receipts.notify.phase with
    | .process (.fwrite _) _, .msgrcv =>
        { state with sudp := state.written receipts.notify.fp none, receipts := receipts }
    | .process (.fwrite _) _, .addJob job =>
        { state with sudp := state.written receipts.notify.fp (some job), receipts := receipts }
    | _, _ => { state with receipts := receipts }

def step (setup : Setup) (state : State) (action : Action) : Option State :=
  if isStopped state.receipts.notify.phase ∨ state.sudp.stopped.isSome then none
  else
    match action with
    | .recvfrom =>
        (Sudp.step setup.host state.sudp .recvfrom).map fun sudp => { state with sudp := sudp }
    | .msgsnd =>
        (Sudp.step setup.host state.sudp .msgsnd).map fun sudp => { state with sudp := sudp }
    | .poll => stepTakes setup state (.poll .ok)
    | .wait => stepTakes setup state (.wait .ok)
    | .works (.process (.msgrcv _ _) _) => none
    | .works action => stepWorks setup state action

/-- The call does not fail. -/
def Smooth : Receipts.Action → Prop
  | .process action lost =>
      lost = 0 ∧
        match action with
        | .strcat io => io.opens = true
        | .fwrite io => io.writes = true
        | .addJob memory => memory ≠ none
        | _ => True
  | .unsent _ => False
  | _ => True

/-- No file is mixed with another one, and none is disturbed by another one. Where nothing is
lost, no call of `File_Process` fails either, and every notice is sent. -/
def Allowed (setup : Setup) (lossless : Bool) (state : State) : Action → Prop
  | .poll => lossless = false → TakesOwn state.sudp (.poll .ok)
  | .wait => lossless = false → TakesOwn state.sudp (.wait .ok)
  | .works action =>
      Receipts.Undisturbed setup.receipts state.receipts action ∧ (lossless = true → Smooth action)
  | _ => True

section
variable (setup : Setup) (lossless : Bool) (state : State)

instance : ∀ action, Decidable (Smooth action)
  | .process (.strcat io) lost => inferInstanceAs (Decidable (lost = 0 ∧ io.opens = true))
  | .process (.fwrite io) lost => inferInstanceAs (Decidable (lost = 0 ∧ io.writes = true))
  | .process (.addJob memory) lost => inferInstanceAs (Decidable (lost = 0 ∧ memory ≠ none))
  | .process (.msgrcv _ _) lost => inferInstanceAs (Decidable (lost = 0 ∧ True))
  | .process .sprintf lost => inferInstanceAs (Decidable (lost = 0 ∧ True))
  | .process (.takeJob _) lost => inferInstanceAs (Decidable (lost = 0 ∧ True))
  | .process (.readPath _) lost => inferInstanceAs (Decidable (lost = 0 ∧ True))
  | .process (.finish _) lost => inferInstanceAs (Decidable (lost = 0 ∧ True))
  | .begins _ => inferInstanceAs (Decidable True)
  | .calls _ _ => inferInstanceAs (Decidable True)
  | .unsent _ => inferInstanceAs (Decidable False)

instance : ∀ action, Decidable (Allowed setup lossless state action)
  | .poll => inferInstanceAs (Decidable (lossless = false → TakesOwn state.sudp (.poll .ok)))
  | .wait => inferInstanceAs (Decidable (lossless = false → TakesOwn state.sudp (.wait .ok)))
  | .works action => inferInstanceAs (Decidable
      (Receipts.Undisturbed setup.receipts state.receipts action ∧ (lossless = true → Smooth action)))
  | .recvfrom => inferInstanceAs (Decidable True)
  | .msgsnd => inferInstanceAs (Decidable True)

end

/-- The condition on `Sudp`. -/
def Careful (lossless : Bool) (receiver : Sudp.State) (action : Sudp.Action) : Prop :=
  (lossless = false → TakesOwn receiver action) ∧ (lossless = true → Flawless receiver action)

/-! ### Simulation -/

def withIo (io : FileIo) : Sudp.Action → Sudp.Action
  | .poll _ => .poll io
  | .wait _ => .wait io
  | action => action

/-- The receive loop alone. -/
def receives (host : Host) (sudp : Sudp.State) : Sudp.Action → Option Sudp.State
  | .recvfrom => Sudp.step host sudp .recvfrom
  | .msgsnd => Sudp.step host sudp .msgsnd
  | _ => none

/-- The calls of `iterate` that are still to come. -/
def unfinished (info : Info) (io : FileIo) (fp : FileProcess.State) :
    Phase → Except Stop (FileProcess.State × Option Job)
  | .sprintf => do
      let (named, fileName) ← readHeader info fp
      let opened ← openFile io named fileName
      writePack info io opened
  | .strcat fileName => do
      let opened ← openFile io fp fileName
      writePack info io opened
  | _ => writePack info io fp

/-- `Sudp` waits at `base` until `File_Process` is done with the message that it has taken,
and then makes up for what the receive loop did meanwhile. -/
inductive Progress (setup : Setup) (lossless : Bool) (base : Sudp.State) (state : State) : Prop where
  | done (hphase : state.receipts.notify.phase = .msgrcv ∨
        ∃ job, state.receipts.notify.phase = .addJob job)
      (hbase : state.sudp = base) (hfp : base.fp = state.receipts.notify.fp)
  | working (action : Sudp.Action) (move : Int) (msg : Msg) (rest : List Msg)
      (later : List Sudp.Action) (hrunning : base.stopped = none)
      (htaken : taken base action = some (move, msg, rest))
      (hcareful : lossless = false → TakesOwn base action)
      (hphase : state.receipts.notify.phase = .sprintf ∨
        (∃ fileName, state.receipts.notify.phase = .strcat fileName) ∨
          state.receipts.notify.phase = .fwrite)
      (hpackets : state.packets = if startsFile (receive base.fp move msg.mtext) then [msg.origin]
        else base.packets ++ [msg.origin])
      (hcalls : ∀ io, io.opens = true → iterate setup.host.info io base.fp move msg.mtext =
        unfinished setup.host.info io state.receipts.notify.fp state.receipts.notify.phase)
      (hlater : exec (receives setup.host) { base with queue := rest, phase := .polling } later =
        some state.sudp)
  | stopped (hstopped : isStopped state.receipts.notify.phase = true)

/-- The job that is about to be added. -/
def pendingJob : Phase → List Job
  | .addJob job => [job]
  | _ => []

structure Lags (setup : Setup) (lossless : Bool) (base : Sudp.State) (state : State) : Prop where
  progress : Progress setup lossless base state
  jobs : state.sudp.jobs = base.jobs
  accepted : (state.receipts.notify.accepted ++ pendingJob state.receipts.notify.phase).Sublist
    (base.jobs.map Finished.job)
  all : lossless = true → isStopped state.receipts.notify.phase = false →
    state.receipts.notify.accepted ++ pendingJob state.receipts.notify.phase =
      base.jobs.map Finished.job
  isOpen : state.receipts.notify.pool.queueClose = false ∧
    state.receipts.notify.pool.poolClose = false

section
variable {setup : Setup} {lossless : Bool} {base sudp : Sudp.State} {state next : State}

theorem lags_start (files : Bytes → Option Bytes) (arrivals : List Datagram) :
    Lags setup lossless (Sudp.start arrivals) (start setup files arrivals) where
  progress := .done (.inl rfl) rfl rfl
  jobs := rfl
  accepted := List.Sublist.refl _
  all := fun _ _ => rfl
  isOpen := ⟨rfl, rfl⟩

@[simp] theorem taken_withIo (io : FileIo) (action : Sudp.Action) :
    taken base (withIo io action) = taken base action := by
  unfold taken withIo
  cases action <;> cases base.phase <;> rfl

theorem step_withIo {host : Host} {action : Sudp.Action} {move : Int} {msg : Msg} {rest : List Msg}
    (hrunning : base.stopped = none) (htaken : taken base action = some (move, msg, rest))
    (io : FileIo) :
    Sudp.step host base (withIo io action) = some (takeMessage host io base move msg rest) := by
  have hnot : base.stopped.isSome = false := by simp [hrunning]
  have hsame : taken base (withIo io action) = taken base action := taken_withIo io action
  rw [htaken] at hsame
  cases action with
  | poll other =>
    cases hphase : base.phase with
    | waiting => simp [taken, hphase] at htaken
    | polling =>
      simp only [withIo] at hsame ⊢
      simp [Sudp.step, hnot, hphase, hsame]
  | wait other =>
    simp only [withIo] at hsame ⊢
    simp [Sudp.step, hnot, hsame]
  | recvfrom => simp [taken] at htaken
  | msgsnd => simp [taken] at htaken

theorem receives_frame {host : Host} {action : Sudp.Action} (h : receives host base action = some sudp) :
    (sudp.fp = base.fp ∧ sudp.packets = base.packets ∧ sudp.jobs = base.jobs) ∧
      ∀ fp packets jobs, receives host { base with fp := fp, packets := packets, jobs := jobs } action =
        some { sudp with fp := fp, packets := packets, jobs := jobs } := by
  cases action with
  | recvfrom =>
    simp only [receives, Sudp.step] at h ⊢
    split at h
    · contradiction
    rename_i hrunning
    simp only [hrunning, Bool.false_eq_true, if_false]
    split at h
    · rename_i datagram rest hincoming hheld
      simp only [hincoming, hheld]
      split at h
      · rename_i stop hreceive
        cases h
        simp [hincoming, hheld]
      · rename_i loop msg hreceive
        cases h
        simp
    · contradiction
  | msgsnd =>
    simp only [receives, Sudp.step] at h ⊢
    split at h
    · contradiction
    rename_i hrunning
    simp only [hrunning, Bool.false_eq_true, if_false]
    cases hheld : base.held with
    | none => simp [hheld] at h
    | some msg =>
      simp only [hheld] at h ⊢
      split at h
      · rename_i hmtype
        cases h
        simp [hmtype]
      · rename_i hmtype
        split at h
        · rename_i hroom
          cases h
          simp [hmtype, hroom]
        · contradiction
  | poll io => contradiction
  | wait io => contradiction

theorem careful_receives {host : Host} {action : Sudp.Action}
    (h : receives host base action = some sudp) :
    Careful lossless base action ∧ Sudp.step host base action = some sudp := by
  cases action with
  | recvfrom => exact ⟨⟨fun _ => by simp [TakesOwn, taken], fun _ => rfl⟩, h⟩
  | msgsnd => exact ⟨⟨fun _ => by simp [TakesOwn, taken], fun _ => rfl⟩, h⟩
  | poll io => contradiction
  | wait io => contradiction

theorem makes_up {host : Host} {later : List Sudp.Action}
    (run : exec (receives host) base later = some sudp) :
    Meets (Sudp.step host) (Careful lossless) base later ∧
      exec (Sudp.step host) base later = some sudp := by
  induction later generalizing base with
  | nil => exact ⟨trivial, run⟩
  | cons action rest ih =>
    obtain ⟨after, hstep, run⟩ := exec_cons_eq_some.mp run
    obtain ⟨hcareful, hsame⟩ := careful_receives hstep
    obtain ⟨meets, run⟩ := ih run
    refine ⟨⟨hcareful, fun other hother => ?_⟩, exec_cons_eq_some.mpr ⟨after, hsame, run⟩⟩
    obtain rfl := Option.some.inj (hsame.symm.trans hother)
    exact meets

/-- What a worker does to the pool is nothing to `File_Process`. -/
structure Same (before after : Notify.State) : Prop where
  phase : after.phase = before.phase
  fp : after.fp = before.fp
  accepted : after.accepted = before.accepted
  queueClose : after.pool.queueClose = before.pool.queueClose
  poolClose : after.pool.poolClose = before.pool.poolClose

theorem same_takeJob {notify : Notify.Setup} {before after : Notify.State} {worker : Nat}
    (h : Notify.step notify before (.takeJob worker) = some after) : Same before after := by
  simp only [Notify.step] at h
  split at h
  · split at h
    · rename_i pjob pool empty notFull htaken
      cases h
      obtain ⟨hpool, -, hqueue, hnext, -⟩ := ThreadPool.takeJob_took htaken
      exact ⟨rfl, rfl, rfl, hqueue, hnext.trans hpool.symm⟩
    · contradiction
  · contradiction

theorem same_readPath {notify : Notify.Setup} {before after : Notify.State} {worker : Nat}
    (h : Notify.step notify before (.readPath worker) = some after) : Same before after := by
  simp only [Notify.step] at h
  split at h
  · obtain ⟨cell, -, rfl⟩ := Option.map_eq_some_iff.mp h
    exact ⟨rfl, rfl, rfl, rfl, rfl⟩
  · contradiction

theorem same_finish {notify : Notify.Setup} {before after : Notify.State} {worker : Nat}
    (h : Notify.step notify before (.finish worker) = some after) : Same before after := by
  simp only [Notify.step] at h
  split at h
  · cases h
    exact ⟨rfl, rfl, rfl, rfl, rfl⟩
  · contradiction

theorem same_begins {receipts after : Receipts.State} {worker : Nat}
    (h : Receipts.stepBegins setup.receipts receipts worker = some after) :
    Same receipts.notify after.notify := by
  unfold Receipts.stepBegins at h
  split at h
  · obtain ⟨number, -, h⟩ := Option.bind_eq_some_iff.mp h
    obtain ⟨notify, hnotify, h⟩ := Option.bind_eq_some_iff.mp h
    obtain ⟨called, -, h⟩ := Option.bind_eq_some_iff.mp h
    obtain rfl := Option.some.inj h
    exact same_readPath hnotify
  · contradiction

theorem same_unsent {receipts after : Receipts.State} {worker : Nat}
    (h : Receipts.stepUnsent setup.receipts receipts worker = some after) :
    Same receipts.notify after.notify := by
  obtain ⟨receipt, -, h⟩ := Option.bind_eq_some_iff.mp h
  obtain ⟨called, -, h⟩ := Option.bind_eq_some_iff.mp h
  split at h
  · obtain ⟨notify, hnotify, rfl⟩ := Option.map_eq_some_iff.mp h
    exact same_finish hnotify
  · contradiction

theorem same_calls {receipts after : Receipts.State} {worker : Nat} {reply : Announcements.Reply}
    (h : Receipts.stepCalls setup.receipts receipts worker reply = some after) :
    Same receipts.notify after.notify := by
  obtain ⟨receipt, -, h⟩ := Option.bind_eq_some_iff.mp h
  obtain ⟨called, -, h⟩ := Option.bind_eq_some_iff.mp h
  split at h
  · obtain ⟨notify, hnotify, rfl⟩ := Option.map_eq_some_iff.mp h
    exact same_finish hnotify
  · obtain rfl := Option.some.inj h
    exact ⟨rfl, rfl, rfl, rfl, rfl⟩

theorem Progress.same (h : Progress setup lossless base state) {receipts : Receipts.State}
    (hsame : Same state.receipts.notify receipts.notify) :
    Progress setup lossless base { state with receipts := receipts } := by
  obtain ⟨hphase', hfp', -⟩ := hsame
  cases h with
  | done hphase hbase hfp =>
    refine .done ?_ hbase (hfp.trans hfp'.symm)
    dsimp only
    rwa [hphase']
  | working action move msg rest later hrunning htaken hcareful hphase hpackets hcalls hlater =>
    refine .working action move msg rest later hrunning htaken hcareful ?_ hpackets ?_ hlater
    · dsimp only
      rwa [hphase']
    · dsimp only
      rwa [hphase', hfp']
  | stopped hstopped =>
    refine .stopped ?_
    dsimp only
    rwa [hphase']

theorem Lags.same (h : Lags setup lossless base state) {receipts : Receipts.State}
    (hsame : Same state.receipts.notify receipts.notify) :
    Lags setup lossless base { state with receipts := receipts } where
  progress := h.progress.same hsame
  jobs := h.jobs
  accepted := by
    have haccepted := h.accepted
    rwa [← hsame.accepted, ← hsame.phase] at haccepted
  all := by
    have hall := h.all
    rwa [← hsame.accepted, ← hsame.phase] at hall
  isOpen := by
    have hopen := h.isOpen
    rwa [← hsame.queueClose, ← hsame.poolClose] at hopen

/-- `Sudp` gets from one state to the other. -/
def Reaches (setup : Setup) (lossless : Bool) (base after : Sudp.State) : Prop :=
  ∃ actions, Meets (Sudp.step setup.host) (Careful lossless) base actions ∧
    exec (Sudp.step setup.host) base actions = some after

theorem reaches_refl (base : Sudp.State) : Reaches setup lossless base base := ⟨[], trivial, rfl⟩

theorem reaches_step {action : Sudp.Action} (hcareful : Careful lossless base action)
    (hstep : Sudp.step setup.host base action = some sudp) : Reaches setup lossless base sudp :=
  ⟨[action], ⟨hcareful, fun _ _ => trivial⟩, exec_cons_eq_some.mpr ⟨sudp, hstep, rfl⟩⟩

theorem Lags.receives (h : Lags setup lossless base state) {action : Sudp.Action}
    (hrunning : isStopped state.receipts.notify.phase = false)
    (hstep : Service.receives setup.host state.sudp action = some sudp) : ∃ after,
      Reaches setup lossless base after ∧ Lags setup lossless after { state with sudp := sudp } := by
  obtain ⟨⟨hfp, hpackets, hjobs⟩, -⟩ := receives_frame hstep
  have hsame := h.jobs
  cases h.progress with
  | done hphase hbase hfp' =>
    subst hbase
    obtain ⟨hcareful, hsudp⟩ := careful_receives hstep
    refine ⟨sudp, reaches_step hcareful hsudp, .done hphase rfl (hfp.trans hfp'), rfl, ?_, ?_, h.isOpen⟩
    · rw [hjobs]
      exact h.accepted
    · rw [hjobs]
      exact h.all
  | working taking move msg rest later hnot htaken hcareful hphase hpackets hcalls hlater =>
    exact ⟨base, reaches_refl base, .working taking move msg rest (later ++ [action]) hnot htaken
      hcareful hphase hpackets hcalls (exec_concat hlater hstep), hjobs.trans hsame, h.accepted,
      h.all, h.isOpen⟩
  | stopped hstopped =>
    rw [hrunning] at hstopped
    contradiction

theorem step_process {receipts after : Receipts.State} {action : Notify.Action} {lost : Nat}
    (h : Receipts.step setup.receipts receipts (.process action lost) = some after) :
    Notify.step setup.receipts.notify receipts.notify action = some after.notify := by
  unfold Receipts.step at h
  split at h
  · contradiction
  have hprocess : Receipts.stepProcess setup.receipts receipts action lost = some after := by
    cases action with
    | readPath worker => contradiction
    | finish worker => contradiction
    | _ => exact h
  obtain ⟨notify, hnotify, rfl⟩ := Option.map_eq_some_iff.mp hprocess
  exact hnotify

theorem step_nothing {host : Host} {action : Sudp.Action} (haction : action = .poll .ok ∨ action = .wait .ok)
    (htaken : taken base action = none) (hstep : Sudp.step host base action = some sudp) :
    sudp = { base with phase := .waiting } := by
  unfold Sudp.step at hstep
  split at hstep
  · contradiction
  rcases haction with rfl | rfl
  · dsimp only at hstep
    split at hstep
    · contradiction
    · rw [htaken] at hstep
      exact (Option.some.inj hstep).symm
  · dsimp only at hstep
    rw [htaken] at hstep
    contradiction

theorem Lags.takes (h : Lags setup lossless base state) {action : Sudp.Action}
    (haction : action = .poll .ok ∨ action = .wait .ok) (hrunning : state.sudp.stopped = none)
    (hcareful : lossless = false → TakesOwn state.sudp action)
    (hstep : stepTakes setup state action = some next) : ∃ after,
      Reaches setup lossless base after ∧ Lags setup lossless after next := by
  cases hphase : state.receipts.notify.phase with
  | msgrcv =>
    cases h.progress with
    | done _ hbase hfp =>
      subst hbase
      simp only [stepTakes, hphase] at hstep
      split at hstep
      · rename_i htaken
        obtain ⟨sudp, hsudp, rfl⟩ := Option.map_eq_some_iff.mp hstep
        have hflawless : Flawless state.sudp action := by
          rcases haction with rfl | rfl <;> rfl
        refine ⟨sudp, reaches_step ⟨hcareful, fun _ => hflawless⟩ hsudp, ?_⟩
        obtain rfl := step_nothing haction htaken hsudp
        exact ⟨.done (.inl hphase) rfl hfp, rfl, h.accepted, h.all, h.isOpen⟩
      · rename_i move msg rest htaken
        obtain ⟨receipts, hreceipts, rfl⟩ := Option.map_eq_some_iff.mp hstep
        have hnotify := step_process hreceipts
        simp only [Notify.step, hphase, Option.some.injEq] at hnotify
        have hfp' : receipts.notify.fp = receive state.sudp.fp move msg.mtext := by
          rw [← hnotify, hfp]
        have hphase' : receipts.notify.phase =
            if startsFile (receive state.sudp.fp move msg.mtext) then .sprintf else .fwrite := by
          rw [← hnotify, hfp]
        have hpending : pendingJob receipts.notify.phase = pendingJob state.receipts.notify.phase := by
          rw [hphase', hphase]
          split <;> rfl
        have haccepted : receipts.notify.accepted = state.receipts.notify.accepted := by
          rw [← hnotify]
        refine ⟨state.sudp, reaches_refl _, ?_, rfl, ?_, ?_, ?_⟩
        · refine .working action move msg rest [] hrunning htaken hcareful ?_ ?_ ?_ rfl
          · dsimp only
            rw [hphase']
            split
            · exact .inl rfl
            · exact .inr (.inr rfl)
          · dsimp only
            rw [hfp']
          · intro io _
            dsimp only
            rw [hfp', hphase']
            unfold iterate
            dsimp only
            split <;> rfl
        · dsimp only
          rw [hpending, haccepted]
          exact h.accepted
        · dsimp only
          rw [hpending, haccepted]
          intro hlossless _
          exact h.all hlossless (by rw [hphase]; rfl)
        · dsimp only
          rw [← hnotify]
          exact h.isOpen
    | working _ _ _ _ _ _ _ _ hworks => simp [hphase] at hworks
    | stopped hstopped => simp [hphase, isStopped] at hstopped
  | _ => simp [stepTakes, hphase] at hstep

theorem stepWorks_other {action : Receipts.Action}
    (hother : ∀ io lost, action ≠ .process (.fwrite io) lost)
    (h : stepWorks setup state action = some next) : ∃ receipts,
      Receipts.step setup.receipts state.receipts action = some receipts ∧
        next = { state with receipts := receipts } := by
  obtain ⟨receipts, hreceipts, rfl⟩ := Option.map_eq_some_iff.mp h
  refine ⟨receipts, hreceipts, ?_⟩
  split
  · exact absurd rfl (hother _ _)
  · exact absurd rfl (hother _ _)
  · rfl

theorem Lags.moves (h : Lags setup lossless base state) (hrunning : isStopped state.receipts.notify.phase = false)
    {receipts : Receipts.State} (hprogress : Progress setup lossless base { state with receipts := receipts })
    (hpending : pendingJob receipts.notify.phase = pendingJob state.receipts.notify.phase)
    (haccepted : receipts.notify.accepted = state.receipts.notify.accepted)
    (hpool : receipts.notify.pool = state.receipts.notify.pool) :
    Lags setup lossless base { state with receipts := receipts } where
  progress := hprogress
  jobs := h.jobs
  accepted := by
    dsimp only
    rw [hpending, haccepted]
    exact h.accepted
  all := by
    dsimp only
    rw [hpending, haccepted]
    exact fun hlossless _ => h.all hlossless hrunning
  isOpen := by
    dsimp only
    rw [hpool]
    exact h.isOpen

theorem Lags.stops (h : Lags setup lossless base state) {receipts : Receipts.State} {stop : Stop}
    (hnext : { state.receipts.notify with phase := .stopped stop } = receipts.notify) :
    Lags setup lossless base { state with receipts := receipts } where
  progress := .stopped (by dsimp only; rw [← hnext]; rfl)
  jobs := h.jobs
  accepted := by
    dsimp only
    rw [← hnext]
    simp only [pendingJob, List.append_nil]
    exact (List.sublist_append_left _ _).trans h.accepted
  all := by
    dsimp only
    rw [← hnext]
    exact fun _ hrunning => by contradiction
  isOpen := by
    dsimp only
    rw [← hnext]
    exact h.isOpen

theorem Lags.sprintf (h : Lags setup lossless base state) {lost : Nat}
    (hstep : stepWorks setup state (.process .sprintf lost) = some next) :
    Lags setup lossless base next := by
  obtain ⟨receipts, hreceipts, rfl⟩ := stepWorks_other (by simp) hstep
  have hnotify := step_process hreceipts
  cases hphase : state.receipts.notify.phase with
  | sprintf =>
    have hrunning : isStopped state.receipts.notify.phase = false := by rw [hphase]; rfl
    cases h.progress with
    | done hnot => simp [hphase] at hnot
    | stopped hstopped => simp [hrunning] at hstopped
    | working action move msg rest later hnot htaken hcareful _ hpackets hcalls hlater =>
      simp only [Notify.step, hphase] at hnotify
      split at hnotify
      · exact h.stops (Option.some.inj hnotify)
      · rename_i fp fileName hheader
        obtain hnext := Option.some.inj hnotify
        refine h.moves hrunning (.working action move msg rest later hnot htaken hcareful ?_ hpackets
          ?_ hlater) ?_ ?_ ?_
        · dsimp only
          rw [← hnext]
          exact .inr (.inl ⟨fileName, rfl⟩)
        · intro io hopens
          dsimp only
          rw [hcalls io hopens, hphase, ← hnext]
          simp only [unfinished]
          rw [show setup.host.info = setup.receipts.notify.info from rfl, hheader]
          rfl
        · rw [← hnext, hphase]
          rfl
        · rw [← hnext]
        · rw [← hnext]
  | _ => simp [Notify.step, hphase] at hnotify

theorem openFile_smooth {io io' : FileIo} {fp fp' : FileProcess.State} {fileName : Bytes}
    (h : openFile io fp fileName = .ok fp') (hopens : io'.opens = true) :
    openFile io' fp fileName = .ok fp' := by
  unfold openFile at h ⊢
  simp only [bind, Except.bind, pure, Except.pure, throw, throwThe, MonadExceptOf.throw] at h ⊢
  split at h
  · contradiction
  split at h
  · contradiction
  rename_i hsize _
  rw [if_neg hsize, hopens]
  exact h

theorem Lags.strcat (h : Lags setup lossless base state) {io : FileIo} {lost : Nat}
    (hstep : stepWorks setup state (.process (.strcat io) lost) = some next) :
    Lags setup lossless base next := by
  obtain ⟨receipts, hreceipts, rfl⟩ := stepWorks_other (by simp) hstep
  have hnotify := step_process hreceipts
  cases hphase : state.receipts.notify.phase with
  | strcat fileName =>
    have hrunning : isStopped state.receipts.notify.phase = false := by rw [hphase]; rfl
    cases h.progress with
    | done hnot => simp [hphase] at hnot
    | stopped hstopped => simp [hrunning] at hstopped
    | working action move msg rest later hnot htaken hcareful _ hpackets hcalls hlater =>
      simp only [Notify.step, hphase] at hnotify
      split at hnotify
      · exact h.stops (Option.some.inj hnotify)
      · rename_i fp hopened
        obtain hnext := Option.some.inj hnotify
        refine h.moves hrunning (.working action move msg rest later hnot htaken hcareful ?_ hpackets
          ?_ hlater) ?_ ?_ ?_
        · dsimp only
          rw [← hnext]
          exact .inr (.inr rfl)
        · intro other hopens
          dsimp only
          rw [hcalls other hopens, hphase, ← hnext]
          simp only [unfinished]
          rw [openFile_smooth hopened hopens]
          rfl
        · rw [← hnext, hphase]
          rfl
        · rw [← hnext]
        · rw [← hnext]
  | _ => simp [Notify.step, hphase] at hnotify

theorem careful_withIo {action : Sudp.Action} {io : FileIo}
    (hcareful : lossless = false → TakesOwn base action) (hsmooth : lossless = true → io = .ok) :
    Careful lossless base (withIo io action) := by
  refine ⟨fun hlossy => ?_, fun hlossless => ?_⟩
  · unfold TakesOwn
    rw [taken_withIo]
    exact hcareful hlossy
  · rw [hsmooth hlossless]
    cases action <;> rfl

theorem catches_up {action : Sudp.Action} {move : Int} {msg : Msg} {rest : List Msg}
    {later : List Sudp.Action} {io : FileIo} {fp : FileProcess.State} {job : Option Job}
    (hjobs : state.sudp.jobs = base.jobs) (hrunning : base.stopped = none)
    (htaken : taken base action = some (move, msg, rest))
    (hcareful : Careful lossless base (withIo io action))
    (hpackets : state.packets = if startsFile (receive base.fp move msg.mtext) then [msg.origin]
      else base.packets ++ [msg.origin])
    (hcalls : iterate setup.host.info io base.fp move msg.mtext = .ok (fp, job))
    (hlater : exec (receives setup.host) { base with queue := rest, phase := .polling } later =
      some state.sudp) : Reaches setup lossless base (state.written fp job) := by
  have htakes : takeMessage setup.host io base move msg rest = { base with
      queue := rest, phase := .polling, fp := fp
      packets := if fp.packSaved = 0 then [] else state.packets
      jobs := state.sudp.jobs ++ (job.map fun done => Finished.mk done state.packets).toList } := by
    rw [takeMessage, hcalls, hpackets, hjobs]
  have hmade : exec (receives setup.host) (takeMessage setup.host io base move msg rest) later =
      some (state.written fp job) := by
    rw [htakes]
    exact (exec_commutes (fun _ _ _ hstep => (receives_frame hstep).2 _ _ _)
      (fun _ _ _ => trivial) (meets_of_forall (fun _ _ => trivial) _ _) hlater).2
  obtain ⟨meets, run⟩ := makes_up hmade
  have hstep : Sudp.step setup.host base (withIo io action) =
      some (takeMessage setup.host io base move msg rest) := step_withIo hrunning htaken io
  refine ⟨withIo io action :: later, ⟨hcareful, fun other hother => ?_⟩,
    exec_cons_eq_some.mpr ⟨_, hstep, run⟩⟩
  obtain rfl := Option.some.inj (hstep.symm.trans hother)
  exact meets

theorem Lags.fwrite (h : Lags setup lossless base state) {io : FileIo} {lost : Nat}
    (hsmooth : lossless = true → io.writes = true)
    (hstep : stepWorks setup state (.process (.fwrite io) lost) = some next) : ∃ after,
      Reaches setup lossless base after ∧ Lags setup lossless after next := by
  obtain ⟨receipts, hreceipts, hnext⟩ := Option.map_eq_some_iff.mp hstep
  have hnotify := step_process hreceipts
  cases hphase : state.receipts.notify.phase with
  | fwrite =>
    have hrunning : isStopped state.receipts.notify.phase = false := by rw [hphase]; rfl
    have haccepted := h.accepted
    have hall := fun hlossless => h.all hlossless hrunning
    rw [hphase] at haccepted hall
    cases h.progress with
    | done hnot => simp [hphase] at hnot
    | stopped hstopped => simp [hrunning] at hstopped
    | working action move msg rest later hnot htaken hcareful _ hpackets hcalls hlater =>
      have hio : lossless = true → (⟨true, io.writes⟩ : FileIo) = .ok := by
        intro hlossless
        rw [hsmooth hlossless]
        rfl
      have hreaches : ∀ fp job, writePack setup.receipts.notify.info io state.receipts.notify.fp =
          .ok (fp, job) → Reaches setup lossless base (state.written fp job) := by
        intro fp job hwritten
        refine catches_up h.jobs hnot htaken (careful_withIo hcareful hio) hpackets ?_ hlater
        rw [hcalls _ rfl, hphase]
        exact hwritten
      simp only [Notify.step, hphase] at hnotify
      split at hnotify
      · obtain hstops := Option.some.inj hnotify
        rw [← hstops] at hnext
        subst hnext
        exact ⟨base, reaches_refl base, h.stops hstops⟩
      · rename_i fp hwritten
        obtain hmoves := Option.some.inj hnotify
        simp only [← hmoves] at hnext
        subst hnext
        refine ⟨_, hreaches fp none hwritten, .done (.inl ?_) rfl ?_, rfl, ?_, ?_, ?_⟩
        all_goals dsimp only
        all_goals rw [← hmoves]
        · rfl
        · simpa [State.written, h.jobs, pendingJob] using haccepted
        · intro hlossless _
          simpa [State.written, h.jobs, pendingJob] using hall hlossless
        · exact h.isOpen
      · rename_i fp job hwritten
        obtain hmoves := Option.some.inj hnotify
        simp only [← hmoves] at hnext
        subst hnext
        refine ⟨_, hreaches fp (some job) hwritten, .done (.inr ⟨job, ?_⟩) rfl ?_, rfl, ?_, ?_, ?_⟩
        all_goals dsimp only
        all_goals rw [← hmoves]
        · rfl
        · simpa [State.written, h.jobs, pendingJob] using haccepted.append_right [job]
        · intro hlossless _
          simpa [State.written, h.jobs, pendingJob] using hall hlossless
        · exact h.isOpen
  | _ => simp [Notify.step, hphase] at hnotify

theorem not_refused {pool : ThreadPool.Pool Nat} {number : Nat}
    (hopen : pool.queueClose = false ∧ pool.poolClose = false) (addr : Lib.LinkedList.Addr) :
    ThreadPool.addJob pool number (some addr) ≠ .refused := by
  unfold ThreadPool.addJob
  split
  · simp
  rw [if_neg (by simp [hopen])]
  dsimp only
  split
  · simp
  split <;> simp

theorem Lags.addJob (h : Lags setup lossless base state) {memory : Option Lib.LinkedList.Addr}
    {lost : Nat} (hsmooth : lossless = true → memory ≠ none)
    (hstep : stepWorks setup state (.process (.addJob memory) lost) = some next) :
    Lags setup lossless base next := by
  obtain ⟨receipts, hreceipts, rfl⟩ := stepWorks_other (by simp) hstep
  have hnotify := step_process hreceipts
  cases hphase : state.receipts.notify.phase with
  | addJob job =>
    have hrunning : isStopped state.receipts.notify.phase = false := by rw [hphase]; rfl
    have haccepted := h.accepted
    have hall := fun hlossless => h.all hlossless hrunning
    rw [hphase] at haccepted hall
    cases h.progress with
    | working _ _ _ _ _ _ _ _ hworks => simp [hphase] at hworks
    | stopped hstopped => simp [hrunning] at hstopped
    | done _ hbase hfp =>
      simp only [Notify.step, hphase] at hnotify
      split at hnotify
      · contradiction
      split at hnotify
      · contradiction
      · rename_i hrefused
        obtain hmoves := Option.some.inj hnotify
        refine ⟨.done (.inl ?_) hbase ?_, h.jobs, ?_, ?_, ?_⟩
        all_goals dsimp only
        all_goals rw [← hmoves]
        · exact hfp
        · simp only [pendingJob, List.append_nil] at haccepted ⊢
          exact (List.sublist_append_left _ _).trans haccepted
        · intro hlossless _
          obtain ⟨addr, rfl⟩ := Option.ne_none_iff_exists'.mp (hsmooth hlossless)
          exact absurd hrefused (not_refused h.isOpen addr)
        · exact h.isOpen
      · rename_i pool broadcast hadded
        obtain hmoves := Option.some.inj hnotify
        obtain ⟨-, -, -, -, -, hqueue, hpool, -⟩ := ThreadPool.addJob_accepted hadded
        refine ⟨.done (.inl ?_) hbase ?_, h.jobs, ?_, ?_, ?_⟩
        all_goals dsimp only
        all_goals rw [← hmoves]
        · exact hfp
        · simpa [pendingJob] using haccepted
        · intro hlossless _
          simpa [pendingJob] using hall hlossless
        · exact ⟨hqueue, hpool⟩
      · exact h.stops (Option.some.inj hnotify)
  | _ => simp [Notify.step, hphase] at hnotify

/-- `Sudp` keeps up with the service. -/
theorem Lags.step (h : Lags setup lossless base state) {action : Action}
    (allowed : Allowed setup lossless state action)
    (hstep : Service.step setup state action = some next) : ∃ after,
      Reaches setup lossless base after ∧ Lags setup lossless after next := by
  unfold Service.step at hstep
  split at hstep
  · contradiction
  rename_i hgoes
  rw [not_or, Bool.not_eq_true, Bool.not_eq_true, Option.isSome_eq_false_iff,
    Option.isNone_iff_eq_none] at hgoes
  obtain ⟨hrunning, hstopped⟩ := hgoes
  cases action with
  | recvfrom =>
    obtain ⟨sudp, hsudp, rfl⟩ := Option.map_eq_some_iff.mp hstep
    have hreceives : Service.receives setup.host state.sudp .recvfrom = some sudp := hsudp
    exact h.receives hrunning hreceives
  | msgsnd =>
    obtain ⟨sudp, hsudp, rfl⟩ := Option.map_eq_some_iff.mp hstep
    have hreceives : Service.receives setup.host state.sudp .msgsnd = some sudp := hsudp
    exact h.receives hrunning hreceives
  | poll => exact h.takes (.inl rfl) hstopped allowed hstep
  | wait => exact h.takes (.inr rfl) hstopped allowed hstep
  | works action =>
    obtain ⟨-, hsmooth⟩ := allowed
    have hsame : ∀ other, (∀ io lost, action ≠ .process (.fwrite io) lost) →
        stepWorks setup state action = some other →
        (∀ receipts, Receipts.step setup.receipts state.receipts action = some receipts →
          Same state.receipts.notify receipts.notify) → Lags setup lossless base other := by
      intro other hnot hworks hkept
      obtain ⟨receipts, hreceipts, rfl⟩ := stepWorks_other hnot hworks
      exact h.same (hkept receipts hreceipts)
    cases action with
    | process action lost =>
      cases action with
      | msgrcv move text => contradiction
      | sprintf => exact ⟨base, reaches_refl base, h.sprintf hstep⟩
      | strcat io => exact ⟨base, reaches_refl base, h.strcat hstep⟩
      | fwrite io => exact h.fwrite (fun hlossless => (hsmooth hlossless).2) hstep
      | addJob memory => exact ⟨base, reaches_refl base, h.addJob (fun hlossless => (hsmooth hlossless).2) hstep⟩
      | takeJob worker =>
        exact ⟨base, reaches_refl base, hsame next (by simp) hstep fun receipts hreceipts =>
          same_takeJob (step_process hreceipts)⟩
      | readPath worker =>
        exact ⟨base, reaches_refl base, hsame next (by simp) hstep fun receipts hreceipts =>
          same_readPath (step_process hreceipts)⟩
      | finish worker =>
        exact ⟨base, reaches_refl base, hsame next (by simp) hstep fun receipts hreceipts =>
          same_finish (step_process hreceipts)⟩
    | begins worker =>
      refine ⟨base, reaches_refl base, hsame next (by simp) hstep fun receipts hreceipts => ?_⟩
      simp only [Receipts.step, hrunning, Bool.false_eq_true, if_false] at hreceipts
      exact same_begins hreceipts
    | calls worker reply =>
      refine ⟨base, reaches_refl base, hsame next (by simp) hstep fun receipts hreceipts => ?_⟩
      simp only [Receipts.step, hrunning, Bool.false_eq_true, if_false] at hreceipts
      exact same_calls hreceipts
    | unsent worker =>
      refine ⟨base, reaches_refl base, hsame next (by simp) hstep fun receipts hreceipts => ?_⟩
      simp only [Receipts.step, hrunning, Bool.false_eq_true, if_false] at hreceipts
      exact same_unsent hreceipts

theorem Lags.expecting (h : Lags setup lossless base state) (later : List Datagram) :
    Lags setup lossless (expecting base later)
      { state with sudp := Sudp.expecting state.sudp later } where
  progress := by
    cases h.progress with
    | done hphase hbase hfp => exact .done hphase (by rw [hbase]) hfp
    | working action move msg rest meanwhile hrunning htaken hcareful hphase hpackets hcalls hlater =>
      refine .working action move msg rest meanwhile hrunning htaken hcareful hphase hpackets hcalls ?_
      have hcommutes : ∀ sudp action next, Service.receives setup.host sudp action = some next →
          Service.receives setup.host (Sudp.expecting sudp later) action =
            some (Sudp.expecting next later) := by
        intro sudp action next hstep
        cases action with
        | recvfrom =>
          have hsudp : Sudp.step setup.host sudp .recvfrom = some next := hstep
          exact Sudp.step_expecting later hsudp
        | msgsnd =>
          have hsudp : Sudp.step setup.host sudp .msgsnd = some next := hstep
          exact Sudp.step_expecting later hsudp
        | poll io => contradiction
        | wait io => contradiction
      exact (exec_commutes hcommutes (fun _ _ _ => trivial)
        (meets_of_forall (fun _ _ => trivial) _ _) hlater).2
    | stopped hstopped => exact .stopped hstopped
  jobs := h.jobs
  accepted := h.accepted
  all := h.all
  isOpen := h.isOpen

/-- Every `fclose` has written everything, and every notice was sent. -/
structure Unhurt (receipts : Receipts.State) : Prop where
  lost : ∀ number, receipts.lost number = 0
  unsent : receipts.unsent = []

theorem unhurt_start (files : Bytes → Option Bytes) :
    Unhurt (Receipts.start setup.receipts files) := ⟨fun _ => rfl, rfl⟩

theorem Unhurt.step {receipts after : Receipts.State} {action : Receipts.Action} (h : Unhurt receipts)
    (hsmooth : Smooth action) (hstep : Receipts.step setup.receipts receipts action = some after) :
    Unhurt after := by
  have hprocess : ∀ action, Receipts.stepProcess setup.receipts receipts action 0 = some after →
      Unhurt after := by
    intro action hprocess
    obtain ⟨notify, -, rfl⟩ := Option.map_eq_some_iff.mp hprocess
    refine ⟨fun number => ?_, h.unsent⟩
    dsimp only
    rcases Receipts.lostAfter_cases action 0 notify with hlost | hlost
    · rw [hlost]
      exact h.lost number
    · rw [hlost]
      by_cases hsame : number = notify.accepted.length
      · rw [hsame, Function.update_self]
      · rw [Function.update_of_ne hsame]
        exact h.lost number
  unfold Receipts.step at hstep
  split at hstep
  · contradiction
  cases action with
  | process action lost =>
    obtain ⟨rfl, -⟩ := hsmooth
    cases action with
    | readPath worker => contradiction
    | finish worker => contradiction
    | _ => exact hprocess _ hstep
  | begins worker =>
    dsimp only [Receipts.stepBegins] at hstep
    split at hstep
    · obtain ⟨number, -, hrest⟩ := Option.bind_eq_some_iff.mp hstep
      obtain ⟨notify, -, hrest⟩ := Option.bind_eq_some_iff.mp hrest
      obtain ⟨called, -, hrest⟩ := Option.bind_eq_some_iff.mp hrest
      obtain rfl := Option.some.inj hrest
      exact ⟨h.lost, h.unsent⟩
    · contradiction
  | calls worker reply =>
    obtain ⟨receipt, -, hrest⟩ := Option.bind_eq_some_iff.mp hstep
    obtain ⟨called, -, hrest⟩ := Option.bind_eq_some_iff.mp hrest
    split at hrest
    · obtain ⟨notify, -, rfl⟩ := Option.map_eq_some_iff.mp hrest
      exact ⟨h.lost, h.unsent⟩
    · obtain rfl := Option.some.inj hrest
      exact ⟨h.lost, h.unsent⟩
  | unsent worker => exact hsmooth.elim

/-- The files and the notices are those of `Receipts`. -/
structure Keeps (setup : Setup) (lossless : Bool) (receipts : Receipts.State) : Prop where
  inv : ∃ cells, Receipts.Inv setup.receipts receipts cells
  unhurt : lossless = true → Unhurt receipts

theorem keeps_start (files : Bytes → Option Bytes) :
    Keeps setup lossless (Receipts.start setup.receipts files) :=
  ⟨⟨[], Receipts.inv_start _ _⟩, fun _ => unhurt_start files⟩

theorem Keeps.receipts {receipts after : Receipts.State} {action : Receipts.Action}
    (h : Keeps setup lossless receipts)
    (hundisturbed : Receipts.Undisturbed setup.receipts receipts action)
    (hsmooth : lossless = true → Smooth action)
    (hstep : Receipts.step setup.receipts receipts action = some after) :
    Keeps setup lossless after := by
  obtain ⟨⟨cells, hinv⟩, hunhurt⟩ := h
  exact ⟨hinv.step hundisturbed hstep, fun hlossless =>
    (hunhurt hlossless).step (hsmooth hlossless) hstep⟩

theorem Keeps.step {action : Action} (h : Keeps setup lossless state.receipts)
    (allowed : Allowed setup lossless state action)
    (hstep : Service.step setup state action = some next) :
    Keeps setup lossless next.receipts := by
  have htakes : ∀ action, stepTakes setup state action = some next →
      Keeps setup lossless next.receipts := by
    intro action htakes
    unfold stepTakes at htakes
    split at htakes
    · split at htakes
      · obtain ⟨sudp, -, rfl⟩ := Option.map_eq_some_iff.mp htakes
        exact h
      · rename_i move msg rest htaken
        obtain ⟨receipts, hreceipts, rfl⟩ := Option.map_eq_some_iff.mp htakes
        have hundisturbed : Receipts.Undisturbed setup.receipts state.receipts
            (.process (.msgrcv move msg.mtext) 0) :=
          ⟨by simp [Notify.AllRead], by simp [Receipts.opens]⟩
        exact h.receipts hundisturbed (fun _ => ⟨rfl, trivial⟩) hreceipts
    · contradiction
  unfold Service.step at hstep
  split at hstep
  · contradiction
  cases action with
  | recvfrom =>
    obtain ⟨sudp, -, rfl⟩ := Option.map_eq_some_iff.mp hstep
    exact h
  | msgsnd =>
    obtain ⟨sudp, -, rfl⟩ := Option.map_eq_some_iff.mp hstep
    exact h
  | poll => exact htakes _ hstep
  | wait => exact htakes _ hstep
  | works action =>
    have hworks : stepWorks setup state action = some next := by
      cases action with
      | process action lost =>
        cases action with
        | msgrcv move text => contradiction
        | _ => exact hstep
      | begins worker => exact hstep
      | calls worker reply => exact hstep
      | unsent worker => exact hstep
    obtain ⟨receipts, hreceipts, rfl⟩ := Option.map_eq_some_iff.mp hworks
    have hkept := h.receipts allowed.1 allowed.2 hreceipts
    split <;> exact hkept

end

end UdpFileProxy.Service
