import UdpFileProxy.Announcements
import UdpFileProxy.Notify

/-! `File_Process` and the workers of the pool on one file system. A worker inside
`Recv_Finish` makes its calls while `File_Process` writes the next file and the other workers
move theirs; what a notice says is compared with what is under the announced path then. -/
namespace UdpFileProxy.Receipts
open Lib.LinkedList Lib.Memory Lib.Run Protocol FileProcess RecvFinish
open Announcements (Arrives Complete calls)
open Notify (Phase Worker Current)

/-- `resolve` gives the name that a path resolves to. -/
structure Setup where
  notify : Notify.Setup
  share : ShareInfo
  resolve : Bytes → Bytes

/-- A worker inside `Recv_Finish`. The number of its job, what was under the announced path
when it began, and the replies to its calls are history. -/
structure Receipt where
  filename : Bytes
  des : Bytes
  pc : Announcements.Pc
  number : Nat
  old : Option Bytes
  past : List Announcements.Reply

/-- A notice that was sent, with what was under the announced path at that moment. -/
structure Notice where
  number : Nat
  des : Bytes
  message : Bytes
  found : Option Bytes
  old : Option Bytes
  past : List Announcements.Reply

/-- How many bytes `fclose` did not write is history, for each job. `unsent` are the jobs for
which `sendto` failed. -/
structure State where
  notify : Notify.State
  files : Bytes → Option Bytes
  lost : Nat → Nat
  finishing : Nat → Option Receipt
  notices : List Notice
  unsent : List Nat

def start (setup : Setup) (files : Bytes → Option Bytes) : State where
  notify := Notify.start setup.notify
  files := files
  lost := fun _ => 0
  finishing := fun _ => none
  notices := []
  unsent := []

/-- A step of `File_Process` that closes its stream may fail to write the last bytes, `lost` of
them. `begins` reads the argument of `Recv_Finish`, `calls` is its next call, and `unsent` is a
`sendto` that fails. -/
inductive Action where
  | process (action : Notify.Action) (lost : Nat)
  | begins (worker : Nat)
  | calls (worker : Nat) (reply : Announcements.Reply)
  | unsent (worker : Nat)
  deriving DecidableEq

/-- What there is of a file of which the last bytes were not written. -/
def torn (content : Bytes) (lost : Nat) : Bytes := content.take (content.length - lost)

@[simp] theorem torn_zero (content : Bytes) : torn content 0 = content := by simp [torn]

/-- What is in the file of a job. -/
def State.kept (state : State) (number : Nat) (job : Job) : Bytes :=
  torn job.content (state.lost number)

/-- What the stream holds after `fwrite`. It is in the file when the stream is closed, and
nobody reads the file before. -/
def flushed (info : Info) (state : FileProcess.State) : Option Bytes := do
  let length ← state.mtext.read (22 + state.fileNameLength.toNat) 4
  let pack ← state.mtext.read state.pack (loadInt info.order length).toNat
  let written ← state.fp
  return written ++ pack

/-- What a stream has written when it is closed, or will have when nothing is lost. -/
def streamed (next : FileProcess.State) (lost : Nat) (content : Bytes) : Bytes :=
  if next.fp = none then torn content lost else content

/-- The files after a step of `File_Process`: `fopen` empties one, `fwrite` adds to it, and
`fclose` may fail, also in front of `sprintf`, where the file of the stream is incomplete. -/
def filesAfter (setup : Setup) (state : State) (action : Notify.Action) (lost : Nat)
    (next : Notify.State) : Bytes → Option Bytes :=
  match next.phase, action with
  | .stopped _, _ => state.files
  | _, .sprintf =>
      match state.notify.fp.fp with
      | some written =>
          Function.update state.files (setup.resolve state.notify.fp.savePath)
            (some (streamed next.fp lost written))
      | none => state.files
  | _, .strcat _ => Function.update state.files (setup.resolve next.fp.savePath) (some [])
  | _, .fwrite _ =>
      Function.update state.files (setup.resolve state.notify.fp.savePath)
        ((flushed setup.notify.info state.notify.fp).map (streamed next.fp lost))
  | _, _ => state.files

/-- The next job is about to be added when its stream is closed. -/
def lostAfter (state : State) (action : Notify.Action) (lost : Nat) (next : Notify.State) :
    Nat → Nat :=
  match next.phase, action with
  | .addJob _, .fwrite _ => Function.update state.lost next.accepted.length lost
  | _, _ => state.lost

def isStopped : Phase → Bool
  | .stopped _ => true
  | _ => false

def stepProcess (setup : Setup) (state : State) (action : Notify.Action) (lost : Nat) :
    Option State :=
  (Notify.step setup.notify state.notify action).map fun next =>
    { state with
      notify := next
      files := filesAfter setup state action lost next
      lost := lostAfter state action lost next }

def stepBegins (setup : Setup) (state : State) (worker : Nat) : Option State :=
  match state.notify.workers worker with
  | .taken pjob => do
      let number ← valueAt state.notify.pool.heap pjob
      let next ← Notify.step setup.notify state.notify (.readPath worker)
      let called ← Announcements.start setup.share state.notify.fp.savePath state.files
      let receipt := ⟨called.filename, called.des, called.pc, number,
        state.files (setup.resolve called.des), []⟩
      return { state with
        notify := next
        finishing := Function.update state.finishing worker (some receipt) }
  | _ => none

/-- `Recv_Finish` returns after the notice, and its job is freed. -/
def stepCalls (setup : Setup) (state : State) (worker : Nat) (reply : Announcements.Reply) :
    Option State := do
  let receipt ← state.finishing worker
  let called ← Announcements.step setup.resolve
    ⟨state.files, receipt.filename, receipt.des, receipt.pc⟩ reply
  match called.pc with
  | .finished message =>
      (Notify.step setup.notify state.notify (.finish worker)).map fun next =>
        { state with
          notify := next
          files := called.files
          finishing := Function.update state.finishing worker none
          notices := state.notices ++ [⟨receipt.number, receipt.des, message,
            called.files (setup.resolve receipt.des), receipt.old, receipt.past ++ [reply]⟩] }
  | pc =>
      some { state with
        files := called.files
        finishing := Function.update state.finishing worker
          (some { receipt with pc := pc, past := receipt.past ++ [reply] }) }

/-- The notice is not sent, and nobody looks at that. -/
def stepUnsent (setup : Setup) (state : State) (worker : Nat) : Option State := do
  let receipt ← state.finishing worker
  let called ← Announcements.step setup.resolve
    ⟨state.files, receipt.filename, receipt.des, receipt.pc⟩ .sent
  match called.pc with
  | .finished _ =>
      (Notify.step setup.notify state.notify (.finish worker)).map fun next =>
        { state with
          notify := next
          files := called.files
          finishing := Function.update state.finishing worker none
          unsent := state.unsent ++ [receipt.number] }
  | _ => none

/-- When `File_Process` stops, the process exits. -/
def step (setup : Setup) (state : State) (action : Action) : Option State :=
  if isStopped state.notify.phase then none
  else
    match action with
    | .process (.readPath _) _ | .process (.finish _) _ => none
    | .process action lost => stepProcess setup state action lost
    | .begins worker => stepBegins setup state worker
    | .calls worker reply => stepCalls setup state worker reply
    | .unsent worker => stepUnsent setup state worker

/-- The files that a worker moves. -/
def Receipt.names (resolve : Bytes → Bytes) (receipt : Receipt) : List Bytes :=
  [resolve receipt.filename, resolve receipt.des]

/-- No worker is moving a file of this name. -/
def Unmoved (setup : Setup) (state : State) (path : Bytes) : Prop :=
  ∀ worker < setup.notify.threadNum, ∀ receipt ∈ state.finishing worker,
    setup.resolve path ∉ receipt.names setup.resolve

/-- The file that `fopen` empties. -/
def opens (state : State) (action : Notify.Action) : Option Bytes :=
  match action, state.notify.phase with
  | .strcat _, .strcat fileName => some (state.notify.fp.savePath ++ basename (cstr fileName))
  | _, _ => none

/-- `save_path` is not rewritten before it was read, and no file is opened, and none is moved
to a name, while a worker is moving a file of this name. -/
def Undisturbed (setup : Setup) (state : State) : Action → Prop
  | .process action _ =>
      Notify.AllRead setup.notify state.notify action ∧
        ∀ path ∈ opens state action, Unmoved setup state path
  | .begins _ => ∀ des ∈ desOf setup.share state.notify.fp.savePath, Unmoved setup state des
  | .calls _ _ | .unsent _ => True

section
variable (setup : Setup) (state : State)

instance (path : Bytes) : Decidable (Unmoved setup state path) :=
  inferInstanceAs (Decidable (∀ worker < setup.notify.threadNum, ∀ receipt ∈ state.finishing worker,
    setup.resolve path ∉ receipt.names setup.resolve))

instance : ∀ action, Decidable (Undisturbed setup state action)
  | .process action _ =>
      inferInstanceAs (Decidable (Notify.AllRead setup.notify state.notify action ∧
        ∀ path ∈ opens state action, Unmoved setup state path))
  | .begins _ =>
      inferInstanceAs (Decidable (∀ des ∈ desOf setup.share state.notify.fp.savePath,
        Unmoved setup state des))
  | .calls _ _ | .unsent _ => inferInstanceAs (Decidable True)

end

/-- What a notice says of the file that it is about. -/
structure Truthful (setup : Setup) (state : State) (notice : Notice) : Prop where
  path : decodeNotice notice.message = some notice.des
  job : ∃ job, state.notify.accepted[notice.number]? = some job ∧
    desOf setup.share job.savePath = some notice.des ∧
    (notice.found = some (state.kept notice.number job) ↔
      Complete (setup.resolve job.savePath = setup.resolve notice.des)
        (state.kept notice.number job) notice.old (calls notice.past))

/-- What was written under a path is there, and no worker is moving it. -/
structure Stored (setup : Setup) (state : State) (path content : Bytes) : Prop where
  found : state.files (setup.resolve path) = some content
  unmoved : ∀ worker receipt, state.finishing worker = some receipt →
    setup.resolve path ∉ receipt.names setup.resolve

/-- A worker inside `Recv_Finish` works on the job that it has. -/
structure Busy (setup : Setup) (state : State) (worker : Nat) (receipt : Receipt) : Prop where
  worker : ∃ pjob, state.notify.workers worker = .notifying pjob receipt.filename ∧
    valueAt state.notify.pool.heap pjob = some receipt.number
  job : ∃ job, state.notify.accepted[receipt.number]? = some job ∧
    job.savePath = receipt.filename ∧ desOf setup.share receipt.filename = some receipt.des ∧
    (setup.resolve receipt.filename = setup.resolve receipt.des →
      receipt.old = some (state.kept receipt.number job)) ∧
    Arrives setup.resolve (state.kept receipt.number job) receipt.old receipt.past
      ⟨state.files, receipt.filename, receipt.des, receipt.pc⟩

/-- At most one job has yet to read its argument, and then `File_Process` has no file open. -/
inductive Pending (setup : Setup) (state : State) (cells : List (Addr × Nat)) : Prop where
  | none (hcells : cells = []) (hread : ∀ worker, (state.notify.workers worker).unread = none)
  | one (number : Nat) (job : Job) (hjob : state.notify.accepted[number]? = some job)
      (hstored : Stored setup state job.savePath (state.kept number job))
      (hclosed : state.notify.fp.fp = none)
      (hphase : (∀ fileName, state.notify.phase ≠ .strcat fileName) ∧
        ∀ next, state.notify.phase ≠ .addJob next)
      (hslot : (∃ pjob, cells = [(pjob, number)] ∧
          ∀ worker, (state.notify.workers worker).unread = Option.none) ∨
        ∃ worker pjob, cells = [] ∧ state.notify.workers worker = .taken pjob ∧
          valueAt state.notify.pool.heap pjob = some number ∧
          ∀ other, other ≠ worker → (state.notify.workers other).unread = Option.none)

/-- The number of the job that a worker has. -/
def numberOf (state : Notify.State) (worker : Nat) : Option Nat :=
  (state.workers worker).pjob.bind (valueAt state.pool.heap)

/-- The jobs that were accepted and not noticed yet. -/
def unnoticed (threadNum : Nat) (state : Notify.State) (cells : List (Addr × Nat)) : List Nat :=
  cells.map Prod.snd ++ (List.range threadNum).filterMap (numberOf state)

structure Inv (setup : Setup) (state : State) (cells : List (Addr × Nat)) : Prop where
  current : Current setup.notify state.notify cells
  pending : Pending setup state cells
  stream : state.notify.phase ∈ [.msgrcv, .sprintf, .fwrite] →
    ∀ written, state.notify.fp.fp = some written →
      Stored setup state state.notify.fp.savePath written
  addJob : ∀ job, state.notify.phase = .addJob job →
    Stored setup state job.savePath (state.kept state.notify.accepted.length job) ∧
      state.notify.fp.fp = none
  busy : ∀ worker receipt, state.finishing worker = some receipt → Busy setup state worker receipt
  disjoint : ∀ worker other receipt receipt', worker ≠ other →
    state.finishing worker = some receipt → state.finishing other = some receipt' →
    ∀ name ∈ receipt.names setup.resolve, name ∉ receipt'.names setup.resolve
  notices : ∀ notice ∈ state.notices, Truthful setup state notice
  numbers : (state.notices.map Notice.number ++ state.unsent ++
    unnoticed setup.notify.threadNum state.notify cells).Perm
      (List.range state.notify.accepted.length)

section
variable {setup : Setup} {state next : State} {cells : List (Addr × Nat)} {files : Bytes → Option Bytes}
  {path content : Bytes} {worker : Nat} {receipt : Receipt}

theorem arrives_frame {resolve : Bytes → Bytes} {old : Option Bytes} {past : List Announcements.Reply}
    {called : Announcements.State} (h : Arrives resolve content old past called)
    (hsrc : files (resolve called.filename) = called.files (resolve called.filename))
    (hdes : files (resolve called.des) = called.files (resolve called.des)) :
    Arrives resolve content old past { called with files := files } := by
  cases h with
  | createDir hpc hpast hfound hold =>
    exact .createDir hpc hpast (hsrc.trans hfound) (hdes.trans hold)
  | move mover hpc htracked hkept =>
    refine .move mover hpc ?_ hkept
    simp only [Announcements.seen, hsrc, hdes]
    exact htracked
  | moved hpc hiff =>
    refine .moved hpc ?_
    dsimp only
    rw [hdes]
    exact hiff

theorem called_elsewhere {resolve : Bytes → Bytes} {called called' : Announcements.State}
    {reply : Announcements.Reply} (hstep : Announcements.step resolve called reply = some called')
    {name : Bytes} (hsrc : name ≠ resolve called.filename) (hdes : name ≠ resolve called.des) :
    called'.files name = called.files name := by
  unfold Announcements.step at hstep
  split at hstep
  · cases hstep
    rfl
  · obtain ⟨mover, -, rfl⟩ := Option.map_eq_some_iff.mp hstep
    dsimp only [Announcements.store]
    split
    · exact Function.update_of_ne hsrc _ _
    · rw [Function.update_of_ne hdes, Function.update_of_ne hsrc]
  · obtain ⟨message, -, rfl⟩ := Option.map_eq_some_iff.mp hstep
    rfl
  · contradiction

theorem Stored.mono (h : Stored setup state path content)
    (hfiles : next.files (setup.resolve path) = state.files (setup.resolve path))
    (hfinishing : ∀ worker receipt, next.finishing worker = some receipt → ∃ old,
      state.finishing worker = some old ∧ receipt.names setup.resolve = old.names setup.resolve) :
    Stored setup next path content := by
  refine ⟨hfiles.trans h.found, fun worker receipt hreceipt => ?_⟩
  obtain ⟨old, hold, hnames⟩ := hfinishing worker receipt hreceipt
  rw [hnames]
  exact h.unmoved worker old hold

theorem Inv.worker_lt (h : Inv setup state cells) (hreceipt : state.finishing worker = some receipt) :
    worker < setup.notify.threadNum := by
  obtain ⟨pjob, hworker, -⟩ := (h.busy worker receipt hreceipt).worker
  by_contra hge
  rw [h.current.few worker (not_lt.mp hge)] at hworker
  contradiction

theorem Inv.unmoved (h : Inv setup state cells) (hpath : Unmoved setup state path) :
    ∀ worker receipt, state.finishing worker = some receipt →
      setup.resolve path ∉ receipt.names setup.resolve :=
  fun worker receipt hreceipt => hpath worker (h.worker_lt hreceipt) receipt hreceipt

theorem Truthful.mono {notice : Notice} (h : Truthful setup state notice)
    (hkept : ∀ number job, state.notify.accepted[number]? = some job →
      next.notify.accepted[number]? = some job ∧ next.lost number = state.lost number) :
    Truthful setup next notice := by
  obtain ⟨hpath, job, hjob, hdes, hfound⟩ := h
  obtain ⟨hjob', hlost⟩ := hkept notice.number job hjob
  refine ⟨hpath, job, hjob', hdes, ?_⟩
  rw [State.kept, hlost]
  exact hfound

theorem Busy.mono (h : Busy setup state worker receipt)
    (hworker : next.notify.workers worker = state.notify.workers worker)
    (hheap : ∀ addr, (state.notify.workers worker).pjob = some addr →
      valueAt next.notify.pool.heap addr = valueAt state.notify.pool.heap addr)
    (hkept : ∀ number job, state.notify.accepted[number]? = some job →
      next.notify.accepted[number]? = some job ∧ next.lost number = state.lost number)
    (hfiles : ∀ name ∈ receipt.names setup.resolve, next.files name = state.files name) :
    Busy setup next worker receipt := by
  obtain ⟨⟨addr, hnotifying, hvalue⟩, job, hjob, hpath, hdes, hold, harrives⟩ := h
  obtain ⟨hjob', hlost⟩ := hkept receipt.number job hjob
  have hsame : next.kept receipt.number job = state.kept receipt.number job := by
    rw [State.kept, hlost, ← State.kept]
  refine ⟨⟨addr, hworker.trans hnotifying, ?_⟩, job, hjob', hpath, hdes, ?_, ?_⟩
  · exact (hheap addr (by rw [hnotifying]; rfl)).trans hvalue
  · rw [hsame]
    exact hold
  · rw [hsame]
    exact arrives_frame harrives (hfiles _ (by simp [Receipt.names]))
      (hfiles _ (by simp [Receipt.names]))

theorem Inv.move (h : Inv setup state cells) {phase : Phase} {fp : FileProcess.State}
    {lost : Nat → Nat}
    (hcurrent : Current setup.notify { state.notify with phase := phase, fp := fp } cells)
    (hlost : ∀ number < state.notify.accepted.length, lost number = state.lost number)
    (hfiles : ∀ worker receipt, state.finishing worker = some receipt →
      ∀ name ∈ receipt.names setup.resolve, files name = state.files name)
    (hpending : Pending setup { state with
      notify := { state.notify with phase := phase, fp := fp }, files := files, lost := lost } cells)
    (hstream : phase ∈ [.msgrcv, .sprintf, .fwrite] → ∀ written, fp.fp = some written →
      Stored setup { state with
        notify := { state.notify with phase := phase, fp := fp }, files := files, lost := lost }
          fp.savePath written)
    (haddJob : ∀ job, phase = .addJob job → Stored setup { state with
      notify := { state.notify with phase := phase, fp := fp }, files := files, lost := lost }
        job.savePath (torn job.content (lost state.notify.accepted.length)) ∧ fp.fp = none) :
    Inv setup { state with
      notify := { state.notify with phase := phase, fp := fp }, files := files, lost := lost }
        cells where
  current := hcurrent
  pending := hpending
  stream := hstream
  addJob := haddJob
  busy := by
    intro worker receipt hreceipt
    exact (h.busy worker receipt hreceipt).mono rfl (fun _ _ => rfl)
      (fun number job hjob => ⟨hjob, hlost number (List.getElem?_eq_some_iff.mp hjob).1⟩)
      (hfiles worker receipt hreceipt)
  disjoint := h.disjoint
  notices := fun notice hnotice => (h.notices notice hnotice).mono fun number job hjob =>
    ⟨hjob, hlost number (List.getElem?_eq_some_iff.mp hjob).1⟩
  numbers := h.numbers

theorem Pending.move (h : Pending setup state cells) {phase : Phase} {fp : FileProcess.State}
    (hclosed : fp.fp = state.notify.fp.fp) (hphase : (∀ fileName, phase ≠ .strcat fileName) ∧
      ∀ next, phase ≠ .addJob next) :
    Pending setup { state with notify := { state.notify with phase := phase, fp := fp } } cells := by
  cases h with
  | none hcells hread => exact .none hcells hread
  | one number job hjob hstored hopen _ hslot =>
    exact .one number job hjob ⟨hstored.found, hstored.unmoved⟩ (hclosed.trans hopen) hphase hslot

theorem Pending.all_read (h : Pending setup state cells)
    (hopen : state.notify.fp.fp ≠ Option.none ∨ (∃ fileName, state.notify.phase = .strcat fileName) ∨
      ∃ job, state.notify.phase = .addJob job) :
    cells = [] ∧ ∀ worker, (state.notify.workers worker).unread = Option.none := by
  cases h with
  | none hcells hread => exact ⟨hcells, hread⟩
  | one number job hjob hstored hclosed hphase hslot =>
    rcases hopen with hopen | ⟨fileName, hopen⟩ | ⟨next, hopen⟩
    · exact absurd hclosed hopen
    · exact absurd hopen (hphase.1 fileName)
    · exact absurd hopen (hphase.2 next)

theorem filesAfter_other {action : Notify.Action} (hsprintf : action ≠ .sprintf)
    (hstrcat : ∀ io, action ≠ .strcat io) (hfwrite : ∀ io, action ≠ .fwrite io) (lost : Nat)
    (after : Notify.State) : filesAfter setup state action lost after = state.files := by
  unfold filesAfter
  split
  · rfl
  · exact absurd rfl hsprintf
  · exact absurd rfl (hstrcat _)
  · exact absurd rfl (hfwrite _)
  · rfl

theorem lostAfter_other {action : Notify.Action} {lost : Nat} {after : Notify.State}
    (h : (∀ io, action ≠ .fwrite io) ∨ ∀ job, after.phase ≠ .addJob job) :
    lostAfter state action lost after = state.lost := by
  unfold lostAfter
  split
  · rename_i hphase
    rcases h with h | h
    · exact absurd rfl (h _)
    · exact absurd hphase (h _)
  · rfl

theorem lostAfter_cases (action : Notify.Action) (lost : Nat) (after : Notify.State) :
    lostAfter state action lost after = state.lost ∨
      lostAfter state action lost after =
        Function.update state.lost after.accepted.length lost := by
  unfold lostAfter
  split
  · exact .inr rfl
  · exact .inl rfl

theorem writePack_flushed {info : Info} {io : FileIo} {fp fp' : FileProcess.State} {job : Option Job}
    (h : writePack info io fp = .ok (fp', job)) : fp.fp ≠ none ∧ ∃ content,
      flushed info fp = some content ∧ (∀ done, job = some done → done.content = content ∧ fp'.fp = none) ∧
        ∀ written, fp'.fp = some written → written = content := by
  unfold writePack at h
  simp only [bind, Except.bind, pure, Except.pure, throw, throwThe, MonadExceptOf.throw] at h
  split at h
  · cases h
  rename_i length hlength
  split at h
  · cases h
  split at h
  · cases h
  rename_i pack hpack
  split at h
  · cases h
  rename_i written hwritten
  split at h
  · cases h
  have hbounds {range : Option Bytes} {bytes : Bytes} (hrange : inBounds range = .ok bytes) :
      range = some bytes := by
    cases range with
    | none => contradiction
    | some found =>
      cases hrange
      rfl
  refine ⟨by simp [hbounds hwritten], written ++ pack, ?_, ?_⟩
  · simp [flushed, hbounds hlength, hbounds hpack, hbounds hwritten]
  · have hcheck := Except.ok.inj h
    unfold checkSize at hcheck
    split at hcheck
    · cases hcheck
      simp [again]
    · split at hcheck
      · cases hcheck
        simp [again]
      · cases hcheck
        simp

theorem openFile_opens {io : FileIo} {fp fp' : FileProcess.State} {fileName : Bytes}
    (h : openFile io fp fileName = .ok fp') :
    fp'.savePath = fp.savePath ++ basename (cstr fileName) ∧ fp'.fp = some [] := by
  unfold openFile at h
  simp only [bind, Except.bind, pure, Except.pure, throw, throwThe, MonadExceptOf.throw] at h
  split at h
  · cases h
  split at h
  · cases h
  cases h
  exact ⟨rfl, rfl⟩

theorem Inv.writes (h : Inv setup state cells) {phase : Phase} {fp : FileProcess.State}
    {lost : Nat → Nat} {content : Bytes}
    (hcurrent : Current setup.notify { state.notify with phase := phase, fp := fp } cells)
    (hlost : ∀ number < state.notify.accepted.length, lost number = state.lost number)
    (hunmoved : ∀ worker receipt, state.finishing worker = some receipt →
      setup.resolve path ∉ receipt.names setup.resolve)
    (hread : cells = [] ∧ ∀ worker, (state.notify.workers worker).unread = Option.none)
    (hstream : phase ∈ [.msgrcv, .sprintf, .fwrite] → ∀ written, fp.fp = some written →
      fp.savePath = path ∧ written = content)
    (haddJob : ∀ job, phase = .addJob job → job.savePath = path ∧
      torn job.content (lost state.notify.accepted.length) = content ∧ fp.fp = none) :
    Inv setup { state with
      notify := { state.notify with phase := phase, fp := fp }
      files := Function.update state.files (setup.resolve path) (some content)
      lost := lost } cells := by
  have hstored : Stored setup { state with
      notify := { state.notify with phase := phase, fp := fp }
      files := Function.update state.files (setup.resolve path) (some content)
      lost := lost } path content :=
    ⟨Function.update_self _ _ _, hunmoved⟩
  refine h.move hcurrent hlost ?_ (.none hread.1 hread.2) ?_ ?_
  · rintro worker receipt hreceipt name hname
    refine Function.update_of_ne ?_ _ _
    rintro rfl
    exact hunmoved worker receipt hreceipt hname
  · intro hphase written hwritten
    obtain ⟨rfl, rfl⟩ := hstream hphase written hwritten
    exact hstored
  · intro job hjob
    obtain ⟨rfl, hkept, hclosed⟩ := haddJob job hjob
    rw [hkept]
    exact ⟨hstored, hclosed⟩

theorem Inv.sprintf (h : Inv setup state cells) {lost : Nat}
    (hundisturbed : Undisturbed setup state (.process .sprintf lost))
    (hstep : stepProcess setup state .sprintf lost = some next) : Inv setup next cells := by
  have hread : cells = [] ∧ ∀ worker, (state.notify.workers worker).unread = Option.none := by
    obtain ⟨hcount, hworkers⟩ := hundisturbed.1 rfl
    refine ⟨?_, fun worker => ?_⟩
    · rw [h.current.queues.count] at hcount
      exact List.length_eq_zero_iff.mp (by exact_mod_cast hcount)
    · by_cases hlt : worker < setup.notify.threadNum
      · exact hworkers worker hlt
      · rw [h.current.few worker (not_lt.mp hlt)]
        rfl
  obtain ⟨rfl, hunread⟩ := hread
  obtain ⟨after, hnotify, rfl⟩ := Option.map_eq_some_iff.mp hstep
  rw [lostAfter_other (.inl (by simp))]
  cases hphase : state.notify.phase with
  | sprintf =>
    simp only [Notify.step, hphase] at hnotify
    split at hnotify
    · cases hnotify
      exact h.move (h.current.move rfl (by simp) (by simp)) (fun _ _ => rfl) (fun _ _ _ _ _ => rfl)
        (.none rfl hunread) (by simp) (by simp)
    · rename_i fp fileName _
      cases hnotify
      have hcurrent : Current setup.notify { state.notify with phase := .strcat fileName, fp := fp }
          [] := h.current.rewrite hunread (by simp)
      cases hopen : state.notify.fp.fp with
      | none =>
        simp only [filesAfter, hopen]
        exact h.move hcurrent (fun _ _ => rfl) (fun _ _ _ _ _ => rfl) (.none rfl hunread) (by simp)
          (by simp)
      | some written =>
        have hstored := h.stream (by simp [hphase]) written hopen
        simp only [filesAfter, hopen]
        exact h.writes hcurrent (fun _ _ => rfl) hstored.unmoved ⟨rfl, hunread⟩ (by simp) (by simp)
  | _ => simp [Notify.step, hphase] at hnotify

theorem Inv.msgrcv (h : Inv setup state cells) {move : Int} {text : Bytes} {lost : Nat}
    (hstep : stepProcess setup state (.msgrcv move text) lost = some next) : Inv setup next cells := by
  obtain ⟨after, hnotify, rfl⟩ := Option.map_eq_some_iff.mp hstep
  rw [filesAfter_other (by simp) (by simp) (by simp), lostAfter_other (.inl (by simp))]
  cases hphase : state.notify.phase with
  | msgrcv =>
    simp only [Notify.step, hphase] at hnotify
    cases hnotify
    have hnone : (∀ fileName, (if startsFile (receive state.notify.fp move text) then Phase.sprintf
        else .fwrite) ≠ .strcat fileName) ∧ ∀ job, (if startsFile (receive state.notify.fp move text)
          then Phase.sprintf else .fwrite) ≠ .addJob job := by
      split <;> simp
    refine h.move (h.current.move rfl hnone.1 fun job hjob => absurd hjob (hnone.2 job))
      (fun _ _ => rfl) (fun _ _ _ _ _ => rfl) (h.pending.move rfl hnone) ?_
      (fun job hjob => absurd hjob (hnone.2 job))
    intro _ written hwritten
    have hstored := h.stream (by simp [hphase]) written hwritten
    exact ⟨hstored.found, hstored.unmoved⟩
  | _ => simp [Notify.step, hphase] at hnotify

theorem Inv.strcat (h : Inv setup state cells) {io : FileIo} {lost : Nat}
    (hundisturbed : Undisturbed setup state (.process (.strcat io) lost))
    (hstep : stepProcess setup state (.strcat io) lost = some next) : Inv setup next cells := by
  obtain ⟨after, hnotify, rfl⟩ := Option.map_eq_some_iff.mp hstep
  rw [lostAfter_other (.inl (by simp))]
  cases hphase : state.notify.phase with
  | strcat fileName =>
    obtain ⟨rfl, hread⟩ := h.pending.all_read (.inr (.inl ⟨fileName, hphase⟩))
    simp only [Notify.step, hphase] at hnotify
    split at hnotify
    · cases hnotify
      exact h.move (h.current.move rfl (by simp) (by simp)) (fun _ _ => rfl) (fun _ _ _ _ _ => rfl)
        (.none rfl hread) (by simp) (by simp)
    · rename_i fp hopened
      cases hnotify
      obtain ⟨hpath, hfp⟩ := openFile_opens hopened
      have hopens : opens state (.strcat io) =
          some (state.notify.fp.savePath ++ basename (cstr fileName)) := by
        simp only [opens, hphase]
      have hunmoved := h.unmoved (hundisturbed.2 _ hopens)
      rw [← hpath] at hunmoved
      refine h.writes (h.current.rewrite hread (by simp)) (fun _ _ => rfl) hunmoved ⟨rfl, hread⟩ ?_
        (by simp)
      intro _ written hwritten
      rw [hfp, Option.some.injEq] at hwritten
      exact ⟨rfl, hwritten.symm⟩
  | _ => simp [Notify.step, hphase] at hnotify

theorem Inv.fwrite (h : Inv setup state cells) {io : FileIo} {lost : Nat}
    (hstep : stepProcess setup state (.fwrite io) lost = some next) : Inv setup next cells := by
  obtain ⟨after, hnotify, rfl⟩ := Option.map_eq_some_iff.mp hstep
  cases hphase : state.notify.phase with
  | fwrite =>
    simp only [Notify.step, hphase] at hnotify
    split at hnotify
    · cases hnotify
      rw [lostAfter_other (.inr (by simp))]
      exact h.move (h.current.move rfl (by simp) (by simp)) (fun _ _ => rfl) (fun _ _ _ _ _ => rfl)
        (h.pending.move rfl (by simp)) (by simp) (by simp)
    · rename_i fp hwritten
      cases hnotify
      obtain ⟨hopen, content, hflushed, -, hstream⟩ := writePack_flushed hwritten
      obtain ⟨written, hfp⟩ := Option.ne_none_iff_exists'.mp hopen
      have hstored := h.stream (by simp [hphase]) written hfp
      have hpath := (writePack_savePath hwritten).1
      have hfiles : filesAfter setup state (.fwrite io) lost
          { state.notify with fp := fp, phase := .msgrcv } =
            Function.update state.files (setup.resolve state.notify.fp.savePath)
              (some (streamed fp lost content)) := by
        simp only [filesAfter, hflushed, Option.map_some]
      rw [hfiles, lostAfter_other (.inr (by simp))]
      refine h.writes (h.current.move hpath (by simp) (by simp)) (fun _ _ => rfl) hstored.unmoved
        (h.pending.all_read (.inl hopen)) (fun _ other hother => ⟨hpath, ?_⟩) (by simp)
      rw [streamed, if_neg (by simp [hother])]
      exact hstream other hother
    · rename_i fp job hwritten
      cases hnotify
      obtain ⟨hopen, content, hflushed, hjob, -⟩ := writePack_flushed hwritten
      obtain ⟨written, hfp⟩ := Option.ne_none_iff_exists'.mp hopen
      have hstored := h.stream (by simp [hphase]) written hfp
      obtain ⟨hpath, hdone⟩ := writePack_savePath hwritten
      obtain ⟨hcontent, hclosed⟩ := hjob job rfl
      have hfiles : filesAfter setup state (.fwrite io) lost
          { state.notify with fp := fp, phase := .addJob job } =
            Function.update state.files (setup.resolve state.notify.fp.savePath)
              (some (torn content lost)) := by
        simp only [filesAfter, hflushed, Option.map_some, streamed, hclosed, if_true]
      have hlost : lostAfter state (.fwrite io) lost
          { state.notify with fp := fp, phase := .addJob job } =
            Function.update state.lost state.notify.accepted.length lost := rfl
      rw [hfiles, hlost]
      have hsame : job.savePath = fp.savePath := (hdone job rfl).trans hpath.symm
      refine h.writes (h.current.move hpath (by simp) ?_) ?_ hstored.unmoved
        (h.pending.all_read (.inl hopen)) (by simp) ?_
      · rintro done hadded
        cases hadded
        exact hsame
      · exact fun number hlt => Function.update_of_ne (Nat.ne_of_lt hlt) _ _
      · rintro done hadded
        cases hadded
        refine ⟨hdone job rfl, ?_, hclosed⟩
        rw [Function.update_self, hcontent]
  | _ => simp [Notify.step, hphase] at hnotify

theorem perm_filterMap_range {f g : Nat → Option Nat} {count index number : Nat} (hlt : index < count)
    (hold : f index = none) (hnew : g index = some number) (hsame : ∀ other, other ≠ index →
      g other = f other) :
    ((List.range count).filterMap g).Perm (number :: (List.range count).filterMap f) := by
  have hsplit := List.perm_cons_erase (List.mem_range.mpr hlt)
  have hrest : ((List.range count).erase index).filterMap g =
      ((List.range count).erase index).filterMap f := by
    refine List.filterMap_congr fun other hother => hsame other ?_
    rintro rfl
    exact List.nodup_range.not_mem_erase hother
  have hg := hsplit.filterMap g
  have hf := hsplit.filterMap f
  rw [List.filterMap_cons, hnew, hrest] at hg
  rw [List.filterMap_cons, hold] at hf
  exact hg.trans (hf.symm.cons number)

theorem Inv.accept (h : Inv setup state cells) {job : Job} {pjob : Addr} {pool : ThreadPool.Pool Nat}
    {broadcast : Bool} (hphase : state.notify.phase = .addJob job)
    (hfree : state.notify.pool.heap pjob = none)
    (hadded : ThreadPool.addJob state.notify.pool state.notify.accepted.length (some pjob) =
      .accepted pool broadcast) :
    Inv setup { state with
      notify := { state.notify with
        phase := .msgrcv, pool := pool, accepted := state.notify.accepted ++ [job] } }
      (cells ++ [(pjob, state.notify.accepted.length)]) := by
  obtain ⟨hstored, hclosed⟩ := h.addJob job hphase
  obtain ⟨rfl, hread⟩ := h.pending.all_read (.inr (.inr ⟨job, hphase⟩))
  have hcurrent := h.current.accept hphase hfree hadded
  have hheap (worker : Nat) (addr : Addr) (hholds : (state.notify.workers worker).pjob = some addr) :
      valueAt pool.heap addr = valueAt state.notify.pool.heap addr := by
    obtain ⟨hnot, hallocated⟩ := h.current.apart worker addr hholds
    have hne : addr ≠ pjob := by
      rintro rfl
      exact hallocated hfree
    rw [valueAt, (h.current.queues.addJob hfree hadded).2 addr hnot hne, valueAt]
  have hnumber (worker : Nat) : numberOf { state.notify with
      phase := .msgrcv, pool := pool, accepted := state.notify.accepted ++ [job] } worker =
        numberOf state.notify worker := by
    unfold numberOf
    cases hholds : (state.notify.workers worker).pjob with
    | none => rfl
    | some addr => exact hheap worker addr hholds
  have haccepted (number : Nat) (done : Job) (hdone : state.notify.accepted[number]? = some done) :
      (state.notify.accepted ++ [job])[number]? = some done ∧ state.lost number = state.lost number := by
    rw [List.getElem?_append_left (List.getElem?_eq_some_iff.mp hdone).1]
    exact ⟨hdone, rfl⟩
  refine ⟨hcurrent, ?_, ?_, by simp, ?_, h.disjoint, ?_, ?_⟩
  · exact .one state.notify.accepted.length job (by simp) ⟨hstored.found, hstored.unmoved⟩ hclosed
      (by simp) (.inl ⟨pjob, rfl, hread⟩)
  · intro _ written hwritten
    rw [hclosed] at hwritten
    contradiction
  · exact fun worker receipt hreceipt =>
      (h.busy worker receipt hreceipt).mono rfl (hheap worker) haccepted fun _ _ => rfl
  · exact fun notice hnotice => (h.notices notice hnotice).mono haccepted
  · have hnumbers := h.numbers
    simp only [unnoticed, List.map_nil, List.nil_append] at hnumbers
    rw [unnoticed, List.filterMap_congr fun worker _ => hnumber worker, List.length_append,
      List.length_singleton, List.range_succ]
    have hmove : (state.notices.map Notice.number ++ state.unsent ++ ([state.notify.accepted.length] ++
        (List.range setup.notify.threadNum).filterMap (numberOf state.notify))).Perm
          ((state.notices.map Notice.number ++ state.unsent ++
            (List.range setup.notify.threadNum).filterMap (numberOf state.notify)) ++
              [state.notify.accepted.length]) := by
      rw [List.append_assoc _ _ [state.notify.accepted.length]]
      exact List.perm_append_comm.append_left _
    exact hmove.trans (hnumbers.append_right _)

theorem Inv.adds (h : Inv setup state cells) {memory : Option Addr} {lost : Nat}
    (hstep : stepProcess setup state (.addJob memory) lost = some next) :
    ∃ cells', Inv setup next cells' := by
  obtain ⟨after, hnotify, rfl⟩ := Option.map_eq_some_iff.mp hstep
  rw [filesAfter_other (by simp) (by simp) (by simp), lostAfter_other (.inl (by simp))]
  cases hphase : state.notify.phase with
  | addJob job =>
    have hclosed := (h.addJob job hphase).2
    have hpending : Pending setup { state with notify := { state.notify with phase := .msgrcv } } cells :=
      h.pending.move rfl (by simp)
    simp only [Notify.step, hphase] at hnotify
    split at hnotify
    · contradiction
    rename_i hmemory
    split at hnotify
    · contradiction
    · cases hnotify
      refine ⟨cells, h.move (h.current.move rfl (by simp) (by simp)) (fun _ _ => rfl)
        (fun _ _ _ _ _ => rfl) hpending ?_ (by simp)⟩
      intro _ written hwritten
      rw [hclosed] at hwritten
      contradiction
    · rename_i pool broadcast hadded
      cases hnotify
      obtain ⟨⟨pjob, rfl⟩, -⟩ := ThreadPool.addJob_accepted hadded
      have hfree : state.notify.pool.heap pjob = none := by simpa using hmemory
      exact ⟨_, h.accept hphase hfree hadded⟩
    · rename_i hundefined
      exact absurd hundefined (h.current.queues.addJob_defined memory)
  | _ => simp [Notify.step, hphase] at hnotify

theorem Inv.take (h : Inv setup state cells) {lost : Nat}
    (hstep : stepProcess setup state (.takeJob worker) lost = some next) :
    ∃ cells', Inv setup next cells' := by
  obtain ⟨after, hnotify, rfl⟩ := Option.map_eq_some_iff.mp hstep
  rw [filesAfter_other (by simp) (by simp) (by simp), lostAfter_other (.inl (by simp))]
  simp only [Notify.step] at hnotify
  split at hnotify
  case isFalse => contradiction
  rename_i hworker
  obtain ⟨hlt, hidle⟩ := hworker
  split at hnotify
  case h_2 => contradiction
  rename_i pjob pool empty notFull htaken
  cases hnotify
  obtain ⟨number, rest, hcells, hqueues, hheap⟩ := h.current.queues.takeJob htaken
  obtain ⟨rest', hcurrent⟩ := h.current.take hlt htaken
  obtain rfl : rest = rest' := hqueues.chain.unique hcurrent.queues.chain
  have hvalue : valueAt state.notify.pool.heap pjob = some number :=
    h.current.queues.chain.valueAt (hcells ▸ List.mem_cons_self)
  have hnotBusy : ∀ receipt, state.finishing worker ≠ some receipt := by
    intro receipt hreceipt
    obtain ⟨addr, hnotifying, -⟩ := (h.busy worker receipt hreceipt).worker
    rw [hidle] at hnotifying
    contradiction
  have hworkers (other : Nat) (hne : other ≠ worker) :
      Function.update state.notify.workers worker (.taken pjob) other = state.notify.workers other :=
    Function.update_of_ne hne _ _
  refine ⟨rest, hcurrent, ?_, ?_, ?_, ?_, h.disjoint, ?_, ?_⟩
  · cases h.pending with
    | none hnone => simp [hnone] at hcells
    | one waiting job hjob hstored hclosed hphase hslot =>
      rcases hslot with ⟨addr, hone, hread⟩ | ⟨_, _, hnone, -⟩
      · rw [hone] at hcells
        cases hcells
        refine .one number job hjob ⟨hstored.found, hstored.unmoved⟩ hclosed hphase
          (.inr ⟨worker, pjob, rfl, Function.update_self _ _ _, hheap ▸ hvalue, ?_⟩)
        intro other hne
        dsimp only
        rw [hworkers other hne]
        exact hread other
      · simp [hnone] at hcells
  · intro hphase written hwritten
    have hstored := h.stream hphase written hwritten
    exact ⟨hstored.found, hstored.unmoved⟩
  · intro job hjob
    obtain ⟨hstored, hclosed⟩ := h.addJob job hjob
    exact ⟨⟨hstored.found, hstored.unmoved⟩, hclosed⟩
  · intro other receipt hreceipt
    have hne : other ≠ worker := by
      rintro rfl
      exact hnotBusy receipt hreceipt
    refine (h.busy other receipt hreceipt).mono (hworkers other hne) ?_ (fun _ _ hjob => ⟨hjob, rfl⟩)
      fun _ _ => rfl
    intro addr _
    dsimp only
    rw [hheap]
  · exact fun notice hnotice => (h.notices notice hnotice).mono fun _ _ hjob => ⟨hjob, rfl⟩
  · have hnumbers := h.numbers
    have htakes : ((List.range setup.notify.threadNum).filterMap (numberOf { state.notify with
        pool := pool, workers := Function.update state.notify.workers worker (.taken pjob) })).Perm
          (number :: (List.range setup.notify.threadNum).filterMap (numberOf state.notify)) := by
      apply perm_filterMap_range hlt
      · rw [numberOf, hidle]
        rfl
      · simp only [numberOf, Function.update_self]
        rw [← hvalue, ← hheap]
        rfl
      · intro other hne
        simp only [numberOf, hworkers other hne]
        rw [← hheap]
    simp only [unnoticed, hcells, List.map_cons, List.cons_append] at hnumbers ⊢
    refine List.Perm.trans (List.Perm.append_left _ ?_) hnumbers
    exact (htakes.append_left _).trans List.perm_middle

theorem start_eq {share : ShareInfo} {args : Bytes} {called : Announcements.State}
    (h : Announcements.start share args files = some called) : ∃ des, desOf share args = some des ∧
      called = ⟨files, args, des, if share.moveFile > 0 then .createDir else .message⟩ := by
  obtain ⟨filename, hfilename, hrest⟩ := Option.bind_eq_some_iff.mp h
  obtain ⟨des, hdes, hcalled⟩ := Option.bind_eq_some_iff.mp hrest
  obtain ⟨-, rfl⟩ := stored_eq_some.mp hfilename
  exact ⟨des, hdes, (Option.some.inj hcalled).symm⟩

theorem Inv.holder (h : Inv setup state cells) {pjob : Addr} {number : Nat}
    (hworker : state.notify.workers worker = .taken pjob)
    (hnumber : valueAt state.notify.pool.heap pjob = some number) : ∃ job,
      state.notify.accepted[number]? = some job ∧ job.savePath = state.notify.fp.savePath ∧
        Stored setup state job.savePath (state.kept number job) ∧ state.notify.fp.fp = none ∧
        (∀ next, state.notify.phase ≠ .addJob next) ∧ cells = [] ∧
        ∀ other, other ≠ worker → (state.notify.workers other).unread = none := by
  have hunread : (state.notify.workers worker).unread = some pjob := by
    rw [hworker]
    rfl
  obtain ⟨found, hfound, hsame⟩ := h.current.unread worker pjob hunread
  cases h.pending with
  | none _ hnone =>
    rw [hnone worker] at hunread
    contradiction
  | one waiting job hjob hstored hclosed hphase hslot =>
    rcases hslot with ⟨addr, -, hnone⟩ | ⟨holder, addr, hcells, hholder, hvalue, hothers⟩
    · rw [hnone worker] at hunread
      contradiction
    have hsameWorker : worker = holder := by
      by_contra hne
      rw [hothers worker hne] at hunread
      contradiction
    subst hsameWorker
    rw [hworker, Worker.taken.injEq] at hholder
    subst hholder
    obtain rfl := Option.some.inj (hnumber.symm.trans hvalue)
    rw [valueAt, hfound, Option.map_some, Option.some.injEq] at hnumber
    rw [hnumber, Notify.pathOf, hjob, Option.map_some, Option.some.injEq] at hsame
    exact ⟨job, hjob, hsame, hstored, hclosed, hphase.2, hcells, hothers⟩

theorem Inv.joins_apart (h : Inv setup state cells) {new : Receipt}
    (hnew : ∀ other receipt, state.finishing other = some receipt →
      ∀ name ∈ new.names setup.resolve, name ∉ receipt.names setup.resolve) :
    ∀ first second receipt₁ receipt₂, first ≠ second →
      Function.update state.finishing worker (some new) first = some receipt₁ →
      Function.update state.finishing worker (some new) second = some receipt₂ →
      ∀ name ∈ receipt₁.names setup.resolve, name ∉ receipt₂.names setup.resolve := by
  intro first second receipt₁ receipt₂ hne hfirst hsecond name hname hname'
  by_cases hone : first = worker
  · subst hone
    rw [Function.update_self, Option.some.injEq] at hfirst
    subst hfirst
    rw [Function.update_of_ne hne.symm] at hsecond
    exact hnew second receipt₂ hsecond name hname hname'
  · rw [Function.update_of_ne hone] at hfirst
    by_cases htwo : second = worker
    · subst htwo
      rw [Function.update_self, Option.some.injEq] at hsecond
      subst hsecond
      exact hnew first receipt₁ hfirst name hname' hname
    · rw [Function.update_of_ne htwo] at hsecond
      exact h.disjoint first second receipt₁ receipt₂ hne hfirst hsecond name hname hname'

theorem Inv.begins (h : Inv setup state cells) (hundisturbed : Undisturbed setup state (.begins worker))
    (hstep : stepBegins setup state worker = some next) : Inv setup next cells := by
  unfold stepBegins at hstep
  split at hstep
  case h_2 => contradiction
  rename_i pjob hworker
  obtain ⟨number, hnumber, hrest⟩ := Option.bind_eq_some_iff.mp hstep
  obtain ⟨after, hnotify, hrest⟩ := Option.bind_eq_some_iff.mp hrest
  obtain ⟨called, hstart, hnext⟩ := Option.bind_eq_some_iff.mp hrest
  obtain ⟨des, hdes, rfl⟩ := start_eq hstart
  simp only [Notify.step, hworker] at hnotify
  obtain ⟨cell, hcell, rfl⟩ := Option.map_eq_some_iff.mp hnotify
  obtain rfl := Option.some.inj hnext
  obtain ⟨job, hjob, hpath, hstored, hclosed, hphase, rfl, hread⟩ := h.holder hworker hnumber
  have hunmoved := h.unmoved (hundisturbed des hdes)
  rw [hpath] at hstored
  have hworkers (other : Nat) (hne : other ≠ worker) : Function.update state.notify.workers worker
      (.notifying pjob state.notify.fp.savePath) other = state.notify.workers other :=
    Function.update_of_ne hne _ _
  have hnumbers (other : Nat) : numberOf { state.notify with
      workers := Function.update state.notify.workers worker (.notifying pjob state.notify.fp.savePath)
      read := state.notify.read ++ [(cell.value, state.notify.fp.savePath)] } other =
        numberOf state.notify other := by
    by_cases hsame : other = worker
    · simp only [numberOf, hsame, Function.update_self, hworker]
      rfl
    · simp only [numberOf, hworkers other hsame]
  refine ⟨h.current.readPath hworker hcell, .none rfl ?_, ?_, ?_, ?_, ?_, ?_, ?_⟩
  · intro other
    dsimp only
    by_cases hsame : other = worker
    · rw [hsame, Function.update_self]
      rfl
    · rw [hworkers other hsame]
      exact hread other hsame
  · intro _ written hwritten
    rw [hclosed] at hwritten
    contradiction
  · exact fun next hnext => absurd hnext (hphase next)
  · intro other receipt hreceipt
    dsimp only at hreceipt
    by_cases hsame : other = worker
    · subst hsame
      rw [Function.update_self, Option.some.injEq] at hreceipt
      subst hreceipt
      refine ⟨⟨pjob, Function.update_self _ _ _, hnumber⟩, job, hjob, hpath, hdes, ?_, ?_⟩
      · intro heq
        dsimp only at heq ⊢
        rw [← heq]
        exact hstored.found
      · exact Announcements.arrives_start hdes hstored.found
    · rw [Function.update_of_ne hsame] at hreceipt
      exact (h.busy other receipt hreceipt).mono (hworkers other hsame) (fun _ _ => rfl)
        (fun _ _ hjob => ⟨hjob, rfl⟩) fun _ _ => rfl
  · -- the two files of the new one are not those of the others
    refine h.joins_apart fun other receipt hreceipt name hname => ?_
    simp only [Receipt.names, List.mem_cons, List.not_mem_nil, or_false] at hname
    rcases hname with rfl | rfl
    · exact hstored.unmoved other receipt hreceipt
    · exact hunmoved other receipt hreceipt
  · exact fun notice hnotice => (h.notices notice hnotice).mono fun _ _ hjob => ⟨hjob, rfl⟩
  · rw [unnoticed, List.filterMap_congr fun other _ => hnumbers other]
    exact h.numbers

theorem Stored.called (h : Stored setup state path content) (hreceipt : state.finishing worker = some receipt)
    (hfiles : ∀ name, name ∉ receipt.names setup.resolve → next.files name = state.files name)
    (hfinishing : ∀ other receipt', next.finishing other = some receipt' →
      ∃ old, state.finishing other = some old ∧ receipt'.names setup.resolve = old.names setup.resolve) :
    Stored setup next path content :=
  h.mono (hfiles _ (h.unmoved worker receipt hreceipt)) hfinishing

theorem Inv.apart (h : Inv setup state cells) {finishing : Nat → Option Receipt}
    (hfinishing : ∀ other receipt', finishing other = some receipt' → ∃ old,
      state.finishing other = some old ∧ receipt'.names setup.resolve = old.names setup.resolve) :
    ∀ first second receipt₁ receipt₂, first ≠ second →
      finishing first = some receipt₁ → finishing second = some receipt₂ →
      ∀ name ∈ receipt₁.names setup.resolve, name ∉ receipt₂.names setup.resolve := by
  intro first second receipt₁ receipt₂ hne hfirst hsecond
  obtain ⟨old₁, hold₁, hnames₁⟩ := hfinishing first receipt₁ hfirst
  obtain ⟨old₂, hold₂, hnames₂⟩ := hfinishing second receipt₂ hsecond
  rw [hnames₁, hnames₂]
  exact h.disjoint first second old₁ old₂ hne hold₁ hold₂

theorem Inv.goesOn (h : Inv setup state cells) (hreceipt : state.finishing worker = some receipt)
    (hfiles : ∀ name, name ∉ receipt.names setup.resolve → files name = state.files name)
    {pc : Announcements.Pc} {past : List Announcements.Reply}
    (hbusy : Busy setup { state with files := files } worker { receipt with pc := pc, past := past }) :
    Inv setup { state with
      files := files
      finishing := Function.update state.finishing worker (some { receipt with pc := pc, past := past }) }
        cells := by
  have hfinishing : ∀ other receipt', Function.update state.finishing worker
      (some { receipt with pc := pc, past := past }) other = some receipt' → ∃ old,
        state.finishing other = some old ∧ receipt'.names setup.resolve = old.names setup.resolve := by
    intro other receipt' hother
    by_cases hsame : other = worker
    · subst hsame
      rw [Function.update_self, Option.some.injEq] at hother
      subst hother
      exact ⟨receipt, hreceipt, rfl⟩
    · rw [Function.update_of_ne hsame] at hother
      exact ⟨receipt', hother, rfl⟩
  refine ⟨h.current, ?_, ?_, ?_, ?_, ?_, ?_, h.numbers⟩
  · cases h.pending with
    | none hcells hread => exact .none hcells hread
    | one number job hjob hstored hclosed hphase hslot =>
      exact .one number job hjob (hstored.called hreceipt hfiles hfinishing) hclosed hphase hslot
  · exact fun hphase written hwritten =>
      (h.stream hphase written hwritten).called hreceipt hfiles hfinishing
  · intro job hjob
    obtain ⟨hstored, hclosed⟩ := h.addJob job hjob
    exact ⟨hstored.called hreceipt hfiles hfinishing, hclosed⟩
  · intro other receipt' hother
    dsimp only at hother
    by_cases hsame : other = worker
    · subst hsame
      rw [Function.update_self, Option.some.injEq] at hother
      subst hother
      exact ⟨hbusy.worker, hbusy.job⟩
    · rw [Function.update_of_ne hsame] at hother
      refine (h.busy other receipt' hother).mono rfl (fun _ _ => rfl) (fun _ _ hjob => ⟨hjob, rfl⟩) ?_
      intro name hname
      exact hfiles name (h.disjoint other worker receipt' receipt hsame hother hreceipt name hname)
  · exact h.apart hfinishing
  · exact fun notice hnotice => (h.notices notice hnotice).mono fun _ _ hjob => ⟨hjob, rfl⟩

theorem Inv.released (h : Inv setup state cells) {pjob : Addr}
    (hworker : (state.notify.workers worker).pjob = some pjob) {other : Nat} (hne : other ≠ worker)
    {addr : Addr} (hholds : (state.notify.workers other).pjob = some addr) :
    valueAt (ThreadPool.release state.notify.pool pjob).heap addr =
      valueAt state.notify.pool.heap addr := by
  have hother : addr ≠ pjob := by
    rintro rfl
    exact hne (h.current.alone other worker addr hholds hworker)
  rw [valueAt, ThreadPool.release_heap hother, valueAt]

theorem Inv.gives_back (h : Inv setup state cells) (hreceipt : state.finishing worker = some receipt)
    {pjob : Addr} {filename : Bytes} (hworker : state.notify.workers worker = .notifying pjob filename)
    (hvalue : valueAt state.notify.pool.heap pjob = some receipt.number) :
    ((List.range setup.notify.threadNum).filterMap (numberOf state.notify)).Perm
      (receipt.number :: (List.range setup.notify.threadNum).filterMap (numberOf { state.notify with
        pool := ThreadPool.release state.notify.pool pjob
        workers := Function.update state.notify.workers worker .idle })) := by
  apply perm_filterMap_range (h.worker_lt hreceipt)
  · simp only [numberOf, Function.update_self]
    rfl
  · rw [numberOf, hworker]
    exact hvalue
  · intro other hne
    simp only [numberOf, Function.update_of_ne hne]
    cases hholds : (state.notify.workers other).pjob with
    | none => rfl
    | some addr => exact (h.released (by rw [hworker]; rfl) hne hholds).symm

theorem Inv.finishes (h : Inv setup state cells) (hreceipt : state.finishing worker = some receipt)
    (hfiles : ∀ name, name ∉ receipt.names setup.resolve → files name = state.files name)
    {notify : Notify.State} {notices : List Notice} {unsent : List Nat}
    (hnotices : ∀ notice ∈ notices, Truthful setup state notice)
    (hcounted : (notices.map Notice.number ++ unsent).Perm
      (state.notices.map Notice.number ++ state.unsent ++ [receipt.number]))
    (hnotify : Notify.step setup.notify state.notify (.finish worker) = some notify) :
    Inv setup { state with
      notify := notify
      files := files
      finishing := Function.update state.finishing worker none
      notices := notices
      unsent := unsent } cells := by
  obtain ⟨⟨pjob, hworker, hvalue⟩, -⟩ := h.busy worker receipt hreceipt
  simp only [Notify.step, hworker, Option.some.injEq] at hnotify
  subst hnotify
  have hfinishing : ∀ other receipt', Function.update state.finishing worker none other = some receipt' →
      ∃ old, state.finishing other = some old ∧
        receipt'.names setup.resolve = old.names setup.resolve := by
    intro other receipt' hother
    by_cases hsame : other = worker
    · subst hsame
      rw [Function.update_self] at hother
      contradiction
    · rw [Function.update_of_ne hsame] at hother
      exact ⟨receipt', hother, rfl⟩
  have hworkers (other : Nat) (hne : other ≠ worker) :
      Function.update state.notify.workers worker .idle other = state.notify.workers other :=
    Function.update_of_ne hne _ _
  have hheap (other : Nat) (hne : other ≠ worker) (addr : Addr)
      (hholds : (state.notify.workers other).pjob = some addr) :
      valueAt (ThreadPool.release state.notify.pool pjob).heap addr =
        valueAt state.notify.pool.heap addr :=
    h.released (by rw [hworker]; rfl) hne hholds
  refine ⟨h.current.finish hworker, ?_, ?_, ?_, ?_, ?_, ?_, ?_⟩
  · have hunread : ∀ other, (state.notify.workers other).unread = Option.none →
        (Function.update state.notify.workers worker .idle other).unread = Option.none := by
      intro other hnone
      by_cases hsame : other = worker
      · rw [hsame, Function.update_self]
        rfl
      · rw [hworkers other hsame]
        exact hnone
    cases h.pending with
    | none hcells hread => exact .none hcells fun other => hunread other (hread other)
    | one number job hjob hstored hclosed hphase hslot =>
      refine .one number job hjob (hstored.called hreceipt hfiles hfinishing) hclosed hphase ?_
      rcases hslot with ⟨addr, hcells, hread⟩ | ⟨holder, addr, hcells, hholder, hnumber', hothers⟩
      · exact .inl ⟨addr, hcells, fun other => hunread other (hread other)⟩
      · have hne : holder ≠ worker := by
          rintro rfl
          rw [hworker] at hholder
          contradiction
        refine .inr ⟨holder, addr, hcells, (hworkers holder hne).trans hholder, ?_, fun other hother =>
          hunread other (hothers other hother)⟩
        exact (hheap holder hne addr (by rw [hholder]; rfl)).trans hnumber'
  · exact fun hphase written hwritten =>
      (h.stream hphase written hwritten).called hreceipt hfiles hfinishing
  · intro job hjob
    obtain ⟨hstored, hclosed⟩ := h.addJob job hjob
    exact ⟨hstored.called hreceipt hfiles hfinishing, hclosed⟩
  · intro other receipt' hother
    dsimp only at hother
    have hne : other ≠ worker := by
      rintro rfl
      rw [Function.update_self] at hother
      contradiction
    rw [Function.update_of_ne hne] at hother
    refine (h.busy other receipt' hother).mono (hworkers other hne) (hheap other hne)
      (fun _ _ hjob => ⟨hjob, rfl⟩) ?_
    intro name hname
    exact hfiles name (h.disjoint other worker receipt' receipt hne hother hreceipt name hname)
  · exact h.apart hfinishing
  · exact fun notice hnotice => (hnotices notice hnotice).mono fun _ _ hjob => ⟨hjob, rfl⟩
  · refine (hcounted.append_right _).trans (List.Perm.trans ?_ h.numbers)
    have hgives := h.gives_back hreceipt hworker hvalue
    simp only [unnoticed]
    rw [List.append_assoc _ [receipt.number]]
    refine List.Perm.append_left _ ?_
    rw [List.singleton_append]
    exact List.perm_middle.symm.trans (hgives.symm.append_left (cells.map Prod.snd))

theorem Inv.called (h : Inv setup state cells) (hreceipt : state.finishing worker = some receipt)
    {reply : Announcements.Reply} {called : Announcements.State}
    (hcalled : Announcements.step setup.resolve
      ⟨state.files, receipt.filename, receipt.des, receipt.pc⟩ reply = some called) :
    (∀ name, name ∉ receipt.names setup.resolve → called.files name = state.files name) ∧
      Busy setup { state with files := called.files } worker
        { receipt with pc := called.pc, past := receipt.past ++ [reply] } := by
  obtain ⟨hworker, job, hjob, hpath, hdes, hold, harrives⟩ := h.busy worker receipt hreceipt
  obtain ⟨hfilename, hsame, harrives'⟩ := harrives.step hold hcalled
  refine ⟨fun name hname => ?_, hworker, job, hjob, hpath, hdes, hold, ?_⟩
  · simp only [Receipt.names, List.mem_cons, List.not_mem_nil, or_false, not_or] at hname
    exact called_elsewhere hcalled hname.1 hname.2
  · obtain ⟨after, filename, des, pc⟩ := called
    obtain rfl : filename = receipt.filename := hfilename
    obtain rfl : des = receipt.des := hsame
    exact harrives'

theorem Inv.calls (h : Inv setup state cells) {reply : Announcements.Reply}
    (hstep : stepCalls setup state worker reply = some next) : Inv setup next cells := by
  obtain ⟨receipt, hreceipt, hrest⟩ := Option.bind_eq_some_iff.mp hstep
  obtain ⟨called, hcalled, hnext⟩ := Option.bind_eq_some_iff.mp hrest
  obtain ⟨hfiles, hbusy⟩ := h.called hreceipt hcalled
  split at hnext
  · -- the notice is sent
    rename_i message hfinished
    obtain ⟨notify, hnotify, rfl⟩ := Option.map_eq_some_iff.mp hnext
    obtain ⟨-, job, hjob, hpath, hdes, -, harrives⟩ := hbusy
    obtain ⟨hecho, hiff⟩ := harrives.sent hfinished
    refine h.finishes hreceipt hfiles ?_ ?_ hnotify
    · intro notice hnotice
      rcases List.mem_append.mp hnotice with hnotice | hnotice
      · exact h.notices notice hnotice
      · rw [List.mem_singleton.mp hnotice]
        refine ⟨decode_echoMsg hecho, job, hjob, ?_, ?_⟩
        · rw [hpath]
          exact hdes
        · rw [hpath]
          exact hiff
    · rw [List.map_append, List.append_assoc, List.append_assoc]
      exact List.perm_append_comm.append_left _
  · obtain rfl := Option.some.inj hnext
    exact h.goesOn hreceipt hfiles hbusy

theorem Inv.unsent (h : Inv setup state cells) (hstep : stepUnsent setup state worker = some next) :
    Inv setup next cells := by
  obtain ⟨receipt, hreceipt, hrest⟩ := Option.bind_eq_some_iff.mp hstep
  obtain ⟨called, hcalled, hnext⟩ := Option.bind_eq_some_iff.mp hrest
  obtain ⟨hfiles, -⟩ := h.called hreceipt hcalled
  split at hnext
  · obtain ⟨notify, hnotify, rfl⟩ := Option.map_eq_some_iff.mp hnext
    refine h.finishes hreceipt hfiles h.notices ?_ hnotify
    rw [← List.append_assoc]
  · contradiction

theorem inv_start (setup : Setup) (files : Bytes → Option Bytes) : Inv setup (start setup files) [] where
  current := Notify.current_start setup.notify
  pending := .none rfl fun _ => rfl
  stream := by simp [start, Notify.start, FileProcess.start, again]
  addJob := by simp [start, Notify.start]
  busy := by simp [start]
  disjoint := by simp [start]
  notices := by simp [start]
  numbers := by
    have hidle : (List.range setup.notify.threadNum).filterMap
        (numberOf (start setup files).notify) = [] := by
      rw [List.filterMap_eq_nil_iff]
      exact fun _ _ => rfl
    rw [unnoticed, hidle]
    exact List.Perm.refl _

theorem Inv.step {action : Action} (h : Inv setup state cells)
    (hundisturbed : Undisturbed setup state action)
    (hstep : Receipts.step setup state action = some next) : ∃ cells', Inv setup next cells' := by
  unfold Receipts.step at hstep
  split at hstep
  · contradiction
  cases action with
  | process action lost =>
    cases action with
    | msgrcv move text => exact ⟨cells, h.msgrcv hstep⟩
    | sprintf => exact ⟨cells, h.sprintf hundisturbed hstep⟩
    | strcat io => exact ⟨cells, h.strcat hundisturbed hstep⟩
    | fwrite io => exact ⟨cells, h.fwrite hstep⟩
    | addJob memory => exact h.adds hstep
    | takeJob worker => exact h.take hstep
    | readPath worker => contradiction
    | finish worker => contradiction
  | begins worker => exact ⟨cells, h.begins hundisturbed hstep⟩
  | calls worker reply => exact ⟨cells, h.calls hstep⟩
  | unsent worker => exact ⟨cells, h.unsent hstep⟩

theorem Inv.nodup (h : Inv setup state cells) :
    (state.notices.map Notice.number ++ state.unsent).Nodup := by
  have hall := h.numbers.nodup_iff.mpr List.nodup_range
  exact (List.nodup_append.mp hall).1

/-- Every job has one, or its `sendto` has failed, when the queue is empty and no worker has
a job. -/
theorem Inv.all_noticed (h : Inv setup state cells) (hcount : state.notify.pool.queueCurNum = 0)
    (hidle : ∀ worker < setup.notify.threadNum, state.notify.workers worker = .idle) :
    (state.notices.map Notice.number ++ state.unsent).Perm
      (List.range state.notify.accepted.length) := by
  have hcells : cells = [] := by
    rw [h.current.queues.count] at hcount
    exact List.length_eq_zero_iff.mp (by exact_mod_cast hcount)
  have hnone : (List.range setup.notify.threadNum).filterMap (numberOf state.notify) = [] := by
    rw [List.filterMap_eq_nil_iff]
    intro worker hworker
    rw [numberOf, hidle worker (List.mem_range.mp hworker)]
    rfl
  have hnumbers := h.numbers
  rwa [unnoticed, hcells, hnone, List.map_nil, List.append_nil, List.append_nil] at hnumbers

/-- Every notice names a file of an accepted job, each job has one notice at most, and exactly
one notice or one `sendto` that failed when nothing is left to do. When the notice is sent, the
announced file has what `fclose` left of the job exactly as far as the calls of its own move
say so. -/
theorem notices_truthful {final : State} {actions : List Action}
    (meets : Meets (Receipts.step setup) (Undisturbed setup) (start setup files) actions)
    (run : exec (Receipts.step setup) (start setup files) actions = some final) :
    (∀ notice ∈ final.notices, Truthful setup final notice) ∧
      (final.notices.map Notice.number ++ final.unsent).Nodup ∧
      (final.notify.pool.queueCurNum = 0 →
        (∀ worker < setup.notify.threadNum, final.notify.workers worker = .idle) →
        (final.notices.map Notice.number ++ final.unsent).Perm
          (List.range final.notify.accepted.length)) := by
  have preserved : ∀ state action next, (∃ cells, Inv setup state cells) →
      Undisturbed setup state action → Receipts.step setup state action = some next →
      ∃ cells, Inv setup next cells := by
    rintro state action next ⟨cells, h⟩ hundisturbed hstep
    exact h.step hundisturbed hstep
  obtain ⟨cells, h⟩ := exec_invariant preserved ⟨[], inv_start setup files⟩ meets run
  exact ⟨h.notices, h.nodup, h.all_noticed⟩

end

def twoMovers : Setup := ⟨Notify.sixWorkers, ⟨ascii "c", ascii "a", 1⟩, id⟩

/-- The second file comes in, and is moved, while the first one is being moved. The byte of the
second one is lost when it is closed, and the notice of the first one when it is sent. -/
def overlapping : List Action :=
  [.process (.msgrcv 1 (Notify.onePacket 97)) 0, .process .sprintf 0, .process (.strcat .ok) 0,
    .process (.fwrite .ok) 0, .process (.addJob (some 1)) 0, .process (.takeJob 0) 0, .begins 0,
    .calls 0 (.createDir 0), .process (.msgrcv 1 (Notify.onePacket 98)) 0, .process .sprintf 0,
    .process (.strcat .ok) 0, .process (.fwrite .ok) 1, .process (.addJob (some 2)) 0,
    .process (.takeJob 1) 0, .begins 1, .calls 1 (.createDir 0), .calls 1 (.call (.rename true)),
    .calls 0 (.call (.rename true)), .calls 1 .sent, .unsent 0]

theorem notices_truthful_overlapping : ∃ final,
    exec (step twoMovers) (start twoMovers fun _ => none) overlapping = some final ∧
      final.notices.map Notice.found = [some []] ∧ final.unsent = [0] ∧
      (∀ notice ∈ final.notices, Truthful twoMovers final notice) ∧
      (final.notices.map Notice.number ++ final.unsent).Perm
        (List.range final.notify.accepted.length) := by
  have meets : Meets (step twoMovers) (Undisturbed twoMovers) (start twoMovers fun _ => none)
      overlapping := by
    decide +kernel
  have hrest : (exec (step twoMovers) (start twoMovers fun _ => none) overlapping).any
      (fun (final : State) => decide (final.notices.map Notice.found = [some []] ∧
        final.unsent = [0] ∧ final.notify.pool.queueCurNum = 0 ∧
        ∀ worker < twoMovers.notify.threadNum, final.notify.workers worker = .idle)) = true := by
    decide +kernel
  obtain ⟨final, run, htest⟩ := (Option.any_eq_true _ _).mp hrest
  obtain ⟨hfound, hunsent, hcount, hidle⟩ := of_decide_eq_true htest
  obtain ⟨htrue, -, hall⟩ := notices_truthful meets run
  exact ⟨final, run, hfound, hunsent, htrue, hall hcount hidle⟩

end UdpFileProxy.Receipts
