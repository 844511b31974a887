import UdpFileProxy.FileProcess
import UdpFileProxy.ThreadPool
import UdpFileProxy.Lib.Run

/-! `File_Process` and the workers of the thread pool. Every job gets the address
of the one buffer `save_path`; `sprintf` and `strcat` rewrite it for the next
file whenever they come to it, and a worker reads it whenever it comes to run
`Recv_Finish`. -/
namespace UdpFileProxy.Notify
open Lib.Memory Lib.Run Lib.LinkedList Protocol FileProcess ThreadPool

/-- The call that `File_Process` is about to make. -/
inductive Phase where
  | msgrcv
  | sprintf
  | strcat (fileName : Bytes)
  | fwrite
  | addJob (job : Job)
  | stopped (stop : Stop)
  deriving DecidableEq

/-- A worker has no job, has taken one, or has read its argument. -/
inductive Worker where
  | idle
  | taken (pjob : Addr)
  | notifying (pjob : Addr) (path : Bytes)
  deriving DecidableEq

/-- The cell of the job that a worker has. -/
def Worker.pjob : Worker → Option Addr
  | .idle => none
  | .taken pjob => some pjob
  | .notifying pjob _ => some pjob

/-- The cell of a job that a worker has taken and not read. -/
def Worker.unread : Worker → Option Addr
  | .taken pjob => some pjob
  | _ => none

/-- The argument of a job is always the address of `save_path`; the number in its
place says which of the `accepted` jobs it is. `accepted` and `read`, the numbers
with the paths that were read, are history. -/
structure State where
  phase : Phase
  fp : FileProcess.State
  pool : Pool Nat
  workers : Nat → Worker
  accepted : List Job
  read : List (Nat × Bytes)

inductive Action where
  | msgrcv (move : Int) (text : Bytes)
  | sprintf
  | strcat (io : FileIo)
  | fwrite (io : FileIo)
  | addJob (memory : Option Addr)
  | takeJob (worker : Nat)
  | readPath (worker : Nat)
  | finish (worker : Nat)
  deriving DecidableEq

structure Setup where
  info : Info
  threadNum : Nat
  queueMax : Int

def start (setup : Setup) : State where
  phase := .msgrcv
  fp := FileProcess.start
  pool := ThreadPool.init setup.queueMax
  workers := fun _ => .idle
  accepted := []
  read := []

/-- Any message may come, of any content. -/
def step (setup : Setup) (state : State) (action : Action) : Option State :=
  match action, state.phase with
  | .msgrcv move text, .msgrcv =>
      let received := FileProcess.receive state.fp move text
      some { state with
        fp := received, phase := if startsFile received then .sprintf else .fwrite }
  | .sprintf, .sprintf =>
      match readHeader setup.info state.fp with
      | .error stop => some { state with phase := .stopped stop }
      | .ok (fp, fileName) => some { state with fp := fp, phase := .strcat fileName }
  | .strcat io, .strcat fileName =>
      match openFile io state.fp fileName with
      | .error stop => some { state with phase := .stopped stop }
      | .ok fp => some { state with fp := fp, phase := .fwrite }
  | .fwrite io, .fwrite =>
      match writePack setup.info io state.fp with
      | .error stop => some { state with phase := .stopped stop }
      | .ok (fp, none) => some { state with fp := fp, phase := .msgrcv }
      | .ok (fp, some job) => some { state with fp := fp, phase := .addJob job }
  | .addJob memory, .addJob job =>
      if memory.any fun addr => (state.pool.heap addr).isSome then none
      else
        match ThreadPool.addJob state.pool state.accepted.length memory with
        | .waits => none
        | .refused => some { state with phase := .msgrcv }
        | .accepted pool _ =>
            some { state with
              phase := .msgrcv, pool := pool, accepted := state.accepted ++ [job] }
        | .undefined => some { state with phase := .stopped .undefined }
  | .takeJob worker, _ =>
      if worker < setup.threadNum ∧ state.workers worker = .idle then
        match ThreadPool.takeJob state.pool with
        | .took pjob pool _ _ =>
            some { state with
              pool := pool, workers := Function.update state.workers worker (.taken pjob) }
        | _ => none
      else none
  | .readPath worker, _ =>
      match state.workers worker with
      | .taken pjob =>
          (state.pool.heap pjob).map fun cell =>
            { state with
              workers := Function.update state.workers worker (.notifying pjob state.fp.savePath)
              read := state.read ++ [(cell.value, state.fp.savePath)] }
      | _ => none
  | .finish worker, _ =>
      match state.workers worker with
      | .notifying pjob _ =>
          some { state with
            pool := release state.pool pjob
            workers := Function.update state.workers worker .idle }
      | _ => none
  | _, _ => none

/-- `save_path` is not rewritten before the argument of every accepted job was
read. -/
def AllRead (setup : Setup) (state : State) (action : Action) : Prop :=
  action = .sprintf → state.pool.queueCurNum = 0 ∧
    ∀ worker < setup.threadNum, (state.workers worker).unread = none

instance (setup : Setup) (state : State) (action : Action) : Decidable (AllRead setup state action) :=
  inferInstanceAs (Decidable (action = .sprintf → state.pool.queueCurNum = 0 ∧
    ∀ worker < setup.threadNum, (state.workers worker).unread = none))

/-- The `save_path` that was current when a job was accepted. -/
def pathOf (accepted : List Job) (number : Nat) : Option Bytes :=
  accepted[number]?.map Job.savePath

structure Current (setup : Setup) (state : State) (cells : List (Addr × Nat)) : Prop where
  queues : Queues state.pool cells
  queued : ∀ cell ∈ cells, pathOf state.accepted cell.2 = some state.fp.savePath
  apart : ∀ worker pjob, (state.workers worker).pjob = some pjob →
    pjob ∉ cells.map Prod.fst ∧ state.pool.heap pjob ≠ none
  alone : ∀ worker other pjob, (state.workers worker).pjob = some pjob →
    (state.workers other).pjob = some pjob → worker = other
  unread : ∀ worker pjob, (state.workers worker).unread = some pjob → ∃ cell,
    state.pool.heap pjob = some cell ∧ pathOf state.accepted cell.value = some state.fp.savePath
  few : ∀ worker, setup.threadNum ≤ worker → state.workers worker = .idle
  strcat : ∀ fileName, state.phase = .strcat fileName →
    cells = [] ∧ ∀ worker, (state.workers worker).unread = none
  addJob : ∀ job, state.phase = .addJob job → job.savePath = state.fp.savePath
  read : ∀ entry ∈ state.read, pathOf state.accepted entry.1 = some entry.2

section
variable {setup : Setup} {state next : State} {action : Action} {cells : List (Addr × Nat)}

theorem current_start (setup : Setup) : Current setup (start setup) [] where
  queues := queues_init _
  queued := by simp
  apart := by simp [start, Worker.pjob]
  alone := by simp [start, Worker.pjob]
  unread := by simp [start, Worker.unread]
  few := by simp [start]
  strcat := by simp [start]
  addJob := by simp [start]
  read := by simp [start]

theorem Current.move (h : Current setup state cells) {phase : Phase} {fp : FileProcess.State}
    (hpath : fp.savePath = state.fp.savePath) (hstrcat : ∀ fileName, phase ≠ .strcat fileName)
    (hadd : ∀ job, phase = .addJob job → job.savePath = fp.savePath) :
    Current setup { state with phase := phase, fp := fp } cells where
  queues := h.queues
  queued := by
    rw [hpath]
    exact h.queued
  apart := h.apart
  alone := h.alone
  unread := by
    rw [hpath]
    exact h.unread
  few := h.few
  strcat := fun fileName hphase => absurd hphase (hstrcat fileName)
  addJob := hadd
  read := h.read

theorem Current.rewrite (h : Current setup state []) {phase : Phase} {fp : FileProcess.State}
    (hread : ∀ worker, (state.workers worker).unread = none)
    (hadd : ∀ job, phase ≠ .addJob job) :
    Current setup { state with phase := phase, fp := fp } [] where
  queues := h.queues
  queued := by simp
  apart := h.apart
  alone := h.alone
  unread := by simp [hread]
  few := h.few
  strcat := fun _ _ => ⟨rfl, hread⟩
  addJob := fun job hphase => absurd hphase (hadd job)
  read := h.read

theorem pjob_of_unread {worker : Worker} {pjob : Addr} (h : worker.unread = some pjob) :
    worker.pjob = some pjob := by
  cases worker with
  | idle => contradiction
  | taken addr => exact h
  | notifying addr path => contradiction

theorem pathOf_append {accepted : List Job} {number : Nat} {path : Bytes} (job : Job)
    (h : pathOf accepted number = some path) : pathOf (accepted ++ [job]) number = some path := by
  unfold pathOf at h ⊢
  obtain ⟨done, hdone, hpath⟩ := Option.map_eq_some_iff.mp h
  rw [List.getElem?_append_left (List.getElem?_eq_some_iff.mp hdone).1, hdone, Option.map_some, hpath]

theorem Current.accept (h : Current setup state cells) {job : Job} {pjob : Addr} {pool : Pool Nat}
    {broadcast : Bool} (hphase : state.phase = .addJob job) (hfree : state.pool.heap pjob = none)
    (hadded : ThreadPool.addJob state.pool state.accepted.length (some pjob) =
      .accepted pool broadcast) :
    Current setup { state with
      phase := .msgrcv, pool := pool, accepted := state.accepted ++ [job] }
      (cells ++ [(pjob, state.accepted.length)]) := by
  obtain ⟨hqueues, hheap⟩ := h.queues.addJob hfree hadded
  have hsame (worker : Nat) (addr : Addr) (hholds : (state.workers worker).pjob = some addr) :
      addr ≠ pjob ∧ pool.heap addr = state.pool.heap addr := by
    obtain ⟨hnot, hallocated⟩ := h.apart worker addr hholds
    have hne : addr ≠ pjob := by
      rintro rfl
      exact hallocated hfree
    exact ⟨hne, hheap addr hnot hne⟩
  refine ⟨hqueues, ?_, ?_, h.alone, ?_, h.few, by simp, by simp, ?_⟩
  · intro cell hcell
    rcases List.mem_append.mp hcell with hcell | hcell
    · exact pathOf_append job (h.queued cell hcell)
    · rw [List.mem_singleton.mp hcell]
      simp [pathOf, h.addJob job hphase]
  · intro worker addr hholds
    obtain ⟨hnot, hallocated⟩ := h.apart worker addr hholds
    obtain ⟨hne, hkept⟩ := hsame worker addr hholds
    refine ⟨by simp [hnot, hne], ?_⟩
    rw [hkept]
    exact hallocated
  · intro worker addr hunread
    obtain ⟨cell, hcell, hpath⟩ := h.unread worker addr hunread
    refine ⟨cell, ?_, pathOf_append job hpath⟩
    rw [(hsame worker addr (pjob_of_unread hunread)).2, hcell]
  · intro entry hentry
    exact pathOf_append job (h.read entry hentry)

theorem Current.take (h : Current setup state cells) {worker : Nat} {pjob : Addr} {pool : Pool Nat}
    {empty notFull : Bool} (hworker : worker < setup.threadNum)
    (htaken : ThreadPool.takeJob state.pool = .took pjob pool empty notFull) :
    ∃ rest, Current setup { state with
      pool := pool, workers := Function.update state.workers worker (.taken pjob) } rest := by
  obtain ⟨number, rest, rfl, hqueues, hheap⟩ := h.queues.takeJob htaken
  have hnodup := h.queues.chain.nodup
  rw [List.map_cons, List.nodup_cons] at hnodup
  obtain ⟨link, hcell⟩ := h.queues.chain.allocated (List.mem_cons_self)
  have hother (other : Nat) (addr : Addr) (hholds : (state.workers other).pjob = some addr) :
      addr ≠ pjob := by
    rintro rfl
    exact (h.apart other addr hholds).1 (by simp)
  refine ⟨rest, hqueues, ?_, ?_, ?_, ?_, ?_, ?_, h.addJob, h.read⟩
  · exact fun cell hmem => h.queued cell (List.mem_cons_of_mem _ hmem)
  · intro other addr hholds
    rw [hheap]
    by_cases hsame : other = worker
    · simp only [hsame, Function.update_self, Worker.pjob, Option.some.injEq] at hholds
      subst hholds
      exact ⟨hnodup.1, by simp [hcell]⟩
    · simp only [Function.update_of_ne hsame] at hholds
      obtain ⟨hnot, hallocated⟩ := h.apart other addr hholds
      exact ⟨fun hmem => hnot (by simp [hmem]), hallocated⟩
  · intro first second addr hfirst hsecond
    by_cases hone : first = worker
    · by_cases htwo : second = worker
      · rw [hone, htwo]
      · simp only [hone, Function.update_self, Worker.pjob, Option.some.injEq] at hfirst
        simp only [Function.update_of_ne htwo] at hsecond
        exact absurd hfirst.symm (hother second addr hsecond)
    · simp only [Function.update_of_ne hone] at hfirst
      by_cases htwo : second = worker
      · simp only [htwo, Function.update_self, Worker.pjob, Option.some.injEq] at hsecond
        exact absurd hsecond.symm (hother first addr hfirst)
      · simp only [Function.update_of_ne htwo] at hsecond
        exact h.alone first second addr hfirst hsecond
  · intro other addr hunread
    rw [hheap]
    by_cases hsame : other = worker
    · simp only [hsame, Function.update_self, Worker.unread, Option.some.injEq] at hunread
      subst hunread
      exact ⟨_, hcell, h.queued _ List.mem_cons_self⟩
    · simp only [Function.update_of_ne hsame] at hunread
      exact h.unread other addr hunread
  · intro other hle
    have hne : other ≠ worker := by omega
    dsimp only
    rw [Function.update_of_ne hne]
    exact h.few other hle
  · intro fileName hphase
    exact absurd (h.strcat fileName hphase).1 (List.cons_ne_nil _ _)

theorem Current.readPath (h : Current setup state cells) {worker : Nat} {pjob : Addr} {cell : Cell Nat}
    (hworker : state.workers worker = .taken pjob) (hcell : state.pool.heap pjob = some cell) :
    Current setup { state with
      workers := Function.update state.workers worker (.notifying pjob state.fp.savePath)
      read := state.read ++ [(cell.value, state.fp.savePath)] } cells := by
  have hpjob (other : Nat) : (Function.update state.workers worker
      (.notifying pjob state.fp.savePath) other).pjob = (state.workers other).pjob := by
    by_cases hsame : other = worker
    · rw [hsame, Function.update_self, hworker]
      rfl
    · rw [Function.update_of_ne hsame]
  have hunread (other : Nat) (addr : Addr) (hsome : (Function.update state.workers worker
      (.notifying pjob state.fp.savePath) other).unread = some addr) :
      (state.workers other).unread = some addr := by
    by_cases hsame : other = worker
    · rw [hsame, Function.update_self] at hsome
      contradiction
    · rwa [Function.update_of_ne hsame] at hsome
  refine ⟨h.queues, h.queued, ?_, ?_, ?_, ?_, ?_, h.addJob, ?_⟩
  · intro other addr hholds
    rw [hpjob] at hholds
    exact h.apart other addr hholds
  · intro first second addr hfirst hsecond
    rw [hpjob] at hfirst hsecond
    exact h.alone first second addr hfirst hsecond
  · intro other addr hsome
    exact h.unread other addr (hunread other addr hsome)
  · intro other hle
    have hidle := h.few other hle
    have hne : other ≠ worker := by
      rintro rfl
      rw [hworker] at hidle
      contradiction
    dsimp only
    rw [Function.update_of_ne hne]
    exact hidle
  · intro fileName hphase
    have hnone := (h.strcat fileName hphase).2 worker
    rw [hworker] at hnone
    contradiction
  · intro entry hentry
    rcases List.mem_append.mp hentry with hentry | hentry
    · exact h.read entry hentry
    · obtain ⟨found, hfound, hpath⟩ := h.unread worker pjob (by rw [hworker]; rfl)
      rw [hcell, Option.some.injEq] at hfound
      rw [List.mem_singleton.mp hentry, hfound]
      exact hpath

theorem Current.finish (h : Current setup state cells) {worker : Nat} {pjob : Addr} {path : Bytes}
    (hworker : state.workers worker = .notifying pjob path) :
    Current setup { state with
      pool := release state.pool pjob
      workers := Function.update state.workers worker .idle } cells := by
  have hholds : (state.workers worker).pjob = some pjob := by
    rw [hworker]
    rfl
  have hother (other : Nat) (addr : Addr)
      (hsome : (Function.update state.workers worker .idle other).pjob = some addr) :
      addr ≠ pjob ∧ (state.workers other).pjob = some addr := by
    by_cases hsame : other = worker
    · rw [hsame, Function.update_self] at hsome
      contradiction
    · rw [Function.update_of_ne hsame] at hsome
      refine ⟨?_, hsome⟩
      rintro rfl
      exact hsame (h.alone other worker addr hsome hholds)
  refine ⟨h.queues.release (h.apart worker pjob hholds).1, h.queued, ?_, ?_, ?_, ?_, ?_, h.addJob,
    h.read⟩
  · intro other addr hsome
    obtain ⟨hne, hsome⟩ := hother other addr hsome
    obtain ⟨hnot, hallocated⟩ := h.apart other addr hsome
    refine ⟨hnot, ?_⟩
    dsimp only
    rw [release_heap hne]
    exact hallocated
  · intro first second addr hfirst hsecond
    exact h.alone first second addr (hother first addr hfirst).2 (hother second addr hsecond).2
  · intro other addr hunread
    obtain ⟨hne, -⟩ := hother other addr (pjob_of_unread hunread)
    dsimp only at hunread
    by_cases hsame : other = worker
    · rw [hsame, Function.update_self] at hunread
      contradiction
    · rw [Function.update_of_ne hsame] at hunread
      obtain ⟨cell, hcell, hpath⟩ := h.unread other addr hunread
      refine ⟨cell, ?_, hpath⟩
      dsimp only
      rw [release_heap hne]
      exact hcell
  · intro other hle
    dsimp only
    by_cases hsame : other = worker
    · rw [hsame, Function.update_self]
    · rw [Function.update_of_ne hsame]
      exact h.few other hle
  · intro fileName hphase
    refine ⟨(h.strcat fileName hphase).1, ?_⟩
    intro other
    dsimp only
    by_cases hsame : other = worker
    · rw [hsame, Function.update_self]
      rfl
    · rw [Function.update_of_ne hsame]
      exact (h.strcat fileName hphase).2 other

theorem Current.step (h : Current setup state cells) (condition : AllRead setup state action)
    (hstep : Notify.step setup state action = some next) : ∃ rest, Current setup next rest := by
  have hidle (hnone : state.pool.queueCurNum = 0 ∧
      ∀ worker < setup.threadNum, (state.workers worker).unread = none) :
      cells = [] ∧ ∀ worker, (state.workers worker).unread = none := by
    refine ⟨?_, ?_⟩
    · have hcount := h.queues.count
      rw [hnone.1] at hcount
      exact List.length_eq_zero_iff.mp (by exact_mod_cast hcount.symm)
    · intro worker
      by_cases hworker : worker < setup.threadNum
      · exact hnone.2 worker hworker
      · rw [h.few worker (Nat.le_of_not_lt hworker)]
        rfl
  unfold Notify.step at hstep
  split at hstep
  · -- msgrcv
    cases hstep
    refine ⟨cells, h.move rfl ?_ ?_⟩
    · intro fileName
      split <;> simp
    · intro job hphase
      split at hphase <;> contradiction
  · -- sprintf
    obtain ⟨rfl, hread⟩ := hidle (condition rfl)
    split at hstep
    · cases hstep
      exact ⟨[], h.move rfl (by simp) (by simp)⟩
    · cases hstep
      exact ⟨[], h.rewrite hread (by simp)⟩
  · -- strcat
    rename_i fileName hphase
    obtain ⟨rfl, hread⟩ := h.strcat fileName hphase
    split at hstep
    · cases hstep
      exact ⟨[], h.move rfl (by simp) (by simp)⟩
    · cases hstep
      exact ⟨[], h.rewrite hread (by simp)⟩
  · -- fwrite
    split at hstep
    · cases hstep
      exact ⟨cells, h.move rfl (by simp) (by simp)⟩
    · rename_i fp hwritten
      cases hstep
      exact ⟨cells, h.move (writePack_savePath hwritten).1 (by simp) (by simp)⟩
    · rename_i fp job hwritten
      cases hstep
      obtain ⟨hpath, hjob⟩ := writePack_savePath hwritten
      refine ⟨cells, h.move hpath (by simp) ?_⟩
      intro done hdone
      obtain rfl := Phase.addJob.inj hdone
      rw [hjob job rfl, hpath]
  · -- threadpool_add_job
    rename_i memory job hphase
    split at hstep
    · contradiction
    rename_i hmemory
    split at hstep
    · contradiction
    · cases hstep
      exact ⟨cells, h.move rfl (by simp) (by simp)⟩
    · rename_i pool broadcast hadded
      cases hstep
      cases memory with
      | none =>
        unfold ThreadPool.addJob at hadded
        repeat' split at hadded
        all_goals contradiction
      | some pjob =>
        have hfree : state.pool.heap pjob = none := by simpa using hmemory
        exact ⟨_, h.accept hphase hfree hadded⟩
    · rename_i hundefined
      exact absurd hundefined (h.queues.addJob_defined memory)
  · -- the worker takes a job
    split at hstep
    · rename_i hworker
      split at hstep
      · rename_i htaken
        cases hstep
        exact h.take hworker.1 htaken
      · contradiction
    · contradiction
  · -- the worker reads the argument
    split at hstep
    · rename_i pjob hworker
      obtain ⟨cell, hcell, rfl⟩ := Option.map_eq_some_iff.mp hstep
      exact ⟨cells, h.readPath hworker hcell⟩
    · contradiction
  · -- the worker is done
    split at hstep
    · rename_i hworker
      cases hstep
      exact ⟨cells, h.finish hworker⟩
    · contradiction
  · contradiction

/-- Every argument that a worker reads is the path that the job was accepted
with, when `save_path` is not rewritten too early. -/
theorem own_path_read {final : State} {actions : List Action}
    (meets : Meets (step setup) (AllRead setup) (start setup) actions)
    (run : exec (step setup) (start setup) actions = some final) :
    ∀ entry ∈ final.read, pathOf final.accepted entry.1 = some entry.2 := by
  have preserved : ∀ state action next, (∃ cells, Current setup state cells) →
      AllRead setup state action → step setup state action = some next →
      ∃ cells, Current setup next cells := by
    rintro state action next ⟨cells, current⟩ condition hstep
    exact current.step condition hstep
  obtain ⟨cells, current⟩ := exec_invariant preserved ⟨[], current_start setup⟩ meets run
  exact current.read

end

/-- Six workers and room for 20 jobs, as `main` sets the pool up. -/
def sixWorkers : Setup := ⟨⟨.little, [100], [101]⟩, 6, 20⟩

/-- The only packet of a file of one byte. -/
def onePacket (name : UInt8) : Bytes := datagram .little 0x0f 0x13 1 1 [name] [7]

/-- The worker comes to the first job when `File_Process` is at the second file. -/
def lateRun : List Action :=
  [.msgrcv 1 (onePacket 97), .sprintf, .strcat .ok, .fwrite .ok, .addJob (some 1),
    .msgrcv 1 (onePacket 98), .sprintf, .strcat .ok, .takeJob 0, .readPath 0]

theorem late_path_read :
    ∃ final, exec (step sixWorkers) (start sixWorkers) lateRun = some final ∧
      ¬∀ entry ∈ final.read, pathOf final.accepted entry.1 = some entry.2 := by
  have hread : (exec (step sixWorkers) (start sixWorkers) lateRun).any (fun final =>
      final.read.any fun entry => pathOf final.accepted entry.1 ≠ some entry.2) = true := by
    decide +kernel
  obtain ⟨final, run, hany⟩ := (Option.any_eq_true _ _).mp hread
  refine ⟨final, run, ?_⟩
  simpa using hany

/-- The worker comes to each job before the next file begins. -/
def promptRun : List Action :=
  [.msgrcv 1 (onePacket 97), .sprintf, .strcat .ok, .fwrite .ok, .addJob (some 1), .takeJob 0,
    .msgrcv 1 (onePacket 98), .readPath 0, .sprintf, .strcat .ok, .fwrite .ok, .addJob (some 2),
    .finish 0, .takeJob 1, .readPath 1]

theorem own_path_read_prompt :
    ∃ final, exec (step sixWorkers) (start sixWorkers) promptRun = some final ∧
      final.read.length = 2 ∧
      ∀ entry ∈ final.read, pathOf final.accepted entry.1 = some entry.2 := by
  have meets : Meets (step sixWorkers) (AllRead sixWorkers) (start sixWorkers) promptRun := by
    decide +kernel
  have htwo : (exec (step sixWorkers) (start sixWorkers) promptRun).any
      (fun final => final.read.length = 2) = true := by decide +kernel
  obtain ⟨final, run, hlength⟩ := (Option.any_eq_true _ _).mp htwo
  exact ⟨final, run, by simpa using hlength, own_path_read meets run⟩

end UdpFileProxy.Notify
