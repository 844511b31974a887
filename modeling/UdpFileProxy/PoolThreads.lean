import UdpFileProxy.ThreadPool
import UdpFileProxy.Lib.Allotment
import UdpFileProxy.Lib.Run

/-! The threads around one pool: the workers, the calls of `threadpool_add_job` and
one `threadpool_destroy`. Each step of a thread is a critical section, or what it does
without the mutex; a condition variable is the set of those who wait on it. -/
namespace UdpFileProxy.PoolThreads
open Lib.LinkedList Lib.Run Lib.Allotment ThreadPool

/-- `ready` is about to lock the mutex, woken up or not; `took` is about to call the
job and `ran` to free it. -/
inductive Worker where
  | ready
  | waiting
  | took (pjob : Addr)
  | ran (pjob : Addr)
  | exited
  deriving DecidableEq, Repr

/-- One call of `threadpool_add_job`. -/
inductive Producer (α : Type*) where
  | ready (job : α)
  | waiting (job : α)
  | returned (ret : Int)
  deriving DecidableEq, Repr

/-- `draining` is about to test the count; the last three come after `pool_close`. -/
inductive Destroyer where
  | ready
  | draining
  | waiting
  | notEmpty
  | notFull
  | join
  | freed
  deriving DecidableEq, Repr

/-- `accepted`, `taken` and `ran` are history: the jobs that `threadpool_add_job`
returned 0 for, those that workers took, and those that were called. -/
structure State (α : Type*) where
  pool : Pool α
  workers : List Worker
  producers : List (Producer α)
  destroyer : Destroyer
  accepted : List α
  taken : List α
  ran : List α

variable {α : Type*}

def start (threadNum : Nat) (queueMax : Int) : State α where
  pool := init queueMax
  workers := List.replicate threadNum .ready
  producers := []
  destroyer := .ready
  accepted := []
  taken := []
  ran := []

def Worker.wake : Worker → Worker
  | .waiting => .ready
  | worker => worker

def Producer.wake : Producer α → Producer α
  | .waiting job => .ready job
  | producer => producer

def Destroyer.wake : Destroyer → Destroyer
  | .waiting => .draining
  | destroyer => destroyer

inductive Action (α : Type*) where
  | call (job : α)
  | addJob (producer : Nat) (memory : Option Addr)
  | wakeProducer (producer : Nat)
  | takeJob (worker : Nat)
  | callback (worker : Nat)
  | free (worker : Nat)
  | wakeWorker (worker : Nat)
  | destroy
  | wakeDestroy
  deriving DecidableEq, Repr

/-- The end of the critical section of `threadpool_destroy`. -/
def drain (state : State α) : State α :=
  if state.pool.queueCurNum ≠ 0 then { state with destroyer := .waiting }
  else { state with pool := { state.pool with poolClose := true }, destroyer := .notEmpty }

/-- The next step of `threadpool_destroy`. When the first test fails it returns and
nothing has changed. -/
def stepDestroy (state : State α) : Option (State α) :=
  match state.destroyer with
  | .ready =>
      if state.pool.queueClose ∨ state.pool.poolClose then some state
      else some (drain { state with pool := { state.pool with queueClose := true } })
  | .draining => some (drain state)
  | .waiting => none
  | .notEmpty => some { state with workers := state.workers.map Worker.wake, destroyer := .notFull }
  | .notFull => some { state with producers := state.producers.map Producer.wake, destroyer := .join }
  | .join => if ∀ worker ∈ state.workers, worker = .exited then some { state with destroyer := .freed }
      else none
  | .freed => none

/-- The memory that `malloc` returns is free. Once the pool is freed the run ends. -/
def step (state : State α) (action : Action α) : Option (State α) :=
  if state.destroyer = .freed then none
  else
    match action with
    | .call job => some { state with producers := state.producers ++ [.ready job] }
    | .addJob producer memory =>
        match state.producers[producer]? with
        | some (.ready job) =>
            if ∃ pjob ∈ memory, (state.pool.heap pjob).isSome then none
            else
              match addJob state.pool job memory with
              | .waits => some { state with
                  producers := state.producers.set producer (.waiting job) }
              | .refused => some { state with
                  producers := state.producers.set producer (.returned (-1)) }
              | .accepted pool broadcast => some { state with
                  pool := pool
                  workers := if broadcast then state.workers.map Worker.wake else state.workers
                  producers := state.producers.set producer (.returned 0)
                  accepted := state.accepted ++ [job] }
              | .undefined => none
        | _ => none
    | .wakeProducer producer =>
        match state.producers[producer]? with
        | some (.waiting job) =>
            some { state with producers := state.producers.set producer (.ready job) }
        | _ => none
    | .takeJob worker =>
        match state.workers[worker]? with
        | some .ready =>
            match takeJob state.pool with
            | .waits => some { state with workers := state.workers.set worker .waiting }
            | .exits => some { state with workers := state.workers.set worker .exited }
            | .took pjob pool empty notFull => some { state with
                pool := pool
                workers := state.workers.set worker (.took pjob)
                producers := if notFull then state.producers.map Producer.wake else state.producers
                destroyer := if empty then state.destroyer.wake else state.destroyer
                taken := state.taken ++ (valueAt pool.heap pjob).toList }
            | .undefined => none
        | _ => none
    | .callback worker =>
        match state.workers[worker]? with
        | some (.took pjob) =>
            (valueAt state.pool.heap pjob).map fun job => { state with
              workers := state.workers.set worker (.ran pjob)
              ran := state.ran ++ [job] }
        | _ => none
    | .free worker =>
        match state.workers[worker]? with
        | some (.ran pjob) => some { state with
            pool := release state.pool pjob
            workers := state.workers.set worker .ready }
        | _ => none
    | .wakeWorker worker =>
        match state.workers[worker]? with
        | some .waiting => some { state with workers := state.workers.set worker .ready }
        | _ => none
    | .destroy => stepDestroy state
    | .wakeDestroy =>
        if state.destroyer = .waiting then some { state with destroyer := .draining } else none

/-- What one step does. A producer that refuses or wakes up goes on in the same way, as does a
worker that wakes up. -/
inductive Effect (state : State α) : State α → Prop where
  | call (job : α) : Effect state { state with producers := state.producers ++ [.ready job] }
  | addWaits {job : α} {memory : Option Addr} (index : Nat)
      (hwaits : addJob state.pool job memory = .waits) :
      Effect state { state with producers := state.producers.set index (.waiting job) }
  | goesOn (index : Nat) (producer : Producer α) (hproducer : ∀ job, producer ≠ .waiting job) :
      Effect state { state with producers := state.producers.set index producer }
  | accepts {job : α} {pjob : Addr} {pool : Pool α} {broadcast : Bool} (index : Nat)
      (hfree : state.pool.heap pjob = none)
      (hadded : addJob state.pool job (some pjob) = .accepted pool broadcast) :
      Effect state { state with
        pool := pool
        workers := if broadcast then state.workers.map Worker.wake else state.workers
        producers := state.producers.set index (.returned 0)
        accepted := state.accepted ++ [job] }
  | takeWaits {index : Nat} (hworker : state.workers[index]? = some .ready)
      (hwaits : takeJob state.pool = .waits) :
      Effect state { state with workers := state.workers.set index .waiting }
  | exits {index : Nat} (hworker : state.workers[index]? = some .ready)
      (hexits : takeJob state.pool = .exits) :
      Effect state { state with workers := state.workers.set index .exited }
  | takes {index : Nat} {pjob : Addr} {pool : Pool α} {empty notFull : Bool}
      (hworker : state.workers[index]? = some .ready)
      (htaken : takeJob state.pool = .took pjob pool empty notFull) :
      Effect state { state with
        pool := pool
        workers := state.workers.set index (.took pjob)
        producers := if notFull then state.producers.map Producer.wake else state.producers
        destroyer := if empty then state.destroyer.wake else state.destroyer
        taken := state.taken ++ (valueAt pool.heap pjob).toList }
  | calls {index : Nat} {pjob : Addr} {job : α} (hworker : state.workers[index]? = some (.took pjob))
      (hjob : valueAt state.pool.heap pjob = some job) :
      Effect state { state with
        workers := state.workers.set index (.ran pjob), ran := state.ran ++ [job] }
  | frees {index : Nat} {pjob : Addr} (hworker : state.workers[index]? = some (.ran pjob)) :
      Effect state { state with
        pool := release state.pool pjob, workers := state.workers.set index .ready }
  | wakes {index : Nat} (hworker : state.workers[index]? = some .waiting) :
      Effect state { state with workers := state.workers.set index .ready }
  | destroys {next : State α} (hstep : stepDestroy state = some next) : Effect state next
  | drains (hwaiting : state.destroyer = .waiting) : Effect state { state with destroyer := .draining }

theorem effect_of_step {state next : State α} {action : Action α} (hstep : step state action = some next) :
    state.destroyer ≠ .freed ∧ Effect state next := by
  unfold step at hstep
  split at hstep
  · contradiction
  rename_i hdestroyer
  refine ⟨hdestroyer, ?_⟩
  cases action with
  | call job =>
    cases hstep
    exact .call job
  | addJob producer memory =>
    simp only at hstep
    split at hstep
    · split at hstep
      · contradiction
      rename_i hmemory
      split at hstep
      · rename_i hwaits
        cases hstep
        exact .addWaits producer hwaits
      · cases hstep
        exact .goesOn producer (.returned (-1)) (by simp)
      · rename_i hadded
        cases hstep
        obtain ⟨⟨pjob, rfl⟩, -⟩ := addJob_accepted hadded
        have hfree : state.pool.heap pjob = none := by simpa using hmemory
        exact .accepts producer hfree hadded
      · contradiction
    · contradiction
  | wakeProducer producer =>
    simp only at hstep
    split at hstep
    · rename_i job _
      cases hstep
      exact .goesOn producer (.ready job) (by simp)
    · contradiction
  | takeJob worker =>
    simp only at hstep
    split at hstep
    · rename_i hworker
      split at hstep
      · rename_i hwaits
        cases hstep
        exact .takeWaits hworker hwaits
      · rename_i hexits
        cases hstep
        exact .exits hworker hexits
      · rename_i htaken
        cases hstep
        exact .takes hworker htaken
      · contradiction
    · contradiction
  | callback worker =>
    simp only at hstep
    split at hstep
    · rename_i hworker
      obtain ⟨job, hjob, rfl⟩ := Option.map_eq_some_iff.mp hstep
      exact .calls hworker hjob
    · contradiction
  | free worker =>
    simp only at hstep
    split at hstep
    · rename_i hworker
      cases hstep
      exact .frees hworker
    · contradiction
  | wakeWorker worker =>
    simp only at hstep
    split at hstep
    · rename_i hworker
      cases hstep
      exact .wakes hworker
    · contradiction
  | destroy => exact .destroys hstep
  | wakeDestroy =>
    simp only at hstep
    split at hstep
    · rename_i hwaiting
      cases hstep
      exact .drains hwaiting
    · contradiction

/-- The job that a worker has, called or not. -/
def Worker.pjob : Worker → Option Addr
  | .took pjob => some pjob
  | .ran pjob => some pjob
  | _ => none

def Worker.uncalled : Worker → Option Addr
  | .took pjob => some pjob
  | _ => none

/-- After `pool_close`. -/
def Destroyer.past : Destroyer → Bool
  | .notEmpty | .notFull | .join | .freed => true
  | _ => false

/-- The jobs that were taken and not called. -/
def pending (pool : Pool α) (workers : List Worker) : List α :=
  (workers.filterMap Worker.uncalled).filterMap (valueAt pool.heap)

/-- `cells` is the queue. -/
structure Sound (queueMax : Int) (state : State α) (cells : List (Addr × α)) : Prop where
  queues : Queues state.pool cells
  max : state.pool.queueMaxNum = queueMax
  le : cells.length ≤ queueMax
  accepted : state.accepted = state.taken ++ cells.map Prod.snd
  apart : ∀ pjob ∈ state.workers.filterMap Worker.pjob,
    pjob ∉ cells.map Prod.fst ∧ (state.pool.heap pjob).isSome
  alone : (state.workers.filterMap Worker.pjob).Nodup
  ran : state.taken.Perm (state.ran ++ pending state.pool state.workers)
  closing : state.destroyer ≠ .ready → state.pool.queueClose = true
  past : state.destroyer.past = true → state.pool.poolClose = true
  closed : state.pool.poolClose = true → state.pool.queueClose = true ∧ cells = []
  exited : .exited ∈ state.workers → state.pool.poolClose = true
  freed : state.destroyer = .freed → ∀ worker ∈ state.workers, worker = .exited

section
variable {queueMax : Int} {state next : State α} {cells : List (Addr × α)} {workers workers' : List Worker}
  {worker worker' : Worker} {index : Nat} {pool : Pool α} {pjob : Addr}

@[simp] theorem pjob_wake (worker : Worker) : worker.wake.pjob = worker.pjob := by
  cases worker <;> rfl

@[simp] theorem uncalled_wake (worker : Worker) : worker.wake.uncalled = worker.uncalled := by
  cases worker <;> rfl

theorem filterMap_wake {f : Worker → Option Addr} (h : ∀ worker, f worker.wake = f worker)
    (workers : List Worker) : (workers.map Worker.wake).filterMap f = workers.filterMap f := by
  rw [List.filterMap_map]
  exact List.filterMap_congr fun worker _ => h worker

@[simp] theorem exited_wake : .exited ∈ workers.map Worker.wake ↔ .exited ∈ workers := by
  rw [List.mem_map]
  constructor
  · rintro ⟨worker, hworker, hwake⟩
    cases worker <;> simp_all [Worker.wake]
  · exact fun hmem => ⟨.exited, hmem, rfl⟩

theorem filterMap_set_same {f : Worker → Option Addr} (hworker : workers[index]? = some worker)
    (hsame : f worker' = f worker) : (workers.set index worker').filterMap f = workers.filterMap f := by
  obtain ⟨hlt, rfl⟩ := List.getElem?_eq_some_iff.mp hworker
  have hmap : (workers.set index worker').map f = workers.map f := by
    rw [List.map_set, hsame, ← List.getElem_map f (h := by simpa using hlt), List.set_getElem_self]
  have hid (list : List Worker) : list.filterMap f = (list.map f).filterMap id := by
    rw [List.filterMap_map]
    rfl
  rw [hid, hmap, ← hid]

theorem perm_set_some {f : Worker → Option Addr} (hworker : workers[index]? = some worker)
    (hnone : f worker = none) (hsome : f worker' = some pjob) :
    ((workers.set index worker').filterMap f).Perm (pjob :: workers.filterMap f) := by
  obtain ⟨hold, hnew⟩ := perm_of_get hworker worker'
  have hold := hold.filterMap f
  have hnew := hnew.filterMap f
  rw [List.filterMap_cons, hnone] at hold
  rw [List.filterMap_cons, hsome] at hnew
  exact hnew.trans (hold.symm.cons pjob)

theorem perm_set_none {f : Worker → Option Addr} (hworker : workers[index]? = some worker)
    (hsome : f worker = some pjob) (hnone : f worker' = none) :
    (workers.filterMap f).Perm (pjob :: (workers.set index worker').filterMap f) := by
  obtain ⟨hold, hnew⟩ := perm_of_get hworker worker'
  have hold := hold.filterMap f
  have hnew := hnew.filterMap f
  rw [List.filterMap_cons, hsome] at hold
  rw [List.filterMap_cons, hnone] at hnew
  exact hold.trans (hnew.symm.cons pjob)

theorem mem_set_exited (hworker : worker' ≠ .exited) (hmem : .exited ∈ workers.set index worker') :
    .exited ∈ workers :=
  (List.mem_or_eq_of_mem_set hmem).resolve_right (Ne.symm hworker)

theorem pending_congr {pool' : Pool α} (hworkers : workers'.filterMap Worker.uncalled =
      workers.filterMap Worker.uncalled)
    (hheap : ∀ pjob ∈ workers.filterMap Worker.uncalled,
      valueAt pool'.heap pjob = valueAt pool.heap pjob) :
    pending pool' workers' = pending pool workers := by
  rw [pending, hworkers]
  exact List.filterMap_congr hheap

theorem uncalled_subset (hmem : pjob ∈ workers.filterMap Worker.uncalled) :
    pjob ∈ workers.filterMap Worker.pjob := by
  obtain ⟨worker, hworker, huncalled⟩ := List.mem_filterMap.mp hmem
  refine List.mem_filterMap.mpr ⟨worker, hworker, ?_⟩
  cases worker <;> simp_all [Worker.uncalled, Worker.pjob]

theorem sound_start (threadNum : Nat) (hmax : 0 ≤ queueMax) :
    Sound queueMax (start threadNum queueMax : State α) [] where
  queues := queues_init queueMax
  max := rfl
  le := by simpa using hmax
  accepted := rfl
  apart := by simp [start, Worker.pjob]
  alone := by
    rw [start, List.filterMap_replicate_of_none rfl]
    exact List.nodup_nil
  ran := by simp [start, pending, Worker.uncalled]
  closing := by simp [start]
  past := by simp [start, Destroyer.past]
  closed := by simp [start, init]
  exited := by simp [start, List.mem_replicate]
  freed := by simp [start]

theorem Sound.move (h : Sound queueMax state cells) {producers : List (Producer α)} {destroyer : Destroyer}
    (hpjob : workers.filterMap Worker.pjob = state.workers.filterMap Worker.pjob)
    (huncalled : workers.filterMap Worker.uncalled = state.workers.filterMap Worker.uncalled)
    (hexited : .exited ∈ workers → .exited ∈ state.workers ∨ state.pool.poolClose = true)
    (hclosing : destroyer ≠ .ready → state.destroyer ≠ .ready)
    (hpast : destroyer.past = true → state.destroyer.past = true)
    (hfreed : destroyer = .freed → ∀ worker ∈ workers, worker = .exited) :
    Sound queueMax { state with
      workers := workers, producers := producers, destroyer := destroyer } cells where
  queues := h.queues
  max := h.max
  le := h.le
  accepted := h.accepted
  apart := by
    rw [hpjob]
    exact h.apart
  alone := by
    rw [hpjob]
    exact h.alone
  ran := by
    rw [pending_congr huncalled fun _ _ => rfl]
    exact h.ran
  closing := fun hready => h.closing (hclosing hready)
  past := fun hafter => h.past (hpast hafter)
  closed := h.closed
  exited := fun hmem => (hexited hmem).elim h.exited id
  freed := hfreed

theorem Sound.accept (h : Sound queueMax state cells) {job : α} {broadcast : Bool}
    {producers : List (Producer α)} (hfree : state.pool.heap pjob = none)
    (hadded : addJob state.pool job (some pjob) = .accepted pool broadcast)
    (hdestroyer : state.destroyer ≠ .freed) :
    Sound queueMax { state with
      pool := pool
      workers := if broadcast then state.workers.map Worker.wake else state.workers
      producers := producers
      accepted := state.accepted ++ [job] } (cells ++ [(pjob, job)]) := by
  obtain ⟨-, hclose, hpool, hroom, hmax, hclose', hpool', -⟩ := addJob_accepted hadded
  obtain ⟨hqueues, hheap⟩ := h.queues.addJob hfree hadded
  have hle := h.le
  have hcount := h.queues.count
  have hmaxNum := h.max
  have hkept : ∀ addr ∈ state.workers.filterMap Worker.pjob,
      addr ≠ pjob ∧ pool.heap addr = state.pool.heap addr := by
    intro addr haddr
    obtain ⟨hnot, hallocated⟩ := h.apart addr haddr
    have hne : addr ≠ pjob := by
      rintro rfl
      rw [hfree] at hallocated
      contradiction
    exact ⟨hne, hheap addr hnot hne⟩
  have hsame {f : Worker → Option Addr} (hwake : ∀ worker, f worker.wake = f worker) :
      (if broadcast then state.workers.map Worker.wake else state.workers).filterMap f =
        state.workers.filterMap f := by
    split
    · exact filterMap_wake hwake state.workers
    · rfl
  constructor
  · exact hqueues
  · rw [hmax, h.max]
  · rw [List.length_append, List.length_singleton]
    push_cast
    omega
  · rw [h.accepted, List.map_append, List.append_assoc]
    rfl
  · dsimp only
    rw [hsame pjob_wake]
    intro addr haddr
    obtain ⟨hnot, hallocated⟩ := h.apart addr haddr
    obtain ⟨hne, hheap⟩ := hkept addr haddr
    rw [hheap]
    exact ⟨by simp [hnot, hne], hallocated⟩
  · dsimp only
    rw [hsame pjob_wake]
    exact h.alone
  · have hpending : pending pool (if broadcast then state.workers.map Worker.wake else state.workers) =
        pending state.pool state.workers := by
      apply pending_congr (hsame uncalled_wake)
      intro addr haddr
      rw [valueAt, (hkept addr (uncalled_subset haddr)).2, valueAt]
    dsimp only
    rw [hpending]
    exact h.ran
  · intro hready
    rw [h.closing hready] at hclose
    contradiction
  · intro hafter
    rw [h.past hafter] at hpool
    contradiction
  · intro hclosed
    rw [hpool'] at hclosed
    contradiction
  · intro hmem
    have hexited : .exited ∈ state.workers := by
      dsimp only at hmem
      split at hmem
      · exact exited_wake.mp hmem
      · exact hmem
    rw [h.exited hexited] at hpool
    contradiction
  · exact fun hfreed => absurd hfreed hdestroyer

theorem Sound.take (h : Sound queueMax state cells) {empty notFull : Bool}
    {producers : List (Producer α)} {destroyer : Destroyer} (hworker : state.workers[index]? = some .ready)
    (htaken : takeJob state.pool = .took pjob pool empty notFull)
    (hclosing : destroyer ≠ .ready → state.destroyer ≠ .ready)
    (hpast : destroyer.past = true → state.destroyer.past = true) (hdestroyer : destroyer ≠ .freed) :
    ∃ rest, Sound queueMax { state with
      pool := pool
      workers := state.workers.set index (.took pjob)
      producers := producers
      destroyer := destroyer
      taken := state.taken ++ (valueAt pool.heap pjob).toList } rest := by
  obtain ⟨hopen, hmax, hclose, hopen', -⟩ := takeJob_took htaken
  obtain ⟨job, rest, rfl, hqueues, hheap⟩ := h.queues.takeJob htaken
  have hvalue : valueAt state.pool.heap pjob = some job := h.queues.chain.valueAt List.mem_cons_self
  have hnodup := h.queues.chain.nodup
  rw [List.map_cons, List.nodup_cons] at hnodup
  have hheld : ∀ addr ∈ state.workers.filterMap Worker.pjob, addr ≠ pjob := by
    rintro addr haddr rfl
    exact (h.apart addr haddr).1 (by simp)
  have hpjobs : ((state.workers.set index (.took pjob)).filterMap Worker.pjob).Perm
      (pjob :: state.workers.filterMap Worker.pjob) := perm_set_some hworker rfl rfl
  have huncalled : ((state.workers.set index (.took pjob)).filterMap Worker.uncalled).Perm
      (pjob :: state.workers.filterMap Worker.uncalled) := perm_set_some hworker rfl rfl
  refine ⟨rest, hqueues, hmax.trans h.max, ?_, ?_, ?_, ?_, ?_, ?_, ?_, ?_, ?_, ?_⟩
  · have hle := h.le
    rw [List.length_cons] at hle
    push_cast at hle
    omega
  · dsimp only
    rw [h.accepted, hheap, hvalue, List.map_cons, List.append_assoc]
    rfl
  · intro addr haddr
    dsimp only
    rw [hheap]
    rcases List.mem_cons.mp (hpjobs.mem_iff.mp haddr) with rfl | hold
    · obtain ⟨link, hcell⟩ := h.queues.chain.allocated List.mem_cons_self
      exact ⟨hnodup.1, by rw [hcell]; rfl⟩
    · obtain ⟨hnot, hallocated⟩ := h.apart addr hold
      exact ⟨fun hmem => hnot (List.mem_cons_of_mem pjob hmem), hallocated⟩
  · rw [hpjobs.nodup_iff, List.nodup_cons]
    exact ⟨fun hmem => hheld pjob hmem rfl, h.alone⟩
  · have hpending : (pending pool (state.workers.set index (.took pjob))).Perm
        (job :: pending state.pool state.workers) := by
      have hvalues := huncalled.filterMap (valueAt pool.heap)
      rw [List.filterMap_cons, hheap, hvalue] at hvalues
      rw [pending, hheap]
      exact hvalues
    dsimp only
    rw [hheap, hvalue]
    have hlast : (state.ran ++ pending state.pool state.workers ++ [job]).Perm
        (state.ran ++ job :: pending state.pool state.workers) := by
      rw [List.append_assoc]
      exact (List.perm_append_singleton job _).append_left state.ran
    exact (h.ran.append_right [job]).trans (hlast.trans (hpending.symm.append_left state.ran))
  · exact fun hready => hclose.trans (h.closing (hclosing hready))
  · intro hafter
    rw [h.past (hpast hafter)] at hopen
    contradiction
  · intro hclosed
    rw [hopen'] at hclosed
    contradiction
  · intro hmem
    have hexited := h.exited (mem_set_exited (by simp) hmem)
    rw [hopen] at hexited
    contradiction
  · exact fun hfreed => absurd hfreed hdestroyer

theorem Sound.callback (h : Sound queueMax state cells) {job : α}
    (hworker : state.workers[index]? = some (.took pjob))
    (hjob : valueAt state.pool.heap pjob = some job) (hdestroyer : state.destroyer ≠ .freed) :
    Sound queueMax { state with
      workers := state.workers.set index (.ran pjob), ran := state.ran ++ [job] } cells := by
  have hpjobs : (state.workers.set index (.ran pjob)).filterMap Worker.pjob =
      state.workers.filterMap Worker.pjob := filterMap_set_same hworker rfl
  have huncalled : (state.workers.filterMap Worker.uncalled).Perm
      (pjob :: (state.workers.set index (.ran pjob)).filterMap Worker.uncalled) :=
    perm_set_none hworker rfl rfl
  have hpending : (pending state.pool state.workers).Perm
      (job :: pending state.pool (state.workers.set index (.ran pjob))) := by
    have hvalues := huncalled.filterMap (valueAt state.pool.heap)
    rwa [List.filterMap_cons, hjob] at hvalues
  constructor
  · exact h.queues
  · exact h.max
  · exact h.le
  · exact h.accepted
  · dsimp only
    rw [hpjobs]
    exact h.apart
  · dsimp only
    rw [hpjobs]
    exact h.alone
  · dsimp only
    rw [List.append_assoc]
    exact h.ran.trans (hpending.append_left state.ran)
  · exact h.closing
  · exact h.past
  · exact h.closed
  · exact fun hmem => h.exited (mem_set_exited (by simp) hmem)
  · exact fun hfreed => absurd hfreed hdestroyer

theorem Sound.free (h : Sound queueMax state cells) (hworker : state.workers[index]? = some (.ran pjob))
    (hdestroyer : state.destroyer ≠ .freed) :
    Sound queueMax { state with
      pool := release state.pool pjob, workers := state.workers.set index .ready } cells := by
  have hpjobs : (state.workers.filterMap Worker.pjob).Perm
      (pjob :: (state.workers.set index .ready).filterMap Worker.pjob) := perm_set_none hworker rfl rfl
  have huncalled : (state.workers.set index .ready).filterMap Worker.uncalled =
      state.workers.filterMap Worker.uncalled := filterMap_set_same hworker rfl
  have hnodup := h.alone
  rw [hpjobs.nodup_iff, List.nodup_cons] at hnodup
  have hother : ∀ addr ∈ (state.workers.set index .ready).filterMap Worker.pjob, addr ≠ pjob := by
    rintro addr haddr rfl
    exact hnodup.1 haddr
  constructor
  · exact h.queues.release (h.apart pjob (hpjobs.mem_iff.mpr List.mem_cons_self)).1
  · exact h.max
  · exact h.le
  · exact h.accepted
  · intro addr haddr
    obtain ⟨hnot, hallocated⟩ := h.apart addr (hpjobs.mem_iff.mpr (List.mem_cons_of_mem pjob haddr))
    dsimp only
    rw [release_heap (hother addr haddr)]
    exact ⟨hnot, hallocated⟩
  · exact hnodup.2
  · have hpending : pending (release state.pool pjob) (state.workers.set index .ready) =
        pending state.pool state.workers := by
      apply pending_congr huncalled
      intro addr haddr
      rw [← huncalled] at haddr
      rw [valueAt, release_heap (hother addr (uncalled_subset haddr)), valueAt]
    dsimp only
    rw [hpending]
    exact h.ran
  · exact h.closing
  · exact h.past
  · exact h.closed
  · exact fun hmem => h.exited (mem_set_exited (by simp) hmem)
  · exact fun hfreed => absurd hfreed hdestroyer

theorem Sound.drain (h : Sound queueMax state cells) (hclose : state.pool.queueClose = true) :
    Sound queueMax (PoolThreads.drain state) cells := by
  unfold PoolThreads.drain
  split
  · exact ⟨h.queues, h.max, h.le, h.accepted, h.apart, h.alone, h.ran, fun _ => hclose,
      by simp [Destroyer.past], h.closed, h.exited, by simp⟩
  · rename_i hempty
    have hcells : cells = [] := by
      have hcount := h.queues.count
      rw [not_not.mp hempty] at hcount
      exact List.length_eq_zero_iff.mp (by omega)
    exact ⟨⟨h.queues.chain, h.queues.tail, h.queues.count⟩, h.max, h.le, h.accepted, h.apart, h.alone, h.ran,
      fun _ => hclose, fun _ => rfl, fun _ => ⟨hclose, hcells⟩, fun _ => rfl, by simp⟩

theorem Sound.closeQueue (h : Sound queueMax state cells) (hdestroyer : state.destroyer = .ready) :
    Sound queueMax { state with pool := { state.pool with queueClose := true } } cells :=
  ⟨⟨h.queues.chain, h.queues.tail, h.queues.count⟩, h.max, h.le, h.accepted, h.apart, h.alone, h.ran,
    fun _ => rfl, h.past, fun hclosed => ⟨rfl, (h.closed hclosed).2⟩, h.exited, by simp [hdestroyer]⟩

theorem Sound.stepDestroy (h : Sound queueMax state cells)
    (hstep : PoolThreads.stepDestroy state = some next) : Sound queueMax next cells := by
  unfold PoolThreads.stepDestroy at hstep
  split at hstep
  · rename_i hready
    split at hstep
    · cases hstep
      exact h
    · cases hstep
      exact (h.closeQueue hready).drain rfl
  · rename_i hdraining
    cases hstep
    exact h.drain (h.closing (by simp [hdraining]))
  · contradiction
  · rename_i hphase
    cases hstep
    exact h.move (filterMap_wake pjob_wake _) (filterMap_wake uncalled_wake _)
      (fun hmem => .inl (exited_wake.mp hmem)) (by simp [hphase]) (by simp [hphase, Destroyer.past])
      (by simp)
  · rename_i hphase
    cases hstep
    exact h.move rfl rfl .inl (by simp [hphase]) (by simp [hphase, Destroyer.past]) (by simp)
  · rename_i hphase
    split at hstep
    · rename_i hexited
      cases hstep
      exact h.move rfl rfl .inl (by simp [hphase]) (by simp [hphase, Destroyer.past]) (fun _ => hexited)
    · contradiction
  · contradiction

theorem Sound.setWorker (h : Sound queueMax state cells) (hdestroyer : state.destroyer ≠ .freed)
    (hworker : state.workers[index]? = some worker) (hpjob : worker'.pjob = worker.pjob)
    (huncalled : worker'.uncalled = worker.uncalled)
    (hexited : worker' = .exited → state.pool.poolClose = true) :
    Sound queueMax { state with workers := state.workers.set index worker' } cells := by
  refine h.move (filterMap_set_same hworker hpjob) (filterMap_set_same hworker huncalled) ?_ id id
    (fun hfreed => absurd hfreed hdestroyer)
  intro hmem
  rcases List.mem_or_eq_of_mem_set hmem with hold | hnew
  · exact .inl hold
  · exact .inr (hexited hnew.symm)

theorem Sound.setProducers (h : Sound queueMax state cells) (hdestroyer : state.destroyer ≠ .freed)
    (producers : List (Producer α)) : Sound queueMax { state with producers := producers } cells :=
  h.move rfl rfl .inl id id (fun hfreed => absurd hfreed hdestroyer)

theorem Sound.step (h : Sound queueMax state cells) {action : Action α}
    (hstep : PoolThreads.step state action = some next) : ∃ cells', Sound queueMax next cells' := by
  obtain ⟨hdestroyer, heffect⟩ := effect_of_step hstep
  cases heffect with
  | call => exact ⟨cells, h.setProducers hdestroyer _⟩
  | addWaits => exact ⟨cells, h.setProducers hdestroyer _⟩
  | goesOn => exact ⟨cells, h.setProducers hdestroyer _⟩
  | accepts index hfree hadded => exact ⟨_, h.accept hfree hadded hdestroyer⟩
  | takeWaits hworker => exact ⟨cells, h.setWorker hdestroyer hworker rfl rfl (by simp)⟩
  | exits hworker hexits =>
    exact ⟨cells, h.setWorker hdestroyer hworker rfl rfl fun _ => takeJob_exits hexits⟩
  | takes hworker htaken =>
    have hwake : state.destroyer.wake ≠ .freed := by
      cases hphase : state.destroyer <;> simp_all [Destroyer.wake]
    have hready : state.destroyer.wake ≠ .ready → state.destroyer ≠ .ready := by
      cases hphase : state.destroyer <;> simp_all [Destroyer.wake]
    have hpast : state.destroyer.wake.past = true → state.destroyer.past = true := by
      cases state.destroyer <;> simp [Destroyer.wake, Destroyer.past]
    refine h.take hworker htaken ?_ ?_ ?_
    · split
      · exact hready
      · exact id
    · split
      · exact hpast
      · exact id
    · split
      · exact hwake
      · exact hdestroyer
  | calls hworker hjob => exact ⟨cells, h.callback hworker hjob hdestroyer⟩
  | frees hworker => exact ⟨cells, h.free hworker hdestroyer⟩
  | wakes hworker => exact ⟨cells, h.setWorker hdestroyer hworker rfl rfl (by simp)⟩
  | destroys hstep => exact ⟨cells, h.stepDestroy hstep⟩
  | drains hwaiting =>
    exact ⟨cells, h.move rfl rfl .inl (by simp [hwaiting]) (by simp [Destroyer.past]) (by simp)⟩

theorem Sound.run (hmax : 0 ≤ queueMax) {threadNum : Nat} {actions : List (Action α)}
    (run : exec PoolThreads.step (start threadNum queueMax) actions = some state) :
    ∃ cells, Sound queueMax state cells := by
  have hpreserved : ∀ (state : State α) action next, (∃ cells, Sound queueMax state cells) →
      PoolThreads.step state action = some next → ∃ cells, Sound queueMax next cells := by
    rintro state action next ⟨cells, h⟩ hstep
    exact h.step hstep
  exact exec_invariant' hpreserved ⟨[], sound_start threadNum hmax⟩ run

@[simp] theorem drain_accepted (state : State α) : (drain state).accepted = state.accepted := by
  unfold drain
  split <;> rfl

@[simp] theorem drain_queueClose (state : State α) :
    (drain state).pool.queueClose = state.pool.queueClose := by
  unfold drain
  split <;> rfl

theorem stepDestroy_queueClose (hclose : state.pool.queueClose = true)
    (hstep : stepDestroy state = some next) :
    next.pool.queueClose = true ∧ next.accepted = state.accepted := by
  unfold stepDestroy at hstep
  split at hstep
  · rw [if_pos (.inl hclose)] at hstep
    cases hstep
    exact ⟨hclose, rfl⟩
  · cases hstep
    exact ⟨(drain_queueClose state).trans hclose, drain_accepted state⟩
  · contradiction
  · cases hstep
    exact ⟨hclose, rfl⟩
  · cases hstep
    exact ⟨hclose, rfl⟩
  · split at hstep
    · cases hstep
      exact ⟨hclose, rfl⟩
    · contradiction
  · contradiction

theorem step_queueClose {action : Action α} (hclose : state.pool.queueClose = true)
    (hstep : step state action = some next) :
    next.pool.queueClose = true ∧ next.accepted = state.accepted := by
  obtain ⟨-, heffect⟩ := effect_of_step hstep
  cases heffect with
  | accepts index hfree hadded =>
    rw [(addJob_accepted hadded).2.1] at hclose
    contradiction
  | takes hworker htaken => exact ⟨(takeJob_took htaken).2.2.1.trans hclose, rfl⟩
  | destroys hstep => exact stepDestroy_queueClose hclose hstep
  | _ => exact ⟨hclose, rfl⟩

/-- What the pool promises at every moment; `cells` is the queue. No thread follows a null or
freed pointer, so no step of it is missing from the runs. -/
structure Promises (queueMax : Int) (state : State α) (cells : List (Addr × α)) : Prop where
  adds : ∀ job memory, addJob state.pool job memory ≠ .undefined
  takes : takeJob state.pool ≠ .undefined
  calls : ∀ pjob ∈ state.workers.filterMap Worker.pjob, (valueAt state.pool.heap pjob).isSome
  chain : Chain state.pool.heap state.pool.head cells
  count : state.pool.queueCurNum = cells.length
  nonneg : 0 ≤ state.pool.queueCurNum
  le : state.pool.queueCurNum ≤ queueMax
  head : state.pool.head = none ↔ state.pool.queueCurNum = 0
  order : state.accepted = state.taken ++ cells.map Prod.snd
  once : state.taken.Perm (state.ran ++ pending state.pool state.workers)
  closed : state.pool.poolClose = true → cells = []
  exited : .exited ∈ state.workers → state.accepted = state.taken
  freed : state.destroyer = .freed → state.accepted.Perm state.ran

/-- When the queue is empty and no worker has a job to call, all have been called. -/
theorem Sound.accepted_ran (h : Sound queueMax state [])
    (hidle : ∀ worker ∈ state.workers, worker.uncalled = none) : state.accepted.Perm state.ran := by
  have hnone : state.workers.filterMap Worker.uncalled = [] := List.filterMap_eq_nil_iff.mpr hidle
  have hran := h.ran
  rw [pending, hnone, List.filterMap_nil, List.append_nil] at hran
  rw [h.accepted, List.map_nil, List.append_nil]
  exact hran

theorem Sound.promises (h : Sound queueMax state cells) : Promises queueMax state cells := by
  have hcount := h.queues.count
  have hle := h.le
  have hcalls : ∀ pjob ∈ state.workers.filterMap Worker.pjob,
      (valueAt state.pool.heap pjob).isSome := by
    intro pjob hpjob
    simpa [valueAt] using (h.apart pjob hpjob).2
  refine ⟨fun job memory => h.queues.addJob_defined memory, h.queues.takeJob_defined, hcalls,
    h.queues.chain, hcount, by omega, by omega, ?_, h.accepted, h.ran,
    fun hclosed => (h.closed hclosed).2, ?_, ?_⟩
  · rw [h.queues.chain.start_eq_none_iff, ← List.length_eq_zero_iff]
    omega
  · intro hmem
    rw [h.accepted, (h.closed (h.exited hmem)).2]
    exact List.append_nil state.taken
  · intro hfreed
    obtain rfl := (h.closed (h.past (by rw [hfreed]; rfl))).2
    apply h.accepted_ran
    intro worker hworker
    rw [h.freed hfreed worker hworker]
    rfl

/-- Every accepted job is called once, in every run. -/
theorem jobs_called_once {threadNum : Nat} {actions : List (Action α)} (hmax : 1 ≤ queueMax)
    (run : exec step (start threadNum queueMax) actions = some state) :
    (∃ cells, Promises queueMax state cells) ∧
      ∀ later final, exec step state later = some final → state.pool.queueClose = true →
        final.accepted = state.accepted := by
  obtain ⟨cells, h⟩ := Sound.run (by omega) run
  refine ⟨⟨cells, h.promises⟩, ?_⟩
  intro later final hlater hclose
  have hpreserved : ∀ (middle : State α) action next,
      middle.pool.queueClose = true ∧ middle.accepted = state.accepted → step middle action = some next →
        next.pool.queueClose = true ∧ next.accepted = state.accepted := by
    rintro middle action next ⟨hmiddle, hsame⟩ hstep
    obtain ⟨hnext, hkept⟩ := step_queueClose hmiddle hstep
    exact ⟨hnext, hkept.trans hsame⟩
  exact (exec_invariant' hpreserved ⟨hclose, rfl⟩ hlater).2

end

/-- Two workers and room for one job: the second call waits for room, and the
third is refused as `threadpool_destroy` has come before it. -/
def toTheEnd : List (Action Nat) :=
  [.call 10, .call 20, .call 30, .takeJob 0, .wakeWorker 0, .takeJob 0, .addJob 0 (some 1),
    .addJob 1 (some 2), .takeJob 1, .addJob 1 (some 2), .destroy, .addJob 2 (some 3), .takeJob 0,
    .callback 0, .destroy, .callback 1, .free 0, .free 1, .destroy, .destroy, .takeJob 0,
    .takeJob 1, .destroy]

theorem jobs_called_once_freed :
    ∃ final, exec step (start 2 1) toTheEnd = some final ∧ final.destroyer = .freed ∧
      final.accepted = [10, 20] ∧ final.ran = [20, 10] ∧ ∃ cells, Promises 1 final cells := by
  have hfreed : (exec step (start 2 1) toTheEnd).any (fun final =>
      final.destroyer = .freed ∧ final.accepted = [10, 20] ∧ final.ran = [20, 10]) = true := by
    decide +kernel
  obtain ⟨final, run, hfinal⟩ := (Option.any_eq_true _ _).mp hfreed
  obtain ⟨hdestroyer, haccepted, hran⟩ := of_decide_eq_true hfinal
  exact ⟨final, run, hdestroyer, haccepted, hran, (jobs_called_once (by decide) run).1⟩

end UdpFileProxy.PoolThreads
