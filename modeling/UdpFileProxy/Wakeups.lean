import UdpFileProxy.PoolThreads

/-! No wake-up is lost. Who waits on a condition of the pool went to sleep when it did not
hold, and the thread that makes it hold finds the queue empty, full or drained and wakes up
all of them. -/
namespace UdpFileProxy.Wakeups
open Lib.LinkedList Lib.Run ThreadPool PoolThreads

variable {α : Type*}

/-- Nobody waits for what is already there, and no worker that `threadpool_destroy` joins
waits at all. -/
structure Awake (state : State α) : Prop where
  workers : 0 < state.pool.queueCurNum → .waiting ∉ state.workers
  producers : state.pool.queueCurNum < state.pool.queueMaxNum →
    ∀ job, .waiting job ∉ state.producers
  destroyer : state.pool.queueCurNum = 0 → state.destroyer ≠ .waiting
  joined : state.destroyer = .notFull ∨ state.destroyer = .join → .waiting ∉ state.workers

section
variable {queueMax : Int} {state next : State α} {cells : List (Addr × α)} {workers : List Worker}
  {producers : List (Producer α)} {worker : Worker} {producer : Producer α} {index : Nat}

theorem waiting_wake : .waiting ∉ workers.map Worker.wake := by
  rw [List.mem_map]
  rintro ⟨worker, -, hwake⟩
  cases worker <;> simp [Worker.wake] at hwake

theorem producer_waiting_wake (job : α) : .waiting job ∉ producers.map Producer.wake := by
  rw [List.mem_map]
  rintro ⟨producer, -, hwake⟩
  cases producer <;> simp [Producer.wake] at hwake

theorem destroyer_waiting_wake (destroyer : Destroyer) : destroyer.wake ≠ .waiting := by
  cases destroyer <;> simp [Destroyer.wake]

theorem notMem_set {β : Type*} {list : List β} {old new : β} (hold : old ∉ list) (hne : new ≠ old) :
    old ∉ list.set index new :=
  fun hmem => (List.mem_or_eq_of_mem_set hmem).elim hold fun heq => hne heq.symm

theorem joins_past {destroyer : Destroyer} (hjoins : destroyer = .notFull ∨ destroyer = .join) :
    destroyer.past = true := by
  rcases hjoins with rfl | rfl <;> rfl

theorem awake_start (threadNum : Nat) : Awake (start threadNum queueMax : State α) where
  workers := by simp [start, List.mem_replicate]
  producers := by simp [start]
  destroyer := by simp [start]
  joined := by simp [start]

theorem Awake.setWorker (h : Awake state) (hworker : worker ≠ .waiting) {pool : Pool α} {ran : List α}
    (hnum : pool.queueCurNum = state.pool.queueCurNum)
    (hmax : pool.queueMaxNum = state.pool.queueMaxNum) :
    Awake { state with pool := pool, workers := state.workers.set index worker, ran := ran } := by
  constructor
  · intro hjobs
    dsimp only at hjobs
    rw [hnum] at hjobs
    exact notMem_set (h.workers hjobs) hworker
  · intro hroom
    dsimp only at hroom
    rw [hnum, hmax] at hroom
    exact h.producers hroom
  · intro hnone
    dsimp only at hnone
    rw [hnum] at hnone
    exact h.destroyer hnone
  · exact fun hjoins => notMem_set (h.joined hjoins) hworker

theorem Awake.accept (h : Awake state) (hsound : Sound queueMax state cells) {job : α} {pjob : Addr}
    {pool : Pool α} {broadcast : Bool} {accepted : List α}
    (hfree : state.pool.heap pjob = none)
    (hadded : addJob state.pool job (some pjob) = .accepted pool broadcast) :
    Awake { state with
      pool := pool
      workers := if broadcast then state.workers.map Worker.wake else state.workers
      producers := state.producers.set index (.returned 0)
      accepted := accepted } := by
  obtain ⟨-, -, hpool, -, hmax, -, -, hbroadcast⟩ := addJob_accepted hadded
  have hcount := hsound.queues.count
  have hnext : pool.queueCurNum = state.pool.queueCurNum + 1 := by
    rw [(hsound.queues.addJob hfree hadded).1.count, hcount, List.length_append, List.length_singleton]
    push_cast
    rfl
  constructor
  · intro _
    dsimp only
    split
    · exact waiting_wake
    · rename_i hquiet
      have hhead : state.pool.head ≠ none := fun hhead => hquiet (hbroadcast.mpr hhead)
      rw [Ne, hsound.queues.chain.start_eq_none_iff, ← List.length_eq_zero_iff] at hhead
      exact h.workers (by omega)
  · intro hroom job
    dsimp only at hroom ⊢
    rw [hmax] at hroom
    exact notMem_set (h.producers (by omega) job) (by simp)
  · intro hnone
    dsimp only at hnone
    omega
  · intro hjoins
    have hclosed := hsound.past (joins_past hjoins)
    rw [hpool] at hclosed
    contradiction

theorem Awake.take (h : Awake state) (hsound : Sound queueMax state cells) {pjob : Addr} {pool : Pool α}
    {empty notFull : Bool} {taken : List α}
    (htaken : takeJob state.pool = .took pjob pool empty notFull) :
    Awake { state with
      pool := pool
      workers := state.workers.set index (.took pjob)
      producers := if notFull then state.producers.map Producer.wake else state.producers
      destroyer := if empty then state.destroyer.wake else state.destroyer
      taken := taken } := by
  obtain ⟨hopen, hmax, -, -, hnum, hempty, hnotFull⟩ := takeJob_took htaken
  obtain ⟨job, rest, rfl, -⟩ := hsound.queues.takeJob htaken
  have hcount := hsound.queues.count
  have hjobs : 0 < state.pool.queueCurNum := by
    rw [hcount, List.length_cons]
    omega
  constructor
  · intro _
    exact notMem_set (h.workers hjobs) (by simp)
  · intro hroom job
    dsimp only at hroom ⊢
    rw [hmax] at hroom
    split
    · exact producer_waiting_wake job
    · rename_i hquiet
      rw [hnotFull] at hquiet
      exact h.producers (by omega) job
  · intro hnone
    dsimp only at hnone ⊢
    rw [if_pos (hempty.mpr hnone)]
    exact destroyer_waiting_wake state.destroyer
  · intro _
    exact notMem_set (h.workers hjobs) (by simp)

theorem Awake.drain (h : Awake state) : Awake (PoolThreads.drain state) := by
  unfold PoolThreads.drain
  split
  · rename_i hjobs
    exact ⟨h.workers, h.producers, fun hnone => absurd hnone hjobs, by simp⟩
  · exact ⟨h.workers, h.producers, by simp, by simp⟩

theorem Awake.stepDestroy (h : Awake state) (hstep : stepDestroy state = some next) : Awake next := by
  unfold PoolThreads.stepDestroy at hstep
  split at hstep
  · split at hstep
    · cases hstep
      exact h
    · cases hstep
      have hclosed : Awake { state with pool := { state.pool with queueClose := true } } :=
        ⟨h.workers, h.producers, h.destroyer, h.joined⟩
      exact hclosed.drain
  · cases hstep
    exact h.drain
  · contradiction
  · cases hstep
    exact ⟨fun _ => waiting_wake, h.producers, by simp, fun _ => waiting_wake⟩
  · rename_i hphase
    cases hstep
    exact ⟨h.workers, fun _ => producer_waiting_wake, by simp, fun _ => h.joined (.inl hphase)⟩
  · split at hstep
    · cases hstep
      exact ⟨h.workers, h.producers, by simp, by simp⟩
    · contradiction
  · contradiction

theorem Awake.step (h : Awake state) (hsound : Sound queueMax state cells) {action : Action α}
    (hstep : PoolThreads.step state action = some next) : Awake next := by
  obtain ⟨-, heffect⟩ := effect_of_step hstep
  cases heffect with
  | call job =>
    refine ⟨h.workers, fun hroom waiting => ?_, h.destroyer, h.joined⟩
    have hold := h.producers hroom waiting
    simpa using hold
  | addWaits index hwaits =>
    have hfull := (addJob_waits hwaits).1
    refine ⟨h.workers, fun hroom => ?_, h.destroyer, h.joined⟩
    dsimp only at hroom
    have hmax := hsound.max
    omega
  | goesOn index producer hproducer =>
    exact ⟨h.workers, fun hroom job => notMem_set (h.producers hroom job) (hproducer job), h.destroyer,
      h.joined⟩
  | accepts index hfree hadded => exact h.accept hsound hfree hadded
  | takeWaits hworker hwaits =>
    obtain ⟨hnone, hopen⟩ := takeJob_waits hwaits
    refine ⟨fun hjobs => ?_, h.producers, h.destroyer, fun hjoins => ?_⟩
    · dsimp only at hjobs
      omega
    · have hclosed := hsound.past (joins_past hjoins)
      rw [hopen] at hclosed
      contradiction
  | exits => exact h.setWorker (by simp) rfl rfl
  | takes hworker htaken => exact h.take hsound htaken
  | calls => exact h.setWorker (by simp) rfl rfl
  | frees => exact h.setWorker (by simp) rfl rfl
  | wakes => exact h.setWorker (by simp) rfl rfl
  | destroys hstep => exact h.stepDestroy hstep
  | drains => exact ⟨h.workers, h.producers, by simp, by simp⟩

theorem Awake.run (hmax : 0 ≤ queueMax) {threadNum : Nat} {actions : List (Action α)}
    (run : exec PoolThreads.step (start threadNum queueMax) actions = some state) :
    Awake state ∧ ∃ cells, Sound queueMax state cells := by
  have hpreserved : ∀ (state : State α) action next, (Awake state ∧ ∃ cells, Sound queueMax state cells) →
      PoolThreads.step state action = some next → Awake next ∧ ∃ cells, Sound queueMax next cells := by
    rintro state action next ⟨h, cells, hsound⟩ hstep
    exact ⟨h.step hsound hstep, hsound.step hstep⟩
  exact exec_invariant' hpreserved ⟨awake_start threadNum, [], sound_start threadNum hmax⟩ run

/-- What the threads do on their own: no new call, and no wake-up without a signal. -/
def Moves : Action α → Prop
  | .addJob _ _ | .takeJob _ | .callback _ | .free _ => True
  | _ => False

theorem worker_rest (hsound : Sound queueMax state cells) (hstuck : Stuck step Moves state)
    (hfreed : state.destroyer ≠ .freed) (hmem : worker ∈ state.workers) :
    worker = .waiting ∨ worker = .exited := by
  obtain ⟨index, hworker⟩ := List.mem_iff_getElem?.mp hmem
  cases worker with
  | waiting => exact .inl rfl
  | exited => exact .inr rfl
  | ready =>
    have hnone := hstuck (.takeJob index) trivial
    simp only [step, if_neg hfreed, hworker] at hnone
    split at hnone
    · contradiction
    · contradiction
    · contradiction
    · rename_i hundefined
      exact absurd hundefined hsound.queues.takeJob_defined
  | took pjob =>
    have hnone := hstuck (.callback index) trivial
    have hheld : pjob ∈ state.workers.filterMap Worker.pjob := List.mem_filterMap.mpr ⟨_, hmem, rfl⟩
    simp only [step, if_neg hfreed, hworker, Option.map_eq_none_iff, valueAt] at hnone
    have hallocated := (hsound.apart pjob hheld).2
    rw [hnone] at hallocated
    contradiction
  | ran pjob =>
    have hnone := hstuck (.free index) trivial
    simp [step, hfreed, hworker] at hnone

theorem producer_rest (hstuck : Stuck step Moves state) (hfreed : state.destroyer ≠ .freed)
    (hmem : producer ∈ state.producers) :
    (∃ job, producer = .waiting job) ∨ ∃ ret, producer = .returned ret := by
  obtain ⟨index, hproducer⟩ := List.mem_iff_getElem?.mp hmem
  cases producer with
  | waiting job => exact .inl ⟨job, rfl⟩
  | returned ret => exact .inr ⟨ret, rfl⟩
  | ready job =>
    -- without memory the call returns or waits
    have hnone := hstuck (.addJob index none) trivial
    have hreturns : addJob state.pool job none = .waits ∨ addJob state.pool job none = .refused := by
      unfold addJob
      split
      · exact .inl rfl
      · exact .inr (ite_self _)
    rcases hreturns with hadded | hadded <;> simp [step, hfreed, hproducer, hadded] at hnone

theorem cells_rest (h : Awake state) (hsound : Sound queueMax state cells) (hstuck : Stuck step Moves state)
    (hfreed : state.destroyer ≠ .freed) (hthreads : state.workers ≠ []) : cells = [] := by
  obtain ⟨worker, hmem⟩ := List.exists_mem_of_ne_nil _ hthreads
  rcases worker_rest hsound hstuck hfreed hmem with rfl | rfl
  · have hnone : ¬0 < state.pool.queueCurNum := fun hjobs => h.workers hjobs hmem
    rw [hsound.queues.count] at hnone
    exact List.length_eq_zero_iff.mp (by omega)
  · exact (hsound.closed (hsound.exited hmem)).2

theorem ran_rest (hsound : Sound queueMax state []) (hstuck : Stuck step Moves state)
    (hfreed : state.destroyer ≠ .freed) : state.accepted.Perm state.ran := by
  apply hsound.accepted_ran
  intro worker hmem
  rcases worker_rest hsound hstuck hfreed hmem with rfl | rfl <;> rfl

theorem destroyer_rest (h : Awake state) (hsound : Sound queueMax state []) (hstuck : Stuck step Moves state)
    (hstep : step state .destroy = none) : state.destroyer = .freed := by
  by_contra hfreed
  simp only [step, if_neg hfreed, stepDestroy] at hstep
  split at hstep
  · split at hstep <;> contradiction
  · contradiction
  · rename_i hwaiting
    exact h.destroyer hsound.queues.count hwaiting
  · contradiction
  · contradiction
  · rename_i hjoin
    have hexited : ∀ worker ∈ state.workers, worker = .exited := by
      intro worker hmem
      rcases worker_rest hsound hstuck hfreed hmem with rfl | rfl
      · exact absurd hmem (h.joined (.inr hjoin))
      · rfl
    rw [if_pos hexited] at hstep
    contradiction
  · exact hfreed ‹_›

theorem stepDestroy_length_workers (hstep : stepDestroy state = some next) :
    next.workers.length = state.workers.length := by
  unfold PoolThreads.stepDestroy PoolThreads.drain at hstep
  split at hstep
  · split at hstep
    · cases hstep
      rfl
    · cases hstep
      split <;> rfl
  · cases hstep
    split <;> rfl
  · contradiction
  · cases hstep
    exact List.length_map Worker.wake
  · cases hstep
    rfl
  · split at hstep
    · cases hstep
      rfl
    · contradiction
  · contradiction

theorem step_length_workers {action : Action α} (hstep : step state action = some next) :
    next.workers.length = state.workers.length := by
  obtain ⟨-, heffect⟩ := effect_of_step hstep
  cases heffect with
  | accepts =>
    dsimp only
    split
    · exact List.length_map Worker.wake
    · rfl
  | destroys hstep => exact stepDestroy_length_workers hstep
  | takeWaits | exits | takes | calls | frees | wakes => exact List.length_set
  | _ => rfl

/-- When no thread can go on, every accepted job has been called and every call has returned, and
`threadpool_destroy`, unless it was not called, is done too. -/
theorem rest_done {threadNum : Nat} {actions : List (Action α)} (hmax : 1 ≤ queueMax)
    (hthreads : 0 < threadNum) (run : exec PoolThreads.step (start threadNum queueMax) actions = some state)
    (hstuck : Stuck step Moves state) :
    state.accepted.Perm state.ran ∧
      (state.destroyer ≠ .freed → ∀ producer ∈ state.producers, ∃ ret, producer = .returned ret) ∧
      (step state .destroy = none → state.destroyer = .freed) := by
  obtain ⟨h, cells, hsound⟩ := Awake.run (by omega) run
  have hlength : state.workers.length = threadNum :=
    exec_invariant' (fun _ _ _ hlength hstep => (step_length_workers hstep).trans hlength)
      List.length_replicate run
  have hworkers : state.workers ≠ [] := List.ne_nil_of_length_pos (by omega)
  by_cases hfreed : state.destroyer = .freed
  · exact ⟨hsound.promises.freed hfreed, fun hnot => absurd hfreed hnot, fun _ => hfreed⟩
  obtain rfl := cells_rest h hsound hstuck hfreed hworkers
  refine ⟨ran_rest hsound hstuck hfreed, fun _ producer hmem => ?_, destroyer_rest h hsound hstuck⟩
  rcases producer_rest hstuck hfreed hmem with ⟨job, rfl⟩ | hreturned
  · have hroom : state.pool.queueCurNum < state.pool.queueMaxNum := by
      rw [hsound.queues.count, hsound.max]
      exact hmax
    exact absurd hmem (h.producers hroom job)
  · exact hreturned

/-- In no run does a thread wait for a job, for room or for the end of the queue that is
there. -/
theorem no_wakeup_lost {threadNum : Nat} {actions : List (Action α)} (hmax : 1 ≤ queueMax)
    (run : exec PoolThreads.step (start threadNum queueMax) actions = some state) :
    (0 < state.pool.queueCurNum → .waiting ∉ state.workers) ∧
      (state.pool.queueCurNum < queueMax → ∀ job, .waiting job ∉ state.producers) ∧
      (state.pool.queueCurNum = 0 → state.destroyer ≠ .waiting) := by
  obtain ⟨h, cells, hsound⟩ := Awake.run (by omega) run
  exact ⟨h.workers, fun hroom => h.producers (hsound.max ▸ hroom), h.destroyer⟩

end

/-- A worker sleeps until the first job is added, and a producer and `threadpool_destroy` sleep
until it is taken. -/
def sleepers : List (Action Nat) :=
  [.call 10, .call 20, .takeJob 0, .addJob 0 (some 1), .addJob 1 none, .destroy, .takeJob 1]

theorem no_wakeup_lost_sleepers : ∃ final, exec step (start 2 1) sleepers = some final ∧
    final.workers = [.ready, .took 1] ∧ final.producers = [.returned 0, .ready 20] ∧
    final.destroyer = .draining ∧
    (0 < final.pool.queueCurNum → .waiting ∉ final.workers) ∧
    (final.pool.queueCurNum < 1 → ∀ job, .waiting job ∉ final.producers) ∧
    (final.pool.queueCurNum = 0 → final.destroyer ≠ .waiting) := by
  have hwoken : (exec step (start 2 1) sleepers).any (fun final =>
      final.workers = [.ready, .took 1] ∧ final.producers = [.returned 0, .ready 20] ∧
        final.destroyer = .draining) = true := by decide +kernel
  obtain ⟨final, run, hfinal⟩ := (Option.any_eq_true _ _).mp hwoken
  obtain ⟨hworkers, hproducers, hdestroyer⟩ := of_decide_eq_true hfinal
  exact ⟨final, run, hworkers, hproducers, hdestroyer, no_wakeup_lost (by decide) run⟩

end UdpFileProxy.Wakeups
