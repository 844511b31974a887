import UdpFileProxy.Wakeups
import UdpFileProxy.Lib.Extension
import Mathlib.Tactic.Ring

/-! The thread pool comes to rest. Every step of its threads uses up something: a broadcast
wakes as many as there are, and is paid for by the call or the job that it comes with. So
without new calls, and without wake-ups that nobody signalled, the pool goes on for a bounded
number of steps, and then everything is done. -/
namespace UdpFileProxy.Quiescence
open Lib.Allotment Lib.LinkedList Lib.Run ThreadPool PoolThreads Wakeups

variable {α : Type*}

def isCall : Action α → Bool
  | .call _ => true
  | _ => false

/-- `pthread_cond_wait` returns although nobody signalled the condition. -/
def spurious : Action α → Bool
  | .wakeProducer _ | .wakeWorker _ | .wakeDestroy => true
  | _ => false

def workerWeight : Worker → Nat
  | .took _ => 3
  | .ran _ => 2
  | .ready => 1
  | .waiting | .exited => 0

/-- A call pays for its job and for waking up the workers. -/
def producerWeight (calls threads : Nat) : Producer α → Nat
  | .ready _ => calls + threads + 6
  | .waiting _ => calls + threads + 5
  | .returned _ => 0

def destroyerWeight (calls threads : Nat) : Destroyer → Nat
  | .ready => calls + threads + 6
  | .draining => calls + threads + 5
  | .waiting => calls + threads + 4
  | .notEmpty => calls + threads + 3
  | .notFull => calls + 2
  | .join => 1
  | .freed => 0

/-- A job pays for the worker that takes it, and for waking up the producers and
`threadpool_destroy`. -/
def weight (calls threads : Nat) (state : State α) : Nat :=
  (state.workers.map workerWeight).sum + (state.producers.map (producerWeight calls threads)).sum +
    (calls + 4) * state.pool.queueCurNum.toNat + destroyerWeight calls threads state.destroyer

def credit (calls threads : Nat) : Action α → Nat
  | .call _ => calls + threads + 7
  | .wakeProducer _ | .wakeWorker _ | .wakeDestroy => 2
  | _ => 0

/-- `threadpool_destroy` is called once; `queue_close` is its mark. -/
structure Inv (queueMax : Int) (threads : Nat) (state : State α) : Prop where
  sound : ∃ cells, Sound queueMax state cells
  workers : state.workers.length = threads
  closed : state.pool.queueClose = true → state.destroyer ≠ .ready

section
variable {queueMax : Int} {calls threads : Nat} {state next : State α} {action : Action α}

theorem workerWeight_wake (worker : Worker) : workerWeight worker.wake ≤ workerWeight worker + 1 := by
  cases worker <;> simp [Worker.wake, workerWeight]

theorem producerWeight_wake (calls threads : Nat) (producer : Producer α) :
    producerWeight calls threads producer.wake ≤ producerWeight calls threads producer + 1 := by
  cases producer <;> simp [Producer.wake, producerWeight]

theorem destroyerWeight_wake (calls threads : Nat) (destroyer : Destroyer) :
    destroyerWeight calls threads destroyer.wake ≤ destroyerWeight calls threads destroyer + 1 := by
  cases destroyer <;> simp [Destroyer.wake, destroyerWeight]

theorem workers_wake_le (workers : List Worker) (woken : Bool) :
    ((if woken then workers.map Worker.wake else workers).map workerWeight).sum ≤
      (workers.map workerWeight).sum + workers.length := by
  split
  · exact sum_map_map_le workerWeight_wake workers
  · exact Nat.le_add_right _ _

theorem producers_wake_le (producers : List (Producer α)) (woken : Bool) :
    ((if woken then producers.map Producer.wake else producers).map
        (producerWeight calls threads)).sum ≤
      (producers.map (producerWeight calls threads)).sum + producers.length := by
  split
  · exact sum_map_map_le (producerWeight_wake calls threads) producers
  · exact Nat.le_add_right _ _

theorem drain_weight (state : State α) :
    weight calls threads (drain state) + destroyerWeight calls threads state.destroyer ≤
      weight calls threads state + (calls + threads + 4) := by
  unfold PoolThreads.drain
  split
  · simp only [weight, destroyerWeight]
    omega
  · simp only [weight, destroyerWeight]
    omega

theorem stepDestroy_weight (hclosed : state.pool.queueClose = true → state.destroyer ≠ .ready)
    (hpool : state.pool.poolClose = true → state.pool.queueClose = true)
    (hworkers : state.workers.length = threads) (hproducers : state.producers.length ≤ calls)
    (hstep : stepDestroy state = some next) :
    weight calls threads next + 1 ≤ weight calls threads state := by
  unfold stepDestroy at hstep
  split at hstep
  · -- ready
    rename_i hready
    have hopen : ¬(state.pool.queueClose = true ∨ state.pool.poolClose = true) := by
      rintro (h | h)
      · exact hclosed h hready
      · exact hclosed (hpool h) hready
    rw [if_neg hopen] at hstep
    generalize hclosing : ({ state with pool := { state.pool with queueClose := true } } : State α) =
      closing at hstep
    have hsame : weight calls threads closing = weight calls threads state := by
      rw [← hclosing]
      rfl
    have hbegun : closing.destroyer = .ready := by
      rw [← hclosing]
      exact hready
    cases hstep
    have hdrain : _ ≤ weight calls threads closing + (calls + threads + 4) := drain_weight closing
    rw [hbegun, hsame, destroyerWeight] at hdrain
    omega
  · -- draining
    rename_i hdraining
    cases hstep
    have hdrain : _ ≤ weight calls threads state + (calls + threads + 4) := drain_weight state
    rw [hdraining, destroyerWeight] at hdrain
    omega
  · contradiction
  · -- the broadcast to the workers
    rename_i hphase
    cases hstep
    have hwoken := sum_map_map_le workerWeight_wake state.workers
    simp only [weight, hphase, destroyerWeight]
    omega
  · -- the broadcast to the producers
    rename_i hphase
    cases hstep
    have hwoken := sum_map_map_le (producerWeight_wake calls threads) state.producers
    simp only [weight, hphase, destroyerWeight]
    omega
  · -- join
    rename_i hphase
    split at hstep
    · cases hstep
      simp only [weight, hphase, destroyerWeight]
      omega
    · contradiction
  · contradiction

theorem step_weight (h : Inv queueMax threads state) (hproducers : state.producers.length ≤ calls)
    (hstep : step state action = some next) :
    weight calls threads next + 1 ≤ weight calls threads state + credit calls threads action := by
  obtain ⟨cells, hsound⟩ := h.sound
  unfold step at hstep
  split at hstep
  · contradiction
  cases action with
  | call job =>
    cases hstep
    simp only [weight, credit, List.map_append, List.sum_append, List.map_singleton,
      List.sum_singleton, producerWeight]
    omega
  | addJob producer memory =>
    simp only at hstep
    split at hstep
    case h_2 => contradiction
    rename_i job hproducer
    split at hstep
    · contradiction
    rename_i hmemory
    have hset (producer' : Producer α) := sum_map_set hproducer producer' (producerWeight calls threads)
    split at hstep
    · -- no room
      cases hstep
      have hwaits := hset (.waiting job)
      simp only [producerWeight] at hwaits
      simp only [weight, credit]
      omega
    · -- refused
      cases hstep
      have hrefused := hset (.returned (-1))
      simp only [producerWeight] at hrefused
      simp only [weight, credit]
      omega
    · -- accepted
      rename_i pool broadcast hadded
      cases hstep
      obtain ⟨⟨pjob, rfl⟩, -⟩ := addJob_accepted hadded
      have hfree : state.pool.heap pjob = none := by simpa using hmemory
      have hcount : pool.queueCurNum = state.pool.queueCurNum + 1 := by
        rw [(hsound.queues.addJob hfree hadded).1.count, hsound.queues.count]
        simp
      have hnum : pool.queueCurNum.toNat = state.pool.queueCurNum.toNat + 1 := by
        rw [hcount, hsound.queues.count]
        omega
      have hwoken := workers_wake_le state.workers broadcast
      have hreturned := hset (.returned 0)
      have hworkers := h.workers
      simp only [producerWeight] at hreturned
      simp only [weight, credit, hnum, Nat.mul_succ]
      omega
    · contradiction
  | wakeProducer producer =>
    simp only at hstep
    split at hstep
    case h_2 => contradiction
    rename_i job hproducer
    cases hstep
    have hset := sum_map_set hproducer (.ready job) (producerWeight calls threads)
    simp only [producerWeight] at hset
    simp only [weight, credit]
    omega
  | takeJob worker =>
    simp only at hstep
    split at hstep
    case h_2 => contradiction
    rename_i hworker
    have hset (worker' : Worker) := sum_map_set hworker worker' workerWeight
    split at hstep
    · -- no job
      cases hstep
      have hwaits := hset .waiting
      simp only [workerWeight] at hwaits
      simp only [weight, credit]
      omega
    · -- closed
      cases hstep
      have hexits := hset .exited
      simp only [workerWeight] at hexits
      simp only [weight, credit]
      omega
    · -- taken
      rename_i pjob pool empty notFull htaken
      cases hstep
      obtain ⟨-, -, -, -, hcount, -⟩ := takeJob_took htaken
      obtain ⟨job, rest, rfl, -⟩ := hsound.queues.takeJob htaken
      have hnum : state.pool.queueCurNum.toNat = pool.queueCurNum.toNat + 1 := by
        rw [hcount, hsound.queues.count, List.length_cons]
        omega
      have hwoken : _ ≤ (state.producers.map (producerWeight calls threads)).sum + _ :=
        producers_wake_le state.producers notFull
      have hsignalled : destroyerWeight calls threads
          (if empty then state.destroyer.wake else state.destroyer) ≤
            destroyerWeight calls threads state.destroyer + 1 := by
        split
        · exact destroyerWeight_wake calls threads state.destroyer
        · exact Nat.le_succ _
      have htook := hset (.took pjob)
      simp only [workerWeight] at htook
      simp only [weight, credit, hnum, Nat.mul_succ]
      omega
    · contradiction
  | callback worker =>
    simp only at hstep
    split at hstep
    case h_2 => contradiction
    rename_i pjob hworker
    obtain ⟨job, -, rfl⟩ := Option.map_eq_some_iff.mp hstep
    have hset := sum_map_set hworker (.ran pjob) workerWeight
    simp only [workerWeight] at hset
    simp only [weight, credit]
    omega
  | free worker =>
    simp only at hstep
    split at hstep
    case h_2 => contradiction
    rename_i pjob hworker
    cases hstep
    have hset := sum_map_set hworker .ready workerWeight
    simp only [workerWeight] at hset
    simp only [weight, credit, release]
    omega
  | wakeWorker worker =>
    simp only at hstep
    split at hstep
    case h_2 => contradiction
    rename_i hworker
    cases hstep
    have hset := sum_map_set hworker .ready workerWeight
    simp only [workerWeight] at hset
    simp only [weight, credit]
    omega
  | destroy =>
    exact stepDestroy_weight h.closed (fun hclosed => (hsound.closed hclosed).1) h.workers hproducers
      hstep
  | wakeDestroy =>
    simp only at hstep
    split at hstep
    case isFalse => contradiction
    rename_i hwaiting
    cases hstep
    simp only [weight, credit, hwaiting, destroyerWeight]
    omega

theorem step_closed (hclosed : state.pool.queueClose = true → state.destroyer ≠ .ready)
    (hstep : step state action = some next) :
    next.pool.queueClose = true → next.destroyer ≠ .ready := by
  obtain ⟨-, heffect⟩ := effect_of_step hstep
  cases heffect with
  | accepts index hfree hadded =>
    intro hclose
    obtain ⟨-, -, -, -, -, hopen, -⟩ := addJob_accepted hadded
    rw [hopen] at hclose
    contradiction
  | takes hworker htaken =>
    obtain ⟨-, -, hsame, -⟩ := takeJob_took htaken
    intro hclose
    rw [hsame] at hclose
    have hdestroyer := hclosed hclose
    dsimp only
    split
    · cases hphase : state.destroyer <;> simp_all [Destroyer.wake]
    · exact hdestroyer
  | destroys hstep =>
    unfold stepDestroy at hstep
    split at hstep
    · split at hstep
      · cases hstep
        exact hclosed
      · cases hstep
        unfold PoolThreads.drain
        split <;> simp
    · cases hstep
      unfold PoolThreads.drain
      split <;> simp
    · contradiction
    · cases hstep
      simp
    · cases hstep
      simp
    · split at hstep
      · cases hstep
        simp
      · contradiction
    · contradiction
  | drains => simp
  | _ => exact hclosed

theorem Inv.step (h : Inv queueMax threads state) (hstep : PoolThreads.step state action = some next) :
    Inv queueMax threads next := by
  obtain ⟨cells, hsound⟩ := h.sound
  exact ⟨hsound.step hstep, (step_length_workers hstep).trans h.workers, step_closed h.closed hstep⟩

theorem inv_start (hmax : 0 ≤ queueMax) (threads : Nat) :
    Inv queueMax threads (start threads queueMax : State α) where
  sound := ⟨[], sound_start threads hmax⟩
  workers := List.length_replicate
  closed := by simp [start, init]

theorem stepDestroy_length_producers (hstep : stepDestroy state = some next) :
    next.producers.length = state.producers.length := by
  unfold stepDestroy PoolThreads.drain at hstep
  split at hstep
  · split at hstep
    · cases hstep
      rfl
    · cases hstep
      split <;> rfl
  · cases hstep
    split <;> rfl
  · contradiction
  · cases hstep
    rfl
  · cases hstep
    exact List.length_map Producer.wake
  · split at hstep
    · cases hstep
      rfl
    · contradiction
  · contradiction

theorem step_length_producers (hstep : step state action = some next) :
    next.producers.length = state.producers.length + (isCall action).toNat := by
  unfold step at hstep
  split at hstep
  · contradiction
  cases action with
  | call job =>
    cases hstep
    simp [isCall]
  | addJob producer memory =>
    simp only at hstep
    split at hstep
    case h_2 => contradiction
    split at hstep
    · contradiction
    split at hstep
    case h_4 => contradiction
    all_goals
      cases hstep
      exact List.length_set
  | takeJob worker =>
    simp only at hstep
    split at hstep
    case h_2 => contradiction
    split at hstep
    case h_3 =>
      cases hstep
      dsimp only [isCall]
      split
      · exact List.length_map Producer.wake
      · rfl
    case h_4 => contradiction
    all_goals
      cases hstep
      rfl
  | callback worker =>
    simp only at hstep
    split at hstep
    case h_2 => contradiction
    obtain ⟨job, -, rfl⟩ := Option.map_eq_some_iff.mp hstep
    rfl
  | destroy => exact stepDestroy_length_producers hstep
  | wakeProducer producer =>
    simp only at hstep
    split at hstep
    case h_2 => contradiction
    cases hstep
    exact List.length_set
  | free worker =>
    simp only at hstep
    split at hstep
    case h_2 => contradiction
    cases hstep
    rfl
  | wakeWorker worker =>
    simp only at hstep
    split at hstep
    case h_2 => contradiction
    cases hstep
    rfl
  | wakeDestroy =>
    simp only at hstep
    split at hstep
    case isFalse => contradiction
    cases hstep
    rfl

theorem producers_run {threadNum : Nat} {actions : List (Action α)}
    (run : exec step (start threadNum queueMax) actions = some state) :
    state.producers.length = actions.countP isCall := by
  have hpreserved : ∀ (past : List (Action α)) state action next,
      state.producers.length = past.countP isCall → step state action = some next →
        next.producers.length = (past ++ [action]).countP isCall := by
    intro past state action next h hstep
    rw [step_length_producers hstep, h, List.countP_append, List.countP_singleton]
    cases isCall action <;> rfl
  exact exec_history hpreserved (show (start threadNum queueMax : State α).producers.length =
    ([] : List (Action α)).countP isCall from rfl) run

theorem sum_credit (calls threads : Nat) (actions : List (Action α)) :
    (actions.map (credit calls threads)).sum =
      actions.countP isCall * (calls + threads + 7) + 2 * actions.countP spurious := by
  induction actions with
  | nil => simp
  | cons action rest ih =>
    rw [List.map_cons, List.sum_cons, ih, List.countP_cons, List.countP_cons]
    cases action <;> simp [credit, isCall, spurious] <;> ring

theorem weight_start (calls threads : Nat) :
    weight calls threads (start threads queueMax : State α) = 2 * threads + calls + 6 := by
  simp only [weight, start, init, List.map_replicate, List.sum_replicate, List.map_nil, List.sum_nil,
    workerWeight, destroyerWeight]
  simp
  omega

/-- However the threads are scheduled, the steps of a run are bounded by the calls and the
wake-ups that nobody signalled; and when no thread can go on, every accepted job has been
called once, every call has returned, and `threadpool_destroy`, unless it was not called, is
done. -/
theorem comes_to_rest {threadNum : Nat} {actions : List (Action α)} (hmax : 1 ≤ queueMax)
    (hthreads : 0 < threadNum) (run : exec step (start threadNum queueMax) actions = some state) :
    actions.length ≤ actions.countP isCall * (actions.countP isCall + threadNum + 8) +
        2 * threadNum + 2 * actions.countP spurious + 6 ∧
      (Stuck step Moves state → state.accepted.Perm state.ran ∧
        (state.destroyer ≠ .freed → ∀ producer ∈ state.producers, ∃ ret, producer = .returned ret) ∧
        (step state .destroy = none → state.destroyer = .freed)) := by
  refine ⟨?_, rest_done hmax hthreads run⟩
  have hgrows : ∀ (state : State α) action next, step state action = some next →
      state.producers.length ≤ next.producers.length := by
    intro state action next hstep
    rw [step_length_producers hstep]
    exact Nat.le_add_right _ _
  have hpaid := exec_amortized (fun state action next h _ hstep => Inv.step h hstep)
    (fun state action next h hproducers hstep => step_weight h hproducers hstep)
    (inv_start (by omega) threadNum) (meets_le hgrows run) run
  rw [sum_credit, weight_start, producers_run run] at hpaid
  have hcalls : actions.countP isCall * (actions.countP isCall + threadNum + 8) =
      actions.countP isCall * (actions.countP isCall + threadNum + 7) + actions.countP isCall := by
    ring
  omega

end

/-- The run of two workers to the end of `threadpool_destroy` takes 23 of at most 51 steps. -/
theorem comes_to_rest_freed : ∃ final, exec step (start 2 1) toTheEnd = some final ∧
    toTheEnd.length = 23 ∧ toTheEnd.countP isCall = 3 ∧ final.destroyer = .freed ∧
      toTheEnd.length ≤ 3 * (3 + 2 + 8) + 2 * 2 + 2 * toTheEnd.countP spurious + 6 ∧
      final.accepted.Perm final.ran := by
  have hfreed : (exec step (start 2 1) toTheEnd).any (fun final => final.destroyer = .freed) = true := by
    decide +kernel
  obtain ⟨final, run, hfinal⟩ := (Option.any_eq_true _ _).mp hfreed
  have hdestroyer := of_decide_eq_true hfinal
  obtain ⟨hbound, hrest⟩ := comes_to_rest (by decide) (by decide) run
  have hstuck : Stuck step Moves final := fun action _ => if_pos hdestroyer
  exact ⟨final, run, rfl, rfl, hdestroyer, hbound, (hrest hstuck).1⟩

end UdpFileProxy.Quiescence
