import UdpFileProxy.Lib.LinkedList

/-! The thread pool of `threadpool.c`. What a function does between taking the
mutex and releasing it, or waiting on a condition, is one operation here; its
result says whether it waits and which conditions it signals. A job is a cell in
the heap that holds what it was added with. -/
namespace UdpFileProxy.ThreadPool
open Lib.LinkedList

structure Pool (α : Type*) where
  queueMaxNum : Int
  head : Option Addr
  tail : Option Addr
  queueCurNum : Int
  queueClose : Bool
  poolClose : Bool
  heap : Heap α

variable {α : Type*}

def init (queueMax : Int) : Pool α where
  queueMaxNum := queueMax
  head := none
  tail := none
  queueCurNum := 0
  queueClose := false
  poolClose := false
  heap := fun _ => none

/-- `waits` releases the mutex on `queue_not_full`; `broadcast` wakes up who
waits on `queue_not_empty`. -/
inductive Added (α : Type*) where
  | waits
  | refused
  | accepted (pool : Pool α) (broadcast : Bool)
  | undefined

/-- `threadpool_add_job`; `memory` is what `malloc` returns. -/
def addJob (pool : Pool α) (job : α) (memory : Option Addr) : Added α :=
  if pool.queueCurNum = pool.queueMaxNum ∧ ¬(pool.queueClose ∨ pool.poolClose) then .waits
  else if pool.queueClose ∨ pool.poolClose then .refused
  else
    match memory with
    | none => .refused
    | some pjob =>
        match pool.head with
        | none =>
            .accepted { pool with
              head := some pjob, tail := some pjob
              queueCurNum := pool.queueCurNum + 1
              heap := Function.update pool.heap pjob (some ⟨job, none⟩) } true
        | some _ =>
            match pool.tail with
            | none => .undefined
            | some tail =>
                .accepted { pool with
                  tail := some pjob
                  queueCurNum := pool.queueCurNum + 1
                  heap := linkAfter pool.heap tail pjob job } false

/-- `waits` releases the mutex on `queue_not_empty`; the flags of `took` are the
signals on `queue_empty` and `queue_not_full`. -/
inductive Taken (α : Type*) where
  | waits
  | exits
  | took (pjob : Addr) (pool : Pool α) (empty notFull : Bool)
  | undefined

/-- `threadpool_function`, up to the call of the job. -/
def takeJob (pool : Pool α) : Taken α :=
  if pool.queueCurNum = 0 ∧ ¬pool.poolClose then .waits
  else if pool.poolClose then .exits
  else
    match pool.head with
    | none => .undefined
    | some pjob =>
        match pool.heap pjob with
        | none => .undefined
        | some cell =>
            let num := pool.queueCurNum - 1
            .took pjob { pool with
              queueCurNum := num
              head := if num = 0 then none else cell.next
              tail := if num = 0 then none else pool.tail } (num = 0) (num = pool.queueMaxNum - 1)

/-- `free(pjob)`. -/
def release (pool : Pool α) (pjob : Addr) : Pool α :=
  { pool with heap := Function.update pool.heap pjob none }

/-- The jobs in the queue, from head to tail. -/
structure Queues (pool : Pool α) (cells : List (Addr × α)) : Prop where
  chain : Chain pool.heap pool.head cells
  tail : pool.tail = cells.getLast?.map Prod.fst
  count : pool.queueCurNum = cells.length

section
variable {pool next : Pool α} {cells : List (Addr × α)} {job : α} {pjob : Addr} {flag empty notFull : Bool}

theorem queues_init (queueMax : Int) : Queues (init queueMax : Pool α) [] := ⟨rfl, rfl, rfl⟩

theorem addJob_waits {memory : Option Addr} (h : addJob pool job memory = .waits) :
    pool.queueCurNum = pool.queueMaxNum ∧ pool.queueClose = false ∧ pool.poolClose = false := by
  unfold addJob at h
  split at h
  · simp_all
  split at h
  · contradiction
  split at h
  · contradiction
  split at h
  · contradiction
  split at h <;> contradiction

theorem addJob_accepted {memory : Option Addr} (h : addJob pool job memory = .accepted next flag) :
    (∃ pjob, memory = some pjob) ∧ pool.queueClose = false ∧ pool.poolClose = false ∧
      pool.queueCurNum ≠ pool.queueMaxNum ∧ next.queueMaxNum = pool.queueMaxNum ∧
      next.queueClose = false ∧ next.poolClose = false ∧ (flag = true ↔ pool.head = none) := by
  unfold addJob at h
  split at h
  · contradiction
  rename_i hwaits
  split at h
  · contradiction
  rename_i hopen
  have hflags : pool.queueClose = false ∧ pool.poolClose = false := by simpa using hopen
  have hroom : pool.queueCurNum ≠ pool.queueMaxNum := fun hfull => hwaits ⟨hfull, hopen⟩
  split at h
  · contradiction
  rename_i pjob
  split at h
  · rename_i hhead
    cases h
    exact ⟨⟨pjob, rfl⟩, hflags.1, hflags.2, hroom, rfl, hflags.1, hflags.2, by simp [hhead]⟩
  · rename_i hhead
    split at h
    · contradiction
    · cases h
      exact ⟨⟨pjob, rfl⟩, hflags.1, hflags.2, hroom, rfl, hflags.1, hflags.2, by simp [hhead]⟩

theorem takeJob_waits (h : takeJob pool = .waits) :
    pool.queueCurNum = 0 ∧ pool.poolClose = false := by
  unfold takeJob at h
  split at h
  · simp_all
  split at h
  · contradiction
  split at h
  · contradiction
  split at h <;> contradiction

theorem takeJob_exits (h : takeJob pool = .exits) : pool.poolClose = true := by
  unfold takeJob at h
  split at h
  · contradiction
  split at h
  · assumption
  split at h
  · contradiction
  split at h <;> contradiction

theorem takeJob_took (h : takeJob pool = .took pjob next empty notFull) :
    pool.poolClose = false ∧ next.queueMaxNum = pool.queueMaxNum ∧ next.queueClose = pool.queueClose ∧
      next.poolClose = false ∧ next.queueCurNum = pool.queueCurNum - 1 ∧
      (empty = true ↔ next.queueCurNum = 0) ∧
      (notFull = true ↔ next.queueCurNum = pool.queueMaxNum - 1) := by
  unfold takeJob at h
  split at h
  · contradiction
  split at h
  · contradiction
  rename_i hopen
  split at h
  · contradiction
  split at h
  · contradiction
  · cases h
    have hflag : pool.poolClose = false := by simpa using hopen
    exact ⟨hflag, rfl, rfl, hflag, rfl, by simp, by simp⟩

theorem Queues.addJob (h : Queues pool cells) (hfree : pool.heap pjob = none)
    (hadded : addJob pool job (some pjob) = .accepted next flag) :
    Queues next (cells ++ [(pjob, job)]) ∧
      ∀ addr, addr ∉ cells.map Prod.fst → addr ≠ pjob → next.heap addr = pool.heap addr := by
  unfold ThreadPool.addJob at hadded
  split at hadded
  · contradiction
  split at hadded
  · contradiction
  dsimp only at hadded
  cases hhead : pool.head with
  | none =>
    simp only [hhead, Added.accepted.injEq] at hadded
    obtain ⟨rfl, -⟩ := hadded
    obtain rfl := h.chain.start_eq_none_iff.mp hhead
    refine ⟨⟨⟨rfl, none, by simp, rfl⟩, rfl, ?_⟩, ?_⟩
    · simp [h.count]
    · intro addr _ hne
      exact Function.update_of_ne hne _ _
  | some first =>
    have hcells : cells ≠ [] := by
      intro hnil
      rw [h.chain.start_eq_none_iff.mpr hnil] at hhead
      contradiction
    obtain ⟨front, ⟨last, old⟩, rfl⟩ := (List.eq_nil_or_concat' cells).resolve_left hcells
    have htail : pool.tail = some last := by simp [h.tail]
    simp only [hhead, htail, Added.accepted.injEq] at hadded
    obtain ⟨rfl, -⟩ := hadded
    refine ⟨⟨?_, ?_, ?_⟩, ?_⟩
    · have hlinked := h.chain.link hfree job
      simpa [hhead] using hlinked
    · simp
    · simp only [h.count, List.length_append, List.length_cons, List.length_nil]
      push_cast
      omega
    · intro addr hnot hne
      have hlast : addr ≠ last := by
        rintro rfl
        simp at hnot
      simp [linkAfter, hlast, hne]

theorem Queues.addJob_defined (h : Queues pool cells) (memory : Option Addr) :
    ThreadPool.addJob pool job memory ≠ .undefined := by
  unfold ThreadPool.addJob
  split
  · simp
  split
  · simp
  cases memory with
  | none => simp
  | some pjob =>
    cases hhead : pool.head with
    | none => simp
    | some first =>
      have hcells : cells ≠ [] := by
        intro hnil
        rw [h.chain.start_eq_none_iff.mpr hnil] at hhead
        contradiction
      simp [h.tail, List.getLast?_eq_some_getLast hcells]

theorem Queues.takeJob (h : Queues pool cells)
    (htaken : takeJob pool = .took pjob next empty notFull) :
    ∃ job rest, cells = (pjob, job) :: rest ∧ Queues next rest ∧ next.heap = pool.heap := by
  unfold ThreadPool.takeJob at htaken
  split at htaken
  · contradiction
  split at htaken
  · contradiction
  split at htaken
  · contradiction
  rename_i first hhead
  split at htaken
  · contradiction
  rename_i cell hcell
  simp only [Taken.took.injEq] at htaken
  obtain ⟨rfl, rfl, -⟩ := htaken
  cases cells with
  | nil =>
    rw [chain_nil.mp h.chain] at hhead
    contradiction
  | cons entry rest =>
    obtain ⟨hstart, link, hentry, hrest⟩ := h.chain
    obtain rfl : first = entry.1 := Option.some.inj (hhead.symm.trans hstart)
    rw [hcell, Option.some.injEq] at hentry
    subst hentry
    have hnum : pool.queueCurNum - 1 = rest.length := by
      rw [h.count, List.length_cons]
      push_cast
      omega
    cases rest with
    | nil => exact ⟨entry.2, [], rfl, ⟨if_pos hnum, if_pos hnum, hnum⟩, rfl⟩
    | cons second others =>
      have hmore : pool.queueCurNum - 1 ≠ 0 := by
        rw [hnum, List.length_cons]
        push_cast
        omega
      have htail : pool.tail = (second :: others).getLast?.map Prod.fst := by
        rw [h.tail, List.getLast?_cons_cons]
      refine ⟨entry.2, second :: others, rfl, ⟨?_, (if_neg hmore).trans htail, hnum⟩, rfl⟩
      dsimp only
      rw [if_neg hmore]
      exact hrest

theorem Queues.takeJob_defined (h : Queues pool cells) : ThreadPool.takeJob pool ≠ .undefined := by
  unfold ThreadPool.takeJob
  split
  · simp
  rename_i hwaits
  split
  · simp
  rename_i hopen
  cases cells with
  | nil => simp [h.count, hopen] at hwaits
  | cons entry rest =>
    obtain ⟨hstart, link, hentry, -⟩ := h.chain
    simp [hstart, hentry]

@[simp] theorem release_heap {addr : Addr} (h : addr ≠ pjob) :
    (release pool pjob).heap addr = pool.heap addr :=
  Function.update_of_ne h _ _

theorem Queues.release (h : Queues pool cells) (hnot : pjob ∉ cells.map Prod.fst) :
    Queues (release pool pjob) cells :=
  ⟨h.chain.update_of_notMem hnot none, h.tail, h.count⟩

end

end UdpFileProxy.ThreadPool
