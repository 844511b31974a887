import UdpFileProxy.FileThread
import UdpFileProxy.Lib.Run

/-! The status of a `SendList`, which `file_thread` reads in one critical section
before it takes a file in another. The management thread may append files in
between, but only the one consumer takes any. -/
namespace UdpFileProxy.Status
open Lib.LinkedList Lib.Memory Lib.Run Protocol SendList FileThread
open SendPack (Reply)
open Speed (SpeedManger)

/-- The item that the thread was handed and has not deleted. -/
def holds : Pc → Option Addr
  | .filename data => data
  | .getFileSize data _ => some data
  | .sendPack data _ _ => some data
  | .unlink data _ => some data
  | .delete data => some data
  | _ => none

/-- The status tells whether the queue is empty, and the thread acts on it. -/
structure Serves (list : SendList) (thread : Thread) (cells : List (Addr × SendData)) : Prop where
  queued : Queued list cells
  stat : list.stat = if cells = [] then sIdle else sBusy
  seen : thread.pc = .getNext → cells ≠ []
  found : thread.pc ≠ .filename none
  held : ∀ data, holds thread.pc = some data →
    data ∉ cells.map Prod.fst ∧ (list.heap data).isSome

section
variable {order : Endian} {manager manager' : SpeedManger} {packT : Int} {list list' : SendList}
  {thread thread' : Thread} {reply : Reply} {cells : List (Addr × SendData)} {filename : Bytes}
  {delect : Bool} {memory : Addr}

theorem serves_created (maxCount : Int) (info : Addr) :
    Serves { SendList.new with maxCount := maxCount } (created info) [] where
  queued := queued_new maxCount
  stat := rfl
  seen := by simp [created]
  found := by simp [created]
  held := by simp [created, holds]

theorem Serves.busy (h : Serves list thread cells) : list.stat = sBusy ↔ cells ≠ [] := by
  rw [h.stat]
  split <;> simp_all [sIdle, sBusy]

theorem Serves.idle (h : Serves list thread cells) : list.stat = sIdle ↔ cells = [] := by
  rw [h.stat]
  split <;> simp_all [sIdle, sBusy]

theorem Serves.move (h : Serves list thread cells) (hseen : thread'.pc = .getNext → list.stat = sBusy)
    (hfound : thread'.pc ≠ .filename none)
    (hheld : ∀ data, holds thread'.pc = some data → holds thread.pc = some data) :
    Serves list thread' cells where
  queued := h.queued
  stat := h.stat
  seen := fun hpc => h.busy.mp (hseen hpc)
  found := hfound
  held := fun data hdata => h.held data (hheld data hdata)

theorem Serves.appendFile (h : Serves list thread cells) (hroom : cells.length < list.maxCount)
    (hfree : list.heap memory = none) :
    ∃ next, SendList.appendFile list filename delect memory = some (eOk, next) ∧
      Serves next thread (cells ++ [(memory, ⟨filename, delect⟩)]) ∧ next.maxCount = list.maxCount := by
  obtain ⟨next, happended, hqueued, hmax, hstat, hheap⟩ := h.queued.appendFile hroom hfree filename delect
  refine ⟨next, happended, ⟨hqueued, ?_, by simp, h.found, ?_⟩, hmax⟩
  · rw [hstat, h.stat]
    split <;> simp [sIdle, sBusy]
  · intro data hdata
    obtain ⟨hnot, hallocated⟩ := h.held data hdata
    have hne : data ≠ memory := by
      rintro rfl
      rw [hfree] at hallocated
      contradiction
    rw [hheap data hnot hne]
    exact ⟨by simp [hnot, hne], hallocated⟩

theorem Serves.getNext (h : Serves list thread cells) (hpc : thread.pc = .getNext) :
    ∃ data item rest next, cells = (data, item) :: rest ∧
      SendList.getNext list = some (some data, next) ∧
      Serves next { thread with pc := .filename (some data) } rest ∧
      (next.heap data).map Cell.value = some item ∧ next.maxCount = list.maxCount := by
  cases cells with
  | nil => exact absurd rfl (h.seen hpc)
  | cons cell rest =>
    obtain ⟨data, item⟩ := cell
    obtain ⟨next, hnext, hqueued, hheap, hmax, hstat⟩ := h.queued.getNext_cons
    obtain ⟨link, hcell⟩ := h.queued.chain.allocated (List.mem_cons_self)
    have hnodup := h.queued.chain.nodup
    rw [List.map_cons, List.nodup_cons] at hnodup
    refine ⟨data, item, rest, next, rfl, hnext, ⟨hqueued, ?_, by simp, by simp, ?_⟩, ?_, hmax⟩
    · rw [hstat, h.stat]
      split <;> simp_all
    · intro held hheld
      obtain rfl : data = held := by simpa [holds] using hheld
      refine ⟨hnodup.1, ?_⟩
      rw [hheap, hcell]
      rfl
    · rw [hheap, hcell]
      rfl

theorem Serves.call (h : Serves list thread cells)
    (hstep : FileThread.step order manager packT list thread reply = some (manager', list', thread')) :
    list'.maxCount = list.maxCount ∧ thread'.info = thread.info ∧
      ((thread.pc ≠ .getNext ∧ Serves list' thread' cells) ∨
        ∃ data item rest, thread.pc = .getNext ∧ cells = (data, item) :: rest ∧
          thread'.pc = .filename (some data) ∧ (list'.heap data).map Cell.value = some item ∧
          Serves list' thread' rest) := by
  by_cases hnext : thread.pc = .getNext
  · obtain ⟨data, item, rest, next, rfl, hget, hserves, hitem, hmax⟩ := h.getNext hnext
    simp only [FileThread.step, hnext, hget, Option.map_some, Option.some.injEq, Prod.mk.injEq] at hstep
    obtain ⟨-, rfl, rfl⟩ := hstep
    exact ⟨hmax, rfl, .inr ⟨data, item, rest, hnext, rfl, rfl, hitem, hserves⟩⟩
  suffices hother : list'.maxCount = list.maxCount ∧ thread'.info = thread.info ∧
      Serves list' thread' cells from ⟨hother.1, hother.2.1, .inl ⟨hnext, hother.2.2⟩⟩
  have hmove {next : Thread} (hinfo : next.info = thread.info)
      (hseen : next.pc = .getNext → list.stat = sBusy) (hfound : next.pc ≠ .filename none)
      (hheld : ∀ data, holds next.pc = some data → holds thread.pc = some data) :
      list.maxCount = list.maxCount ∧ next.info = thread.info ∧ Serves list next cells :=
    ⟨rfl, hinfo, h.move hseen hfound hheld⟩
  unfold FileThread.step at hstep
  split at hstep
  · -- socket
    cases hstep
    refine hmove ?_ ?_ ?_ ?_ <;> split <;> simp [holds]
  · -- isIdle
    cases hstep
    refine hmove rfl ?_ ?_ ?_ <;> dsimp only <;> split <;> simp [holds]
  · -- isBusy
    cases hstep
    refine hmove rfl ?_ ?_ ?_ <;> dsimp only <;> split <;> simp_all [holds]
  · -- isCancel
    cases hstep
    refine hmove rfl ?_ ?_ ?_ <;> dsimp only <;> split <;> simp [holds]
  · -- sleep
    cases hstep
    exact hmove rfl (by simp) (by simp) (by simp [holds])
  · -- getNext
    rename_i hpc
    exact absurd hpc hnext
  · -- a null pointer
    contradiction
  · -- filename
    rename_i hpc
    obtain ⟨cell, -, hpair⟩ := Option.map_eq_some_iff.mp hstep
    cases hpair
    exact hmove rfl (by simp) (by simp) (by simp [holds, hpc])
  · -- getFileSize
    rename_i hpc
    cases hstep
    refine hmove rfl ?_ ?_ ?_ <;> dsimp only <;> split <;> simp [holds, hpc]
  · -- sendPack
    rename_i hpc
    split at hstep
    · cases hstep
      refine hmove rfl ?_ ?_ ?_ <;> dsimp only <;> split <;> (try split) <;> simp [holds, hpc]
    · obtain ⟨moved, -, hpair⟩ := Option.map_eq_some_iff.mp hstep
      cases hpair
      exact hmove rfl (by simp) (by simp) (by simp [holds, hpc])
  · -- unlink
    rename_i hpc
    cases hstep
    exact hmove rfl (by simp) (by simp) (by simp [holds, hpc])
  · -- delete
    rename_i data hpc
    cases hstep
    obtain ⟨hnot, -⟩ := h.held data (by simp [holds, hpc])
    exact ⟨rfl, rfl, h.queued.delete hnot, h.stat, by simp, by simp, by simp [holds]⟩
  · -- close
    cases hstep
    exact hmove rfl (by simp) (by simp) (by simp [holds])
  · -- no such reply
    contradiction

end

/-- `accepted` and `taken` are history: the files that `append_file` answered with
`E_OK`, and those that `get_next` handed out. -/
structure State where
  list : SendList
  thread : Thread
  accepted : List SendData
  taken : List SendData

def start (maxCount : Int) (info : Addr) : State where
  list := { SendList.new with maxCount := maxCount }
  thread := created info
  accepted := []
  taken := []

inductive Action where
  | appendFile (filename : Bytes) (delect : Bool) (memory : Addr)
  | call (manager : SpeedManger) (packT : Int) (reply : Reply)
  | cancel

/-- What the call of `get_next` that led to this point handed out. -/
def handedOut (list : SendList) : Pc → List SendData
  | .filename (some data) => ((list.heap data).map Cell.value).toList
  | _ => []

/-- The management thread and the consumer; nothing calls `set_stat`. -/
def step (order : Endian) (state : State) (action : Action) : Option State :=
  match action with
  | .appendFile filename delect memory =>
      if (state.list.heap memory).isSome then none
      else
        (SendList.appendFile state.list filename delect memory).map fun (ret, list) =>
          { state with
            list := list
            accepted := if ret = eOk then state.accepted ++ [⟨filename, delect⟩] else state.accepted }
  | .call manager packT reply =>
      (FileThread.step order manager packT state.list state.thread reply).map
        fun (_, list, thread) => { state with
          list := list
          thread := thread
          taken := if state.thread.pc = .getNext then state.taken ++ handedOut list thread.pc
            else state.taken }
  | .cancel =>
      if mustCancel state.thread.pc ∨ mayCancel state.thread.pc then
        some { state with thread := { state.thread with pc := .cancelled } }
      else none

/-- What was accepted and not taken is in the queue. -/
def Served (state : State) : Prop := ∃ cells, Serves state.list state.thread cells ∧
  state.accepted = state.taken ++ cells.map Prod.snd

section
variable {order : Endian} {state next : State} {action : Action}

theorem served_start (maxCount : Int) (info : Addr) : Served (start maxCount info) :=
  ⟨[], serves_created maxCount info, rfl⟩

theorem Served.step (h : Served state) (hstep : Status.step order state action = some next) :
    Served next := by
  obtain ⟨cells, hserves, haccepted⟩ := h
  cases action with
  | appendFile filename delect memory =>
    simp only [Status.step] at hstep
    split at hstep
    · contradiction
    rename_i hfree
    have hfree : state.list.heap memory = none := by simpa using hfree
    obtain ⟨⟨ret, list⟩, happended, rfl⟩ := Option.map_eq_some_iff.mp hstep
    by_cases hroom : (cells.length : Int) < state.list.maxCount
    · obtain ⟨appended, hok, hserved, -⟩ := hserves.appendFile hroom hfree
      cases happended.symm.trans hok
      refine ⟨_, hserved, ?_⟩
      simp [haccepted]
    · have hfull := hserves.queued.appendFile_full (by omega) filename delect memory
      cases happended.symm.trans hfull
      exact ⟨cells, hserves, haccepted⟩
  | call manager packT reply =>
    obtain ⟨⟨moved, list, thread⟩, hcalled, rfl⟩ := Option.map_eq_some_iff.mp hstep
    obtain ⟨-, -, ⟨hpc, hsame⟩ | ⟨data, item, rest, hpc, rfl, hfilename, hitem, hrest⟩⟩ :=
      hserves.call hcalled
    · exact ⟨cells, hsame, by simp [hpc, haccepted]⟩
    · refine ⟨rest, hrest, ?_⟩
      simp [hpc, haccepted, handedOut, hfilename, hitem]
  | cancel =>
    simp only [Status.step] at hstep
    split at hstep
    · cases hstep
      exact ⟨cells, hserves.move (by simp) (by simp) (by simp [holds]), haccepted⟩
    · contradiction

/-- In every state the status says whether there is a file to take, and a thread
that has seen it busy is handed one. -/
theorem status_tells {maxCount : Int} {info : Addr} {final : State} {actions : List Action}
    (run : exec (step order) (start maxCount info) actions = some final) :
    ∃ cells, Chain final.list.heap final.list.outData cells ∧
      final.accepted = final.taken ++ cells.map Prod.snd ∧
      (final.list.stat = sBusy ↔ cells ≠ []) ∧ (final.list.stat = sIdle ↔ cells = []) ∧
      (final.thread.pc = .getNext →
        ∃ data next, SendList.getNext final.list = some (some data, next)) ∧
      ∀ found, final.thread.pc = .filename found →
        ∃ data cell, found = some data ∧ final.list.heap data = some cell := by
  obtain ⟨cells, hserves, haccepted⟩ :=
    exec_invariant' (fun _ _ _ h hstep => h.step hstep) (served_start maxCount info) run
  refine ⟨cells, hserves.queued.chain, haccepted, hserves.busy, hserves.idle, ?_, ?_⟩
  · intro hpc
    obtain ⟨data, -, -, next, -, hget, -⟩ := hserves.getNext hpc
    exact ⟨data, next, hget⟩
  · intro found hpc
    cases found with
    | none => exact absurd hpc hserves.found
    | some data =>
      obtain ⟨-, hallocated⟩ := hserves.held data (by simp [holds, hpc])
      obtain ⟨cell, hcell⟩ := Option.isSome_iff_exists.mp hallocated
      exact ⟨data, cell, rfl, hcell⟩

end

/-- One file is appended while the thread starts, another before it takes the first. -/
def appendedBetween : List Action :=
  [.call .new 200 (.fd 3), .appendFile [97] false 1, .call .new 200 .done, .call .new 200 .done,
    .appendFile [98] true 2]

theorem status_tells_between : ∃ final,
    exec (step .little) (start 20 1) appendedBetween = some final ∧ final.thread.pc = .getNext ∧
    ∃ cells, Chain final.list.heap final.list.outData cells ∧
      final.accepted = final.taken ++ cells.map Prod.snd ∧
      (final.list.stat = sBusy ↔ cells ≠ []) ∧ (final.list.stat = sIdle ↔ cells = []) ∧
      (final.thread.pc = .getNext →
        ∃ data next, SendList.getNext final.list = some (some data, next)) ∧
      ∀ found, final.thread.pc = .filename found →
        ∃ data cell, found = some data ∧ final.list.heap data = some cell := by
  have hready : (exec (step .little) (start 20 1) appendedBetween).any
      (fun final => final.thread.pc = .getNext) = true := by decide +kernel
  obtain ⟨final, run, hpc⟩ := (Option.any_eq_true _ _).mp hready
  exact ⟨final, run, of_decide_eq_true hpc, status_tells run⟩

end UdpFileProxy.Status
