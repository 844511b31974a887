import UdpFileProxy.SendList
import UdpFileProxy.Speed

/-! `file_thread`, the sender thread of one app, as a machine that makes one call
at a time. It runs `SendPack_ex` for each file and can be cancelled at the calls
that POSIX makes cancellation points. -/
namespace UdpFileProxy.FileThread
open Lib.LinkedList Lib.Memory Protocol SendList Speed
open SendPack (Reply)

/-- The three tests of the status are three calls of `get_stat`. After `usleep`
and the other sleeps the loop begins again. -/
inductive Pc where
  | socket
  | isIdle
  | isBusy
  | isCancel
  | sleep (time : Int)
  | getNext
  | filename (data : Option Addr)
  | getFileSize (data : Addr) (item : SendData)
  | sendPack (data : Addr) (item : SendData) (sender : SendPack.State)
  | unlink (data : Addr) (item : SendData)
  | delete (data : Addr)
  | close
  | exited
  | cancelled
  deriving DecidableEq, Repr

/-- `cancelRequest` is a `pthread_cancel` that has not taken effect. -/
structure Thread where
  info : Addr
  packT : Int
  pc : Pc
  cancelRequest : Bool
  deriving DecidableEq, Repr

/-- A thread that `pthread_create` has just made. -/
def created (info : Addr) : Thread where
  info := info
  packT := 0
  pc := .socket
  cancelRequest := false

/-- The values outside 0..1000 are replaced. -/
def checkPackT (packT : Int) : Int :=
  if packT < 0 ∨ packT > 1000 then packTDefault else packT

/-- One call of the thread. `packT` and `list` are the fields of its `APP_INFO`;
`reply` is the answer to calls that leave the program. -/
def step (order : Endian) (manager : SpeedManger) (packT : Int) (list : SendList) (thread : Thread)
    (reply : Reply) : Option (SpeedManger × SendList × Thread) :=
  match thread.pc, reply with
  | .socket, .fd fd =>
      some (manager, list,
        if fd < 0 then { thread with pc := .exited }
        else { thread with packT := checkPackT packT, pc := .isIdle })
  | .isIdle, _ =>
      some (manager, list,
        { thread with pc := if list.stat = sIdle then .sleep 200 else .isBusy })
  | .isBusy, _ =>
      some (manager, list,
        { thread with pc := if list.stat = sBusy then .getNext else .isCancel })
  | .isCancel, _ =>
      some (manager, list,
        { thread with pc := if list.stat = sCancel then .close else .sleep 2000000 })
  | .sleep _, .done => some (manager, list, { thread with pc := .isIdle })
  | .getNext, _ =>
      (getNext list).map fun (data, list) => (manager, list, { thread with pc := .filename data })
  | .filename none, _ =>
      -- the name is printed before the pointer is compared with `NULL`
      none
  | .filename (some data), _ =>
      (list.heap data).map fun cell =>
        (manager, list, { thread with pc := .getFileSize data cell.value })
  | .getFileSize data item, .size size =>
      some (manager, list, { thread with
        pc := if size ≤ 0 then .delete data
          else .sendPack data item (SendPack.start (cstr item.filename) thread.packT) })
  | .sendPack data item sender, reply =>
      match sender.pc with
      | .finished ret =>
          -- `delete data` stands in the branch `ret == 0`; the item of any other file leaks
          some (manager, list, { thread with
            pc := if ret = 0 then (if item.delect then .unlink data item else .delete data)
              else .isIdle })
      | _ =>
          (answer order manager sender reply).map fun (manager, sender) =>
            (manager, list, { thread with pc := .sendPack data item sender })
  | .unlink data _, .done => some (manager, list, { thread with pc := .delete data })
  | .delete data, _ => some (manager, SendList.delete list data, { thread with pc := .isIdle })
  | .close, .done => some (manager, list, { thread with pc := .exited })
  | _, _ => none

/-- Where a request to cancel must take effect: the calls that POSIX lists. -/
def mustCancel : Pc → Bool
  | .sleep _ | .close => true
  | .sendPack _ _ sender =>
      match sender.pc with
      | .openFile | .read | .sendto | .sleepFirst | .sleepBatch | .okClose | .errClose => true
      | _ => false
  | _ => false

/-- Where it may take effect: calls that access files or write to a stream. -/
def mayCancel : Pc → Bool
  | .getNext | .filename _ | .getFileSize _ _ | .unlink _ _ | .delete _ => true
  | .sendPack _ _ sender => sender.pc = .stat
  | _ => false

/-- The quota that a thread holds; a thread that ended holds none. -/
def grant (thread : Thread) : Int :=
  match thread.pc with
  | .sendPack _ _ sender => held sender
  | _ => 0

/-- The call of `SendPack_ex` that is in progress handles its quota in order. -/
def Ready (thread : Thread) : Prop :=
  match thread.pc with
  | .sendPack _ _ sender => Speed.Ready sender
  | _ => True

section
variable {order : Endian} {manager manager' : SpeedManger} {packT : Int} {list list' : SendList}
  {thread thread' : Thread} {reply : Reply}

/-- What one call of a thread does with the quota. -/
theorem step_cases (ready : Ready thread)
    (h : step order manager packT list thread reply = some (manager', list', thread')) :
    Ready thread' ∧
      ((grant thread = 0 ∧ grant thread' = manager.granted ∧ manager' = manager.querySpeed.2) ∨
        (grant thread ≠ 0 ∧ grant thread' = 0 ∧ manager' = manager.returnSpeed (grant thread)) ∨
        (grant thread' = grant thread ∧ manager' = manager)) := by
  unfold step at h
  split at h
  · -- socket
    rename_i hpc
    cases h
    split <;> simp [Ready, grant, hpc]
  · -- isIdle
    rename_i hpc
    cases h
    split <;> simp [Ready, grant, hpc]
  · -- isBusy
    rename_i hpc
    cases h
    split <;> simp [Ready, grant, hpc]
  · -- isCancel
    rename_i hpc
    cases h
    split <;> simp [Ready, grant, hpc]
  · -- sleep
    rename_i hpc
    cases h
    simp [Ready, grant, hpc]
  · -- getNext
    rename_i hpc
    obtain ⟨taken, -, htaken⟩ := Option.map_eq_some_iff.mp h
    cases htaken
    simp [Ready, grant, hpc]
  · -- a null pointer
    contradiction
  · -- filename
    rename_i hpc
    obtain ⟨cell, -, hcell⟩ := Option.map_eq_some_iff.mp h
    cases hcell
    simp [Ready, grant, hpc]
  · -- getFileSize
    rename_i hpc
    cases h
    split
    · simp [Ready, grant, hpc]
    · simp [Ready, grant, hpc, ready_start]
  · -- sendPack
    rename_i sender hpc
    have hready : Speed.Ready sender := by simpa [Ready, hpc] using ready
    split at h
    · rename_i hfinished
      cases h
      split
      · split <;> simp [Ready, grant, hpc, held, hfinished]
      · simp [Ready, grant, hpc, held, hfinished]
    · obtain ⟨⟨moved, next⟩, hanswer, hpair⟩ := Option.map_eq_some_iff.mp h
      cases hpair
      obtain ⟨hnext, hmoved⟩ := answer_cases hready hanswer
      refine ⟨by simpa [Ready] using hnext, ?_⟩
      simp only [grant, hpc]
      rcases hmoved with ⟨-, hmoved⟩ | ⟨-, hmoved⟩ | ⟨-, hmoved⟩
      · exact .inl hmoved
      · exact .inr (.inl hmoved)
      · exact .inr (.inr hmoved)
  · -- unlink
    rename_i hpc
    cases h
    simp [Ready, grant, hpc]
  · -- delete
    rename_i hpc
    cases h
    simp [Ready, grant, hpc]
  · -- close
    rename_i hpc
    cases h
    simp [Ready, grant, hpc]
  · -- no such reply
    contradiction

end

end UdpFileProxy.FileThread
