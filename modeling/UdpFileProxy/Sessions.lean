import UdpFileProxy.Adding
import UdpFileProxy.Bandwidth
import UdpFileProxy.Encoding
import UdpFileProxy.Status

/-! Runs of the client with the history of each sender thread. What can happen to one
thread, its app and its history is said once, as the moves of a `View`; an invariant
of the moves then holds of every thread in every run. -/
namespace UdpFileProxy.Sessions
open Lib Lib.LinkedList Lib.Memory Lib.Run Protocol SendList ProxyClient FileThread Config Encoding
open Adding (Listed)
open Registry (withList withTid renew infos tids_append)
open SendPack (Reply)
open Speed (SpeedManger)
open Status (Serves handedOut)

/-- What `read` has returned of a file, what `sendto` has taken of it, and whether
`read` has come to its end. -/
structure Transfer where
  got : Bytes
  sent : Bytes
  atEnd : Bool
  deriving DecidableEq, Repr

namespace Transfer

def new : Transfer where
  got := []
  sent := []
  atEnd := false

/-- The whole file was sent. -/
def Whole (transfer : Transfer) : Prop := transfer.atEnd = true ∧ transfer.sent = transfer.got

instance (transfer : Transfer) : Decidable transfer.Whole := inferInstanceAs (Decidable (_ ∧ _))

def answer (transfer : Transfer) (sender : SendPack.State) (reply : Reply) : Transfer :=
  match sender.pc, reply with
  | .read, .data (some []) => { transfer with atEnd := true }
  | .read, .data (some bytes) => { transfer with got := transfer.got ++ bytes }
  | .sendto, .sent true => { transfer with sent := transfer.sent ++ sender.recvBuff }
  | _, _ => transfer

end Transfer

/-- A file that the thread is through with; `cancelled` says that it was cancelled
over it. -/
structure Handled where
  item : SendData
  transfer : Transfer
  unlinked : Bool
  cancelled : Bool
  deriving DecidableEq, Repr

/-- A successful call of `Del_App`, with the history up to it. -/
structure Deletion where
  opt : Int
  accepted : List SendData
  taken : List SendData
  opened : Nat
  deriving DecidableEq, Repr

/-- The history of a thread: the `delect_file` of the message that registered its app,
the files that were accepted and those that it took, how many of them it opened, and
whether it passed by the exit of `S_CANCEL` with no file left after the deletion. -/
structure Session where
  delectFile : Bool
  accepted : List SendData
  taken : List SendData
  opened : Nat
  transfer : Transfer
  handled : List Handled
  connected : Bool
  deletion : Option Deletion
  passed : Bool
  deriving DecidableEq, Repr

namespace Session

def start (delectFile : Bool) : Session where
  delectFile := delectFile
  accepted := []
  taken := []
  opened := 0
  transfer := .new
  handled := []
  connected := false
  deletion := none
  passed := false

def accept (session : Session) (item : SendData) : Session :=
  { session with accepted := session.accepted ++ [item] }

def delete (session : Session) (opt : Int) : Session :=
  { session with
    deletion := some ⟨opt, session.accepted, session.taken, session.opened⟩ }

def finish (session : Session) (items : List SendData) (unlinked cancelled : Bool) : Session :=
  { session with
    handled := session.handled ++
      items.map fun item => ⟨item, session.transfer, unlinked, cancelled⟩ }

/-- The status was checked, and the thread goes on. -/
def check (session : Session) (next : Pc) : Session :=
  match next with
  | .sleep _ | .getNext =>
      { session with
        passed := session.passed ||
          (session.deletion.isSome && session.taken = session.accepted) }
  | _ => session

/-- One call of the thread, which leaves `list` behind and leads to `next`. -/
def observe (session : Session) (pc : Pc) (reply : Reply) (list : SendList) (next : Pc) : Session :=
  match pc with
  | .socket => if next = .isIdle then { session with connected := true } else session
  | .isIdle | .isBusy | .isCancel => session.check next
  | .getNext =>
      { session with
        taken := session.taken ++ handedOut list next
        transfer := .new }
  | .getFileSize data item =>
      if next = .delete data then session.finish [item] false false else session
  | .sendPack data item sender =>
      match sender.pc with
      | .finished _ => if next = .unlink data item then session else session.finish [item] false false
      | .openFile => { session with opened := session.opened + 1 }
      | _ => { session with transfer := session.transfer.answer sender reply }
  | .unlink _ item => session.finish [item] true false
  | _ => session

section
variable (session : Session) (items : List SendData) (unlinked cancelled : Bool) (next : Pc)

@[simp] theorem finish_accepted :
    (session.finish items unlinked cancelled).accepted = session.accepted := rfl

@[simp] theorem finish_taken : (session.finish items unlinked cancelled).taken = session.taken := rfl

@[simp] theorem finish_deletion :
    (session.finish items unlinked cancelled).deletion = session.deletion := rfl

theorem answered_eq (ret : Int) (item : SendData) : ∃ accepted,
    (if ret = eOk then session.accept item else session) = { session with accepted := accepted } := by
  split
  · exact ⟨_, rfl⟩
  · exact ⟨session.accepted, rfl⟩

theorem check_eq : ∃ passed, session.check next = { session with passed := passed } := by
  unfold check
  split
  · exact ⟨_, rfl⟩
  · exact ⟨_, rfl⟩
  · exact ⟨session.passed, rfl⟩

end

end Session

/-- The file that the thread is busy with. -/
def working (list : SendList) : Pc → List SendData
  | .getFileSize _ item | .sendPack _ item _ | .unlink _ item => [item]
  | pc => handedOut list pc

/-- What one call does to the queue, the thread and its history. -/
inductive Calls (order : Endian) (list : SendList) (session : Session) :
    Pc → SendList → Pc → Session → Prop where
  | connect : Calls order list session .socket list .isIdle { session with connected := true }
  | refused : Calls order list session .socket list .exited session
  | check (pc next : Pc) (checks : pc ∈ [.isIdle, .isBusy, .isCancel])
      (goes : next ∈ [.sleep 200, .isBusy, .getNext, .isCancel, .close, .sleep 2000000]) :
      Calls order list session pc list next (session.check next)
  | awake (time : Int) : Calls order list session (.sleep time) list .isIdle session
  | getNext (data : Option Addr) (rest : SendList)
      (handed : SendList.getNext list = some (data, rest)) :
      Calls order list session .getNext rest (.filename data) { session with
        taken := session.taken ++ handedOut rest (.filename data)
        transfer := .new }
  | filename (data : Addr) (cell : Cell SendData) (found : list.heap data = some cell) :
      Calls order list session (.filename (some data)) list (.getFileSize data cell.value) session
  | missing (data : Addr) (item : SendData) :
      Calls order list session (.getFileSize data item) list (.delete data)
        (session.finish [item] false false)
  | start (data : Addr) (item : SendData) (packT : Int) :
      Calls order list session (.getFileSize data item) list
        (.sendPack data item (SendPack.start (cstr item.filename) packT)) session
  | openFile (data : Addr) (item : SendData) (sender next : SendPack.State) (reply : Reply)
      (opens : sender.pc = .openFile) (resumed : SendPack.resume sender reply = some next) :
      Calls order list session (.sendPack data item sender) list (.sendPack data item next)
        { session with opened := session.opened + 1 }
  | transfer (data : Addr) (item : SendData) (sender next : SendPack.State) (reply : Reply)
      (manager manager' : SpeedManger) (opened : sender.pc ≠ .openFile)
      (answered : Speed.answer order manager sender reply = some (manager', next)) :
      Calls order list session (.sendPack data item sender) list (.sendPack data item next)
        { session with transfer := session.transfer.answer sender reply }
  | sent (data : Addr) (item : SendData) (sender : SendPack.State) (returned : sender.pc = .finished 0)
      (delect : item.delect = true) :
      Calls order list session (.sendPack data item sender) list (.unlink data item) session
  | kept (data : Addr) (item : SendData) (sender : SendPack.State) (returned : sender.pc = .finished 0)
      (delect : item.delect = false) :
      Calls order list session (.sendPack data item sender) list (.delete data)
        (session.finish [item] false false)
  | failed (data : Addr) (item : SendData) (sender : SendPack.State) (ret : Int)
      (returned : sender.pc = .finished ret) (failure : ret ≠ 0) :
      Calls order list session (.sendPack data item sender) list .isIdle
        (session.finish [item] false false)
  | unlink (data : Addr) (item : SendData) :
      Calls order list session (.unlink data item) list (.delete data)
        (session.finish [item] true false)
  | delete (data : Addr) :
      Calls order list session (.delete data) (SendList.delete list data) .isIdle session
  | close : Calls order list session .close list .exited session

theorem answer_openFile {order : Endian} {manager manager' : SpeedManger} {sender next : SendPack.State}
    {reply : Reply} (hpc : sender.pc = .openFile)
    (h : Speed.answer order manager sender reply = some (manager', next)) :
    SendPack.resume sender reply = some next := by
  simp only [Speed.answer, SendPack.call, hpc] at h
  obtain ⟨resumed, hresumed, hpair⟩ := Option.map_eq_some_iff.mp h
  cases hpair
  exact hresumed

theorem calls_returned {order : Endian} {list : SendList} (session : Session) (data : Addr)
    (item : SendData) {sender : SendPack.State} (reply : Reply) {ret : Int}
    (hfinished : sender.pc = .finished ret) :
    Calls order list session (.sendPack data item sender) list
      (if ret = 0 then (if item.delect then .unlink data item else .delete data) else .isIdle)
      (session.observe (.sendPack data item sender) reply list
        (if ret = 0 then (if item.delect then .unlink data item else .delete data) else .isIdle)) := by
  simp only [Session.observe, hfinished]
  split
  · rename_i hret
    subst hret
    cases hdelect : item.delect with
    | false =>
      simp only [Bool.false_eq_true, if_false, reduceCtorEq]
      exact .kept _ _ _ hfinished hdelect
    | true =>
      simp only [if_true]
      exact .sent _ _ _ hfinished hdelect
  · rename_i hret
    simp only [reduceCtorEq, if_false]
    exact .failed _ _ _ ret hfinished hret

theorem calls_running {order : Endian} {manager manager' : SpeedManger} {list : SendList}
    (session : Session) (data : Addr) (item : SendData) {sender next : SendPack.State} {reply : Reply}
    (hrunning : ∀ ret, sender.pc ≠ .finished ret)
    (h : Speed.answer order manager sender reply = some (manager', next)) :
    Calls order list session (.sendPack data item sender) list (.sendPack data item next)
      (session.observe (.sendPack data item sender) reply list (.sendPack data item next)) := by
  by_cases hopen : sender.pc = .openFile
  · simp only [Session.observe, hopen]
    exact .openFile _ _ _ _ _ hopen (answer_openFile hopen h)
  · have hobserve : session.observe (.sendPack data item sender) reply list (.sendPack data item next) =
        { session with transfer := session.transfer.answer sender reply } := by
      simp only [Session.observe]
    rw [hobserve]
    exact .transfer _ _ _ _ _ _ _ hopen h

theorem calls_of_step {order : Endian} {manager manager' : SpeedManger} {packT : Int}
    {list list' : SendList} {thread thread' : Thread} {reply : Reply} (session : Session)
    (h : FileThread.step order manager packT list thread reply = some (manager', list', thread')) :
    thread'.info = thread.info ∧ thread'.cancelRequest = thread.cancelRequest ∧
      Calls order list session thread.pc list' thread'.pc
        (session.observe thread.pc reply list' thread'.pc) := by
  unfold FileThread.step at h
  split at h
  · -- socket
    rename_i hpc
    cases h
    rw [hpc]
    split
    · exact ⟨rfl, rfl, .refused⟩
    · exact ⟨rfl, rfl, .connect⟩
  · -- isIdle
    rename_i hpc
    cases h
    rw [hpc]
    refine ⟨rfl, rfl, .check _ _ (by simp) ?_⟩
    dsimp only
    split <;> simp
  · -- isBusy
    rename_i hpc
    cases h
    rw [hpc]
    refine ⟨rfl, rfl, .check _ _ (by simp) ?_⟩
    dsimp only
    split <;> simp
  · -- isCancel
    rename_i hpc
    cases h
    rw [hpc]
    refine ⟨rfl, rfl, .check _ _ (by simp) ?_⟩
    dsimp only
    split <;> simp
  · -- sleep
    rename_i hpc
    cases h
    rw [hpc]
    exact ⟨rfl, rfl, .awake _⟩
  · -- getNext
    rename_i hpc
    obtain ⟨⟨data, rest⟩, htaken, hpair⟩ := Option.map_eq_some_iff.mp h
    cases hpair
    rw [hpc]
    exact ⟨rfl, rfl, .getNext data _ htaken⟩
  · -- a null pointer
    contradiction
  · -- filename
    rename_i hpc
    obtain ⟨cell, hcell, hpair⟩ := Option.map_eq_some_iff.mp h
    cases hpair
    rw [hpc]
    exact ⟨rfl, rfl, .filename _ cell hcell⟩
  · -- getFileSize
    rename_i hpc
    cases h
    rw [hpc]
    refine ⟨rfl, rfl, ?_⟩
    dsimp only
    split
    · simp only [Session.observe, if_true]
      exact .missing _ _
    · simp only [Session.observe, reduceCtorEq, if_false]
      exact .start _ _ _
  · -- sendPack
    rename_i data item sender hpc
    split at h
    · rename_i ret hfinished
      cases h
      rw [hpc]
      exact ⟨rfl, rfl, calls_returned session data item _ hfinished⟩
    · rename_i hrunning
      obtain ⟨⟨moved, next⟩, hanswer, hpair⟩ := Option.map_eq_some_iff.mp h
      cases hpair
      rw [hpc]
      exact ⟨rfl, rfl, calls_running session data item hrunning hanswer⟩
  · -- unlink
    rename_i hpc
    cases h
    rw [hpc]
    exact ⟨rfl, rfl, .unlink _ _⟩
  · -- delete
    rename_i hpc
    cases h
    rw [hpc]
    exact ⟨rfl, rfl, .delete _⟩
  · -- close
    rename_i hpc
    cases h
    rw [hpc]
    exact ⟨rfl, rfl, .close⟩
  · -- no such reply
    contradiction

theorem Calls.queue {order : Endian} {list list' : SendList} {session session' : Session} {pc pc' : Pc}
    (h : Calls order list session pc list' pc' session') :
    session'.accepted = session.accepted ∧ session'.deletion = session.deletion ∧
      session'.taken = session.taken ++ if pc = .getNext then handedOut list' pc' else [] := by
  cases h with
  | check pc next checks goes =>
    obtain ⟨passed, hcheck⟩ := session.check_eq pc'
    have hpc : pc ≠ .getNext := by
      rintro rfl
      simp at checks
    rw [hcheck, if_neg hpc]
    exact ⟨rfl, rfl, (List.append_nil _).symm⟩
  | _ => simp

/-- A thread with its app, which is in the list of apps or has been deleted. -/
structure View where
  app : AppInfo
  listed : Bool
  thread : Thread
  session : Session

def View.delApp (view : View) (opt : Int) : View where
  app := if opt = delLastOne ∨ opt = delLater then Registry.cancelled view.app else view.app
  listed := false
  thread := if opt = delNow then { view.thread with cancelRequest := true } else view.thread
  session := view.session.delete opt

/-- What the management thread and the thread itself can do. -/
inductive Moves (order : Endian) (view : View) : View → Prop where
  | appendFile (filename : Bytes) (delect : Bool) (memory : Addr) (ret : Int) (list : SendList)
      (listed : view.listed = true) (free : view.app.listC.heap memory = none)
      (appended : SendList.appendFile view.app.listC filename delect memory = some (ret, list)) :
      Moves order view { view with
        app := withList list view.app
        session := if ret = eOk then view.session.accept ⟨filename, delect⟩ else view.session }
  | delApp (opt : Int) (listed : view.listed = true) : Moves order view (view.delApp opt)
  | call (manager manager' : SpeedManger) (reply : Reply) (list : SendList) (thread : Thread)
      (undisturbed : ¬(view.thread.cancelRequest ∧ mustCancel view.thread.pc))
      (called : FileThread.step order manager view.app.packT view.app.listC view.thread reply =
        some (manager', list, thread)) :
      Moves order view { view with
        app := withList list view.app
        thread := thread
        session := view.session.observe view.thread.pc reply list thread.pc }
  | cancel (requested : view.thread.cancelRequest) :
      Moves order view { view with
        thread := { view.thread with pc := .cancelled }
        session := view.session.finish (working view.app.listC view.thread.pc) false true }

/-- An invariant of a thread with its app. -/
structure Closed (order : Endian) (P : View → Prop) : Prop where
  start : ∀ app info maxCount delectFile, app.listC = { SendList.new with maxCount := maxCount } →
    P ⟨app, true, created info, .start delectFile⟩
  move : ∀ view next, P view → Moves order view next → P next

/-- `sessions` is history, one for each thread. -/
structure State where
  client : Client
  sessions : List Session

def start : State where
  client := ProxyClient.new
  sessions := []

/-- `delApp` is a call of the method, which the protocol only makes with `DEL_NOW`. -/
inductive Action where
  | request (world : World) (input : Bytes)
  | delApp (appName : Bytes) (opt : Int)
  | call (tid : Nat) (reply : Reply)
  | cancel (tid : Nat)

/-- The branch of `RequestHandler` that a chunk comes to, with its parsed message. -/
def requested (input : Bytes) : Option (ClientCommand × Section) :=
  if Manager.wellFormed input then
    match Manager.parts (input ++ [0]) with
    | some (cmdType, some msg) =>
        ([.register, .addFile, .delect].find? fun command => command.cmdType = cmdType).map
          fun command => (command, confPraseLine (cstr msg) (ascii ","))
    | _ => none
  else none

/-- The thread of the app with the name. -/
def tidOf (client : Client) (appName : Bytes) : Option Nat :=
  ((follow client.heap client.nodes client.applist).find? fun node => node.2.appName = appName).bind
    fun node => node.2.tid

namespace State

/-- A change of the history of one app. -/
def change (state : State) (appName : Bytes) (change : Session → Session) : List Session :=
  match tidOf state.client appName with
  | none => state.sessions
  | some tid => state.sessions.modify tid change

/-- What a command that is answered with `E_OK` adds to the history. -/
def record (state : State) (helper : Section) : ClientCommand → List Session
  | .register => state.sessions ++ [.start (confGetBool helper (ascii "delect_file"))]
  | .addFile =>
      state.change (confGetString helper (ascii "app_name")) fun session =>
        session.accept ⟨confGetString helper (ascii "file_name"), confGetBool helper (ascii "delect")⟩
  | .delect =>
      state.change (confGetString helper (ascii "app_name")) fun session => session.delete delNow

/-- The history after a request that left the client `next` behind. -/
def answered (state : State) (input reply : Bytes) : List Session :=
  match requested input with
  | none => state.sessions
  | some (command, helper) =>
      if reply = [UInt8.ofInt eOk, 0] then state.record helper command else state.sessions

/-- The history after a call of a thread that left the client `next` behind. -/
def observed (state : State) (tid : Nat) (reply : Reply) (next : Client) : List Session :=
  match state.client.threads[tid]?, next.threads[tid]?, Registry.listOf next tid with
  | some thread, some thread', some list =>
      state.sessions.modify tid fun session => session.observe thread.pc reply list thread'.pc
  | _, _, _ => state.sessions

/-- The history after a thread was cancelled. -/
def interrupted (state : State) (tid : Nat) : List Session :=
  match state.client.threads[tid]?, Registry.listOf state.client tid with
  | some thread, some list =>
      state.sessions.modify tid fun session => session.finish (working list thread.pc) false true
  | _, _ => state.sessions

end State

def step (order : Endian) (conf : Section) (state : State) (action : Action) : Option State :=
  if Bandwidth.crashed state.client then none
  else
    match action with
    | .request world input =>
        (handlerMsgC conf world state.client input).map fun (reply, next) =>
          ⟨next, state.answered input reply⟩
    | .delApp appName opt =>
        (ProxyClient.delApp state.client appName opt).map fun (ret, next) =>
          ⟨next, if ret = eOk then state.change appName fun session => session.delete opt
            else state.sessions⟩
    | .call tid reply =>
        (Bandwidth.stepCall order state.client tid reply).map fun next =>
          ⟨next, state.observed tid reply next⟩
    | .cancel tid =>
        (Bandwidth.stepCancel state.client tid).map fun next => ⟨next, state.interrupted tid⟩

/-- Each thread has an app and a history, with the invariant `P`; `nodes` are the apps
in the list. -/
structure Tidy (P : View → Prop) (state : State) (nodes : List (Addr × AppInfo)) : Prop where
  listed : Listed state.client nodes
  names : (nodes.map fun node => node.2.appName).Nodup
  tids : ∀ node ∈ nodes, ∃ tid, node.2.tid = some tid ∧ (infos state.client)[tid]? = some node.1
  apart : (infos state.client).Nodup
  sessions : state.sessions.length = state.client.threads.length
  views : ∀ (tid : Nat) (thread : Thread) (session : Session),
    state.client.threads[tid]? = some thread → state.sessions[tid]? = some session →
    ∃ app, valueAt state.client.heap thread.info = some app ∧
      P ⟨app, thread.info ∈ nodes.map Prod.fst, thread, session⟩

section
variable {order : Endian} {conf : Section} {P : View → Prop} {state next : State}
  {nodes nodes' front back : List (Addr × AppInfo)} {tid : Nat} {thread : Thread} {session : Session}
  {app : AppInfo} {addr memory : Addr}

theorem tidy_start : Tidy P start [] where
  listed := ⟨rfl, le_rfl⟩
  names := List.nodup_nil
  tids := by simp
  apart := List.nodup_nil
  sessions := rfl
  views := by simp [start, ProxyClient.new]

theorem Tidy.history (h : Tidy P state nodes) (hthread : state.client.threads[tid]? = some thread) :
    ∃ session, state.sessions[tid]? = some session := by
  have hlt := (List.getElem?_eq_some_iff.mp hthread).1
  rw [← h.sessions] at hlt
  exact ⟨_, List.getElem?_eq_getElem hlt⟩

theorem infos_getElem? (client : Client) (tid : Nat) :
    (infos client)[tid]? = client.threads[tid]?.map Thread.info := by
  rw [infos, List.getElem?_map]

theorem Tidy.own (h : Tidy P state nodes) {other : Nat} {thread' : Thread}
    (hthread : state.client.threads[tid]? = some thread)
    (hother : state.client.threads[other]? = some thread') (hinfo : thread'.info = thread.info) :
    other = tid := by
  have hleft : (infos state.client)[tid]? = some thread.info := by
    rw [infos_getElem?, hthread, Option.map_some]
  have hright : (infos state.client)[other]? = some thread.info := by
    rw [infos_getElem?, hother, Option.map_some, hinfo]
  have hlt := (List.getElem?_eq_some_iff.mp hright).1
  exact (List.getElem?_inj hlt h.apart).mp (hright.trans hleft.symm)

theorem set_of_getElem? {α : Type*} {list : List α} {index : Nat} {value : α}
    (h : list[index]? = some value) : list.set index value = list := by
  obtain ⟨hlt, rfl⟩ := List.getElem?_eq_some_iff.mp h
  exact List.set_getElem_self hlt

theorem modify_of_getElem? {α : Type*} {list : List α} {index : Nat} {value : α}
    (h : list[index]? = some value) (change : α → α) :
    list.modify index change = list.set index (change value) := by
  rw [List.modify_eq_set_getElem?, h]
  rfl

theorem infos_set {client : Client} {thread' : Thread} (hthread : client.threads[tid]? = some thread)
    (hinfo : thread'.info = thread.info) :
    (client.threads.set tid thread').map Thread.info = infos client := by
  rw [List.map_set, hinfo]
  exact set_of_getElem? (by rw [List.getElem?_map, hthread, Option.map_some])

theorem Tidy.notMem_infos (h : Tidy P state nodes) (hfree : state.client.heap memory = none) :
    memory ∉ infos state.client := by
  intro hmem
  obtain ⟨thread, hthread, hinfo⟩ := List.mem_map.mp hmem
  obtain ⟨tid, htid⟩ := List.mem_iff_getElem?.mp hthread
  obtain ⟨session, hsession⟩ := h.history htid
  obtain ⟨app, happ, -⟩ := h.views tid thread session htid hsession
  simp [hinfo, LinkedList.valueAt, hfree] at happ

theorem Tidy.focus (h : Tidy P state nodes) (hthread : state.client.threads[tid]? = some thread)
    (thread' : Thread) {session' : Session} {app' : AppInfo} (hlisted : Listed next.client nodes')
    (hnames : (nodes'.map fun node => node.2.appName).Nodup)
    (htids : ∀ node ∈ nodes', ∃ old ∈ nodes, node.1 = old.1 ∧ node.2.tid = old.2.tid)
    (hthreads : next.client.threads = state.client.threads.set tid thread')
    (hinfo : thread'.info = thread.info) (hsessions : next.sessions = state.sessions.set tid session')
    (happ : valueAt next.client.heap thread.info = some app')
    (hothers : ∀ info, info ≠ thread.info →
      valueAt next.client.heap info = valueAt state.client.heap info ∧
        (info ∈ nodes'.map Prod.fst ↔ info ∈ nodes.map Prod.fst))
    (hP : P ⟨app', thread.info ∈ nodes'.map Prod.fst, thread', session'⟩) : Tidy P next nodes' := by
  have hlt := (List.getElem?_eq_some_iff.mp hthread).1
  have hinfos : infos next.client = infos state.client := by
    rw [infos, hthreads, infos_set hthread hinfo]
  constructor
  · exact hlisted
  · exact hnames
  · intro node hnode
    obtain ⟨old, hold, hfst, htid⟩ := htids node hnode
    rw [hinfos, hfst, htid]
    exact h.tids old hold
  · rw [hinfos]
    exact h.apart
  · rw [hsessions, hthreads, List.length_set, List.length_set]
    exact h.sessions
  · intro other thread'' session'' hother hsession
    rw [hthreads] at hother
    rw [hsessions] at hsession
    by_cases heq : other = tid
    · subst heq
      rw [List.getElem?_set_self hlt] at hother
      rw [List.getElem?_set_self (by rw [h.sessions]; exact hlt)] at hsession
      obtain rfl := Option.some.inj hother
      obtain rfl := Option.some.inj hsession
      rw [hinfo]
      exact ⟨app', happ, hP⟩
    · rw [List.getElem?_set_ne (Ne.symm heq)] at hother hsession
      obtain ⟨app'', happ'', hP''⟩ := h.views other thread'' session'' hother hsession
      have hne : thread''.info ≠ thread.info := fun hsame => heq (h.own hthread hother hsame)
      obtain ⟨hvalue, hmem⟩ := hothers thread''.info hne
      refine ⟨app'', hvalue.trans happ'', ?_⟩
      simpa only [hmem] using hP''

theorem Tidy.keep (h : Tidy P state nodes) (hlisted : Listed next.client nodes)
    (hthreads : next.client.threads = state.client.threads) (hsessions : next.sessions = state.sessions)
    (hheap : ∀ info ∈ infos state.client,
      valueAt next.client.heap info = valueAt state.client.heap info) : Tidy P next nodes := by
  have hinfos : infos next.client = infos state.client := by rw [infos, infos, hthreads]
  constructor
  · exact hlisted
  · exact h.names
  · rw [hinfos]
    exact h.tids
  · rw [hinfos]
    exact h.apart
  · rw [hthreads, hsessions]
    exact h.sessions
  · rw [hthreads, hsessions]
    intro tid thread session hthread hsession
    obtain ⟨app, happ, hP⟩ := h.views tid thread session hthread hsession
    have hmem : thread.info ∈ infos state.client := List.mem_map_of_mem (List.mem_of_getElem? hthread)
    exact ⟨app, (hheap thread.info hmem).trans happ, hP⟩

theorem Tidy.store (h : Tidy P state nodes) (hthread : state.client.threads[tid]? = some thread)
    (thread' : Thread) {session' : Session} (change : AppInfo → AppInfo)
    (happ : valueAt state.client.heap thread.info = some app)
    (hname : (change app).appName = app.appName) (htid : (change app).tid = app.tid)
    (hinfo : thread'.info = thread.info) (speed : SpeedManger)
    (hP : P ⟨change app, thread.info ∈ nodes.map Prod.fst, thread', session'⟩) :
    Tidy P ⟨{ state.client with
        heap := setValue state.client.heap thread.info change
        threads := state.client.threads.set tid thread'
        speed := speed }, state.sessions.set tid session'⟩
      (renew nodes thread.info (change app)) := by
  have hnode : ∀ node ∈ nodes, node.1 = thread.info → node.2 = app := by
    intro node hnode heq
    exact Option.some.inj ((heq ▸ h.listed.chain.valueAt hnode).symm.trans happ)
  refine h.focus hthread thread' ⟨Registry.chain_setValue h.listed.chain happ, ?_⟩ ?_ ?_ rfl hinfo rfl
    (Registry.valueAt_setValue_self happ) ?_ ?_
  · rw [renew, List.length_map]
    exact h.listed.bound
  · rw [Registry.renew_map]
    · exact h.names
    · intro node hmem heq
      rw [hnode node hmem heq, hname]
  · intro node hmem
    obtain ⟨old, hold, rfl⟩ := List.mem_map.mp hmem
    refine ⟨old, hold, ?_⟩
    split
    · rename_i heq
      rw [hnode old hold heq]
      exact ⟨heq.symm, htid⟩
    · exact ⟨rfl, rfl⟩
  · intro info hne
    rw [Registry.renew_fst]
    exact ⟨Registry.valueAt_setValue_of_ne hne, Iff.rfl⟩
  · rw [Registry.renew_fst]
    exact hP

theorem stepCall_eq {reply : Reply} {client next : Client}
    (hstep : Bandwidth.stepCall order client tid reply = some next) :
    ∃ thread app speed list thread', client.threads[tid]? = some thread ∧
      ¬(thread.cancelRequest ∧ mustCancel thread.pc) ∧ valueAt client.heap thread.info = some app ∧
      FileThread.step order client.speed app.packT app.listC thread reply =
        some (speed, list, thread') ∧
      next = { client with
        heap := setValue client.heap thread.info (withList list)
        threads := client.threads.set tid thread'
        speed := speed } := by
  unfold Bandwidth.stepCall at hstep
  split at hstep
  · contradiction
  rename_i thread hthread
  split at hstep
  · contradiction
  rename_i hundisturbed
  split at hstep
  · contradiction
  rename_i cell hcell
  obtain ⟨⟨speed, list, thread'⟩, hcalled, rfl⟩ := Option.map_eq_some_iff.mp hstep
  have happ : valueAt client.heap thread.info = some cell.value := by
    rw [LinkedList.valueAt, hcell, Option.map_some]
  exact ⟨thread, cell.value, speed, list, thread', hthread, hundisturbed, happ, hcalled, rfl⟩

theorem Tidy.call (closed : Closed order P) (h : Tidy P state nodes) {reply : Reply} {client : Client}
    (hstep : Bandwidth.stepCall order state.client tid reply = some client) :
    ∃ nodes', Tidy P ⟨client, state.observed tid reply client⟩ nodes' := by
  obtain ⟨thread, app, speed, list, thread', hthread, hundisturbed, happ, hcalled, rfl⟩ :=
    stepCall_eq hstep
  obtain ⟨session, hsession⟩ := h.history hthread
  obtain ⟨app', happ', hP⟩ := h.views tid thread session hthread hsession
  obtain rfl := Option.some.inj (happ.symm.trans happ')
  have hinfo := (calls_of_step session hcalled).1
  have hlt := (List.getElem?_eq_some_iff.mp hthread).1
  have hnext : (state.client.threads.set tid thread')[tid]? = some thread' := List.getElem?_set_self hlt
  have hlist : Registry.listOf { state.client with
      heap := setValue state.client.heap thread.info (withList list)
      threads := state.client.threads.set tid thread'
      speed := speed } tid = some list := by
    have hstored : valueAt (setValue state.client.heap thread.info (withList list)) thread.info =
        some (withList list app) := Registry.valueAt_setValue_self happ
    refine (Registry.listOf_eq ?_ hstored).trans rfl
    rw [infos_getElem?, hnext, Option.map_some, hinfo]
  have hobserved : state.observed tid reply { state.client with
      heap := setValue state.client.heap thread.info (withList list)
      threads := state.client.threads.set tid thread'
      speed := speed } =
      state.sessions.set tid (session.observe thread.pc reply list thread'.pc) := by
    simp only [State.observed, hthread, hnext, hlist]
    exact modify_of_getElem? hsession _
  rw [hobserved]
  refine ⟨_, h.store hthread thread' (withList list) happ rfl rfl hinfo speed ?_⟩
  exact closed.move _ _ hP (.call _ _ reply list thread' hundisturbed hcalled)

theorem Tidy.cancel (closed : Closed order P) (h : Tidy P state nodes) {client : Client}
    (hstep : Bandwidth.stepCancel state.client tid = some client) :
    Tidy P ⟨client, state.interrupted tid⟩ nodes := by
  unfold Bandwidth.stepCancel at hstep
  split at hstep
  · contradiction
  rename_i thread hthread
  split at hstep
  · rename_i hdue
    cases hstep
    obtain ⟨session, hsession⟩ := h.history hthread
    obtain ⟨app, happ, hP⟩ := h.views tid thread session hthread hsession
    have hinfo : (infos state.client)[tid]? = some thread.info := by
      rw [infos_getElem?, hthread, Option.map_some]
    have hinterrupted : state.interrupted tid =
        state.sessions.set tid (session.finish (working app.listC thread.pc) false true) := by
      simp only [State.interrupted, hthread, Registry.listOf_eq hinfo happ]
      exact modify_of_getElem? hsession _
    rw [hinterrupted]
    refine h.focus hthread { thread with pc := .cancelled } ⟨h.listed.chain, h.listed.bound⟩ h.names
       (fun node hnode => ⟨node, hnode, rfl, rfl⟩) rfl rfl rfl happ
      (fun _ _ => ⟨rfl, Iff.rfl⟩) ?_
    exact closed.move _ _ hP (.cancel hdue.1)
  · contradiction

theorem Tidy.change_eq (h : Tidy P state nodes) (hmem : (addr, app) ∈ nodes) (htid : app.tid = some tid)
    (hsession : state.sessions[tid]? = some session) (change : Session → Session) :
    state.change app.appName change = state.sessions.set tid (change session) := by
  have hfind : nodes.find? (fun node => node.2.appName = app.appName) = some (addr, app) := by
    obtain ⟨node, hnode⟩ :
        ∃ node, nodes.find? (fun node => node.2.appName = app.appName) = some node := by
      rw [← Option.isSome_iff_exists, List.find?_isSome]
      exact ⟨(addr, app), hmem, by simp⟩
    have hname : node.2.appName = app.appName := by simpa using List.find?_some hnode
    have hsame := List.inj_on_of_nodup_map h.names (List.mem_of_find?_eq_some hnode) hmem hname
    rw [hnode, hsame]
  have htidOf : tidOf state.client app.appName = some tid := by
    rw [tidOf, h.listed.chain.follow_eq h.listed.bound, hfind, Option.bind_some, htid]
  simp only [State.change, htidOf]
  exact modify_of_getElem? hsession change

theorem Tidy.view (h : Tidy P state nodes) (hmem : (addr, app) ∈ nodes) :
    ∃ tid thread session, app.tid = some tid ∧ state.client.threads[tid]? = some thread ∧
      thread.info = addr ∧ state.sessions[tid]? = some session ∧ P ⟨app, true, thread, session⟩ := by
  obtain ⟨tid, htid, hinfo⟩ := h.tids _ hmem
  rw [infos_getElem?] at hinfo
  obtain ⟨thread, hthread, rfl⟩ := Option.map_eq_some_iff.mp hinfo
  obtain ⟨session, hsession⟩ := h.history hthread
  obtain ⟨app', happ', hP⟩ := h.views tid thread session hthread hsession
  obtain rfl := Option.some.inj ((h.listed.chain.valueAt hmem).symm.trans happ')
  have hlisted : thread.info ∈ nodes.map Prod.fst := List.mem_map_of_mem hmem
  rw [decide_eq_true hlisted] at hP
  exact ⟨tid, thread, session, htid, hthread, rfl, hsession, hP⟩

theorem stopThread_threads {client : Client} (hthread : client.threads[tid]? = some thread) (opt : Int)
    (addr : Addr) : (Registry.stopThread client opt tid addr).threads =
      client.threads.set tid
        (if opt = delNow then { thread with cancelRequest := true } else thread) := by
  unfold Registry.stopThread
  split
  · exact modify_of_getElem? hthread _
  · rw [set_of_getElem? hthread]
    split <;> rfl

theorem stopThread_value {client : Client} (happ : valueAt client.heap addr = some app) (opt : Int) :
    valueAt (Registry.stopThread client opt tid addr).heap addr =
      some (if opt = delLastOne ∨ opt = delLater then Registry.cancelled app else app) := by
  unfold Registry.stopThread
  split
  · rename_i hnow
    rw [if_neg (by rw [hnow]; decide)]
    exact happ
  split
  · exact Registry.valueAt_setValue_self happ
  · exact happ

theorem stopThread_others {client : Client} {other : Addr} (hne : other ≠ addr) (opt : Int)
    (tid : Nat) :
    valueAt (Registry.stopThread client opt tid addr).heap other = valueAt client.heap other := by
  unfold Registry.stopThread
  split
  · rfl
  split
  · exact Registry.valueAt_setValue_of_ne hne
  · rfl

theorem stopThread_listed {client : Client} (h : Listed client nodes) (hnot : addr ∉ nodes.map Prod.fst)
    (opt : Int) (tid : Nat) : Listed (Registry.stopThread client opt tid addr) nodes := by
  unfold Registry.stopThread
  split
  · exact ⟨h.chain, h.bound⟩
  split
  · exact ⟨h.chain.update_of_notMem hnot _, h.bound⟩
  · exact h

theorem Tidy.delApp_found (closed : Closed order P) (h : Tidy P state (front ++ (addr, app) :: back))
    (opt : Int) : ∃ client, ProxyClient.delApp state.client app.appName opt = some (eOk, client) ∧
      Tidy P ⟨client, state.change app.appName fun session => session.delete opt⟩ (front ++ back) := by
  have hmem : (addr, app) ∈ front ++ (addr, app) :: back :=
    List.mem_append_right front List.mem_cons_self
  obtain ⟨tid, thread, session, htid, hthread, rfl, hsession, hP⟩ := h.view hmem
  have hsub : (front ++ back).Sublist (front ++ (thread.info, app) :: back) :=
    List.Sublist.append_left (List.sublist_cons_self _ back) front
  have hnames := h.names
  rw [(List.perm_middle.map _).nodup_iff, List.map_cons, List.nodup_cons] at hnames
  have hfront : ∀ node ∈ front, node.2.appName ≠ app.appName := by
    intro node hnode heq
    apply hnames.1
    rw [← heq]
    exact List.mem_map_of_mem (List.mem_append_left back hnode)
  obtain ⟨first, per, link, hfirst, hloop, hchain, hheap, hnodes, hthreads⟩ :=
    Registry.unlinkApp_found h.listed.chain h.listed.bound hfront
  have hnot := h.listed.chain.notMem_rest
  have hlisted : Listed (Registry.unlinkApp state.client per link thread.info) (front ++ back) :=
    ⟨hchain, by rw [hnodes]; exact le_trans hsub.length_le h.listed.bound⟩
  have happ : valueAt (Registry.unlinkApp state.client per link thread.info).heap thread.info =
      some app := by
    rw [hheap]
    exact h.listed.chain.valueAt hmem
  rw [Registry.delApp_found hfirst hloop htid, h.change_eq hmem htid hsession]
  refine ⟨_, rfl, h.focus hthread
    (if opt = delNow then { thread with cancelRequest := true } else thread)
    (stopThread_listed hlisted hnot opt tid) hnames.2
    (fun node hnode => ⟨node, hsub.subset hnode, rfl, rfl⟩) ?_ ?_ rfl (stopThread_value happ opt) ?_ ?_⟩
  · rw [stopThread_threads (hthreads ▸ hthread), hthreads]
  · split <;> rfl
  · intro info hne
    rw [stopThread_others hne, hheap]
    refine ⟨rfl, ?_⟩
    simp [hne]
  · rw [decide_eq_false hnot]
    exact closed.move _ _ hP (.delApp opt rfl)

theorem Tidy.delApp (closed : Closed order P) (h : Tidy P state nodes) {appName : Bytes} {opt ret : Int}
    {client : Client} (hdel : ProxyClient.delApp state.client appName opt = some (ret, client)) :
    ∃ nodes', Tidy P ⟨client, if ret = eOk then state.change appName fun session => session.delete opt
      else state.sessions⟩ nodes' := by
  by_cases habsent : ∀ node ∈ nodes, node.2.appName ≠ appName
  · have hnone : ProxyClient.delApp state.client appName opt = some (eNotfound, state.client) := by
      rw [ProxyClient.delApp]
      cases hfirst : state.client.applist with
      | none => rfl
      | some first =>
        dsimp only
        rw [Registry.delAppLoop_absent (hfirst ▸ h.listed.chain) h.listed.bound habsent]
    cases hdel.symm.trans hnone
    exact ⟨nodes, h.keep h.listed rfl rfl fun _ _ => rfl⟩
  · obtain ⟨⟨addr, app⟩, hnode, rfl⟩ : ∃ node ∈ nodes, node.2.appName = appName := by
      simpa using habsent
    obtain ⟨front, back, rfl⟩ := List.append_of_mem hnode
    obtain ⟨deleted, hfound, htidy⟩ := h.delApp_found closed opt
    cases hdel.symm.trans hfound
    exact ⟨_, htidy⟩

theorem Tidy.addSendFile (closed : Closed order P) (h : Tidy P state nodes)
    {appName filename : Bytes} {delect : Bool} {ret : Int} {client : Client}
    (hadd : ProxyClient.addSendFile state.client appName filename delect memory = some (ret, client)) :
    ∃ nodes', Tidy P ⟨client, if ret = eOk then
      state.change appName fun session => session.accept ⟨filename, delect⟩ else state.sessions⟩ nodes' := by
  have hsame : Tidy P ⟨state.client, state.sessions⟩ nodes := h
  cases hfirst : state.client.applist with
  | none =>
    rw [ProxyClient.addSendFile, hfirst] at hadd
    cases hadd
    exact ⟨nodes, hsame⟩
  | some first =>
    obtain ⟨addr, app, link, hloop, hmem, -⟩ :=
      Registry.addSendFileLoop_eq appName (hfirst ▸ h.listed.chain) h.listed.bound
    simp only [ProxyClient.addSendFile, hfirst, hloop] at hadd
    split at hadd
    · rename_i hname
      subst hname
      split at hadd
      · contradiction
      rename_i hmemory
      obtain ⟨⟨code, list⟩, happended, hpair⟩ := Option.map_eq_some_iff.mp hadd
      cases hpair
      obtain ⟨tid, thread, session, htid, hthread, rfl, hsession, hP⟩ := h.view hmem
      have hfree : app.listC.heap memory = none := by simpa using hmemory
      have hcode : (if code ≠ eOk then eFull else eOk) = eOk ↔ code = eOk := by
        by_cases hok : code = eOk
        · simp [hok]
        · rw [if_pos hok]
          exact iff_of_false (by decide) hok
      have hlisted : thread.info ∈ nodes.map Prod.fst := List.mem_map_of_mem hmem
      have hmoved :=
        closed.move _ _ hP (.appendFile filename delect memory code list rfl hfree happended)
      have hstored := h.store hthread thread (withList list)
        (h.listed.chain.valueAt hmem) rfl rfl rfl state.client.speed
        (by rw [decide_eq_true hlisted]; exact hmoved)
      dsimp only at hstored
      rw [set_of_getElem? hthread, hfirst] at hstored
      refine ⟨renew nodes thread.info (withList list app), ?_⟩
      simp only [hcode, h.change_eq hmem htid hsession]
      split
      · rename_i hok
        rw [if_pos hok] at hstored
        exact hstored
      · rename_i hfull
        rw [if_neg hfull, set_of_getElem? hsession] at hstored
        exact hstored
    · cases hadd
      exact ⟨nodes, hsame⟩

theorem startThread_frame {client next : Client} {info : Addr} {tmp : Option Addr} {created : Bool}
    {ret : Int} (hstart : startThread client info tmp created = some (ret, next)) :
    (ret = eOk ∨ ret = eExist ∨ ret = eThread) ∧ next.nodes = client.nodes ∧
      (∀ other, other ≠ info → valueAt next.heap other = valueAt client.heap other) ∧
      next.threads = client.threads ++ if ret = eOk then [FileThread.created info] else [] := by
  unfold startThread at hstart
  dsimp only at hstart
  split at hstart
  · cases hstart
    refine ⟨.inl rfl, rfl, ?_, rfl⟩
    intro other hne
    dsimp only
    rw [Registry.valueAt_setValue_of_ne hne, Registry.valueAt_setNext]
  · obtain ⟨last, -, hpair⟩ := Option.map_eq_some_iff.mp hstart
    cases hpair
    refine ⟨.inr (.inr rfl), rfl, ?_, (List.append_nil _).symm⟩
    intro other hne
    dsimp only
    rw [LinkedList.valueAt, Function.update_of_ne hne, ← LinkedList.valueAt, Registry.valueAt_setNext,
      Registry.valueAt_setNext]

theorem addApp_frame {client next : Client} {info : Addr} {created : Bool} {ret : Int}
    (hadd : ProxyClient.addApp client info created = some (ret, next)) :
    (ret = eOk ∨ ret = eExist ∨ ret = eThread) ∧ next.nodes = client.nodes ∧
      (∀ other, other ≠ info → valueAt next.heap other = valueAt client.heap other) ∧
      next.threads = client.threads ++ if ret = eOk then [FileThread.created info] else [] := by
  unfold ProxyClient.addApp at hadd
  split at hadd
  · contradiction
  split at hadd
  · have hstarted := startThread_frame hadd
    exact hstarted
  split at hadd
  · contradiction
  · cases hadd
    exact ⟨.inr (.inl rfl), rfl, fun _ _ => rfl, (List.append_nil _).symm⟩
  · obtain ⟨hcode, hnodes, hheap, hthreads⟩ := startThread_frame hadd
    refine ⟨hcode, hnodes, ?_, hthreads⟩
    intro other hne
    rw [hheap other hne]
    exact Registry.valueAt_setNext _ _ _ _

theorem addApp_added {client next : Client} (h : Listed client nodes) {link : Option Addr} {ret : Int}
    {created : Bool} (hnew : client.heap addr = some ⟨app, link⟩) (hnot : addr ∉ nodes.map Prod.fst)
    (hadd : ProxyClient.addApp client addr created = some (ret, next)) :
    Adding.Added client nodes addr app ret next := by
  rcases List.eq_nil_or_concat' nodes with rfl | ⟨front, last, rfl⟩
  · have hcreated : created = true := by
      simpa [hadd] using Adding.addApp_isSome_iff h hnew hnot created
    obtain ⟨ret', next', hadd', hadded⟩ := (Adding.adds_empty h hnew created).mpr hcreated
    cases hadd.symm.trans hadd'
    exact hadded
  · obtain ⟨ret', next', hadd', hadded⟩ := Adding.adds_nonempty h hnew hnot created
    cases hadd.symm.trans hadd'
    exact hadded

theorem Tidy.link (closed : Closed order P) (h : Tidy P state nodes) {client : Client}
    (hlisted : Listed client (nodes ++ [(addr, app)]))
    (hthreads : client.threads = state.client.threads ++ [FileThread.created addr])
    (hheap : ∀ info ∈ infos state.client, valueAt client.heap info = valueAt state.client.heap info)
    (habsent : app.appName ∉ nodes.map fun node => node.2.appName) (hnot : addr ∉ infos state.client)
    (htid : app.tid = some state.client.threads.length) {maxCount : Int}
    (hlist : app.listC = { SendList.new with maxCount := maxCount }) (delectFile : Bool) :
    Tidy P ⟨client, state.sessions ++ [.start delectFile]⟩ (nodes ++ [(addr, app)]) := by
  have hinfos : infos client = infos state.client ++ [addr] := by
    rw [infos, hthreads, List.map_append]
    rfl
  have hlength : (infos state.client).length = state.client.threads.length := by
    rw [infos, List.length_map]
  constructor
  · exact hlisted
  · rw [List.map_append, List.nodup_append_comm]
    exact List.nodup_cons.mpr ⟨habsent, h.names⟩
  · rw [hinfos]
    exact tids_append h.tids (hlength.symm ▸ htid)
  · rw [hinfos, List.nodup_append_comm]
    exact List.nodup_cons.mpr ⟨hnot, h.apart⟩
  · rw [hthreads, List.length_append, List.length_append, h.sessions]
    rfl
  · intro tid thread session hthread hsession
    rw [hthreads, List.getElem?_append] at hthread
    rw [List.getElem?_append, h.sessions] at hsession
    split at hthread
    · rename_i hlt
      have hlt : tid < state.client.threads.length := hlt
      rw [if_pos hlt] at hsession
      obtain ⟨other, hother, hP⟩ := h.views tid thread session hthread hsession
      have hmem : thread.info ∈ infos state.client :=
        List.mem_map_of_mem (List.mem_of_getElem? hthread)
      have hne : thread.info ≠ addr := by
        rintro rfl
        exact hnot hmem
      have hlast : thread.info ∈ (nodes ++ [(addr, app)]).map Prod.fst ↔
          thread.info ∈ nodes.map Prod.fst := by simp [hne]
      refine ⟨other, (hheap _ hmem).trans hother, ?_⟩
      simpa only [hlast] using hP
    · rename_i hge
      have hge : ¬tid < state.client.threads.length := hge
      rw [if_neg hge] at hsession
      rw [List.getElem?_singleton] at hthread hsession
      split at hthread
      · rename_i hzero
        have hzero : tid - state.client.threads.length = 0 := hzero
        rw [if_pos hzero] at hsession
        cases hthread
        cases hsession
        have hmem : (addr, app) ∈ nodes ++ [(addr, app)] := by simp
        have hlast : addr ∈ (nodes ++ [(addr, app)]).map Prod.fst := List.mem_map_of_mem hmem
        refine ⟨app, hlisted.chain.valueAt hmem, ?_⟩
        have hstart : P ⟨app, true, FileThread.created addr, .start delectFile⟩ :=
          closed.start _ addr maxCount delectFile hlist
        rw [← decide_eq_true hlast] at hstart
        exact hstart
      · contradiction

theorem Tidy.addApp (closed : Closed order P) (h : Tidy P state nodes) {newApp : AppInfo}
    {maxCount : Int} (hlist : newApp.listC = { SendList.new with maxCount := maxCount })
    (hfree : state.client.heap memory = none) {created : Bool} {ret : Int} {client : Client}
    (hadd : ProxyClient.addApp (Registry.allocate state.client memory newApp) memory created =
      some (ret, client)) (delectFile : Bool) :
    ∃ nodes', Tidy P ⟨client, if ret = eOk then state.sessions ++ [.start delectFile]
      else state.sessions⟩ nodes' := by
  have hnot := h.listed.chain.notMem_of_free hfree
  have hlisted := h.listed.allocate hfree newApp
  have hadded := addApp_added hlisted (Function.update_self _ _ _) hnot hadd
  obtain ⟨-, hnodes, hheap, hthreads⟩ := addApp_frame hadd
  have hbound : nodes.length + 1 ≤ client.nodes := by
    rw [hnodes]
    exact Nat.succ_le_succ h.listed.bound
  have hown := h.notMem_infos hfree
  have hkept : ∀ info ∈ infos state.client,
      valueAt client.heap info = valueAt state.client.heap info := by
    intro info hinfo
    have hne : info ≠ memory := by
      rintro rfl
      exact hown hinfo
    rw [hheap info hne]
    exact congrArg (Option.map Cell.value) (Function.update_of_ne hne _ _)
  split
  · rename_i hok
    rw [if_pos hok] at hthreads
    have habsent := ((Adding.addApp_eOk_iff hlisted (Function.update_self _ _ _) hadd).mp hok).1
    exact ⟨_, h.link closed ⟨hadded.added hok, by simpa using hbound⟩ hthreads hkept habsent hown rfl
      hlist delectFile⟩
  · rename_i hcode
    rw [if_neg hcode, List.append_nil] at hthreads
    have hchain := (hadded.kept (hadded.code.resolve_left hcode)).1
    exact ⟨nodes, h.keep ⟨hchain, by dsimp only; omega⟩ hthreads rfl hkept⟩

theorem request_cases {world : World} {client next : Client} {input reply : Bytes}
    (h : handlerMsgC conf world client input = some (reply, next)) :
    (requested input = none ∧ next = client) ∨
      ∃ command helper ret, requested input = some (command, helper) ∧
        command.branch conf world client helper = some (ret, next) ∧ reply = [UInt8.ofInt ret, 0] := by
  unfold handlerMsgC Manager.handlerMsgC at h
  split at h
  · contradiction
  split at h
  · rename_i hformat
    obtain ⟨⟨ret, handled⟩, hhandled, hpair⟩ := Option.map_eq_some_iff.mp h
    cases hpair
    rw [requested, if_pos hformat]
    cases hparts : Manager.parts (input ++ [0]) with
    | none => simp [requestHandler, hparts] at hhandled
    | some part =>
      obtain ⟨cmdType, body⟩ := part
      cases hfind : [ClientCommand.register, .addFile, .delect].find? fun command =>
          command.cmdType = cmdType with
      | none =>
        have hother : ∀ command : ClientCommand, command.cmdType ≠ cmdType := by
          intro command
          have hne := List.find?_eq_none.mp hfind command (by cases command <;> simp)
          simpa using hne
        rw [ClientCommand.requestHandler_unknown hparts hother] at hhandled
        cases hhandled
        cases body with
        | none => exact .inl ⟨rfl, rfl⟩
        | some msg => exact .inl ⟨by simp only [hfind, Option.map_none], rfl⟩
      | some command =>
        have hcommand : command.cmdType = cmdType := by simpa using List.find?_some hfind
        subst hcommand
        cases body with
        | none =>
          rw [command.requestHandler_null hparts] at hhandled
          contradiction
        | some msg =>
          rw [command.requestHandler_eq hparts] at hhandled
          exact .inr ⟨command, _, ret, by simp only [hfind, Option.map_some], hhandled, rfl⟩
  · rename_i hformat
    cases h
    rw [requested, if_neg hformat]
    exact .inl ⟨rfl, rfl⟩

theorem branch_code {command : ClientCommand} {world : World} {client next : Client} {helper : Section}
    {ret : Int} (h : command.branch conf world client helper = some (ret, next)) :
    ret ∈ [eOk, eExist, eNotfound, eFull, eThread] := by
  cases command with
  | register =>
    rw [ClientCommand.branch] at h
    split at h
    · contradiction
    · rcases (addApp_frame h).1 with rfl | rfl | rfl <;> decide
  | addFile =>
    rw [ClientCommand.branch, addSendFile] at h
    split at h
    · cases h
      decide
    split at h
    · contradiction
    split at h
    · split at h
      · contradiction
      · obtain ⟨appended, -, hpair⟩ := Option.map_eq_some_iff.mp h
        cases hpair
        split <;> decide
    · cases h
      decide
  | delect =>
    rw [ClientCommand.branch, ProxyClient.delApp] at h
    split at h
    · cases h
      decide
    split at h
    · contradiction
    · cases h
      decide
    · obtain ⟨tid, -, hpair⟩ := Option.map_eq_some_iff.mp h
      cases hpair
      decide

theorem branch_reply {command : ClientCommand} {world : World} {client next : Client} {helper : Section}
    {ret : Int} (h : command.branch conf world client helper = some (ret, next)) :
    [UInt8.ofInt ret, 0] = [UInt8.ofInt eOk, 0] ↔ ret = eOk := by
  have hcodes : ∀ code ∈ [eOk, eExist, eNotfound, eFull, eThread],
      UInt8.ofInt code = UInt8.ofInt eOk ↔ code = eOk := by decide
  simp only [List.cons.injEq, and_true, hcodes ret (branch_code h)]

theorem Tidy.request (closed : Closed order P) (h : Tidy P state nodes) {world : World}
    {input reply : Bytes} {client : Client}
    (hrequest : handlerMsgC conf world state.client input = some (reply, client)) :
    ∃ nodes', Tidy P ⟨client, state.answered input reply⟩ nodes' := by
  rcases request_cases hrequest with ⟨hnone, rfl⟩ | ⟨command, helper, ret, hsome, hbranch, rfl⟩
  · rw [State.answered, hnone]
    exact ⟨nodes, h⟩
  · have hanswered : state.answered input [UInt8.ofInt ret, 0] =
        if ret = eOk then state.record helper command else state.sessions := by
      simp only [State.answered, hsome, branch_reply hbranch]
    rw [hanswered]
    cases command with
    | register =>
      rw [ClientCommand.branch] at hbranch
      split at hbranch
      · contradiction
      · rename_i hmemory
        have hfree : state.client.heap world.memory = none := by simpa using hmemory
        exact h.addApp closed rfl hfree hbranch _
    | addFile => exact h.addSendFile closed hbranch
    | delect => exact h.delApp closed hbranch

theorem Tidy.step (closed : Closed order P) (h : Tidy P state nodes) {action : Action}
    (hstep : Sessions.step order conf state action = some next) : ∃ nodes', Tidy P next nodes' := by
  unfold Sessions.step at hstep
  split at hstep
  · contradiction
  cases action with
  | request world input =>
    obtain ⟨⟨reply, client⟩, hrequest, rfl⟩ := Option.map_eq_some_iff.mp hstep
    exact h.request closed hrequest
  | delApp appName opt =>
    obtain ⟨⟨ret, client⟩, hdel, rfl⟩ := Option.map_eq_some_iff.mp hstep
    exact h.delApp closed hdel
  | call tid reply =>
    obtain ⟨client, hcall, rfl⟩ := Option.map_eq_some_iff.mp hstep
    exact h.call closed hcall
  | cancel tid =>
    obtain ⟨client, hcancel, rfl⟩ := Option.map_eq_some_iff.mp hstep
    exact ⟨nodes, h.cancel closed hcancel⟩

/-- An invariant of a thread with its app holds of every thread in every run. -/
theorem tidy_run (closed : Closed order P) {actions : List Action}
    (run : exec (step order conf) start actions = some next) : ∃ nodes, Tidy P next nodes := by
  have hkept : ∀ state action next, (∃ nodes, Tidy P state nodes) →
      Sessions.step order conf state action = some next → ∃ nodes, Tidy P next nodes := by
    rintro state action next ⟨nodes, h⟩ hstep
    exact h.step closed hstep
  exact exec_invariant' hkept ⟨[], tidy_start⟩ run

/-- What the invariant says about each history. -/
theorem Tidy.of_session (h : Tidy P state nodes) (hsession : session ∈ state.sessions) :
    ∃ view, P view ∧ view.session = session := by
  obtain ⟨tid, htid⟩ := List.mem_iff_getElem?.mp hsession
  have hlt := (List.getElem?_eq_some_iff.mp htid).1
  rw [h.sessions] at hlt
  obtain ⟨app, -, hP⟩ := h.views tid _ session (List.getElem?_eq_getElem hlt) htid
  exact ⟨_, hP, rfl⟩

/-- What was accepted and not taken is in the queue that the thread serves. -/
structure Fed (view : View) (cells : List (Addr × SendData)) : Prop where
  serves : Serves view.app.listC view.thread cells
  accepted : view.session.accepted = view.session.taken ++ cells.map Prod.snd

@[simp] theorem View.delApp_pc (view : View) (opt : Int) : (view.delApp opt).thread.pc = view.thread.pc := by
  unfold View.delApp
  dsimp only
  split <;> rfl

@[simp] theorem View.delApp_listC (view : View) (opt : Int) : (view.delApp opt).app.listC = view.app.listC := by
  unfold View.delApp
  dsimp only
  split <;> rfl

theorem Fed.call {view : View} {cells : List (Addr × SendData)} (h : Fed view cells)
    {manager manager' : SpeedManger} {reply : Reply} {list : SendList} {thread : Thread}
    (called : FileThread.step order manager view.app.packT view.app.listC view.thread reply =
      some (manager', list, thread)) :
    ∃ rest, Fed { view with
      app := withList list view.app
      thread := thread
      session := view.session.observe view.thread.pc reply list thread.pc } rest := by
  obtain ⟨-, -, hcalls⟩ := calls_of_step view.session called
  obtain ⟨haccepted, -, htaken⟩ := hcalls.queue
  obtain ⟨-, -, ⟨hpc, hsame⟩ | ⟨data, item, rest, hpc, rfl, hfilename, hitem, hrest⟩⟩ :=
    h.serves.call called
  · refine ⟨cells, hsame, ?_⟩
    dsimp only
    rw [haccepted, htaken, if_neg hpc, List.append_nil]
    exact h.accepted
  · refine ⟨rest, hrest, ?_⟩
    dsimp only
    rw [haccepted, htaken, if_pos hpc, hfilename, handedOut, hitem, h.accepted]
    simp

theorem closed_fed : Closed order fun view => ∃ cells, Fed view cells where
  start app info maxCount delectFile hlist := by
    refine ⟨[], ?_, rfl⟩
    rw [hlist]
    exact Status.serves_created maxCount info
  move view next := by
    rintro ⟨cells, h⟩ hmoves
    cases hmoves with
    | appendFile filename delect memory ret list listed free appended =>
      by_cases hroom : (cells.length : Int) < view.app.listC.maxCount
      · obtain ⟨next, hok, hnext, -⟩ := h.serves.appendFile hroom free
        cases appended.symm.trans hok
        exact ⟨_, hnext, by simp [Session.accept, h.accepted]⟩
      · have hfull := h.serves.queued.appendFile_full (not_lt.mp hroom) filename delect memory
        cases appended.symm.trans hfull
        exact ⟨cells, h.serves, h.accepted⟩
    | delApp opt listed =>
      have hserves : Serves (view.delApp opt).app.listC (view.delApp opt).thread cells := by
        rw [view.delApp_listC]
        apply h.serves.move <;> rw [view.delApp_pc]
        · exact fun hpc => h.serves.busy.mpr (h.serves.seen hpc)
        · exact h.serves.found
        · exact fun _ hdata => hdata
      exact ⟨cells, hserves, h.accepted⟩
    | call manager manager' reply list thread undisturbed called => exact h.call called
    | cancel requested =>
      exact ⟨cells, h.serves.move (by simp) (by simp) (by simp [Status.holds]), h.accepted⟩

end

end UdpFileProxy.Sessions
