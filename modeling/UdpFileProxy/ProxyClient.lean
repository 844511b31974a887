import UdpFileProxy.Config
import UdpFileProxy.FileThread
import UdpFileProxy.Manager

/-! The registry of the client, class `ProxyClient`: a linked list of `APP_INFO`
with one sender thread for each. -/
namespace UdpFileProxy.ProxyClient
open Lib.LinkedList Lib.Memory Protocol SendList Config
open FileThread (Thread)
open Speed (SpeedManger)

/-- `tid` and `stat` are not initialised; the others are set on registration.
The link `next` is that of the cell. -/
structure AppInfo where
  tid : Option Nat
  stat : Option Int
  appName : Bytes
  serverIp : Bytes
  serverPort : Int
  delectFile : Bool
  maxLine : Int
  listC : SendList
  packT : Int

/-- A thread id is an index into `threads`. `nodes` counts the calls of
`new APP_INFO` and bounds the loops over the list. -/
structure Client where
  applist : Option Addr
  heap : Heap AppInfo
  nodes : Nat
  threads : List Thread
  speed : SpeedManger

def new : Client where
  applist := none
  heap := fun _ => none
  nodes := 0
  threads := []
  speed := .new

/-- What the system does during one request: the `errno` that earlier calls left
behind, the memory that `new` returns, and whether `pthread_create` succeeds. -/
structure World where
  errno : Errno
  memory : Addr
  created : Bool
  deriving DecidableEq, Repr

def setValue (heap : Heap AppInfo) (addr : Addr) (change : AppInfo → AppInfo) : Heap AppInfo :=
  Function.update heap addr ((heap addr).map fun cell => ⟨change cell.value, cell.next⟩)

def setNext (heap : Heap AppInfo) (addr : Addr) (next : Option Addr) : Heap AppInfo :=
  Function.update heap addr ((heap addr).map fun cell => ⟨cell.value, next⟩)

/-- The loop of `Add_App`: the last node, unless a node has the name. -/
def addAppLoop (heap : Heap AppInfo) (appName : Bytes) : Nat → Addr → Option (Option Addr)
  | 0, _ => none
  | fuel + 1, tmp =>
      match heap tmp with
      | none => none
      | some cell =>
          if cell.value.appName = appName then some none
          else
            match cell.next with
            | some next => addAppLoop heap appName fuel next
            | none => some (some tmp)

/-- The tail of `Add_App`, from `info->next = NULL` on; `tmp` is null when the
list was empty. -/
def startThread (client : Client) (info : Addr) (tmp : Option Addr) (created : Bool) :
    Option (Int × Client) :=
  let heap := setNext client.heap info none
  if created then
    some (eOk, { client with
      heap := setValue heap info fun app => { app with tid := some client.threads.length }
      threads := client.threads ++ [FileThread.created info] })
  else
    tmp.map fun last =>
      (eThread, { client with heap := Function.update (setNext heap last none) info none })

def addApp (client : Client) (info : Addr) (created : Bool) : Option (Int × Client) :=
  match client.heap info with
  | none => none
  | some app =>
      match client.applist with
      | none => startThread { client with applist := some info } info none created
      | some first =>
          match addAppLoop client.heap app.value.appName client.nodes first with
          | none => none
          | some none => some (eExist, client)
          | some (some last) =>
              startThread { client with heap := setNext client.heap last (some info) } info
                (some last) created

/-- The loop of `Del_App`: the node with the name, and the one before it. -/
def delAppLoop (heap : Heap AppInfo) (appName : Bytes) :
    Nat → Addr → Addr → Option (Option (Addr × Cell AppInfo × Addr))
  | 0, _, _ => none
  | fuel + 1, per, tmp =>
      match heap tmp with
      | none => none
      | some cell =>
          if cell.value.appName = appName then some (some (per, cell, tmp))
          else
            match cell.next with
            | some next => delAppLoop heap appName fuel tmp next
            | none => some none

/-- `pthread_cancel`. -/
def cancelThread (threads : List Thread) (tid : Nat) : List Thread :=
  threads.modify tid fun thread => { thread with cancelRequest := true }

def delApp (client : Client) (appName : Bytes) (opt : Int) : Option (Int × Client) :=
  match client.applist with
  | none => some (eNotfound, client)
  | some first =>
      match delAppLoop client.heap appName client.nodes first first with
      | none => none
      | some none => some (eNotfound, client)
      | some (some (per, cell, tmp)) =>
          let unlinked : Client :=
            if per = tmp then { client with applist := cell.next }
            else { client with heap := setNext client.heap per cell.next }
          if opt = delNow then
            cell.value.tid.map fun tid =>
              (eOk, { unlinked with threads := cancelThread unlinked.threads tid })
          else if opt = delLastOne ∨ opt = delLater then
            some (eOk, { unlinked with
              heap := setValue unlinked.heap tmp fun app => { app with stat := some sCancel } })
          else some (eOk, unlinked)

/-- The loop of `Add_Send_File`: the first node with the name, else the last one. -/
def addSendFileLoop (heap : Heap AppInfo) (appName : Bytes) :
    Nat → Addr → Option (Addr × Cell AppInfo)
  | 0, _ => none
  | fuel + 1, tmp =>
      match heap tmp with
      | none => none
      | some cell =>
          match cell.next with
          | some next =>
              if cell.value.appName ≠ appName then addSendFileLoop heap appName fuel next
              else some (tmp, cell)
          | none => some (tmp, cell)

def addSendFile (client : Client) (appName filename : Bytes) (delect : Bool) (memory : Addr) :
    Option (Int × Client) :=
  match client.applist with
  | none => some (eNotfound, client)
  | some first =>
      match addSendFileLoop client.heap appName client.nodes first with
      | none => none
      | some (tmp, cell) =>
          if cell.value.appName = appName then
            if (cell.value.listC.heap memory).isSome then none
            else
              (appendFile cell.value.listC filename delect memory).map fun (ret, list) =>
                (if ret ≠ eOk then eFull else eOk, { client with
                  heap := setValue client.heap tmp fun app => { app with listC := list } })
          else some (eNotfound, client)

/-- The `APP_INFO` that `CMD_REGISTER` fills in. -/
def registration (conf : Section) (errno : Errno) (helper : Section) : AppInfo :=
  let serverPort := confGetNumber helper (ascii "server_port") errno
  let maxFile := confGetNumber helper (ascii "max_file") serverPort.2
  let packT := confGetNumber conf (ascii "pack_t") maxFile.2
  { tid := none
    stat := none
    appName := confGetString helper (ascii "app_name")
    serverIp := confGetString helper (ascii "server_ip")
    serverPort := serverPort.1
    delectFile := confGetBool helper (ascii "delect_file")
    maxLine := maxFile.1
    listC := { SendList.new with maxCount := maxFile.1 }
    packT := packT.1 }

/-- `conf` is the configuration file, `g_conf`. -/
def requestHandler (conf : Section) (world : World) (client : Client) (msgEx : Bytes) :
    Option (Int × Client) :=
  match Manager.parts msgEx with
  | none => none
  | some (cmdType, msg) =>
      if cmdType = cmdRegister then
        match msgParse msg with
        | none => none
        | some helper =>
            if (client.heap world.memory).isSome then none
            else
              let newApp := registration conf world.errno helper
              addApp { client with
                heap := Function.update client.heap world.memory (some ⟨newApp, none⟩)
                nodes := client.nodes + 1 } world.memory world.created
      else if cmdType = cmdAddFile then
        match msgParse msg with
        | none => none
        | some helper =>
            addSendFile client (confGetString helper (ascii "app_name"))
              (confGetString helper (ascii "file_name")) (confGetBool helper (ascii "delect"))
              world.memory
      else if cmdType = cmdDelect then
        match msgParse msg with
        | none => none
        | some helper => delApp client (confGetString helper (ascii "app_name")) delNow
      else some (eOk, client)

def handlerMsgC (conf : Section) (world : World) (client : Client) (input : Bytes) :
    Option (Bytes × Client) :=
  Manager.handlerMsgC (requestHandler conf world) client input

section
variable {conf : Section} {client next : Client} {world : World} {input : Bytes} {ret : Int}

/-- A request starts a thread, requests a cancellation or leaves the threads alone. -/
inductive Requested (threads : List Thread) : List Thread → Prop where
  | same : Requested threads threads
  | create (info : Addr) : Requested threads (threads ++ [FileThread.created info])
  | cancel (tid : Nat) : Requested threads (cancelThread threads tid)

theorem startThread_threads {info : Addr} {tmp : Option Addr} {started : Bool}
    (h : startThread client info tmp started = some (ret, next)) :
    next.speed = client.speed ∧ Requested client.threads next.threads := by
  unfold startThread at h
  dsimp only at h
  split at h
  · cases h
    exact ⟨rfl, .create info⟩
  · obtain ⟨last, -, hlast⟩ := Option.map_eq_some_iff.mp h
    cases hlast
    exact ⟨rfl, .same⟩

theorem addApp_threads {info : Addr} {started : Bool}
    (h : addApp client info started = some (ret, next)) :
    next.speed = client.speed ∧ Requested client.threads next.threads := by
  unfold addApp at h
  split at h
  · contradiction
  split at h
  · have hstarted := startThread_threads h
    exact hstarted
  split at h
  · contradiction
  · cases h
    exact ⟨rfl, .same⟩
  · have hstarted := startThread_threads h
    exact hstarted

theorem delApp_threads {appName : Bytes} {opt : Int}
    (h : delApp client appName opt = some (ret, next)) :
    next.speed = client.speed ∧ Requested client.threads next.threads := by
  unfold delApp at h
  split at h
  · cases h
    exact ⟨rfl, .same⟩
  split at h
  · contradiction
  · cases h
    exact ⟨rfl, .same⟩
  rename_i per cell tmp _
  dsimp only at h
  have hunlinked : ∀ unlinked : Client, (unlinked = if per = tmp then
      { client with applist := cell.next } else
      { client with heap := setNext client.heap per cell.next }) →
      unlinked.speed = client.speed ∧ unlinked.threads = client.threads := by
    rintro unlinked rfl
    split <;> exact ⟨rfl, rfl⟩
  obtain ⟨hspeed, hthreads⟩ := hunlinked _ rfl
  split at h
  · obtain ⟨tid, -, htid⟩ := Option.map_eq_some_iff.mp h
    cases htid
    refine ⟨hspeed, ?_⟩
    dsimp only
    rw [hthreads]
    exact .cancel tid
  split at h
  · cases h
    refine ⟨hspeed, ?_⟩
    dsimp only
    rw [hthreads]
    exact .same
  · cases h
    refine ⟨hspeed, ?_⟩
    rw [hthreads]
    exact .same

theorem addSendFile_threads {appName filename : Bytes} {delect : Bool} {memory : Addr}
    (h : addSendFile client appName filename delect memory = some (ret, next)) :
    next.speed = client.speed ∧ Requested client.threads next.threads := by
  unfold addSendFile at h
  split at h
  · cases h
    exact ⟨rfl, .same⟩
  split at h
  · contradiction
  split at h
  · split at h
    · contradiction
    · obtain ⟨appended, -, happended⟩ := Option.map_eq_some_iff.mp h
      cases happended
      exact ⟨rfl, .same⟩
  · cases h
    exact ⟨rfl, .same⟩

theorem requestHandler_threads {msgEx : Bytes}
    (h : requestHandler conf world client msgEx = some (ret, next)) :
    next.speed = client.speed ∧ Requested client.threads next.threads := by
  unfold requestHandler at h
  split at h
  · contradiction
  split at h
  · split at h
    · contradiction
    split at h
    · contradiction
    · have hadded := addApp_threads h
      exact hadded
  split at h
  · split at h
    · contradiction
    · exact addSendFile_threads h
  split at h
  · split at h
    · contradiction
    · exact delApp_threads h
  · cases h
    exact ⟨rfl, .same⟩

theorem handlerMsgC_threads {answer : Bytes}
    (h : handlerMsgC conf world client input = some (answer, next)) :
    next.speed = client.speed ∧ Requested client.threads next.threads := by
  unfold handlerMsgC Manager.handlerMsgC at h
  split at h
  · contradiction
  split at h
  · obtain ⟨⟨ret, handled⟩, hhandled, hpair⟩ := Option.map_eq_some_iff.mp h
    cases hpair
    exact requestHandler_threads hhandled
  · cases h
    exact ⟨rfl, .same⟩

theorem Requested.getElem? {threads threads' : List Thread} (h : Requested threads threads')
    {tid : Nat} {thread : Thread} (hthread : threads'[tid]? = some thread) :
    (∃ old, threads[tid]? = some old ∧
        thread = { old with cancelRequest := thread.cancelRequest }) ∨
      (threads.length ≤ tid ∧ ∃ info, thread = FileThread.created info) := by
  cases h with
  | same => exact .inl ⟨thread, hthread, rfl⟩
  | create info =>
    rw [List.getElem?_append] at hthread
    split at hthread
    · exact .inl ⟨thread, hthread, rfl⟩
    · rename_i hge
      have hmem := List.mem_of_getElem? hthread
      exact .inr ⟨not_lt.mp hge, info, List.mem_singleton.mp hmem⟩
  | cancel target =>
    left
    rw [cancelThread, List.getElem?_modify] at hthread
    obtain ⟨old, hold, rfl⟩ := Option.map_eq_some_iff.mp hthread
    refine ⟨old, hold, ?_⟩
    split <;> rfl

theorem Requested.length_le {threads threads' : List Thread} (h : Requested threads threads') :
    threads.length ≤ threads'.length := by
  cases h with
  | same => exact le_rfl
  | create info => simp
  | cancel target => simp [cancelThread]

end

end UdpFileProxy.ProxyClient
