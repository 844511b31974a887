import UdpFileProxy.Config
import UdpFileProxy.Lib.OrderedMap
import UdpFileProxy.Lib.Run
import UdpFileProxy.Manager

/-! The registry of the server, class `ProxyServer`, which runs one child process
for each app. A request is a sequence of steps, since `sig_chld` can run between
any two of them; it runs on the same thread and in two steps of its own. -/
namespace UdpFileProxy.ProxyServer
open Lib Lib.Memory Protocol Config

/-- An unreaped child, and the app that it was forked for. -/
structure Child where
  app : Bytes
  running : Bool
  deriving DecidableEq, Repr

structure AppServer where
  pid : Int
  regsiterInfo : Section
  deriving DecidableEq, Repr

/-- The step of `RequestHandler`, `add_app` and `del_app(string)` that is next.
`done` writes the reply. -/
inductive Main where
  | idle
  | registerCount (appName : Bytes) (info : Section)
  | fork (appName : Bytes) (info : Section)
  | insert (appName : Bytes) (info : Section) (ret : Int)
  | setPid (appName : Bytes) (ret : Int)
  | deleteCount (appName : Bytes)
  | deleteFind (appName : Bytes)
  | deleteRead (appName : Bytes)
  | deleteErase (appName : Bytes) (pid : Int)
  | kill (appName : Bytes) (pid : Int)
  | done (ret : Int)
  deriving DecidableEq, Repr

/-- The step of `sig_chld` that is next. -/
inductive Handler where
  | wait
  | delApp (pid : Int)
  deriving DecidableEq, Repr

/-- One call of `kill`, and the unreaped child that the pid belonged to. -/
structure Kill where
  app : Bytes
  pid : Int
  target : Option Child
  deriving DecidableEq, Repr

/-- `children` are the processes that `wait` has not reaped; `pending` is the one
`SIGCHLD` that can be pending; `kills` is history. -/
structure Server where
  mpApp : OrderedMap Bytes AppServer
  children : OrderedMap Int Child
  pending : Bool
  handler : Option Handler
  main : Main
  kills : List Kill

def new : Server where
  mpApp := .empty
  children := .empty
  pending := false
  handler := none
  main := .idle
  kills := []

/-- `MsgHelper::check_server_add_info`, and the `errno` that it leaves behind. -/
def checkServerAddInfo (info : Section) (errno : Errno) : Bool × Errno :=
  if (confGetString info (ascii "app_name")).isEmpty ∨
      (confGetString info (ascii "server_ip")).isEmpty ∨
      (confGetString info (ascii "message_ip")).isEmpty ∨
      (confGetString info (ascii "dir1")).isEmpty ∨
      (confGetString info (ascii "dir2")).isEmpty then (false, errno)
  else
    let port1 := confGetNumber info (ascii "server_port") errno
    let port2 := confGetNumber info (ascii "message_port") port1.2
    (¬((port1.1 < 0 ∨ port1.1 > 65535) ∨ (port2.1 < 0 ∨ port2.1 > 65535)), port2.2)

/-- `RequestHandler` up to its first look at `mp_app`. -/
def decode (errno : Errno) (msgEx : Bytes) : Option Main :=
  match Manager.parts msgEx with
  | none => none
  | some (cmdType, msg) =>
      if cmdType = cmdRegister then
        (msgParse msg).map fun info =>
          if (checkServerAddInfo info errno).1 then
            .registerCount (confGetString info (ascii "app_name")) info
          else .done eBadCmd
      else if cmdType = cmdDelect then
        (msgParse msg).map fun delectMsg =>
          let appName := confGetString delectMsg (ascii "app_name")
          if appName.isEmpty then .done eBadCmd else .deleteCount appName
      else some (.done eOk)

/-- What `fork` returns, -1 for a failure, and the value of the field `pid` of an
`APP_SERVER` that was not initialised. -/
structure World where
  fork : Int
  junk : Int
  deriving DecidableEq, Repr

/-- The next step of a request. The pid of a new child is not that of an unreaped
one. `none` is the end of a run: nothing to do, a system that does not behave so,
or `erase` of an entry that has gone. When `find` or the operator `[]` of
`del_app` miss the entry, that `erase` is certain. -/
def stepMain (server : Server) (world : World) : Option Server :=
  match server.main with
  | .idle => none
  | .registerCount appName info =>
      match server.mpApp.find appName with
      | some _ => some { server with main := .done eExist }
      | none => some { server with main := .fork appName info }
  | .fork appName info =>
      if world.fork = -1 then some { server with main := .done eRegister }
      else if 0 < world.fork ∧ server.children.find world.fork = none then
        some { server with
          children := server.children.assign world.fork ⟨appName, true⟩
          main := .insert appName info world.fork }
      else none
  | .insert appName info ret =>
      some { server with
        mpApp := server.mpApp.assign appName ⟨world.junk, info⟩
        main := .setPid appName ret }
  | .setPid appName ret =>
      let info := (server.mpApp.find appName).elim [] AppServer.regsiterInfo
      some { server with mpApp := server.mpApp.assign appName ⟨ret, info⟩, main := .done eOk }
  | .deleteCount appName =>
      match server.mpApp.find appName with
      | none => some { server with main := .done eNotfound }
      | some _ => some { server with main := .deleteFind appName }
  | .deleteFind appName =>
      (server.mpApp.find appName).map fun _ => { server with main := .deleteRead appName }
  | .deleteRead appName =>
      (server.mpApp.find appName).map fun app =>
        { server with main := .deleteErase appName app.pid }
  | .deleteErase appName pid =>
      (server.mpApp.find appName).map fun _ =>
        { server with mpApp := server.mpApp.erase appName, main := .kill appName pid }
  | .kill appName pid =>
      some { server with
        kills := server.kills ++ [⟨appName, pid, server.children.find pid⟩]
        main := .done eOk }
  | .done _ => some { server with main := .idle }

/-- The steps of a request up to its reply, without an interruption. -/
def finish (world : World) : Nat → Server → Option (Int × Server)
  | 0, _ => none
  | fuel + 1, server =>
      match server.main with
      | .done ret => some (ret, { server with main := .idle })
      | _ => (stepMain server world).bind (finish world fuel)

/-- `RequestHandler`: a deletion has the most steps, five and the reply. -/
def requestHandler (errno : Errno) (world : World) (server : Server) (msgEx : Bytes) :
    Option (Int × Server) :=
  (decode errno msgEx).bind fun main => finish world 6 { server with main := main }

def handlerMsgC (errno : Errno) (world : World) (server : Server) (input : Bytes) :
    Option (Bytes × Server) :=
  Manager.handlerMsgC (requestHandler errno world) server input

/-- `del_app(int)`: the first entry with this pid. -/
def delApp (server : Server) (pid : Int) : Server :=
  { server with mpApp := server.mpApp.eraseFirst fun entry => entry.2.pid = pid }

inductive Action where
  | request (errno : Errno) (input : Bytes)
  | main (world : World)
  | exit (pid : Int)
  | deliver
  | wait (pid : Int)
  | waitFails
  | delApp
  deriving DecidableEq, Repr

/-- The main thread does not move while the handler runs, and `SIGCHLD` is blocked
meanwhile. `wait` reaps any child that has terminated, blocks while there is none,
and returns -1 when there is no child at all. -/
def step (server : Server) (action : Action) : Option Server :=
  match action with
  | .request errno input =>
      if server.handler ≠ none ∨ server.main ≠ .idle ∨ input.isEmpty then none
      else if Manager.wellFormed input then
        (decode errno (input ++ [0])).map fun main => { server with main := main }
      else some { server with main := .done eFormat }
  | .main world => if server.handler = none then stepMain server world else none
  | .exit pid =>
      match server.children.find pid with
      | some ⟨app, true⟩ =>
          some { server with
            children := server.children.assign pid ⟨app, false⟩
            pending := true }
      | _ => none
  | .deliver =>
      if server.handler = none ∧ server.pending then
        some { server with pending := false, handler := some .wait }
      else none
  | .wait pid =>
      if server.handler = some .wait then
        match server.children.find pid with
        | some ⟨_, false⟩ =>
            some { server with
              children := server.children.erase pid
              handler := some (.delApp pid) }
        | _ => none
      else none
  | .waitFails =>
      if server.handler = some .wait ∧ server.children.entries = [] then
        some { server with handler := some (.delApp (-1)) }
      else none
  | .delApp =>
      match server.handler with
      | some (.delApp pid) => some { delApp server pid with handler := none }
      | _ => none

/-- The requests that register and delete an app of this name. -/
def register (appName : String) : Action :=
  .request .other (Manager.frame cmdRegister (ascii ("app_name=" ++ appName ++
    ",server_ip=1.1.1.1,server_port=8000,message_ip=1.1.1.1,message_port=9999,dir1=d,dir2=e")))

def delect (appName : String) : Action :=
  .request .other (Manager.frame cmdDelect (ascii ("app_name=" ++ appName)))

section
variable {server : Server} {errno : Errno} {world : World} {msgEx : Bytes}

theorem decode_cases {main : Main} (h : decode errno msgEx = some main) :
    (∃ appName info, main = .registerCount appName info) ∨ (∃ appName, main = .deleteCount appName) ∨
      ∃ ret, main = .done ret := by
  unfold decode at h
  split at h
  · contradiction
  split at h
  · obtain ⟨parsed, -, rfl⟩ := Option.map_eq_some_iff.mp h
    split <;> simp
  split at h
  · obtain ⟨parsed, -, rfl⟩ := Option.map_eq_some_iff.mp h
    dsimp only
    split <;> simp
  · cases h
    simp

theorem requestHandler_isSome {main : Main} (hdecode : decode errno msgEx = some main)
    (hfork : world.fork = -1 ∨ 0 < world.fork ∧ server.children.find world.fork = none) :
    (requestHandler errno world server msgEx).isSome := by
  rw [requestHandler, hdecode, Option.bind_some]
  rcases decode_cases hdecode with ⟨appName, info, rfl⟩ | ⟨appName, rfl⟩ | ⟨ret, rfl⟩
  · cases hfind : server.mpApp.find appName with
    | some app => simp [finish, stepMain, hfind]
    | none =>
      by_cases hfailed : world.fork = -1
      · simp [finish, stepMain, hfind, hfailed]
      · have hpid := hfork.resolve_left hfailed
        simp [finish, stepMain, hfind, hfailed, hpid]
  · cases hfind : server.mpApp.find appName with
    | some app => simp [finish, stepMain, hfind]
    | none => simp [finish, stepMain, hfind]
  · simp [finish]

end

/-- Everything that a step can do. -/
inductive Stepped (server : Server) : Action → Server → Prop where
  | request {errno input} (main : Main) (hhandler : server.handler = none)
      (hidle : server.main = .idle)
      (hmain : decode errno (input ++ [0]) = some main ∨ main = .done eFormat) :
      Stepped server (.request errno input) { server with main := main }
  | main {world next} (hhandler : server.handler = none) (hnext : stepMain server world = some next) :
      Stepped server (.main world) next
  | exit {pid app} (hchild : server.children.find pid = some ⟨app, true⟩) :
      Stepped server (.exit pid) { server with
        children := server.children.assign pid ⟨app, false⟩, pending := true }
  | deliver (hhandler : server.handler = none) (hpending : server.pending = true) :
      Stepped server .deliver { server with pending := false, handler := some .wait }
  | wait {pid app} (hhandler : server.handler = some .wait)
      (hchild : server.children.find pid = some ⟨app, false⟩) :
      Stepped server (.wait pid) { server with
        children := server.children.erase pid, handler := some (.delApp pid) }
  | waitFails (hhandler : server.handler = some .wait) (hnone : server.children.entries = []) :
      Stepped server .waitFails { server with handler := some (.delApp (-1)) }
  | delApp {pid} (hhandler : server.handler = some (.delApp pid)) :
      Stepped server .delApp { delApp server pid with handler := none }

theorem step_cases {server next : Server} {action : Action} (h : step server action = some next) :
    Stepped server action next := by
  cases action with
  | request errno input =>
    simp only [step] at h
    split at h
    · contradiction
    rename_i hready
    simp only [not_or, not_not] at hready
    split at h
    · obtain ⟨main, hdecode, rfl⟩ := Option.map_eq_some_iff.mp h
      exact .request main hready.1 hready.2.1 (.inl hdecode)
    · cases h
      exact .request _ hready.1 hready.2.1 (.inr rfl)
  | main world =>
    simp only [step] at h
    split at h
    · exact .main ‹_› h
    · contradiction
  | exit pid =>
    simp only [step] at h
    split at h
    · rename_i hchild
      cases h
      exact .exit hchild
    · contradiction
  | deliver =>
    simp only [step] at h
    split at h
    · rename_i hready
      cases h
      exact .deliver hready.1 hready.2
    · contradiction
  | wait pid =>
    simp only [step] at h
    split at h
    · rename_i hhandler
      split at h
      · rename_i hchild
        cases h
        exact .wait hhandler hchild
      · contradiction
    · contradiction
  | waitFails =>
    simp only [step] at h
    split at h
    · rename_i hready
      cases h
      exact .waitFails hready.1 hready.2
    · contradiction
  | delApp =>
    simp only [step] at h
    split at h
    · rename_i hhandler
      cases h
      exact .delApp hhandler
    · contradiction

end UdpFileProxy.ProxyServer
