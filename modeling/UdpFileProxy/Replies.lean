import UdpFileProxy.Encoding
import UdpFileProxy.Registry

/-! The replies of both sides. A reply is truthful when it is `E_OK` exactly if the
requested effect took place, and nothing has changed otherwise. Both functions
`RequestHandler` end in `return 0`, which is what a command gets that has no branch. No request
is interrupted by `sig_chld` here; `OwnChild.deletion_defined` has the server with it. -/
namespace UdpFileProxy.Replies
open Lib Lib.Memory Lib.Run Protocol Config Encoding
open Registry (Directory Refines Allowed directoryOf)

/-- `ok` is the reply with the code `E_OK`. -/
def ok : Bytes := [UInt8.ofInt eOk, 0]

def Truthful (reply : Bytes) (effect unchanged : Prop) : Prop :=
  (reply = ok ↔ effect) ∧ (reply ≠ ok → unchanged)

section
variable {reply : Bytes} {effect unchanged : Prop}

theorem truthful_ok (heffect : effect) : Truthful ok effect unchanged :=
  ⟨iff_of_true rfl heffect, fun hne => absurd rfl hne⟩

theorem truthful_refused (hreply : reply ≠ ok) (heffect : ¬effect) (hunchanged : unchanged) :
    Truthful reply effect unchanged :=
  ⟨iff_of_false hreply heffect, fun _ => hunchanged⟩

theorem not_truthful_ok (heffect : ¬effect) : ¬Truthful ok effect unchanged := fun h =>
  heffect (h.1.mp rfl)

end

/-- What `RequestHandler` parses out of a frame with a body. -/
def message (frame : Framing.Frame) : Section := confPraseLine (cstr (frame.body ++ [0])) (ascii ",")

/-- The app was added, the file was appended, or the app was removed. -/
def clientEffect (conf : Section) (errno : Errno) (helper : Section) (before after : Directory) :
    ClientCommand → Prop
  | .register =>
      let info := ProxyClient.registration conf errno helper
      before.apps info.appName = none ∧
        after.apps = Function.update before.apps info.appName (some ⟨info.maxLine, []⟩)
  | .addFile =>
      let appName := confGetString helper (ascii "app_name")
      let file : SendData :=
        ⟨confGetString helper (ascii "file_name"), confGetBool helper (ascii "delect")⟩
      ∃ queue, before.apps appName = some queue ∧
        after.apps =
          Function.update before.apps appName (some { queue with files := queue.files ++ [file] })
  | .delect =>
      let appName := confGetString helper (ascii "app_name")
      (before.apps appName).isSome ∧ after.apps = Function.update before.apps appName none

/-- The memory that `new` returns is not in use. -/
def Fresh (client : ProxyClient.Client) (memory : LinkedList.Addr) : Prop :=
  client.heap memory = none ∧ ∀ tid < client.threads.length,
    ∀ list ∈ Registry.listOf client tid, list.heap memory = none

instance (client : ProxyClient.Client) (memory : LinkedList.Addr) : Decidable (Fresh client memory) :=
  inferInstanceAs (Decidable (client.heap memory = none ∧ ∀ tid < client.threads.length,
    ∀ list ∈ Registry.listOf client tid, list.heap memory = none))

section
variable {state : Registry.State} {directory : Directory}
  {nodes : List (LinkedList.Addr × ProxyClient.AppInfo)} {conf helper : Section}
  {world : ProxyClient.World}

theorem register_truthful (h : Refines state directory nodes) (hcreated : world.created = true)
    (hfresh : Fresh state.client world.memory) :
    ∃ ret next, ClientCommand.branch conf world state.client helper .register = some (ret, next) ∧
      Truthful [UInt8.ofInt ret, 0]
        (clientEffect conf world.errno helper directory (directoryOf next) .register)
        (directoryOf next = directory) := by
  let newApp := ProxyClient.registration conf world.errno helper
  have hbranch : ClientCommand.branch conf world state.client helper .register =
      ProxyClient.addApp (Registry.allocate state.client world.memory newApp) world.memory true := by
    rw [ClientCommand.branch, if_neg (by simp [hfresh.1]), hcreated]
    rfl
  have hlist : SendList.Queued newApp.listC [] := SendList.queued_new newApp.maxLine
  obtain ⟨next, nodes', hadd, hnext⟩ := h.addApp hfresh.1 hlist []
  rw [hbranch, hadd]
  refine ⟨_, next, rfl, ?_⟩
  rw [← hnext.directory_eq]
  cases hfind : directory.apps newApp.appName with
  | none =>
    simp only [Directory.addApp, hfind]
    exact truthful_ok ⟨hfind, rfl⟩
  | some queue =>
    have hreply : directory.addApp newApp.appName newApp.listC.maxCount = (eExist, directory) := by
      rw [Directory.addApp, hfind]
    rw [hreply]
    dsimp only
    refine truthful_refused (by decide) ?_ rfl
    rintro ⟨hnone, -⟩
    exact absurd (hnone.symm.trans hfind) (by simp)

theorem addFile_truthful (h : Refines state directory nodes) (hfresh : Fresh state.client world.memory) :
    ∃ ret next, ClientCommand.branch conf world state.client helper .addFile = some (ret, next) ∧
      Truthful [UInt8.ofInt ret, 0]
        (clientEffect conf world.errno helper directory (directoryOf next) .addFile)
        (directoryOf next = directory) := by
  obtain ⟨next, nodes', hadd, hnext⟩ := h.addSendFile hfresh.2 (confGetString helper (ascii "app_name"))
    (confGetString helper (ascii "file_name")) (confGetBool helper (ascii "delect")) []
  rw [ClientCommand.branch, hadd]
  refine ⟨_, next, rfl, ?_⟩
  rw [← hnext.directory_eq]
  cases hfind : directory.apps (confGetString helper (ascii "app_name")) with
  | none =>
    have hreply (file : SendData) :
        directory.addSendFile (confGetString helper (ascii "app_name")) file = (eNotfound, directory) := by
      rw [Directory.addSendFile, hfind]
    rw [hreply]
    dsimp only
    refine truthful_refused (by decide) ?_ rfl
    rintro ⟨queue, hsome, -⟩
    exact absurd (hfind.symm.trans hsome) (by simp)
  | some queue =>
    by_cases hfull : queue.capacity ≤ queue.files.length
    · have hreply (file : SendData) :
          directory.addSendFile (confGetString helper (ascii "app_name")) file = (eFull, directory) := by
        rw [Directory.addSendFile, hfind]
        dsimp only
        rw [if_pos hfull]
      rw [hreply]
      dsimp only
      refine truthful_refused (by decide) ?_ rfl
      rintro ⟨found, hsome, hupdate⟩
      have happ := congrFun hupdate (confGetString helper (ascii "app_name"))
      rw [Function.update_self, hsome, Option.some.injEq] at happ
      have hlength := congrArg (fun queue => queue.files.length) happ
      simp at hlength
    · simp only [Directory.addSendFile, hfind, hfull, if_false]
      exact truthful_ok ⟨queue, hfind, rfl⟩

theorem delect_truthful (h : Refines state directory nodes) :
    ∃ ret next, ClientCommand.branch conf world state.client helper .delect = some (ret, next) ∧
      Truthful [UInt8.ofInt ret, 0]
        (clientEffect conf world.errno helper directory (directoryOf next) .delect)
        (directoryOf next = directory) := by
  obtain ⟨next, nodes', hdel, hnext⟩ := h.delApp (confGetString helper (ascii "app_name")) delNow []
  rw [ClientCommand.branch, hdel]
  refine ⟨_, next, rfl, ?_⟩
  rw [← hnext.directory_eq]
  cases hfind : directory.apps (confGetString helper (ascii "app_name")) with
  | none =>
    have hreply : directory.delApp (confGetString helper (ascii "app_name")) =
        (eNotfound, directory) := by
      rw [Directory.delApp, hfind]
    rw [hreply]
    dsimp only
    refine truthful_refused (by decide) ?_ rfl
    rintro ⟨hsome, -⟩
    rw [hfind] at hsome
    contradiction
  | some queue =>
    simp only [Directory.delApp, hfind]
    exact truthful_ok ⟨by rw [hfind]; rfl, rfl⟩

theorem client_branch_truthful (conf helper : Section) (h : Refines state directory nodes)
    (hcreated : world.created = true) (hfresh : Fresh state.client world.memory)
    (command : ClientCommand) :
    ∃ ret next, command.branch conf world state.client helper = some (ret, next) ∧
      Truthful [UInt8.ofInt ret, 0]
        (clientEffect conf world.errno helper directory (directoryOf next) command)
        (directoryOf next = directory) := by
  cases command with
  | register => exact register_truthful h hcreated hfresh
  | addFile => exact addFile_truthful h hfresh
  | delect => exact delect_truthful h

theorem client_unknown {client : ProxyClient.Client} {frame : Framing.Frame}
    (h : ∀ command : ClientCommand, command.cmdType ≠ frame.cmdType) :
    ProxyClient.handlerMsgC conf world client frame.bytes = some (ok, client) := by
  rw [ProxyClient.handlerMsgC, Framing.handlerMsgC_frame,
    ClientCommand.requestHandler_unknown (Framing.parts_frame frame) h]
  rfl

end

/-- What a frame asks of the client took place. -/
def ClientEffect (conf : Section) (errno : Errno) (frame : Framing.Frame) (before after : Directory) :
    Prop :=
  ∃ command : ClientCommand, command.cmdType = frame.cmdType ∧
    clientEffect conf errno (message frame) before after command

/-- The pid that was forked went into the entry, or the entry is gone. -/
def serverEffect (world : ProxyServer.World) (helper : Section) (before after : ProxyServer.Server) :
    ServerCommand → Prop
  | .register =>
      let appName := confGetString helper (ascii "app_name")
      before.mpApp.find appName = none ∧
        after.mpApp.find = Function.update before.mpApp.find appName (some ⟨world.fork, helper⟩)
  | .delect =>
      let appName := confGetString helper (ascii "app_name")
      (before.mpApp.find appName).isSome ∧
        after.mpApp.find = Function.update before.mpApp.find appName none

def ServerEffect (world : ProxyServer.World) (frame : Framing.Frame)
    (before after : ProxyServer.Server) : Prop :=
  ∃ command : ServerCommand, command.cmdType = frame.cmdType ∧
    serverEffect world (message frame) before after command

section
variable {server : ProxyServer.Server} {world : ProxyServer.World} {errno : Errno} {helper : Section}

theorem finish_done {ret : Int} (fuel : Nat) :
    ProxyServer.finish world (fuel + 1) { server with main := .done ret } =
      some (ret, { server with main := .idle }) := rfl

theorem finish_registerCount_some {appName : Bytes} {app : ProxyServer.AppServer}
    (hfind : server.mpApp.find appName = some app) :
    ProxyServer.finish world 6 { server with main := .registerCount appName helper } =
      some (eExist, { server with main := .idle }) := by
  simp [ProxyServer.finish, ProxyServer.stepMain, hfind]

theorem finish_registerCount_none {appName : Bytes} (hfind : server.mpApp.find appName = none)
    (hfork : 0 < world.fork ∧ server.children.find world.fork = none) :
    ProxyServer.finish world 6 { server with main := .registerCount appName helper } =
      some (eOk, { server with
        children := server.children.assign world.fork ⟨appName, true⟩
        mpApp := (server.mpApp.assign appName ⟨world.junk, helper⟩).assign appName ⟨world.fork, helper⟩
        main := .idle }) := by
  have hneg : world.fork ≠ -1 := by omega
  simp [ProxyServer.finish, ProxyServer.stepMain, hfind, hneg, hfork]

theorem finish_deleteCount_none {appName : Bytes} (hfind : server.mpApp.find appName = none) :
    ProxyServer.finish world 6 { server with main := .deleteCount appName } =
      some (eNotfound, { server with main := .idle }) := by
  simp [ProxyServer.finish, ProxyServer.stepMain, hfind]

theorem finish_deleteCount_some {appName : Bytes} {app : ProxyServer.AppServer}
    (hfind : server.mpApp.find appName = some app) :
    ProxyServer.finish world 6 { server with main := .deleteCount appName } =
      some (eOk, { server with
        mpApp := server.mpApp.erase appName
        kills := server.kills ++ [⟨appName, app.pid, server.children.find app.pid⟩]
        main := .idle }) := by
  simp [ProxyServer.finish, ProxyServer.stepMain, hfind]

theorem server_register_truthful
    (hfork : 0 < world.fork ∧ server.children.find world.fork = none) :
    ∃ ret next, ProxyServer.finish world 6
        { server with main := ServerCommand.branch errno helper .register } = some (ret, next) ∧
      Truthful [UInt8.ofInt ret, 0] (serverEffect world helper server next .register)
        (next = { server with main := .idle }) := by
  simp only [ServerCommand.branch]
  split
  · cases hfind : server.mpApp.find (confGetString helper (ascii "app_name")) with
    | none =>
      rw [finish_registerCount_none hfind hfork]
      refine ⟨_, _, rfl, truthful_ok ⟨hfind, ?_⟩⟩
      rw [OrderedMap.find_assign, OrderedMap.find_assign, Function.update_idem]
    | some app =>
      rw [finish_registerCount_some hfind]
      refine ⟨_, _, rfl, truthful_refused (by decide) ?_ rfl⟩
      rintro ⟨hnone, -⟩
      exact absurd (hnone.symm.trans hfind) (by simp)
  · rw [finish_done]
    refine ⟨_, _, rfl, truthful_refused (by decide) ?_ rfl⟩
    rintro ⟨hnone, hupdate⟩
    have happ := congrFun hupdate (confGetString helper (ascii "app_name"))
    rw [Function.update_self, hnone] at happ
    contradiction

theorem server_delect_truthful :
    ∃ ret next, ProxyServer.finish world 6
        { server with main := ServerCommand.branch errno helper .delect } = some (ret, next) ∧
      Truthful [UInt8.ofInt ret, 0] (serverEffect world helper server next .delect)
        (next = { server with main := .idle }) := by
  have hkept (hsome : (server.mpApp.find (confGetString helper (ascii "app_name"))).isSome)
      (hupdate : server.mpApp.find = Function.update server.mpApp.find
        (confGetString helper (ascii "app_name")) none) : False := by
    have happ := congrFun hupdate (confGetString helper (ascii "app_name"))
    rw [Function.update_self] at happ
    rw [happ] at hsome
    contradiction
  simp only [ServerCommand.branch]
  split
  · rw [finish_done]
    refine ⟨_, _, rfl, truthful_refused (by decide) ?_ rfl⟩
    exact fun heffect => hkept heffect.1 heffect.2
  · cases hfind : server.mpApp.find (confGetString helper (ascii "app_name")) with
    | none =>
      rw [finish_deleteCount_none hfind]
      refine ⟨_, _, rfl, truthful_refused (by decide) ?_ rfl⟩
      exact fun heffect => hkept heffect.1 heffect.2
    | some app =>
      rw [finish_deleteCount_some hfind]
      exact ⟨_, _, rfl, truthful_ok ⟨by simp [hfind], OrderedMap.find_erase⟩⟩

theorem server_unknown {frame : Framing.Frame}
    (h : ∀ command : ServerCommand, command.cmdType ≠ frame.cmdType) :
    ProxyServer.handlerMsgC errno world server frame.bytes =
      some (ok, { server with main := .idle }) := by
  rw [ProxyServer.handlerMsgC, Framing.handlerMsgC_frame, ProxyServer.requestHandler,
    ServerCommand.decode_unknown (Framing.parts_frame frame) h]
  rfl

end

theorem client_reply {state : Registry.State} {directory : Directory}
    {nodes : List (LinkedList.Addr × ProxyClient.AppInfo)} (h : Refines state directory nodes)
    (conf : Section) {world : ProxyClient.World} (hcreated : world.created = true)
    (hfresh : Fresh state.client world.memory) (frame : Framing.Frame) :
    ∃ reply next, ProxyClient.handlerMsgC conf world state.client frame.bytes = some (reply, next) ∧
      (Truthful reply (ClientEffect conf world.errno frame (directoryOf state.client) (directoryOf next))
          (directoryOf next = directoryOf state.client) ↔
        ∃ command : ClientCommand, command.cmdType = frame.cmdType) := by
  by_cases hknown : ∃ command : ClientCommand, command.cmdType = frame.cmdType
  · obtain ⟨command, hcommand⟩ := hknown
    obtain ⟨ret, next, hbranch, htruthful⟩ :=
      client_branch_truthful conf (message frame) h hcreated hfresh command
    have hreply : ProxyClient.handlerMsgC conf world state.client frame.bytes =
        some ([UInt8.ofInt ret, 0], next) := by
      rw [ProxyClient.handlerMsgC, Framing.handlerMsgC_frame,
        command.requestHandler_eq (by rw [hcommand]; exact Framing.parts_frame frame)]
      rw [message] at hbranch
      rw [hbranch]
      rfl
    have heffect : ClientEffect conf world.errno frame (directoryOf state.client) (directoryOf next) ↔
        clientEffect conf world.errno (message frame) directory (directoryOf next) command := by
      rw [← h.directory_eq]
      constructor
      · rintro ⟨other, hother, heffect⟩
        rwa [ClientCommand.cmdType_injective (hother.trans hcommand.symm)] at heffect
      · exact fun heffect => ⟨command, hcommand, heffect⟩
    refine ⟨_, next, hreply, iff_of_true ?_ ⟨command, hcommand⟩⟩
    rw [heffect, ← h.directory_eq]
    exact htruthful
  · have hunknown : ∀ command : ClientCommand, command.cmdType ≠ frame.cmdType := fun command heq =>
      hknown ⟨command, heq⟩
    refine ⟨ok, state.client, client_unknown hunknown, iff_of_false (not_truthful_ok ?_) hknown⟩
    rintro ⟨command, hcommand, -⟩
    exact hknown ⟨command, hcommand⟩

theorem server_reply (errno : Errno) {server : ProxyServer.Server} {world : ProxyServer.World}
    (hfork : 0 < world.fork ∧ server.children.find world.fork = none) (frame : Framing.Frame) :
    ∃ reply next, ProxyServer.handlerMsgC errno world server frame.bytes = some (reply, next) ∧
      (Truthful reply (ServerEffect world frame server next) (next = { server with main := .idle }) ↔
        ∃ command : ServerCommand, command.cmdType = frame.cmdType) := by
  by_cases hknown : ∃ command : ServerCommand, command.cmdType = frame.cmdType
  · obtain ⟨command, hcommand⟩ := hknown
    obtain ⟨ret, next, hfinish, htruthful⟩ : ∃ ret next, ProxyServer.finish world 6
        { server with main := command.branch errno (message frame) } = some (ret, next) ∧
      Truthful [UInt8.ofInt ret, 0] (serverEffect world (message frame) server next command)
        (next = { server with main := .idle }) := by
      cases command with
      | register => exact server_register_truthful hfork
      | delect => exact server_delect_truthful
    have hreply : ProxyServer.handlerMsgC errno world server frame.bytes =
        some ([UInt8.ofInt ret, 0], next) := by
      rw [ProxyServer.handlerMsgC, Framing.handlerMsgC_frame, ProxyServer.requestHandler,
        command.decode_eq (by rw [hcommand]; exact Framing.parts_frame frame), Option.bind_some]
      rw [message] at hfinish
      rw [hfinish]
      rfl
    refine ⟨_, next, hreply, iff_of_true ?_ ⟨command, hcommand⟩⟩
    have heffect : ServerEffect world frame server next ↔
        serverEffect world (message frame) server next command := by
      constructor
      · rintro ⟨other, hother, heffect⟩
        rwa [ServerCommand.cmdType_injective (hother.trans hcommand.symm)] at heffect
      · exact fun heffect => ⟨command, hcommand, heffect⟩
    rw [heffect]
    exact htruthful
  · have hunknown : ∀ command : ServerCommand, command.cmdType ≠ frame.cmdType := fun command heq =>
      hknown ⟨command, heq⟩
    refine ⟨ok, _, server_unknown hunknown, iff_of_false (not_truthful_ok ?_) hknown⟩
    rintro ⟨command, hcommand, -⟩
    exact hknown ⟨command, hcommand⟩

/-- A reply is truthful exactly when the command has a branch. -/
theorem replies_truthful {actions : List Registry.Action} {final : Registry.State}
    (meets : Meets Registry.step Allowed Registry.start actions)
    (run : exec Registry.step Registry.start actions = some final) (conf : Section)
    {clientWorld : ProxyClient.World} (hcreated : clientWorld.created = true)
    (hfresh : Fresh final.client clientWorld.memory) (errno : Errno) {server : ProxyServer.Server}
    {serverWorld : ProxyServer.World}
    (hfork : 0 < serverWorld.fork ∧ server.children.find serverWorld.fork = none)
    (frame : Framing.Frame) :
    (∃ reply next, ProxyClient.handlerMsgC conf clientWorld final.client frame.bytes =
        some (reply, next) ∧
      (Truthful reply (ClientEffect conf clientWorld.errno frame (directoryOf final.client)
          (directoryOf next)) (directoryOf next = directoryOf final.client) ↔
        ∃ command : ClientCommand, command.cmdType = frame.cmdType)) ∧
    ∃ reply next, ProxyServer.handlerMsgC errno serverWorld server frame.bytes = some (reply, next) ∧
      (Truthful reply (ServerEffect serverWorld frame server next)
          (next = { server with main := .idle }) ↔
        ∃ command : ServerCommand, command.cmdType = frame.cmdType) := by
  obtain ⟨found, ideal, run', -, -, nodes, h⟩ :=
    exec_simulation_total (fun _ _ _ h hallowed => h.step hallowed) Registry.tracks_start meets
  obtain rfl : final = found := Option.some.inj (run.symm.trans run')
  exact ⟨client_reply h conf hcreated hfresh frame, server_reply errno hfork frame⟩

/-- `CMD_QUERY`, which neither side implements. -/
def queryFrame : Framing.Frame where
  cmdType := cmdQuery
  body := ascii "app_name=a"
  body_ne := Framing.deleteFrame.body_ne
  body_le := Framing.deleteFrame.body_le

theorem query_answered_ok : ∃ clientReply client serverReply server,
    ProxyClient.handlerMsgC [] ⟨.other, 1, true⟩ ProxyClient.new queryFrame.bytes =
      some (clientReply, client) ∧
    ProxyServer.handlerMsgC .other ⟨100, 0⟩ ProxyServer.new queryFrame.bytes =
      some (serverReply, server) ∧
    clientReply = ok ∧ serverReply = ok ∧
    ¬Truthful clientReply (ClientEffect [] .other queryFrame (directoryOf ProxyClient.new)
      (directoryOf client)) (directoryOf client = directoryOf ProxyClient.new) ∧
    ¬Truthful serverReply (ServerEffect ⟨100, 0⟩ queryFrame ProxyServer.new server)
      (server = ProxyServer.new) := by
  have hclient : ∀ command : ClientCommand, command.cmdType ≠ queryFrame.cmdType := by
    intro command
    cases command <;> decide
  have hserver : ∀ command : ServerCommand, command.cmdType ≠ queryFrame.cmdType := by
    intro command
    cases command <;> decide
  refine ⟨ok, _, ok, _, client_unknown hclient, server_unknown hserver, rfl, rfl, not_truthful_ok ?_,
    not_truthful_ok ?_⟩
  · rintro ⟨command, hcommand, -⟩
    exact hclient command hcommand
  · rintro ⟨command, hcommand, -⟩
    exact hserver command hcommand

/-- One app is in the list when it is deleted. -/
def oneApp : List Registry.Action :=
  [.addApp ⟨none, none, [97], [], 0, false, 1, SendList.new, 200⟩ 1 1,
    .addSendFile [97] [102] false 7]

theorem replies_truthful_oneApp : ∃ final, exec Registry.step Registry.start oneApp = some final ∧
    (∃ reply next, ProxyClient.handlerMsgC [] ⟨.other, 2, true⟩ final.client
        Framing.deleteFrame.bytes = some (reply, next) ∧
      (Truthful reply (ClientEffect [] .other Framing.deleteFrame (directoryOf final.client)
          (directoryOf next)) (directoryOf next = directoryOf final.client) ↔
        ∃ command : ClientCommand, command.cmdType = Framing.deleteFrame.cmdType)) ∧
    ∃ reply next, ProxyServer.handlerMsgC .other ⟨100, 0⟩ ProxyServer.new
        Framing.deleteFrame.bytes = some (reply, next) ∧
      (Truthful reply (ServerEffect ⟨100, 0⟩ Framing.deleteFrame ProxyServer.new next)
          (next = { ProxyServer.new with main := .idle }) ↔
        ∃ command : ServerCommand, command.cmdType = Framing.deleteFrame.cmdType) := by
  have meets : Meets Registry.step Allowed Registry.start oneApp := by decide +kernel
  have hready : (exec Registry.step Registry.start oneApp).any
      (fun final => Fresh final.client 2) = true := by decide +kernel
  obtain ⟨final, run, hfresh⟩ := (Option.any_eq_true _ _).mp hready
  have hfresh : Fresh final.client 2 := of_decide_eq_true hfresh
  exact ⟨final, run, replies_truthful meets run [] rfl hfresh .other (by decide) Framing.deleteFrame⟩

end UdpFileProxy.Replies
