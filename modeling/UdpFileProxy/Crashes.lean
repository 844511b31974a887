import UdpFileProxy.Sessions

/-! Arbitrary chunks of bytes at the two managers. `RequestHandler` takes the body for
missing when the length byte is 0, and the length checks let that pass for two bytes. No request
is interrupted by `sig_chld` here; `OwnChild.deletion_defined` has the server with it. -/
namespace UdpFileProxy.Crashes
open Lib Lib.LinkedList Lib.Memory Lib.Run Protocol Config Manager Encoding
open Adding (Listed)
open Sessions (Fed Tidy tidy_run closed_fed)

/-- The handler comes to its end and sends its two bytes. -/
def Finishes {State : Type*} (handled : Option (Bytes × State)) : Prop :=
  ∃ reply next, handled = some (reply, next) ∧ reply.length = 2

/-- The apps of a client: each has a thread and a sound queue. -/
structure Usable (client : ProxyClient.Client) (nodes : List (Addr × ProxyClient.AppInfo)) :
    Prop where
  listed : Listed client nodes
  tids : ∀ node ∈ nodes, ∃ tid, node.2.tid = some tid
  queues : ∀ node ∈ nodes, ∃ cells, SendList.Queued node.2.listC cells

/-- The memory that `new` returns is used neither for an app nor for a file. -/
structure Unused (client : ProxyClient.Client) (memory : Addr) : Prop where
  app : client.heap memory = none
  file : ∀ addr cell, client.heap addr = some cell → cell.value.listC.heap memory = none

/-- A chunk that comes to the branch of `CMD_REGISTER` with a body. -/
def Registers (chunk : Bytes) : Prop :=
  wellFormed chunk = true ∧ ∃ msgLen body, chunk = cmdRegister :: msgLen :: body ∧ msgLen ≠ 0

section
variable {State : Type*} {requestHandler : State → Bytes → Option (Int × State)} {state : State}
  {chunk : Bytes}

theorem finishes_iff (hne : chunk ≠ []) :
    Finishes (handlerMsgC requestHandler state chunk) ↔
      (wellFormed chunk = true → (requestHandler state (chunk ++ [0])).isSome) := by
  by_cases hformat : wellFormed chunk = true
  · rw [handlerMsgC, if_neg (by simpa using hne), if_pos hformat, imp_iff_right hformat]
    cases requestHandler state (chunk ++ [0]) with
    | none => simp [Finishes]
    | some handled => simp [Finishes]
  · rw [Framing.handlerMsgC_refused hne (Bool.eq_false_iff.mpr hformat)]
    exact iff_of_true ⟨_, _, rfl, rfl⟩ fun h => absurd h hformat

theorem parts_cases (hformat : wellFormed chunk = true) : ∃ cmdType,
    (chunk = [cmdType, 0] ∧ parts (chunk ++ [0]) = some (cmdType, none)) ∨
      ∃ msgLen body, chunk = cmdType :: msgLen :: body ∧ msgLen ≠ 0 ∧
        parts (chunk ++ [0]) = some (cmdType, some (body ++ [0])) := by
  match chunk with
  | [] => contradiction
  | [_] => contradiction
  | cmdType :: msgLen :: body =>
    refine ⟨cmdType, ?_⟩
    by_cases hzero : msgLen = 0
    · have hbody : body = [] := by simpa [wellFormed, hzero, eq_comm] using hformat
      subst hzero hbody
      exact .inl ⟨rfl, rfl⟩
    · exact .inr ⟨msgLen, body, rfl, hzero, by simp [parts, hzero]⟩

end

section
variable {conf helper : Section} {world : ProxyClient.World} {client : ProxyClient.Client}
  {nodes : List (Addr × ProxyClient.AppInfo)} {chunk : Bytes}

theorem addSendFile_isSome (h : Usable client nodes) (hunused : Unused client world.memory)
    (appName filename : Bytes) (delect : Bool) :
    (ProxyClient.addSendFile client appName filename delect world.memory).isSome := by
  cases hfirst : client.applist with
  | none => simp [ProxyClient.addSendFile, hfirst]
  | some first =>
    have hchain := hfirst ▸ h.listed.chain
    obtain ⟨addr, app, link, hloop, hmem, -⟩ :=
      Registry.addSendFileLoop_eq appName hchain h.listed.bound
    by_cases hname : app.appName = appName
    · obtain ⟨next, hcell⟩ := hchain.allocated hmem
      have hmemory : app.listC.heap world.memory = none := hunused.file addr _ hcell
      obtain ⟨cells, hqueued⟩ := h.queues _ hmem
      have happended : ∃ ret list,
          SendList.appendFile app.listC filename delect world.memory = some (ret, list) := by
        by_cases hroom : (cells.length : Int) < app.listC.maxCount
        · obtain ⟨list, happend, -⟩ := hqueued.appendFile hroom hmemory filename delect
          exact ⟨eOk, list, happend⟩
        · exact ⟨eFull, app.listC, hqueued.appendFile_full (not_lt.mp hroom) filename delect _⟩
      obtain ⟨ret, list, happend⟩ := happended
      subst hname
      rw [Registry.addSendFile_found hfirst hloop hmemory happend]
      rfl
    · simp [ProxyClient.addSendFile, hfirst, hloop, hname]

theorem delApp_isSome (h : Usable client nodes) (appName : Bytes) (opt : Int) :
    (ProxyClient.delApp client appName opt).isSome := by
  cases hfirst : client.applist with
  | none => simp [ProxyClient.delApp, hfirst]
  | some first =>
    have hchain := hfirst ▸ h.listed.chain
    cases hfind : nodes.find? fun node => node.2.appName = appName with
    | none =>
      have habsent : ∀ node ∈ nodes, node.2.appName ≠ appName := by
        simpa using List.find?_eq_none.mp hfind
      have hloop : ProxyClient.delAppLoop client.heap appName client.nodes first first = some none :=
        Registry.delAppLoop_absent hchain h.listed.bound habsent
      simp [ProxyClient.delApp, hfirst, hloop]
    | some node =>
      obtain ⟨hname, front, back, hsplit, hfront⟩ := List.find?_eq_some_iff_append.mp hfind
      obtain rfl : node.2.appName = appName := of_decide_eq_true hname
      obtain ⟨tid, htid⟩ := h.tids node (hsplit ▸ List.mem_append_right front List.mem_cons_self)
      obtain ⟨link, -, -, hloop⟩ := Registry.delAppLoop_found first (hsplit ▸ hchain)
        (hsplit ▸ h.listed.bound) (by simpa using hfront)
      rw [Registry.delApp_found hfirst hloop htid]
      rfl

theorem register_isSome_iff (h : Usable client nodes) (hunused : Unused client world.memory) :
    (ClientCommand.register.branch conf world client helper).isSome ↔
      ¬(client.applist = none ∧ world.created = false) := by
  have hnot := h.listed.chain.notMem_of_free hunused.app
  have hlisted := h.listed.allocate hunused.app (ProxyClient.registration conf world.errno helper)
  have hadd := Adding.addApp_isSome_iff hlisted (Function.update_self _ _ _) hnot world.created
  have hbranch : ClientCommand.register.branch conf world client helper =
      ProxyClient.addApp (Registry.allocate client world.memory
        (ProxyClient.registration conf world.errno helper)) world.memory world.created := by
    rw [ClientCommand.branch, if_neg (by simp [hunused.app])]
    rfl
  rw [hbranch, hadd, h.listed.chain.start_eq_none_iff]
  cases world.created <;> simp

theorem branch_isSome_iff (h : Usable client nodes) (hunused : Unused client world.memory)
    (command : ClientCommand) : (command.branch conf world client helper).isSome ↔
      ¬(command = .register ∧ client.applist = none ∧ world.created = false) := by
  cases command with
  | register => simpa using register_isSome_iff h hunused
  | addFile => exact iff_of_true (addSendFile_isSome h hunused _ _ _) (by simp)
  | delect => exact iff_of_true (delApp_isSome h _ _) (by simp)

theorem client_finishes_iff (h : Usable client nodes) (hunused : Unused client world.memory)
    (conf : Section) (hne : chunk ≠ []) :
    Finishes (ProxyClient.handlerMsgC conf world client chunk) ↔
      ¬((∃ command : ClientCommand, chunk = [command.cmdType, 0]) ∨
        (Registers chunk ∧ client.applist = none ∧ world.created = false)) := by
  rw [ProxyClient.handlerMsgC, finishes_iff hne]
  by_cases hformat : wellFormed chunk = true
  · rw [imp_iff_right hformat]
    obtain ⟨cmdType, ⟨rfl, hparts⟩ | ⟨msgLen, body, rfl, hlen, hparts⟩⟩ := parts_cases hformat
    · have hnever : ¬Registers [cmdType, 0] := by
        rintro ⟨-, msgLen, body, hchunk, hlen⟩
        simp only [List.cons.injEq] at hchunk
        exact hlen hchunk.2.1.symm
      rw [or_iff_left fun h => hnever h.1]
      by_cases hknown : ∃ command : ClientCommand, command.cmdType = cmdType
      · obtain ⟨command, rfl⟩ := hknown
        rw [command.requestHandler_null hparts]
        simp
      · rw [ClientCommand.requestHandler_unknown hparts (not_exists.mp hknown)]
        simpa [eq_comm] using hknown
    · have hnull : ¬∃ command : ClientCommand, cmdType :: msgLen :: body = [command.cmdType, 0] := by
        rintro ⟨command, hchunk⟩
        simp only [List.cons.injEq] at hchunk
        exact hlen hchunk.2.1
      have hregisters : Registers (cmdType :: msgLen :: body) ↔ cmdType = cmdRegister := by
        constructor
        · rintro ⟨-, _, _, hchunk, -⟩
          exact (List.cons.inj hchunk).1
        · rintro rfl
          exact ⟨hformat, msgLen, body, rfl, hlen⟩
      rw [or_iff_right hnull, hregisters]
      by_cases hknown : ∃ command : ClientCommand, command.cmdType = cmdType
      · obtain ⟨command, rfl⟩ := hknown
        have hregister : command.cmdType = cmdRegister ↔ command = .register :=
          ClientCommand.cmdType_injective.eq_iff (b := .register)
        rw [command.requestHandler_eq hparts, branch_isSome_iff h hunused, hregister]
      · rw [ClientCommand.requestHandler_unknown hparts (not_exists.mp hknown)]
        refine iff_of_true rfl fun hregister => hknown ⟨.register, hregister.1.symm⟩
  · refine iff_of_true (fun h => absurd h hformat) ?_
    rintro (⟨command, rfl⟩ | ⟨⟨htrue, -⟩, -⟩)
    · exact hformat rfl
    · exact hformat htrue

end

section
variable {server : ProxyServer.Server} {world : ProxyServer.World} {errno : Errno} {chunk : Bytes}

theorem server_finishes_iff (errno : Errno) (server : ProxyServer.Server)
    (hfork : world.fork = -1 ∨ 0 < world.fork ∧ server.children.find world.fork = none)
    (hne : chunk ≠ []) :
    Finishes (ProxyServer.handlerMsgC errno world server chunk) ↔
      ¬∃ command : ServerCommand, chunk = [command.cmdType, 0] := by
  have hdecoded {main : ProxyServer.Main}
      (h : ProxyServer.decode errno (chunk ++ [0]) = some main) :
      (ProxyServer.requestHandler errno world server (chunk ++ [0])).isSome :=
    ProxyServer.requestHandler_isSome h hfork
  rw [ProxyServer.handlerMsgC, finishes_iff hne]
  by_cases hformat : wellFormed chunk = true
  · rw [imp_iff_right hformat]
    obtain ⟨cmdType, ⟨rfl, hparts⟩ | ⟨msgLen, body, rfl, hlen, hparts⟩⟩ := parts_cases hformat
    · by_cases hknown : ∃ command : ServerCommand, command.cmdType = cmdType
      · obtain ⟨command, rfl⟩ := hknown
        rw [ProxyServer.requestHandler, command.decode_null hparts]
        simp
      · refine iff_of_true (hdecoded (ServerCommand.decode_unknown hparts (not_exists.mp hknown))) ?_
        simpa [eq_comm] using hknown
    · have hnull : ¬∃ command : ServerCommand, cmdType :: msgLen :: body = [command.cmdType, 0] := by
        rintro ⟨command, hchunk⟩
        simp only [List.cons.injEq] at hchunk
        exact hlen hchunk.2.1
      refine iff_of_true ?_ hnull
      by_cases hknown : ∃ command : ServerCommand, command.cmdType = cmdType
      · obtain ⟨command, rfl⟩ := hknown
        exact hdecoded (command.decode_eq hparts)
      · exact hdecoded (ServerCommand.decode_unknown hparts (not_exists.mp hknown))
  · refine iff_of_true (fun h => absurd h hformat) ?_
    rintro ⟨command, rfl⟩
    exact hformat rfl

end

theorem usable_of_tidy {state : Sessions.State} {nodes : List (Addr × ProxyClient.AppInfo)}
    (h : Tidy (fun view => ∃ cells, Fed view cells) state nodes) : Usable state.client nodes where
  listed := h.listed
  tids node hnode := by
    obtain ⟨tid, htid, -⟩ := h.tids node hnode
    exact ⟨tid, htid⟩
  queues node hnode := by
    obtain ⟨_, _, _, -, -, -, -, cells, hfed⟩ := h.view hnode
    exact ⟨cells, hfed.serves.queued⟩

/-- A chunk of arbitrary bytes gets its two bytes in reply exactly when it is not a
known command with the length 0 alone, nor the first registration of a client whose
thread cannot be created. -/
theorem finishes_exactly {order : Endian} {conf : Section} {actions : List Sessions.Action}
    {state : Sessions.State} (run : exec (Sessions.step order conf) Sessions.start actions = some state)
    (world : ProxyClient.World) (hunused : Unused state.client world.memory) (errno : Errno)
    (server : ProxyServer.Server) (forked : ProxyServer.World)
    (hfork : forked.fork = -1 ∨ 0 < forked.fork ∧ server.children.find forked.fork = none)
    {chunk : Bytes} (hne : chunk ≠ []) :
    (Finishes (ProxyClient.handlerMsgC conf world state.client chunk) ↔
      ¬((∃ command : ClientCommand, chunk = [command.cmdType, 0]) ∨
        (Registers chunk ∧ state.client.applist = none ∧ world.created = false))) ∧
    (Finishes (ProxyServer.handlerMsgC errno forked server chunk) ↔
      ¬∃ command : ServerCommand, chunk = [command.cmdType, 0]) := by
  obtain ⟨nodes, htidy⟩ := tidy_run closed_fed run
  exact ⟨client_finishes_iff (usable_of_tidy htidy) hunused conf hne,
    server_finishes_iff errno server hfork hne⟩

/-- A registration of two bytes, whose length byte is 0. -/
theorem null_body :
    ¬Finishes (ProxyClient.handlerMsgC [] ⟨.other, 1, true⟩ ProxyClient.new [cmdRegister, 0]) ∧
      ¬Finishes (ProxyServer.handlerMsgC .other ⟨100, 0⟩ ProxyServer.new [cmdRegister, 0]) := by
  constructor
  · rintro ⟨reply, next, hhandled, -⟩
    cases hhandled
  · rintro ⟨reply, next, hhandled, -⟩
    cases hhandled

/-- A length byte of 0 before a body is refused by both. -/
theorem finishes_exactly_refused :
    Finishes (ProxyClient.handlerMsgC [] ⟨.other, 1, true⟩ ProxyClient.new [cmdRegister, 0, 97]) ∧
      Finishes (ProxyServer.handlerMsgC .other ⟨100, 0⟩ ProxyServer.new [cmdRegister, 0, 97]) := by
  have hunused : Unused Sessions.start.client 1 := ⟨rfl, fun _ _ hcell => by cases hcell⟩
  have run : exec (Sessions.step .little []) Sessions.start [] = some Sessions.start := exec_nil _
  have hne : [cmdRegister, 0, 97] ≠ [] := by simp
  have hexact := finishes_exactly run ⟨.other, 1, true⟩ hunused .other ProxyServer.new ⟨100, 0⟩
    (.inr ⟨by decide, rfl⟩) hne
  refine ⟨hexact.1.mpr ?_, hexact.2.mpr ?_⟩
  · rintro (⟨command, hchunk⟩ | ⟨⟨hformat, -⟩, -⟩)
    · simp at hchunk
    · exact absurd hformat (by decide)
  · rintro ⟨command, hchunk⟩
    simp at hchunk

end UdpFileProxy.Crashes
