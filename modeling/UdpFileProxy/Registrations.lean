import UdpFileProxy.Sessions

/-! What a registration sets, as the apps of the client keep it. The client checks none of
it: `check_client_add_info` is empty and is never called. -/
namespace UdpFileProxy.Registrations
open Lib.LinkedList Lib.Memory Lib.Run Protocol ProxyClient Config Encoding Sessions
open Adding (Listed)
open Registry (infos withList withTid)
open SendPack (Reply)

structure Settings where
  appName : Bytes
  serverIp : Bytes
  serverPort : Int
  capacity : Int
  deriving DecidableEq, Repr

/-- What `check_server_add_info` asks of the fields that the client has too, and room for
one file. -/
structure Usable (settings : Settings) : Prop where
  appName : settings.appName ≠ []
  serverIp : settings.serverIp ≠ []
  serverPort : 0 ≤ settings.serverPort ∧ settings.serverPort ≤ 65535
  capacity : 1 ≤ settings.capacity

instance (settings : Settings) : Decidable (Usable settings) :=
  decidable_of_iff (settings.appName ≠ [] ∧ settings.serverIp ≠ [] ∧
      (0 ≤ settings.serverPort ∧ settings.serverPort ≤ 65535) ∧ 1 ≤ settings.capacity)
    ⟨fun ⟨appName, serverIp, serverPort, capacity⟩ => ⟨appName, serverIp, serverPort, capacity⟩,
      fun h => ⟨h.appName, h.serverIp, h.serverPort, h.capacity⟩⟩

def settings (app : AppInfo) : Settings where
  appName := app.appName
  serverIp := app.serverIp
  serverPort := app.serverPort
  capacity := app.listC.maxCount

/-- What the getters read of a body, each with its own value for what is missing. -/
def provided (errno : Errno) (helper : Section) : Settings :=
  let serverPort := confGetNumber helper (ascii "server_port") errno
  { appName := confGetString helper (ascii "app_name")
    serverIp := confGetString helper (ascii "server_ip")
    serverPort := serverPort.1
    capacity := (confGetNumber helper (ascii "max_file") serverPort.2).1 }

def settingsAt (heap : Heap AppInfo) (info : Addr) : Option Settings := (valueAt heap info).map settings

/-- What was set for each thread that was ever started. -/
def registered (client : Client) : List (Option Settings) := (infos client).map (settingsAt client.heap)

/-- The apps in the list. -/
def listed (client : Client) : List (Addr × AppInfo) := follow client.heap client.nodes client.applist

/-- A `CMD_ADD_FILE` for the app is answered with `E_OK`. -/
def Accepts (conf : Section) (client : Client) (app : AppInfo) : Prop :=
  ∀ world input helper, requested input = some (.addFile, helper) →
    confGetString helper (ascii "app_name") = app.appName → app.listC.heap world.memory = none →
    ∃ next, handlerMsgC conf world client input = some ([UInt8.ofInt eOk, 0], next)

/-- The history of an app. -/
def sessionOf (state : State) (app : AppInfo) : Option Session :=
  app.tid.bind fun tid => state.sessions[tid]?

/-- Each app is usable: a file finds room in its queue when that is empty, as it is before
the first one was accepted. -/
def Sound (conf : Section) (state : State) : Prop :=
  ∀ node ∈ listed state.client, Usable (settings node.2) ∧
    (node.2.listC.listCount = 0 → Accepts conf state.client node.2) ∧
    ∃ session, sessionOf state node.2 = some session ∧
      (session.accepted = [] → node.2.listC.listCount = 0)

/-- A registration that does not provide what an app needs is not answered with `E_OK`. -/
def Refuses (conf : Section) (state : State) : Action → Prop
  | .request world input => ∀ helper reply next, requested input = some (.register, helper) →
      ¬Usable (provided world.errno helper) →
      handlerMsgC conf world state.client input = some (reply, next) → reply ≠ [UInt8.ofInt eOk, 0]
  | _ => True

/-- A registration provides what an app needs, or its name is taken or no thread can be
created for it. -/
def Allowed (state : State) : Action → Prop
  | .request world input => ∀ helper, requested input = some (.register, helper) →
      Usable (provided world.errno helper) ∨
        (provided world.errno helper).appName ∈ (listed state.client).map (fun node => node.2.appName) ∨
        world.created = false
  | _ => True

section
variable {order : Endian} {conf helper : Section} {P : View → Prop} {state next : State}
  {nodes : List (Addr × AppInfo)} {client client' : Client} {world : World} {ret : Int}
  {heap : Heap AppInfo} {addr info memory : Addr} {app : AppInfo} {list list' : SendList}

theorem settings_registration (conf : Section) (errno : Errno) (helper : Section) (tid : Nat) :
    settings (withTid tid (registration conf errno helper)) = provided errno helper := rfl

@[simp] theorem settingsAt_setNext (heap : Heap AppInfo) (addr : Addr) (next : Option Addr) :
    settingsAt (setNext heap addr next) = settingsAt heap := by
  funext info
  rw [settingsAt, settingsAt, Registry.valueAt_setNext]

theorem settingsAt_setValue {change : AppInfo → AppInfo}
    (hsame : ∀ app, valueAt heap addr = some app → settings (change app) = settings app) :
    settingsAt (setValue heap addr change) = settingsAt heap := by
  funext info
  by_cases heq : info = addr
  · subst heq
    cases happ : valueAt heap info with
    | none =>
      have hnone : heap info = none := Option.map_eq_none_iff.mp happ
      simp [settingsAt, valueAt, setValue, hnone]
    | some app =>
      rw [settingsAt, settingsAt, Registry.valueAt_setValue_self happ, happ, Option.map_some,
        Option.map_some, hsame app happ]
  · rw [settingsAt, settingsAt, Registry.valueAt_setValue_of_ne heq]

theorem registered_congr (hinfos : infos client' = infos client)
    (hheap : settingsAt client'.heap = settingsAt client.heap) :
    registered client' = registered client := by
  rw [registered, registered, hinfos, hheap]

theorem getNext_maxCount {data : Option Addr} (h : SendList.getNext list = some (data, list')) :
    list'.maxCount = list.maxCount := by
  unfold SendList.getNext at h
  split at h
  · cases h
    rfl
  split at h
  · cases h
    rfl
  · obtain ⟨cell, -, hpair⟩ := Option.map_eq_some_iff.mp h
    cases hpair
    rfl

theorem appendFile_maxCount {filename : Bytes} {delect : Bool}
    (h : SendList.appendFile list filename delect memory = some (ret, list')) :
    list'.maxCount = list.maxCount := by
  unfold SendList.appendFile at h
  split at h
  · cases h
    rfl
  generalize (if list.stat = sIdle then sBusy else list.stat) = stat at h
  dsimp only at h
  split at h
  · cases h
    rfl
  · cases h
    rfl
  · contradiction

theorem calls_maxCount {session session' : Session} {pc pc' : FileThread.Pc}
    (h : Calls order list session pc list' pc' session') : list'.maxCount = list.maxCount := by
  cases h with
  | getNext data rest handed => exact getNext_maxCount handed
  | _ => rfl

theorem call_registered {tid : Nat} {reply : Reply}
    (hstep : Bandwidth.stepCall order client tid reply = some client') :
    registered client' = registered client := by
  obtain ⟨thread, app, speed, list, thread', hthread, -, happ, hcalled, rfl⟩ := stepCall_eq hstep
  obtain ⟨hinfo, -, hcalls⟩ := calls_of_step (.start false) hcalled
  refine registered_congr (infos_set hthread hinfo) (settingsAt_setValue ?_)
  intro other hother
  obtain rfl := Option.some.inj (happ.symm.trans hother)
  have hmax := calls_maxCount hcalls
  simp only [settings, withList, hmax]

theorem cancel_registered {tid : Nat} (hstep : Bandwidth.stepCancel client tid = some client') :
    registered client' = registered client := by
  unfold Bandwidth.stepCancel at hstep
  split at hstep
  · contradiction
  rename_i thread hthread
  split at hstep
  · cases hstep
    exact registered_congr (infos_set hthread rfl) rfl
  · contradiction

@[simp] theorem unlinkApp_registered (client : Client) (per : Addr) (link : Option Addr) (tmp : Addr) :
    registered (Registry.unlinkApp client per link tmp) = registered client := by
  unfold Registry.unlinkApp
  split
  · rfl
  · exact registered_congr rfl (settingsAt_setNext _ _ _)

@[simp] theorem stopThread_registered (client : Client) (opt : Int) (tid : Nat) (tmp : Addr) :
    registered (Registry.stopThread client opt tid tmp) = registered client := by
  unfold Registry.stopThread
  split
  · exact registered_congr (Registry.infos_cancelThread client tid) rfl
  split
  · exact registered_congr rfl (settingsAt_setValue fun _ _ => rfl)
  · rfl

theorem delApp_registered {appName : Bytes} {opt : Int}
    (hdel : ProxyClient.delApp client appName opt = some (ret, client')) :
    registered client' = registered client := by
  rcases Registry.delApp_cases hdel with rfl | ⟨per, link, tmp, tid, rfl⟩
  · rfl
  · simp

theorem addSendFile_registered (h : Listed client nodes) {appName filename : Bytes} {delect : Bool}
    (hadd : ProxyClient.addSendFile client appName filename delect memory = some (ret, client')) :
    registered client' = registered client := by
  cases hfirst : client.applist with
  | none =>
    rw [ProxyClient.addSendFile, hfirst] at hadd
    cases hadd
    rfl
  | some first =>
    obtain ⟨addr, app, link, hloop, hmem, -⟩ :=
      Registry.addSendFileLoop_eq appName (hfirst ▸ h.chain) h.bound
    simp only [ProxyClient.addSendFile, hfirst, hloop] at hadd
    split at hadd
    · split at hadd
      · contradiction
      · obtain ⟨⟨code, list⟩, happended, hpair⟩ := Option.map_eq_some_iff.mp hadd
        cases hpair
        refine registered_congr rfl ?_
        dsimp only
        rw [settingsAt_setValue]
        intro other hother
        obtain rfl := Option.some.inj ((h.chain.valueAt hmem).symm.trans hother)
        have hmax := appendFile_maxCount happended
        simp only [settings, hmax]
    · cases hadd
      rfl

theorem register_branch
    (hbranch : ClientCommand.register.branch conf world client helper = some (ret, client')) :
    client.heap world.memory = none ∧
      addApp (Registry.allocate client world.memory (registration conf world.errno helper))
        world.memory world.created = some (ret, client') := by
  rw [ClientCommand.branch] at hbranch
  split at hbranch
  · contradiction
  · rename_i hmemory
    exact ⟨by simpa using hmemory, hbranch⟩

theorem register_eOk_iff (h : Listed client nodes)
    (hbranch : ClientCommand.register.branch conf world client helper = some (ret, client')) :
    ret = eOk ↔ (provided world.errno helper).appName ∉ nodes.map (fun node => node.2.appName) ∧
      world.created = true := by
  obtain ⟨hfree, hadd⟩ := register_branch hbranch
  exact Adding.addApp_eOk_iff (h.allocate hfree _) (Function.update_self _ _ _) hadd

theorem register_added (h : Listed client nodes)
    (hbranch : ClientCommand.register.branch conf world client helper = some (eOk, client')) :
    Chain client'.heap client'.applist (nodes ++ [(world.memory,
      withTid client.threads.length (registration conf world.errno helper))]) := by
  obtain ⟨hfree, hadd⟩ := register_branch hbranch
  have hnot := h.chain.notMem_of_free hfree
  exact (addApp_added (h.allocate hfree _) (Function.update_self _ _ _) hnot hadd).added rfl

theorem register_registered (h : Tidy P state nodes)
    (hbranch : ClientCommand.register.branch conf world state.client helper = some (ret, client')) :
    registered client' = registered state.client ++
      if ret = eOk then [some (provided world.errno helper)] else [] := by
  obtain ⟨hfree, hadd⟩ := register_branch hbranch
  obtain ⟨-, -, hheap, hthreads⟩ := addApp_frame hadd
  have hold : (infos state.client).map (settingsAt client'.heap) = registered state.client := by
    refine List.map_congr_left fun info hinfo => ?_
    have hne : info ≠ world.memory := by
      rintro rfl
      exact h.notMem_infos hfree hinfo
    rw [settingsAt, hheap info hne]
    exact congrArg (fun cell => (Option.map Cell.value cell).map settings)
      (Function.update_of_ne hne _ _)
  have hinfos : infos client' = infos state.client ++ if ret = eOk then [world.memory] else [] := by
    rw [infos, hthreads, List.map_append]
    split <;> rfl
  rw [registered, hinfos, List.map_append, hold]
  split
  · rename_i hok
    subst hok
    have hmem := (register_added h.listed hbranch).valueAt (List.mem_append_right _ List.mem_cons_self)
    rw [List.map_singleton, settingsAt, hmem, Option.map_some, settings_registration]
  · rfl

theorem step_registered (h : Tidy P state nodes) {action : Action}
    (hstep : Sessions.step order conf state action = some next) :
    registered next.client = registered state.client ∨
      ∃ world input helper, action = .request world input ∧
        requested input = some (.register, helper) ∧
        (provided world.errno helper).appName ∉ nodes.map (fun node => node.2.appName) ∧
        world.created = true ∧
        registered next.client = registered state.client ++ [some (provided world.errno helper)] := by
  unfold Sessions.step at hstep
  split at hstep
  · contradiction
  cases action with
  | request world input =>
    obtain ⟨⟨reply, client⟩, hrequest, rfl⟩ := Option.map_eq_some_iff.mp hstep
    rcases request_cases hrequest with ⟨-, rfl⟩ | ⟨command, helper, ret, hsome, hbranch, -⟩
    · exact .inl rfl
    cases command with
    | register =>
      have hregistered := register_registered h hbranch
      by_cases hok : ret = eOk
      · obtain ⟨hname, hcreated⟩ := (register_eOk_iff h.listed hbranch).mp hok
        rw [if_pos hok] at hregistered
        exact .inr ⟨world, input, helper, rfl, hsome, hname, hcreated, hregistered⟩
      · rw [if_neg hok, List.append_nil] at hregistered
        exact .inl hregistered
    | addFile => exact .inl (addSendFile_registered h.listed hbranch)
    | delect => exact .inl (delApp_registered hbranch)
  | delApp appName opt =>
    obtain ⟨⟨ret, client⟩, hdel, rfl⟩ := Option.map_eq_some_iff.mp hstep
    exact .inl (delApp_registered hdel)
  | call tid reply =>
    obtain ⟨client, hcall, rfl⟩ := Option.map_eq_some_iff.mp hstep
    exact .inl (call_registered hcall)
  | cancel tid =>
    obtain ⟨client, hcancel, rfl⟩ := Option.map_eq_some_iff.mp hstep
    exact .inl (cancel_registered hcancel)

theorem listed_eq (h : Listed client nodes) : listed client = nodes := h.chain.follow_eq h.bound

theorem registered_of_mem (h : Tidy P state nodes) (hmem : (addr, app) ∈ nodes) :
    some (settings app) ∈ registered state.client := by
  obtain ⟨tid, -, hinfo⟩ := h.tids _ hmem
  refine List.mem_map.mpr ⟨addr, List.mem_of_getElem? hinfo, ?_⟩
  rw [settingsAt, h.listed.chain.valueAt hmem, Option.map_some]

theorem handlerMsgC_requested {input : Bytes} {command : ClientCommand}
    (h : requested input = some (command, helper)) (conf : Section) (world : World) (client : Client) :
    handlerMsgC conf world client input = (command.branch conf world client helper).map
      fun handled => ([UInt8.ofInt handled.1, 0], handled.2) := by
  unfold requested at h
  split at h
  · rename_i hformat
    have hne : input.isEmpty = false := by
      cases input with
      | nil => contradiction
      | cons byte rest => rfl
    split at h
    · rename_i cmdType msg hparts
      obtain ⟨found, hfind, hpair⟩ := Option.map_eq_some_iff.mp h
      cases hpair
      have hcommand : command.cmdType = cmdType := by simpa using List.find?_some hfind
      subst hcommand
      rw [handlerMsgC, Manager.handlerMsgC, hne, hformat, command.requestHandler_eq hparts]
      rfl
    · contradiction
  · contradiction

theorem accepts (h : Tidy (fun view => ∃ cells, Fed view cells) state nodes)
    (hmem : (addr, app) ∈ nodes) (hcount : app.listC.listCount = 0) (hroom : 1 ≤ app.listC.maxCount)
    (conf : Section) : Accepts conf state.client app := by
  intro world input helper hrequested hname hfree
  obtain ⟨first, hfirst⟩ := h.listed.chain.exists_start hmem
  obtain ⟨addr', app', link, hloop, hmem', hcases⟩ :=
    Registry.addSendFileLoop_eq app.appName (hfirst ▸ h.listed.chain) h.listed.bound
  have hsame : (addr', app') = (addr, app) :=
    List.inj_on_of_nodup_map h.names hmem' hmem (hcases.resolve_right fun habsent => habsent _ hmem rfl)
  cases hsame
  obtain ⟨_, _, _, -, -, -, -, cells, hfed⟩ := h.view hmem
  have hqueued : SendList.Queued app.listC cells := hfed.serves.queued
  have hcells : (cells.length : Int) < app.listC.maxCount := by
    rw [← hqueued.count, hcount]
    omega
  obtain ⟨list, happend, -⟩ := hqueued.appendFile hcells hfree
    (confGetString helper (ascii "file_name")) (confGetBool helper (ascii "delect"))
  rw [handlerMsgC_requested hrequested, ClientCommand.branch, hname,
    Registry.addSendFile_found hfirst hloop hfree happend]
  exact ⟨_, rfl⟩

theorem empty_before_first (h : Tidy (fun view => ∃ cells, Fed view cells) state nodes)
    (hmem : (addr, app) ∈ nodes) : ∃ session, sessionOf state app = some session ∧
      (session.accepted = [] → app.listC.listCount = 0) := by
  obtain ⟨tid, thread, session, htid, -, -, hsession, cells, hfed⟩ := h.view hmem
  refine ⟨session, by rw [sessionOf, htid, Option.bind_some, hsession], ?_⟩
  intro hnone
  rw [hfed.accepted, List.append_eq_nil_iff, List.map_eq_nil_iff] at hnone
  have hcount : app.listC.listCount = cells.length := hfed.serves.queued.count
  rw [hcount, hnone.2]
  rfl

/-- What was registered is usable; `nodes` are the apps in the list. -/
structure Served (state : State) (nodes : List (Addr × AppInfo)) : Prop where
  tidy : Tidy (fun view => ∃ cells, Fed view cells) state nodes
  usable : ∀ settings, some settings ∈ registered state.client → Usable settings

theorem Served.sound (h : Served state nodes) (conf : Section) : Sound conf state := by
  rintro ⟨addr, app⟩ hmem
  rw [listed_eq h.tidy.listed] at hmem
  have husable := h.usable _ (registered_of_mem h.tidy hmem)
  exact ⟨husable, fun hcount => accepts h.tidy hmem hcount husable.capacity conf,
    empty_before_first h.tidy hmem⟩

theorem Served.step (h : Served state nodes) {action : Action} (hallowed : Allowed state action)
    (hstep : Sessions.step order conf state action = some next) : ∃ nodes', Served next nodes' := by
  obtain ⟨nodes', htidy⟩ := h.tidy.step closed_fed hstep
  refine ⟨nodes', htidy, ?_⟩
  rcases step_registered h.tidy hstep with
    hsame | ⟨world, input, helper, rfl, hrequested, hname, hcreated, hregistered⟩
  · rw [hsame]
    exact h.usable
  · have hprovided : Usable (provided world.errno helper) := by
      rcases hallowed helper hrequested with hprovided | htaken | hfailed
      · exact hprovided
      · rw [listed_eq h.tidy.listed] at htaken
        exact absurd htaken hname
      · rw [hcreated] at hfailed
        contradiction
    rw [hregistered]
    intro settings hmem
    rcases List.mem_append.mp hmem with hold | hnew
    · exact h.usable settings hold
    · obtain rfl := Option.some.inj (List.mem_singleton.mp hnew)
      exact hprovided

theorem broken (h : Tidy (fun view => ∃ cells, Fed view cells) state nodes) {action : Action}
    (hbroken : ¬Allowed state action) (hstep : Sessions.step order conf state action = some next) :
    ¬Sound conf next := by
  obtain ⟨nodes', htidy⟩ := h.step closed_fed hstep
  cases action with
  | request world input =>
    simp only [Allowed, not_forall, not_or, listed_eq h.listed] at hbroken
    obtain ⟨helper, hrequested, hunusable, hname, hcreated⟩ := hbroken
    unfold Sessions.step at hstep
    split at hstep
    · contradiction
    obtain ⟨⟨reply, client⟩, hrequest, rfl⟩ := Option.map_eq_some_iff.mp hstep
    rw [handlerMsgC_requested hrequested] at hrequest
    obtain ⟨⟨ret, client'⟩, hbranch, hpair⟩ := Option.map_eq_some_iff.mp hrequest
    cases hpair
    obtain rfl := (register_eOk_iff h.listed hbranch).mpr ⟨hname, by simpa using hcreated⟩
    have hnodes := htidy.listed.chain.unique (register_added h.listed hbranch)
    intro hsound
    have hlast := hsound (world.memory, _) (by
      rw [listed_eq htidy.listed, hnodes]
      exact List.mem_append_right _ List.mem_cons_self)
    rw [settings_registration] at hlast
    exact hunusable hlast.1
  | _ => exact absurd trivial hbroken

theorem refuses (h : Listed state.client nodes) {action : Action} (hallowed : Allowed state action)
    (conf : Section) : Refuses conf state action := by
  cases action with
  | request world input =>
    intro helper reply next hrequested hunusable hhandled
    rw [handlerMsgC_requested hrequested] at hhandled
    obtain ⟨⟨ret, client'⟩, hbranch, hpair⟩ := Option.map_eq_some_iff.mp hhandled
    cases hpair
    intro hreply
    have hok := (branch_reply hbranch).mp hreply
    obtain ⟨hname, hcreated⟩ := (register_eOk_iff h hbranch).mp hok
    rcases hallowed helper hrequested with hprovided | htaken | hfailed
    · exact hunusable hprovided
    · exact hname (listed_eq h ▸ htaken)
    · rw [hcreated] at hfailed
      contradiction
  | _ => trivial

theorem served_start : Served start [] where
  tidy := tidy_start
  usable _ hmem := by cases hmem

/-- In every state of a run the apps are usable, and no registration that provides too
little is accepted, exactly when each registration provides enough, or could not have
been accepted anyway. -/
theorem usable_exactly {actions : List Action}
    (run : exec (step order conf) start actions = some next) :
    Always (step order conf) (Sound conf) start actions ∧
        Meets (step order conf) (Refuses conf) start actions ↔
      Meets (step order conf) Allowed start actions := by
  have hpreserved : ∀ state action next, (∃ nodes, Served state nodes) → Allowed state action →
      step order conf state action = some next → ∃ nodes, Served next nodes := by
    rintro state action next ⟨nodes, h⟩ hallowed hstep
    exact h.step hallowed hstep
  have hstart : ∃ nodes, Served start nodes := ⟨[], served_start⟩
  have halways : Always (step order conf) (Sound conf) start actions ↔
      Meets (step order conf) Allowed start actions := by
    refine always_iff_meets ?_ hpreserved ?_ hstart run
    · rintro state ⟨nodes, h⟩
      exact h.sound conf
    · rintro state action next ⟨nodes, h⟩ hbroken hstep
      exact broken h.tidy hbroken hstep
  have hagree : ∀ state action, (∃ nodes, Served state nodes) → True →
      (Refuses conf state action ∧ Allowed state action ↔ Allowed state action) := by
    rintro state action ⟨nodes, h⟩ -
    exact and_iff_right_of_imp fun hallowed => refuses h.tidy.listed hallowed conf
  have hboth := meets_congr hagree (fun state action next h _ => hpreserved state action next h)
    hstart (meets_of_forall (fun _ _ => trivial) start actions)
  refine ⟨fun h => halways.mp h.1, fun hallowed => ⟨halways.mpr hallowed, ?_⟩⟩
  exact (hboth.mpr hallowed).mono fun _ _ h => h.1

end

/-- A registration with this body, and a file for its app. -/
def registerThenAdd (body : Bytes) : List Action :=
  [.request ⟨.other, 1, true⟩ (Manager.frame cmdRegister body),
    .request ⟨.other, 2, true⟩ (Manager.frame cmdAddFile (ascii "app_name=a,file_name=f"))]

def withoutMaxFile : Bytes := ascii "app_name=a,server_ip=b,server_port=1"

def withMaxFile : Bytes := ascii "app_name=a,server_ip=b,server_port=1,max_file=2"

/-- Without `max_file` the capacity is -1: the registration is accepted, and the app's
first file finds its queue full. -/
theorem accepted_without_maxFile :
    (∃ client, handlerMsgC [] ⟨.other, 1, true⟩ start.client (Manager.frame cmdRegister withoutMaxFile) =
        some ([UInt8.ofInt eOk, 0], client) ∧
      (handlerMsgC [] ⟨.other, 2, true⟩ client
        (Manager.frame cmdAddFile (ascii "app_name=a,file_name=f"))).map Prod.fst =
          some [UInt8.ofInt eFull, 0]) ∧
      (∃ next, exec (step .little []) start (registerThenAdd withoutMaxFile) = some next ∧
        ¬Sound [] next) ∧
      ¬Meets (step .little []) (Refuses []) start (registerThenAdd withoutMaxFile) := by
  have hunusable : ¬Usable ⟨ascii "a", ascii "b", 1, -1⟩ := by decide
  refine ⟨⟨_, rfl, by decide +kernel⟩, ?_, ?_⟩
  · have hsome : (exec (step .little []) start (registerThenAdd withoutMaxFile)).isSome = true := by
      decide +kernel
    obtain ⟨next, run⟩ := Option.isSome_iff_exists.mp hsome
    have hlisted : (exec (step .little []) start (registerThenAdd withoutMaxFile)).map
        (fun next => (listed next.client).map fun node => settings node.2) =
          some [⟨ascii "a", ascii "b", 1, -1⟩] := by decide +kernel
    rw [run, Option.map_some, Option.some.injEq] at hlisted
    obtain ⟨node, hnode, hsettings⟩ := List.mem_map.mp (hlisted ▸ List.mem_singleton_self _)
    refine ⟨next, run, fun hsound => ?_⟩
    have husable := (hsound node hnode).1
    rw [hsettings] at husable
    exact hunusable husable
  · rintro ⟨hrefuses, -⟩
    have hprovided : provided .other (confPraseLine withoutMaxFile (ascii ",")) =
        ⟨ascii "a", ascii "b", 1, -1⟩ := by decide +kernel
    exact hrefuses _ _ _ rfl (hprovided ▸ hunusable) rfl rfl

/-- With all fields. -/
theorem usable_exactly_complete :
    Always (step .little []) (Sound []) start (registerThenAdd withMaxFile) ∧
      Meets (step .little []) (Refuses []) start (registerThenAdd withMaxFile) := by
  have hsome : (exec (step .little []) start (registerThenAdd withMaxFile)).isSome = true := by
    decide +kernel
  obtain ⟨final, run⟩ := Option.isSome_iff_exists.mp hsome
  refine (usable_exactly run).mpr ⟨?_, fun next _ => ⟨?_, fun _ _ => trivial⟩⟩
  · intro helper hrequested
    have hprovided : (requested (Manager.frame cmdRegister withMaxFile)).map
        (fun found => provided .other found.2) = some ⟨ascii "a", ascii "b", 1, 2⟩ := by decide +kernel
    rw [hrequested, Option.map_some, Option.some.injEq] at hprovided
    rw [hprovided]
    exact .inl (by decide)
  · intro helper hrequested
    have hcommand : (requested (Manager.frame cmdAddFile (ascii "app_name=a,file_name=f"))).map Prod.fst =
        some .addFile := by decide +kernel
    rw [hrequested] at hcommand
    cases hcommand

end UdpFileProxy.Registrations
