import UdpFileProxy.Service

/-! The client with all its threads, the network, and for each thread a server: one `Sudp`
with its pool and its files. What a notice says of a file is what the client was asked to send. -/
namespace UdpFileProxy.Deployment
open Lib.Memory Lib.Run Protocol Config FileProcess Sending Sessions RecvFinish
open Sudp (Host Finished expecting)
open Integrity (TakesOwn)
open EndToEnd (Flawless Follows)
open Wires (AllSent)
open Service (Careful Lags Reaches Keeps)
open Receipts (Notice torn)

/-- The servers have `files` when they start. -/
structure Setup where
  ends : EndToEnd.Setup
  threadNum : Nat → Nat
  queueMax : Nat → Int
  share : Nat → ShareInfo
  resolve : Nat → Bytes → Bytes
  files : Nat → Bytes → Option Bytes

def Setup.service (setup : Setup) (tid : Nat) : Service.Setup where
  receipts :=
    ⟨⟨(setup.ends.host tid).info, setup.threadNum tid, setup.queueMax tid⟩, setup.share tid,
      setup.resolve tid⟩
  room := (setup.ends.host tid).room

@[simp] theorem Setup.host_service (setup : Setup) (tid : Nat) :
    (setup.service tid).host = setup.ends.host tid := rfl

structure State where
  sender : Wires.State
  services : List Service.State

def start : State where
  sender := Wires.start
  services := []

inductive Action where
  | client (action : Sessions.Action) (arrives : Bool)
  | service (tid : Nat) (action : Service.Action)

/-- The servers while the client takes a step, with what arrives. -/
def State.arrived (setup : Setup) (state : State) (action : Sessions.Action) (arrives : Bool) :
    List Service.State :=
  match action with
  | .call tid reply =>
      state.services.modify tid fun service =>
        { service with
          sudp := expecting service.sudp
            (if arrives then state.sender.transmitted setup.ends.order setup.ends.disk tid reply
              else []) }
  | _ => state.services

/-- The servers of the threads with these numbers, as they start. -/
def Setup.started (setup : Setup) (first count : Nat) : List Service.State :=
  (List.range' first count).map fun tid =>
    Service.start (setup.service tid) (setup.files tid) []

/-- A thread that has just been made finds its server waiting. -/
def step (setup : Setup) (state : State) (action : Action) : Option State :=
  match action with
  | .client action arrives =>
      (Wires.step setup.ends.order setup.ends.conf setup.ends.disk state.sender action).map
        fun sender =>
          let services := state.arrived setup action arrives
          ⟨sender, services ++
            setup.started services.length (sender.wires.length - services.length)⟩
  | .service tid action =>
      match state.services[tid]? with
      | none => none
      | some service =>
          (Service.step (setup.service tid) service action).map fun next =>
            { state with services := state.services.set tid next }

/-- The disk answers truthfully, nothing is lost if `lossless`, and the servers neither mix
nor disturb files. -/
def Allowed (setup : Setup) (lossless : Bool) (state : State) : Action → Prop
  | .client action arrives =>
      Wires.Answers setup.ends.disk state.sender action ∧ (lossless = true → arrives = true)
  | .service tid action =>
      ∀ service ∈ state.services[tid]?, Service.Allowed (setup.service tid) lossless service action

instance (setup : Setup) (lossless : Bool) (state : State) :
    ∀ action, Decidable (Allowed setup lossless state action)
  | .client action arrives => inferInstanceAs (Decidable
      (Wires.Answers setup.ends.disk state.sender action ∧ (lossless = true → arrives = true)))
  | .service tid action => inferInstanceAs (Decidable (∀ service ∈ state.services[tid]?,
      Service.Allowed (setup.service tid) lossless service action))

/-- A server has nothing left to do. -/
structure AtRest (setup : Service.Setup) (service : Service.State) : Prop where
  incoming : service.sudp.incoming = []
  held : service.sudp.held.isNone
  queue : service.sudp.queue = []
  phase : service.receipts.notify.phase = .msgrcv
  jobs : service.receipts.notify.pool.queueCurNum = 0
  workers : ∀ worker < setup.receipts.notify.threadNum,
    service.receipts.notify.workers worker = .idle

instance (setup : Service.Setup) (service : Service.State) : Decidable (AtRest setup service) :=
  decidable_of_iff (service.sudp.incoming.isEmpty ∧ service.sudp.held.isNone ∧
      service.sudp.queue.isEmpty ∧ service.receipts.notify.phase = .msgrcv ∧
      service.receipts.notify.pool.queueCurNum = 0 ∧
      ∀ worker < setup.receipts.notify.threadNum, service.receipts.notify.workers worker = .idle)
    ⟨fun ⟨incoming, held, queue, phase, jobs, workers⟩ =>
        ⟨List.isEmpty_iff.mp incoming, held, List.isEmpty_iff.mp queue, phase, jobs, workers⟩,
      fun ⟨incoming, held, queue, phase, jobs, workers⟩ =>
        ⟨List.isEmpty_iff.mpr incoming, held, List.isEmpty_iff.mpr queue, phase, jobs, workers⟩⟩

/-- `ends` is the system with servers that take a message in one step. -/
structure Inv (setup : Setup) (lossless : Bool) (ends : EndToEnd.State) (state : State) : Prop where
  whole : EndToEnd.Inv setup.ends lossless (Careful lossless) ends
  sender : ends.sender = state.sender
  services : state.services.length = ends.receivers.length
  lags : ∀ (tid : Nat) (base : Sudp.State) (service : Service.State),
    ends.receivers[tid]? = some base → state.services[tid]? = some service →
    Lags (setup.service tid) lossless base service ∧
      Keeps (setup.service tid) lossless service.receipts

section
variable {setup : Setup} {lossless : Bool} {ends : EndToEnd.State} {state next : State}

theorem inv_start : Inv setup lossless EndToEnd.start start where
  whole := EndToEnd.inv_start
  sender := rfl
  services := rfl
  lags := by simp [start]

theorem careful_expecting (receiver : Sudp.State) (action : Sudp.Action) (later : List Datagram)
    (h : Careful lossless receiver action) : Careful lossless (expecting receiver later) action :=
  h

theorem getElem?_started {first count index : Nat} {service : Service.State}
    (h : (setup.started first count)[index]? = some service) :
    service = Service.start (setup.service (first + index)) (setup.files (first + index)) [] := by
  simp only [Setup.started, List.getElem?_map, Option.map_eq_some_iff] at h
  obtain ⟨tid, htid, rfl⟩ := h
  obtain ⟨hlt, rfl⟩ := List.getElem?_eq_some_iff.mp htid
  rw [List.getElem_range', Nat.one_mul]

theorem lags_arrived (h : Inv setup lossless ends state) {action : Sessions.Action} {arrives : Bool}
    {tid : Nat} {base : Sudp.State} {service : Service.State}
    (hbase : (ends.arrived setup.ends action arrives)[tid]? = some base)
    (hservice : (state.arrived setup action arrives)[tid]? = some service) :
    Lags (setup.service tid) lossless base service ∧
      Keeps (setup.service tid) lossless service.receipts := by
  cases action with
  | call index reply =>
    simp only [EndToEnd.State.arrived, State.arrived, List.getElem?_modify, h.sender] at hbase hservice
    obtain ⟨oldBase, holdBase, rfl⟩ := Option.map_eq_some_iff.mp hbase
    obtain ⟨oldService, holdService, rfl⟩ := Option.map_eq_some_iff.mp hservice
    obtain ⟨hlags, hreceipts⟩ := h.lags tid oldBase oldService holdBase holdService
    by_cases heq : index = tid
    · simp only [if_pos heq]
      exact ⟨hlags.expecting _, hreceipts⟩
    · simp only [if_neg heq]
      exact ⟨hlags, hreceipts⟩
  | _ => exact h.lags tid base service hbase hservice

@[simp] theorem length_arrived (action : Sessions.Action) (arrives : Bool) :
    (state.arrived setup action arrives).length = state.services.length := by
  cases action with
  | call tid reply => simp only [State.arrived, List.length_modify]
  | _ => rfl

@[simp] theorem length_arrived_ends (action : Sessions.Action) (arrives : Bool) :
    (ends.arrived setup.ends action arrives).length = ends.receivers.length := by
  cases action with
  | call tid reply => simp only [EndToEnd.State.arrived, List.length_modify]
  | _ => rfl

theorem Inv.client (h : Inv setup lossless ends state) {action : Sessions.Action} {arrives : Bool}
    (allowed : Allowed setup lossless state (.client action arrives))
    (hstep : Deployment.step setup state (.client action arrives) = some next) :
    ∃ after, Inv setup lossless after next := by
  obtain ⟨sender, hsender, rfl⟩ := Option.map_eq_some_iff.mp hstep
  have hservices : (state.arrived setup action arrives).length = ends.receivers.length :=
    (length_arrived action arrives).trans h.services
  have hends : (ends.arrived setup.ends action arrives).length = ends.receivers.length :=
    length_arrived_ends action arrives
  have hafter : EndToEnd.step setup.ends ends (.client action arrives) =
      some ⟨sender, ends.arrived setup.ends action arrives ++
        List.replicate (sender.wires.length - (ends.arrived setup.ends action arrives).length)
          (Sudp.start [])⟩ := by
    simp only [EndToEnd.step, h.sender, hsender, Option.map_some]
  have hallowed : EndToEnd.Allowed setup.ends lossless (Careful lossless) ends
      (.client action arrives) := by
    simp only [EndToEnd.Allowed, h.sender]
    exact allowed
  have hwhole := h.whole.step careful_expecting hallowed hafter
  refine ⟨_, hwhole, rfl, ?_, ?_⟩
  · simp only [List.length_append, Setup.started, List.length_map, List.length_range',
      List.length_replicate, hservices, hends]
  · intro tid base service hbase hservice
    rw [List.getElem?_append, hends] at hbase
    rw [List.getElem?_append, hservices] at hservice
    split at hbase
    · rename_i hlt
      rw [if_pos hlt] at hservice
      exact lags_arrived h hbase hservice
    · rename_i hge
      rw [if_neg hge] at hservice
      obtain rfl := List.eq_of_mem_replicate (List.mem_of_getElem? hbase)
      obtain rfl := getElem?_started hservice
      rw [Nat.add_sub_cancel' (not_lt.mp hge)]
      exact ⟨Service.lags_start _ _, Service.keeps_start _⟩

theorem Inv.service (h : Inv setup lossless ends state) {tid : Nat} {action : Service.Action}
    (allowed : Allowed setup lossless state (.service tid action))
    (hstep : Deployment.step setup state (.service tid action) = some next) :
    ∃ after, Inv setup lossless after next := by
  unfold Deployment.step at hstep
  dsimp only at hstep
  split at hstep
  · contradiction
  rename_i service hservice
  obtain ⟨changed, hchanged, rfl⟩ := Option.map_eq_some_iff.mp hstep
  have hlt := (List.getElem?_eq_some_iff.mp hservice).1
  have hlt' := hlt
  rw [h.services] at hlt'
  have hbase := List.getElem?_eq_getElem hlt'
  obtain ⟨hlags, hreceipts⟩ := h.lags tid _ service hbase hservice
  have hallowed := allowed service hservice
  obtain ⟨after, ⟨actions, meets, run⟩, hlags'⟩ := hlags.step hallowed hchanged
  have hreceipts' := hreceipts.step hallowed hchanged
  refine ⟨{ ends with receivers := ends.receivers.set tid after },
    h.whole.goesOn hbase fun _ hfollows => hfollows.run meets run, h.sender, ?_, ?_⟩
  · simp only [List.length_set]
    exact h.services
  · intro other base service' hbase' hservice'
    by_cases heq : other = tid
    · subst heq
      dsimp only at hbase' hservice'
      rw [List.getElem?_set_self hlt'] at hbase'
      rw [List.getElem?_set_self hlt] at hservice'
      cases hbase'
      cases hservice'
      exact ⟨hlags', hreceipts'⟩
    · dsimp only at hbase' hservice'
      rw [List.getElem?_set_ne (Ne.symm heq)] at hbase' hservice'
      exact h.lags other base service' hbase' hservice'

theorem reached {final : State} {actions : List Action}
    (allowed : Meets (step setup) (Allowed setup lossless) start actions)
    (run : exec (step setup) start actions = some final) : ∃ ends, Inv setup lossless ends final := by
  have preserved : ∀ state action next, (∃ ends, Inv setup lossless ends state) →
      Allowed setup lossless state action → step setup state action = some next →
      ∃ ends, Inv setup lossless ends next := by
    rintro state action next ⟨ends, h⟩ hallowed hstep
    cases action with
    | client action arrives => exact h.client hallowed hstep
    | service tid action => exact h.service hallowed hstep
  exact exec_invariant preserved ⟨_, inv_start⟩ allowed run

theorem Inv.behind (h : Inv setup lossless ends state) {tid : Nat} {service : Service.State}
    (hservice : state.services[tid]? = some service) : ∃ base,
      ends.receivers[tid]? = some base ∧ Lags (setup.service tid) lossless base service ∧
        Keeps (setup.service tid) lossless service.receipts := by
  have hlt := (List.getElem?_eq_some_iff.mp hservice).1
  rw [h.services] at hlt
  have hbase := List.getElem?_eq_getElem hlt
  exact ⟨_, hbase, h.lags tid _ service hbase hservice⟩

/-- Whatever is lost, fails or interleaves: as long as no server mixes or disturbs files, every
notice that a server sends is for a file that the client accepted for this app, and no job has
two. The announced path is the one made from the name of the file, and what is under it then is
the content that the client's disk has for it, or what `fclose` left of it, exactly as far as the
calls of the move say so. -/
theorem notified_intact {final : State} {actions : List Action} {tid : Nat} {session : Session}
    {service : Service.State}
    (allowed : Meets (step setup) (Allowed setup false) start actions)
    (run : exec (step setup) start actions = some final)
    (hsession : final.sender.client.sessions[tid]? = some session)
    (hservice : final.services[tid]? = some service) :
    (service.receipts.notices.map Notice.number ++ service.receipts.unsent).Nodup ∧
      ∀ notice ∈ service.receipts.notices, ∃ item ∈ session.accepted,
        let path := savePathOf (setup.ends.host tid).info (cstr item.filename)
        let kept := torn (setup.ends.disk.content (cstr item.filename))
          (service.receipts.lost notice.number)
        decodeNotice notice.message = some notice.des ∧
          desOf (setup.share tid) path = some notice.des ∧
          (notice.found = some kept ↔
            Announcements.Complete (setup.resolve tid path = setup.resolve tid notice.des)
              kept notice.old (Announcements.calls notice.past)) := by
  obtain ⟨ends, h⟩ := reached allowed run
  obtain ⟨base, hbase, hlags, ⟨cells, hreceipts⟩, -⟩ := h.behind hservice
  refine ⟨hreceipts.nodup, fun notice hnotice => ?_⟩
  obtain ⟨hdecoded, job, hjob, hdes, hfound⟩ := hreceipts.notices notice hnotice
  have hmem : job ∈ base.jobs.map Finished.job :=
    hlags.accepted.subset (List.mem_append_left _ (List.mem_of_getElem? hjob))
  obtain ⟨done, hdone, rfl⟩ := List.mem_map.mp hmem
  rw [← h.sender] at hsession
  obtain ⟨item, hitem, hsame⟩ := h.whole.intact (fun _ _ hcareful => hcareful.1 rfl) hsession hbase
    done hdone
  rw [Receipts.State.kept, hsame] at hfound
  rw [hsame] at hdes
  exact ⟨item, hitem, hdecoded, hdes, hfound⟩

theorem AtRest.pending {service : Service.State} {tid : Nat} (h : AtRest (setup.service tid) service)
    {files : List SentFile} {abstract : Reassembly.State}
    (hrelated : Refinement.Related (setup.ends.host tid) files service.sudp abstract) :
    Reassembly.pending abstract = [] := by
  have hheld : service.sudp.held = none := Option.isNone_iff_eq_none.mp h.held
  simp [Reassembly.pending, hrelated.incoming, hrelated.held, hrelated.queue, h.incoming, hheld,
    h.queue]

/-- With nothing lost, no failing call of `File_Process`, every notice sent and every file sent
whole: once the thread is through with all files that were accepted for its app, and its server
is at rest, each of them has exactly one notice, which is about its path and its content. -/
theorem all_notified {final : State} {actions : List Action} {tid : Nat} {session : Session}
    {service : Service.State}
    (allowed : Meets (step setup) (Allowed setup true) start actions)
    (run : exec (step setup) start actions = some final)
    (hsession : final.sender.client.sessions[tid]? = some session)
    (hservice : final.services[tid]? = some service)
    (hsent : AllSent setup.ends.disk session.handled)
    (hdone : session.handled.map Handled.item = session.accepted)
    (hrest : AtRest (setup.service tid) service) :
    (service.receipts.notices.map Notice.number).Perm
        (List.range (setup.ends.disk.files session.accepted).length) ∧
      ∀ notice ∈ service.receipts.notices, ∃ file,
        (setup.ends.disk.files session.accepted)[notice.number]? = some file ∧
          let path := savePathOf (setup.ends.host tid).info file.path
          decodeNotice notice.message = some notice.des ∧
            desOf (setup.share tid) path = some notice.des ∧
            (notice.found = some file.content ↔
              Announcements.Complete (setup.resolve tid path = setup.resolve tid notice.des)
                file.content notice.old (Announcements.calls notice.past)) := by
  obtain ⟨ends, h⟩ := reached allowed run
  obtain ⟨base, hbase, hlags, ⟨cells, hreceipts⟩, hunhurt⟩ := h.behind hservice
  obtain ⟨hlost, hunsent⟩ := hunhurt rfl
  have hsame : service.sudp = base := by
    cases hlags.progress with
    | done _ hsame _ => exact hsame
    | working _ _ _ _ _ _ _ _ hworks => simp [hrest.phase] at hworks
    | stopped hstopped => simp [hrest.phase, Receipts.isStopped] at hstopped
  rw [← h.sender] at hsession
  obtain ⟨-, -, hall⟩ := h.whole.received (fun _ _ hcareful => hcareful.2 rfl) hsession hbase hsent
  have hjobs := hall hdone fun abstract hrelated => hrest.pending (hsame ▸ hrelated)
  have haccepted : service.receipts.notify.accepted =
      (setup.ends.disk.files session.accepted).map (Refinement.jobOf (setup.ends.host tid).info) := by
    have hadded := hlags.all rfl (by rw [hrest.phase]; rfl)
    simp only [hrest.phase, Service.pendingJob, List.append_nil] at hadded
    exact hadded.trans hjobs
  refine ⟨?_, fun notice hnotice => ?_⟩
  · have hnumbers := hreceipts.all_noticed hrest.jobs hrest.workers
    rwa [hunsent, List.append_nil, haccepted, List.length_map] at hnumbers
  · obtain ⟨hdecoded, job, hjob, hdes, hfound⟩ := hreceipts.notices notice hnotice
    rw [haccepted, List.getElem?_map] at hjob
    obtain ⟨file, hfile, rfl⟩ := Option.map_eq_some_iff.mp hjob
    rw [Receipts.State.kept, hlost, Receipts.torn_zero] at hfound
    exact ⟨file, hfile, hdecoded, hdes, hfound⟩

end

/-- One app, its one file of one byte, and its server, which moves the file. -/
def oneMoved : Setup where
  ends := EndToEnd.oneByte
  threadNum := fun _ => 6
  queueMax := fun _ => 20
  share := fun _ => ⟨ascii "c", ascii "a", 1⟩
  resolve := fun _ => id
  files := fun _ _ => none

/-- The file is sent, received, moved and announced. -/
def oneMovedRun : List Action :=
  (Removal.sends (ascii "false") (ascii "true")).map (Action.client · true) ++
    ([.recvfrom, .msgsnd, .poll, .works (.process .sprintf 0), .works (.process (.strcat .ok) 0),
      .works (.process (.fwrite .ok) 0), .works (.process (.addJob (some 1)) 0),
      .works (.process (.takeJob 3) 0), .works (.begins 3), .works (.calls 3 (.createDir 0)),
      .works (.calls 3 (.call (.rename true))), .poll, .works (.calls 3 .sent)]
        : List Service.Action).map (Action.service 0)

theorem notified_intact_oneMoved : ∃ final session service,
    exec (step oneMoved) start oneMovedRun = some final ∧
      final.sender.client.sessions[0]? = some session ∧ final.services[0]? = some service ∧
      service.receipts.notices.length = 1 ∧
      ∀ notice ∈ service.receipts.notices, ∃ item ∈ session.accepted,
        desOf (oneMoved.share 0)
          (savePathOf (oneMoved.ends.host 0).info (cstr item.filename)) = some notice.des := by
  have allowed : Meets (step oneMoved) (Allowed oneMoved false) start oneMovedRun := by
    decide +kernel
  have hreached : (exec (step oneMoved) start oneMovedRun).any (fun final =>
      final.sender.client.sessions[0]?.any fun session => final.services[0]?.any fun service =>
        service.receipts.notices.length = 1) = true := by decide +kernel
  obtain ⟨final, run, hfinal⟩ := (Option.any_eq_true _ _).mp hreached
  obtain ⟨session, hsession, hservices⟩ := (Option.any_eq_true _ _).mp hfinal
  obtain ⟨service, hservice, hone⟩ := (Option.any_eq_true _ _).mp hservices
  obtain ⟨-, hnotices⟩ := notified_intact allowed run hsession hservice
  refine ⟨final, session, service, run, hsession, hservice, of_decide_eq_true hone, ?_⟩
  intro notice hnotice
  obtain ⟨item, hitem, -, hdes, -⟩ := hnotices notice hnotice
  exact ⟨item, hitem, hdes⟩

theorem all_notified_oneMoved : ∃ final session service,
    exec (step oneMoved) start oneMovedRun = some final ∧
      final.sender.client.sessions[0]? = some session ∧ final.services[0]? = some service ∧
      AtRest (oneMoved.service 0) service ∧ service.receipts.notices.length = 1 ∧
      (service.receipts.notices.map Notice.number).Perm
        (List.range (oneMoved.ends.disk.files session.accepted).length) := by
  have allowed : Meets (step oneMoved) (Allowed oneMoved true) start oneMovedRun := by
    decide +kernel
  have hreached : (exec (step oneMoved) start oneMovedRun).any (fun final =>
      final.sender.client.sessions[0]?.any fun session => final.services[0]?.any fun service =>
        service.receipts.notices.length = 1 && decide (AllSent oneMoved.ends.disk session.handled) &&
          decide (session.handled.map Handled.item = session.accepted) &&
          decide (AtRest (oneMoved.service 0) service)) = true := by
    decide +kernel
  obtain ⟨final, run, hfinal⟩ := (Option.any_eq_true _ _).mp hreached
  obtain ⟨session, hsession, hservices⟩ := (Option.any_eq_true _ _).mp hfinal
  obtain ⟨service, hservice, htest⟩ := (Option.any_eq_true _ _).mp hservices
  simp only [Bool.and_eq_true, decide_eq_true_eq] at htest
  obtain ⟨⟨⟨hone, hsent⟩, hdone⟩, hrest⟩ := htest
  obtain ⟨hall, -⟩ := all_notified allowed run hsession hservice hsent hdone hrest
  exact ⟨final, session, service, run, hsession, hservice, hrest, hone, hall⟩

end UdpFileProxy.Deployment
