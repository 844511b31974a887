import UdpFileProxy.Wires
import UdpFileProxy.Lib.Extension
import UdpFileProxy.Integrity

/-! The client with all its threads, the network, and one `Sudp` for each thread. The
network hands datagrams on in order and may lose any of them. -/
namespace UdpFileProxy.EndToEnd
open Lib.Memory Lib.Run Protocol Config FileProcess Sending Sessions Wires Refinement
open Sudp (Host Finished expecting)
open Integrity (TakesOwn Intact lossy_start intact_of_sound)

/-- The servers were registered by frames as well, and both sides store integers alike. -/
structure Setup where
  order : Endian
  conf : Section
  disk : Disk
  host : Nat → Host
  order_eq : ∀ tid, (host tid).info.order = order
  dir1_le : ∀ tid, (host tid).info.dir1.length ≤ 255
  appName_le : ∀ tid, (host tid).info.appName.length ≤ 255

structure State where
  sender : Wires.State
  receivers : List Sudp.State

def start : State where
  sender := Wires.start
  receivers := []

/-- `arrives` is what the network does with a datagram that the call sends. -/
inductive Action where
  | client (action : Sessions.Action) (arrives : Bool)
  | receiver (tid : Nat) (action : Sudp.Action)

/-- The receivers while the client takes a step, with what arrives. -/
def State.arrived (setup : Setup) (state : State) (action : Sessions.Action) (arrives : Bool) :
    List Sudp.State :=
  match action with
  | .call tid reply =>
      state.receivers.modify tid fun receiver => expecting receiver
        (if arrives then state.sender.transmitted setup.order setup.disk tid reply else [])
  | _ => state.receivers

/-- A thread that has just been made finds its server waiting. -/
def step (setup : Setup) (state : State) (action : Action) : Option State :=
  match action with
  | .client action arrives =>
      (Wires.step setup.order setup.conf setup.disk state.sender action).map fun sender =>
        let receivers := state.arrived setup action arrives
        ⟨sender, receivers ++
          List.replicate (sender.wires.length - receivers.length) (Sudp.start [])⟩
  | .receiver tid action =>
      match state.receivers[tid]? with
      | none => none
      | some receiver =>
          (Sudp.step (setup.host tid) receiver action).map fun next =>
            { state with receivers := state.receivers.set tid next }

/-- No call of `File_Process` fails. -/
def Flawless (_ : Sudp.State) (action : Sudp.Action) : Prop := perform (abstraction action) = action

instance (state : Sudp.State) (action : Sudp.Action) : Decidable (Flawless state action) :=
  inferInstanceAs (Decidable (perform (abstraction action) = action))

/-- The disk answers truthfully, nothing is lost if `lossless`, and the receivers meet a
condition of their own. -/
def Allowed (setup : Setup) (lossless : Bool) (condition : Sudp.State → Sudp.Action → Prop)
    (state : State) : Action → Prop
  | .client action arrives =>
      Answers setup.disk state.sender action ∧ (lossless = true → arrives = true)
  | .receiver tid action => ∀ receiver ∈ state.receivers[tid]?, condition receiver action

instance decidableAllowed (setup : Setup) (lossless : Bool)
    (condition : Sudp.State → Sudp.Action → Prop)
    [∀ receiver action, Decidable (condition receiver action)] (state : State) :
    ∀ action, Decidable (Allowed setup lossless condition state action)
  | .client action arrives => inferInstanceAs (Decidable
      (Answers setup.disk state.sender action ∧ (lossless = true → arrives = true)))
  | .receiver tid action => inferInstanceAs (Decidable
      (∀ receiver ∈ state.receivers[tid]?, condition receiver action))

/-! ### One receiver -/

/-- `Sudp` came here from its start, with these datagrams on their way. -/
def Follows (host : Host) (condition : Sudp.State → Sudp.Action → Prop) (arrivals : List Datagram)
    (receiver : Sudp.State) : Prop :=
  ∃ actions, Meets (Sudp.step host) condition (Sudp.start arrivals) actions ∧
    exec (Sudp.step host) (Sudp.start arrivals) actions = some receiver

section
variable {host : Host} {condition : Sudp.State → Sudp.Action → Prop} {arrivals later : List Datagram}
  {receiver next : Sudp.State} {action : Sudp.Action} {files : List SentFile}

theorem follows_start : Follows host condition arrivals (Sudp.start arrivals) := ⟨[], trivial, rfl⟩

theorem Follows.step (h : Follows host condition arrivals receiver) (hcondition : condition receiver action)
    (hstep : Sudp.step host receiver action = some next) : Follows host condition arrivals next := by
  obtain ⟨actions, meets, run⟩ := h
  exact ⟨actions ++ [action], meets.concat run hcondition, exec_concat run hstep⟩

theorem Follows.run {actions : List Sudp.Action} (h : Follows host condition arrivals receiver)
    (meets : Meets (Sudp.step host) condition receiver actions)
    (run : exec (Sudp.step host) receiver actions = some next) :
    Follows host condition arrivals next :=
  exec_invariant (fun _ _ _ => Follows.step) h meets run

theorem Follows.mono {weaker : Sudp.State → Sudp.Action → Prop}
    (h : Follows host condition arrivals receiver)
    (weakens : ∀ receiver action, condition receiver action → weaker receiver action) :
    Follows host weaker arrivals receiver := by
  obtain ⟨actions, meets, run⟩ := h
  exact ⟨actions, meets.mono weakens, run⟩

theorem Follows.expecting (h : Follows host condition arrivals receiver)
    (kept : ∀ receiver action, condition receiver action →
      condition (expecting receiver later) action) :
    Follows host condition (arrivals ++ later) (expecting receiver later) := by
  obtain ⟨actions, meets, run⟩ := h
  obtain ⟨meets, run⟩ := exec_commutes (fun _ _ _ hstep => Sudp.step_expecting later hstep) kept meets run
  exact ⟨actions, meets, run⟩

theorem takesOwn_expecting (receiver : Sudp.State) (action : Sudp.Action) (later : List Datagram)
    (h : TakesOwn receiver action) : TakesOwn (expecting receiver later) action := h

theorem Follows.intact (h : Follows host TakesOwn arrivals receiver)
    (hlost : arrivals.Sublist (stream host.info.order files)) :
    ∀ done ∈ receiver.jobs, Intact host.info files done := by
  obtain ⟨actions, meets, run⟩ := h
  have genuine : ∀ sent ∈ arrivals, Genuine host.info.order files sent.origin sent.bytes :=
    fun sent hsent => genuine_of_mem_stream _ (hlost.subset hsent)
  obtain ⟨abstract, hlossy, hjobs, -⟩ := exec_refines (Integrity.Lossy (count files)) genuine
    (lossy_start hlost) (fun _ _ _ related _ takes => (takes.own related).keepsName)
    (fun _ _ _ _ related lossy takes hstep => lossy.step (takes.own related) hstep) meets run
  exact intact_of_sound hlossy.sound hjobs

theorem Follows.inOrder (h : Follows host Flawless (stream host.info.order files) receiver)
    (fits : Fits host.info files) : ∃ abstract,
    Delivery.InOrder (count files) files.length abstract ∧ Related host files receiver abstract := by
  obtain ⟨actions, meets, run⟩ := h
  have hpos : ∀ index < files.length, 0 < count files index := fun _ hindex => count_pos hindex
  let good (concrete : Sudp.State) : Prop := ∃ abstract,
    Delivery.InOrder (count files) files.length abstract ∧ Related host files concrete abstract
  have hstart : good (Sudp.start (stream host.info.order files)) := by
    refine ⟨_, ?_, related_start _ fun sent hsent => genuine_of_mem_stream _ hsent⟩
    rw [stream_origins]
    exact Delivery.inOrder_start
  have hstep : ∀ concrete action next, good concrete → Flawless concrete action →
      Sudp.step host concrete action = some next → good next := by
    rintro concrete action next ⟨abstract, hinOrder, related⟩ hflawless hstep
    have keeps : KeepsName files abstract (abstraction action) := by
      intro packet rest htaken hne _
      rw [hinOrder.same_file hpos htaken hne]
    rw [← show perform (abstraction action) = action from hflawless] at hstep
    obtain ⟨after, hafter, hnext⟩ := step_perform related fits keeps hstep
    exact ⟨after, hinOrder.step hpos hafter, hnext⟩
  exact exec_invariant hstep hstart meets run

end

/-! ### The whole system -/

/-- Every receiver has been sent what is on the wire of its thread, but for what was lost. -/
structure Inv (setup : Setup) (lossless : Bool) (condition : Sudp.State → Sudp.Action → Prop)
    (state : State) : Prop where
  sender : Wires.Inv setup.order setup.disk state.sender
  receivers : state.receivers.length = state.sender.wires.length
  follows : ∀ (tid : Nat) (receiver : Sudp.State) (wire : List Datagram),
    state.receivers[tid]? = some receiver → state.sender.wires[tid]? = some wire →
    ∃ arrivals, Follows (setup.host tid) condition arrivals receiver ∧ arrivals.Sublist wire ∧
      (lossless = true → arrivals = wire)

section
variable {setup : Setup} {lossless : Bool} {condition : Sudp.State → Sudp.Action → Prop}
  {state next : State}

theorem inv_start : Inv setup lossless condition start where
  sender := Wires.inv_start
  receivers := rfl
  follows := by simp [start]

theorem follows_sent
    (kept : ∀ receiver action later, condition receiver action →
      condition (expecting receiver later) action)
    {host : Host} {receiver : Sudp.State} {wire sent : List Datagram} {arrives : Bool}
    (harrives : lossless = true → arrives = true)
    (h : ∃ arrivals, Follows host condition arrivals receiver ∧ arrivals.Sublist wire ∧
      (lossless = true → arrivals = wire)) :
    ∃ arrivals, Follows host condition arrivals
        (expecting receiver (if arrives then sent else [])) ∧
      arrivals.Sublist (wire ++ sent) ∧ (lossless = true → arrivals = wire ++ sent) := by
  obtain ⟨arrivals, hfollows, hsub, hequal⟩ := h
  refine ⟨_, hfollows.expecting fun receiver action => kept receiver action _, ?_, ?_⟩
  · refine hsub.append ?_
    split
    · exact List.Sublist.refl sent
    · exact List.nil_sublist sent
  · intro hlossless
    rw [if_pos (harrives hlossless), hequal hlossless]

theorem follows_padded {wires : List (List Datagram)} {receivers : List Sudp.State} {length : Nat}
    (hlength : receivers.length = wires.length)
    (h : ∀ (tid : Nat) (receiver : Sudp.State) (wire : List Datagram),
      receivers[tid]? = some receiver → wires[tid]? = some wire →
      ∃ arrivals, Follows (setup.host tid) condition arrivals receiver ∧ arrivals.Sublist wire ∧
        (lossless = true → arrivals = wire)) {tid : Nat} {receiver : Sudp.State}
    {wire : List Datagram}
    (hreceiver : (receivers ++ List.replicate length (Sudp.start []))[tid]? = some receiver)
    (hwire : (wires ++ List.replicate length [])[tid]? = some wire) :
    ∃ arrivals, Follows (setup.host tid) condition arrivals receiver ∧ arrivals.Sublist wire ∧
      (lossless = true → arrivals = wire) := by
  rw [List.getElem?_append] at hreceiver hwire
  rw [hlength] at hreceiver
  split at hreceiver
  · rename_i hlt
    rw [if_pos hlt] at hwire
    exact h tid receiver wire hreceiver hwire
  · rename_i hge
    rw [if_neg hge] at hwire
    have hstart := List.eq_of_mem_replicate (List.mem_of_getElem? hreceiver)
    have hnone := List.eq_of_mem_replicate (List.mem_of_getElem? hwire)
    rw [hstart, hnone]
    exact ⟨[], follows_start, List.Sublist.refl [], fun _ => rfl⟩

theorem Inv.client (h : Inv setup lossless condition state)
    (kept : ∀ receiver action later, condition receiver action →
      condition (expecting receiver later) action) {action : Sessions.Action} {arrives : Bool}
    (allowed : Allowed setup lossless condition state (.client action arrives))
    (hstep : EndToEnd.step setup state (.client action arrives) = some next) :
    Inv setup lossless condition next := by
  obtain ⟨sender, hsender, rfl⟩ := Option.map_eq_some_iff.mp hstep
  have hinv := h.sender.step allowed.1 hsender
  have hreceivers := h.receivers
  obtain ⟨client, -, rfl⟩ := Option.map_eq_some_iff.mp hsender
  have hwires := hinv.wires
  cases action with
  | call tid reply =>
    have hlength : (state.arrived setup (.call tid reply) arrives).length =
        (state.sender.wires.modify tid
          (· ++ state.sender.transmitted setup.order setup.disk tid reply)).length := by
      simp only [State.arrived, List.length_modify, hreceivers]
    refine ⟨hinv, ?_, ?_⟩
    · dsimp only at hwires ⊢
      simp only [List.length_append, List.length_replicate] at hwires ⊢
      omega
    · dsimp only at hwires ⊢
      rw [hwires, hlength]
      intro other receiver wire hreceiver hwire
      refine follows_padded hlength ?_ hreceiver hwire
      intro index receiver wire hreceiver hwire
      simp only [State.arrived, List.getElem?_modify] at hreceiver hwire
      obtain ⟨oldReceiver, holdReceiver, rfl⟩ := Option.map_eq_some_iff.mp hreceiver
      obtain ⟨oldWire, holdWire, rfl⟩ := Option.map_eq_some_iff.mp hwire
      have hold := h.follows index oldReceiver oldWire holdReceiver holdWire
      by_cases heq : tid = index
      · simp only [if_pos heq]
        exact follows_sent kept allowed.2 hold
      · simp only [if_neg heq]
        exact hold
  | _ =>
    refine ⟨hinv, ?_, ?_⟩
    · dsimp only at hwires ⊢
      simp only [State.arrived, List.length_append, List.length_replicate] at hwires ⊢
      omega
    · dsimp only [State.arrived] at hwires ⊢
      rw [hwires, hreceivers]
      intro other receiver wire hreceiver hwire
      exact follows_padded hreceivers h.follows hreceiver hwire

theorem Inv.goesOn (h : Inv setup lossless condition state) {tid : Nat} {receiver after : Sudp.State}
    (hreceiver : state.receivers[tid]? = some receiver)
    (hgoes : ∀ arrivals, Follows (setup.host tid) condition arrivals receiver →
      Follows (setup.host tid) condition arrivals after) :
    Inv setup lossless condition { state with receivers := state.receivers.set tid after } := by
  have hlt := (List.getElem?_eq_some_iff.mp hreceiver).1
  refine ⟨h.sender, by simpa using h.receivers, ?_⟩
  intro other receiver' wire hreceiver' hwire
  by_cases heq : other = tid
  · subst heq
    rw [List.getElem?_set_self hlt] at hreceiver'
    cases hreceiver'
    obtain ⟨arrivals, hfollows, harrivals⟩ := h.follows other receiver wire hreceiver hwire
    exact ⟨arrivals, hgoes arrivals hfollows, harrivals⟩
  · rw [List.getElem?_set_ne (Ne.symm heq)] at hreceiver'
    exact h.follows other receiver' wire hreceiver' hwire

theorem Inv.receiver (h : Inv setup lossless condition state) {tid : Nat} {action : Sudp.Action}
    (allowed : Allowed setup lossless condition state (.receiver tid action))
    (hstep : EndToEnd.step setup state (.receiver tid action) = some next) :
    Inv setup lossless condition next := by
  unfold EndToEnd.step at hstep
  dsimp only at hstep
  split at hstep
  · contradiction
  rename_i receiver hreceiver
  obtain ⟨after, hafter, rfl⟩ := Option.map_eq_some_iff.mp hstep
  exact h.goesOn hreceiver fun _ hfollows => hfollows.step (allowed receiver hreceiver) hafter

theorem Inv.step (h : Inv setup lossless condition state)
    (kept : ∀ receiver action later, condition receiver action →
      condition (expecting receiver later) action) {action : Action}
    (allowed : Allowed setup lossless condition state action)
    (hstep : EndToEnd.step setup state action = some next) : Inv setup lossless condition next := by
  cases action with
  | client action arrives => exact h.client kept allowed hstep
  | receiver tid action => exact h.receiver allowed hstep

theorem length_basename_le {path : Bytes} {bound : Nat} (h : path.length ≤ bound) (hpos : 1 ≤ bound) :
    (basename path).length ≤ bound := by
  unfold basename
  split
  · exact hpos
  · dsimp only
    split
    · exact hpos
    · exact ((List.rtakeWhile_suffix _ _).length_le.trans (List.rdropWhile_prefix _ _).length_le).trans h

theorem Setup.fits (setup : Setup) (tid : Nat) (files : List SentFile) :
    Fits (setup.host tid).info files := by
  intro file _
  have hdir1 := setup.dir1_le tid
  have happName := setup.appName_le tid
  have hcstr : (cstr file.path).length ≤ 255 :=
    (List.takeWhile_prefix _).length_le.trans file.path_le
  have hbase := length_basename_le hcstr (by decide)
  simp only [savePathOf, savePrefix, savePathSize, List.length_append, List.length_cons,
    List.length_nil]
  omega

theorem exists_item {items : List SendData} {file : SentFile} (h : file ∈ setup.disk.files items) :
    ∃ item ∈ items, setup.disk.file item = some file ∧ file.path = cstr item.filename ∧
      file.content = setup.disk.content (cstr item.filename) := by
  obtain ⟨item, hitem, hfile⟩ := List.mem_filterMap.mp h
  refine ⟨item, hitem, hfile, path_of_file hfile, ?_⟩
  rw [content_of_file hfile, path_of_file hfile]

theorem Inv.intact (h : Inv setup lossless condition state)
    (own : ∀ receiver action, condition receiver action → TakesOwn receiver action) {tid : Nat}
    {session : Session} {receiver : Sudp.State}
    (hsession : state.sender.client.sessions[tid]? = some session)
    (hreceiver : state.receivers[tid]? = some receiver) :
    ∀ done ∈ receiver.jobs, ∃ item ∈ session.accepted,
      done.job = ⟨savePathOf (setup.host tid).info (cstr item.filename),
        setup.disk.content (cstr item.filename)⟩ := by
  have hlt := (List.getElem?_eq_some_iff.mp hreceiver).1
  rw [h.receivers] at hlt
  have hwire := List.getElem?_eq_getElem hlt
  obtain ⟨-, hprefix, hsub, -⟩ := h.sender.streamed hsession hwire
  obtain ⟨arrivals, hfollows, harrivals, -⟩ := h.follows tid receiver _ hreceiver hwire
  have hstream := harrivals.trans hsub
  rw [← setup.order_eq tid] at hstream
  intro done hdone
  obtain ⟨index, file, hfile, hjob, -⟩ := (hfollows.mono own).intact hstream done hdone
  obtain ⟨item, hitem, -, hpath, hcontent⟩ := exists_item (List.mem_of_getElem? hfile)
  refine ⟨item, hprefix.subset hitem, ?_⟩
  rw [hjob, jobOf, hpath, hcontent]

theorem Inv.received (h : Inv setup true condition state)
    (flawless : ∀ receiver action, condition receiver action → Flawless receiver action) {tid : Nat}
    {session : Session} {receiver : Sudp.State}
    (hsession : state.sender.client.sessions[tid]? = some session)
    (hreceiver : state.receivers[tid]? = some receiver)
    (hsent : AllSent setup.disk session.handled) :
    receiver.stopped = none ∧
      (∃ received, receiver.jobs.map Finished.job =
        ((setup.disk.files session.accepted).take received).map (jobOf (setup.host tid).info)) ∧
      (session.handled.map Handled.item = session.accepted →
        (∀ abstract, Related (setup.host tid) (setup.disk.files session.accepted) receiver abstract →
          Reassembly.pending abstract = []) →
        receiver.jobs.map Finished.job =
          (setup.disk.files session.accepted).map (jobOf (setup.host tid).info)) := by
  have hlt := (List.getElem?_eq_some_iff.mp hreceiver).1
  rw [h.receivers] at hlt
  have hwire := List.getElem?_eq_getElem hlt
  obtain ⟨hhandled, hprefix, -, hstreamed⟩ := h.sender.streamed hsession hwire
  obtain ⟨hfront, hwhole⟩ := hstreamed hsent
  obtain ⟨arrivals, hfollows, -, harrivals⟩ := h.follows tid receiver _ hreceiver hwire
  obtain rfl := harrivals rfl
  -- what is not on the wire yet is taken to be on its way
  obtain ⟨later, hlater⟩ := hfront.trans (stream_mono hprefix)
  have hall : Follows (setup.host tid) Flawless
      (stream (setup.host tid).info.order (setup.disk.files session.accepted))
      (expecting receiver later) := by
    rw [setup.order_eq tid, ← hlater]
    exact (hfollows.mono flawless).expecting fun _ _ h => h
  obtain ⟨abstract, hinOrder, hrelated⟩ := hall.inOrder (setup.fits tid _)
  have hjobs : receiver.jobs.map Finished.job =
      ((setup.disk.files session.accepted).take abstract.finished.length).map
        (jobOf (setup.host tid).info) :=
    UdpFileProxy.Transfer.jobs_eq hinOrder hrelated.jobs
  refine ⟨hrelated.running, ⟨_, hjobs⟩, ?_⟩
  intro hdone hdrained
  have htaken : session.taken = session.handled.map Handled.item := by
    refine (hhandled.eq_of_length (le_antisymm hhandled.length_le ?_)).symm
    rw [hdone]
    exact hprefix.length_le
  have hnone : later = [] := by
    have hsent := hwhole htaken
    rw [htaken, hdone] at hsent
    rw [hsent] at hlater
    exact List.append_right_eq_self.mp hlater
  have hreached : expecting receiver later = receiver := by
    rw [hnone, expecting, List.append_nil]
  rw [hreached] at hrelated
  have hpending := hdrained abstract hrelated
  rw [hjobs, hinOrder.all_finished (fun _ hindex => count_pos hindex) hpending, List.take_length]

/-- However the client, the network and the servers interleave, and whatever is lost, or fails
but `fclose`: as long as no server appends a packet of one file to another, every job that it
gives its pool is for a file that the client accepted for this app, under its name, and `fwrite`
took the content that the disk has for it. -/
theorem received_intact {final : State} {actions : List Action} {tid : Nat} {session : Session}
    {receiver : Sudp.State} (allowed : Meets (step setup) (Allowed setup false TakesOwn) start actions)
    (run : exec (step setup) start actions = some final)
    (hsession : final.sender.client.sessions[tid]? = some session)
    (hreceiver : final.receivers[tid]? = some receiver) :
    ∀ done ∈ receiver.jobs, ∃ item ∈ session.accepted,
      done.job = ⟨savePathOf (setup.host tid).info (cstr item.filename),
        setup.disk.content (cstr item.filename)⟩ := by
  have hinv : Inv setup false TakesOwn final := exec_invariant
    (fun _ _ _ h hallowed hstep => h.step takesOwn_expecting hallowed hstep) inv_start allowed run
  exact hinv.intact (fun _ _ h => h) hsession hreceiver

/-- With nothing lost, no failing call on the servers, and every file that a thread is through
with sent whole, the server of the thread receives the files that were accepted for its app
in that order; and all of them, once the thread is through with all and the server has
nothing left to do. -/
theorem accepted_received {final : State} {actions : List Action} {tid : Nat} {session : Session}
    {receiver : Sudp.State} (allowed : Meets (step setup) (Allowed setup true Flawless) start actions)
    (run : exec (step setup) start actions = some final)
    (hsession : final.sender.client.sessions[tid]? = some session)
    (hreceiver : final.receivers[tid]? = some receiver)
    (hsent : AllSent setup.disk session.handled) :
    receiver.stopped = none ∧
      (∃ received, receiver.jobs.map Finished.job =
        ((setup.disk.files session.accepted).take received).map (jobOf (setup.host tid).info)) ∧
      (session.handled.map Handled.item = session.accepted →
        (∀ msg, (setup.host tid).room [] msg = true) →
        (∀ action, Flawless receiver action → Sudp.step (setup.host tid) receiver action = none) →
        receiver.jobs.map Finished.job =
          (setup.disk.files session.accepted).map (jobOf (setup.host tid).info)) := by
  have hinv : Inv setup true Flawless final := exec_invariant
    (fun _ _ _ h hallowed hstep => h.step (fun _ _ _ h => h) hallowed hstep) inv_start allowed run
  obtain ⟨hrunning, hfront, hall⟩ := hinv.received (fun _ _ h => h) hsession hreceiver hsent
  refine ⟨hrunning, hfront, fun hdone room stuck => hall hdone fun abstract hrelated => ?_⟩
  exact pending_of_stuck hrelated room fun action =>
    stuck (perform action) (by rw [Flawless, abstraction_perform])

end

/-- One app, its one file of one byte, and its server. -/
def oneByte : Setup where
  order := .little
  conf := []
  disk := oneFile
  host := fun _ => ⟨⟨.little, [100], ascii "a"⟩, fun _ _ => true⟩
  order_eq := fun _ => rfl
  dir1_le := fun _ => by decide
  appName_le := fun _ => by decide

def oneByteRun : List Action :=
  (Removal.sends (ascii "false") (ascii "true")).map (Action.client · true) ++
    [.receiver 0 .recvfrom, .receiver 0 .msgsnd, .receiver 0 (.poll .ok), .receiver 0 (.poll .ok)]

theorem received_intact_oneByte : ∃ final session receiver,
    exec (step oneByte) start oneByteRun = some final ∧
      final.sender.client.sessions[0]? = some session ∧ final.receivers[0]? = some receiver ∧
      receiver.jobs.length = 1 ∧
      ∀ done ∈ receiver.jobs, ∃ item ∈ session.accepted,
        done.job = ⟨savePathOf (oneByte.host 0).info (cstr item.filename),
          oneByte.disk.content (cstr item.filename)⟩ := by
  have allowed : Meets (step oneByte) (Allowed oneByte false TakesOwn) start oneByteRun := by
    decide +kernel
  have hreached : (exec (step oneByte) start oneByteRun).any (fun final =>
      final.sender.client.sessions[0]?.any fun session => final.receivers[0]?.any fun receiver =>
        receiver.jobs.length = 1) = true := by decide +kernel
  obtain ⟨final, run, hfinal⟩ := (Option.any_eq_true _ _).mp hreached
  obtain ⟨session, hsession, hreceivers⟩ := (Option.any_eq_true _ _).mp hfinal
  obtain ⟨receiver, hreceiver, hjobs⟩ := (Option.any_eq_true _ _).mp hreceivers
  exact ⟨final, session, receiver, run, hsession, hreceiver, of_decide_eq_true hjobs,
    received_intact allowed run hsession hreceiver⟩

/-- The file arrives. -/
theorem accepted_received_oneByte : ∃ final session receiver,
    exec (step oneByte) start oneByteRun = some final ∧
      final.sender.client.sessions[0]? = some session ∧ final.receivers[0]? = some receiver ∧
      receiver.jobs.length = 1 ∧
      receiver.jobs.map Finished.job =
        (oneByte.disk.files session.accepted).map (jobOf (oneByte.host 0).info) := by
  have allowed : Meets (step oneByte) (Allowed oneByte true Flawless) start oneByteRun := by
    decide +kernel
  have hreached : (exec (step oneByte) start oneByteRun).any (fun final =>
      final.sender.client.sessions[0]?.any fun session => final.receivers[0]?.any fun receiver =>
        receiver.jobs.length = 1 && decide (AllSent oneByte.disk session.handled) &&
          decide (session.handled.map Handled.item = session.accepted) &&
          [Reassembly.Action.recvfrom, .msgsnd, .poll, .wait].all fun action =>
            (Sudp.step (oneByte.host 0) receiver (perform action)).isNone) = true := by
    decide +kernel
  obtain ⟨final, run, hfinal⟩ := (Option.any_eq_true _ _).mp hreached
  obtain ⟨session, hsession, hreceivers⟩ := (Option.any_eq_true _ _).mp hfinal
  obtain ⟨receiver, hreceiver, htest⟩ := (Option.any_eq_true _ _).mp hreceivers
  simp only [Bool.and_eq_true, decide_eq_true_eq, List.all_eq_true, Option.isNone_iff_eq_none] at htest
  obtain ⟨⟨⟨hlength, hsent⟩, hdone⟩, hquiet⟩ := htest
  have hreceived := accepted_received allowed run hsession hreceiver hsent
  refine ⟨final, session, receiver, run, hsession, hreceiver, hlength,
    hreceived.2.2 hdone (fun _ => rfl) ?_⟩
  intro action hflawless
  rw [← show perform (abstraction action) = action from hflawless]
  exact hquiet _ (by cases abstraction action <;> simp)

end UdpFileProxy.EndToEnd
