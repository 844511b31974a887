import UdpFileProxy.ProxyClient
import UdpFileProxy.Lib.OrderedMap
import UdpFileProxy.Lib.Run

/-! The registry of the client against what it is for: a map from app names to
bounded queues of files. Each sender thread takes from the queue of its app, and
goes on taking from what was left in it after the app was removed. -/
namespace UdpFileProxy.Registry
open Lib Lib.LinkedList Lib.Memory Lib.Run Protocol SendList ProxyClient
open FileThread (Thread)
open Speed (SpeedManger)

structure Queue where
  capacity : Int
  files : List SendData
  deriving DecidableEq, Repr

/-- Where a sender thread takes its files from. -/
inductive Source where
  | app (appName : Bytes)
  | removed (queue : Queue)
  deriving DecidableEq, Repr

/-- `apps` is the map; there is a source for each thread that was ever started. -/
structure Directory where
  apps : Bytes → Option Queue
  sources : List Source

namespace Directory

def empty : Directory where
  apps := fun _ => none
  sources := []

def setQueue (directory : Directory) (appName : Bytes) (queue : Option Queue) : Directory :=
  { directory with apps := Function.update directory.apps appName queue }

def addApp (directory : Directory) (appName : Bytes) (capacity : Int) : Int × Directory :=
  match directory.apps appName with
  | some _ => (eExist, directory)
  | none =>
      (eOk, { directory.setQueue appName (some ⟨capacity, []⟩) with
        sources := directory.sources ++ [.app appName] })

def delApp (directory : Directory) (appName : Bytes) : Int × Directory :=
  match directory.apps appName with
  | none => (eNotfound, directory)
  | some queue =>
      (eOk, { directory.setQueue appName none with
        sources := directory.sources.map fun source =>
          if source = .app appName then .removed queue else source })

def addSendFile (directory : Directory) (appName : Bytes) (file : SendData) : Int × Directory :=
  match directory.apps appName with
  | none => (eNotfound, directory)
  | some queue =>
      if queue.capacity ≤ queue.files.length then (eFull, directory)
      else
        (eOk, directory.setQueue appName (some { queue with files := queue.files ++ [file] }))

/-- The queue that a thread takes from. -/
def served (directory : Directory) (tid : Nat) : Option Queue :=
  match directory.sources[tid]? with
  | none => none
  | some (.app appName) => directory.apps appName
  | some (.removed queue) => some queue

def setServed (directory : Directory) (tid : Nat) (queue : Queue) : Directory :=
  match directory.sources[tid]? with
  | none => directory
  | some (.app appName) => directory.setQueue appName (some queue)
  | some (.removed _) => { directory with sources := directory.sources.set tid (.removed queue) }

def getNext (directory : Directory) (tid : Nat) : Option (Option SendData × Directory) :=
  (directory.served tid).map fun queue =>
    (queue.files.head?, directory.setServed tid { queue with files := queue.files.tail })

end Directory

/-- One call. The memory of `new` must be free, a thread only deletes what it was
handed, and `other` is anything else that a thread does on its own. -/
inductive Action where
  | addApp (info : AppInfo) (maxCount : Int) (memory : Addr)
  | delApp (appName : Bytes) (opt : Int)
  | addSendFile (appName filename : Bytes) (delect : Bool) (memory : Addr)
  | getNext (tid : Nat)
  | delete (tid : Nat) (data : Addr)
  | other (tid : Nat) (thread : Thread) (speed : SpeedManger)

inductive Answer where
  | code (ret : Int)
  | file (item : Option SendData)
  deriving DecidableEq, Repr

/-- `handed` are the items that threads have taken and not deleted; `answers` is
history: what the calls returned. -/
structure State where
  client : Client
  handed : List (Nat × Addr)
  answers : List Answer

def start : State where
  client := ProxyClient.new
  handed := []
  answers := []

def withList (list : SendList) (app : AppInfo) : AppInfo := { app with listC := list }

@[simp] theorem withList_appName (list : SendList) (app : AppInfo) :
    (withList list app).appName = app.appName := rfl

@[simp] theorem withList_tid (list : SendList) (app : AppInfo) : (withList list app).tid = app.tid := rfl

@[simp] theorem withList_listC (list : SendList) (app : AppInfo) : (withList list app).listC = list := rfl

/-- The app information of each thread. -/
def infos (client : Client) : List Addr := client.threads.map Thread.info

/-- The list that a thread works on. -/
def listOf (client : Client) (tid : Nat) : Option SendList :=
  match (infos client)[tid]? with
  | none => none
  | some info => (valueAt client.heap info).map AppInfo.listC

def setList (client : Client) (tid : Nat) (list : SendList) : Client :=
  match (infos client)[tid]? with
  | none => client
  | some info => { client with heap := setValue client.heap info (withList list) }

/-- `new APP_INFO`, filled in. -/
def allocate (client : Client) (memory : Addr) (newApp : AppInfo) : Client :=
  { client with
    heap := Function.update client.heap memory (some ⟨newApp, none⟩)
    nodes := client.nodes + 1 }

/-- `pthread_create` succeeds. -/
def step (state : State) (action : Action) : Option State :=
  match action with
  | .addApp info maxCount memory =>
      if (state.client.heap memory).isSome then none
      else
        let newApp := withList { SendList.new with maxCount := maxCount } info
        (ProxyClient.addApp (allocate state.client memory newApp) memory true).map
          fun (ret, client) =>
            { state with client := client, answers := state.answers ++ [.code ret] }
  | .delApp appName opt =>
      (ProxyClient.delApp state.client appName opt).map fun (ret, client) =>
        { state with client := client, answers := state.answers ++ [.code ret] }
  | .addSendFile appName filename delect memory =>
      (ProxyClient.addSendFile state.client appName filename delect memory).map fun (ret, client) =>
        { state with client := client, answers := state.answers ++ [.code ret] }
  | .getNext tid =>
      match listOf state.client tid with
      | none => none
      | some list =>
          (SendList.getNext list).map fun (data, next) => { state with
            client := setList state.client tid next
            handed := state.handed ++ (data.map fun addr => (tid, addr)).toList
            answers := state.answers ++
              [.file (data.bind fun addr => (list.heap addr).map Cell.value)] }
  | .delete tid data =>
      if (tid, data) ∈ state.handed then
        (listOf state.client tid).map fun list => { state with
          client := setList state.client tid (SendList.delete list data)
          handed := state.handed.filter fun entry => entry ≠ (tid, data) }
      else none
  | .other tid thread speed =>
      if (infos state.client)[tid]? = some thread.info then
        some { state with client := { state.client with
          threads := state.client.threads.set tid thread, speed := speed } }
      else none

/-- The memory that `new` returns is free, and a thread acts for itself. -/
def Allowed (state : State) : Action → Prop
  | .addApp _ _ memory => state.client.heap memory = none
  | .delApp _ _ => True
  | .addSendFile _ _ _ memory =>
      ∀ tid < state.client.threads.length, ∀ list ∈ listOf state.client tid, list.heap memory = none
  | .getNext tid => tid < state.client.threads.length
  | .delete tid data => (tid, data) ∈ state.handed
  | .other tid thread _ => (infos state.client)[tid]? = some thread.info

instance : ∀ state action, Decidable (Allowed state action)
  | state, .addApp _ _ memory => inferInstanceAs (Decidable (state.client.heap memory = none))
  | _, .delApp _ _ => inferInstanceAs (Decidable True)
  | state, .addSendFile _ _ _ memory =>
      inferInstanceAs (Decidable (∀ tid < state.client.threads.length,
        ∀ list ∈ listOf state.client tid, list.heap memory = none))
  | state, .getNext tid => inferInstanceAs (Decidable (tid < state.client.threads.length))
  | state, .delete tid data => inferInstanceAs (Decidable ((tid, data) ∈ state.handed))
  | state, .other tid thread _ =>
      inferInstanceAs (Decidable ((infos state.client)[tid]? = some thread.info))

/-- The same calls on the map, and what they return. -/
structure Ideal where
  directory : Directory
  answers : List Answer

def Ideal.start : Ideal where
  directory := .empty
  answers := []

def Ideal.answered (ideal : Ideal) (reply : Int × Directory) : Ideal :=
  ⟨reply.2, ideal.answers ++ [.code reply.1]⟩

def Ideal.step (ideal : Ideal) (action : Action) : Option Ideal :=
  match action with
  | .addApp info maxCount _ =>
      some (ideal.answered (ideal.directory.addApp info.appName maxCount))
  | .delApp appName _ => some (ideal.answered (ideal.directory.delApp appName))
  | .addSendFile appName filename delect _ =>
      some (ideal.answered (ideal.directory.addSendFile appName ⟨filename, delect⟩))
  | .getNext tid =>
      (ideal.directory.getNext tid).map fun (item, directory) =>
        ⟨directory, ideal.answers ++ [.file item]⟩
  | .delete _ _ => some ideal
  | .other _ _ _ => some ideal

section
variable {heap : Heap AppInfo} {start next : Option Addr} {addr other : Addr} {app : AppInfo}
  {change : AppInfo → AppInfo} {front back back' nodes : List (Addr × AppInfo)}

@[simp] theorem valueAt_setNext (heap : Heap AppInfo) (addr other : Addr) (next : Option Addr) :
    valueAt (setNext heap addr next) other = valueAt heap other := by
  unfold valueAt setNext
  by_cases hother : other = addr
  · subst hother
    cases heap other <;> simp
  · rw [Function.update_of_ne hother]

theorem valueAt_setValue_self (happ : valueAt heap addr = some app) :
    valueAt (setValue heap addr change) addr = some (change app) := by
  obtain ⟨link, hcell⟩ := exists_of_valueAt happ
  simp [valueAt, setValue, hcell]

@[simp] theorem valueAt_setValue_of_ne (h : other ≠ addr) :
    valueAt (setValue heap addr change) other = valueAt heap other := by
  rw [valueAt, setValue, Function.update_of_ne h, valueAt]

theorem chain_setNext (h : Chain heap start (front ++ (addr, app) :: back))
    (hback : Chain heap next back') (hnot : addr ∉ back'.map Prod.fst) :
    Chain (setNext heap addr next) start (front ++ (addr, app) :: back') := by
  obtain ⟨link, hcell⟩ := h.allocated (List.mem_append_right _ List.mem_cons_self)
  rw [setNext, hcell, Option.map_some]
  exact h.relink hback hnot

/-- The nodes after one of them got another value. -/
def renew (nodes : List (Addr × AppInfo)) (addr : Addr) (app : AppInfo) : List (Addr × AppInfo) :=
  nodes.map fun node => if node.1 = addr then (addr, app) else node

theorem chain_setValue (h : Chain heap start nodes) (happ : valueAt heap addr = some app) :
    Chain (setValue heap addr change) start (renew nodes addr (change app)) := by
  obtain ⟨link, hcell⟩ := exists_of_valueAt happ
  rw [setValue, hcell, Option.map_some]
  exact h.revalue hcell (change app)

theorem renew_of_notMem (h : addr ∉ nodes.map Prod.fst) : renew nodes addr app = nodes := by
  have hsame : ∀ node ∈ nodes, (if node.1 = addr then (addr, app) else node) = node := by
    intro node hnode
    rw [if_neg]
    rintro rfl
    exact h (List.mem_map_of_mem hnode)
  rw [renew, List.map_congr_left hsame, List.map_id']

theorem renew_map {β : Type*} {f : Addr × AppInfo → β}
    (h : ∀ node ∈ nodes, node.1 = addr → f (addr, app) = f node) :
    (renew nodes addr app).map f = nodes.map f := by
  rw [renew, List.map_map]
  apply List.map_congr_left
  intro node hnode
  dsimp only [Function.comp]
  split
  · rename_i heq
    exact h node hnode heq
  · rfl

@[simp] theorem renew_fst (nodes : List (Addr × AppInfo)) (addr : Addr) (app : AppInfo) :
    (renew nodes addr app).map Prod.fst = nodes.map Prod.fst :=
  renew_map fun _ _ heq => heq.symm

@[simp] theorem renew_append {old : AppInfo} (hfront : addr ∉ front.map Prod.fst)
    (hback : addr ∉ back.map Prod.fst) :
    renew (front ++ (addr, old) :: back) addr app = front ++ (addr, app) :: back := by
  rw [renew, List.map_append, List.map_cons, if_pos rfl]
  have hfront : renew front addr app = front := renew_of_notMem hfront
  have hback : renew back addr app = back := renew_of_notMem hback
  rw [renew] at hfront hback
  rw [hfront, hback]

end

section
variable {heap : Heap AppInfo} {start next : Option Addr} {addr : Addr} {app : AppInfo}
  {front back nodes : List (Addr × AppInfo)} {appName : Bytes} {fuel : Nat}

theorem addAppLoop_eq {tmp : Addr} (h : Chain heap (some tmp) nodes) (hfuel : nodes.length ≤ fuel) :
    addAppLoop heap appName fuel tmp =
      some (if appName ∈ nodes.map fun node => node.2.appName then none
        else nodes.getLast?.map Prod.fst) := by
  induction nodes generalizing tmp fuel with
  | nil => cases h
  | cons node rest ih =>
    obtain ⟨hstart, link, hcell, hrest⟩ := h
    obtain rfl := Option.some.inj hstart
    cases fuel with
    | zero => simp at hfuel
    | succ fuel =>
      rw [addAppLoop, hcell]
      dsimp only
      by_cases hname : node.2.appName = appName
      · simp [hname]
      rw [if_neg hname]
      have hne : appName ≠ node.2.appName := Ne.symm hname
      cases rest with
      | nil =>
        obtain rfl : link = none := hrest
        simp [hne]
      | cons second others =>
        obtain rfl := hrest.1
        dsimp only
        have hname : appName ∈ (node :: second :: others).map (fun node => node.2.appName) ↔
            appName ∈ (second :: others).map fun node => node.2.appName := by
          rw [List.map_cons, List.mem_cons, or_iff_right hne]
        rw [ih hrest (by simpa using hfuel), List.getLast?_cons_cons]
        simp only [hname]

theorem delAppLoop_absent {per tmp : Addr} (h : Chain heap (some tmp) nodes)
    (hfuel : nodes.length ≤ fuel) (habsent : ∀ node ∈ nodes, node.2.appName ≠ appName) :
    delAppLoop heap appName fuel per tmp = some none := by
  induction nodes generalizing per tmp fuel with
  | nil => cases h
  | cons node rest ih =>
    obtain ⟨hstart, link, hcell, hrest⟩ := h
    obtain rfl := Option.some.inj hstart
    cases fuel with
    | zero => simp at hfuel
    | succ fuel =>
      rw [delAppLoop, hcell]
      dsimp only
      rw [if_neg (habsent node List.mem_cons_self)]
      cases rest with
      | nil =>
        obtain rfl : link = none := hrest
        rfl
      | cons second others =>
        obtain rfl := hrest.1
        exact ih hrest (by simpa using hfuel) fun other hother =>
          habsent other (List.mem_cons_of_mem node hother)

theorem delAppLoop_found {tmp : Addr} (per : Addr)
    (h : Chain heap (some tmp) (front ++ (addr, app) :: back))
    (hfuel : (front ++ (addr, app) :: back).length ≤ fuel)
    (hfront : ∀ node ∈ front, node.2.appName ≠ app.appName) :
    ∃ link, heap addr = some ⟨app, link⟩ ∧ Chain heap link back ∧
      delAppLoop heap app.appName fuel per tmp =
        some (some ((front.getLast?.map Prod.fst).getD per, ⟨app, link⟩, addr)) := by
  induction front generalizing per tmp fuel with
  | nil =>
    obtain ⟨hstart, link, hcell, hrest⟩ := h
    obtain rfl : tmp = addr := Option.some.inj hstart
    refine ⟨link, hcell, hrest, ?_⟩
    cases fuel with
    | zero => simp at hfuel
    | succ fuel => simp [delAppLoop, hcell]
  | cons node front ih =>
    obtain ⟨hstart, link, hcell, hrest⟩ := h
    obtain rfl := Option.some.inj hstart
    cases fuel with
    | zero => simp at hfuel
    | succ fuel =>
      obtain ⟨next, rfl⟩ := hrest.exists_start (List.mem_append_right front List.mem_cons_self)
      obtain ⟨last, hlast, hback, hloop⟩ := ih node.1 hrest (by simpa using hfuel)
        fun other hother => hfront other (List.mem_cons_of_mem node hother)
      refine ⟨last, hlast, hback, ?_⟩
      rw [delAppLoop, hcell]
      dsimp only
      rw [if_neg (hfront node List.mem_cons_self), hloop]
      cases front with
      | nil => rfl
      | cons second others =>
        rw [List.getLast?_cons_cons]
        cases hlastNode : (second :: others).getLast? with
        | none => simp at hlastNode
        | some found => rfl

theorem addSendFileLoop_eq {tmp : Addr} (appName : Bytes) (h : Chain heap (some tmp) nodes)
    (hfuel : nodes.length ≤ fuel) :
    ∃ addr app link, addSendFileLoop heap appName fuel tmp = some (addr, ⟨app, link⟩) ∧
      (addr, app) ∈ nodes ∧
      (app.appName = appName ∨ ∀ node ∈ nodes, node.2.appName ≠ appName) := by
  induction nodes generalizing tmp fuel with
  | nil => cases h
  | cons node rest ih =>
    obtain ⟨hstart, link, hcell, hrest⟩ := h
    obtain rfl := Option.some.inj hstart
    cases fuel with
    | zero => simp at hfuel
    | succ fuel =>
      rw [addSendFileLoop, hcell]
      dsimp only
      cases rest with
      | nil =>
        obtain rfl : link = none := hrest
        refine ⟨node.1, node.2, none, rfl, List.mem_cons_self, ?_⟩
        simpa using em (node.2.appName = appName)
      | cons second others =>
        obtain rfl := hrest.1
        dsimp only
        by_cases hname : node.2.appName = appName
        · rw [if_neg (by simpa using hname)]
          exact ⟨node.1, node.2, some second.1, rfl, List.mem_cons_self, .inl hname⟩
        · rw [if_pos hname]
          obtain ⟨found, app, last, hloop, hmem, hcases⟩ := ih hrest (by simpa using hfuel)
          refine ⟨found, app, last, hloop, List.mem_cons_of_mem node hmem, ?_⟩
          refine hcases.imp_right fun habsent => ?_
          simpa [hname] using habsent

end

/-- The files in a list, the oldest first. -/
def files (list : SendList) : List SendData :=
  (follow list.heap list.listCount.toNat list.outData).map Prod.snd

theorem files_eq {list : SendList} {cells : List (Addr × SendData)} (h : Queued list cells) :
    files list = cells.map Prod.snd := by
  rw [files, h.chain.follow_eq (by rw [h.count, Int.toNat_natCast])]

def queueOf (app : AppInfo) : Queue := ⟨app.listC.maxCount, files app.listC⟩

def entry (node : Addr × AppInfo) : Bytes × Queue := (node.2.appName, queueOf node.2)

@[simp] theorem entry_mk (addr : Addr) (app : AppInfo) : entry (addr, app) = (app.appName, queueOf app) := rfl

theorem lookup_renew {nodes : List (Addr × AppInfo)} {addr : Addr} {old app : AppInfo}
    (hnames : ((nodes.map entry).map Prod.fst).Nodup) (haddrs : (nodes.map Prod.fst).Nodup)
    (hmem : (addr, old) ∈ nodes) (hname : app.appName = old.appName) :
    (fun other => ((renew nodes addr app).map entry).lookup other) =
      Function.update (fun other => (nodes.map entry).lookup other) old.appName
        (some (queueOf app)) := by
  obtain ⟨front, back, rfl⟩ := List.append_of_mem hmem
  rw [(List.perm_middle.map _).nodup_iff, List.map_cons, List.map_append, List.nodup_cons,
    List.mem_append, not_or] at haddrs
  rw [((List.perm_middle.map _).map _).nodup_iff, List.map_cons, List.map_cons, List.map_append,
    List.map_append, List.nodup_cons, List.mem_append, not_or] at hnames
  have hfront : old.appName ∉ (front.map entry).map Prod.fst := hnames.1.1
  have hfront' : app.appName ∉ (front.map entry).map Prod.fst := by
    rw [hname]
    exact hfront
  rw [renew_append haddrs.1.1 haddrs.1.2, List.map_append, List.map_append, List.map_cons,
    List.map_cons, entry_mk, entry_mk, lookup_middle hfront, lookup_middle hfront', hname,
    Function.update_idem]

/-- What the thread of this app information takes from. -/
def source (nodes : List (Addr × AppInfo)) (info : Addr) (app : AppInfo) : Source :=
  if info ∈ nodes.map Prod.fst then .app app.appName else .removed (queueOf app)

theorem source_of_mem {nodes : List (Addr × AppInfo)} {info : Addr} (app : AppInfo)
    (h : info ∈ nodes.map Prod.fst) : source nodes info app = .app app.appName := if_pos h

theorem source_of_notMem {nodes : List (Addr × AppInfo)} {info : Addr} (app : AppInfo)
    (h : info ∉ nodes.map Prod.fst) : source nodes info app = .removed (queueOf app) := if_neg h

/-- The list is sound, and what its thread was handed is not in the queue. -/
def Tended (handed : List (Nat × Addr)) (tid : Nat) (list : SendList) : Prop :=
  ∃ cells, Queued list cells ∧ ∀ data, (tid, data) ∈ handed →
    data ∉ cells.map Prod.fst ∧ (list.heap data).isSome

/-- The map that a client implements. -/
def directoryOf (client : Client) : Directory :=
  let nodes := follow client.heap client.nodes client.applist
  { apps := fun appName => (nodes.map entry).lookup appName
    sources := (infos client).map fun info =>
      ((valueAt client.heap info).map (source nodes info)).getD (.removed ⟨0, []⟩) }

/-- `nodes` are the apps in the list, in order. -/
structure Refines (state : State) (directory : Directory) (nodes : List (Addr × AppInfo)) : Prop where
  chain : Chain state.client.heap state.client.applist nodes
  fuel : nodes.length ≤ state.client.nodes
  names : (nodes.map fun node => node.2.appName).Nodup
  tids : ∀ node ∈ nodes, ∃ tid, node.2.tid = some tid ∧ (infos state.client)[tid]? = some node.1
  apps : directory.apps = fun appName => (nodes.map entry).lookup appName
  length : directory.sources.length = (infos state.client).length
  infos : (infos state.client).Nodup
  threads : ∀ tid info, (Registry.infos state.client)[tid]? = some info →
    ∃ app, valueAt state.client.heap info = some app ∧
      directory.sources[tid]? = some (source nodes info app) ∧
      Tended state.handed tid app.listC
  handed : ∀ entry ∈ state.handed, entry.1 < (Registry.infos state.client).length

section
variable {state : State} {directory : Directory} {nodes : List (Addr × AppInfo)}

theorem refines_start : Refines start .empty [] where
  chain := rfl
  fuel := le_refl 0
  names := List.nodup_nil
  tids := by simp
  apps := rfl
  length := rfl
  infos := List.nodup_nil
  threads := by simp [start, infos, ProxyClient.new]
  handed := by simp [start]

theorem Refines.free {memory : Addr} (h : Refines state directory nodes)
    (hfree : state.client.heap memory = none) :
    memory ∉ nodes.map Prod.fst ∧ memory ∉ Registry.infos state.client := by
  refine ⟨h.chain.notMem_of_free hfree, ?_⟩
  intro hmem
  obtain ⟨tid, htid⟩ := List.mem_iff_getElem?.mp hmem
  obtain ⟨app, happ, -, -⟩ := h.threads tid memory htid
  simp [valueAt, hfree] at happ

theorem Refines.keys (h : Refines state directory nodes) : ((nodes.map entry).map Prod.fst).Nodup := by
  rw [List.map_map]
  exact h.names

theorem Refines.found {addr : Addr} {app : AppInfo} (h : Refines state directory nodes)
    (hmem : (addr, app) ∈ nodes) : directory.apps app.appName = some (queueOf app) := by
  rw [h.apps]
  exact (lookup_eq_some h.keys).mpr (List.mem_map_of_mem hmem)

theorem Refines.absent {appName : Bytes} (h : Refines state directory nodes)
    (habsent : ∀ node ∈ nodes, node.2.appName ≠ appName) : directory.apps appName = none := by
  rw [h.apps]
  refine List.lookup_eq_none_iff.mpr ?_
  intro item hitem
  obtain ⟨node, hnode, rfl⟩ := List.mem_map.mp hitem
  simpa [entry] using (habsent node hnode).symm

theorem Refines.directory_eq (h : Refines state directory nodes) :
    directory = directoryOf state.client := by
  have hnodes : follow state.client.heap state.client.nodes state.client.applist = nodes :=
    h.chain.follow_eq h.fuel
  have hsources : directory.sources = (directoryOf state.client).sources := by
    apply List.ext_getElem?
    intro tid
    simp only [directoryOf, hnodes, List.getElem?_map]
    cases hinfo : (Registry.infos state.client)[tid]? with
    | none =>
      rw [List.getElem?_eq_none_iff] at hinfo
      rw [Option.map_none, List.getElem?_eq_none_iff, h.length]
      exact hinfo
    | some info =>
      obtain ⟨app, happ, hsource, -⟩ := h.threads tid info hinfo
      rw [hsource, Option.map_some, happ]
      rfl
  have happs : directory.apps = (directoryOf state.client).apps := by
    rw [h.apps, directoryOf, hnodes]
  cases directory
  cases happs
  cases hsources
  rfl

theorem Refines.congr {next : State} (h : Refines state directory nodes)
    (hchain : Chain next.client.heap next.client.applist nodes)
    (hnodes : state.client.nodes ≤ next.client.nodes)
    (hinfos : Registry.infos next.client = Registry.infos state.client)
    (hheap : ∀ info ∈ Registry.infos state.client, ∀ app, valueAt state.client.heap info = some app →
      ∃ app', valueAt next.client.heap info = some app' ∧ app'.appName = app.appName ∧
        app'.listC = app.listC)
    (hhanded : next.handed = state.handed) : Refines next directory nodes where
  chain := hchain
  fuel := le_trans h.fuel hnodes
  names := h.names
  tids := by
    rw [hinfos]
    exact h.tids
  apps := h.apps
  length := by
    rw [hinfos]
    exact h.length
  infos := by
    rw [hinfos]
    exact h.infos
  threads := by
    rw [hinfos, hhanded]
    intro tid info hinfo
    obtain ⟨app, happ, hsource, htended⟩ := h.threads tid info hinfo
    obtain ⟨app', happ', hname, hlist⟩ := hheap info (List.mem_of_getElem? hinfo) app happ
    refine ⟨app', happ', ?_, hlist ▸ htended⟩
    simp only [hsource, source, queueOf, hname, hlist]
  handed := by
    rw [hinfos, hhanded]
    exact h.handed

theorem Refines.notMem_names {front back : List (Addr × AppInfo)} {addr : Addr} {app : AppInfo}
    (h : Refines state directory (front ++ (addr, app) :: back)) :
    app.appName ∉ (front ++ back).map fun node => node.2.appName := by
  have hnames := h.names
  rw [(List.perm_middle.map _).nodup_iff, List.map_cons, List.nodup_cons] at hnames
  exact hnames.1

theorem Refines.unlink {next : State} {front back : List (Addr × AppInfo)} {addr : Addr} {app : AppInfo}
    (h : Refines state directory (front ++ (addr, app) :: back))
    (hchain : Chain next.client.heap next.client.applist (front ++ back))
    (hnodes : next.client.nodes = state.client.nodes)
    (hinfos : Registry.infos next.client = Registry.infos state.client)
    (hheap : valueAt next.client.heap = valueAt state.client.heap)
    (hhanded : next.handed = state.handed) :
    Refines next (directory.delApp app.appName).2 (front ++ back) := by
  have hsub : (front ++ back).Sublist (front ++ (addr, app) :: back) :=
    List.Sublist.append_left (List.sublist_cons_self _ back) front
  have happ := h.found (List.mem_append_right front List.mem_cons_self)
  have hkey := h.notMem_names
  have haddr := h.chain.notMem_rest
  have hkeys : app.appName ∉ ((front ++ back).map entry).map Prod.fst := by
    rw [List.map_map]
    exact hkey
  simp only [Directory.delApp, happ]
  constructor
  · exact hchain
  · rw [hnodes]
    exact le_trans hsub.length_le h.fuel
  · exact h.names.sublist (hsub.map _)
  · rw [hinfos]
    exact fun node hnode => h.tids node (hsub.subset hnode)
  · have hfront : app.appName ∉ (front.map entry).map Prod.fst := by
      intro hmem
      apply hkeys
      rw [List.map_append, List.map_append]
      exact List.mem_append_left _ hmem
    have happs := h.apps
    rw [List.map_append, List.map_cons, entry_mk, lookup_middle hfront, ← List.map_append] at happs
    dsimp only [Directory.setQueue]
    rw [happs, Function.update_idem, Function.update_eq_self_iff, eq_comm, List.lookup_eq_none_iff]
    intro item hitem
    have hne : app.appName ≠ item.1 := by
      intro heq
      apply hkeys
      rw [heq]
      exact List.mem_map_of_mem hitem
    simpa using hne
  · rw [hinfos, List.length_map]
    exact h.length
  · rw [hinfos]
    exact h.infos
  · rw [hinfos, hheap, hhanded]
    intro tid info hinfo
    obtain ⟨other, hother, hsource, htended⟩ := h.threads tid info hinfo
    refine ⟨other, hother, ?_, htended⟩
    rw [List.getElem?_map, hsource, Option.map_some, Option.some.injEq]
    by_cases hinfo : info = addr
    · subst hinfo
      obtain rfl : app = other := Option.some.inj
        ((h.chain.valueAt (List.mem_append_right front List.mem_cons_self)).symm.trans hother)
      have hlisted : info ∈ (front ++ (info, app) :: back).map Prod.fst :=
        List.mem_map_of_mem (List.mem_append_right front List.mem_cons_self)
      rw [source_of_mem app hlisted, source_of_notMem app haddr, if_pos rfl]
    by_cases hmem : info ∈ (front ++ back).map Prod.fst
    · have hlisted : info ∈ (front ++ (addr, app) :: back).map Prod.fst := (hsub.map _).subset hmem
      have hname : other.appName ≠ app.appName := by
        obtain ⟨node, hnode, rfl⟩ := List.mem_map.mp hmem
        obtain rfl : node.2 = other :=
          Option.some.inj ((h.chain.valueAt (hsub.subset hnode)).symm.trans hother)
        intro heq
        apply hkey
        rw [← heq]
        exact List.mem_map_of_mem hnode
      rw [source_of_mem other hlisted, source_of_mem other hmem, if_neg (by simpa using hname)]
    · have hlisted : info ∉ (front ++ (addr, app) :: back).map Prod.fst := by
        simpa [hinfo] using hmem
      rw [source_of_notMem other hlisted, source_of_notMem other hmem, if_neg (by simp)]
  · rw [hinfos, hhanded]
    exact h.handed

theorem tids_append {infos : List Addr} {addr : Addr} {app : AppInfo}
    (htids : ∀ node ∈ nodes, ∃ tid, node.2.tid = some tid ∧ infos[tid]? = some node.1)
    (htid : app.tid = some infos.length) :
    ∀ node ∈ nodes ++ [(addr, app)], ∃ tid,
      node.2.tid = some tid ∧ (infos ++ [addr])[tid]? = some node.1 := by
  intro node hnode
  rcases List.mem_append.mp hnode with hold | hnew
  · obtain ⟨tid, htid, hinfo⟩ := htids node hold
    have hlt := (List.getElem?_eq_some_iff.mp hinfo).1
    exact ⟨tid, htid, by rw [List.getElem?_append_left hlt, hinfo]⟩
  · rw [List.mem_singleton.mp hnew]
    exact ⟨infos.length, htid, List.getElem?_concat_length⟩

theorem Refines.link {next : State} {addr : Addr} {app : AppInfo} (h : Refines state directory nodes)
    (hchain : Chain next.client.heap next.client.applist (nodes ++ [(addr, app)]))
    (hnodes : next.client.nodes = state.client.nodes + 1)
    (hinfos : Registry.infos next.client = Registry.infos state.client ++ [addr])
    (hheap : ∀ info ∈ Registry.infos state.client,
      valueAt next.client.heap info = valueAt state.client.heap info)
    (hhanded : next.handed = state.handed) (habsent : ∀ node ∈ nodes, node.2.appName ≠ app.appName)
    (hnot : addr ∉ Registry.infos state.client)
    (htid : app.tid = some (Registry.infos state.client).length) (hlist : Queued app.listC []) :
    Refines next (directory.addApp app.appName app.listC.maxCount).2 (nodes ++ [(addr, app)]) := by
  have hkey : app.appName ∉ nodes.map fun node => node.2.appName := by
    intro hmem
    obtain ⟨node, hnode, hname⟩ := List.mem_map.mp hmem
    exact habsent node hnode hname
  simp only [Directory.addApp, h.absent habsent]
  constructor
  · exact hchain
  · rw [hnodes, List.length_append]
    exact Nat.add_le_add_right h.fuel 1
  · rw [List.map_append, List.nodup_append_comm]
    exact List.nodup_cons.mpr ⟨hkey, h.names⟩
  · rw [hinfos]
    exact tids_append h.tids htid
  · have hkeys : app.appName ∉ (nodes.map entry).map Prod.fst := by
      rw [List.map_map]
      exact hkey
    dsimp only [Directory.setQueue]
    rw [List.map_append, List.map_singleton, entry_mk, lookup_middle hkeys, List.append_nil, h.apps,
      queueOf, files_eq hlist, List.map_nil]
  · rw [hinfos, List.length_append, List.length_append, h.length]
    rfl
  · rw [hinfos, List.nodup_append_comm]
    exact List.nodup_cons.mpr ⟨hnot, h.infos⟩
  · rw [hinfos, hhanded]
    intro tid info hinfo
    rw [List.getElem?_append] at hinfo
    dsimp only [Directory.setQueue]
    rw [List.getElem?_append, h.length]
    split at hinfo
    · rename_i hlt
      obtain ⟨other, hother, hsource, htended⟩ := h.threads tid info hinfo
      have hmem := List.mem_of_getElem? hinfo
      refine ⟨other, by rw [hheap info hmem, hother], ?_, htended⟩
      have hne : info ≠ addr := by
        rintro rfl
        exact hnot hmem
      have hlisted : info ∈ (nodes ++ [(addr, app)]).map Prod.fst ↔ info ∈ nodes.map Prod.fst := by
        simp [hne]
      rw [if_pos hlt, hsource]
      simp only [source, hlisted]
    · rename_i hge
      obtain ⟨rfl, rfl⟩ : tid = (Registry.infos state.client).length ∧ addr = info := by
        rw [List.getElem?_singleton] at hinfo
        split at hinfo
        · exact ⟨by omega, Option.some.inj hinfo⟩
        · contradiction
      refine ⟨app, hchain.valueAt (by simp), ?_, [], hlist, ?_⟩
      · rw [if_neg hge, source_of_mem app (by simp), Nat.sub_self]
        rfl
      · intro data hdata
        exact absurd (h.handed _ hdata) (lt_irrefl _)
  · rw [hinfos, hhanded, List.length_append]
    exact fun item hitem => Nat.lt_add_right _ (h.handed item hitem)

theorem Refines.store {tid : Nat} {info : Addr} {app : AppInfo} {list : SendList}
    {handed : List (Nat × Addr)} {answers : List Answer} (h : Refines state directory nodes)
    (hinfo : (Registry.infos state.client)[tid]? = some info)
    (happ : valueAt state.client.heap info = some app)
    (hhanded : ∀ entry ∈ handed, entry ∈ state.handed ∨ entry.1 = tid) (hlist : Tended handed tid list) :
    Refines ⟨setList state.client tid list, handed, answers⟩
      (directory.setServed tid ⟨list.maxCount, files list⟩) (renew nodes info (withList list app)) := by
  have hclient : setList state.client tid list =
      { state.client with heap := setValue state.client.heap info (withList list) } := by
    rw [setList, hinfo]
  have hnode : ∀ node ∈ nodes, node.1 = info → node.2 = app := by
    rintro node hnode rfl
    exact Option.some.inj ((h.chain.valueAt hnode).symm.trans happ)
  obtain ⟨app', happ', hsource, -⟩ := h.threads tid info hinfo
  obtain rfl : app = app' := Option.some.inj (happ.symm.trans happ')
  rw [hclient]
  constructor
  · exact chain_setValue h.chain happ
  · rw [renew, List.length_map]
    exact h.fuel
  · rw [renew_map]
    · exact h.names
    · intro node hmem heq
      rw [hnode node hmem heq, withList_appName]
  · intro node hmem
    obtain ⟨old, hold, rfl⟩ := List.mem_map.mp hmem
    obtain ⟨tid', htid, hinfo'⟩ := h.tids old hold
    split
    · rename_i heq
      rw [hnode old hold heq] at htid
      exact ⟨tid', htid, heq ▸ hinfo'⟩
    · exact ⟨tid', htid, hinfo'⟩
  · by_cases hmem : info ∈ nodes.map Prod.fst
    · obtain ⟨node, hlisted, rfl⟩ := List.mem_map.mp hmem
      obtain rfl := hnode node hlisted rfl
      rw [lookup_renew h.keys h.chain.nodup hlisted (withList_appName list node.2), ← h.apps,
        Directory.setServed, hsource, source_of_mem _ hmem]
      rfl
    · rw [renew_of_notMem hmem, Directory.setServed, hsource, source_of_notMem _ hmem]
      exact h.apps
  · by_cases hmem : info ∈ nodes.map Prod.fst
    · rw [Directory.setServed, hsource, source_of_mem _ hmem]
      exact h.length
    · rw [Directory.setServed, hsource, source_of_notMem _ hmem]
      dsimp only
      rw [List.length_set]
      exact h.length
  · exact h.infos
  · intro tid' info' hinfo'
    by_cases htid : tid' = tid
    · subst htid
      obtain rfl : info = info' := Option.some.inj (hinfo.symm.trans hinfo')
      refine ⟨withList list app, valueAt_setValue_self happ, ?_, hlist⟩
      by_cases hmem : info ∈ nodes.map Prod.fst
      · rw [source_of_mem _ (by rwa [renew_fst]), Directory.setServed, hsource, source_of_mem _ hmem]
        dsimp only [Directory.setQueue]
        rw [hsource, source_of_mem _ hmem, withList_appName]
      · rw [source_of_notMem _ (by rwa [renew_fst]), Directory.setServed, hsource,
          source_of_notMem _ hmem]
        have hlt : tid' < directory.sources.length := (List.getElem?_eq_some_iff.mp hsource).1
        dsimp only
        rw [List.getElem?_set_self hlt]
        rfl
    · have hne : info' ≠ info := by
        rintro rfl
        exact htid ((List.getElem?_inj (List.getElem?_eq_some_iff.mp hinfo').1 h.infos).mp
          (hinfo'.trans hinfo.symm))
      obtain ⟨other, hother, hsource', cells, hqueued, hheld⟩ := h.threads tid' info' hinfo'
      refine ⟨other, by rw [valueAt_setValue_of_ne hne, hother], ?_, cells, hqueued, ?_⟩
      · have hsame : source (renew nodes info (withList list app)) info' other =
            source nodes info' other := by
          simp only [source, renew_fst]
        rw [hsame, ← hsource', Directory.setServed, hsource]
        by_cases hmem : info ∈ nodes.map Prod.fst
        · rw [source_of_mem _ hmem]
          rfl
        · rw [source_of_notMem _ hmem]
          exact List.getElem?_set_ne (Ne.symm htid)
      · intro data hdata
        rcases hhanded _ hdata with hold | hself
        · exact hheld data hold
        · exact absurd hself htid
  · intro item hitem
    rcases hhanded item hitem with hold | rfl
    · exact h.handed item hold
    · exact (List.getElem?_eq_some_iff.mp hinfo).1

def withTid (tid : Nat) (app : AppInfo) : AppInfo := { app with tid := some tid }

@[simp] theorem withTid_appName (tid : Nat) (app : AppInfo) : (withTid tid app).appName = app.appName := rfl

@[simp] theorem withTid_listC (tid : Nat) (app : AppInfo) : (withTid tid app).listC = app.listC := rfl

@[simp] theorem startThread_created (client : Client) (info : Addr) (tmp : Option Addr) :
    startThread client info tmp true = some (eOk, { client with
      heap := setValue (setNext client.heap info none) info (withTid client.threads.length)
      threads := client.threads ++ [FileThread.created info] }) := rfl

theorem Refines.addApp_linked {memory : Addr} {newApp : AppInfo} (h : Refines state directory nodes)
    (hfree : state.client.heap memory = none) (habsent : ∀ node ∈ nodes, node.2.appName ≠ newApp.appName) :
    ∃ client tmp, ProxyClient.addApp (allocate state.client memory newApp) memory true =
        startThread client memory tmp true ∧
      Chain client.heap client.applist (nodes ++ [(memory, newApp)]) ∧
      (∀ info, info ≠ memory → valueAt client.heap info = valueAt state.client.heap info) ∧
      client.threads = state.client.threads ∧ client.nodes = state.client.nodes + 1 := by
  obtain ⟨hnot, -⟩ := h.free hfree
  have hcell : (allocate state.client memory newApp).heap memory = some ⟨newApp, none⟩ :=
    Function.update_self _ _ _
  have hsame : ∀ info, info ≠ memory →
      valueAt (allocate state.client memory newApp).heap info = valueAt state.client.heap info := by
    intro info hinfo
    exact congrArg (Option.map Cell.value) (Function.update_of_ne hinfo _ _)
  have hchain : Chain (allocate state.client memory newApp).heap state.client.applist nodes :=
    h.chain.update_of_notMem hnot _
  have hnew : Chain (allocate state.client memory newApp).heap (some memory) [(memory, newApp)] :=
    ⟨rfl, none, hcell, rfl⟩
  rw [ProxyClient.addApp, hcell]
  dsimp only
  rcases List.eq_nil_or_concat' nodes with rfl | ⟨front, last, rfl⟩
  · have happlist : state.client.applist = none := h.chain
    refine ⟨{ allocate state.client memory newApp with applist := some memory }, none, ?_, hnew, hsame,
      rfl, rfl⟩
    have hempty : (allocate state.client memory newApp).applist = none := happlist
    rw [hempty]
  · obtain ⟨first, hfirst⟩ := h.chain.exists_start (List.mem_append_right front List.mem_cons_self)
    have happlist : (allocate state.client memory newApp).applist = some first := hfirst
    have hname : newApp.appName ∉ (front ++ [last]).map fun node => node.2.appName := by
      intro hmem
      obtain ⟨node, hnode, hname⟩ := List.mem_map.mp hmem
      exact habsent node hnode hname
    have hloop : addAppLoop (allocate state.client memory newApp).heap newApp.appName
        (allocate state.client memory newApp).nodes first = some (some last.1) := by
      rw [addAppLoop_eq (hfirst ▸ hchain), if_neg hname, List.getLast?_concat, Option.map_some]
      exact le_trans h.fuel (Nat.le_add_right _ 1)
    have hlast : last.1 ∉ [(memory, newApp)].map Prod.fst := by
      intro hmem
      apply hnot
      obtain rfl : last.1 = memory := List.mem_singleton.mp hmem
      exact List.mem_map_of_mem (List.mem_append_right _ List.mem_cons_self)
    rw [happlist]
    dsimp only
    rw [hloop]
    refine ⟨_, _, rfl, ?_, ?_, rfl, rfl⟩
    · have hlinked := chain_setNext hchain hnew hlast
      rw [List.append_assoc, ← hfirst]
      exact hlinked
    · intro info hinfo
      rw [← hsame info hinfo]
      exact valueAt_setNext _ _ _ _

theorem Refines.addApp {memory : Addr} {newApp : AppInfo} (h : Refines state directory nodes)
    (hfree : state.client.heap memory = none) (hlist : Queued newApp.listC []) (answers : List Answer) :
    ∃ client nodes', ProxyClient.addApp (allocate state.client memory newApp) memory true =
        some ((directory.addApp newApp.appName newApp.listC.maxCount).1, client) ∧
      Refines ⟨client, state.handed, answers⟩
        (directory.addApp newApp.appName newApp.listC.maxCount).2 nodes' := by
  obtain ⟨hnot, hnot'⟩ := h.free hfree
  by_cases habsent : ∀ node ∈ nodes, node.2.appName ≠ newApp.appName
  · obtain ⟨client, tmp, hadd, hchain, hheap, hthreads, hnodes⟩ := h.addApp_linked hfree habsent
    have happ := hchain.valueAt (List.mem_append_right nodes List.mem_cons_self)
    have hnext : Chain (setNext client.heap memory none) client.applist (nodes ++ [(memory, newApp)]) :=
      by
      have hrelinked := chain_setNext hchain (chain_nil.mpr (Eq.refl none)) List.not_mem_nil
      exact hrelinked
    have hset : Chain (setValue (setNext client.heap memory none) memory (withTid client.threads.length))
        client.applist (nodes ++ [(memory, withTid client.threads.length newApp)]) := by
      rw [← renew_append hnot List.not_mem_nil]
      have happ' := (valueAt_setNext client.heap memory memory none).trans happ
      exact chain_setValue hnext happ'
    have hcode : (directory.addApp newApp.appName newApp.listC.maxCount).1 = eOk := by
      rw [Directory.addApp, h.absent habsent]
    have hinfos : Registry.infos state.client ++ [memory] =
        (client.threads ++ [FileThread.created memory]).map Thread.info := by
      rw [List.map_append, hthreads]
      rfl
    rw [hadd, startThread_created, hcode]
    refine ⟨_, nodes ++ [(memory, withTid client.threads.length newApp)], rfl, ?_⟩
    rw [← withTid_appName client.threads.length newApp, ← withTid_listC client.threads.length newApp]
    refine h.link hset hnodes hinfos.symm ?_ rfl habsent hnot' ?_ hlist
    · intro info hinfo
      have hne : info ≠ memory := by
        rintro rfl
        exact hnot' hinfo
      rw [← hheap info hne, ← valueAt_setNext client.heap memory info none]
      exact valueAt_setValue_of_ne hne
    · rw [Registry.infos, List.length_map, ← hthreads]
      rfl
  · have hpresent : newApp.appName ∈ nodes.map fun node => node.2.appName := by
      simpa using habsent
    obtain ⟨node, hnode, hname⟩ := List.mem_map.mp hpresent
    have hfound := h.found hnode
    rw [hname] at hfound
    have hchain : Chain (allocate state.client memory newApp).heap state.client.applist nodes :=
      h.chain.update_of_notMem hnot _
    obtain ⟨first, hfirst⟩ := h.chain.exists_start hnode
    have hloop : addAppLoop (allocate state.client memory newApp).heap newApp.appName
        (allocate state.client memory newApp).nodes first = some none := by
      rw [addAppLoop_eq (hfirst ▸ hchain), if_pos hpresent]
      exact le_trans h.fuel (Nat.le_add_right _ 1)
    have hcell : (allocate state.client memory newApp).heap memory = some ⟨newApp, none⟩ :=
      Function.update_self _ _ _
    have happlist : (allocate state.client memory newApp).applist = some first := hfirst
    simp only [Directory.addApp, hfound]
    rw [ProxyClient.addApp, hcell]
    dsimp only
    rw [happlist]
    dsimp only
    rw [hloop]
    refine ⟨_, nodes, rfl, h.congr hchain (Nat.le_succ _) rfl ?_ rfl⟩
    intro info hinfo app happ
    refine ⟨app, ?_, rfl, rfl⟩
    have hne : info ≠ memory := by
      rintro rfl
      exact hnot' hinfo
    rw [← happ]
    exact congrArg (Option.map Cell.value) (Function.update_of_ne hne _ _)

theorem infos_cancelThread (client : Client) (tid : Nat) :
    infos { client with threads := cancelThread client.threads tid } = infos client := by
  apply List.ext_getElem?
  intro index
  simp only [infos, cancelThread, List.getElem?_map, List.getElem?_modify]
  cases client.threads[index]? with
  | none => simp
  | some thread =>
    by_cases hindex : tid = index
    · simp [hindex]
    · simp [hindex]

/-- `Del_App` at a node that the loop found after `per`. -/
def unlinkApp (client : Client) (per : Addr) (link : Option Addr) (tmp : Addr) : Client :=
  if per = tmp then { client with applist := link }
  else { client with heap := setNext client.heap per link }

def cancelled (app : AppInfo) : AppInfo := { app with stat := some sCancel }

def stopThread (client : Client) (opt : Int) (tid : Nat) (tmp : Addr) : Client :=
  if opt = delNow then { client with threads := cancelThread client.threads tid }
  else if opt = delLastOne ∨ opt = delLater then
    { client with heap := setValue client.heap tmp cancelled }
  else client

theorem delApp_cases {client next : Client} {appName : Bytes} {opt ret : Int}
    (hdel : ProxyClient.delApp client appName opt = some (ret, next)) :
    next = client ∨
      ∃ per link tmp tid, next = stopThread (unlinkApp client per link tmp) opt tid tmp := by
  unfold ProxyClient.delApp at hdel
  split at hdel
  · cases hdel
    exact .inl rfl
  split at hdel
  · contradiction
  · cases hdel
    exact .inl rfl
  rename_i per cell tmp _
  refine .inr ⟨per, cell.next, tmp, ?_⟩
  dsimp only at hdel
  unfold stopThread
  split at hdel
  · rename_i hnow
    obtain ⟨tid, -, hpair⟩ := Option.map_eq_some_iff.mp hdel
    cases hpair
    exact ⟨tid, (if_pos hnow).symm⟩
  split at hdel
  · rename_i hnow hlater
    cases hdel
    exact ⟨0, by rw [if_neg hnow, if_pos hlater]; rfl⟩
  · rename_i hnow hlater
    cases hdel
    exact ⟨0, by rw [if_neg hnow, if_neg hlater]; rfl⟩

theorem delApp_found {client : Client} {first per tmp : Addr} {link : Option Addr} {app : AppInfo}
    {tid : Nat} {opt : Int} (hfirst : client.applist = some first)
    (hloop : delAppLoop client.heap app.appName client.nodes first first =
      some (some (per, ⟨app, link⟩, tmp))) (htid : app.tid = some tid) :
    ProxyClient.delApp client app.appName opt =
      some (eOk, stopThread (unlinkApp client per link tmp) opt tid tmp) := by
  simp only [ProxyClient.delApp, unlinkApp, stopThread, hfirst, hloop, htid]
  split
  · rfl
  split <;> rfl

theorem unlinkApp_found {client : Client} {front back : List (Addr × AppInfo)} {addr : Addr}
    {app : AppInfo} (h : Chain client.heap client.applist (front ++ (addr, app) :: back))
    (hfuel : (front ++ (addr, app) :: back).length ≤ client.nodes)
    (hfront : ∀ node ∈ front, node.2.appName ≠ app.appName) :
    ∃ first per link, client.applist = some first ∧
      delAppLoop client.heap app.appName client.nodes first first =
        some (some (per, ⟨app, link⟩, addr)) ∧
      Chain (unlinkApp client per link addr).heap (unlinkApp client per link addr).applist
        (front ++ back) ∧
      valueAt (unlinkApp client per link addr).heap = valueAt client.heap ∧
      (unlinkApp client per link addr).nodes = client.nodes ∧
      (unlinkApp client per link addr).threads = client.threads := by
  obtain ⟨first, hfirst⟩ := h.exists_start (List.mem_append_right front List.mem_cons_self)
  have hchain := h
  rw [hfirst] at hchain
  obtain ⟨link, hcell, hback, hloop⟩ := delAppLoop_found first hchain hfuel hfront
  refine ⟨first, _, link, hfirst, hloop, ?_⟩
  rcases List.eq_nil_or_concat' front with rfl | ⟨front, last, rfl⟩
  · have hper : first = addr := Option.some.inj hchain.1
    simp only [List.getLast?_nil, Option.map_none, Option.getD_none, unlinkApp, hper, if_true,
      and_true]
    exact hback
  · have hper : last.1 ≠ addr := by
      intro heq
      apply h.notMem_rest
      rw [← heq]
      simp
    have hlast : last.1 ∉ back.map Prod.fst := by
      have haddrs := h.nodup
      rw [List.map_append, List.map_cons] at haddrs
      have hapart := List.disjoint_of_nodup_append haddrs (by simp : last.1 ∈ _)
      exact fun hmem => hapart (List.mem_cons_of_mem addr hmem)
    simp only [List.getLast?_concat, Option.map_some, Option.getD_some, unlinkApp, hper, if_false]
    refine ⟨?_, ?_, trivial, trivial⟩
    · rw [List.append_assoc] at hchain ⊢
      rw [← hfirst] at hchain
      exact chain_setNext hchain hback hlast
    · funext info
      exact valueAt_setNext _ _ _ _

theorem Refines.delApp_unlinked {front back : List (Addr × AppInfo)} {addr : Addr} {app : AppInfo}
    (h : Refines state directory (front ++ (addr, app) :: back)) (answers : List Answer) :
    ∃ first per link, state.client.applist = some first ∧
      delAppLoop state.client.heap app.appName state.client.nodes first first =
        some (some (per, ⟨app, link⟩, addr)) ∧
      Refines ⟨unlinkApp state.client per link addr, state.handed, answers⟩
        (directory.delApp app.appName).2 (front ++ back) := by
  have hfront : ∀ node ∈ front, node.2.appName ≠ app.appName := by
    intro node hnode heq
    apply h.notMem_names
    rw [← heq]
    exact List.mem_map_of_mem (List.mem_append_left back hnode)
  obtain ⟨first, per, link, hfirst, hloop, hchain, hheap, hnodes, hthreads⟩ :=
    unlinkApp_found h.chain h.fuel hfront
  refine ⟨first, per, link, hfirst, hloop, h.unlink hchain hnodes ?_ hheap rfl⟩
  rw [Registry.infos, Registry.infos, hthreads]

theorem Refines.delApp (h : Refines state directory nodes) (appName : Bytes) (opt : Int)
    (answers : List Answer) :
    ∃ client nodes', ProxyClient.delApp state.client appName opt =
        some ((directory.delApp appName).1, client) ∧
      Refines ⟨client, state.handed, answers⟩ (directory.delApp appName).2 nodes' := by
  by_cases habsent : ∀ node ∈ nodes, node.2.appName ≠ appName
  · have hlookup : directory.delApp appName = (eNotfound, directory) := by
      rw [Directory.delApp, h.absent habsent]
    rw [hlookup, ProxyClient.delApp]
    refine ⟨state.client, nodes, ?_,
      h.congr h.chain le_rfl rfl (fun _ _ app happ => ⟨app, happ, rfl, rfl⟩) rfl⟩
    cases hfirst : state.client.applist with
    | none => rfl
    | some first =>
      dsimp only
      rw [delAppLoop_absent (hfirst ▸ h.chain) h.fuel habsent]
  · obtain ⟨⟨addr, app⟩, hnode, rfl⟩ : ∃ node ∈ nodes, node.2.appName = appName := by
      simpa using habsent
    obtain ⟨front, back, rfl⟩ := List.append_of_mem hnode
    have hcode : (directory.delApp app.appName).1 = eOk := by
      simp only [Directory.delApp, h.found hnode]
    obtain ⟨tid, htid, hinfo⟩ := h.tids _ hnode
    obtain ⟨first, per, link, hfirst, hloop, hunlinked⟩ := h.delApp_unlinked answers
    rw [hcode, delApp_found hfirst hloop htid]
    refine ⟨_, front ++ back, rfl, ?_⟩
    have haddr := h.chain.notMem_rest
    generalize unlinkApp state.client per link addr = unlinked at hunlinked ⊢
    unfold stopThread
    split
    · refine hunlinked.congr hunlinked.chain le_rfl ?_ (fun _ _ app happ => ⟨app, happ, rfl, rfl⟩) rfl
      exact infos_cancelThread unlinked tid
    split
    · refine hunlinked.congr (hunlinked.chain.update_of_notMem haddr _) le_rfl rfl ?_ rfl
      intro info _ other hother
      by_cases hne : info = addr
      · subst hne
        exact ⟨cancelled other, valueAt_setValue_self hother, rfl, rfl⟩
      · exact ⟨other, (valueAt_setValue_of_ne hne).trans hother, rfl, rfl⟩
    · exact hunlinked

theorem Refines.served {tid : Nat} {info : Addr} {app : AppInfo} (h : Refines state directory nodes)
    (hinfo : (Registry.infos state.client)[tid]? = some info)
    (happ : valueAt state.client.heap info = some app) :
    directory.served tid = some (queueOf app) := by
  obtain ⟨app', happ', hsource, -⟩ := h.threads tid info hinfo
  obtain rfl : app = app' := Option.some.inj (happ.symm.trans happ')
  rw [Directory.served, hsource]
  by_cases hmem : info ∈ nodes.map Prod.fst
  · obtain ⟨node, hnode, rfl⟩ := List.mem_map.mp hmem
    obtain rfl : node.2 = app := Option.some.inj ((h.chain.valueAt hnode).symm.trans happ)
    rw [source_of_mem _ hmem]
    exact h.found hnode
  · rw [source_of_notMem _ hmem]

theorem setServed_self {tid : Nat} {queue : Queue} (h : directory.served tid = some queue) :
    directory.setServed tid queue = directory := by
  unfold Directory.served at h
  unfold Directory.setServed
  split at h
  · contradiction
  · dsimp only [Directory.setQueue]
    rw [← h, Function.update_eq_self]
  · rename_i hsource
    obtain rfl := Option.some.inj h
    obtain ⟨hlt, hget⟩ := List.getElem?_eq_some_iff.mp hsource
    rw [← hget, List.set_getElem_self]

theorem listOf_eq {client : Client} {tid : Nat} {info : Addr} {app : AppInfo}
    (hinfo : (infos client)[tid]? = some info) (happ : valueAt client.heap info = some app) :
    listOf client tid = some app.listC := by
  rw [listOf, hinfo]
  dsimp only
  rw [happ, Option.map_some]

theorem Refines.thread {tid : Nat} (h : Refines state directory nodes)
    (htid : tid < state.client.threads.length) :
    ∃ info app cells, (Registry.infos state.client)[tid]? = some info ∧
      valueAt state.client.heap info = some app ∧ Queued app.listC cells ∧
      ∀ data, (tid, data) ∈ state.handed →
        data ∉ cells.map Prod.fst ∧ (app.listC.heap data).isSome := by
  have hlt : tid < (Registry.infos state.client).length := by
    rw [Registry.infos, List.length_map]
    exact htid
  have hinfo := List.getElem?_eq_getElem hlt
  obtain ⟨app, happ, -, cells, hqueued, hheld⟩ := h.threads tid _ hinfo
  exact ⟨_, app, cells, hinfo, happ, hqueued, hheld⟩

theorem Refines.getNext {tid : Nat} (h : Refines state directory nodes)
    (htid : tid < state.client.threads.length) :
    ∃ list data next directory' nodes', listOf state.client tid = some list ∧
      SendList.getNext list = some (data, next) ∧
      directory.getNext tid =
        some (data.bind fun addr => (list.heap addr).map Cell.value, directory') ∧
      ∀ answers, Refines ⟨setList state.client tid next,
        state.handed ++ (data.map fun addr => (tid, addr)).toList, answers⟩ directory' nodes' := by
  obtain ⟨info, app, cells, hinfo, happ, hqueued, hheld⟩ := h.thread htid
  obtain ⟨next, hnext, hrest, hheap, hmax⟩ := hqueued.getNext
  have hitem : (cells.head?.map Prod.fst).bind (fun addr => (app.listC.heap addr).map Cell.value) =
      (files app.listC).head? := by
    rw [files_eq hqueued]
    cases cells with
    | nil => rfl
    | cons cell rest => exact hqueued.chain.valueAt List.mem_cons_self
  have hfiles : (files app.listC).tail = files next := by
    rw [files_eq hqueued, files_eq hrest, List.map_tail]
  refine ⟨app.listC, _, next, _, _, listOf_eq hinfo happ, hnext, ?_,
    fun answers => h.store hinfo happ ?_ ?_⟩
  · rw [hitem, Directory.getNext, h.served hinfo happ, Option.map_some, queueOf, hmax]
    dsimp only
    rw [hfiles]
  · intro item hitem
    rcases List.mem_append.mp hitem with hold | hnew
    · exact .inl hold
    · obtain ⟨addr, -, rfl⟩ := Option.map_eq_some_iff.mp (Option.mem_toList.mp hnew)
      exact .inr rfl
  · refine ⟨cells.tail, hrest, ?_⟩
    intro data hdata
    rw [hheap]
    rcases List.mem_append.mp hdata with hold | hnew
    · obtain ⟨hnot, hallocated⟩ := hheld data hold
      exact ⟨fun hmem => hnot ((List.tail_sublist cells).map _ |>.subset hmem), hallocated⟩
    · cases cells with
      | nil => simp at hnew
      | cons cell rest =>
        obtain rfl : data = cell.1 := by simpa using hnew
        have hnodup := hqueued.chain.nodup
        rw [List.map_cons, List.nodup_cons] at hnodup
        obtain ⟨link, hcell⟩ := hqueued.chain.allocated List.mem_cons_self
        exact ⟨hnodup.1, by rw [hcell]; rfl⟩

theorem Refines.delete {tid : Nat} {data : Addr} (h : Refines state directory nodes)
    (hdata : (tid, data) ∈ state.handed) (answers : List Answer) :
    ∃ list nodes', listOf state.client tid = some list ∧
      Refines ⟨setList state.client tid (SendList.delete list data),
        state.handed.filter fun entry => entry ≠ (tid, data), answers⟩ directory nodes' := by
  have htid : tid < state.client.threads.length := by
    have hlt := h.handed _ hdata
    rwa [Registry.infos, List.length_map] at hlt
  obtain ⟨info, app, cells, hinfo, happ, hqueued, hheld⟩ := h.thread htid
  have hdeleted := hqueued.delete (hheld data hdata).1
  have hqueue : (⟨(SendList.delete app.listC data).maxCount,
      files (SendList.delete app.listC data)⟩ : Queue) = queueOf app := by
    rw [files_eq hdeleted, queueOf, files_eq hqueued]
    rfl
  refine ⟨app.listC, renew nodes info (withList (SendList.delete app.listC data) app),
    listOf_eq hinfo happ, ?_⟩
  rw [← setServed_self (h.served hinfo happ), ← hqueue]
  refine h.store hinfo happ (fun item hitem => .inl (List.mem_of_mem_filter hitem)) ⟨cells, hdeleted, ?_⟩
  intro other hother
  obtain ⟨hold, hne⟩ := List.mem_filter.mp hother
  obtain ⟨hnot, hallocated⟩ := hheld other hold
  refine ⟨hnot, ?_⟩
  have hother : other ≠ data := by simpa using hne
  have hsame : (SendList.delete app.listC data).heap other = app.listC.heap other :=
    Function.update_of_ne hother _ _
  rw [hsame]
  exact hallocated

theorem Refines.setServed_listed {tid : Nat} {addr : Addr} {app : AppInfo}
    (h : Refines state directory nodes) (hmem : (addr, app) ∈ nodes)
    (hinfo : (Registry.infos state.client)[tid]? = some addr) (queue : Queue) :
    directory.setServed tid queue = directory.setQueue app.appName (some queue) := by
  obtain ⟨app', happ', hsource, -⟩ := h.threads tid addr hinfo
  obtain rfl : app = app' := Option.some.inj ((h.chain.valueAt hmem).symm.trans happ')
  rw [Directory.setServed, hsource, source_of_mem app (List.mem_map_of_mem hmem)]

theorem Refines.appendFile {memory addr : Addr} {app : AppInfo} (h : Refines state directory nodes)
    (hmem : (addr, app) ∈ nodes) (hfree : ∀ tid < state.client.threads.length,
      ∀ list ∈ listOf state.client tid, list.heap memory = none) (filename : Bytes) (delect : Bool)
    (answers : List Answer) :
    ∃ ret next, app.listC.heap memory = none ∧
      SendList.appendFile app.listC filename delect memory = some (ret, next) ∧
      (ret = eOk ∨ ret = eFull) ∧ (directory.addSendFile app.appName ⟨filename, delect⟩).1 = ret ∧
      Refines ⟨{ state.client with heap := setValue state.client.heap addr (withList next) },
        state.handed, answers⟩ (directory.addSendFile app.appName ⟨filename, delect⟩).2
        (renew nodes addr (withList next app)) := by
  obtain ⟨tid, -, hinfo⟩ := h.tids _ hmem
  have htid : tid < state.client.threads.length := by
    have hlt := (List.getElem?_eq_some_iff.mp hinfo).1
    rwa [Registry.infos, List.length_map] at hlt
  have happ := h.chain.valueAt hmem
  have hmemory := hfree tid htid _ (listOf_eq hinfo happ)
  have hclient : ∀ list, setList state.client tid list =
      { state.client with heap := setValue state.client.heap addr (withList list) } := by
    intro list
    rw [setList, hinfo]
  obtain ⟨info', app', cells, hinfo', happ', hqueued, hheld⟩ := h.thread htid
  obtain rfl : addr = info' := Option.some.inj (hinfo.symm.trans hinfo')
  obtain rfl : app = app' := Option.some.inj (happ.symm.trans happ')
  have hfiles := files_eq hqueued
  by_cases hroom : (cells.length : Int) < app.listC.maxCount
  · obtain ⟨next, hnext, hmore, hmax, -, hheap⟩ :=
      hqueued.appendFile hroom hmemory filename delect
    have hlookup : directory.addSendFile app.appName ⟨filename, delect⟩ =
        (eOk, directory.setServed tid ⟨next.maxCount, files next⟩) := by
      rw [Directory.addSendFile, h.found hmem, h.setServed_listed hmem hinfo, hmax, files_eq hmore]
      dsimp only [queueOf]
      rw [if_neg (by rw [hfiles, List.length_map]; omega), hfiles, List.map_append, List.map_singleton]
    rw [hlookup]
    refine ⟨eOk, next, hmemory, hnext, .inl rfl, rfl, ?_⟩
    rw [← hclient]
    refine h.store hinfo happ (fun item hitem => .inl hitem) ⟨_, hmore, ?_⟩
    intro data hdata
    obtain ⟨hnot, hallocated⟩ := hheld data hdata
    have hne : data ≠ memory := by
      rintro rfl
      rw [hmemory] at hallocated
      contradiction
    rw [hheap data hnot hne]
    exact ⟨by simp [hnot, hne], hallocated⟩
  · have hfull := hqueued.appendFile_full (by omega) filename delect memory
    have hlookup : directory.addSendFile app.appName ⟨filename, delect⟩ = (eFull, directory) := by
      rw [Directory.addSendFile, h.found hmem]
      dsimp only [queueOf]
      rw [if_pos (by rw [hfiles, List.length_map]; omega)]
    rw [hlookup]
    refine ⟨eFull, app.listC, hmemory, hfull, .inr rfl, rfl, ?_⟩
    rw [← hclient, ← setServed_self (h.served hinfo happ)]
    exact h.store hinfo happ (fun item hitem => .inl hitem) ⟨cells, hqueued, hheld⟩

theorem addSendFile_found {client : Client} {first addr memory : Addr} {link : Option Addr}
    {app : AppInfo} {filename : Bytes} {delect : Bool} {ret : Int} {next : SendList}
    (hfirst : client.applist = some first)
    (hloop : addSendFileLoop client.heap app.appName client.nodes first = some (addr, ⟨app, link⟩))
    (hmemory : app.listC.heap memory = none)
    (hnext : SendList.appendFile app.listC filename delect memory = some (ret, next)) :
    ProxyClient.addSendFile client app.appName filename delect memory =
      some (if ret ≠ eOk then eFull else eOk,
        { client with heap := setValue client.heap addr (withList next) }) := by
  simp only [ProxyClient.addSendFile, hfirst, hloop, if_true, hmemory, hnext]
  rfl

theorem Refines.addSendFile {memory : Addr} (h : Refines state directory nodes)
    (hfree : ∀ tid < state.client.threads.length, ∀ list ∈ listOf state.client tid,
      list.heap memory = none) (appName filename : Bytes) (delect : Bool) (answers : List Answer) :
    ∃ client nodes', ProxyClient.addSendFile state.client appName filename delect memory =
        some ((directory.addSendFile appName ⟨filename, delect⟩).1, client) ∧
      Refines ⟨client, state.handed, answers⟩
        (directory.addSendFile appName ⟨filename, delect⟩).2 nodes' := by
  have hmissing (habsent : ∀ node ∈ nodes, node.2.appName ≠ appName) :
      directory.addSendFile appName ⟨filename, delect⟩ = (eNotfound, directory) := by
    rw [Directory.addSendFile, h.absent habsent]
  have hsame : Refines ⟨state.client, state.handed, answers⟩ directory nodes :=
    h.congr h.chain le_rfl rfl (fun _ _ app happ => ⟨app, happ, rfl, rfl⟩) rfl
  cases hfirst : state.client.applist with
  | none =>
    obtain rfl := h.chain.start_eq_none_iff.mp hfirst
    rw [hmissing (by simp), ProxyClient.addSendFile, hfirst]
    exact ⟨state.client, [], rfl, hsame⟩
  | some first =>
    obtain ⟨addr, app, link, hloop, hmem, hname⟩ := addSendFileLoop_eq appName (hfirst ▸ h.chain) h.fuel
    by_cases hfound : app.appName = appName
    · subst hfound
      obtain ⟨ret, next, hmemory, hnext, hret, hcode, hrefines⟩ :=
        h.appendFile hmem hfree filename delect answers
      have hreply : (if ret ≠ eOk then eFull else eOk) = ret := by
        rcases hret with rfl | rfl <;> rfl
      rw [addSendFile_found hfirst hloop hmemory hnext, hcode, hreply]
      exact ⟨_, _, rfl, hrefines⟩
    · rw [hmissing (hname.resolve_left hfound), ProxyClient.addSendFile, hfirst]
      dsimp only
      rw [hloop]
      dsimp only
      rw [if_neg hfound]
      exact ⟨state.client, nodes, rfl, hsame⟩

/-- The map gives the same answers and holds the apps of the list. -/
def Tracks (state : State) (ideal : Ideal) : Prop :=
  ideal.answers = state.answers ∧ ∃ nodes, Refines state ideal.directory nodes

theorem tracks_start : Tracks start Ideal.start := ⟨rfl, [], refines_start⟩

theorem Tracks.answered {ideal : Ideal} {client : Client} {reply : Int × Directory}
    {nodes' : List (Addr × AppInfo)} (h : Tracks state ideal)
    (hnext : Refines ⟨client, state.handed, state.answers ++ [.code reply.1]⟩ reply.2 nodes') :
    Tracks { state with client := client, answers := state.answers ++ [.code reply.1] }
      (ideal.answered reply) := by
  refine ⟨?_, nodes', hnext⟩
  rw [Ideal.answered, h.1]

/-- Every call is answered as the map answers it. -/
theorem Tracks.step {ideal : Ideal} {action : Action} (h : Tracks state ideal)
    (hallowed : Allowed state action) :
    ∃ next next', Registry.step state action = some next ∧ Ideal.step ideal action = some next' ∧
      Tracks next next' := by
  obtain ⟨hanswers, nodes, hrefines⟩ := id h
  cases action with
  | addApp info maxCount memory =>
    have hfree : state.client.heap memory = none := hallowed
    have hlist : Queued (withList { SendList.new with maxCount := maxCount } info).listC [] :=
      queued_new maxCount
    obtain ⟨client, nodes', hadd, hnext⟩ := hrefines.addApp hfree hlist
      (state.answers ++ [.code (ideal.directory.addApp info.appName maxCount).1])
    refine ⟨_, _, ?_, rfl, h.answered hnext⟩
    rw [Registry.step, if_neg (by simp [hfree])]
    dsimp only
    rw [hadd, Option.map_some]
    rfl
  | delApp appName opt =>
    obtain ⟨client, nodes', hdel, hnext⟩ := hrefines.delApp appName opt
      (state.answers ++ [.code (ideal.directory.delApp appName).1])
    refine ⟨_, _, ?_, rfl, h.answered hnext⟩
    rw [Registry.step, hdel, Option.map_some]
  | addSendFile appName filename delect memory =>
    obtain ⟨client, nodes', hadd, hnext⟩ := hrefines.addSendFile hallowed appName filename delect
      (state.answers ++ [.code (ideal.directory.addSendFile appName ⟨filename, delect⟩).1])
    refine ⟨_, _, ?_, rfl, h.answered hnext⟩
    rw [Registry.step, hadd, Option.map_some]
  | getNext tid =>
    obtain ⟨list, data, next, directory', nodes', hlist, hget, hserved, hnext⟩ :=
      hrefines.getNext hallowed
    let item := data.bind fun addr => (list.heap addr).map Cell.value
    refine ⟨⟨_, _, state.answers ++ [.file item]⟩, ⟨directory', ideal.answers ++ [.file item]⟩, ?_, ?_, ?_,
      nodes', hnext _⟩
    · rw [Registry.step, hlist]
      dsimp only
      rw [hget, Option.map_some]
    · rw [Ideal.step, hserved, Option.map_some]
    · dsimp only
      rw [hanswers]
  | delete tid data =>
    obtain ⟨list, nodes', hlist, hnext⟩ := hrefines.delete hallowed state.answers
    have hheld : (tid, data) ∈ state.handed := hallowed
    refine ⟨⟨setList state.client tid (SendList.delete list data),
      state.handed.filter fun entry => entry ≠ (tid, data), state.answers⟩, ideal, ?_, rfl, hanswers,
      nodes', hnext⟩
    rw [Registry.step, if_pos hheld, hlist, Option.map_some]
  | other tid thread speed =>
    have hinfo : (infos state.client)[tid]? = some thread.info := hallowed
    refine ⟨{ state with client := { state.client with
      threads := state.client.threads.set tid thread, speed := speed } }, ideal, ?_, rfl, hanswers,
      nodes, hrefines.congr hrefines.chain le_rfl ?_ (fun _ _ app happ => ⟨app, happ, rfl, rfl⟩) rfl⟩
    · rw [Registry.step, if_pos hinfo]
    · obtain ⟨hlt, hget⟩ := List.getElem?_eq_some_iff.mp hinfo
      rw [Registry.infos, List.map_set, ← hget]
      exact List.set_getElem_self hlt

/-- For every sequence of calls the answers are those of the map, whatever the
interleaving with the threads, and the list holds exactly the apps of the map. -/
theorem answers_of_map {actions : List Action} (meets : Meets step Allowed start actions) :
    ∃ final ideal nodes, exec step start actions = some final ∧
      exec Ideal.step Ideal.start actions = some ideal ∧ final.answers = ideal.answers ∧
      Chain final.client.heap final.client.applist nodes ∧
      (nodes.map fun node => node.2.appName).Nodup ∧
      ∀ appName queue, ideal.directory.apps appName = some queue ↔
        ∃ node ∈ nodes, node.2.appName = appName ∧ queueOf node.2 = queue := by
  obtain ⟨final, ideal, run, run', hanswers, nodes, h⟩ :=
    exec_simulation_total (fun _ _ _ h hallowed => h.step hallowed)
      tracks_start meets
  refine ⟨final, ideal, nodes, run, run', hanswers.symm, h.chain, h.names, ?_⟩
  intro appName queue
  rw [h.apps]
  dsimp only
  rw [lookup_eq_some h.keys, List.mem_map]
  simp only [entry, Prod.mk.injEq]

end

/-- Two apps with room for one file; the first is removed with a file in its queue. -/
def removedWithFile : List Action :=
  let info : Bytes → AppInfo := fun appName =>
    ⟨none, none, appName, [], 0, false, 1, SendList.new, 200⟩
  [.addApp (info [97]) 1 1, .addApp (info [98]) 1 2, .addApp (info [97]) 1 3,
    .addSendFile [97] [102] false 7, .addSendFile [97] [103] false 8, .addSendFile [99] [103] true 8,
    .delApp [97] delNow, .delApp [97] delNow, .getNext 0, .delete 0 7, .getNext 0, .getNext 1]

theorem answers_of_map_removed : Meets step Allowed start removedWithFile ∧
    ∃ final ideal nodes, exec step start removedWithFile = some final ∧
      exec Ideal.step Ideal.start removedWithFile = some ideal ∧ final.answers = ideal.answers ∧
      Chain final.client.heap final.client.applist nodes ∧
      (nodes.map fun node => node.2.appName).Nodup ∧
      ∀ appName queue, ideal.directory.apps appName = some queue ↔
        ∃ node ∈ nodes, node.2.appName = appName ∧ queueOf node.2 = queue := by
  have meets : Meets step Allowed start removedWithFile := by decide +kernel
  exact ⟨meets, answers_of_map meets⟩

end UdpFileProxy.Registry
