import UdpFileProxy.Registry

/-! `Add_App` when `pthread_create` may fail: it has linked the new node before, and
undoes that through the cursor of its loop, which is null when the list was empty. -/
namespace UdpFileProxy.Adding
open Lib.LinkedList Lib.Memory Protocol ProxyClient Registry

/-- The list of apps, from its head on. -/
structure Listed (client : Client) (nodes : List (Addr × AppInfo)) : Prop where
  chain : Chain client.heap client.applist nodes
  bound : nodes.length ≤ client.nodes

/-- What `Add_App` may leave behind. Nothing is returned when a null pointer is
dereferenced. -/
structure Added (client : Client) (nodes : List (Addr × AppInfo)) (info : Addr) (app : AppInfo)
    (ret : Int) (next : Client) : Prop where
  code : ret = eOk ∨ ret = eExist ∨ ret = eThread
  added : ret = eOk →
    Chain next.heap next.applist (nodes ++ [(info, withTid client.threads.length app)])
  kept : ret = eExist ∨ ret = eThread → Chain next.heap next.applist nodes ∧
    ∀ value, (info, value) ∉ nodes

section
variable {client : Client} {nodes front back : List (Addr × AppInfo)} {info : Addr} {app : AppInfo}
  {link : Option Addr} {heap : Heap AppInfo} {start : Option Addr}

theorem chain_last {last : Addr × AppInfo} (h : Chain heap start (front ++ [last])) :
    heap last.1 = some ⟨last.2, none⟩ := by
  induction front generalizing start with
  | nil =>
    obtain ⟨-, next, hcell, hrest⟩ := h
    rw [hcell, chain_nil.mp hrest]
  | cons node front ih =>
    obtain ⟨-, next, -, hrest⟩ := h
    exact ih hrest

theorem chain_rollback {last : Addr × AppInfo} (h : Chain heap start (front ++ [last]))
    (hnot : info ∉ (front ++ [last]).map Prod.fst) :
    Chain (Function.update (setNext (setNext (setNext heap last.1 (some info)) info none) last.1 none)
      info none) start (front ++ [last]) := by
  apply h.congr
  intro node hnode
  have hne : node.1 ≠ info := by
    rintro rfl
    exact hnot (List.mem_map_of_mem hnode)
  have hlast : last.1 ≠ info := by
    rintro rfl
    exact hnot (List.mem_map_of_mem (List.mem_append_right _ List.mem_cons_self))
  rw [Function.update_of_ne hne]
  by_cases heq : node.1 = last.1
  · have hcell := chain_last h
    rw [heq]
    simp [setNext, hcell, hlast]
  · simp [setNext, hne, heq]

theorem Listed.allocate {memory : Addr} (h : Listed client nodes) (hfree : client.heap memory = none)
    (newApp : AppInfo) : Listed (Registry.allocate client memory newApp) nodes :=
  ⟨h.chain.update_of_notMem (h.chain.notMem_of_free hfree) _, Nat.le_succ_of_le h.bound⟩

theorem addApp_empty (h : Listed client []) (hnew : client.heap info = some ⟨app, link⟩)
    (created : Bool) : addApp client info created =
      startThread { client with applist := some info } info none created := by
  have hempty : client.applist = none := h.chain
  simp only [addApp, hnew, hempty]

theorem addApp_nonempty {last : Addr × AppInfo} (h : Listed client (front ++ [last]))
    (hnew : client.heap info = some ⟨app, link⟩) (created : Bool) : addApp client info created =
      if app.appName ∈ (front ++ [last]).map (fun node => node.2.appName) then some (eExist, client)
      else startThread { client with heap := setNext client.heap last.1 (some info) } info
        (some last.1) created := by
  cases hfirst : client.applist with
  | none =>
    have hnil := h.chain.start_eq_none_iff.mp hfirst
    simp at hnil
  | some first =>
    simp only [addApp, hnew, hfirst]
    rw [addAppLoop_eq (hfirst ▸ h.chain) h.bound]
    by_cases hname : app.appName ∈ (front ++ [last]).map (fun node => node.2.appName)
    · rw [if_pos hname, if_pos hname]
    · rw [if_neg hname, if_neg hname, List.getLast?_concat, Option.map_some]

theorem startThread_eOk_iff {tmp : Option Addr} {created : Bool} {ret : Int} {next : Client}
    (hstart : startThread client info tmp created = some (ret, next)) : ret = eOk ↔ created = true := by
  unfold startThread at hstart
  dsimp only at hstart
  split at hstart
  · rename_i hcreated
    cases hstart
    exact iff_of_true rfl hcreated
  · rename_i hcreated
    obtain ⟨last, -, hpair⟩ := Option.map_eq_some_iff.mp hstart
    cases hpair
    exact iff_of_false (by decide) hcreated

theorem setNext_comm {addr other : Addr} (hne : addr ≠ other) (next next' : Option Addr) :
    setNext (setNext heap addr next) other next' = setNext (setNext heap other next') addr next := by
  funext node
  by_cases haddr : node = addr
  · subst haddr
    simp [setNext, hne]
  · by_cases hother : node = other
    · subst hother
      simp [setNext, haddr]
    · simp [setNext, haddr, hother]

theorem chain_linked {last : Addr × AppInfo} (h : Chain heap start (front ++ [last]))
    (hnew : heap info = some ⟨app, link⟩) (hnot : info ∉ (front ++ [last]).map Prod.fst) :
    Chain (setNext (setNext heap last.1 (some info)) info none) start
      ((front ++ [last]) ++ [(info, app)]) := by
  have hne : last.1 ≠ info := by
    rintro rfl
    exact hnot (List.mem_map_of_mem (List.mem_append_right _ List.mem_cons_self))
  have hcell : setNext heap info none info = some ⟨app, none⟩ := by simp [setNext, hnew]
  have hkept : Chain (setNext heap info none) start (front ++ [last]) :=
    h.update_of_notMem hnot _
  have hend : Chain (setNext heap info none) (some info) [(info, app)] := ⟨rfl, none, hcell, rfl⟩
  rw [setNext_comm hne, List.append_assoc]
  exact chain_setNext hkept hend (by simpa using hne)

theorem chain_created (h : Chain (setNext heap info none) start (nodes ++ [(info, app)]))
    (hnot : info ∉ nodes.map Prod.fst) (tid : Nat) :
    Chain (setValue (setNext heap info none) info (withTid tid)) start
      (nodes ++ [(info, withTid tid app)]) := by
  have happ := h.valueAt (List.mem_append_right nodes List.mem_cons_self)
  rw [← renew_append hnot List.not_mem_nil]
  exact chain_setValue h happ

theorem added_created (client linked : Client) (hthreads : linked.threads = client.threads)
    (h : Chain (setNext linked.heap info none) linked.applist (nodes ++ [(info, app)]))
    (hnot : info ∉ nodes.map Prod.fst) (tmp : Option Addr) :
    ∃ ret next, startThread linked info tmp true = some (ret, next) ∧
      Added client nodes info app ret next := by
  refine ⟨_, _, startThread_created linked info tmp, .inl rfl, ?_, ?_⟩
  · intro _
    rw [hthreads]
    exact chain_created h hnot client.threads.length
  · intro hcode
    rcases hcode with hcode | hcode <;> exact absurd hcode (by decide)

theorem added_kept {ret : Int} {next : Client} (hcode : ret = eExist ∨ ret = eThread)
    (h : Chain next.heap next.applist nodes) (hnot : info ∉ nodes.map Prod.fst) :
    Added client nodes info app ret next where
  code := .inr hcode
  added := by
    rintro rfl
    rcases hcode with hcode | hcode <;> exact absurd hcode (by decide)
  kept _ := ⟨h, fun _ hmem => hnot (List.mem_map_of_mem hmem)⟩

theorem adds_empty (h : Listed client []) (hnew : client.heap info = some ⟨app, link⟩)
    (created : Bool) : (∃ ret next, addApp client info created = some (ret, next) ∧
      Added client [] info app ret next) ↔ created = true := by
  rw [addApp_empty h hnew]
  cases created with
  | false => simp [startThread]
  | true =>
    have hcell : setNext client.heap info none info = some ⟨app, none⟩ := by simp [setNext, hnew]
    have halone : Chain (setNext client.heap info none) (some info) ([] ++ [(info, app)]) :=
      ⟨rfl, none, hcell, rfl⟩
    have hadded := added_created client { client with applist := some info } rfl halone
      List.not_mem_nil none
    exact iff_of_true hadded rfl

theorem adds_nonempty {last : Addr × AppInfo} (h : Listed client (front ++ [last]))
    (hnew : client.heap info = some ⟨app, link⟩)
    (hnot : info ∉ (front ++ [last]).map Prod.fst) (created : Bool) :
    ∃ ret next, addApp client info created = some (ret, next) ∧
      Added client (front ++ [last]) info app ret next := by
  rw [addApp_nonempty h hnew]
  split
  · exact ⟨_, _, rfl, added_kept (.inl rfl) h.chain hnot⟩
  · cases created with
    | false => exact ⟨_, _, rfl, added_kept (.inr rfl) (chain_rollback h.chain hnot) hnot⟩
    | true =>
      have hlinked := chain_linked h.chain hnew hnot
      exact added_created client { client with heap := setNext client.heap last.1 (some info) } rfl
        hlinked hnot _

theorem addApp_eOk_iff (h : Listed client nodes) (hnew : client.heap info = some ⟨app, link⟩)
    {created : Bool} {ret : Int} {next : Client}
    (hadd : addApp client info created = some (ret, next)) :
    ret = eOk ↔ app.appName ∉ nodes.map (fun node => node.2.appName) ∧ created = true := by
  rcases List.eq_nil_or_concat' nodes with rfl | ⟨front, last, rfl⟩
  · rw [addApp_empty h hnew] at hadd
    rw [startThread_eOk_iff hadd]
    simp
  · rw [addApp_nonempty h hnew] at hadd
    split at hadd
    · rename_i hname
      cases hadd
      exact iff_of_false (by decide) fun hboth => hboth.1 hname
    · rename_i hname
      rw [startThread_eOk_iff hadd, and_iff_right hname]

theorem addApp_isSome_iff (h : Listed client nodes) (hnew : client.heap info = some ⟨app, link⟩)
    (hnot : info ∉ nodes.map Prod.fst) (created : Bool) :
    (addApp client info created).isSome ↔ nodes ≠ [] ∨ created = true := by
  rcases List.eq_nil_or_concat' nodes with rfl | ⟨front, last, rfl⟩
  · rw [addApp_empty h hnew]
    cases created <;> simp [startThread]
  · obtain ⟨ret, next, hadd, -⟩ := adds_nonempty h hnew hnot created
    simp [hadd]

/-- `Add_App` is all or nothing, and dereferences no null pointer, exactly when the
list is not empty or the thread can be created. -/
theorem adds_exactly (h : Listed client nodes) (hnew : client.heap info = some ⟨app, link⟩)
    (hnot : info ∉ nodes.map Prod.fst) (created : Bool) :
    (∃ ret next, addApp client info created = some (ret, next) ∧
      Added client nodes info app ret next) ↔ nodes ≠ [] ∨ created = true := by
  rcases List.eq_nil_or_concat' nodes with rfl | ⟨front, last, rfl⟩
  · rw [adds_empty h hnew, or_iff_right (not_not_intro rfl)]
  · exact iff_of_true (adds_nonempty h hnew hnot created) (.inl (by simp))

end

def firstInfo : AppInfo := registration [] .other [(ascii "app_name", ascii "a")]

/-- A client without apps that has allocated one at address 1. -/
def firstApp : Client := allocate ProxyClient.new 1 firstInfo

/-- The thread of the first app cannot be created. -/
theorem null_cursor : addApp firstApp 1 false = none := rfl

theorem adds_exactly_first : ∃ ret next, addApp firstApp 1 true = some (ret, next) ∧
    Added firstApp [] 1 firstInfo ret next := by
  have hlisted : Listed firstApp [] := ⟨rfl, Nat.zero_le _⟩
  have hnew : firstApp.heap 1 = some ⟨firstInfo, none⟩ := rfl
  exact (adds_exactly hlisted hnew List.not_mem_nil true).mpr (.inr rfl)

end UdpFileProxy.Adding
