import UdpFileProxy.ProxyServer

/-! No running child of the server is forgotten, whenever `sig_chld` runs: `mp_app` has it under
its app until `kill` is called on it, and an app never has two of them. A run ends when a request
crashes the server: with an empty body, or at `erase(end())`. -/
namespace UdpFileProxy.Orphans
open Lib Lib.Memory Lib.Run Protocol Config ProxyServer

/-- `struck` is history: the unreaped children that `kill` was called on. -/
structure State where
  server : Server
  struck : List Int

def start : State where
  server := ProxyServer.new
  struck := []

def strike (server : Server) (struck : List Int) : Action → List Int
  | .main _ =>
      match server.main with
      | .kill _ pid => if (server.children.find pid).isSome then pid :: struck else struck
      | _ => struck
  | .wait pid => struck.filter (· ≠ pid)
  | _ => struck

def step (state : State) (action : Action) : Option State :=
  (ProxyServer.step state.server action).map fun next => ⟨next, strike state.server state.struck action⟩

/-- A child that was forked for the app, runs, and was not killed. -/
def Serves (state : State) (appName : Bytes) (pid : Int) : Prop :=
  state.server.children.find pid = some ⟨appName, true⟩ ∧ pid ∉ state.struck

def Entered (server : Server) (appName : Bytes) (pid : Int) : Prop :=
  ∃ info, server.mpApp.find appName = some ⟨pid, info⟩

/-- The request in progress has forked the child and not entered it, or is going to kill it. -/
inductive Underway (appName : Bytes) (pid : Int) : Main → Prop where
  | insert (info : Section) : Underway appName pid (.insert appName info pid)
  | setPid : Underway appName pid (.setPid appName pid)
  | kill : Underway appName pid (.kill appName pid)

structure Inv (state : State) : Prop where
  known : ∀ appName pid, Serves state appName pid →
    Entered state.server appName pid ∨ Underway appName pid state.server.main
  vacant : ∀ appName, (∃ info, state.server.main = .fork appName info) ∨
    (∃ info ret, state.server.main = .insert appName info ret) ∨
      (∃ pid, state.server.main = .kill appName pid) → state.server.mpApp.find appName = none
  sole : ∀ appName ret, (∃ info, state.server.main = .insert appName info ret) ∨
    state.server.main = .setPid appName ret → ∀ pid, Serves state appName pid → pid = ret
  read : ∀ appName pid, state.server.main = .deleteErase appName pid →
    ∀ app, state.server.mpApp.find appName = some app → app.pid = pid
  reaped : ∀ pid, state.server.handler = some (.delApp pid) → state.server.children.find pid = none
  struck : ∀ pid ∈ state.struck, (state.server.children.find pid).isSome

section
variable {state next : State} {action : Action} {world : World} {appName : Bytes} {pid : Int}
  {server : Server}

theorem inv_start : Inv start := by
  constructor <;> simp [start, ProxyServer.new, Serves, OrderedMap.empty, OrderedMap.find]

theorem Inv.move (h : Inv state) {main : Main}
    (hidle : ∀ appName pid, ¬Underway appName pid state.server.main)
    (hvacant : ∀ appName, (∃ info, main = .fork appName info) ∨
      (∃ info ret, main = .insert appName info ret) ∨ (∃ pid, main = .kill appName pid) →
        state.server.mpApp.find appName = none)
    (hforked : ∀ appName ret, ¬((∃ info, main = .insert appName info ret) ∨ main = .setPid appName ret))
    (hread : ∀ appName pid, main = .deleteErase appName pid →
      ∀ app, state.server.mpApp.find appName = some app → app.pid = pid) :
    Inv ⟨{ state.server with main := main }, state.struck⟩ where
  known := fun appName pid hserves =>
    .inl ((h.known appName pid hserves).resolve_right (hidle appName pid))
  vacant := hvacant
  sole := fun appName ret hmain => absurd hmain (hforked appName ret)
  read := hread
  reaped := h.reaped
  struck := h.struck

theorem Inv.fork (h : Inv state) {info : Section} {ret : Int} (hhandler : state.server.handler = none)
    (hmain : state.server.main = .fork appName info) (hfree : state.server.children.find ret = none) :
    Inv ⟨{ state.server with
      children := state.server.children.assign ret ⟨appName, true⟩
      main := .insert appName info ret }, state.struck⟩ := by
  have hvacant := h.vacant appName (.inl ⟨info, hmain⟩)
  have hold : ∀ name pid, pid ≠ ret →
      Serves ⟨{ state.server with
        children := state.server.children.assign ret ⟨appName, true⟩
        main := .insert appName info ret }, state.struck⟩ name pid → Entered state.server name pid := by
    rintro name pid hne ⟨hchild, hspared⟩
    have hserves : Serves state name pid := ⟨(OrderedMap.find_assign_ne hne).symm.trans hchild, hspared⟩
    refine (h.known name pid hserves).resolve_right ?_
    rw [hmain]
    nofun
  refine ⟨?_, ?_, ?_, nofun, ?_, ?_⟩
  · intro name pid hserves
    by_cases heq : pid = ret
    · subst heq
      have hself := OrderedMap.find_assign_self.symm.trans hserves.1
      cases hself
      exact .inr (.insert info)
    · exact .inl (hold name pid heq hserves)
  · rintro name (⟨info', hnext⟩ | ⟨info', ret', hnext⟩ | ⟨pid, hnext⟩) <;> cases hnext
    exact hvacant
  · rintro name ret' (⟨info', hnext⟩ | hnext) pid hserves <;> cases hnext
    by_contra hne
    obtain ⟨found, hfound⟩ := hold appName pid hne hserves
    rw [hvacant] at hfound
    contradiction
  · intro pid hreaped
    rw [show state.server.handler = _ from hreaped] at hhandler
    contradiction
  · intro pid hpid
    have hne : pid ≠ ret := by
      rintro rfl
      have hchild := h.struck pid hpid
      rw [hfree] at hchild
      contradiction
    simpa [hne] using h.struck pid hpid

theorem Inv.insert (h : Inv state) {info : Section} {ret junk : Int}
    (hmain : state.server.main = .insert appName info ret) :
    Inv ⟨{ state.server with
      mpApp := state.server.mpApp.assign appName ⟨junk, info⟩
      main := .setPid appName ret }, state.struck⟩ := by
  have hsole := h.sole appName ret (.inl ⟨info, hmain⟩)
  refine ⟨?_, ?_, ?_, nofun, h.reaped, h.struck⟩
  · intro name pid hserves
    by_cases heq : name = appName
    · subst heq
      rw [hsole pid hserves]
      exact .inr .setPid
    · rcases h.known name pid hserves with ⟨found, hfound⟩ | hunderway
      · exact .inl ⟨found, by simpa [heq] using hfound⟩
      · rw [hmain] at hunderway
        cases hunderway
        contradiction
  · rintro name (⟨info', hnext⟩ | ⟨info', ret', hnext⟩ | ⟨pid, hnext⟩) <;> contradiction
  · rintro name ret' (⟨info', hnext⟩ | hnext) pid hserves <;> cases hnext
    exact hsole pid hserves

theorem Inv.setPid (h : Inv state) {info : Section} {ret : Int}
    (hmain : state.server.main = .setPid appName ret) :
    Inv ⟨{ state.server with
      mpApp := state.server.mpApp.assign appName ⟨ret, info⟩
      main := .done eOk }, state.struck⟩ := by
  refine ⟨?_, ?_, ?_, nofun, h.reaped, h.struck⟩
  · intro name pid hserves
    left
    by_cases heq : name = appName
    · subst heq
      rw [h.sole name ret (.inr hmain) pid hserves]
      exact ⟨info, OrderedMap.find_assign_self⟩
    · rcases h.known name pid hserves with ⟨found, hfound⟩ | hunderway
      · exact ⟨found, by simpa [heq] using hfound⟩
      · rw [hmain] at hunderway
        cases hunderway
        contradiction
  · rintro name (⟨info', hnext⟩ | ⟨info', ret', hnext⟩ | ⟨pid, hnext⟩) <;> contradiction
  · rintro name ret' (⟨info', hnext⟩ | hnext) <;> contradiction

theorem Inv.erase (h : Inv state) {dying : Int} (hmain : state.server.main = .deleteErase appName dying) :
    Inv ⟨{ state.server with
      mpApp := state.server.mpApp.erase appName
      main := .kill appName dying }, state.struck⟩ := by
  refine ⟨?_, ?_, ?_, nofun, h.reaped, h.struck⟩
  · intro name pid hserves
    have hentered : Entered state.server name pid := by
      refine (h.known name pid hserves).resolve_right ?_
      rw [hmain]
      nofun
    obtain ⟨info, hfind⟩ := hentered
    by_cases heq : name = appName
    · subst heq
      rw [← h.read name dying hmain _ hfind]
      exact .inr .kill
    · exact .inl ⟨info, by simpa [heq] using hfind⟩
  · rintro name (⟨info', hnext⟩ | ⟨info', ret', hnext⟩ | ⟨pid, hnext⟩) <;> cases hnext
    simp
  · rintro name ret' (⟨info', hnext⟩ | hnext) <;> contradiction

theorem Inv.kill (h : Inv state) {dying : Int} (hmain : state.server.main = .kill appName dying)
    (kills : List Kill) :
    Inv ⟨{ state.server with kills := kills, main := .done eOk },
      if (state.server.children.find dying).isSome then dying :: state.struck else state.struck⟩ := by
  refine ⟨?_, ?_, ?_, nofun, h.reaped, ?_⟩
  · rintro name pid ⟨hchild, hspared⟩
    dsimp only at hchild hspared
    have hserves : Serves state name pid := by
      refine ⟨hchild, fun hstruck => hspared ?_⟩
      split
      · exact List.mem_cons_of_mem _ hstruck
      · exact hstruck
    refine .inl ((h.known name pid hserves).resolve_right ?_)
    rw [hmain]
    rintro ⟨⟩
    simp [hchild] at hspared
  · rintro name (⟨info', hnext⟩ | ⟨info', ret', hnext⟩ | ⟨pid, hnext⟩) <;> contradiction
  · rintro name ret' (⟨info', hnext⟩ | hnext) <;> contradiction
  · intro pid hpid
    dsimp only at hpid ⊢
    split at hpid
    · rename_i hthere
      rcases List.mem_cons.mp hpid with rfl | hpid
      · exact hthere
      · exact h.struck pid hpid
    · exact h.struck pid hpid

theorem Inv.stepMain (h : Inv state) (hhandler : state.server.handler = none)
    (hstep : ProxyServer.stepMain state.server world = some server) :
    Inv ⟨server, strike state.server state.struck (.main world)⟩ := by
  unfold ProxyServer.stepMain at hstep
  split at hstep
  · contradiction
  · -- registerCount
    rename_i name info hmain
    simp only [strike, hmain]
    split at hstep <;> cases hstep
    · exact h.move (by rw [hmain]; rintro _ _ ⟨⟩) (by simp) (by simp) (by simp)
    · rename_i hfind
      refine h.move (by rw [hmain]; rintro _ _ ⟨⟩) ?_ (by simp) (by simp)
      rintro other (⟨info', hnext⟩ | ⟨info', ret, hnext⟩ | ⟨pid, hnext⟩) <;> cases hnext
      exact hfind
  · -- fork
    rename_i name info hmain
    simp only [strike, hmain]
    split at hstep
    · cases hstep
      exact h.move (by rw [hmain]; rintro _ _ ⟨⟩) (by simp) (by simp) (by simp)
    split at hstep
    · rename_i hfork
      cases hstep
      exact h.fork hhandler hmain hfork.2
    · contradiction
  · -- insert
    rename_i name info ret hmain
    cases hstep
    simp only [strike, hmain]
    exact h.insert hmain
  · -- setPid
    rename_i name ret hmain
    cases hstep
    simp only [strike, hmain]
    exact h.setPid hmain
  · -- deleteCount
    rename_i name hmain
    simp only [strike, hmain]
    split at hstep <;> cases hstep
    · exact h.move (by rw [hmain]; rintro _ _ ⟨⟩) (by simp) (by simp) (by simp)
    · exact h.move (by rw [hmain]; rintro _ _ ⟨⟩) (by simp) (by simp) (by simp)
  · -- deleteFind
    rename_i name hmain
    obtain ⟨app, -, rfl⟩ := Option.map_eq_some_iff.mp hstep
    simp only [strike, hmain]
    exact h.move (by rw [hmain]; rintro _ _ ⟨⟩) (by simp) (by simp) (by simp)
  · -- deleteRead
    rename_i name hmain
    obtain ⟨app, hfind, rfl⟩ := Option.map_eq_some_iff.mp hstep
    simp only [strike, hmain]
    refine h.move (by rw [hmain]; rintro _ _ ⟨⟩) (by simp) (by simp) ?_
    intro other pid hnext found hfound
    cases hnext
    rw [Option.some.inj (hfound.symm.trans hfind)]
  · -- deleteErase
    rename_i name pid hmain
    obtain ⟨app, -, rfl⟩ := Option.map_eq_some_iff.mp hstep
    simp only [strike, hmain]
    exact h.erase hmain
  · -- kill
    rename_i name pid hmain
    cases hstep
    simp only [strike, hmain]
    exact h.kill hmain _
  · -- the reply
    rename_i ret hmain
    cases hstep
    simp only [strike, hmain]
    exact h.move (by rw [hmain]; rintro _ _ ⟨⟩) (by simp) (by simp) (by simp)

theorem Inv.fewer (h : Inv state) {next : State} (hmain : next.server.main = state.server.main)
    (hentries : next.server.mpApp = state.server.mpApp)
    (hserves : ∀ appName pid, Serves next appName pid → Serves state appName pid)
    (hreaped : ∀ pid, next.server.handler = some (.delApp pid) → next.server.children.find pid = none)
    (hstruck : ∀ pid ∈ next.struck, (next.server.children.find pid).isSome) : Inv next where
  known := fun appName pid hchild => by
    unfold Entered
    rw [hmain, hentries]
    exact h.known appName pid (hserves appName pid hchild)
  vacant := by
    rw [hmain, hentries]
    exact h.vacant
  sole := fun appName ret hforked pid hchild =>
    h.sole appName ret (by rwa [hmain] at hforked) pid (hserves appName pid hchild)
  read := by
    rw [hmain, hentries]
    exact h.read
  reaped := hreaped
  struck := hstruck

theorem Inv.exit (h : Inv state) {app : Bytes} (pending : Bool)
    (hchild : state.server.children.find pid = some ⟨app, true⟩) :
    Inv ⟨{ state.server with
      children := state.server.children.assign pid ⟨app, false⟩
      pending := pending }, state.struck⟩ := by
  refine h.fewer rfl rfl ?_ ?_ ?_
  · rintro name other ⟨hother, hspared⟩
    by_cases heq : other = pid
    · subst heq
      have hself := OrderedMap.find_assign_self.symm.trans hother
      cases hself
    · exact ⟨by simpa [heq] using hother, hspared⟩
  · intro other hreaped
    have hnone := h.reaped other hreaped
    have hne : other ≠ pid := by
      rintro rfl
      rw [hnone] at hchild
      contradiction
    simpa [hne] using hnone
  · intro other hother
    by_cases heq : other = pid
    · simp [heq]
    · simpa [heq] using h.struck other hother

theorem Inv.wait (h : Inv state) (pid : Int) :
    Inv ⟨{ state.server with
      children := state.server.children.erase pid
      handler := some (.delApp pid) }, state.struck.filter (· ≠ pid)⟩ := by
  refine h.fewer rfl rfl ?_ ?_ ?_
  · rintro name other ⟨hother, hspared⟩
    have hne : other ≠ pid := by
      rintro rfl
      have hnone := OrderedMap.find_erase_self.symm.trans hother
      contradiction
    exact ⟨by simpa [hne] using hother,
      fun hstruck => hspared (List.mem_filter.mpr ⟨hstruck, by simpa using hne⟩)⟩
  · intro other hreaped
    cases hreaped
    simp
  · intro other hother
    obtain ⟨hother, hne⟩ := List.mem_filter.mp hother
    have hne : other ≠ pid := by simpa using hne
    simpa [hne] using h.struck other hother

theorem find_delApp {app : AppServer} : (delApp server pid).mpApp.find appName = some app →
    server.mpApp.find appName = some app := by
  rw [OrderedMap.find_eq_some, OrderedMap.find_eq_some]
  rcases OrderedMap.eraseFirst_cases server.mpApp fun entry => entry.2.pid = pid with
    ⟨hsame, -⟩ | ⟨first, -, -, hrest⟩
  · intro hmem
    rwa [ProxyServer.delApp, hsame] at hmem
  · intro hmem
    exact ((hrest _).mp hmem).1

theorem find_delApp_of_ne {app : AppServer} (hfind : server.mpApp.find appName = some app)
    (hne : app.pid ≠ pid) : (delApp server pid).mpApp.find appName = some app := by
  rw [OrderedMap.find_eq_some] at hfind ⊢
  rcases OrderedMap.eraseFirst_cases server.mpApp fun entry => entry.2.pid = pid with
    ⟨hsame, -⟩ | ⟨first, -, hpid, hrest⟩
  · rwa [ProxyServer.delApp, hsame]
  · refine (hrest _).mpr ⟨hfind, ?_⟩
    rintro rfl
    exact hne (by simpa using hpid)

/-- The entry that the handler drops is not that of a child. -/
theorem Inv.delApp (h : Inv state) (hhandler : state.server.handler = some (.delApp pid)) :
    Inv ⟨{ delApp state.server pid with handler := none }, state.struck⟩ where
  known := by
    intro name other hserves
    have hne : other ≠ pid := by
      rintro rfl
      have hnone := (h.reaped other hhandler).symm.trans hserves.1
      contradiction
    exact (h.known name other hserves).imp_left fun ⟨info, hfind⟩ =>
      ⟨info, find_delApp_of_ne hfind hne⟩
  vacant := by
    intro name hmain
    have hnone := h.vacant name hmain
    by_contra hsome
    obtain ⟨app, happ⟩ := Option.ne_none_iff_exists'.mp hsome
    rw [find_delApp happ] at hnone
    contradiction
  sole := h.sole
  read := fun name other hmain app happ => h.read name other hmain app (find_delApp happ)
  reaped := nofun
  struck := h.struck

theorem Inv.step (h : Inv state) (hstep : Orphans.step state action = some next) : Inv next := by
  obtain ⟨server, hserver, rfl⟩ := Option.map_eq_some_iff.mp hstep
  cases step_cases hserver with
  | request main hhandler hidle hmain =>
    have hcases : (∃ name info, main = .registerCount name info) ∨ (∃ name, main = .deleteCount name) ∨
        ∃ ret, main = .done ret := by
      rcases hmain with hdecode | rfl
      · exact decode_cases hdecode
      · exact .inr (.inr ⟨_, rfl⟩)
    refine h.move (by rw [hidle]; rintro _ _ ⟨⟩) ?_ ?_ ?_
    all_goals rcases hcases with ⟨name, info, rfl⟩ | ⟨name, rfl⟩ | ⟨ret, rfl⟩ <;> simp
  | main hhandler hnext => exact h.stepMain hhandler hnext
  | exit hchild => exact h.exit true hchild
  | deliver hhandler hpending => exact h.fewer rfl rfl (fun _ _ hserves => hserves) (by simp) h.struck
  | wait hhandler hchild => exact h.wait _
  | waitFails hhandler hnone =>
    refine h.fewer rfl rfl (fun _ _ hserves => hserves) ?_ h.struck
    intro pid _
    rw [OrderedMap.find_eq_none]
    dsimp only
    simp [hnone]
  | delApp hhandler => exact h.delApp hhandler

/-- In every run, until a request crashes the server, each running child that `kill` was not
called on has its entry, but for the one that the request in progress is about; and no app has
two of them. -/
theorem no_orphan {final : State} {actions : List Action}
    (run : exec Orphans.step start actions = some final) :
    (∀ appName pid, Serves final appName pid →
      Entered final.server appName pid ∨ Underway appName pid final.server.main) ∧
      ∀ appName pid pid', Serves final appName pid → Serves final appName pid' → pid = pid' := by
  have h : Inv final := exec_invariant' (fun _ _ _ h hstep => h.step hstep) inv_start run
  refine ⟨h.known, ?_⟩
  have hentered : ∀ appName pid pid', Entered final.server appName pid →
      Underway appName pid' final.server.main → Serves final appName pid → pid = pid' := by
    rintro appName pid pid' ⟨info, hfind⟩ hunderway hserves
    cases hmain : final.server.main with
    | insert name info' ret =>
      rw [hmain] at hunderway
      cases hunderway
      exact h.sole appName _ (.inl ⟨_, hmain⟩) pid hserves
    | setPid name ret =>
      rw [hmain] at hunderway
      cases hunderway
      exact h.sole appName _ (.inr hmain) pid hserves
    | kill name ret =>
      rw [hmain] at hunderway
      cases hunderway
      rw [h.vacant appName (.inr (.inr ⟨_, hmain⟩))] at hfind
      contradiction
    | _ =>
      rw [hmain] at hunderway
      contradiction
  intro appName pid pid' hserves hserves'
  rcases h.known appName pid hserves with hleft | hleft
  · rcases h.known appName pid' hserves' with hright | hright
    · obtain ⟨info, hfind⟩ := hleft
      obtain ⟨info', hfind'⟩ := hright
      exact congrArg AppServer.pid (Option.some.inj (hfind.symm.trans hfind'))
    · exact hentered appName pid pid' hleft hright hserves
  · rcases h.known appName pid' hserves' with hright | hright
    · exact (hentered appName pid' pid hright hleft hserves').symm
    · generalize final.server.main = main at hleft hright
      cases hleft <;> cases hright <;> rfl

end

/-- The app is registered and deleted, up to the call of `kill`. -/
def deletes : List Action :=
  [register "a", .main ⟨0, 0⟩, .main ⟨100, 0⟩, .main ⟨0, 7⟩, .main ⟨0, 0⟩, .main ⟨0, 0⟩, delect "a",
    .main ⟨0, 0⟩, .main ⟨0, 0⟩, .main ⟨0, 0⟩, .main ⟨0, 0⟩]

theorem no_orphan_deletes : ∃ final, exec step start deletes = some final ∧
    Serves final (ascii "a") 100 ∧ ¬Entered final.server (ascii "a") 100 ∧
    (∀ appName pid, Serves final appName pid →
      Entered final.server appName pid ∨ Underway appName pid final.server.main) ∧
    ∀ appName pid pid', Serves final appName pid → Serves final appName pid' → pid = pid' := by
  have hreached : (exec step start deletes).any (fun final =>
      final.server.children.find 100 = some ⟨ascii "a", true⟩ ∧ 100 ∉ final.struck ∧
        final.server.mpApp.find (ascii "a") = none) = true := by decide +kernel
  obtain ⟨final, run, htest⟩ := (Option.any_eq_true _ _).mp hreached
  obtain ⟨hchild, hspared, hnone⟩ := of_decide_eq_true htest
  refine ⟨final, run, ⟨hchild, hspared⟩, ?_, no_orphan run⟩
  rintro ⟨info, hfind⟩
  rw [hnone] at hfind
  contradiction

end UdpFileProxy.Orphans
