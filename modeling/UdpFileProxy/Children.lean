import UdpFileProxy.ProxyServer

/-! The entries of `mp_app` against the children that have not been reaped. An
entry and its child are made in two steps, and dropped in two steps by the
handler; in between the entry has no child of its own. -/
namespace UdpFileProxy.Children
open Lib Lib.Memory Lib.Run Protocol Config ProxyServer

/-- An unreaped child with this pid was forked for the app. -/
def Own (server : Server) (appName : Bytes) (pid : Int) : Prop :=
  ∃ child, server.children.find pid = some child ∧ child.app = appName

/-- The pids that a registration in progress will write over or has in its entry
without having written them. -/
def fresh (server : Server) : List Int :=
  match server.main with
  | .insert _ _ ret => [ret]
  | .setPid appName ret => ret :: ((server.mpApp.find appName).map AppServer.pid).toList
  | _ => []

/-- The pid that a deletion in progress is going to kill. -/
def doomed (server : Server) : List Int :=
  match server.main with
  | .deleteFind appName | .deleteRead appName =>
      ((server.mpApp.find appName).map AppServer.pid).toList
  | .deleteErase _ pid | .kill _ pid => [pid]
  | _ => []

/-- `sig_chld` does not reap the child of a registration in progress. -/
def Registered (server : Server) : Action → Prop
  | .wait pid => pid ∉ fresh server
  | _ => True

/-- The entry of this app has got its pid. -/
def Settled (server : Server) (appName : Bytes) : Prop :=
  ∀ ret, server.main ≠ .setPid appName ret

structure Tracked (server : Server) : Prop where
  own : ∀ appName app, (appName, app) ∈ server.mpApp.entries → Settled server appName →
    server.handler ≠ some (.delApp app.pid) → Own server appName app.pid
  forked : ∀ appName info ret,
    server.main = .insert appName info ret ∨ server.main = .setPid appName ret →
      Own server appName ret
  alone : ∀ pid, server.handler = some (.delApp pid) → ∀ left ∈ server.mpApp.entries,
    ∀ right ∈ server.mpApp.entries, left.2.pid = pid → right.2.pid = pid → left = right

section
variable {server next : Server} {action : Action} {world : World} {appName : Bytes} {pid : Int}

theorem tracked_new : Tracked new :=
  ⟨by simp [new, OrderedMap.empty], by simp [new], by simp [new]⟩

theorem Tracked.move (h : Tracked server) (hchildren : next.children = server.children)
    (hentries : next.mpApp = server.mpApp) (hmain : ∀ appName ret, server.main ≠ .setPid appName ret)
    (hforked : ∀ appName info ret, next.main ≠ .insert appName info ret ∧
      next.main ≠ .setPid appName ret)
    (hhandler : server.handler = none ∧ next.handler = none) : Tracked next := by
  refine ⟨?_, ?_, ?_⟩
  · intro name app hmem _ _
    rw [hentries] at hmem
    unfold Own
    rw [hchildren]
    exact h.own name app hmem (hmain name) (by simp [hhandler.1])
  · rintro name info ret (hinsert | hset)
    · exact absurd hinsert (hforked name info ret).1
    · exact absurd hset (hforked name info ret).2
  · intro pid hreaped
    rw [hhandler.2] at hreaped
    contradiction

theorem Tracked.stepMain (h : Tracked server) (hhandler : server.handler = none)
    (hstep : ProxyServer.stepMain server world = some next) : Tracked next := by
  unfold ProxyServer.stepMain at hstep
  split at hstep
  · contradiction
  · -- registerCount
    rename_i hmain
    split at hstep
    · cases hstep
      exact h.move rfl rfl (by simp [hmain]) (by simp) ⟨hhandler, hhandler⟩
    · cases hstep
      exact h.move rfl rfl (by simp [hmain]) (by simp) ⟨hhandler, hhandler⟩
  · -- fork
    rename_i name info hmain
    split at hstep
    · cases hstep
      exact h.move rfl rfl (by simp [hmain]) (by simp) ⟨hhandler, hhandler⟩
    split at hstep
    · rename_i hfork
      cases hstep
      refine ⟨?_, ?_, ?_⟩
      · intro other app hmem _ _
        obtain ⟨child, hchild, happ⟩ := h.own other app hmem (by simp [Settled, hmain]) (by simp [hhandler])
        have hne : app.pid ≠ world.fork := by
          intro heq
          rw [heq, hfork.2] at hchild
          contradiction
        exact ⟨child, by simpa [hne] using hchild, happ⟩
      · intro other info' ret hnext
        simp only [Main.insert.injEq, reduceCtorEq, or_false] at hnext
        obtain ⟨rfl, -, rfl⟩ := hnext
        exact ⟨_, OrderedMap.find_assign_self, rfl⟩
      · intro pid hreaped
        rw [hhandler] at hreaped
        contradiction
    · contradiction
  · -- insert
    rename_i name info ret hmain
    cases hstep
    refine ⟨?_, ?_, ?_⟩
    · intro other app hmem hsettled _
      rcases OrderedMap.mem_assign.mp hmem with hnew | ⟨hold, hne⟩
      · cases hnew
        exact absurd rfl (hsettled ret)
      · exact h.own other app hold (by simp [Settled, hmain]) (by simp [hhandler])
    · intro other info' ret' hnext
      simp only [reduceCtorEq, Main.setPid.injEq, false_or] at hnext
      obtain ⟨rfl, rfl⟩ := hnext
      exact h.forked _ info _ (.inl hmain)
    · intro pid hreaped
      rw [hhandler] at hreaped
      contradiction
  · -- setPid
    rename_i name ret hmain
    cases hstep
    refine ⟨?_, by simp, ?_⟩
    · intro other app hmem _ _
      rcases OrderedMap.mem_assign.mp hmem with hnew | ⟨hold, hne⟩
      · cases hnew
        exact h.forked _ [] _ (.inr hmain)
      · refine h.own other app hold ?_ (by simp [hhandler])
        intro ret' hset
        rw [hmain, Main.setPid.injEq] at hset
        exact hne hset.1.symm
    · intro pid hreaped
      rw [hhandler] at hreaped
      contradiction
  · -- deleteCount
    rename_i hmain
    split at hstep
    · cases hstep
      exact h.move rfl rfl (by simp [hmain]) (by simp) ⟨hhandler, hhandler⟩
    · cases hstep
      exact h.move rfl rfl (by simp [hmain]) (by simp) ⟨hhandler, hhandler⟩
  · -- deleteFind
    rename_i hmain
    obtain ⟨app, -, rfl⟩ := Option.map_eq_some_iff.mp hstep
    exact h.move rfl rfl (by simp [hmain]) (by simp) ⟨hhandler, hhandler⟩
  · -- deleteRead
    rename_i hmain
    obtain ⟨app, -, rfl⟩ := Option.map_eq_some_iff.mp hstep
    exact h.move rfl rfl (by simp [hmain]) (by simp) ⟨hhandler, hhandler⟩
  · -- deleteErase
    rename_i hmain
    obtain ⟨app, -, rfl⟩ := Option.map_eq_some_iff.mp hstep
    refine ⟨?_, by simp, ?_⟩
    · intro other app hmem _ _
      exact h.own other app (OrderedMap.mem_erase.mp hmem).1 (by simp [Settled, hmain]) (by simp [hhandler])
    · intro pid hreaped
      rw [hhandler] at hreaped
      contradiction
  · -- kill
    rename_i hmain
    cases hstep
    exact h.move rfl rfl (by simp [hmain]) (by simp) ⟨hhandler, hhandler⟩
  · -- the reply
    rename_i hmain
    cases hstep
    exact h.move rfl rfl (by simp [hmain]) (by simp) ⟨hhandler, hhandler⟩

theorem decode_main {errno : Errno} {msgEx : Bytes} {main : Main}
    (h : decode errno msgEx = some main) (info : Section) (ret : Int) :
    main ≠ .insert appName info ret ∧ main ≠ .setPid appName ret := by
  rcases decode_cases h with ⟨name, parsed, rfl⟩ | ⟨name, rfl⟩ | ⟨reply, rfl⟩
  all_goals simp

theorem own_exit {app : Bytes} (hchild : server.children.find pid = some ⟨app, true⟩)
    {other : Int} (h : Own server appName other) :
    Own { server with children := server.children.assign pid ⟨app, false⟩, pending := true }
      appName other := by
  obtain ⟨child, hother, happ⟩ := h
  by_cases hsame : other = pid
  · subst hsame
    rw [hchild, Option.some.injEq] at hother
    subst hother
    exact ⟨_, OrderedMap.find_assign_self, happ⟩
  · exact ⟨child, by simpa [hsame] using hother, happ⟩

theorem own_wait {handler : Option Handler} {other : Int} (h : Own server appName other)
    (hne : other ≠ pid) :
    Own { server with children := server.children.erase pid, handler := handler } appName other := by
  obtain ⟨child, hother, happ⟩ := h
  exact ⟨child, by simpa [hne] using hother, happ⟩

theorem Tracked.pid_inj (h : Tracked server) (hhandler : server.handler = some .wait)
    {left right : Bytes × AppServer} (hleft : left ∈ server.mpApp.entries)
    (hright : right ∈ server.mpApp.entries) (hsettled : Settled server left.1)
    (hsettled' : Settled server right.1) (hpid : left.2.pid = right.2.pid) : left = right := by
  obtain ⟨child, hchild, happ⟩ := h.own left.1 left.2 hleft hsettled (by simp [hhandler])
  obtain ⟨child', hchild', happ'⟩ := h.own right.1 right.2 hright hsettled' (by simp [hhandler])
  rw [hpid, hchild', Option.some.injEq] at hchild
  have hname : left.1 = right.1 := by
    rw [← happ, ← happ', hchild]
  have hfind := OrderedMap.find_eq_some.mpr hleft
  rw [hname, OrderedMap.find_eq_some.mpr hright, Option.some.injEq] at hfind
  exact Prod.ext hname hfind.symm

theorem settled_of_pid (hkeeps : pid ∉ fresh server) {entry : Bytes × AppServer}
    (hentry : entry ∈ server.mpApp.entries) (hpid : entry.2.pid = pid) :
    Settled server entry.1 := by
  intro ret hmain
  apply hkeeps
  have hfind := OrderedMap.find_eq_some.mpr hentry
  simp [fresh, hmain, hfind, hpid]

theorem Tracked.wait (h : Tracked server) (hhandler : server.handler = some .wait)
    (hkeeps : pid ∉ fresh server) :
    Tracked { server with
      children := server.children.erase pid, handler := some (.delApp pid) } := by
  refine ⟨?_, ?_, ?_⟩
  · intro name app hmem hsettled hother
    have hne : app.pid ≠ pid := by
      rintro rfl
      exact hother rfl
    exact own_wait (h.own name app hmem hsettled (by simp [hhandler])) hne
  · intro name info ret hmain
    refine own_wait (h.forked name info ret hmain) ?_
    rintro rfl
    rcases hmain with hmain | hmain
    · exact hkeeps (by simp [fresh, show server.main = _ from hmain])
    · exact hkeeps (by simp [fresh, show server.main = _ from hmain])
  · intro reaped hreaped left hleft right hright hpid hpid'
    obtain rfl : pid = reaped := by simpa using hreaped
    exact h.pid_inj hhandler hleft hright (settled_of_pid hkeeps hleft hpid)
      (settled_of_pid hkeeps hright hpid') (hpid.trans hpid'.symm)

theorem not_own (hnone : server.children.entries = []) (name : Bytes) (pid : Int) :
    ¬Own server name pid := by
  rintro ⟨child, hchild, -⟩
  have hmem := OrderedMap.find_eq_some.mp hchild
  rw [hnone] at hmem
  contradiction

theorem Tracked.empty (h : Tracked server) (hhandler : server.handler = some .wait)
    (hnone : server.children.entries = []) : ∀ entry, entry ∉ server.mpApp.entries := by
  intro entry hentry
  refine not_own hnone _ _ (h.own entry.1 entry.2 hentry ?_ (by simp [hhandler]))
  intro ret hmain
  exact not_own hnone _ _ (h.forked _ [] ret (.inr hmain))

theorem Tracked.waitFails (h : Tracked server) (hhandler : server.handler = some .wait)
    (hnone : server.children.entries = []) :
    Tracked { server with handler := some (.delApp (-1)) } := by
  have hempty := h.empty hhandler hnone
  refine ⟨?_, ?_, ?_⟩
  · intro name app hmem _ _
    exact absurd hmem (hempty _)
  · intro name info ret hmain
    exact absurd (h.forked name info ret hmain) (not_own hnone name ret)
  · intro pid _ left hleft
    exact absurd hleft (hempty _)

theorem Tracked.delApp (h : Tracked server) (hhandler : server.handler = some (.delApp pid)) :
    Tracked { ProxyServer.delApp server pid with handler := none } := by
  have hgone : ∀ entry ∈ (ProxyServer.delApp server pid).mpApp.entries,
      entry ∈ server.mpApp.entries ∧ entry.2.pid ≠ pid := by
    intro entry hentry
    rcases OrderedMap.eraseFirst_cases server.mpApp fun entry => entry.2.pid = pid with
      ⟨hsame, hother⟩ | ⟨first, hfirst, hpid, hrest⟩
    · simp only [ProxyServer.delApp, hsame] at hentry
      exact ⟨hentry, by simpa using hother entry hentry⟩
    · obtain ⟨hmem, hne⟩ := (hrest entry).mp hentry
      refine ⟨hmem, ?_⟩
      intro heq
      exact hne (h.alone pid hhandler entry hmem first hfirst heq (by simpa using hpid))
  refine ⟨?_, h.forked, by simp⟩
  intro name app hmem hsettled _
  obtain ⟨hold, hne⟩ := hgone _ hmem
  refine h.own name app hold hsettled ?_
  rw [hhandler]
  simpa using hne.symm

theorem Tracked.step (h : Tracked server) (registered : Registered server action)
    (hstep : ProxyServer.step server action = some next) : Tracked next := by
  cases step_cases hstep with
  | request main hhandler hidle hmain =>
    refine h.move rfl rfl (by simp [hidle]) ?_ ⟨hhandler, hhandler⟩
    intro name info ret
    rcases hmain with hdecode | rfl
    · exact decode_main hdecode info ret
    · simp
  | main hhandler hnext => exact h.stepMain hhandler hnext
  | exit hchild =>
    refine ⟨?_, ?_, h.alone⟩
    · intro name app hmem hsettled hother
      exact own_exit hchild (h.own name app hmem hsettled hother)
    · intro name info ret hmain
      exact own_exit hchild (h.forked name info ret hmain)
  | deliver hhandler hpending =>
    refine ⟨?_, h.forked, by simp⟩
    intro name app hmem hsettled _
    exact h.own name app hmem hsettled (by simp [hhandler])
  | wait hhandler hchild => exact h.wait hhandler registered
  | waitFails hhandler hnone => exact h.waitFails hhandler hnone
  | delApp hhandler => exact h.delApp hhandler

end

end UdpFileProxy.Children
