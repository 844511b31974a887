import UdpFileProxy.Children

/-! No entry of `mp_app` outlives its child for long, when the children do not
terminate faster than `SIGCHLD` is delivered. -/
namespace UdpFileProxy.Survivors
open Lib Lib.Memory Lib.Run Protocol Config ProxyServer Children

/-- No child terminates while a `SIGCHLD` is pending, and `sig_chld` does not reap
the child of a registration in progress. -/
def Paced (server : Server) : Action → Prop
  | .exit _ => server.pending = false
  | action => Registered server action

instance decidablePaced (server : Server) : ∀ action, Decidable (Paced server action)
  | .exit _ => inferInstanceAs (Decidable (server.pending = false))
  | .wait pid => inferInstanceAs (Decidable (pid ∉ fresh server))
  | .request _ _ | .main _ | .deliver | .waitFails | .delApp => inferInstanceAs (Decidable True)

/-- No signal is pending or handled, and no request is in progress. -/
def Quiescent (server : Server) : Prop :=
  server.pending = false ∧ server.handler = none ∧ server.main = .idle

/-- The entry refers to a child of this app that has not terminated. -/
def Alive (server : Server) (appName : Bytes) (pid : Int) : Prop :=
  ∃ child, server.children.find pid = some child ∧ child.app = appName ∧ child.running = true

def isZombie (entry : Int × Child) : Bool := !entry.2.running

/-- The children that have terminated. -/
def zombies (server : Server) : Nat := server.children.entries.countP isZombie

/-- The times that `sig_chld` is going to call `wait`. -/
def waits (server : Server) : Nat :=
  (if server.pending then 1 else 0) + if server.handler = some .wait then 1 else 0

structure Counted (server : Server) : Prop where
  tracked : Tracked server
  zombies : zombies server ≤ waits server

section
variable {server next : Server} {action : Action} {world : World} {appName : Bytes} {pid : Int}

theorem zombies_fork {app : Bytes} (hfree : server.children.find pid = none) :
    (server.children.assign pid ⟨app, true⟩).entries.countP isZombie = zombies server := by
  rw [(OrderedMap.assign_perm _ _ _).countP_eq, OrderedMap.erase_of_find_none hfree]
  rfl

theorem zombies_exit {app : Bytes} (hchild : server.children.find pid = some ⟨app, true⟩) :
    (server.children.assign pid ⟨app, false⟩).entries.countP isZombie = zombies server + 1 := by
  rw [(OrderedMap.assign_perm _ _ _).countP_eq, zombies, (OrderedMap.perm_of_find hchild).countP_eq]
  simp [isZombie]

theorem zombies_wait {app : Bytes} (hchild : server.children.find pid = some ⟨app, false⟩) :
    (server.children.erase pid).entries.countP isZombie + 1 = zombies server := by
  rw [zombies, (OrderedMap.perm_of_find hchild).countP_eq]
  simp [isZombie]

theorem stepMain_children (h : stepMain server world = some next) :
    next.pending = server.pending ∧ next.handler = server.handler ∧
      (next.children = server.children ∨ ∃ pid app, server.children.find pid = none ∧
        next.children = server.children.assign pid ⟨app, true⟩) := by
  unfold stepMain at h
  split at h
  · contradiction
  · split at h <;> cases h <;> exact ⟨rfl, rfl, .inl rfl⟩
  · split at h
    · cases h
      exact ⟨rfl, rfl, .inl rfl⟩
    split at h
    · rename_i hfork
      cases h
      exact ⟨rfl, rfl, .inr ⟨_, _, hfork.2, rfl⟩⟩
    · contradiction
  · cases h
    exact ⟨rfl, rfl, .inl rfl⟩
  · cases h
    exact ⟨rfl, rfl, .inl rfl⟩
  · split at h <;> cases h <;> exact ⟨rfl, rfl, .inl rfl⟩
  · obtain ⟨app, -, rfl⟩ := Option.map_eq_some_iff.mp h
    exact ⟨rfl, rfl, .inl rfl⟩
  · obtain ⟨app, -, rfl⟩ := Option.map_eq_some_iff.mp h
    exact ⟨rfl, rfl, .inl rfl⟩
  · obtain ⟨app, -, rfl⟩ := Option.map_eq_some_iff.mp h
    exact ⟨rfl, rfl, .inl rfl⟩
  · cases h
    exact ⟨rfl, rfl, .inl rfl⟩
  · cases h
    exact ⟨rfl, rfl, .inl rfl⟩

theorem counted_new : Counted new := ⟨tracked_new, le_refl 0⟩

/-- Each termination is owed one call of `wait`. -/
theorem Counted.step (h : Counted server) (paced : Paced server action)
    (hstep : ProxyServer.step server action = some next) : Counted next := by
  have registered : Registered server action := by
    cases action with
    | exit pid => trivial
    | _ => exact paced
  refine ⟨h.tracked.step registered hstep, ?_⟩
  have hzombies := h.zombies
  cases step_cases hstep with
  | request main hhandler hidle hmain => exact hzombies
  | main hhandler hnext =>
    obtain ⟨hpending, hsame, hchildren | ⟨pid, app, hfree, hchildren⟩⟩ := stepMain_children hnext
    · simp only [Survivors.zombies, waits, hpending, hsame, hchildren] at hzombies ⊢
      exact hzombies
    · simp only [Survivors.zombies, waits, hpending, hsame, hchildren] at hzombies ⊢
      rw [zombies_fork hfree]
      exact hzombies
  | exit hchild =>
    have hpending : server.pending = false := paced
    have hmore := zombies_exit hchild
    simp only [Survivors.zombies, waits, hpending] at hzombies hmore ⊢
    simp only [Bool.false_eq_true, if_false, if_true] at hzombies ⊢
    omega
  | deliver hhandler hpending =>
    simp only [Survivors.zombies, waits, hpending, hhandler] at hzombies ⊢
    simpa using hzombies
  | wait hhandler hchild =>
    have hless := zombies_wait hchild
    simp only [Survivors.zombies, waits, hhandler] at hzombies hless ⊢
    simp only [if_true, Option.some.injEq, reduceCtorEq, if_false] at hzombies ⊢
    omega
  | waitFails hhandler hnone =>
    simp [Survivors.zombies, hnone]
  | delApp hhandler =>
    simp only [Survivors.zombies, waits, ProxyServer.delApp, hhandler] at hzombies ⊢
    simpa using hzombies

theorem Counted.alive (h : Counted server) (hquiescent : Quiescent server) {app : AppServer}
    (hentry : (appName, app) ∈ server.mpApp.entries) : Alive server appName app.pid := by
  obtain ⟨hpending, hhandler, hmain⟩ := hquiescent
  obtain ⟨child, hchild, happ⟩ :=
    h.tracked.own appName app hentry (by simp [Settled, hmain]) (by simp [hhandler])
  have hnone : Survivors.zombies server = 0 := by
    have hzombies := h.zombies
    simpa [waits, hpending, hhandler] using hzombies
  refine ⟨child, hchild, happ, ?_⟩
  have hrunning := List.countP_eq_zero.mp hnone _ (OrderedMap.find_eq_some.mp hchild)
  simpa [isZombie] using hrunning

/-- In a quiescent state every entry is that of a running child, and a
registration that finds its app registered finds it running. -/
theorem no_dead_entry {final : Server} {actions : List Action}
    (meets : Meets step Paced new actions) (run : exec step new actions = some final)
    (hquiescent : Quiescent final) :
    (∀ appName app, (appName, app) ∈ final.mpApp.entries → Alive final appName app.pid) ∧
      ∀ appName info world next, stepMain { final with main := .registerCount appName info } world =
        some next → next.main = .done eExist → ∃ pid, Alive final appName pid := by
  have counted : Counted final := by
    refine exec_invariant ?_ counted_new meets run
    intro state action next counted paced hstep
    exact counted.step paced hstep
  refine ⟨fun appName app hentry => counted.alive hquiescent hentry, ?_⟩
  intro appName info world next hstep hexist
  simp only [stepMain] at hstep
  split at hstep
  · rename_i app hfind
    exact ⟨app.pid, counted.alive hquiescent (OrderedMap.find_eq_some.mp hfind)⟩
  · cases hstep
    contradiction

end

/-- The apps `a` and `b` are registered, with the children 100 and 101. -/
def twoApps : List Action :=
  [register "a", .main ⟨0, 0⟩, .main ⟨100, 0⟩, .main ⟨0, 0⟩, .main ⟨0, 0⟩, .main ⟨0, 0⟩,
    register "b", .main ⟨0, 0⟩, .main ⟨101, 0⟩, .main ⟨0, 0⟩, .main ⟨0, 0⟩, .main ⟨0, 0⟩]

/-- Both children terminate before the signal is delivered. -/
def bothTerminate : List Action := twoApps ++ [.exit 100, .exit 101, .deliver, .wait 100, .delApp]

/-- The entry of `b` stays, and `b` cannot be registered again. -/
theorem dead_entry_stays : ∃ final, exec step new bothTerminate = some final ∧ Quiescent final ∧
    (∃ appName app, (appName, app) ∈ final.mpApp.entries ∧ ¬Alive final appName app.pid) ∧
    (exec step final [register "b", .main ⟨0, 0⟩]).any (fun answered =>
      answered.main = .done eExist) = true := by
  have hdead : (exec step new bothTerminate).any (fun final =>
      decide (final.pending = false ∧ final.handler = none ∧ final.main = .idle ∧
        (ascii "b") ∈ final.mpApp.entries.map Prod.fst ∧
        final.mpApp.entries.map (fun entry => entry.2.pid) = [101] ∧
        final.children.find 101 = some ⟨ascii "b", false⟩) &&
      (exec step final [register "b", .main ⟨0, 0⟩]).any fun answered =>
        answered.main = .done eExist) = true := by decide +kernel
  obtain ⟨final, run, hany⟩ := (Option.any_eq_true _ _).mp hdead
  obtain ⟨hstate, hexist⟩ := Bool.and_eq_true_iff.mp hany
  obtain ⟨hpending, hhandler, hmain, hname, hpids, hchild⟩ := of_decide_eq_true hstate
  obtain ⟨⟨appName, app⟩, hentry, -⟩ := List.mem_map.mp hname
  have hpid : app.pid = 101 := by
    have hmem := List.mem_map_of_mem hentry (f := fun entry => entry.2.pid)
    rw [hpids] at hmem
    simpa using hmem
  refine ⟨final, run, ⟨hpending, hhandler, hmain⟩, ⟨appName, app, hentry, ?_⟩, hexist⟩
  rintro ⟨child, halive, -, hrunning⟩
  rw [hpid, hchild, Option.some.injEq] at halive
  rw [← halive] at hrunning
  contradiction

/-- The second child terminates while the handler is at the first. -/
def oneAfterTheOther : List Action :=
  twoApps ++ [.exit 100, .deliver, .exit 101, .wait 101, .delApp, .deliver, .wait 100, .delApp,
    register "b", .main ⟨0, 0⟩, .main ⟨101, 0⟩, .main ⟨0, 0⟩, .main ⟨0, 0⟩, .main ⟨0, 0⟩]

theorem no_dead_entry_after : ∃ final, exec step new oneAfterTheOther = some final ∧
    final.mpApp.entries.length = 1 ∧
    (∀ appName app, (appName, app) ∈ final.mpApp.entries → Alive final appName app.pid) ∧
      ∀ appName info world next, stepMain { final with main := .registerCount appName info } world =
        some next → next.main = .done eExist → ∃ pid, Alive final appName pid := by
  have meets : Meets step Paced new oneAfterTheOther := by decide +kernel
  have hquiescent : (exec step new oneAfterTheOther).any (fun final =>
      final.pending = false ∧ final.handler = none ∧ final.main = .idle ∧
        final.mpApp.entries.length = 1) = true := by decide +kernel
  obtain ⟨final, run, hany⟩ := (Option.any_eq_true _ _).mp hquiescent
  obtain ⟨hpending, hhandler, hmain, hone⟩ := of_decide_eq_true hany
  exact ⟨final, run, hone, no_dead_entry meets run ⟨hpending, hhandler, hmain⟩⟩

end UdpFileProxy.Survivors
