import UdpFileProxy.Children

/-! `del_app` kills the child of the app it deletes, when `sig_chld` does not reap
the child that the request in progress is about. -/
namespace UdpFileProxy.OwnChild
open Lib Lib.Memory Lib.Run Protocol Config ProxyServer Children

/-- `sig_chld` does not reap the child that the request in progress has forked or
is going to kill. -/
def Unreaped (server : Server) : Action → Prop
  | .wait pid => pid ∉ fresh server ∧ pid ∉ doomed server
  | _ => True

instance decidableUnreaped (server : Server) : ∀ action, Decidable (Unreaped server action)
  | .wait pid => inferInstanceAs (Decidable (pid ∉ fresh server ∧ pid ∉ doomed server))
  | .request _ _ | .main _ | .exit _ | .deliver | .waitFails | .delApp =>
      inferInstanceAs (Decidable True)

/-- The pid was that of an unreaped child of the app. -/
def HitsOwn (kill : Kill) : Prop := ∃ child, kill.target = some child ∧ child.app = kill.app

/-- The entry of the app that a deletion is about, until it is erased. -/
def Present (server : Server) : Prop :=
  match server.main with
  | .deleteFind appName | .deleteRead appName => ∃ app, server.mpApp.find appName = some app
  | .deleteErase appName pid => ∃ app, server.mpApp.find appName = some app ∧ app.pid = pid
  | _ => True

structure Guarded (server : Server) : Prop where
  tracked : Tracked server
  present : Present server
  dying : ∀ appName pid, server.main = .deleteErase appName pid ∨ server.main = .kill appName pid →
    Own server appName pid
  spared : ∀ pid, server.handler = some (.delApp pid) → pid ∉ doomed server
  kills : ∀ kill ∈ server.kills, HitsOwn kill

section
variable {server next : Server} {action : Action} {world : World} {appName : Bytes} {pid : Int}

theorem guarded_new : Guarded new :=
  ⟨tracked_new, trivial, by simp [new], by simp [new], by simp [new]⟩

theorem Guarded.stepMain (h : Guarded server) (hhandler : server.handler = none)
    (hstep : ProxyServer.stepMain server world = some next) : Guarded next := by
  have htracked := h.tracked.stepMain hhandler hstep
  have hspared : next.handler = none → ∀ pid, next.handler = some (.delApp pid) → pid ∉ doomed next := by
    intro hnone pid hreaped
    rw [hnone] at hreaped
    contradiction
  unfold ProxyServer.stepMain at hstep
  split at hstep
  · contradiction
  · split at hstep
    · cases hstep
      exact ⟨htracked, trivial, by simp, hspared hhandler, h.kills⟩
    · cases hstep
      exact ⟨htracked, trivial, by simp, hspared hhandler, h.kills⟩
  · split at hstep
    · cases hstep
      exact ⟨htracked, trivial, by simp, hspared hhandler, h.kills⟩
    split at hstep
    · cases hstep
      exact ⟨htracked, trivial, by simp, hspared hhandler, h.kills⟩
    · contradiction
  · cases hstep
    exact ⟨htracked, trivial, by simp, hspared hhandler, h.kills⟩
  · cases hstep
    exact ⟨htracked, trivial, by simp, hspared hhandler, h.kills⟩
  · -- deleteCount
    split at hstep
    · cases hstep
      exact ⟨htracked, trivial, by simp, hspared hhandler, h.kills⟩
    · rename_i app hfind
      cases hstep
      exact ⟨htracked, ⟨app, hfind⟩, by simp, hspared hhandler, h.kills⟩
  · -- deleteFind
    obtain ⟨app, hfind, rfl⟩ := Option.map_eq_some_iff.mp hstep
    exact ⟨htracked, ⟨app, hfind⟩, by simp, hspared hhandler, h.kills⟩
  · -- deleteRead
    rename_i name hmain
    obtain ⟨app, hfind, rfl⟩ := Option.map_eq_some_iff.mp hstep
    refine ⟨htracked, ⟨app, hfind, rfl⟩, ?_, hspared hhandler, h.kills⟩
    intro other pid hdying
    simp only [Main.deleteErase.injEq, reduceCtorEq, or_false] at hdying
    obtain ⟨rfl, rfl⟩ := hdying
    exact h.tracked.own _ app (OrderedMap.find_eq_some.mp hfind) (by simp [Settled, hmain])
      (by simp [hhandler])
  · -- deleteErase
    rename_i name pid hmain
    obtain ⟨app, hfind, rfl⟩ := Option.map_eq_some_iff.mp hstep
    refine ⟨htracked, trivial, ?_, hspared hhandler, h.kills⟩
    intro other pid' hdying
    simp only [reduceCtorEq, Main.kill.injEq, false_or] at hdying
    obtain ⟨rfl, rfl⟩ := hdying
    exact h.dying _ _ (.inl hmain)
  · -- kill
    rename_i name pid hmain
    cases hstep
    refine ⟨htracked, trivial, by simp, hspared hhandler, ?_⟩
    intro kill hkill
    rcases List.mem_append.mp hkill with hkill | hkill
    · exact h.kills kill hkill
    · rw [List.mem_singleton.mp hkill]
      exact h.dying name pid (.inr hmain)
  · cases hstep
    exact ⟨htracked, trivial, by simp, hspared hhandler, h.kills⟩

theorem decode_delete {errno : Errno} {msgEx : Bytes} {main : Main}
    (h : decode errno msgEx = some main ∨ main = .done eFormat) :
    Present { server with main := main } ∧
      ∀ appName pid, ¬(main = .deleteErase appName pid ∨ main = .kill appName pid) := by
  rcases h with h | rfl
  · rcases decode_cases h with ⟨name, parsed, rfl⟩ | ⟨name, rfl⟩ | ⟨reply, rfl⟩
    all_goals simp [Present]
  · simp [Present]

theorem Guarded.delApp (h : Guarded server) (hhandler : server.handler = some (.delApp pid)) :
    Present { ProxyServer.delApp server pid with handler := none } := by
  have hkept : ∀ appName app, server.mpApp.find appName = some app → app.pid ≠ pid →
      (ProxyServer.delApp server pid).mpApp.find appName = some app := by
    intro name app hfind hne
    have hmem := OrderedMap.find_eq_some.mp hfind
    rw [OrderedMap.find_eq_some]
    rcases OrderedMap.eraseFirst_cases server.mpApp fun entry => entry.2.pid = pid with
      ⟨hsame, -⟩ | ⟨first, -, hpid, hrest⟩
    · simp only [ProxyServer.delApp, hsame]
      exact hmem
    · refine (hrest _).mpr ⟨hmem, ?_⟩
      rintro rfl
      exact hne (by simpa using hpid)
  have hspared := h.spared pid hhandler
  have hpresent := h.present
  simp only [doomed, Present, ProxyServer.delApp] at hspared hpresent hkept ⊢
  cases hmain : server.main with
  | deleteFind name =>
    simp only [hmain] at hspared hpresent ⊢
    obtain ⟨app, hfind⟩ := hpresent
    simp only [hfind, Option.map_some, Option.toList_some, List.mem_singleton] at hspared
    exact ⟨app, hkept name app hfind (Ne.symm hspared)⟩
  | deleteRead name =>
    simp only [hmain] at hspared hpresent ⊢
    obtain ⟨app, hfind⟩ := hpresent
    simp only [hfind, Option.map_some, Option.toList_some, List.mem_singleton] at hspared
    exact ⟨app, hkept name app hfind (Ne.symm hspared)⟩
  | deleteErase name dying =>
    simp only [hmain, List.mem_singleton] at hspared hpresent ⊢
    obtain ⟨app, hfind, rfl⟩ := hpresent
    exact ⟨app, hkept name app hfind (Ne.symm hspared), rfl⟩
  | _ => trivial

theorem Guarded.waitFails (h : Guarded server) (hhandler : server.handler = some .wait)
    (hnone : server.children.entries = []) : doomed server = [] := by
  have hempty : ∀ name app, server.mpApp.find name ≠ some app := by
    intro name app hfind
    exact h.tracked.empty hhandler hnone _ (OrderedMap.find_eq_some.mp hfind)
  have hpresent := h.present
  simp only [doomed, Present] at hpresent ⊢
  cases hmain : server.main with
  | deleteFind name =>
    simp only [hmain] at hpresent
    obtain ⟨app, hfind⟩ := hpresent
    exact absurd hfind (hempty name app)
  | deleteRead name =>
    simp only [hmain] at hpresent
    obtain ⟨app, hfind⟩ := hpresent
    exact absurd hfind (hempty name app)
  | deleteErase name pid => exact absurd (h.dying name pid (.inl hmain)) (not_own hnone name pid)
  | kill name pid => exact absurd (h.dying name pid (.inr hmain)) (not_own hnone name pid)
  | _ => rfl

theorem Guarded.step (h : Guarded server) (unreaped : Unreaped server action)
    (hstep : ProxyServer.step server action = some next) : Guarded next := by
  have registered : Registered server action := by
    cases action with
    | wait pid => exact unreaped.1
    | _ => trivial
  have htracked := h.tracked.step registered hstep
  cases step_cases hstep with
  | request main hhandler hidle hmain =>
    obtain ⟨hpresent, hnot⟩ := decode_delete hmain
    refine ⟨htracked, hpresent, ?_, ?_, h.kills⟩
    · intro name pid hdying
      exact absurd hdying (hnot name pid)
    · intro pid hreaped
      rw [show server.handler = _ from hreaped] at hhandler
      contradiction
  | main hhandler hnext => exact h.stepMain hhandler hnext
  | exit hchild =>
    refine ⟨htracked, h.present, ?_, h.spared, h.kills⟩
    intro name pid hdying
    exact own_exit hchild (h.dying name pid hdying)
  | deliver hhandler hpending => exact ⟨htracked, h.present, h.dying, by simp, h.kills⟩
  | wait hhandler hchild =>
    rename_i pid app
    refine ⟨htracked, h.present, ?_, ?_, h.kills⟩
    · intro name other hdying
      refine own_wait (h.dying name other hdying) ?_
      rintro rfl
      apply unreaped.2
      rcases hdying with hdying | hdying
      · simp [doomed, show server.main = _ from hdying]
      · simp [doomed, show server.main = _ from hdying]
    · intro reaped hreaped
      obtain rfl : pid = reaped := by simpa using hreaped
      exact unreaped.2
  | waitFails hhandler hnone =>
    refine ⟨htracked, h.present, h.dying, ?_, h.kills⟩
    intro reaped _
    have hnothing : doomed { server with handler := some (.delApp (-1)) } = [] :=
      h.waitFails hhandler hnone
    simp [hnothing]
  | delApp hhandler => exact ⟨htracked, h.delApp hhandler, h.dying, by simp, h.kills⟩

theorem guarded_of_run {final : Server} {actions : List Action}
    (meets : Meets step Unreaped new actions) (run : exec step new actions = some final) :
    Guarded final := by
  have preserved : ∀ state action next, Guarded state → Unreaped state action →
      step state action = some next → Guarded next := by
    intro state action next guarded unreaped hstep
    exact guarded.step unreaped hstep
  exact exec_invariant preserved guarded_new meets run

/-- Every pid passed to `kill` is that of an unreaped child of the app deleted. -/
theorem kills_own_child {final : Server} {actions : List Action}
    (meets : Meets step Unreaped new actions) (run : exec step new actions = some final) :
    ∀ kill ∈ final.kills, HitsOwn kill :=
  (guarded_of_run meets run).kills

/-- Nor does a deletion ever come to an entry that is gone. -/
theorem deletion_defined {final : Server} {actions : List Action}
    (meets : Meets step Unreaped new actions) (run : exec step new actions = some final)
    (hmain : ∃ appName, final.main = .deleteFind appName ∨ final.main = .deleteRead appName ∨
      ∃ pid, final.main = .deleteErase appName pid) (world : World) :
    (stepMain final world).isSome := by
  have hpresent := (guarded_of_run meets run).present
  unfold Present at hpresent
  obtain ⟨appName, hmain | hmain | ⟨pid, hmain⟩⟩ := hmain
  · simp only [hmain] at hpresent
    obtain ⟨app, hfind⟩ := hpresent
    simp [stepMain, hmain, hfind]
  · simp only [hmain] at hpresent
    obtain ⟨app, hfind⟩ := hpresent
    simp [stepMain, hmain, hfind]
  · simp only [hmain] at hpresent
    obtain ⟨app, hfind, -⟩ := hpresent
    simp [stepMain, hmain, hfind]

end

/-- The child of `a` exits before `add_app` has returned. -/
def reapedInRegistration : List Action :=
  [register "a", .main ⟨0, 0⟩, .main ⟨100, 0⟩, .exit 100, .deliver, .wait 100, .delApp,
    .main ⟨0, 0⟩, .main ⟨0, 0⟩, .main ⟨0, 0⟩, delect "a", .main ⟨0, 0⟩, .main ⟨0, 0⟩,
    .main ⟨0, 0⟩, .main ⟨0, 0⟩, .main ⟨0, 0⟩]

theorem killed_reaped_pid : ∃ final, exec step new reapedInRegistration = some final ∧
    ¬∀ kill ∈ final.kills, HitsOwn kill := by
  have hkills : (exec step new reapedInRegistration).any (fun final =>
      final.kills = [⟨ascii "a", 100, none⟩]) = true := by decide +kernel
  obtain ⟨final, run, hany⟩ := (Option.any_eq_true _ _).mp hkills
  have hkill := of_decide_eq_true hany
  refine ⟨final, run, ?_⟩
  intro hall
  obtain ⟨child, htarget, -⟩ := hall ⟨ascii "a", 100, none⟩ (by simp [hkill])
  contradiction

/-- The child of `a` exits when it is killed; meanwhile that of `b` exits. -/
def reapedLater : List Action :=
  [register "b", .main ⟨0, 0⟩, .main ⟨101, 0⟩, .main ⟨0, 7⟩, .main ⟨0, 0⟩, .main ⟨0, 0⟩,
    register "a", .main ⟨0, 0⟩, .main ⟨100, 0⟩, .exit 101, .deliver, .wait 101, .delApp,
    .main ⟨0, 0⟩, .main ⟨0, 0⟩, .main ⟨0, 0⟩, delect "a", .main ⟨0, 0⟩, .main ⟨0, 0⟩,
    .main ⟨0, 0⟩, .main ⟨0, 0⟩, .main ⟨0, 0⟩, .exit 100, .deliver, .wait 100, .delApp]

theorem kills_own_child_once : ∃ final, exec step new reapedLater = some final ∧
    final.kills.length = 1 ∧ ∀ kill ∈ final.kills, HitsOwn kill := by
  have meets : Meets step Unreaped new reapedLater := by decide +kernel
  have hone : (exec step new reapedLater).any (fun final => final.kills.length = 1) = true := by
    decide +kernel
  obtain ⟨final, run, hlength⟩ := (Option.any_eq_true _ _).mp hone
  exact ⟨final, run, of_decide_eq_true hlength, kills_own_child meets run⟩

end UdpFileProxy.OwnChild
