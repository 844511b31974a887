import UdpFileProxy.Sessions

/-! What becomes of an app's files after `Del_App`. It sets the status of the
`APP_INFO`, and `file_thread` reads that of the queue. -/
namespace UdpFileProxy.Policies
open Lib.LinkedList Lib.Memory Lib.Run Protocol SendList ProxyClient FileThread Sessions
open Config (Section)
open SendPack (Reply)

/-- The policies of the deletion are kept so far. -/
structure Honoured (session : Session) (deletion : Deletion) : Prop where
  lastOne : deletion.opt = delLastOne → session.taken = deletion.taken
  later : deletion.opt = delLater → session.taken <+: deletion.accepted ∧ session.passed = false
  now : deletion.opt = delNow → session.opened = deletion.opened

/-- The thread has no socket, or there was nothing left to take when the app was deleted
with `DEL_LAST_ONE`. -/
def Harmless (session : Session) (deletion : Deletion) : Prop :=
  deletion.opt = delNow ∨ session.connected = false ∨
    (deletion.opt = delLastOne ∧ deletion.taken = deletion.accepted)

/-- What a deletion leaves to the thread. -/
structure Kept (view : View) : Prop where
  fed : ∃ cells, Fed view cells
  waits : view.session.connected = false → view.thread.pc ∈ [.socket, .exited, .cancelled] ∧
    view.session.taken = [] ∧ view.session.passed = false
  deleted : ∀ deletion, view.session.deletion = some deletion →
    view.listed = false ∧ view.session.accepted = deletion.accepted ∧
      deletion.taken <+: view.session.taken
  now : ∀ deletion, view.session.deletion = some deletion → deletion.opt = delNow →
    view.thread.cancelRequest = true ∧ view.session.opened = deletion.opened

section
variable {order : Endian} {conf : Section} {list list' : SendList} {session session' : Session}
  {pc pc' : Pc}

theorem waits_call (h : Calls order list session pc list' pc' session')
    (hwaits : session.connected = false → pc ∈ [.socket, .exited, .cancelled] ∧
      session.taken = [] ∧ session.passed = false) :
    session'.connected = false → pc' ∈ [.socket, .exited, .cancelled] ∧
      session'.taken = [] ∧ session'.passed = false := by
  intro hconnected
  cases h with
  | connect => contradiction
  | refused => exact ⟨by simp, (hwaits hconnected).2⟩
  | check pc next checks goes =>
    obtain ⟨passed, hcheck⟩ := session.check_eq pc'
    rw [hcheck] at hconnected
    have hpc := (hwaits hconnected).1
    simp only [List.mem_cons, List.not_mem_nil, or_false] at hpc checks
    rcases hpc with rfl | rfl | rfl <;> simp at checks
  | _ =>
    have hpc := (hwaits hconnected).1
    simp at hpc

theorem opened_call (h : Calls order list session pc list' pc' session')
    (hundisturbed : ¬mustCancel pc) : session'.opened = session.opened := by
  cases h with
  | check pc next checks goes =>
    obtain ⟨passed, hcheck⟩ := session.check_eq pc'
    rw [hcheck]
  | openFile data item sender next reply opens resumed =>
    exact absurd (by simp [mustCancel, opens]) hundisturbed
  | _ => rfl

theorem closed_kept : Closed order Kept where
  start app info maxCount delectFile hlist := by
    refine ⟨(closed_fed : Closed order _).start app info maxCount delectFile hlist, ?_, ?_, ?_⟩
    · intro _
      exact ⟨by simp [created], rfl, rfl⟩
    · intro deletion hdeletion
      cases hdeletion
    · intro deletion hdeletion
      cases hdeletion
  move view next h hmoves := by
    have hfed := closed_fed.move view next h.fed hmoves
    cases hmoves with
    | appendFile filename delect memory ret list listed free appended =>
      have hnone : view.session.deletion = none := by
        cases hdeletion : view.session.deletion with
        | none => rfl
        | some deletion =>
          rw [(h.deleted deletion hdeletion).1] at listed
          contradiction
      obtain ⟨accepted, hsession⟩ := view.session.answered_eq ret ⟨filename, delect⟩
      rw [hsession] at hfed ⊢
      exact ⟨hfed, h.waits, by simp [hnone], by simp [hnone]⟩
    | delApp opt listed =>
      refine ⟨hfed, ?_, ?_, ?_⟩
      · rw [view.delApp_pc]
        exact h.waits
      · rintro deletion ⟨⟩
        exact ⟨rfl, rfl, List.prefix_rfl⟩
      · rintro deletion ⟨⟩ hopt
        have hopt : opt = delNow := hopt
        exact ⟨by simp [View.delApp, hopt], rfl⟩
    | call manager manager' reply list thread undisturbed called =>
      obtain ⟨-, hcancel, hcalls⟩ := calls_of_step view.session called
      obtain ⟨haccepted, hdeletion, htaken⟩ := hcalls.queue
      refine ⟨hfed, waits_call hcalls h.waits, ?_, ?_⟩
      · dsimp only
        rw [hdeletion, haccepted, htaken]
        intro deletion hsome
        obtain ⟨hlisted, hequal, hfront⟩ := h.deleted deletion hsome
        exact ⟨hlisted, hequal, hfront.trans (List.prefix_append _ _)⟩
      · dsimp only
        rw [hdeletion, hcancel]
        intro deletion hsome hopt
        obtain ⟨hrequested, hopened⟩ := h.now deletion hsome hopt
        have hundisturbed : ¬mustCancel view.thread.pc := fun hmust => undisturbed ⟨hrequested, hmust⟩
        exact ⟨hrequested, (opened_call hcalls hundisturbed).trans hopened⟩
    | cancel requested =>
      refine ⟨hfed, ?_, h.deleted, h.now⟩
      intro hconnected
      exact ⟨by simp, (h.waits hconnected).2⟩

/-- The policies of a deletion are kept in every run when the thread of the app has no
socket, and otherwise with `DEL_NOW`, or with `DEL_LAST_ONE` and nothing left to take.
The files that are taken after `DEL_LATER` were accepted before it in any case. -/
theorem honoured_when {actions : List Action} {final : State} {deletion : Deletion}
    (run : exec (step order conf) start actions = some final) (hsession : session ∈ final.sessions)
    (hdeletion : session.deletion = some deletion) :
    session.taken <+: deletion.accepted ∧
      (Harmless session deletion → Honoured session deletion) := by
  obtain ⟨nodes, htidy⟩ := tidy_run closed_kept run
  obtain ⟨view, hkept, rfl⟩ := htidy.of_session hsession
  obtain ⟨-, haccepted, htaken⟩ := hkept.deleted deletion hdeletion
  obtain ⟨cells, hfed⟩ := hkept.fed
  have hfront : view.session.taken <+: deletion.accepted := by
    rw [← haccepted, hfed.accepted]
    exact List.prefix_append _ _
  refine ⟨hfront, ?_⟩
  intro hharmless
  refine ⟨?_, ?_, ?_⟩
  · intro hopt
    rcases hharmless with hnow | hconnected | ⟨-, hnone⟩
    · exact absurd (hopt.symm.trans hnow) (by decide)
    · have hempty := (hkept.waits hconnected).2.1
      rw [hempty] at htaken ⊢
      exact (List.prefix_nil.mp htaken).symm
    · rw [← hnone] at hfront
      exact hfront.eq_of_length_le htaken.length_le
  · intro hopt
    refine ⟨hfront, ?_⟩
    rcases hharmless with hnow | hconnected | ⟨hlast, -⟩
    · exact absurd (hopt.symm.trans hnow) (by decide)
    · exact (hkept.waits hconnected).2.2
    · exact absurd (hopt.symm.trans hlast) (by decide)
  · intro hopt
    exact (hkept.now deletion hdeletion hopt).2

end

/-- One app with one file, which is deleted once its thread has a socket; the thread
takes the file, cannot access it, and checks the status again. -/
def deleted (opt : Int) : List Action :=
  [.request ⟨.other, 1, true⟩ (Manager.frame cmdRegister (ascii "app_name=a,max_file=2")),
    .request ⟨.other, 2, true⟩ (Manager.frame cmdAddFile (ascii "app_name=a,file_name=f")),
    .call 0 (.fd 3), .delApp (ascii "a") opt, .call 0 .done, .call 0 .done, .call 0 .done, .call 0 .done,
    .call 0 (.size (-1)), .call 0 .done, .call 0 .done]

/-- A run in which a deletion with this policy satisfies a condition. -/
def Reached (actions : List Action) (condition : Session → Deletion → Prop) : Prop :=
  ∃ final session deletion, exec (step .little []) start actions = some final ∧
    session ∈ final.sessions ∧ session.deletion = some deletion ∧ condition session deletion

theorem reached_of_any {actions : List Action} {condition : Session → Deletion → Prop}
    (test : Session → Deletion → Bool) (htest : ∀ session deletion, test session deletion = true →
      condition session deletion)
    (h : (exec (step .little []) start actions).any (fun final => final.sessions.any fun session =>
      session.deletion.any fun deletion => test session deletion) = true) :
    Reached actions condition := by
  obtain ⟨final, run, hfinal⟩ := (Option.any_eq_true _ _).mp h
  obtain ⟨session, hsession, hany⟩ := List.any_eq_true.mp hfinal
  obtain ⟨deletion, hdeletion, hpassed⟩ := (Option.any_eq_true _ _).mp hany
  exact ⟨final, session, deletion, run, hsession, hdeletion, htest session deletion hpassed⟩

/-- The file is taken after `DEL_LAST_ONE`, and the exit is passed by after `DEL_LATER`. -/
theorem policies_ignored :
    Reached (deleted delLastOne) (fun session deletion => ¬Honoured session deletion) ∧
      Reached (deleted delLater) (fun session deletion => ¬Honoured session deletion) := by
  constructor
  · apply reached_of_any fun session deletion =>
      deletion.opt = delLastOne && session.taken != deletion.taken
    · intro session deletion htest honoured
      simp only [Bool.and_eq_true, decide_eq_true_eq, bne_iff_ne] at htest
      exact htest.2 (honoured.lastOne htest.1)
    · decide +kernel
  · apply reached_of_any fun session deletion => deletion.opt = delLater && session.passed
    · intro session deletion htest honoured
      simp only [Bool.and_eq_true, decide_eq_true_eq] at htest
      rw [(honoured.later htest.1).2] at htest
      exact absurd htest.2 (by decide)
    · decide +kernel

theorem honoured_when_now : Reached (deleted delNow) Honoured := by
  have hreached : Reached (deleted delNow) fun _ deletion => deletion.opt = delNow := by
    apply reached_of_any fun _ deletion => deletion.opt = delNow
    · intro session deletion htest
      exact of_decide_eq_true htest
    · decide +kernel
  obtain ⟨final, session, deletion, run, hsession, hdeletion, hnow⟩ := hreached
  exact ⟨final, session, deletion, run, hsession, hdeletion,
    (honoured_when run hsession hdeletion).2 (.inl hnow)⟩

end UdpFileProxy.Policies
