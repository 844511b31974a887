import UdpFileProxy.Sessions

/-! When `file_thread` unlinks a file that it has sent. It reads the flag of the queued
file; that of the registration is stored in the `APP_INFO` and never looked at. -/
namespace UdpFileProxy.Removal
open Lib.LinkedList Lib.Memory Lib.Run Protocol SendList ProxyClient FileThread Sessions
open Config (Section)
open SendPack (Reply resume)
open Speed (SpeedManger answer)
open Status (handedOut)

/-- What `SendPack_ex` has sent where it stands: all that it has read, but for the packet
in its buffer. -/
def Carries (transfer : Transfer) (sender : SendPack.State) : Prop :=
  match sender.pc with
  | .stat | .openFile => transfer = .new
  | .read | .sleepFirst | .sleepBatch => transfer.sent = transfer.got ∧ transfer.atEnd = false
  | .giveBack | .query | .sendto =>
      transfer.sent ++ sender.recvBuff = transfer.got ∧ transfer.atEnd = false
  | .okGiveBack | .okClose => transfer.Whole
  | .errClose | .errGiveBack => ¬transfer.Whole
  | .finished ret => transfer.Whole ↔ ret = 0
  | .dividedByZero => True

/-- What the thread has sent of the file that it is busy with. -/
def Carried (transfer : Transfer) : Pc → Prop
  | .filename _ | .getFileSize _ _ => transfer = .new
  | .sendPack _ _ sender => Carries transfer sender
  | .unlink _ item => item.delect = true ∧ transfer.Whole
  | _ => True

/-- The file was unlinked exactly if it was queued so, sent and not cut off. -/
def Accounted (handled : Handled) : Prop :=
  handled.unlinked = true ↔
    handled.item.delect = true ∧ handled.transfer.Whole ∧ handled.cancelled = false

section
variable {order : Endian} {conf : Section} {transfer : Transfer} {sender next : SendPack.State}
  {reply : Reply}

@[simp] theorem not_whole (h : transfer.atEnd = false) : ¬transfer.Whole := by
  rintro ⟨hend, -⟩
  rw [h] at hend
  contradiction

theorem not_whole_new : ¬Transfer.Whole .new := not_whole rfl

theorem carries_packed {bytes : Bytes} (hsent : transfer.sent = transfer.got)
    (hend : transfer.atEnd = false) (state : SendPack.State) :
    Carries { transfer with got := transfer.got ++ bytes }
      { SendPack.packed state bytes with pc := SendPack.afterRead (SendPack.packed state bytes) } := by
  have hgot : transfer.sent ++ bytes = transfer.got ++ bytes := by rw [hsent]
  rcases SendPack.afterRead_cases (SendPack.packed state bytes) with hpc | ⟨hpc, -⟩ | ⟨hpc, -⟩ | hpc <;>
    simp only [Carries, hpc]
  · exact ⟨hgot, hend⟩
  · exact ⟨hgot, hend⟩
  · exact ⟨hgot, hend⟩

theorem carries_afterSend (hsent : transfer.sent = transfer.got) (hend : transfer.atEnd = false)
    (state : SendPack.State) : Carries transfer { state with pc := SendPack.afterSend state } := by
  rcases SendPack.afterSend_cases state with hpc | hpc | hpc <;> simp only [Carries, hpc]
  · exact ⟨hsent, hend⟩
  · exact ⟨hsent, hend⟩

theorem answer_other (hread : sender.pc ≠ .read) (hsendto : sender.pc ≠ .sendto) (reply : Reply) :
    transfer.answer sender reply = transfer := by
  unfold Transfer.answer
  split
  · contradiction
  · contradiction
  · contradiction
  · rfl

theorem carries_read (hpc : sender.pc = .read) (h : Carries transfer sender)
    (hresume : resume sender reply = some next) : Carries (transfer.answer sender reply) next := by
  simp only [Carries, hpc] at h
  cases reply with
  | data received =>
    cases received with
    | none =>
      simp only [resume, hpc, Option.some.injEq] at hresume
      subst hresume
      simp only [Transfer.answer, hpc]
      exact not_whole h.2
    | some bytes =>
      cases bytes with
      | nil =>
        simp only [resume, hpc, Option.some.injEq] at hresume
        subst hresume
        simp only [Transfer.answer, hpc]
        split <;> exact ⟨rfl, h.1⟩
      | cons byte rest =>
        simp only [resume, hpc, Option.ite_none_right_eq_some, Option.some.injEq] at hresume
        obtain ⟨-, rfl⟩ := hresume
        simp only [Transfer.answer, hpc]
        exact carries_packed h.1 h.2 sender
  | _ => simp [resume, hpc] at hresume

theorem carries_sendto (hpc : sender.pc = .sendto) (h : Carries transfer sender)
    (hresume : resume sender reply = some next) : Carries (transfer.answer sender reply) next := by
  simp only [Carries, hpc] at h
  cases reply with
  | sent succeeded =>
    cases succeeded with
    | false =>
      simp only [resume, hpc, Option.some.injEq] at hresume
      subst hresume
      simp only [Transfer.answer, hpc]
      exact not_whole h.2
    | true =>
      simp only [resume, hpc, Option.some.injEq] at hresume
      subst hresume
      simp only [Transfer.answer, hpc]
      split
      · exact h
      · apply carries_afterSend
        · exact h.1
        · exact h.2
  | _ => simp [resume, hpc] at hresume

theorem carries_other (hread : sender.pc ≠ .read) (hsendto : sender.pc ≠ .sendto)
    (h : Carries transfer sender) (hresume : resume sender reply = some next) :
    Carries transfer next := by
  unfold resume at hresume
  split at hresume
  · -- stat
    rename_i hpc
    cases hresume
    simp only [Carries, hpc] at h
    split
    · simp [Carries, h, not_whole_new]
    · exact h
  · -- openFile
    rename_i hpc
    cases hresume
    simp only [Carries, hpc] at h
    subst h
    split
    · exact not_whole_new
    · exact ⟨rfl, rfl⟩
  · -- read fails
    contradiction
  · -- end of file
    contradiction
  · -- read
    contradiction
  · -- giveBack
    rename_i hpc
    cases hresume
    simp only [Carries, hpc] at h
    exact h
  · -- query
    rename_i hpc
    simp only [Carries, hpc] at h
    split at hresume
    · cases hresume
      trivial
    · cases hresume
      exact h
  · -- sendto fails
    contradiction
  · -- sendto
    contradiction
  · -- sleepFirst
    rename_i hpc
    cases hresume
    simp only [Carries, hpc] at h
    exact carries_afterSend h.1 h.2 sender
  · -- sleepBatch
    rename_i hpc
    cases hresume
    simp only [Carries, hpc] at h
    exact h
  · -- okGiveBack
    rename_i hpc
    cases hresume
    simp only [Carries, hpc] at h
    exact h
  · -- okClose
    rename_i hpc
    cases hresume
    simp only [Carries, hpc] at h
    exact iff_of_true h rfl
  · -- errClose
    rename_i hpc
    cases hresume
    simp only [Carries, hpc] at h
    split
    · exact h
    · exact iff_of_false h (by decide)
  · -- errGiveBack
    rename_i hpc
    cases hresume
    simp only [Carries, hpc] at h
    exact iff_of_false h (by decide)
  · -- no such reply
    contradiction

theorem carries_resume (h : Carries transfer sender) (hresume : resume sender reply = some next) :
    Carries (transfer.answer sender reply) next := by
  by_cases hread : sender.pc = .read
  · exact carries_read hread h hresume
  by_cases hsendto : sender.pc = .sendto
  · exact carries_sendto hsendto h hresume
  rw [answer_other hread hsendto]
  exact carries_other hread hsendto h hresume

theorem carries_answer {manager manager' : SpeedManger} (h : Carries transfer sender)
    (hanswer : answer order manager sender reply = some (manager', next)) :
    Carries (transfer.answer sender reply) next := by
  have hmanager {call : SendPack.Call} {given : Reply} (hcall : SendPack.call order sender = some call)
      (hread : call ≠ .read) (hsendto : ∀ msg, call ≠ .sendto msg)
      (hresume : resume sender given = some next) : Carries (transfer.answer sender reply) next := by
    have hpc : sender.pc ≠ .read ∧ sender.pc ≠ .sendto := by
      constructor <;> intro hpc <;> simp only [SendPack.call, hpc, Option.some.injEq] at hcall
      · exact hread hcall.symm
      · exact hsendto _ hcall.symm
    rw [answer_other hpc.1 hpc.2]
    exact carries_other hpc.1 hpc.2 h hresume
  unfold Speed.answer at hanswer
  split at hanswer
  · contradiction
  · rename_i hcall
    obtain ⟨resumed, hresume, hpair⟩ := Option.map_eq_some_iff.mp hanswer
    cases hpair
    exact hmanager hcall (by simp) (by simp) hresume
  · rename_i hcall
    obtain ⟨resumed, hresume, hpair⟩ := Option.map_eq_some_iff.mp hanswer
    cases hpair
    exact hmanager hcall (by simp) (by simp) hresume
  · obtain ⟨resumed, hresume, hpair⟩ := Option.map_eq_some_iff.mp hanswer
    cases hpair
    exact carries_resume h hresume

end

/-- The files that the thread took are those it is through with and the one it is busy
with. -/
structure Settled (view : View) : Prop where
  fed : ∃ cells, Fed view cells
  items : view.session.taken =
    view.session.handled.map Handled.item ++ working view.app.listC view.thread.pc
  accounted : ∀ handled ∈ view.session.handled, Accounted handled
  carried : Carried view.session.transfer view.thread.pc

section
variable {order : Endian} {conf : Section} {list list' : SendList} {session session' : Session}
  {pc pc' : Pc}

@[simp] theorem items_finish (items : List SendData) (unlinked cancelled : Bool) :
    (session.finish items unlinked cancelled).handled.map Handled.item =
      session.handled.map Handled.item ++ items := by
  rw [Session.finish, List.map_append, List.map_map]
  congr 1
  exact List.map_id' items

theorem accounted_finish (h : ∀ handled ∈ session.handled, Accounted handled) {items : List SendData}
    {unlinked cancelled : Bool}
    (hnew : ∀ item ∈ items, Accounted ⟨item, session.transfer, unlinked, cancelled⟩) :
    ∀ handled ∈ (session.finish items unlinked cancelled).handled, Accounted handled := by
  intro handled hmem
  rcases List.mem_append.mp hmem with hold | hadded
  · exact h handled hold
  · obtain ⟨item, hitem, rfl⟩ := List.mem_map.mp hadded
    exact hnew item hitem

theorem items_call (h : Calls order list session pc list' pc' session')
    (hitems : session.taken = session.handled.map Handled.item ++ working list pc) :
    session'.taken = session'.handled.map Handled.item ++ working list' pc' := by
  cases h with
  | check pc next checks goes =>
    obtain ⟨passed, hcheck⟩ := session.check_eq pc'
    have hbefore : working list pc = [] := by
      simp only [List.mem_cons, List.not_mem_nil, or_false] at checks
      rcases checks with rfl | rfl | rfl <;> rfl
    have hafter : working list pc' = [] := by
      simp only [List.mem_cons, List.not_mem_nil, or_false] at goes
      rcases goes with rfl | rfl | rfl | rfl | rfl | rfl <;> rfl
    rw [hcheck, hafter, ← hbefore]
    exact hitems
  | getNext data rest handed =>
    have hbefore : working list .getNext = [] := rfl
    rw [hbefore, List.append_nil] at hitems
    rw [hitems]
    rfl
  | filename data cell found =>
    have hbefore : working list (.filename (some data)) = [cell.value] := by
      simp [working, handedOut, found]
    rw [hbefore] at hitems
    exact hitems
  | missing data item | kept data item | failed data item | unlink data item =>
    rw [items_finish, Session.finish_taken, hitems, List.append_assoc]
    rfl
  | _ => exact hitems

theorem accounted_call (h : Calls order list session pc list' pc' session')
    (haccounted : ∀ handled ∈ session.handled, Accounted handled)
    (hcarried : Carried session.transfer pc) :
    (∀ handled ∈ session'.handled, Accounted handled) ∧ Carried session'.transfer pc' := by
  have hfinish {item : SendData} (hnot : ¬(item.delect = true ∧ session.transfer.Whole)) :
      ∀ handled ∈ (session.finish [item] false false).handled, Accounted handled := by
    apply accounted_finish haccounted
    intro other hother
    rw [List.mem_singleton.mp hother]
    exact iff_of_false Bool.false_ne_true fun hall => hnot ⟨hall.1, hall.2.1⟩
  cases h with
  | check pc next checks goes =>
    obtain ⟨passed, hcheck⟩ := session.check_eq pc'
    rw [hcheck]
    refine ⟨haccounted, ?_⟩
    simp only [List.mem_cons, List.not_mem_nil, or_false] at goes
    rcases goes with rfl | rfl | rfl | rfl | rfl | rfl <;> trivial
  | getNext data rest handed => exact ⟨haccounted, rfl⟩
  | filename data cell found => exact ⟨haccounted, hcarried⟩
  | missing data item =>
    refine ⟨hfinish ?_, trivial⟩
    rw [show session.transfer = .new from hcarried]
    exact fun hall => not_whole_new hall.2
  | start data item packT => exact ⟨haccounted, hcarried⟩
  | openFile data item sender next reply opens resumed =>
    exact ⟨haccounted, carries_other (by simp [opens]) (by simp [opens]) hcarried resumed⟩
  | transfer data item sender next reply manager manager' opened answered =>
    exact ⟨haccounted, carries_answer hcarried answered⟩
  | sent data item sender returned delect =>
    simp only [Carried, Carries, returned, iff_true] at hcarried
    exact ⟨haccounted, delect, hcarried⟩
  | kept data item sender returned delect =>
    refine ⟨hfinish ?_, trivial⟩
    simp [delect]
  | failed data item sender ret returned failure =>
    refine ⟨hfinish ?_, trivial⟩
    simp only [Carried, Carries, returned] at hcarried
    exact fun hall => failure (hcarried.mp hall.2)
  | unlink data item =>
    refine ⟨accounted_finish haccounted ?_, trivial⟩
    intro other hother
    rw [List.mem_singleton.mp hother]
    exact iff_of_true rfl ⟨hcarried.1, hcarried.2, rfl⟩
  | _ => exact ⟨haccounted, trivial⟩

theorem working_append {thread : Thread} {cells : List (Addr × SendData)} {filename : Bytes}
    {delect : Bool} {memory : Addr} {ret : Int} (h : Status.Serves list thread cells)
    (free : list.heap memory = none)
    (appended : SendList.appendFile list filename delect memory = some (ret, list')) :
    working list' thread.pc = working list thread.pc := by
  by_cases hroom : (cells.length : Int) < list.maxCount
  · obtain ⟨next, hok, -, -, -, hheap⟩ := h.queued.appendFile hroom free filename delect
    cases appended.symm.trans hok
    cases hpc : thread.pc with
    | filename found =>
      cases found with
      | none => rfl
      | some data =>
        obtain ⟨hnot, hallocated⟩ := h.held data (by simp [Status.holds, hpc])
        have hne : data ≠ memory := by
          rintro rfl
          rw [free] at hallocated
          contradiction
        simp only [working, handedOut, hheap data hnot hne]
    | _ => rfl
  · have hfull := h.queued.appendFile_full (not_lt.mp hroom) filename delect memory
    cases appended.symm.trans hfull
    rfl

theorem closed_settled : Closed order Settled where
  start app info maxCount delectFile hlist :=
    ⟨(closed_fed : Closed order _).start app info maxCount delectFile hlist, rfl,
      by simp [Session.start], trivial⟩
  move view next h hmoves := by
    have hfed := closed_fed.move view next h.fed hmoves
    cases hmoves with
    | appendFile filename delect memory ret list listed free appended =>
      obtain ⟨cells, hcells⟩ := h.fed
      have hworking := working_append hcells.serves free appended
      obtain ⟨accepted, hsession⟩ := view.session.answered_eq ret ⟨filename, delect⟩
      rw [hsession] at hfed ⊢
      refine ⟨hfed, ?_, h.accounted, h.carried⟩
      dsimp only [Registry.withList]
      rw [hworking]
      exact h.items
    | delApp opt listed =>
      refine ⟨hfed, ?_, h.accounted, ?_⟩
      · rw [view.delApp_pc, view.delApp_listC]
        exact h.items
      · rw [view.delApp_pc]
        exact h.carried
    | call manager manager' reply list thread undisturbed called =>
      obtain ⟨-, -, hcalls⟩ := calls_of_step view.session called
      obtain ⟨haccounted, hcarried⟩ := accounted_call hcalls h.accounted h.carried
      exact ⟨hfed, items_call hcalls h.items, haccounted, hcarried⟩
    | cancel requested =>
      refine ⟨hfed, ?_, ?_, trivial⟩
      · dsimp only
        rw [items_finish, Session.finish_taken]
        have hafter : working view.app.listC .cancelled = [] := rfl
        rw [hafter, List.append_nil]
        exact h.items
      · apply accounted_finish h.accounted
        intro item _
        exact iff_of_false (by simp) fun hall => by simpa using hall.2.2

/-- What is asked for: the file goes when the app or the file was registered so and the
whole file was sent. -/
def Asked (session : Session) (handled : Handled) : Prop :=
  (session.delectFile = true ∨ handled.item.delect = true) ∧ handled.transfer.Whole

/-- In every run each file that a thread is through with is an accepted one, is never
unlinked when it was not sent whole, and is unlinked as it was asked for exactly when
that was not asked for at all, or for the file itself, whose thread was not cancelled. -/
theorem unlinks_exactly {actions : List Action} {final : State}
    (run : exec (step order conf) start actions = some final) (hsession : session ∈ final.sessions) :
    session.handled.map Handled.item <+: session.accepted ∧
      ∀ handled ∈ session.handled, (handled.unlinked = true → handled.transfer.Whole) ∧
        ((handled.unlinked = true ↔ Asked session handled) ↔
          ¬Asked session handled ∨ (handled.item.delect = true ∧ handled.cancelled = false)) := by
  obtain ⟨nodes, htidy⟩ := tidy_run closed_settled run
  obtain ⟨view, hsettled, rfl⟩ := htidy.of_session hsession
  obtain ⟨cells, hfed⟩ := hsettled.fed
  refine ⟨?_, ?_⟩
  · rw [hfed.accepted, hsettled.items, List.append_assoc]
    exact List.prefix_append _ _
  · intro handled hmem
    have haccounted : Accounted handled := hsettled.accounted handled hmem
    refine ⟨fun hunlinked => (haccounted.mp hunlinked).2.1, ?_⟩
    unfold Accounted at haccounted
    rw [haccounted]
    unfold Asked
    tauto

end

/-- One app with one file of one byte, which its thread sends. -/
def sends (registered queued : Bytes) : List Action :=
  [.request ⟨.other, 1, true⟩
      (Manager.frame cmdRegister (ascii "app_name=a,max_file=2,delect_file=" ++ registered)),
    .request ⟨.other, 2, true⟩
      (Manager.frame cmdAddFile (ascii "app_name=a,file_name=f,delect=" ++ queued)),
    .call 0 (.fd 3), .call 0 .done, .call 0 .done, .call 0 .done, .call 0 .done, .call 0 (.size 1),
    .call 0 (.size 1), .call 0 (.fd 4), .call 0 (.data (some [7])), .call 0 .done,
    .call 0 (.sent true), .call 0 .done, .call 0 (.data (some [])), .call 0 .done, .call 0 .done,
    .call 0 .done, .call 0 .done]

/-- The file of an app that was registered with `delect_file` is sent and stays. -/
theorem registered_flag_ignored : ∃ final session handled,
    exec (step .little []) start (sends (ascii "true") (ascii "false")) = some final ∧
      session ∈ final.sessions ∧ handled ∈ session.handled ∧ Asked session handled ∧
      ¬(handled.unlinked = true ↔ Asked session handled) := by
  have hkept : (exec (step .little []) start (sends (ascii "true") (ascii "false"))).any
      (fun final => final.sessions.any fun session => session.handled.any fun handled =>
        session.delectFile && decide handled.transfer.Whole && !handled.unlinked) = true := by
    decide +kernel
  obtain ⟨final, run, hfinal⟩ := (Option.any_eq_true _ _).mp hkept
  obtain ⟨session, hsession, hany⟩ := List.any_eq_true.mp hfinal
  obtain ⟨handled, hhandled, htest⟩ := List.any_eq_true.mp hany
  simp only [Bool.and_eq_true, decide_eq_true_eq, Bool.not_eq_true'] at htest
  have hasked : Asked session handled := ⟨.inl htest.1.1, htest.1.2⟩
  refine ⟨final, session, handled, run, hsession, hhandled, hasked, ?_⟩
  intro hright
  rw [hright.mpr hasked] at htest
  exact absurd htest.2 (by decide)

theorem unlinks_exactly_queued : ∃ final session handled,
    exec (step .little []) start (sends (ascii "false") (ascii "true")) = some final ∧
      session ∈ final.sessions ∧ handled ∈ session.handled ∧ handled.unlinked = true ∧
      handled.transfer.Whole ∧ (handled.unlinked = true ↔ Asked session handled) := by
  have hgone : (exec (step .little []) start (sends (ascii "false") (ascii "true"))).any
      (fun final => final.sessions.any fun session => session.handled.any fun handled =>
        handled.item.delect && !handled.cancelled && handled.unlinked) = true := by
    decide +kernel
  obtain ⟨final, run, hfinal⟩ := (Option.any_eq_true _ _).mp hgone
  obtain ⟨session, hsession, hany⟩ := List.any_eq_true.mp hfinal
  obtain ⟨handled, hhandled, htest⟩ := List.any_eq_true.mp hany
  simp only [Bool.and_eq_true, Bool.not_eq_true'] at htest
  obtain ⟨hwhole, hexact⟩ := (unlinks_exactly run hsession).2 handled hhandled
  exact ⟨final, session, handled, run, hsession, hhandled, htest.2, hwhole htest.2,
    hexact.mpr (.inr ⟨htest.1.1, htest.1.2⟩)⟩

end UdpFileProxy.Removal
