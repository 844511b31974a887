import UdpFileProxy.Wires
import UdpFileProxy.Lib.Extension

/-! How many calls a sender thread makes before it is through with the files that were
accepted for its app, whatever the other threads do and whichever calls fail. A thread whose
queue is not empty never sleeps over it, and every call of `read` gets it on in its file. -/
namespace UdpFileProxy.Draining
open Lib.LinkedList Lib.Memory Lib.Run Protocol SendList FileThread Config Sending Sessions Wires Removal
open Status (handedOut)
open SendPack (resume)
open Speed (SpeedManger)

/-- The calls that `SendPack_ex` and `file_thread` make before the next `read` or the next
file, where eight calls are set aside for every byte that was read. -/
def rank : SendPack.Pc → Nat
  | .giveBack => 19
  | .query => 18
  | .sendto => 17
  | .sleepFirst | .stat => 16
  | .sleepBatch | .openFile => 15
  | .read => 14
  | .okGiveBack | .errClose => 13
  | .okClose | .errGiveBack => 12
  | .finished _ => 11
  | .dividedByZero => 0

def size (disk : Disk) (item : SendData) : Nat := (disk.content (cstr item.filename)).length

/-- At most so many calls are made for a file. -/
def cost (disk : Disk) (item : SendData) : Nat := 8 * size disk item + 16

def costs (disk : Disk) (items : List SendData) : Nat := (items.map (cost disk)).sum

/-- The calls before the thread takes its next file. -/
def atHand (disk : Disk) (session : Session) : Pc → Nat
  | .socket | .sleep _ => 8
  | .isIdle => 7
  | .isBusy => 6
  | .isCancel => 9
  | .getNext => 5
  | .filename _ =>
      18 + ((session.taken.drop session.handled.length).map fun item => 8 * size disk item).sum
  | .getFileSize _ item => 17 + 8 * size disk item
  | .sendPack _ item sender => rank sender.pc + 8 * (size disk item - session.transfer.got.length)
  | .unlink _ _ => 10
  | .delete _ => 9
  | .close => 1
  | .exited | .cancelled => 0

def callsLeft (disk : Disk) (session : Session) (pc : Pc) : Nat :=
  atHand disk session pc + costs disk (session.accepted.drop session.taken.length)

/-- The thread is through with every file that was accepted. -/
def Drained (session : Session) : Prop := session.handled.map Handled.item = session.accepted

section
variable {order : Endian} {disk : Disk} {session : Session} {sender next : SendPack.State}
  {transfer : Transfer} {reply : SendPack.Reply} {item : SendData} {data : Addr} {pc : Pc}
  {list list' : SendList}

theorem rank_afterRead (sender : SendPack.State) : rank (SendPack.afterRead sender) ≤ 19 := by
  rcases SendPack.afterRead_cases sender with h | ⟨h, -⟩ | ⟨h, -⟩ | h <;> simp [h, rank]

theorem rank_afterSend (sender : SendPack.State) : rank (SendPack.afterSend sender) ≤ 15 := by
  rcases SendPack.afterSend_cases sender with h | h | h <;> simp [h, rank]

theorem rank_resume {length : Nat}
    (hread : ∀ bytes, sender.pc = .read → reply = .data (some bytes) → bytes ≠ [] →
      transfer.got.length < length)
    (hresume : resume sender reply = some next) :
    rank next.pc + 8 * (length - (transfer.answer sender reply).got.length) <
      rank sender.pc + 8 * (length - transfer.got.length) := by
  have hquiet (hpc : sender.pc ≠ .read ∧ sender.pc ≠ .sendto) (hrank : rank next.pc < rank sender.pc) :
      rank next.pc + 8 * (length - (transfer.answer sender reply).got.length) <
        rank sender.pc + 8 * (length - transfer.got.length) := by
    rw [answer_other hpc.1 hpc.2]
    omega
  unfold resume at hresume
  split at hresume
  · -- stat
    rename_i size hpc
    cases hresume
    apply hquiet (by simp [hpc])
    dsimp only
    split <;> simp [hpc, rank]
  · -- openFile
    rename_i fd hpc
    cases hresume
    apply hquiet (by simp [hpc])
    dsimp only
    split <;> simp [hpc, rank]
  · -- a failed read
    rename_i hpc
    cases hresume
    simp [Sessions.Transfer.answer, hpc, rank]
  · -- the end of the file
    rename_i hpc
    cases hresume
    dsimp only
    split <;> simp [Sessions.Transfer.answer, hpc, rank]
  · -- read
    rename_i bytes hnonempty hpc
    split at hresume
    case isFalse => contradiction
    cases hresume
    have hne : bytes ≠ [] := fun hnil => hnonempty (by rw [hnil])
    have hgot : (transfer.answer sender (.data (some bytes))).got = transfer.got ++ bytes := by
      cases bytes with
      | nil => contradiction
      | cons byte rest => simp [Sessions.Transfer.answer, hpc]
    have hpos := List.length_pos_iff.mpr hne
    have hless := hread bytes hpc rfl hne
    have hrank := rank_afterRead (SendPack.packed sender bytes)
    have hrank' : rank sender.pc = 14 := by rw [hpc, rank]
    rw [hgot, List.length_append, hrank']
    dsimp only
    omega
  · -- giveBack
    rename_i hpc
    cases hresume
    exact hquiet (by simp [hpc]) (by simp [hpc, rank])
  · -- query
    rename_i speed hpc
    apply hquiet (by simp [hpc])
    split at hresume <;> cases hresume <;> simp [hpc, rank]
  · -- a failed sendto
    rename_i hpc
    cases hresume
    simp [Sessions.Transfer.answer, hpc, rank]
  · -- sendto
    rename_i hpc
    cases hresume
    have hrank := rank_afterSend sender
    have hgot : (transfer.answer sender (.sent true)).got = transfer.got := by
      simp [Sessions.Transfer.answer, hpc]
    have hrank' : rank sender.pc = 17 := by rw [hpc, rank]
    rw [hgot, hrank']
    dsimp only
    split
    · simp [rank]
    · omega
  · -- sleepFirst
    rename_i hpc
    cases hresume
    have hrank := rank_afterSend sender
    have hrank' : rank sender.pc = 16 := by rw [hpc, rank]
    apply hquiet (by simp [hpc])
    dsimp only
    omega
  · -- sleepBatch
    rename_i hpc
    cases hresume
    exact hquiet (by simp [hpc]) (by simp [hpc, rank])
  · -- okGiveBack
    rename_i hpc
    cases hresume
    exact hquiet (by simp [hpc]) (by simp [hpc, rank])
  · -- okClose
    rename_i hpc
    cases hresume
    exact hquiet (by simp [hpc]) (by simp [hpc, rank])
  · -- errClose
    rename_i hpc
    cases hresume
    apply hquiet (by simp [hpc])
    dsimp only
    split <;> simp [hpc, rank]
  · -- errGiveBack
    rename_i hpc
    cases hresume
    exact hquiet (by simp [hpc]) (by simp [hpc, rank])
  · -- no such reply
    contradiction

theorem rank_answer {manager manager' : SpeedManger} {length : Nat}
    (hread : ∀ bytes, sender.pc = .read → reply = .data (some bytes) → bytes ≠ [] →
      transfer.got.length < length)
    (hanswer : Speed.answer order manager sender reply = some (manager', next)) :
    rank next.pc + 8 * (length - (transfer.answer sender reply).got.length) <
      rank sender.pc + 8 * (length - transfer.got.length) := by
  have hmanager {made : SendPack.Call} {given : SendPack.Reply}
      (hcall : SendPack.call order sender = some made)
      (hmade : made ≠ .read ∧ ∀ msg, made ≠ .sendto msg) (hresume : resume sender given = some next) :
      rank next.pc + 8 * (length - (transfer.answer sender reply).got.length) <
        rank sender.pc + 8 * (length - transfer.got.length) := by
    have hpc : sender.pc ≠ .read ∧ sender.pc ≠ .sendto := by
      constructor <;> intro hpc <;> simp only [SendPack.call, hpc, Option.some.injEq] at hcall
      · exact hmade.1 hcall.symm
      · exact hmade.2 _ hcall.symm
    have hless : rank next.pc + 8 * (length - (transfer.answer sender given).got.length) <
        rank sender.pc + 8 * (length - transfer.got.length) := rank_resume
      (fun _ hpc' => absurd hpc' hpc.1) hresume
    rw [answer_other hpc.1 hpc.2] at hless ⊢
    exact hless
  unfold Speed.answer at hanswer
  split at hanswer
  · contradiction
  · rename_i hcall
    obtain ⟨resumed, hresume, hpair⟩ := Option.map_eq_some_iff.mp hanswer
    cases hpair
    exact hmanager hcall (by simp) hresume
  · rename_i speed hcall
    obtain ⟨resumed, hresume, hpair⟩ := Option.map_eq_some_iff.mp hanswer
    cases hpair
    exact hmanager hcall (by simp) hresume
  · obtain ⟨resumed, hresume, hpair⟩ := Option.map_eq_some_iff.mp hanswer
    cases hpair
    exact rank_resume hread hresume

theorem rank_le (pc : SendPack.Pc) : rank pc ≤ 19 := by
  cases pc <;> simp [rank]

theorem drained_or_busy {thread : Thread} {cells : List (Addr × SendData)}
    (hserves : Status.Serves list thread cells)
    (haccepted : session.accepted = session.taken ++ cells.map Prod.snd)
    (hitems : session.taken = session.handled.map Handled.item ++ working list thread.pc)
    (hnone : working list thread.pc = []) : Drained session ∨ list.stat = sBusy := by
  by_cases hcells : cells = []
  · left
    rw [Drained, haccepted, hitems, hnone, hcells]
    simp
  · exact .inr (hserves.busy.mpr hcells)

/-- A call of the thread lowers what is left, unless nothing is. -/
theorem callsLeft_call {wire : List Sending.Datagram} {manager manager' : SpeedManger} {packT : Int}
    {thread thread' : Thread} {cells : List (Addr × SendData)}
    (hstreams : Streams order disk session.handled session.transfer.got thread.pc wire)
    (hserves : Status.Serves list thread cells)
    (haccepted : session.accepted = session.taken ++ cells.map Prod.snd)
    (hitems : session.taken = session.handled.map Handled.item ++ working list thread.pc)
    (htruth : truthful disk session.transfer.got thread.pc reply = true)
    (called : FileThread.step order manager packT list thread reply = some (manager', list', thread')) :
    Drained session ∨ callsLeft disk (session.observe thread.pc reply list' thread'.pc) thread'.pc <
      callsLeft disk session thread.pc := by
  obtain ⟨-, -, hcalls⟩ := calls_of_step session called
  obtain ⟨hkept, -, htaken⟩ := hcalls.queue
  by_cases hnext : thread.pc = .getNext
  · -- the first file of the queue is taken
    right
    obtain ⟨data, item, rest, next, rfl, hget, -, hitem, -⟩ := hserves.getNext hnext
    simp only [FileThread.step, hnext, hget, Option.map_some, Option.some.injEq, Prod.mk.injEq] at called
    obtain ⟨-, rfl, rfl⟩ := called
    obtain ⟨cell, hcell, hvalue⟩ := Option.map_eq_some_iff.mp hitem
    have hhanded : handedOut next (.filename (some data)) = [item] := by
      simp [handedOut, hcell, hvalue]
    have hhandled : session.taken.length = session.handled.length := by
      rw [hitems, hnext]
      simp [working, handedOut]
    have hbefore : session.accepted.drop session.taken.length = item :: rest.map Prod.snd := by
      rw [haccepted, List.drop_left]
      rfl
    have hafter : session.accepted.drop (session.taken ++ [item]).length = rest.map Prod.snd := by
      have hsplit : session.accepted = session.taken ++ [item] ++ rest.map Prod.snd := by
        simp [haccepted]
      rw [hsplit, List.drop_left]
    have hfront : (session.taken ++ [item]).drop session.handled.length = [item] := by
      rw [← hhandled, List.drop_left]
    simp only [hnext, Session.observe, callsLeft, atHand, hhanded, hbefore, hafter, hfront, costs, cost,
      List.map_cons, List.map_nil, List.sum_cons, List.sum_nil]
    omega
  have hsame : (session.observe thread.pc reply list' thread'.pc).taken = session.taken := by
    rw [htaken, if_neg hnext, List.append_nil]
  suffices hhand : Drained session ∨
      atHand disk (session.observe thread.pc reply list' thread'.pc) thread'.pc <
        atHand disk session thread.pc by
    rw [callsLeft, callsLeft, hkept, hsame]
    exact hhand.imp_right fun hless => Nat.add_lt_add_right hless _
  have hbusy (hnone : working list thread.pc = []) : Drained session ∨ list.stat = sBusy :=
    drained_or_busy hserves haccepted hitems hnone
  unfold FileThread.step at called
  split at called
  · -- socket
    rename_i hpc
    cases called
    right
    rw [hpc]
    split <;> simp [atHand]
  · -- isIdle
    rename_i hpc
    cases called
    refine (hbusy (by simp [hpc, working, handedOut])).imp_right fun hstat => ?_
    simp [hpc, hstat, atHand, sBusy, sIdle]
  · -- isBusy
    rename_i hpc
    cases called
    refine (hbusy (by simp [hpc, working, handedOut])).imp_right fun hstat => ?_
    simp [hpc, hstat, atHand]
  · -- isCancel
    rename_i hpc
    cases called
    refine (hbusy (by simp [hpc, working, handedOut])).imp_right fun hstat => ?_
    simp [hpc, hstat, atHand, sBusy, sCancel]
  · -- sleep
    rename_i hpc
    cases called
    right
    simp [hpc, atHand]
  · -- getNext
    rename_i hpc
    exact absurd hpc hnext
  · -- a null pointer
    contradiction
  · -- filename
    rename_i data hpc
    obtain ⟨cell, hcell, hpair⟩ := Option.map_eq_some_iff.mp called
    cases hpair
    right
    have hworking : working list (.filename (some data)) = [cell.value] := by
      simp [working, handedOut, hcell]
    rw [hpc, hworking] at hitems
    simp [hpc, atHand, hitems]
  · -- getFileSize
    rename_i data item size hpc
    cases called
    right
    rw [hpc]
    dsimp only
    split
    · simp only [atHand]
      omega
    · simp only [Session.observe, reduceCtorEq, if_false, atHand, SendPack.start, rank]
      omega
  · -- sendPack
    rename_i reply _ _ data item sender hpc
    right
    split at called
    · rename_i ret hfinished
      cases called
      have hnow : atHand disk session thread.pc = 11 + 8 * (size disk item - session.transfer.got.length) := by
        rw [hpc, atHand, hfinished, rank]
      rw [hnow]
      dsimp only
      split
      · split
        · simp only [atHand]
          omega
        · simp only [atHand]
          omega
      · simp only [atHand]
        omega
    · rename_i hrunning
      obtain ⟨⟨moved, next⟩, hanswer, hpair⟩ := Option.map_eq_some_iff.mp called
      cases hpair
      rw [hpc] at hstreams htruth ⊢
      have hread : ∀ bytes, sender.pc = .read → reply = .data (some bytes) → bytes ≠ [] →
          session.transfer.got.length < size disk item := by
        rintro bytes hread rfl hne
        obtain ⟨file, hfile, hworks⟩ := hstreams.works data item sender rfl
        have hpath : sender.filePath = cstr item.filename := by
          rw [(hworks (by simp [hread, broken])).filePath]
          exact path_of_file hfile
        simp only [truthful, hread, hpath, decide_eq_true_eq] at htruth
        by_contra hge
        rw [List.drop_of_length_le (not_lt.mp hge), List.take_nil] at htruth
        exact hne htruth
      have hless := rank_answer hread hanswer
      by_cases hopen : sender.pc = .openFile
      · rw [answer_other (by simp [hopen]) (by simp [hopen])] at hless
        simpa only [Session.observe, hopen, atHand] using hless
      · have hobserve : session.observe (.sendPack data item sender) reply list
            (.sendPack data item next) =
              { session with transfer := session.transfer.answer sender reply } := by
          simp only [Session.observe]
        rw [hobserve]
        exact hless
  · -- unlink
    rename_i data item hpc
    cases called
    right
    simp [hpc, atHand]
  · -- delete
    rename_i data hpc
    cases called
    right
    simp [hpc, atHand]
  · -- close
    rename_i hpc
    cases called
    right
    simp [hpc, atHand]
  · -- no such reply
    contradiction

@[simp] theorem costs_append (items later : List SendData) :
    costs disk (items ++ later) = costs disk items + costs disk later := by
  rw [costs, List.map_append, List.sum_append]
  rfl

theorem callsLeft_le {queue : List SendData}
    (hitems : session.taken = session.handled.map Handled.item ++ working list pc)
    (haccepted : session.accepted = session.taken ++ queue) :
    callsLeft disk session pc ≤ costs disk (session.accepted.drop session.handled.length) + 19 := by
  have hfront : session.taken.drop session.handled.length = working list pc := by
    rw [hitems]
    exact List.drop_left' (List.length_map _)
  have hleft : session.accepted.drop session.handled.length = working list pc ++ queue := by
    rw [haccepted, hitems, List.append_assoc]
    exact List.drop_left' (List.length_map _)
  have hqueue : session.accepted.drop session.taken.length = queue := by
    rw [haccepted, List.drop_left]
  suffices hhand : atHand disk session pc ≤ costs disk (working list pc) + 19 by
    rw [callsLeft, hqueue, hleft, costs_append]
    omega
  cases pc with
  | filename found =>
    have hsum : ((working list (.filename found)).map fun item => 8 * size disk item).sum ≤
        costs disk (working list (.filename found)) :=
      List.sum_le_sum fun item _ => Nat.le_add_right _ _
    rw [atHand, hfront]
    omega
  | getFileSize data item =>
    simp only [atHand, working, costs, cost, List.map_singleton, List.sum_singleton]
    omega
  | sendPack data item sender =>
    have hrank := rank_le sender.pc
    simp only [atHand, working, costs, cost, List.map_singleton, List.sum_singleton]
    omega
  | _ =>
    simp only [atHand]
    omega

theorem callsLeft_continues {session' : Session} (h : Continues session session')
    (hsame : session'.accepted = session.accepted) (pc : Pc) :
    callsLeft disk session' pc = callsLeft disk session pc := by
  rw [callsLeft, callsLeft, hsame, h.taken]
  congr 1
  cases pc <;> simp only [atHand, h.taken, h.handled, h.transfer]

theorem callsLeft_cancel (items : List SendData) (unlinked cancelled : Bool) :
    callsLeft disk (session.finish items unlinked cancelled) .cancelled ≤ callsLeft disk session pc := by
  simp only [callsLeft, atHand, Session.finish_taken, Session.finish_accepted, Nat.zero_add]
  exact Nat.le_add_left _ _

theorem observe_handled (session : Session) (pc pc' : Pc) (reply : SendPack.Reply) (list : SendList) :
    session.handled <+: (session.observe pc reply list pc').handled := by
  have hfinish (items : List SendData) (unlinked cancelled : Bool) :
      session.handled <+: (session.finish items unlinked cancelled).handled :=
    List.prefix_append _ _
  unfold Session.observe
  split
  · split <;> exact List.prefix_rfl
  · obtain ⟨passed, hcheck⟩ := session.check_eq pc'
    rw [hcheck]
  · obtain ⟨passed, hcheck⟩ := session.check_eq pc'
    rw [hcheck]
  · obtain ⟨passed, hcheck⟩ := session.check_eq pc'
    rw [hcheck]
  · exact List.prefix_rfl
  · split
    · exact hfinish _ _ _
    · exact List.prefix_rfl
  · split
    · split
      · exact List.prefix_rfl
      · exact hfinish _ _ _
    · exact List.prefix_rfl
    · exact List.prefix_rfl
  · exact hfinish _ _ _
  · exact List.prefix_rfl

end

/-! ### Runs of the client -/

/-- The calls that the thread has left. -/
def left (disk : Disk) (tid : Nat) (state : Wires.State) : Nat :=
  match state.client.client.threads[tid]?, state.client.sessions[tid]? with
  | some thread, some session => callsLeft disk session thread.pc
  | _, _ => 0

/-- The calls of the thread itself. -/
def calls (tid : Nat) : Sessions.Action → Bool
  | .call other _ => other = tid
  | _ => false

/-- What a step means to one thread, of which `lefts` are the calls that are left. -/
structure Advances (session session' : Session) (called : Bool) (left left' : Nat) : Prop where
  accepted : session.accepted <+: session'.accepted
  handled : session.handled <+: session'.handled
  lowers : session'.accepted = session.accepted → ¬Drained session → called.toNat + left' ≤ left

section
variable {order : Endian} {conf : Section} {disk : Disk} {state next : Wires.State} {tid : Nat}
  {thread : Thread} {session : Session} {client' : Sessions.State}

theorem Advances.stay (left : Nat) : Advances session session false left left where
  accepted := List.prefix_rfl
  handled := List.prefix_rfl
  lowers := fun _ _ => by simp

theorem advances_framed (hframed : Framed state.client client')
    (htidy : ∃ nodes, Tidy Settled client' nodes)
    (hthread : state.client.client.threads[tid]? = some thread)
    (hsession : state.client.sessions[tid]? = some session) :
    ∃ thread' session', client'.client.threads[tid]? = some thread' ∧
      client'.sessions[tid]? = some session' ∧
      Advances session session' false (callsLeft disk session thread.pc)
        (callsLeft disk session' thread'.pc) := by
  obtain ⟨nodes, tidy⟩ := htidy
  have hlt := (List.getElem?_eq_some_iff.mp hthread).1
  have hlt' := (List.getElem?_eq_some_iff.mp hsession).1
  have hthread' := List.getElem?_eq_getElem (hlt.trans_le hframed.grows)
  obtain ⟨session', hsession'⟩ := tidy.history hthread'
  refine ⟨_, session', hthread', hsession', ?_⟩
  obtain ⟨old, hold, hpc⟩ | ⟨hge, -⟩ := hframed.threads tid _ hthread'
  case inr => omega
  obtain ⟨past, hpast, hcontinues⟩ | ⟨hge, -⟩ := hframed.sessions tid _ hsession'
  case inr => omega
  cases hold.symm.trans hthread
  cases hpast.symm.trans hsession
  rw [hpc]
  refine ⟨hcontinues.accepted, ?_, fun hsame _ => ?_⟩
  · rw [hcontinues.handled]
  · rw [callsLeft_continues hcontinues hsame, Bool.toNat_false, Nat.zero_add]

theorem advances_focus {threads : List Thread} {sessions : List Session} {other : Nat} {called : Bool}
    {thread' : Thread} {session' : Session} (hthread : threads[tid]? = some thread)
    (hsession : sessions[tid]? = some session)
    (hown : other = tid → Advances session session' called (callsLeft disk session thread.pc)
      (callsLeft disk session' thread'.pc)) (hother : other ≠ tid → called = false) :
    ∃ thread'' session'', (threads.set other thread')[tid]? = some thread'' ∧
      (sessions.set other session')[tid]? = some session'' ∧
      Advances session session'' called (callsLeft disk session thread.pc)
        (callsLeft disk session'' thread''.pc) := by
  by_cases heq : other = tid
  · subst heq
    have hlt := (List.getElem?_eq_some_iff.mp hthread).1
    have hlt' := (List.getElem?_eq_some_iff.mp hsession).1
    exact ⟨thread', session', List.getElem?_set_self hlt, List.getElem?_set_self hlt', hown rfl⟩
  · rw [List.getElem?_set_ne heq, List.getElem?_set_ne heq, hother heq]
    exact ⟨thread, session, hthread, hsession, .stay _⟩

theorem advances_call (h : Inv order disk state) {other : Nat} {reply : SendPack.Reply}
    (htruth : Answers disk state (.call other reply))
    (hstep : Sessions.step order conf state.client (.call other reply) = some client')
    (hthread : state.client.client.threads[tid]? = some thread)
    (hsession : state.client.sessions[tid]? = some session) :
    ∃ thread' session', client'.client.threads[tid]? = some thread' ∧
      client'.sessions[tid]? = some session' ∧
      Advances session session' (calls tid (.call other reply)) (callsLeft disk session thread.pc)
        (callsLeft disk session' thread'.pc) := by
  obtain ⟨nodes, tidy⟩ := h.tidy
  unfold Sessions.step at hstep
  split at hstep
  · contradiction
  obtain ⟨after, hcall, rfl⟩ := Option.map_eq_some_iff.mp hstep
  obtain ⟨caller, app, speed, list, caller', hcaller, -, happ, hcalled, rfl⟩ := stepCall_eq hcall
  obtain ⟨past, hpast⟩ := tidy.history hcaller
  have hinfo := (calls_of_step past hcalled).1
  rw [observed_eq reply list speed hcaller hinfo happ hpast]
  refine advances_focus hthread hsession ?_ (by simp [calls])
  rintro rfl
  cases hcaller.symm.trans hthread
  cases hpast.symm.trans hsession
  obtain ⟨app', happ', hsettled⟩ := tidy.views other thread session hthread hsession
  obtain rfl := Option.some.inj (happ.symm.trans happ')
  obtain ⟨cells, hfed⟩ := hsettled.fed
  have hlt := (List.getElem?_eq_some_iff.mp hthread).1
  rw [← h.wires] at hlt
  have hstreams := h.streams other thread session _ hthread hsession (List.getElem?_eq_getElem hlt)
  have hless := callsLeft_call hstreams hfed.serves hfed.accepted hsettled.items
    (htruth thread hthread session hsession) hcalled
  have hqueue := (calls_of_step session hcalled).2.2.queue
  refine ⟨?_, observe_handled _ _ _ _ _, fun _ hleft => ?_⟩
  · rw [hqueue.1]
  · have hlower := hless.resolve_left hleft
    simp only [calls, decide_true, Bool.toNat_true]
    omega

theorem advances_cancel (h : Inv order disk state) {other : Nat}
    (hstep : Sessions.step order conf state.client (.cancel other) = some client')
    (hthread : state.client.client.threads[tid]? = some thread)
    (hsession : state.client.sessions[tid]? = some session) :
    ∃ thread' session', client'.client.threads[tid]? = some thread' ∧
      client'.sessions[tid]? = some session' ∧
      Advances session session' false (callsLeft disk session thread.pc)
        (callsLeft disk session' thread'.pc) := by
  obtain ⟨nodes, tidy⟩ := h.tidy
  unfold Sessions.step at hstep
  split at hstep
  · contradiction
  obtain ⟨after, hcancel, rfl⟩ := Option.map_eq_some_iff.mp hstep
  obtain ⟨target, htarget, rfl⟩ := Bandwidth.stepCancel_eq hcancel
  obtain ⟨past, hpast⟩ := tidy.history htarget
  obtain ⟨app, happ, -⟩ := tidy.views other target past htarget hpast
  have hinfo : (Registry.infos state.client.client)[other]? = some target.info := by
    rw [infos_getElem?, htarget, Option.map_some]
  have hinterrupted : state.client.interrupted other = state.client.sessions.set other
      (past.finish (working app.listC target.pc) false true) := by
    simp only [Sessions.State.interrupted, htarget, Registry.listOf_eq hinfo happ]
    exact modify_of_getElem? hpast _
  rw [hinterrupted]
  refine advances_focus hthread hsession ?_ (fun _ => rfl)
  rintro rfl
  cases htarget.symm.trans hthread
  cases hpast.symm.trans hsession
  refine ⟨List.prefix_rfl, List.prefix_append _ _, fun _ _ => ?_⟩
  rw [Bool.toNat_false, Nat.zero_add]
  exact callsLeft_cancel _ _ _

theorem advances (h : Inv order disk state) {action : Sessions.Action} (htruth : Answers disk state action)
    (hstep : Wires.step order conf disk state action = some next)
    (hthread : state.client.client.threads[tid]? = some thread)
    (hsession : state.client.sessions[tid]? = some session) :
    ∃ thread' session', next.client.client.threads[tid]? = some thread' ∧
      next.client.sessions[tid]? = some session' ∧
      Advances session session' (calls tid action) (callsLeft disk session thread.pc)
        (callsLeft disk session' thread'.pc) := by
  have htidy := (h.step htruth hstep).tidy
  obtain ⟨client', hclient, rfl⟩ := Option.map_eq_some_iff.mp hstep
  cases action with
  | request world input => exact advances_framed (framed_request hclient) htidy hthread hsession
  | delApp appName opt => exact advances_framed (framed_delApp hclient) htidy hthread hsession
  | call other reply => exact advances_call h htruth hclient hthread hsession
  | cancel other => exact advances_cancel h hclient hthread hsession

theorem handled_accepted (h : Inv order disk state) (hsession : state.client.sessions[tid]? = some session) :
    session.handled.map Handled.item <+: session.accepted := by
  have hlt := (List.getElem?_eq_some_iff.mp hsession).1
  obtain ⟨nodes, tidy⟩ := h.tidy
  rw [tidy.sessions, ← h.wires] at hlt
  obtain ⟨hhandled, htaken, -⟩ := h.streamed hsession (List.getElem?_eq_getElem hlt)
  exact hhandled.trans htaken

/-- Nothing more was accepted, and the thread is through with all; or more was accepted. -/
def Done (tid : Nat) (accepted : List SendData) (state : Wires.State) : Prop :=
  ∃ session, state.client.sessions[tid]? = some session ∧
    (session.accepted ≠ accepted ∨ Drained session)

theorem drained_of_calls {final : Wires.State} {actions : List Sessions.Action} (h : Inv order disk state)
    (truth : Meets (step order conf disk) (Answers disk) state actions)
    (run : exec (step order conf disk) state actions = some final)
    (hthread : state.client.client.threads[tid]? = some thread)
    (hsession : state.client.sessions[tid]? = some session)
    (hcalls : callsLeft disk session thread.pc < actions.countP (calls tid)) :
    Done tid session.accepted final := by
  let known (state : Wires.State) : Prop := Inv order disk state ∧
    ∃ thread later, state.client.client.threads[tid]? = some thread ∧
      state.client.sessions[tid]? = some later ∧ session.accepted <+: later.accepted
  have hpreserved : ∀ state action next, known state → Answers disk state action →
      step order conf disk state action = some next → known next := by
    rintro state action next ⟨hinv, thread, later, hthread, hlater, hprefix⟩ htruth hstep
    obtain ⟨thread', later', hthread', hlater', hadvances⟩ := advances hinv htruth hstep hthread hlater
    exact ⟨hinv.step htruth hstep, thread', later', hthread', hlater', hprefix.trans hadvances.accepted⟩
  have hstays : ∀ state action next, known state → Answers disk state action →
      Done tid session.accepted state → step order conf disk state action = some next →
      Done tid session.accepted next := by
    rintro state action next ⟨hinv, thread, later, hthread, hlater, hprefix⟩ htruth ⟨same, hsame, hdone⟩
      hstep
    cases hlater.symm.trans hsame
    obtain ⟨thread', later', -, hlater', hadvances⟩ := advances hinv htruth hstep hthread hlater
    refine ⟨later', hlater', ?_⟩
    by_cases heq : later'.accepted = session.accepted
    · have hback : later.accepted <+: session.accepted := heq ▸ hadvances.accepted
      have hkept := hprefix.eq_of_length (le_antisymm hprefix.length_le hback.length_le)
      have hdrained : Drained later := hdone.resolve_left (not_not_intro hkept.symm)
      have hgrown := hadvances.handled.map Handled.item
      have hfront := handled_accepted (hinv.step htruth hstep) hlater'
      rw [Drained] at hdrained
      rw [hdrained, ← hkept, ← heq] at hgrown
      exact .inr (hfront.eq_of_length (le_antisymm hfront.length_le hgrown.length_le))
    · exact .inl heq
  have hlowers : ∀ state action next, known state → Answers disk state action →
      ¬Done tid session.accepted state → step order conf disk state action = some next →
      Done tid session.accepted next ∨
        (calls tid action).toNat + left disk tid next ≤ left disk tid state := by
    rintro state action next ⟨hinv, thread, later, hthread, hlater, -⟩ htruth hnot hstep
    obtain ⟨thread', later', hthread', hlater', hadvances⟩ := advances hinv htruth hstep hthread hlater
    have hsame : later.accepted = session.accepted := by
      by_contra hne
      exact hnot ⟨later, hlater, .inl hne⟩
    by_cases heq : later'.accepted = later.accepted
    · have hless := hadvances.lowers heq fun hdrained => hnot ⟨later, hlater, .inr hdrained⟩
      right
      simpa only [left, hthread, hlater, hthread', hlater'] using hless
    · exact .inl ⟨later', hlater', .inl (hsame ▸ heq)⟩
  have hstart : known state := ⟨h, thread, session, hthread, hsession, List.prefix_rfl⟩
  refine (exec_counted hpreserved hstays hlowers hstart truth run).resolve_right ?_
  simp only [left, hthread, hsession]
  omega

/-- A bound on the calls of a thread, however they interleave with everything else: after
eight for every byte of the files that it is not through with, sixteen for each of these
files and nineteen more, it is through with all of them, unless more were accepted. What was
not lost by a failing call is then on its wire. -/
theorem accepted_streamed {middle final : Wires.State} {actions more : List Sessions.Action}
    {session' : Session} {wire : List Sending.Datagram}
    (truth : Meets (step order conf disk) (Answers disk) start actions)
    (run : exec (step order conf disk) start actions = some middle)
    (truth' : Meets (step order conf disk) (Answers disk) middle more)
    (run' : exec (step order conf disk) middle more = some final)
    (hsession : middle.client.sessions[tid]? = some session)
    (hsession' : final.client.sessions[tid]? = some session') (hwire : final.wires[tid]? = some wire)
    (hsame : session'.accepted = session.accepted)
    (hcalls : costs disk (session.accepted.drop session.handled.length) + 19 <
      more.countP (calls tid)) :
    session'.handled.map Handled.item = session'.accepted ∧
      (AllSent disk session'.handled →
        wire = Sending.stream order (disk.files session'.accepted)) := by
  have hinv : Inv order disk middle :=
    exec_invariant (fun _ _ _ h htruth hstep => h.step htruth hstep) inv_start truth run
  have hfinal : Inv order disk final :=
    exec_invariant (fun _ _ _ h htruth hstep => h.step htruth hstep) hinv truth' run'
  obtain ⟨nodes, tidy⟩ := hinv.tidy
  have hlt := (List.getElem?_eq_some_iff.mp hsession).1
  rw [tidy.sessions] at hlt
  have hthread := List.getElem?_eq_getElem hlt
  obtain ⟨app, -, hsettled⟩ := tidy.views tid _ session hthread hsession
  obtain ⟨cells, hfed⟩ := hsettled.fed
  have hleft : callsLeft disk session middle.client.client.threads[tid].pc ≤ _ :=
    callsLeft_le hsettled.items hfed.accepted
  have hdone := drained_of_calls hinv truth' run' hthread hsession (lt_of_le_of_lt hleft hcalls)
  obtain ⟨last, hlast, hdone⟩ := hdone
  cases hlast.symm.trans hsession'
  have hdrained : Drained session' := hdone.resolve_left (not_not_intro hsame)
  refine ⟨hdrained, fun hall => ?_⟩
  obtain ⟨hhandled, htaken, -, hstreamed⟩ := hfinal.streamed hsession' hwire
  have hequal : session'.taken = session'.handled.map Handled.item := by
    refine (hhandled.eq_of_length (le_antisymm hhandled.length_le ?_)).symm
    rw [hdrained]
    exact htaken.length_le
  rw [(hstreamed hall).2 hequal, hequal, hdrained]

end

/-- The app is registered and its file accepted before its thread makes the first call. -/
def accepts : List Sessions.Action := (sends (ascii "false") (ascii "true")).take 2

def finishes : List Sessions.Action :=
  (sends (ascii "false") (ascii "true")).drop 2 ++ List.replicate 30 (Sessions.Action.call 0 .done)

theorem accepted_streamed_oneFile : ∃ middle final session session' wire,
    exec (step .little [] oneFile) start accepts = some middle ∧
      exec (step .little [] oneFile) middle finishes = some final ∧
      middle.client.sessions[0]? = some session ∧ session.handled = [] ∧
      final.client.sessions[0]? = some session' ∧ final.wires[0]? = some wire ∧
      session'.handled.map Handled.item = session'.accepted ∧
      wire = Sending.stream .little (oneFile.files session'.accepted) := by
  have truth : Meets (step .little [] oneFile) (Answers oneFile) start accepts := by decide +kernel
  have hreached : (exec (step .little [] oneFile) start accepts).any (fun middle =>
      decide (Meets (step .little [] oneFile) (Answers oneFile) middle finishes) &&
        (exec (step .little [] oneFile) middle finishes).any fun final =>
        middle.client.sessions[0]?.any fun session => final.client.sessions[0]?.any fun session' =>
        final.wires[0]?.any fun _ =>
          decide (session.handled = []) && decide (session'.accepted = session.accepted) &&
            decide (AllSent oneFile session'.handled) &&
            decide (costs oneFile (session.accepted.drop session.handled.length) + 19 <
              finishes.countP (calls 0))) = true := by decide +kernel
  obtain ⟨middle, run, hmiddle⟩ := (Option.any_eq_true _ _).mp hreached
  simp only [Bool.and_eq_true, decide_eq_true_eq] at hmiddle
  obtain ⟨truth', hmore⟩ := hmiddle
  obtain ⟨final, run', hfinal⟩ := (Option.any_eq_true _ _).mp hmore
  obtain ⟨session, hsession, hsessions⟩ := (Option.any_eq_true _ _).mp hfinal
  obtain ⟨session', hsession', hwires⟩ := (Option.any_eq_true _ _).mp hsessions
  obtain ⟨wire, hwire, htest⟩ := (Option.any_eq_true _ _).mp hwires
  simp only [Bool.and_eq_true, decide_eq_true_eq] at htest
  obtain ⟨⟨⟨hnone, hsame⟩, hall⟩, hcalls⟩ := htest
  have hstreamed := accepted_streamed truth run truth' run' hsession hsession' hwire hsame hcalls
  exact ⟨middle, final, session, session', wire, run, run', hsession, hnone, hsession', hwire,
    hstreamed.1, hstreamed.2 hall⟩

end UdpFileProxy.Draining
