import UdpFileProxy.Names
import UdpFileProxy.Removal
import UdpFileProxy.Transfer

/-! What the sender threads of a running client put on their wires. The system calls
answer from files that do not change, and may fail; a thread then puts on its wire the
packets of its files in the order it took them, and each file whole that it sent whole. -/
namespace UdpFileProxy.Wires
open Lib.Memory Lib.Run Protocol SendList FileThread Config Sending Sessions Names Removal
open Lib.LinkedList (Addr valueAt)
open UdpFileProxy.Transfer (later)
open SendPack (Reply resume)
open Speed (SpeedManger)

/-- What `read` returns of the file at a path; nothing for a path without a file. -/
structure Disk where
  content : Bytes → Bytes
  content_lt : ∀ path, (content path).length < 2 ^ 63

/-- The file that is sent for an item, if there is anything to send. -/
def Disk.file (disk : Disk) (item : SendData) : Option SentFile :=
  if h : (cstr item.filename).length ≤ 255 ∧ disk.content (cstr item.filename) ≠ [] then
    some ⟨cstr item.filename, disk.content (cstr item.filename), h.1,
      fun hzero => by simpa using List.mem_takeWhile_imp hzero, h.2, disk.content_lt _⟩
  else none

def Disk.files (disk : Disk) (items : List SendData) : List SentFile := items.filterMap disk.file

/-- The files that a thread is through with were sent, but for those that are not there. -/
def AllSent (disk : Disk) (handled : List Handled) : Prop :=
  ∀ done ∈ handled, (disk.file done.item).isSome → done.transfer.Whole

instance (disk : Disk) (handled : List Handled) : Decidable (AllSent disk handled) :=
  inferInstanceAs (Decidable (∀ done ∈ handled, (disk.file done.item).isSome → done.transfer.Whole))

/-- `wires` is history: what each thread has handed to the network. -/
structure State where
  client : Sessions.State
  wires : List (List Datagram)

def start : State where
  client := Sessions.start
  wires := []

/-- The number of the file that comes after those that the thread is through with. -/
def Disk.index (disk : Disk) (handled : List Handled) : Nat :=
  (disk.files (handled.map Handled.item)).length

/-- The datagram that a call of `SendPack_ex` hands to the network. -/
def sentOf (order : Endian) (index : Nat) (sender : SendPack.State) (reply : Reply) : List Datagram :=
  match SendPack.call order sender, reply with
  | some (.sendto msg), .sent true => [⟨⟨index, sender.packNu.toNat⟩, msg⟩]
  | _, _ => []

def sentBy (order : Endian) (disk : Disk) (handled : List Handled) (pc : Pc) (reply : Reply) :
    List Datagram :=
  match pc with
  | .sendPack _ _ sender => sentOf order (disk.index handled) sender reply
  | _ => []

def State.transmitted (order : Endian) (disk : Disk) (state : State) (tid : Nat) (reply : Reply) :
    List Datagram :=
  match state.client.client.threads[tid]?, state.client.sessions[tid]? with
  | some thread, some session => sentBy order disk session.handled thread.pc reply
  | _, _ => []

/-- Only a call of a thread transmits. A thread that has just been made has an empty wire. -/
def step (order : Endian) (conf : Section) (disk : Disk) (state : State) (action : Action) :
    Option State :=
  (Sessions.step order conf state.client action).map fun next =>
    let wires :=
      match action with
      | .call tid reply => state.wires.modify tid (· ++ state.transmitted order disk tid reply)
      | _ => state.wires
    ⟨next, wires ++ List.replicate (next.client.threads.length - wires.length) []⟩

/-- `stat` and `read` answer from the disk, unless they fail. -/
def truthful (disk : Disk) (got : Bytes) : Pc → Reply → Bool
  | .getFileSize _ item, .size size =>
      size = -1 ∨ size = (disk.content (cstr item.filename)).length
  | .sendPack _ _ sender, reply =>
      match sender.pc, reply with
      | .stat, .size size => size = -1 ∨ size = (disk.content sender.filePath).length
      | .read, .data (some bytes) =>
          bytes = ((disk.content sender.filePath).drop got.length).take maxline
      | _, _ => true
  | _, _ => true

def Answers (disk : Disk) (state : State) : Action → Prop
  | .call tid reply =>
      ∀ thread ∈ state.client.client.threads[tid]?, ∀ session ∈ state.client.sessions[tid]?,
        truthful disk session.transfer.got thread.pc reply = true
  | _ => True

instance decidableAnswers (disk : Disk) (state : State) :
    ∀ action, Decidable (Answers disk state action)
  | .request _ _ => inferInstanceAs (Decidable True)
  | .delApp _ _ => inferInstanceAs (Decidable True)
  | .call tid reply => inferInstanceAs (Decidable
      (∀ thread ∈ state.client.client.threads[tid]?, ∀ session ∈ state.client.sessions[tid]?,
        truthful disk session.transfer.got thread.pc reply = true))
  | .cancel _ => inferInstanceAs (Decidable True)

/-! ### One file -/

/-- `SendPack_ex` can no longer send the rest of the file. -/
def broken : SendPack.Pc → Bool
  | .errClose | .errGiveBack | .dividedByZero => true
  | .finished ret => ret ≠ 0
  | _ => false

/-- `SendPack_ex` at work on a file of which `got` was read. -/
structure Works (file : SentFile) (sender : SendPack.State) (got : Bytes) : Prop where
  filePath : sender.filePath = file.path
  packNu : 0 ≤ sender.packNu
  fileSize : sender.pc = .stat ∨ sender.fileSize = file.content.length
  done : sender.pc ∈ [.okGiveBack, .okClose, .finished 0] → file.content.drop got.length = []

/-- What `SendPack_ex` has yet to send of the file. -/
def remaining (order : Endian) (file : SentFile) (index : Nat) (sender : SendPack.State)
    (got : Bytes) : List Datagram :=
  if broken sender.pc then [] else later order file index sender (file.content.drop got.length)

section
variable {order : Endian} {file : SentFile} {index : Nat} {sender next : SendPack.State}
  {transfer : Transfer} {reply : Reply}

theorem works_start (packT : Int) (got : Bytes) :
    Works file (SendPack.start file.path packT) got where
  filePath := rfl
  packNu := le_refl 0
  fileSize := .inl rfl
  done := by simp [SendPack.start]

theorem Works.moved {got : Bytes} (h : Works file sender got) (hpc : sender.pc ≠ .stat)
    (hkept : next = { sender with pc := next.pc, waitT := next.waitT, queryed := next.queryed })
    (done : next.pc ∈ [.okGiveBack, .okClose, .finished 0] → file.content.drop got.length = []) :
    Works file next got := by
  refine ⟨?_, ?_, .inr ?_, done⟩
  · rw [hkept]
    exact h.filePath
  · rw [hkept]
    exact h.packNu
  · rw [hkept]
    exact h.fileSize.resolve_left hpc

/-- One call either breaks the transfer off, or what was left to send is what it sent and
what is left now. -/
structure Progress (order : Endian) (file : SentFile) (index : Nat) (sender next : SendPack.State)
    (got got' : Bytes) (sent : List Datagram) : Prop where
  works : broken next.pc = false → Works file next got'
  sends : broken next.pc = false →
    remaining order file index sender got = sent ++ remaining order file index next got'
  breaks : sent <+: remaining order file index sender got

theorem Progress.of_sends {got got' : Bytes} {sent : List Datagram} (works : Works file next got')
    (sends : remaining order file index sender got = sent ++ remaining order file index next got') :
    Progress order file index sender next got got' sent :=
  ⟨fun _ => works, fun _ => sends, ⟨_, sends.symm⟩⟩

theorem Progress.of_broken {got got' : Bytes} (hbroken : broken next.pc = true) :
    Progress order file index sender next got got' [] := by
  have hnot : broken next.pc ≠ false := by simp [hbroken]
  exact ⟨fun hgood => absurd hgood hnot, fun hgood => absurd hgood hnot, List.nil_prefix⟩

theorem remaining_eq (hgood : broken sender.pc = false) (got : Bytes) :
    remaining order file index sender got =
      later order file index sender (file.content.drop got.length) := by
  rw [remaining, if_neg (by simp [hgood])]

theorem Works.quiet {got : Bytes} (h : Works file sender got) (hpc : sender.pc ≠ .stat)
    (hgood : broken sender.pc = false)
    (hkept : next = { sender with pc := next.pc, waitT := next.waitT, queryed := next.queryed })
    (done : next.pc ∈ [.okGiveBack, .okClose, .finished 0] → file.content.drop got.length = [])
    (hlater : broken next.pc = false →
      later order file index sender (file.content.drop got.length) =
        later order file index next (file.content.drop got.length)) :
    Progress order file index sender next got got [] := by
  cases hbroken : broken next.pc with
  | true => exact .of_broken hbroken
  | false =>
    refine .of_sends (h.moved hpc hkept done) ?_
    rw [remaining_eq hgood, remaining_eq hbroken, hlater hbroken]
    rfl

theorem progress_read {got bytes : Bytes} (h : Works file sender got) (hpc : sender.pc = .read)
    (hbytes : bytes = (file.content.drop got.length).take maxline) (hne : bytes ≠ []) :
    Progress order file index sender
      { SendPack.packed sender bytes with pc := SendPack.afterRead (SendPack.packed sender bytes) }
      got (got ++ bytes) [] := by
  have hleft : file.content.drop got.length ≠ [] := by
    rintro hnil
    rw [hnil] at hbytes
    exact hne hbytes
  have hrest : file.content.drop (got ++ bytes).length =
      (file.content.drop got.length).drop maxline := by
    rw [List.length_append, hbytes, List.length_take, ← List.drop_drop]
    rcases le_total maxline (file.content.drop got.length).length with hle | hle
    · rw [min_eq_left hle]
    · rw [min_eq_right hle, List.drop_length, List.drop_of_length_le hle]
  have hsize : sender.fileSize = file.content.length := h.fileSize.resolve_left (by simp [hpc])
  have hcount := h.packNu
  have hnext : (sender.packNu + 1).toNat = sender.packNu.toNat + 1 := by omega
  have hcast : ((sender.packNu.toNat + 1 : Nat) : Int) = sender.packNu + 1 := by omega
  have hworks (hdone : SendPack.afterRead (SendPack.packed sender bytes) ∉
      [.okGiveBack, .okClose, .finished 0]) : Works file
      { SendPack.packed sender bytes with pc := SendPack.afterRead (SendPack.packed sender bytes) }
      (got ++ bytes) :=
    ⟨h.filePath, Int.le_trans hcount (Int.le_add_one (le_refl _)), .inr hsize,
      fun hmem => absurd hmem hdone⟩
  have hgood : broken sender.pc = false := by simp [hpc, broken]
  rcases SendPack.afterRead_cases (SendPack.packed sender bytes) with hto | ⟨hto, -⟩ | ⟨hto, -⟩ | hto
  · exact .of_broken (by simp [hto, broken])
  all_goals
    have hafter : broken (SendPack.afterRead (SendPack.packed sender bytes)) = false := by
      simp [hto, broken]
    refine .of_sends (hworks (by simp [hto])) ?_
    rw [remaining_eq hgood, remaining_eq hafter, hrest]
    simp only [later, hpc, hto, chunks_of_ne hleft, ← hbytes, packetsFrom, List.nil_append]
    simp only [SendPack.packed, SendPack.message, hnext, hcast, hsize, h.filePath]

theorem progress_sendto {got : Bytes} (h : Works file sender got) (hpc : sender.pc = .sendto)
    {pc : SendPack.Pc} (hto : pc = .sleepFirst ∨ pc = SendPack.afterSend sender) :
    Progress order file index sender { sender with pc := pc } got got
      (sentOf order index sender (.sent true)) := by
  have hgood : broken sender.pc = false := by simp [hpc, broken]
  have hsent : sentOf order index sender (.sent true) =
      [⟨⟨index, sender.packNu.toNat⟩, SendPack.message order sender⟩] := by
    simp [sentOf, SendPack.call, hpc]
  have hcases : pc = .sleepFirst ∨ pc = .dividedByZero ∨ pc = .sleepBatch ∨ pc = .read := by
    rcases hto with rfl | rfl
    · exact .inl rfl
    · exact .inr (SendPack.afterSend_cases sender)
  have hsends (hother : pc ≠ .dividedByZero) : remaining order file index sender got =
      [⟨⟨index, sender.packNu.toNat⟩, SendPack.message order sender⟩] ++
        remaining order file index { sender with pc := pc } got := by
    rcases hcases with rfl | rfl | rfl | rfl
    · rw [remaining_eq hgood, remaining_eq rfl]
      simp [later, hpc]
    · contradiction
    · rw [remaining_eq hgood, remaining_eq rfl]
      simp [later, hpc]
    · rw [remaining_eq hgood, remaining_eq rfl]
      simp [later, hpc]
  rw [hsent]
  refine ⟨fun hbroken => ?_, fun hbroken => hsends ?_, ?_⟩
  · refine h.moved (by simp [hpc]) rfl ?_
    rcases hcases with rfl | rfl | rfl | rfl <;> simp
  · rintro rfl
    contradiction
  · rw [remaining_eq hgood]
    simp only [later, hpc]
    exact ⟨_, rfl⟩

theorem quiet_of_ne (order : Endian) (index : Nat) (transfer : Transfer) (hread : sender.pc ≠ .read)
    (hsendto : sender.pc ≠ .sendto) (reply : Reply) : (transfer.answer sender reply).got = transfer.got ∧ sentOf order index sender reply = [] := by
  rw [answer_other hread hsendto]
  refine ⟨rfl, ?_⟩
  unfold sentOf
  split
  · rename_i msg hcall
    unfold SendPack.call at hcall
    split at hcall <;> simp_all
  · rfl

theorem progress_resume (h : Works file sender transfer.got) (hgood : broken sender.pc = false)
    (hsize : ∀ size, sender.pc = .stat → reply = .size size →
      size = -1 ∨ size = file.content.length)
    (hread : ∀ bytes, sender.pc = .read → reply = .data (some bytes) →
      bytes = (file.content.drop transfer.got.length).take maxline)
    (hresume : resume sender reply = some next) :
    Progress order file index sender next transfer.got (transfer.answer sender reply).got
      (sentOf order index sender reply) := by
  have hquiet (hpc : sender.pc ≠ .read ∧ sender.pc ≠ .sendto) :
      (transfer.answer sender reply).got = transfer.got ∧ sentOf order index sender reply = [] :=
    quiet_of_ne order index transfer hpc.1 hpc.2 reply
  unfold resume at hresume
  split at hresume
  · -- stat
    rename_i size hpc
    cases hresume
    obtain ⟨hgot, hsent⟩ := hquiet (by simp [hpc])
    rw [hgot, hsent]
    rcases hsize size hpc rfl with rfl | rfl
    · exact .of_broken (by simp [broken])
    · have hnonneg : ¬(file.content.length : Int) < 0 := by omega
      rw [if_neg hnonneg]
      refine .of_sends ⟨h.filePath, h.packNu, .inr rfl, by simp⟩ ?_
      rw [remaining_eq hgood, remaining_eq rfl]
      simp [later, hpc]
  · -- openFile
    rename_i fd hpc
    cases hresume
    obtain ⟨hgot, hsent⟩ := hquiet (by simp [hpc])
    rw [hgot, hsent]
    refine h.quiet (by simp [hpc]) hgood rfl ?_ ?_
    · split <;> simp
    · split
      · simp [broken]
      · intro _
        simp [later, hpc]
  · -- a failed read
    rename_i hpc
    cases hresume
    have hsent : sentOf order index sender (.data none) = [] := by simp [sentOf, SendPack.call, hpc]
    rw [hsent]
    exact .of_broken rfl
  · -- the end of the file
    rename_i hpc
    cases hresume
    have hsent : sentOf order index sender (.data (some [])) = [] := by
      simp [sentOf, SendPack.call, hpc]
    have hgot : (transfer.answer sender (.data (some []))).got = transfer.got := by
      simp [Sessions.Transfer.answer, hpc]
    have hend : file.content.drop transfer.got.length = [] := by
      have htake := (hread [] hpc rfl).symm
      simpa [maxline] using htake
    rw [hsent, hgot]
    refine h.quiet (by simp [hpc]) hgood rfl (fun _ => hend) ?_
    split <;> simp [later, hpc]
  · -- read
    rename_i bytes hnonempty hpc
    split at hresume
    case isFalse => contradiction
    cases hresume
    have hne : bytes ≠ [] := fun hnil => hnonempty (by rw [hnil])
    have hsent : sentOf order index sender (.data (some bytes)) = [] := by
      simp [sentOf, SendPack.call, hpc]
    have hgot : (transfer.answer sender (.data (some bytes))).got = transfer.got ++ bytes := by
      cases bytes with
      | nil => contradiction
      | cons byte rest => simp [Sessions.Transfer.answer, hpc]
    rw [hsent, hgot]
    exact progress_read h hpc (hread bytes hpc rfl) hne
  · -- giveBack
    rename_i hpc
    cases hresume
    obtain ⟨hgot, hsent⟩ := hquiet (by simp [hpc])
    rw [hgot, hsent]
    exact h.quiet (by simp [hpc]) hgood rfl (by simp) (by simp [later, hpc, SendPack.message])
  · -- query
    rename_i speed hpc
    obtain ⟨hgot, hsent⟩ := hquiet (by simp [hpc])
    rw [hgot, hsent]
    split at hresume
    · cases hresume
      exact .of_broken rfl
    · cases hresume
      exact h.quiet (by simp [hpc]) hgood rfl (by simp) (by simp [later, hpc, SendPack.message])
  · -- a failed sendto
    rename_i hpc
    cases hresume
    have hsent : sentOf order index sender (.sent false) = [] := by
      simp [sentOf, SendPack.call, hpc]
    rw [hsent]
    exact .of_broken rfl
  · -- sendto
    rename_i hpc
    cases hresume
    have hgot : (transfer.answer sender (.sent true)).got = transfer.got := by
      simp [Sessions.Transfer.answer, hpc]
    rw [hgot]
    refine progress_sendto h hpc ?_
    split <;> simp
  · -- sleepFirst
    rename_i hpc
    cases hresume
    obtain ⟨hgot, hsent⟩ := hquiet (by simp [hpc])
    rw [hgot, hsent]
    rcases SendPack.afterSend_cases sender with hto | hto | hto <;> rw [hto]
    · exact .of_broken rfl
    · exact h.quiet (by simp [hpc]) hgood rfl (by simp) (by simp [later, hpc])
    · exact h.quiet (by simp [hpc]) hgood rfl (by simp) (by simp [later, hpc])
  · -- sleepBatch
    rename_i hpc
    cases hresume
    obtain ⟨hgot, hsent⟩ := hquiet (by simp [hpc])
    rw [hgot, hsent]
    exact h.quiet (by simp [hpc]) hgood rfl (by simp) (by simp [later, hpc])
  · -- okGiveBack
    rename_i hpc
    cases hresume
    obtain ⟨hgot, hsent⟩ := hquiet (by simp [hpc])
    rw [hgot, hsent]
    exact h.quiet (by simp [hpc]) hgood rfl (fun _ => h.done (by simp [hpc])) (by simp [later, hpc])
  · -- okClose
    rename_i hpc
    cases hresume
    obtain ⟨hgot, hsent⟩ := hquiet (by simp [hpc])
    rw [hgot, hsent]
    exact h.quiet (by simp [hpc]) hgood rfl (fun _ => h.done (by simp [hpc])) (by simp [later, hpc])
  · -- errClose
    rename_i hpc
    rw [hpc] at hgood
    contradiction
  · -- errGiveBack
    rename_i hpc
    rw [hpc] at hgood
    contradiction
  · -- no such reply
    contradiction

theorem progress_answer {manager manager' : SpeedManger} (h : Works file sender transfer.got)
    (hgood : broken sender.pc = false)
    (hsize : ∀ size, sender.pc = .stat → reply = .size size →
      size = -1 ∨ size = file.content.length)
    (hread : ∀ bytes, sender.pc = .read → reply = .data (some bytes) →
      bytes = (file.content.drop transfer.got.length).take maxline)
    (hanswer : Speed.answer order manager sender reply = some (manager', next)) :
    Progress order file index sender next transfer.got (transfer.answer sender reply).got
      (sentOf order index sender reply) := by
  have hmanager {made : SendPack.Call} {given : Reply} (hcall : SendPack.call order sender = some made)
      (hmade : made ≠ .read ∧ ∀ msg, made ≠ .sendto msg) (hstat : sender.pc ≠ .stat)
      (hresume : resume sender given = some next) :
      Progress order file index sender next transfer.got (transfer.answer sender reply).got
        (sentOf order index sender reply) := by
    have hpc : sender.pc ≠ .read ∧ sender.pc ≠ .sendto := by
      constructor <;> intro hpc <;> simp only [SendPack.call, hpc, Option.some.injEq] at hcall
      · exact hmade.1 hcall.symm
      · exact hmade.2 _ hcall.symm
    have hprogress : Progress order file index sender next transfer.got
        (transfer.answer sender given).got (sentOf order index sender given) :=
      progress_resume h hgood (fun _ hstat' => absurd hstat' hstat)
        (fun _ hpc' => absurd hpc' hpc.1) hresume
    obtain ⟨hgot, hsent⟩ := quiet_of_ne order index transfer hpc.1 hpc.2 given
    obtain ⟨hgot', hsent'⟩ := quiet_of_ne order index transfer hpc.1 hpc.2 reply
    rw [hgot, hsent] at hprogress
    rw [hgot', hsent']
    exact hprogress
  unfold Speed.answer at hanswer
  split at hanswer
  · contradiction
  · rename_i hcall
    obtain ⟨resumed, hresume, hpair⟩ := Option.map_eq_some_iff.mp hanswer
    cases hpair
    exact hmanager hcall (by simp) (by simp [Speed.call_query hcall]) hresume
  · rename_i speed hcall
    obtain ⟨resumed, hresume, hpair⟩ := Option.map_eq_some_iff.mp hanswer
    cases hpair
    have hstat : sender.pc ≠ .stat := by
      intro hpc
      simp [SendPack.call, hpc] at hcall
    exact hmanager hcall (by simp) hstat hresume
  · obtain ⟨resumed, hresume, hpair⟩ := Option.map_eq_some_iff.mp hanswer
    cases hpair
    exact progress_resume h hgood hsize hread hresume

end

/-! ### One thread -/

/-- The file that the thread has begun to work on. -/
def begun : Pc → List SendData
  | .getFileSize _ item | .sendPack _ item _ | .unlink _ item => [item]
  | _ => []

/-- What the thread has yet to send of it. -/
def rest (order : Endian) (disk : Disk) (handled : List Handled) (got : Bytes) : Pc → List Datagram
  | .getFileSize _ item => (disk.file item).elim [] (packets order (disk.index handled))
  | .sendPack _ item sender => (disk.file item).elim [] fun file =>
      remaining order file (disk.index handled) sender got
  | _ => []

/-- No transfer has broken off at the moment. -/
def Unbroken (pc : Pc) : Prop :=
  ∀ data item sender, pc = .sendPack data item sender → broken sender.pc = false

/-- What is on the wire, with what is left of the file that the thread is at, against the
packets of all files up to that one. -/
structure Streams (order : Endian) (disk : Disk) (handled : List Handled) (got : Bytes) (pc : Pc)
    (wire : List Datagram) : Prop where
  works : ∀ data item sender, pc = .sendPack data item sender → ∃ file, disk.file item = some file ∧
    (broken sender.pc = false → Works file sender got)
  sublist : (wire ++ rest order disk handled got pc).Sublist
    (stream order (disk.files (handled.map Handled.item ++ begun pc)))
  front : AllSent disk handled → wire ++ rest order disk handled got pc <+:
    stream order (disk.files (handled.map Handled.item ++ begun pc))
  whole : AllSent disk handled → Unbroken pc → wire ++ rest order disk handled got pc =
    stream order (disk.files (handled.map Handled.item ++ begun pc))

section
variable {order : Endian} {disk : Disk} {handled : List Handled} {got got' : Bytes} {pc pc' : Pc}
  {wire : List Datagram} {item : SendData} {data : Addr} {transfer : Transfer}

theorem streams_nil (got : Bytes) : Streams order disk [] got .socket [] where
  works := by simp
  sublist := List.Sublist.refl _
  front := fun _ => List.prefix_rfl
  whole := fun _ _ => rfl

@[simp] theorem streamFrom_append (order : Endian) (index : Nat) (files later : List SentFile) :
    streamFrom order index (files ++ later) =
      streamFrom order index files ++ streamFrom order (index + files.length) later := by
  induction files generalizing index with
  | nil => rfl
  | cons first files ih =>
    have hindex : index + (files.length + 1) = index + 1 + files.length := by omega
    rw [List.cons_append, streamFrom, streamFrom, ih, List.append_assoc, List.length_cons, hindex]

@[simp] theorem stream_append (order : Endian) (files later : List SentFile) :
    stream order (files ++ later) = stream order files ++ streamFrom order files.length later := by
  rw [stream, streamFrom_append, Nat.zero_add]
  rfl

@[simp] theorem files_append (items : List SendData) (item : SendData) :
    disk.files (items ++ [item]) = disk.files items ++ (disk.file item).toList := by
  unfold Disk.files
  rw [List.filterMap_append]
  cases hfile : disk.file item <;> simp [hfile]

/-- The thread is at no file. -/
def Away (pc : Pc) : Prop :=
  ∀ data item, pc ≠ .getFileSize data item ∧ pc ≠ .unlink data item ∧
    ∀ sender, pc ≠ .sendPack data item sender

theorem Away.begun (h : Away pc) : begun pc = [] := by
  unfold Wires.begun
  split
  · exact absurd rfl (h _ _).1
  · exact absurd rfl ((h _ _).2.2 _)
  · exact absurd rfl (h _ _).2.1
  · rfl

theorem Away.rest (h : Away pc) : rest order disk handled got pc = [] := by
  unfold Wires.rest
  split
  · exact absurd rfl (h _ _).1
  · exact absurd rfl ((h _ _).2.2 _)
  · rfl

theorem Away.unbroken (h : Away pc) : Unbroken pc := by
  rintro data item sender rfl
  exact absurd rfl ((h data item).2.2 sender)

theorem Away.streams (h : Away pc)
    (hsub : wire.Sublist (stream order (disk.files (handled.map Handled.item))))
    (hwhole : AllSent disk handled → wire = stream order (disk.files (handled.map Handled.item))) :
    Streams order disk handled got pc wire := by
  refine ⟨fun data item sender hpc => absurd hpc ((h data item).2.2 sender), ?_, ?_, ?_⟩
  · rw [h.rest, h.begun, List.append_nil, List.append_nil]
    exact hsub
  · intro hall
    rw [h.rest, h.begun, List.append_nil, List.append_nil, hwhole hall]
  · intro hall _
    rw [h.rest, h.begun, List.append_nil, List.append_nil, hwhole hall]

theorem Streams.away (h : Streams order disk handled got pc wire) (hpc : Away pc) (hpc' : Away pc') :
    Streams order disk handled got' pc' wire := by
  have hsub := h.sublist
  rw [hpc.rest, hpc.begun, List.append_nil, List.append_nil] at hsub
  refine hpc'.streams hsub fun hall => ?_
  have hwhole := h.whole hall hpc.unbroken
  rwa [hpc.rest, hpc.begun, List.append_nil, List.append_nil] at hwhole

theorem Streams.begin (h : Streams order disk handled got pc wire) (hpc : Away pc) (got' : Bytes)
    (data : Addr) (item : SendData) : Streams order disk handled got' (.getFileSize data item) wire := by
  have hfiles : stream order (disk.files (handled.map Handled.item ++ [item])) =
      stream order (disk.files (handled.map Handled.item)) ++
        rest order disk handled got' (.getFileSize data item) := by
    cases hfile : disk.file item with
    | none => simp [rest, hfile]
    | some file => simp [rest, hfile, Disk.index, streamFrom]
  have hsub := h.sublist
  rw [hpc.rest, hpc.begun, List.append_nil, List.append_nil] at hsub
  have hwhole (hall : AllSent disk handled) :
      wire = stream order (disk.files (handled.map Handled.item)) := by
    have hwhole := h.whole hall hpc.unbroken
    rwa [hpc.rest, hpc.begun, List.append_nil, List.append_nil] at hwhole
  refine ⟨by simp, ?_, ?_, ?_⟩
  · rw [begun, hfiles]
    exact hsub.append (List.Sublist.refl _)
  · intro hall
    rw [begun, hfiles, hwhole hall]
  · intro hall _
    rw [begun, hfiles, hwhole hall]

theorem Streams.finish (h : Streams order disk handled got pc wire) (transfer : Transfer)
    (hitem : begun pc = [item]) (hpc' : Away pc') {unlinked cancelled : Bool}
    (hsent : ((disk.file item).isSome → transfer.Whole) →
      Unbroken pc ∧ rest order disk handled got pc = []) :
    Streams order disk (handled ++ [⟨item, transfer, unlinked, cancelled⟩]) got' pc' wire := by
  have hitems : (handled ++ [Handled.mk item transfer unlinked cancelled]).map Handled.item =
      handled.map Handled.item ++ begun pc := by rw [List.map_append, hitem, List.map_singleton]
  apply hpc'.streams
  · rw [hitems]
    exact (List.sublist_append_left wire _).trans h.sublist
  · intro hall
    have hbefore : AllSent disk handled := fun done hdone => hall done (List.mem_append_left _ hdone)
    obtain ⟨hunbroken, hnone⟩ := hsent (hall ⟨item, transfer, unlinked, cancelled⟩ (by simp))
    have hwhole := h.whole hbefore hunbroken
    rw [hnone, List.append_nil] at hwhole
    rw [hitems, hwhole]

theorem Streams.sent {sender : SendPack.State}
    (h : Streams order disk handled transfer.got (.sendPack data item sender) wire)
    (hcarries : Carries transfer sender) (hdefined : sender.pc ≠ .dividedByZero)
    (hsent : (disk.file item).isSome → transfer.Whole) :
    Unbroken (.sendPack data item sender) ∧
      rest order disk handled transfer.got (.sendPack data item sender) = [] := by
  obtain ⟨file, hfile, hworks⟩ := h.works data item sender rfl
  have hwhole := hsent (by simp [hfile])
  have hpc : sender.pc ∈ [.okGiveBack, .okClose, .finished 0] := by
    cases hpc : sender.pc with
    | okGiveBack | okClose => simp
    | finished ret =>
      simp only [Carries, hpc] at hcarries
      simp [hcarries.mp hwhole]
    | dividedByZero => exact absurd hpc hdefined
    | stat | openFile =>
      simp only [Carries, hpc] at hcarries
      rw [hcarries] at hwhole
      exact absurd hwhole not_whole_new
    | errClose | errGiveBack =>
      simp only [Carries, hpc] at hcarries
      exact absurd hwhole hcarries
    | _ =>
      simp only [Carries, hpc] at hcarries
      exact absurd hwhole (not_whole hcarries.2)
  have hgood : broken sender.pc = false := by
    simp only [List.mem_cons, List.not_mem_nil, or_false] at hpc
    rcases hpc with hpc | hpc | hpc <;> simp [hpc, broken]
  refine ⟨?_, ?_⟩
  · rintro data' item' sender' heq
    cases heq
    exact hgood
  · have hnone := (hworks hgood).done hpc
    simp only [rest, hfile, Option.elim_some, remaining_eq hgood, hnone]
    simp only [List.mem_cons, List.not_mem_nil, or_false] at hpc
    rcases hpc with hpc | hpc | hpc <;> simp [later, hpc, packetsFrom]

theorem path_of_file {file : SentFile} (hfile : disk.file item = some file) :
    file.path = cstr item.filename := by
  unfold Disk.file at hfile
  split at hfile
  · cases hfile
    rfl
  · contradiction

theorem content_of_file {file : SentFile} (hfile : disk.file item = some file) :
    file.content = disk.content file.path := by
  unfold Disk.file at hfile
  split at hfile
  · cases hfile
    rfl
  · contradiction

theorem Streams.start (h : Streams order disk handled [] (.getFileSize data item) wire)
    (hfile : (disk.file item).isSome) (packT : Int) :
    Streams order disk handled [] (.sendPack data item (SendPack.start (cstr item.filename) packT))
      wire := by
  obtain ⟨file, hfile⟩ := Option.isSome_iff_exists.mp hfile
  have hrest : rest order disk handled [] (.getFileSize data item) = rest order disk handled []
      (.sendPack data item (SendPack.start (cstr item.filename) packT)) := by
    simp only [rest, hfile, Option.elim_some]
    rfl
  refine ⟨?_, ?_, ?_, ?_⟩
  · rintro data' item' sender' heq
    cases heq
    refine ⟨file, hfile, fun _ => ?_⟩
    rw [← path_of_file hfile]
    exact works_start packT []
  · rw [← hrest]
    exact h.sublist
  · rw [← hrest]
    exact h.front
  · rw [← hrest]
    exact fun hall _ => h.whole hall fun _ _ _ => by simp

theorem Streams.advance {sender next : SendPack.State} {sent : List Datagram}
    (h : Streams order disk handled got (.sendPack data item sender) wire)
    (hprogress : ∀ file, disk.file item = some file → broken sender.pc = false →
      Progress order file (disk.index handled) sender next got got' sent)
    (hbroken : broken sender.pc = true → broken next.pc = true ∧ sent = []) :
    Streams order disk handled got' (.sendPack data item next) (wire ++ sent) := by
  obtain ⟨file, hfile, -⟩ := h.works data item sender rfl
  have hbefore : rest order disk handled got (.sendPack data item sender) =
      remaining order file (disk.index handled) sender got := by
    simp only [rest, hfile, Option.elim_some]
  have hafter : rest order disk handled got' (.sendPack data item next) =
      remaining order file (disk.index handled) next got' := by
    simp only [rest, hfile, Option.elim_some]
  have hkept : broken next.pc = false → broken sender.pc = false := by
    intro hgood
    by_contra hnot
    rw [(hbroken (by simpa using hnot)).1] at hgood
    contradiction
  have hprefix : wire ++ sent ++ rest order disk handled got' (.sendPack data item next) <+:
      wire ++ rest order disk handled got (.sendPack data item sender) := by
    rw [hbefore, hafter, List.append_assoc, List.prefix_append_right_inj]
    cases hnext : broken next.pc with
    | false =>
      rw [← (hprogress file hfile (hkept hnext)).sends hnext]
    | true =>
      have hnone : remaining order file (disk.index handled) next got' = [] := by
        rw [remaining, if_pos hnext]
      rw [hnone, List.append_nil]
      cases hsender : broken sender.pc with
      | false => exact (hprogress file hfile hsender).breaks
      | true =>
        rw [(hbroken hsender).2]
        exact List.nil_prefix
  refine ⟨?_, hprefix.sublist.trans h.sublist, fun hall => hprefix.trans (h.front hall), ?_⟩
  · rintro data' item' sender' heq
    cases heq
    exact ⟨file, hfile, fun hgood => (hprogress file hfile (hkept hgood)).works hgood⟩
  · intro hall hunbroken
    have hgood := hunbroken data item next rfl
    rw [hafter, List.append_assoc, ← (hprogress file hfile (hkept hgood)).sends hgood, ← hbefore]
    apply h.whole hall
    rintro data' item' sender' heq
    cases heq
    exact hkept hgood

theorem file_isSome (hshort : item.filename.length ≤ 255)
    (hthere : disk.content (cstr item.filename) ≠ []) : (disk.file item).isSome := by
  have hle : (cstr item.filename).length ≤ 255 :=
    (List.takeWhile_prefix _).length_le.trans hshort
  rw [Disk.file, dif_pos ⟨hle, hthere⟩]
  rfl

theorem broken_answer {manager manager' : SpeedManger} {sender next : SendPack.State} {reply : Reply}
    (hbroken : broken sender.pc = true)
    (hanswer : Speed.answer order manager sender reply = some (manager', next)) :
    broken next.pc = true ∧ sentOf order (disk.index handled) sender reply = [] := by
  have hresume {given : Reply} (hresume : resume sender given = some next) : broken next.pc = true := by
    cases hpc : sender.pc with
    | errClose =>
      cases given <;> simp only [resume, hpc, Option.some.injEq, reduceCtorEq] at hresume
      subst hresume
      dsimp only
      split <;> rfl
    | errGiveBack =>
      cases given <;> simp only [resume, hpc, Option.some.injEq, reduceCtorEq] at hresume
      subst hresume
      rfl
    | finished ret => cases given <;> simp [resume, hpc] at hresume
    | dividedByZero => cases given <;> simp [resume, hpc] at hresume
    | _ => simp [broken, hpc] at hbroken
  refine ⟨?_, (quiet_of_ne order (disk.index handled) .new ?_ ?_ reply).2⟩
  · unfold Speed.answer at hanswer
    split at hanswer
    · contradiction
    all_goals
      obtain ⟨resumed, hresumed, hpair⟩ := Option.map_eq_some_iff.mp hanswer
      cases hpair
      exact hresume hresumed
  · intro hpc
    simp [broken, hpc] at hbroken
  · intro hpc
    simp [broken, hpc] at hbroken

theorem Streams.returned {session : Session} {sender : SendPack.State} {ret : Int}
    (h : Streams order disk session.handled session.transfer.got (.sendPack data item sender) wire)
    (hcarries : Carries session.transfer sender) (hfinished : sender.pc = .finished ret)
    (reply : Reply) (list : SendList) :
    Streams order disk
      (session.observe (.sendPack data item sender) reply list
        (if ret = 0 then (if item.delect then .unlink data item else .delete data) else .isIdle)).handled
      (session.observe (.sendPack data item sender) reply list
        (if ret = 0 then (if item.delect then .unlink data item else .delete data)
          else .isIdle)).transfer.got
      (if ret = 0 then (if item.delect then .unlink data item else .delete data) else .isIdle) wire := by
  have hsent := h.sent hcarries (by simp [hfinished])
  simp only [Carries, hfinished] at hcarries
  simp only [Session.observe, hfinished]
  by_cases hret : ret = 0
  · simp only [if_pos hret]
    cases hdelect : item.delect with
    | false =>
      simp only [Bool.false_eq_true, if_false, reduceCtorEq]
      exact h.finish session.transfer rfl (by simp [Away]) hsent
    | true =>
      simp only [if_true]
      obtain ⟨hunbroken, hrest⟩ := hsent fun _ => hcarries.mpr hret
      have hsub := h.sublist
      rw [hrest] at hsub
      refine ⟨by simp, hsub, fun hall => ?_, fun hall _ => ?_⟩
      · have hfront := h.front hall
        rwa [hrest] at hfront
      · have hwhole := h.whole hall hunbroken
        rwa [hrest] at hwhole
  · simp only [if_neg hret, reduceCtorEq, if_false]
    exact h.finish session.transfer rfl (by simp [Away]) hsent

theorem Streams.running {session : Session} {manager manager' : SpeedManger}
    {sender next : SendPack.State} {reply : Reply}
    (h : Streams order disk session.handled session.transfer.got (.sendPack data item sender) wire)
    (htruth : truthful disk session.transfer.got (.sendPack data item sender) reply = true)
    (hanswer : Speed.answer order manager sender reply = some (manager', next)) :
    Streams order disk session.handled (session.transfer.answer sender reply).got
      (.sendPack data item next) (wire ++ sentOf order (disk.index session.handled) sender reply) := by
  refine h.advance (fun file hfile hgood => ?_) (fun hbroken => broken_answer hbroken hanswer)
  obtain ⟨file', hfile', hworks⟩ := h.works data item sender rfl
  cases hfile.symm.trans hfile'
  have hcontent : disk.content sender.filePath = file.content := by
    rw [(hworks hgood).filePath, content_of_file hfile]
  refine progress_answer (hworks hgood) hgood ?_ ?_ hanswer
  · rintro size hstat rfl
    simp only [truthful, hstat, hcontent, decide_eq_true_eq] at htruth
    exact htruth
  · rintro bytes hread rfl
    simp only [truthful, hread, hcontent, decide_eq_true_eq] at htruth
    exact htruth

theorem Streams.call {session : Session} {manager manager' : SpeedManger} {packT : Int}
    {list list' : SendList} {thread thread' : Thread} {reply : Reply}
    (h : Streams order disk session.handled session.transfer.got thread.pc wire)
    (hcarried : Carried session.transfer thread.pc)
    (hshort : ∀ item ∈ begun thread.pc, item.filename.length ≤ 255)
    (htruth : truthful disk session.transfer.got thread.pc reply = true)
    (called : FileThread.step order manager packT list thread reply = some (manager', list', thread')) :
    Streams order disk (session.observe thread.pc reply list' thread'.pc).handled
      (session.observe thread.pc reply list' thread'.pc).transfer.got thread'.pc
      (wire ++ sentBy order disk session.handled thread.pc reply) := by
  have hchecked {pc' : Pc} (hpc : Away thread.pc) (hpc' : Away pc')
      (hobserve : session.observe thread.pc reply list' pc' = session.check pc')
      (hnone : sentBy order disk session.handled thread.pc reply = []) :
      Streams order disk (session.observe thread.pc reply list' pc').handled
        (session.observe thread.pc reply list' pc').transfer.got pc'
        (wire ++ sentBy order disk session.handled thread.pc reply) := by
    obtain ⟨passed, hcheck⟩ := session.check_eq pc'
    rw [hobserve, hcheck, hnone, List.append_nil]
    exact h.away hpc hpc'
  unfold FileThread.step at called
  split at called
  · -- socket
    rename_i hpc
    cases called
    rw [hpc] at h
    simp only [hpc, Session.observe, sentBy, List.append_nil]
    split
    · exact h.away (by simp [Away]) (by simp [Away])
    · exact h.away (by simp [Away]) (by simp [Away])
  · -- isIdle
    rename_i hpc
    cases called
    apply hchecked
    · simp [Away, hpc]
    · dsimp only
      split <;> simp [Away]
    · simp [Session.observe, hpc]
    · simp [sentBy, hpc]
  · -- isBusy
    rename_i hpc
    cases called
    apply hchecked
    · simp [Away, hpc]
    · dsimp only
      split <;> simp [Away]
    · simp [Session.observe, hpc]
    · simp [sentBy, hpc]
  · -- isCancel
    rename_i hpc
    cases called
    apply hchecked
    · simp [Away, hpc]
    · dsimp only
      split <;> simp [Away]
    · simp [Session.observe, hpc]
    · simp [sentBy, hpc]
  · -- sleep
    rename_i hpc
    cases called
    rw [hpc] at h
    simp only [hpc, Session.observe, sentBy, List.append_nil]
    exact h.away (by simp [Away]) (by simp [Away])
  · -- getNext
    rename_i hpc
    obtain ⟨⟨data, rest⟩, -, hpair⟩ := Option.map_eq_some_iff.mp called
    cases hpair
    rw [hpc] at h
    simp only [hpc, Session.observe, sentBy, List.append_nil]
    exact h.away (by simp [Away]) (by simp [Away])
  · -- a null pointer
    contradiction
  · -- filename
    rename_i data hpc
    obtain ⟨cell, -, hpair⟩ := Option.map_eq_some_iff.mp called
    cases hpair
    rw [hpc] at h
    simp only [hpc, Session.observe, sentBy, List.append_nil]
    exact h.begin (by simp [Away]) _ data cell.value
  · -- getFileSize
    rename_i data item size hpc
    cases called
    rw [hpc] at h hcarried hshort htruth
    have hnew : session.transfer = .new := hcarried
    simp only [hpc, Session.observe, sentBy, List.append_nil]
    rw [hnew] at h htruth
    by_cases hsize : size ≤ 0
    · simp only [if_pos hsize, if_true]
      refine h.finish session.transfer rfl (by simp [Away]) fun hsent => ?_
      have hnone : disk.file item = none := by
        by_contra hsome
        exact absurd (hnew ▸ hsent (Option.isSome_iff_ne_none.mpr hsome)) not_whole_new
      exact ⟨by simp [Unbroken], by simp [rest, hnone]⟩
    · simp only [if_neg hsize, reduceCtorEq, if_false]
      rw [hnew]
      refine h.start (file_isSome (hshort item (by simp [begun])) ?_) _
      intro hnil
      simp only [truthful, decide_eq_true_eq, hnil, List.length_nil] at htruth
      omega
  · -- sendPack
    rename_i reply _ _ data item sender hpc
    rw [hpc] at h hcarried htruth
    split at called
    · rename_i ret hfinished
      cases called
      have hnone : sentBy order disk session.handled thread.pc reply = [] := by
        simp [sentBy, sentOf, hpc, SendPack.call, hfinished]
      rw [hnone, List.append_nil, hpc]
      exact h.returned hcarried hfinished reply list
    · rename_i hrunning
      obtain ⟨⟨moved, next⟩, hanswer, hpair⟩ := Option.map_eq_some_iff.mp called
      cases hpair
      have hrun := h.running htruth hanswer
      simp only [hpc, Session.observe, sentBy]
      split
      · rename_i ret hfinished
        exact absurd hfinished (hrunning ret)
      · rename_i hopen
        rwa [answer_other (by simp [hopen]) (by simp [hopen])] at hrun
      · exact hrun
  · -- unlink
    rename_i data item hpc
    cases called
    rw [hpc] at h
    simp only [hpc, Session.observe, sentBy, List.append_nil]
    exact h.finish session.transfer rfl (by simp [Away]) fun _ => ⟨by simp [Unbroken], rfl⟩
  · -- delete
    rename_i data hpc
    cases called
    rw [hpc] at h
    simp only [hpc, Session.observe, sentBy, List.append_nil]
    exact h.away (by simp [Away]) (by simp [Away])
  · -- close
    rename_i hpc
    cases called
    rw [hpc] at h
    simp only [hpc, Session.observe, sentBy, List.append_nil]
    exact h.away (by simp [Away]) (by simp [Away])
  · -- no such reply
    contradiction

theorem Streams.cancel {session : Session} {list : SendList}
    (h : Streams order disk session.handled session.transfer.got pc wire)
    (hcarried : Carried session.transfer pc)
    (hdefined : ∀ data item sender, pc = .sendPack data item sender → sender.pc ≠ .dividedByZero) :
    Streams order disk (session.finish (working list pc) false true).handled
      (session.finish (working list pc) false true).transfer.got .cancelled wire := by
  have hcancelled : Away .cancelled := by simp [Away]
  have hunhandled (hpc : Away pc) (hnone : working list pc = []) :
      Streams order disk (session.finish (working list pc) false true).handled
        (session.finish (working list pc) false true).transfer.got .cancelled wire := by
    rw [hnone]
    simp only [Session.finish, List.map_nil, List.append_nil]
    exact h.away hpc hcancelled
  cases pc with
  | filename found =>
    cases hworking : working list (.filename found) with
    | nil =>
      rw [← hworking]
      exact hunhandled (by simp [Away]) hworking
    | cons item others =>
      have hone : working list (.filename found) = [item] := by
        cases found with
        | none => simp [working, Status.handedOut] at hworking
        | some data =>
          cases hcell : list.heap data with
          | none => simp [working, Status.handedOut, hcell] at hworking
          | some cell => simp_all [working, Status.handedOut]
      rw [← hworking, hone]
      have hnew : session.transfer = .new := hcarried
      refine (h.begin (by simp [Away]) session.transfer.got 0 item).finish session.transfer rfl
        hcancelled fun hsent => ?_
      have hnone : disk.file item = none := by
        by_contra hsome
        exact absurd (hnew ▸ hsent (Option.isSome_iff_ne_none.mpr hsome)) not_whole_new
      exact ⟨by simp [Unbroken], by simp [rest, hnone]⟩
  | getFileSize data item =>
    have hnew : session.transfer = .new := hcarried
    refine h.finish session.transfer rfl hcancelled fun hsent => ?_
    have hnone : disk.file item = none := by
      by_contra hsome
      exact absurd (hnew ▸ hsent (Option.isSome_iff_ne_none.mpr hsome)) not_whole_new
    exact ⟨by simp [Unbroken], by simp [rest, hnone]⟩
  | sendPack data item sender =>
    exact h.finish session.transfer rfl hcancelled (h.sent hcarried (hdefined data item sender rfl))
  | unlink data item =>
    exact h.finish session.transfer rfl hcancelled fun _ => ⟨by simp [Unbroken], rfl⟩
  | _ => exact hunhandled (by simp [Away]) rfl

end

/-! ### Runs of the client -/

/-- Every thread has a wire. -/
structure Inv (order : Endian) (disk : Disk) (state : State) : Prop where
  tidy : ∃ nodes, Tidy Settled state.client nodes
  short : Short state.client
  wires : state.wires.length = state.client.client.threads.length
  streams : ∀ (tid : Nat) (thread : Thread) (session : Session) (wire : List Datagram),
    state.client.client.threads[tid]? = some thread → state.client.sessions[tid]? = some session →
    state.wires[tid]? = some wire →
    Streams order disk session.handled session.transfer.got thread.pc wire

/-- The history after a request: at most one more file was accepted. -/
structure Continues (old session : Session) : Prop where
  handled : session.handled = old.handled
  transfer : session.transfer = old.transfer
  taken : session.taken = old.taken
  accepted : old.accepted <+: session.accepted

/-- A request leaves every thread where it is and starts at most one. -/
structure Framed (state next : Sessions.State) : Prop where
  threads : ∀ (tid : Nat) (thread : Thread), next.client.threads[tid]? = some thread →
    (∃ old, state.client.threads[tid]? = some old ∧ thread.pc = old.pc) ∨
      (state.client.threads.length ≤ tid ∧ thread.pc = .socket)
  sessions : ∀ (tid : Nat) (session : Session), next.sessions[tid]? = some session →
    (∃ old, state.sessions[tid]? = some old ∧ Continues old session) ∨
      (state.sessions.length ≤ tid ∧ session.handled = [])
  grows : state.client.threads.length ≤ next.client.threads.length

section
variable {order : Endian} {conf : Section} {disk : Disk} {state next : State}
  {client client' : Sessions.State}

theorem framed_threads {threads threads' : List Thread} (h : ProxyClient.Requested threads threads')
    (tid : Nat) (thread : Thread) (hthread : threads'[tid]? = some thread) :
    (∃ old, threads[tid]? = some old ∧ thread.pc = old.pc) ∨
      (threads.length ≤ tid ∧ thread.pc = .socket) := by
  rcases h.getElem? hthread with ⟨old, hold, hsame⟩ | ⟨hge, info, rfl⟩
  · exact .inl ⟨old, hold, by rw [hsame]⟩
  · exact .inr ⟨hge, rfl⟩

theorem continues_refl (session : Session) : Continues session session :=
  ⟨rfl, rfl, rfl, List.prefix_rfl⟩

theorem framed_change {appName : Bytes} {change : Session → Session} {tid : Nat} {session : Session}
    (hsession : (client.change appName change)[tid]? = some session)
    (hchange : ∀ session, Continues session (change session)) :
    ∃ old, client.sessions[tid]? = some old ∧ Continues old session := by
  unfold Sessions.State.change at hsession
  split at hsession
  · exact ⟨session, hsession, continues_refl session⟩
  · rw [List.getElem?_modify] at hsession
    obtain ⟨old, hold, rfl⟩ := Option.map_eq_some_iff.mp hsession
    refine ⟨old, hold, ?_⟩
    split
    · exact hchange old
    · exact continues_refl old

theorem framed_request {world : ProxyClient.World} {input : Bytes}
    (hstep : Sessions.step order conf client (.request world input) = some client') :
    Framed client client' := by
  unfold Sessions.step at hstep
  split at hstep
  · contradiction
  obtain ⟨⟨reply, after⟩, hrequest, rfl⟩ := Option.map_eq_some_iff.mp hstep
  have hthreads := (ProxyClient.handlerMsgC_threads hrequest).2
  refine ⟨framed_threads hthreads, fun tid session hsession => ?_, hthreads.length_le⟩
  dsimp only [Sessions.State.answered] at hsession
  split at hsession
  · exact .inl ⟨session, hsession, continues_refl session⟩
  split at hsession
  case isFalse => exact .inl ⟨session, hsession, continues_refl session⟩
  rename_i command helper _ _
  cases command with
  | register =>
    dsimp only [Sessions.State.record] at hsession
    rw [List.getElem?_append] at hsession
    split at hsession
    · exact .inl ⟨session, hsession, continues_refl session⟩
    · rename_i hge
      have hmem := List.mem_of_getElem? hsession
      rw [List.mem_singleton.mp hmem]
      exact .inr ⟨not_lt.mp hge, rfl⟩
  | addFile =>
    dsimp only [Sessions.State.record] at hsession
    exact .inl (framed_change hsession fun _ => ⟨rfl, rfl, rfl, List.prefix_append _ _⟩)
  | delect =>
    dsimp only [Sessions.State.record] at hsession
    exact .inl (framed_change hsession fun _ => ⟨rfl, rfl, rfl, List.prefix_rfl⟩)

theorem framed_delApp {appName : Bytes} {opt : Int}
    (hstep : Sessions.step order conf client (.delApp appName opt) = some client') :
    Framed client client' := by
  unfold Sessions.step at hstep
  split at hstep
  · contradiction
  obtain ⟨⟨ret, after⟩, hdel, rfl⟩ := Option.map_eq_some_iff.mp hstep
  have hthreads := (ProxyClient.delApp_threads hdel).2
  refine ⟨framed_threads hthreads, fun tid session hsession => .inl ?_, hthreads.length_le⟩
  dsimp only at hsession
  split at hsession
  · exact framed_change hsession fun _ => ⟨rfl, rfl, rfl, List.prefix_rfl⟩
  · exact ⟨session, hsession, continues_refl session⟩

theorem Inv.framed (h : Inv order disk state) (hframed : Framed state.client client')
    (htidy : ∃ nodes, Tidy Settled client' nodes) (hshort : Short client') :
    Inv order disk ⟨client', state.wires ++
      List.replicate (client'.client.threads.length - state.wires.length) []⟩ := by
  have hgrows := hframed.grows
  have hwires := h.wires
  obtain ⟨nodes, tidy⟩ := h.tidy
  have hsessions := tidy.sessions
  refine ⟨htidy, hshort, ?_, ?_⟩
  · simp only [List.length_append, List.length_replicate]
    omega
  · intro tid thread session wire hthread hsession hwire
    rcases Lib.Allotment.getElem?_padded hwire with hwire | ⟨hnew, rfl⟩
    · have hlt := (List.getElem?_eq_some_iff.mp hwire).1
      rcases hframed.threads tid thread hthread with ⟨old, hold, hpc⟩ | ⟨hge, -⟩
      · rcases hframed.sessions tid session hsession with ⟨past, hpast, hcontinues⟩ | ⟨hge, -⟩
        · rw [hpc, hcontinues.handled, hcontinues.transfer]
          exact h.streams tid old past wire hold hpast hwire
        · omega
      · omega
    · rcases hframed.threads tid thread hthread with ⟨old, hold, -⟩ | ⟨-, hpc⟩
      · have hlt := (List.getElem?_eq_some_iff.mp hold).1
        omega
      · rcases hframed.sessions tid session hsession with ⟨past, hpast, -⟩ | ⟨-, hhandled⟩
        · have hlt := (List.getElem?_eq_some_iff.mp hpast).1
          omega
        · rw [hpc, hhandled]
          exact streams_nil _

theorem observed_eq {tid : Nat} {thread thread' : Thread} {app : ProxyClient.AppInfo}
    {session : Session} (reply : Reply) (list : SendList) (speed : SpeedManger)
    (hthread : client.client.threads[tid]? = some thread) (hinfo : thread'.info = thread.info)
    (happ : valueAt client.client.heap thread.info = some app)
    (hsession : client.sessions[tid]? = some session) :
    client.observed tid reply { client.client with
      heap := ProxyClient.setValue client.client.heap thread.info (Registry.withList list)
      threads := client.client.threads.set tid thread'
      speed := speed } =
      client.sessions.set tid (session.observe thread.pc reply list thread'.pc) := by
  have hlt := (List.getElem?_eq_some_iff.mp hthread).1
  have hnext : (client.client.threads.set tid thread')[tid]? = some thread' :=
    List.getElem?_set_self hlt
  have hlist : Registry.listOf { client.client with
      heap := ProxyClient.setValue client.client.heap thread.info (Registry.withList list)
      threads := client.client.threads.set tid thread'
      speed := speed } tid = some list := by
    have hstored : valueAt (ProxyClient.setValue client.client.heap thread.info
        (Registry.withList list)) thread.info = some (Registry.withList list app) :=
      Registry.valueAt_setValue_self happ
    refine (Registry.listOf_eq ?_ hstored).trans rfl
    rw [infos_getElem?, hnext, Option.map_some, hinfo]
  simp only [Sessions.State.observed, hthread, hnext, hlist]
  exact modify_of_getElem? hsession _

theorem begun_sublist (list : SendList) (pc : Pc) : (begun pc).Sublist (working list pc) := by
  cases pc <;> simp [begun, working]

theorem short_begun {view : View} (h : Settled view)
    (hshort : ∀ item ∈ view.session.accepted, item.filename.length ≤ 255) :
    ∀ item ∈ begun view.thread.pc, item.filename.length ≤ 255 := by
  intro item hitem
  obtain ⟨cells, hfed⟩ := h.fed
  refine hshort item ?_
  rw [hfed.accepted, h.items]
  have hworking := (begun_sublist view.app.listC view.thread.pc).subset hitem
  exact List.mem_append_left _ (List.mem_append_right _ hworking)

theorem Inv.focus (h : Inv order disk state) {tid : Nat} {thread thread' : Thread}
    {session session' : Session} {sent : List Datagram}
    (hthread : state.client.client.threads[tid]? = some thread)
    (hsession : state.client.sessions[tid]? = some session)
    (hthreads : client'.client.threads = state.client.client.threads.set tid thread')
    (hsessions : client'.sessions = state.client.sessions.set tid session')
    (htidy : ∃ nodes, Tidy Settled client' nodes) (hshort : Short client')
    (hstreams : ∀ wire, state.wires[tid]? = some wire →
      Streams order disk session.handled session.transfer.got thread.pc wire →
      Streams order disk session'.handled session'.transfer.got thread'.pc (wire ++ sent)) :
    Inv order disk ⟨client', state.wires.modify tid (· ++ sent)⟩ := by
  have hlt := (List.getElem?_eq_some_iff.mp hthread).1
  have hlt' := (List.getElem?_eq_some_iff.mp hsession).1
  refine ⟨htidy, hshort, ?_, ?_⟩
  · rw [List.length_modify, hthreads, List.length_set]
    exact h.wires
  · intro other thread'' session'' wire hother hpast hwire
    rw [hthreads] at hother
    rw [hsessions] at hpast
    rw [List.getElem?_modify] at hwire
    obtain ⟨old, hold, rfl⟩ := Option.map_eq_some_iff.mp hwire
    by_cases heq : other = tid
    · subst heq
      rw [List.getElem?_set_self hlt] at hother
      rw [List.getElem?_set_self hlt'] at hpast
      cases hother
      cases hpast
      simp only [if_true]
      exact hstreams old hold (h.streams other thread session old hthread hsession hold)
    · rw [List.getElem?_set_ne (Ne.symm heq)] at hother hpast
      simp only [if_neg (Ne.symm heq)]
      exact h.streams other thread'' session'' old hother hpast hold

theorem padded_eq (wires : List (List Datagram)) {length : Nat} (h : wires.length = length) :
    wires ++ List.replicate (length - wires.length) [] = wires := by
  rw [h, Nat.sub_self, List.replicate_zero, List.append_nil]

theorem Inv.call (h : Inv order disk state) {tid : Nat} {reply : Reply}
    (htruth : Answers disk state (.call tid reply))
    (hstep : Sessions.step order conf state.client (.call tid reply) = some client') :
    Inv order disk ⟨client',
      state.wires.modify tid (· ++ state.transmitted order disk tid reply)⟩ := by
  obtain ⟨nodes, tidy⟩ := h.tidy
  have htidy := tidy.step closed_settled hstep
  have hshort := h.short.step hstep
  unfold Sessions.step at hstep
  split at hstep
  · contradiction
  obtain ⟨after, hcall, rfl⟩ := Option.map_eq_some_iff.mp hstep
  obtain ⟨thread, app, speed, list, thread', hthread, -, happ, hcalled, rfl⟩ := stepCall_eq hcall
  obtain ⟨session, hsession⟩ := tidy.history hthread
  obtain ⟨app', happ', hsettled⟩ := tidy.views tid thread session hthread hsession
  obtain rfl := Option.some.inj (happ.symm.trans happ')
  have hinfo := (calls_of_step session hcalled).1
  have hobserved := observed_eq reply list speed hthread hinfo happ hsession
  have htransmitted : state.transmitted order disk tid reply =
      sentBy order disk session.handled thread.pc reply := by
    simp only [State.transmitted, hthread, hsession]
  rw [htransmitted]
  refine h.focus hthread hsession rfl hobserved htidy hshort fun wire _ hstreams => ?_
  exact hstreams.call hsettled.carried
    (short_begun hsettled fun item => h.short session (List.mem_of_getElem? hsession) item)
    (htruth thread hthread session hsession) hcalled

theorem Inv.cancel (h : Inv order disk state) {tid : Nat}
    (hstep : Sessions.step order conf state.client (.cancel tid) = some client') :
    Inv order disk ⟨client', state.wires⟩ := by
  obtain ⟨nodes, tidy⟩ := h.tidy
  have htidy := tidy.step closed_settled hstep
  have hshort := h.short.step hstep
  unfold Sessions.step at hstep
  split at hstep
  · contradiction
  rename_i hrunning
  obtain ⟨after, hcancel, rfl⟩ := Option.map_eq_some_iff.mp hstep
  obtain ⟨thread, hthread, rfl⟩ := Bandwidth.stepCancel_eq hcancel
  obtain ⟨session, hsession⟩ := tidy.history hthread
  obtain ⟨app, happ, hsettled⟩ := tidy.views tid thread session hthread hsession
  have hinfo : (Registry.infos state.client.client)[tid]? = some thread.info := by
    rw [infos_getElem?, hthread, Option.map_some]
  have hinterrupted : state.client.interrupted tid = state.client.sessions.set tid
      (session.finish (working app.listC thread.pc) false true) := by
    simp only [Sessions.State.interrupted, hthread, Registry.listOf_eq hinfo happ]
    exact modify_of_getElem? hsession _
  have hdefined : ∀ data item sender, thread.pc = .sendPack data item sender →
      sender.pc ≠ .dividedByZero := by
    intro data item sender hpc hzero
    apply hrunning
    rw [Bandwidth.crashed, List.any_eq_true]
    exact ⟨thread, List.mem_of_getElem? hthread, by simp [hpc, hzero]⟩
  have hfocus : Inv order disk ⟨_, state.wires.modify tid (· ++ [])⟩ :=
    h.focus hthread hsession rfl hinterrupted htidy hshort fun wire _ hstreams => by
      rw [List.append_nil]
      exact hstreams.cancel hsettled.carried hdefined
  have hsame : state.wires.modify tid (· ++ []) = state.wires := by
    simp only [List.append_nil]
    exact List.modify_id tid state.wires
  rwa [hsame] at hfocus

theorem Inv.step (h : Inv order disk state) {action : Action} (htruth : Answers disk state action)
    (hstep : Wires.step order conf disk state action = some next) : Inv order disk next := by
  obtain ⟨client', hclient, rfl⟩ := Option.map_eq_some_iff.mp hstep
  obtain ⟨nodes, tidy⟩ := h.tidy
  have htidy := tidy.step closed_settled hclient
  have hshort := h.short.step hclient
  cases action with
  | request world input => exact h.framed (framed_request hclient) htidy hshort
  | delApp appName opt => exact h.framed (framed_delApp hclient) htidy hshort
  | call tid reply =>
    have hcall := h.call htruth hclient
    dsimp only
    rwa [padded_eq _ hcall.wires]
  | cancel tid =>
    have hcancel := h.cancel hclient
    dsimp only
    rwa [padded_eq _ hcancel.wires]

theorem inv_start : Inv order disk start where
  tidy := ⟨[], tidy_start⟩
  short := short_start
  wires := rfl
  streams := by simp [start, Sessions.start, ProxyClient.new]

theorem stream_mono {items later : List SendData} (h : items <+: later) :
    stream order (disk.files items) <+: stream order (disk.files later) := by
  obtain ⟨tail, rfl⟩ := h
  unfold Disk.files
  rw [List.filterMap_append, stream_append]
  exact List.prefix_append _ _

theorem begun_working (list : SendList) (pc : Pc) : begun pc <+: working list pc := by
  cases pc <;> simp [begun, working]

/-- What the wire of a thread has to do with the files that it took. -/
theorem Inv.streamed {tid : Nat} {session : Session} {wire : List Datagram}
    (h : Inv order disk state) (hsession : state.client.sessions[tid]? = some session)
    (hwire : state.wires[tid]? = some wire) :
    session.handled.map Handled.item <+: session.taken ∧ session.taken <+: session.accepted ∧
      wire.Sublist (stream order (disk.files session.taken)) ∧
      (AllSent disk session.handled → wire <+: stream order (disk.files session.taken) ∧
        (session.taken = session.handled.map Handled.item →
          wire = stream order (disk.files session.taken))) := by
  obtain ⟨nodes, tidy⟩ := h.tidy
  have hlt := (List.getElem?_eq_some_iff.mp hsession).1
  rw [tidy.sessions] at hlt
  have hthread := List.getElem?_eq_getElem hlt
  obtain ⟨app, happ, hsettled⟩ := tidy.views tid _ session hthread hsession
  have hstreams := h.streams tid _ session wire hthread hsession hwire
  obtain ⟨cells, hfed⟩ := hsettled.fed
  have hitems := hsettled.items
  dsimp only at hitems
  have htaken : stream order (disk.files (session.handled.map Handled.item ++
      begun state.client.client.threads[tid].pc)) <+: stream order (disk.files session.taken) := by
    rw [hitems]
    exact stream_mono ((List.prefix_append_right_inj _).mpr (begun_working app.listC _))
  refine ⟨⟨_, hitems.symm⟩, ⟨_, hfed.accepted.symm⟩, ?_, fun hall => ⟨?_, fun hdone => ?_⟩⟩
  · exact ((List.sublist_append_left wire _).trans hstreams.sublist).trans htaken.sublist
  · exact ((List.prefix_append wire _).trans (hstreams.front hall)).trans htaken
  · have hnone : working app.listC state.client.client.threads[tid].pc = [] := by
      rw [hdone] at hitems
      exact List.append_right_eq_self.mp hitems.symm
    have haway : Away state.client.client.threads[tid].pc := by
      intro data item
      refine ⟨?_, ?_, fun sender => ?_⟩ <;> intro hpc <;> simp [working, hpc] at hnone
    have hwhole := hstreams.whole hall haway.unbroken
    rw [haway.rest, haway.begun, List.append_nil, List.append_nil, ← hdone] at hwhole
    exact hwhole

/-- The wire of every thread carries, in order, packets of the files that it took; as long as
what it is through with was sent, it carries all of them but for what is left of the file
that it is at. -/
theorem files_streamed {final : State} {actions : List Action} {tid : Nat} {session : Session}
    {wire : List Datagram} (truth : Meets (step order conf disk) (Answers disk) start actions)
    (run : exec (step order conf disk) start actions = some final)
    (hsession : final.client.sessions[tid]? = some session) (hwire : final.wires[tid]? = some wire) :
    session.handled.map Handled.item <+: session.taken ∧ session.taken <+: session.accepted ∧
      wire.Sublist (stream order (disk.files session.taken)) ∧
      (AllSent disk session.handled → wire <+: stream order (disk.files session.taken) ∧
        (session.taken = session.handled.map Handled.item →
          wire = stream order (disk.files session.taken))) := by
  have hinv : Inv order disk final :=
    exec_invariant (fun _ _ _ h htruth hstep => h.step htruth hstep) inv_start truth run
  exact hinv.streamed hsession hwire

end

/-- A disk with one file of one byte. -/
def oneFile : Disk where
  content path := if path = ascii "f" then [7] else []
  content_lt path := by split <;> decide

/-- The byte is sent, and nothing is left to send. -/
theorem files_streamed_oneFile : ∃ final session wire,
    exec (step .little [] oneFile) start (sends (ascii "false") (ascii "true")) = some final ∧
      final.client.sessions[0]? = some session ∧ final.wires[0]? = some wire ∧ wire.length = 1 ∧
      wire = stream .little (oneFile.files session.taken) := by
  have truth : Meets (step .little [] oneFile) (Answers oneFile) start
      (sends (ascii "false") (ascii "true")) := by decide +kernel
  have hreached : (exec (step .little [] oneFile) start (sends (ascii "false") (ascii "true"))).any
      (fun final => final.client.sessions[0]?.any fun session => final.wires[0]?.any fun wire =>
        wire.length = 1 && decide (AllSent oneFile session.handled) &&
          decide (session.taken = session.handled.map Handled.item)) = true := by decide +kernel
  obtain ⟨final, run, hfinal⟩ := (Option.any_eq_true _ _).mp hreached
  obtain ⟨session, hsession, hwires⟩ := (Option.any_eq_true _ _).mp hfinal
  obtain ⟨wire, hwire, htest⟩ := (Option.any_eq_true _ _).mp hwires
  simp only [Bool.and_eq_true, decide_eq_true_eq] at htest
  have hstreamed := files_streamed truth run hsession hwire
  exact ⟨final, session, wire, run, hsession, hwire, htest.1.1, (hstreamed.2.2.2 htest.1.2).2 htest.2⟩

end UdpFileProxy.Wires
