import UdpFileProxy.Refinement
import UdpFileProxy.Delivery

/-! A sender that runs `SendPack_ex` on one file after the other, the datagrams
on their way, and `Sudp`. What the sender has yet to send belongs to the
datagrams that are still to arrive, so its steps leave the receiver's view of
the future as it is. -/
namespace UdpFileProxy.Transfer
open Lib.Memory Lib.Run Protocol SendPack FileProcess Sending Refinement
open Sudp (Host Finished)
open Reassembly (Origin pending whole)

/-- `packT` is the `pack_t` that `SendPack_ex` is called with for each file. -/
structure Setup where
  host : Host
  files : List SentFile
  packT : Nat → Int

/-- `index` files are sent; `running` is `SendPack_ex` at work on the next one,
with what `read` has not returned of the file. -/
structure Sender where
  index : Nat
  running : Option (SendPack.State × Bytes)

structure State where
  sender : Sender
  receiver : Sudp.State

/-- `choice` is the descriptor that `open` returns, or the grant. -/
inductive Action where
  | begin
  | send (choice : Int)
  | receiver (action : Reassembly.Action)
  deriving DecidableEq, Repr

def start : State := ⟨⟨0, none⟩, Sudp.start []⟩

/-- A file system in which the file can be opened and does not change, a speed
manager with positive grants, and a socket that takes every datagram. -/
def answer (content left : Bytes) (choice : Int) (call : Call) : Option Reply :=
  match call with
  | .stat _ => some (.size content.length)
  | .openFile _ => if 0 < choice then some (.fd choice) else none
  | .read => some (.data (some (left.take maxline)))
  | .querySpeed => if 0 < choice then some (.grant choice) else none
  | .sendto _ => some (.sent true)
  | .returnSpeed _ | .usleep _ | .close => some .done

def leftAfter (left : Bytes) (call : Call) : Bytes :=
  match call with
  | .read => left.drop maxline
  | _ => left

def sentBy (index : Nat) (machine : SendPack.State) (call : Call) : List Datagram :=
  match call with
  | .sendto msg => [⟨⟨index, machine.packNu.toNat⟩, msg⟩]
  | _ => []

def proceed (index : Nat) (machine : SendPack.State) (left : Bytes) : Sender :=
  match machine.pc with
  | .finished _ => ⟨index + 1, none⟩
  | _ => ⟨index, some (machine, left)⟩

/-- One call of `SendPack_ex`, and the datagram that it sends. -/
def send (setup : Setup) (sender : Sender) (choice : Int) : Option (Sender × List Datagram) := do
  let (machine, left) ← sender.running
  let file ← setup.files[sender.index]?
  let call ← SendPack.call setup.host.info.order machine
  let reply ← answer file.content left choice call
  let after ← resume machine reply
  return (proceed sender.index after (leftAfter left call), sentBy sender.index machine call)

def step (setup : Setup) (state : State) (action : Action) : Option State :=
  match action with
  | .begin =>
      match state.sender.running, setup.files[state.sender.index]? with
      | none, some file =>
          let machine := SendPack.start file.path (setup.packT state.sender.index)
          some { state with sender.running := some (machine, file.content) }
      | _, _ => none
  | .send choice =>
      (send setup state.sender choice).map fun sent =>
        ⟨sent.1, { state.receiver with incoming := state.receiver.incoming ++ sent.2 }⟩
  | .receiver action =>
      (Sudp.step setup.host state.receiver (perform action)).map fun receiver =>
        { state with receiver := receiver }

/-! ### The sender -/

/-- What is left of a file once its machine has come this far. Between the read
and the call of `sendto` the datagram is already made. -/
def later (order : Endian) (file : SentFile) (index : Nat) (machine : SendPack.State)
    (left : Bytes) : List Datagram :=
  let following := packetsFrom order file index machine.sendCount machine.protocol
    machine.packNu.toNat (chunks left)
  match machine.pc with
  | .giveBack | .query | .sendto =>
      ⟨⟨index, machine.packNu.toNat⟩, message order machine⟩ :: following
  | _ => following

def future (setup : Setup) (sender : Sender) : List Datagram :=
  let order := setup.host.info.order
  match sender.running, setup.files[sender.index]? with
  | some (machine, left), some file =>
      later order file sender.index machine left ++
        streamFrom order (sender.index + 1) (setup.files.drop (sender.index + 1))
  | _, _ => streamFrom order sender.index (setup.files.drop sender.index)

/-- `SendPack_ex` at work on a file, in a world without failures. -/
structure AtWork (file : SentFile) (machine : SendPack.State) (left : Bytes) : Prop where
  filePath : machine.filePath = file.path
  packT : 1 ≤ machine.packT
  packNu : 0 ≤ machine.packNu
  fileSize : machine.pc = .stat ∨ machine.fileSize = file.content.length
  noError : machine.pc ≠ .errClose ∧ machine.pc ≠ .errGiveBack ∧ machine.pc ≠ .dividedByZero ∧
    ∀ ret, machine.pc ≠ .finished ret
  done : machine.pc = .okGiveBack ∨ machine.pc = .okClose → left = []

section
variable {order : Endian} {file : SentFile} {index : Nat} {machine : SendPack.State} {left : Bytes}

theorem atWork_start {packT : Int} (h : 1 ≤ packT) :
    AtWork file (SendPack.start file.path packT) file.content where
  filePath := rfl
  packT := h
  packNu := le_refl 0
  fileSize := by simp [SendPack.start]
  noError := by simp [SendPack.start]
  done := by simp [SendPack.start]

@[simp] theorem later_start (packT : Int) :
    later order file index (SendPack.start file.path packT) file.content =
      packets order index file := rfl

theorem AtWork.size (h : AtWork file machine left) (hpc : machine.pc ≠ .stat) :
    machine.fileSize = file.content.length :=
  h.fileSize.resolve_left hpc

theorem AtWork.moved {after : SendPack.State} (h : AtWork file machine left)
    (hpc : machine.pc ≠ .stat)
    (hkept : after =
      { machine with pc := after.pc, waitT := after.waitT, queryed := after.queryed })
    (noError : after.pc ≠ .errClose ∧ after.pc ≠ .errGiveBack ∧ after.pc ≠ .dividedByZero ∧
      ∀ ret, after.pc ≠ .finished ret)
    (done : after.pc = .okGiveBack ∨ after.pc = .okClose → left = []) : AtWork file after left := by
  refine ⟨?_, ?_, ?_, Or.inr ?_, noError, done⟩
  · rw [hkept]
    exact h.filePath
  · rw [hkept]
    exact h.packT
  · rw [hkept]
    exact h.packNu
  · rw [hkept]
    exact h.size hpc

theorem to_of_afterRead (machine : SendPack.State) (h : 1 ≤ machine.packT) :
    afterRead machine = .giveBack ∨ afterRead machine = .query ∨ afterRead machine = .sendto := by
  rcases afterRead_cases machine with hto | ⟨hto, -⟩ | ⟨hto, -⟩ | hto
  · exact absurd hto (afterRead_defined h)
  · exact .inl hto
  · exact .inr (.inl hto)
  · exact .inr (.inr hto)

theorem AtWork.afterSend (h : AtWork file machine left) :
    afterSend machine = .sleepBatch ∨ afterSend machine = .read :=
  (afterSend_cases machine).resolve_left (afterSend_defined h.packT)

/-- Steps that a machine has yet to make: at most six for a chunk. -/
def rank (machine : SendPack.State) (left : Bytes) : Nat :=
  7 * (chunks left).length +
    match machine.pc with
    | .stat => 5
    | .openFile => 4
    | .giveBack => 9
    | .query => 8
    | .sendto => 7
    | .sleepFirst => 6
    | .sleepBatch => 5
    | .read => 3
    | .okGiveBack => 2
    | .okClose => 1
    | _ => 0

/-- What a call leads to: the datagrams that it sends are the next of those that
are left, and the machine has come closer to its end. -/
structure Advances (order : Endian) (file : SentFile) (index : Nat) (machine after : SendPack.State)
    (left left' : Bytes) (sent : List Datagram) : Prop where
  ranks : rank after left' < rank machine left
  ends : (∃ ret, after.pc = .finished ret ∧ left' = []) ∨ AtWork file after left'
  sends : later order file index machine left = sent ++ later order file index after left'

theorem advances_read (h : AtWork file machine left) (hpc : machine.pc = .read)
    {after : SendPack.State} (hafter : resume machine (.data (some (left.take maxline))) = some after) :
    Advances order file index machine after left (left.drop maxline) [] := by
  have hsize := h.size (by simp [hpc])
  by_cases hleft : left = []
  · subst hleft
    simp only [resume, hpc, List.take_nil, Option.some.injEq] at hafter
    subst hafter
    by_cases hqueryed : machine.queryed = 0
    · exact ⟨by simp [rank, hpc, hqueryed],
        Or.inr (h.moved (by simp [hpc]) rfl (by simp [hqueryed]) (by simp)),
        by simp [later, hpc, hqueryed, packetsFrom]⟩
    · exact ⟨by simp [rank, hpc, hqueryed],
        Or.inr (h.moved (by simp [hpc]) rfl (by simp [hqueryed]) (by simp)),
        by simp [later, hpc, hqueryed, packetsFrom]⟩
  · obtain ⟨first, rest, hbytes⟩ : ∃ first rest, left.take maxline = first :: rest := by
      cases left with
      | nil => contradiction
      | cons first rest => exact ⟨first, _, rfl⟩
    have hlength : (left.take maxline).length ≤ maxline := List.length_take_le _ _
    rw [hbytes] at hafter hlength
    simp only [resume, hpc, hlength, if_true, Option.some.injEq] at hafter
    subst hafter
    have hto := to_of_afterRead (packed machine (first :: rest)) h.packT
    have hranks : rank { packed machine (first :: rest) with
        pc := afterRead (packed machine (first :: rest)) } (left.drop maxline) < rank machine left := by
      simp only [rank, hpc, chunks_of_ne hleft, List.length_cons]
      rcases hto with hto | hto | hto <;> simp only [hto] <;> omega
    refine ⟨hranks, Or.inr ⟨h.filePath, h.packT, ?_, Or.inr hsize, ?_, ?_⟩, ?_⟩
    · exact Int.le_trans h.packNu (Int.le_add_one (le_refl _))
    · rcases hto with hto | hto | hto <;> simp [hto]
    · rcases hto with hto | hto | hto <;> simp [hto]
    · have hnext : (machine.packNu + 1).toNat = machine.packNu.toNat + 1 := by
        have := h.packNu
        omega
      have hcast : ((machine.packNu.toNat + 1 : Nat) : Int) = machine.packNu + 1 := by
        have := h.packNu
        omega
      rcases hto with hto | hto | hto
      all_goals
        simp only [later, hpc, hto, chunks_of_ne hleft, hbytes, packetsFrom, List.nil_append]
        simp only [packed, message, hnext, hcast, hsize, h.filePath]

theorem done_of_quiet {choice : Int} {made : Call} {reply : Reply} (hcall : call order machine = some made)
    (hreply : answer file.content left choice made = some reply)
    (hquiet : machine.pc ∈ [.giveBack, .sleepFirst, .sleepBatch, .okGiveBack, .okClose]) :
    reply = .done ∧ leftAfter left made = left ∧ sentBy index machine made = [] := by
  simp only [List.mem_cons, List.not_mem_nil, or_false] at hquiet
  rcases hquiet with hpc | hpc | hpc | hpc | hpc
  all_goals
    simp only [call, hpc, Option.some.injEq] at hcall
    subst hcall
    simp only [answer, Option.some.injEq] at hreply
    exact ⟨hreply.symm, rfl, rfl⟩

theorem advances_send (index : Nat) {choice : Int} {made : Call} {reply : Reply} {after : SendPack.State}
    (h : AtWork file machine left) (hcall : call order machine = some made)
    (hreply : answer file.content left choice made = some reply)
    (hafter : resume machine reply = some after) :
    Advances order file index machine after left (leftAfter left made)
      (sentBy index machine made) := by
  obtain ⟨hnoClose, hnoGiveBack, hnoZero, hnoRet⟩ := h.noError
  cases hpc : machine.pc with
  | stat =>
    simp only [call, hpc, Option.some.injEq] at hcall
    subst hcall
    simp only [answer, Option.some.injEq] at hreply
    subst hreply
    simp only [resume, hpc, Option.some.injEq] at hafter
    subst hafter
    have hpositive : ¬(file.content.length : Int) < 0 := by omega
    exact ⟨by simp [rank, hpc, hpositive, leftAfter],
      Or.inr ⟨h.filePath, h.packT, h.packNu, Or.inr rfl, by simp [hpositive], by simp [hpositive]⟩,
      by simp [later, hpc, hpositive, sentBy, leftAfter]⟩
  | openFile =>
    simp only [call, hpc, Option.some.injEq] at hcall
    subst hcall
    simp only [answer] at hreply
    split at hreply
    · cases hreply
      simp only [resume, hpc, Option.some.injEq] at hafter
      subst hafter
      have hfd : choice ≠ 0 := by omega
      exact ⟨by simp [rank, hpc, hfd, leftAfter],
        Or.inr (h.moved (by simp [hpc]) rfl (by simp [hfd]) (by simp [hfd])),
        by simp [later, hpc, hfd, sentBy, leftAfter]⟩
    · contradiction
  | read =>
    simp only [call, hpc, Option.some.injEq] at hcall
    subst hcall
    simp only [answer, Option.some.injEq] at hreply
    subst hreply
    exact advances_read h hpc hafter
  | giveBack =>
    obtain ⟨rfl, hleft, hsent⟩ := done_of_quiet hcall hreply (by simp [hpc])
    rw [hleft, hsent]
    simp only [resume, hpc, Option.some.injEq] at hafter
    subst hafter
    exact ⟨by simp [rank, hpc],
      Or.inr (h.moved (by simp [hpc]) rfl (by simp) (by simp)),
      by simp [later, hpc, message]⟩
  | query =>
    simp only [call, hpc, Option.some.injEq] at hcall
    subst hcall
    simp only [answer] at hreply
    split at hreply
    · cases hreply
      have hgrant : choice ≠ 0 := by omega
      simp only [resume, hpc, hgrant, if_false, Option.some.injEq] at hafter
      subst hafter
      exact ⟨by simp [rank, hpc, leftAfter],
        Or.inr (h.moved (by simp [hpc]) rfl (by simp) (by simp)),
        by simp [later, hpc, sentBy, leftAfter, message]⟩
    · contradiction
  | sendto =>
    simp only [call, hpc, Option.some.injEq] at hcall
    subst hcall
    simp only [answer, Option.some.injEq] at hreply
    subst hreply
    simp only [resume, hpc, Option.some.injEq] at hafter
    subst hafter
    by_cases hfirst : machine.packNu = 1
    · exact ⟨by simp [rank, hpc, hfirst, leftAfter],
        Or.inr (h.moved (by simp [hpc]) rfl (by simp [hfirst]) (by simp [hfirst])),
        by simp [later, hpc, hfirst, sentBy, leftAfter]⟩
    · rcases h.afterSend with hto | hto
      all_goals exact ⟨by simp [rank, hpc, hfirst, hto, leftAfter],
        Or.inr (h.moved (by simp [hpc]) rfl (by simp [hfirst, hto]) (by simp [hfirst, hto])),
        by simp [later, hpc, hfirst, hto, sentBy, leftAfter]⟩
  | sleepFirst =>
    obtain ⟨rfl, hleft, hsent⟩ := done_of_quiet hcall hreply (by simp [hpc])
    rw [hleft, hsent]
    simp only [resume, hpc, Option.some.injEq] at hafter
    subst hafter
    rcases h.afterSend with hto | hto
    all_goals exact ⟨by simp [rank, hpc, hto],
      Or.inr (h.moved (by simp [hpc]) rfl (by simp [hto]) (by simp [hto])),
      by simp [later, hpc, hto]⟩
  | sleepBatch =>
    obtain ⟨rfl, hleft, hsent⟩ := done_of_quiet hcall hreply (by simp [hpc])
    rw [hleft, hsent]
    simp only [resume, hpc, Option.some.injEq] at hafter
    subst hafter
    exact ⟨by simp [rank, hpc],
      Or.inr (h.moved (by simp [hpc]) rfl (by simp) (by simp)),
      by simp [later, hpc]⟩
  | okGiveBack =>
    obtain ⟨rfl, hleft, hsent⟩ := done_of_quiet hcall hreply (by simp [hpc])
    rw [hleft, hsent]
    simp only [resume, hpc, Option.some.injEq] at hafter
    subst hafter
    have hdone := h.done (Or.inl hpc)
    exact ⟨by simp [rank, hpc],
      Or.inr (h.moved (by simp [hpc]) rfl (by simp) (by simp [hdone])),
      by simp [later, hpc]⟩
  | okClose =>
    obtain ⟨rfl, hleft, hsent⟩ := done_of_quiet hcall hreply (by simp [hpc])
    rw [hleft, hsent]
    simp only [resume, hpc, Option.some.injEq] at hafter
    subst hafter
    exact ⟨by simp [rank, hpc], Or.inl ⟨0, rfl, h.done (Or.inr hpc)⟩,
      by simp [later, hpc]⟩
  | errClose => exact absurd hpc hnoClose
  | errGiveBack => exact absurd hpc hnoGiveBack
  | finished ret => exact absurd hpc (hnoRet ret)
  | dividedByZero => exact absurd hpc hnoZero

theorem advances_enabled (order : Endian) (h : AtWork file machine left) :
    ∃ made reply, call order machine = some made ∧
      answer file.content left 1 made = some reply ∧ (resume machine reply).isSome := by
  obtain ⟨hnoClose, hnoGiveBack, hnoZero, hnoRet⟩ := h.noError
  cases hpc : machine.pc with
  | read =>
    refine ⟨.read, _, by simp [call, hpc], rfl, ?_⟩
    have hlength : (left.take maxline).length ≤ maxline := List.length_take_le _ _
    cases hbytes : left.take maxline with
    | nil => simp [resume, hpc]
    | cons first rest =>
      rw [hbytes] at hlength
      simp only [resume, hpc, hlength, if_true, Option.isSome_some]
  | errClose => exact absurd hpc hnoClose
  | errGiveBack => exact absurd hpc hnoGiveBack
  | finished ret => exact absurd hpc (hnoRet ret)
  | dividedByZero => exact absurd hpc hnoZero
  | _ => simp [call, hpc, answer, resume]

end

/-! ### Both together -/

section
variable {setup : Setup} {sender after : Sender} {choice : Int} {sent : List Datagram}

def filesWork (files : List SentFile) : Nat :=
  (files.map fun file => 7 * (chunks file.content).length + 6).sum

def senderWork (setup : Setup) (sender : Sender) : Nat :=
  match sender.running, setup.files[sender.index]? with
  | some (machine, left), some _ => rank machine left + filesWork (setup.files.drop (sender.index + 1))
  | _, _ => filesWork (setup.files.drop sender.index)

structure Steady (setup : Setup) (sender : Sender) : Prop where
  index : sender.index ≤ setup.files.length
  running : ∀ machine left, sender.running = some (machine, left) →
    ∃ file, setup.files[sender.index]? = some file ∧ AtWork file machine left

theorem drop_eq {file : SentFile} {index : Nat} (h : setup.files[index]? = some file) :
    setup.files.drop index = file :: setup.files.drop (index + 1) := by
  obtain ⟨hindex, rfl⟩ := List.getElem?_eq_some_iff.mp h
  exact List.drop_eq_getElem_cons hindex

theorem length_sentBy (index : Nat) (machine : SendPack.State) (made : Call) :
    (sentBy index machine made).length ≤ 1 := by
  cases made <;> simp [sentBy]

theorem steady_send (h : Steady setup sender) (hsend : send setup sender choice = some (after, sent)) :
    Steady setup after ∧ future setup sender = sent ++ future setup after ∧
      senderWork setup after < senderWork setup sender ∧ sent.length ≤ 1 := by
  cases hrunning : sender.running with
  | none => simp [send, hrunning] at hsend
  | some running =>
    obtain ⟨machine, left⟩ := running
    obtain ⟨file, hfile, hwork⟩ := h.running machine left hrunning
    simp only [send, hrunning, hfile, Option.bind_eq_bind, Option.bind_some,
      Option.bind_eq_some_iff, Option.pure_def, Option.some.injEq, Prod.mk.injEq] at hsend
    obtain ⟨made, hcall, reply, hreply, machine', hresume, rfl, rfl⟩ := hsend
    obtain ⟨hranks, hends, hsends⟩ := advances_send sender.index hwork hcall hreply hresume
    have hindex := (List.getElem?_eq_some_iff.mp hfile).1
    rcases hends with ⟨ret, hpc, hleft⟩ | hwork'
    · have hproceed : proceed sender.index machine' (leftAfter left made) =
          ⟨sender.index + 1, none⟩ := by
        simp [proceed, hpc]
      rw [hproceed]
      refine ⟨⟨hindex, by simp⟩, ?_, ?_, length_sentBy _ _ _⟩
      · simp only [future, hrunning, hfile, hsends, hleft]
        simp [later, hpc, packetsFrom]
      · simp only [senderWork, hrunning, hfile]
        omega
    · have hproceed : proceed sender.index machine' (leftAfter left made) =
          ⟨sender.index, some (machine', leftAfter left made)⟩ := by
        unfold proceed
        split
        · rename_i ret hpc
          exact absurd hpc (hwork'.noError.2.2.2 ret)
        · rfl
      rw [hproceed]
      refine ⟨⟨h.index, ?_⟩, ?_, ?_, length_sentBy _ _ _⟩
      · rintro _ _ ⟨rfl, rfl⟩
        exact ⟨file, hfile, hwork'⟩
      · simp only [future, hrunning, hfile, hsends, List.append_assoc]
      · simp only [senderWork, hrunning, hfile]
        omega

theorem send_enabled (h : Steady setup sender) (hrunning : sender.running ≠ none) :
    ∃ result, send setup sender 1 = some result := by
  obtain ⟨⟨machine, left⟩, hsome⟩ := Option.ne_none_iff_exists'.mp hrunning
  obtain ⟨file, hfile, hwork⟩ := h.running machine left hsome
  obtain ⟨made, reply, hcall, hreply, hresume⟩ :=
    advances_enabled setup.host.info.order hwork
  obtain ⟨machine', hmachine⟩ := Option.isSome_iff_exists.mp hresume
  simp [send, hsome, hfile, hcall, hreply, hmachine]

end

/-- The receiver, with everything that the sender has yet to send on its way. -/
def merged (setup : Setup) (state : State) : Sudp.State :=
  Sudp.expecting state.receiver (future setup state.sender)

/-- What every state reached keeps: the merged receiver takes the packets in
order. -/
structure Transferring (setup : Setup) (state : State) : Prop where
  steady : Steady setup state.sender
  receives : ∃ abstract, Delivery.InOrder (count setup.files) setup.files.length abstract ∧
    Related setup.host setup.files (merged setup state) abstract

def work (setup : Setup) (state : State) : Nat :=
  5 * senderWork setup state.sender + Sudp.work state.receiver

section
variable {setup : Setup} {state next : State} {action : Action}

theorem transferring_start : Transferring setup start where
  steady := ⟨Nat.zero_le _, by simp [start]⟩
  receives := by
    refine ⟨_, ?_, related_start (stream setup.host.info.order setup.files)
      fun sent hsent => genuine_of_mem_stream _ hsent⟩
    rw [stream_origins]
    exact Delivery.inOrder_start

theorem keepsName {abstract : Reassembly.State} {act : Reassembly.Action}
    (h : Delivery.InOrder (count setup.files) setup.files.length abstract) :
    KeepsName setup.files abstract act := by
  intro packet rest htaken hne _
  rw [h.same_file (fun _ hindex => count_pos hindex) htaken hne]

theorem Transferring.step (h : Transferring setup state) (fits : Fits setup.host.info setup.files)
    (packT : ∀ index, 1 ≤ setup.packT index) (hstep : step setup state action = some next) :
    Transferring setup next ∧ work setup next < work setup state := by
  obtain ⟨abstract, hinOrder, hrelated⟩ := h.receives
  cases action with
  | begin =>
    simp only [Transfer.step] at hstep
    split at hstep
    · rename_i file hrunning hfile
      cases hstep
      have hindex := (List.getElem?_eq_some_iff.mp hfile).1
      refine ⟨⟨⟨hindex.le, ?_⟩, abstract, hinOrder, ?_⟩, ?_⟩
      · rintro _ _ ⟨rfl, rfl⟩
        exact ⟨file, hfile, atWork_start (packT _)⟩
      · have hfuture : future setup ⟨state.sender.index,
            some (SendPack.start file.path (setup.packT state.sender.index), file.content)⟩ =
            future setup state.sender := by
          simp only [future, hrunning, hfile, later_start]
          rw [drop_eq hfile, streamFrom]
        rw [merged, hfuture]
        exact hrelated
      · simp only [work, senderWork, hrunning, hfile]
        rw [drop_eq hfile]
        simp only [rank, SendPack.start, filesWork, List.map_cons, List.sum_cons]
        omega
    · contradiction
  | send choice =>
    simp only [Transfer.step, Option.map_eq_some_iff, Prod.exists] at hstep
    obtain ⟨after, sent, hsend, rfl⟩ := hstep
    obtain ⟨hsteady, hfuture, hless, hlength⟩ := steady_send h.steady hsend
    refine ⟨⟨hsteady, abstract, hinOrder, ?_⟩, ?_⟩
    · have hmerged : merged setup ⟨after, { state.receiver with
          incoming := state.receiver.incoming ++ sent }⟩ = merged setup state := by
        simp [merged, Sudp.expecting, hfuture]
      rw [hmerged]
      exact hrelated
    · simp only [work, Sudp.work, List.length_append]
      omega
  | receiver action =>
    simp only [Transfer.step, Option.map_eq_some_iff] at hstep
    obtain ⟨receiver, hreceiver, rfl⟩ := hstep
    obtain ⟨after, hafter, hnext⟩ := step_perform hrelated fits (keepsName hinOrder)
      (Sudp.step_expecting _ hreceiver)
    refine ⟨⟨h.steady, after, ?_, hnext⟩, ?_⟩
    · exact hinOrder.step (fun _ hindex => count_pos hindex) hafter
    · have := Sudp.step_decreases hreceiver
      simp only [work]
      omega

theorem jobs_eq {info : Info} {files : List SentFile} {jobs : List Finished}
    {abstract : Reassembly.State}
    (h : Delivery.InOrder (count files) files.length abstract)
    (hjobs : Delivers info files jobs abstract.finished) :
    jobs.map Finished.job = (files.take abstract.finished.length).map (jobOf info) := by
  have hlength : jobs.length = abstract.finished.length := by
    rw [← hjobs.packets, List.length_map]
  have hbound := h.bound
  have hpackets := hjobs.packets
  rw [h.finished] at hpackets
  apply List.ext_getElem
  · simp only [List.length_map, List.length_take]
    omega
  · intro i hi _
    rw [List.length_map] at hi
    have hwhole : jobs[i].packets = whole (count files) i := by
      have hindex := congrArg (fun packets => packets[i]?) hpackets
      simpa [hi, hlength ▸ hi] using hindex
    have hfile : files[i]? = some files[i] := List.getElem?_eq_getElem (by omega)
    simp [(hjobs.delivered jobs[i] (List.getElem_mem hi)).job_eq hwhole hfile]

theorem transferring_exec {final : State} {actions : List Action}
    (fits : Fits setup.host.info setup.files) (packT : ∀ index, 1 ≤ setup.packT index)
    (run : exec (step setup) start actions = some final) :
    Transferring setup final ∧ actions.length ≤ work setup start := by
  refine ⟨exec_invariant' (fun _ _ _ h hstep => (h.step fits packT hstep).1)
    transferring_start run, ?_⟩
  have hlength := exec_length_le' (work setup) (Transferring setup)
    (fun _ _ _ h hstep => h.step fits packT hstep) transferring_start run
  omega

theorem future_of_stuck {final : State} (h : Transferring setup final)
    (stuck : ∀ action, step setup final action = none) : future setup final.sender = [] := by
  have hrunning : final.sender.running = none := by
    by_contra hrunning
    obtain ⟨result, hresult⟩ := send_enabled h.steady hrunning
    have hsend := stuck (.send 1)
    simp [Transfer.step, hresult] at hsend
  have hbegin := stuck .begin
  simp only [Transfer.step, hrunning] at hbegin
  cases hfile : setup.files[final.sender.index]? with
  | some file => simp [hfile] at hbegin
  | none =>
    have hindex := List.getElem?_eq_none_iff.mp hfile
    simp only [future, hrunning]
    rw [List.drop_of_length_le hindex, streamFrom]

/-- Lossless transfer: however the sender, the receive loop and `File_Process`
interleave, the jobs are those of the files sent so far, in sending order and
with the exact bytes. No run goes on for ever, and one that cannot go on has
delivered every file. -/
theorem every_file_received {final : State} {actions : List Action}
    (fits : Fits setup.host.info setup.files) (packT : ∀ index, 1 ≤ setup.packT index)
    (room : ∀ msg, setup.host.room [] msg = true)
    (run : exec (step setup) start actions = some final) :
    final.receiver.stopped = none ∧
    (∃ received ≤ setup.files.length, final.receiver.jobs.map Finished.job =
      (setup.files.take received).map (jobOf setup.host.info)) ∧
    actions.length ≤ work setup start ∧
    ((∀ action, step setup final action = none) →
      final.receiver.jobs.map Finished.job = setup.files.map (jobOf setup.host.info)) := by
  obtain ⟨htransferring, hlength⟩ := transferring_exec fits packT run
  obtain ⟨abstract, hinOrder, hrelated⟩ := htransferring.receives
  have hjobs : final.receiver.jobs.map Finished.job =
      (setup.files.take abstract.finished.length).map (jobOf setup.host.info) :=
    jobs_eq hinOrder hrelated.jobs
  refine ⟨hrelated.running, ⟨_, hinOrder.bound, hjobs⟩, hlength, ?_⟩
  intro stuck
  have hmerged : merged setup final = final.receiver := by
    rw [merged, future_of_stuck htransferring stuck, Sudp.expecting, List.append_nil]
  rw [hmerged] at hrelated
  have hpending := pending_of_stuck hrelated room fun action => by
    have hstep := stuck (.receiver action)
    simpa [Transfer.step] using hstep
  have hall := hinOrder.all_finished (fun _ hindex => count_pos hindex) hpending
  rw [hjobs, hall, List.take_length]

end

/-- A file of two bytes, sent in batches of 200 packets. -/
def twoBytes : Setup where
  host := ⟨⟨.little, [100], [101]⟩, fun _ _ => true⟩
  files := [⟨[97], [1, 2], by decide, by decide, by decide, by decide⟩]
  packT := fun _ => 200

def twoBytesRun : List Action :=
  [.begin, .send 1, .send 3, .send 1, .send 320, .send 1,
    .receiver .recvfrom, .receiver .msgsnd, .receiver .poll]

theorem every_file_received_twoBytes :
    ∃ final, exec (step twoBytes) start twoBytesRun = some final ∧
      final.receiver.stopped = none ∧
      (∃ received ≤ twoBytes.files.length, final.receiver.jobs.map Finished.job =
        (twoBytes.files.take received).map (jobOf twoBytes.host.info)) ∧
      twoBytesRun.length ≤ work twoBytes start ∧
      ((∀ action, step twoBytes final action = none) →
        final.receiver.jobs.map Finished.job = twoBytes.files.map (jobOf twoBytes.host.info)) := by
  have hsome : (exec (step twoBytes) start twoBytesRun).isSome = true := by decide +kernel
  obtain ⟨final, run⟩ := Option.isSome_iff_exists.mp hsome
  have fits : Fits twoBytes.host.info twoBytes.files := by
    intro file hfile
    rw [List.mem_singleton.mp hfile]
    decide +kernel
  exact ⟨final, run, every_file_received fits (fun _ => show (1 : Int) ≤ 200 by decide)
    (fun _ => rfl) run⟩

end UdpFileProxy.Transfer
