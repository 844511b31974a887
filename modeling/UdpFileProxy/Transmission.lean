import UdpFileProxy.Speed
import UdpFileProxy.Lib.Run

/-! One call of `SendPack_ex` in a world where `stat`, `open`, `read` and `sendto`
may fail at any point, with the history of its packets and of its quota. -/
namespace UdpFileProxy.Transmission
open Lib.Memory Lib.Run Protocol SendPack
open Speed (Ready held)

/-- The values that `file_thread` passes. -/
abbrev PackT := {packT : Int // 1 ≤ packT ∧ packT ≤ 1000}

structure Packet where
  protocol : UInt8
  part : Bytes
  deriving DecidableEq, Repr

/-- `left` is what `read` has not returned of the file, `descriptor` what `open`
returned. `failed` and the lists are history. -/
structure State where
  machine : SendPack.State
  left : Bytes
  descriptor : Option Int
  failed : Bool
  packets : List Packet
  sent : List Bytes
  granted : List Int
  returned : List Int
  deriving DecidableEq, Repr

def start (filePath : Bytes) (packT : Int) (content : Bytes) : State where
  machine := SendPack.start filePath packT
  left := content
  descriptor := none
  failed := false
  packets := []
  sent := []
  granted := []
  returned := []

/-- The system calls fail with -1. A descriptor that is none cannot be read. -/
def Possible (state : State) (reply : Reply) : Prop :=
  match state.machine.pc, reply with
  | .stat, .size size => -1 ≤ size
  | .openFile, .fd fd => -1 ≤ fd
  | .read, .data none => True
  | .read, .data (some bytes) =>
      state.descriptor ≠ some (-1) ∧ bytes <+: state.left ∧ (bytes = [] ↔ state.left = []) ∧
        bytes.length ≤ maxline
  | .query, .grant speed => speed ≠ 0
  | .sendto, .sent _ => True
  | _, .done => True
  | _, _ => False

instance decidablePossible (state : State) (reply : Reply) : Decidable (Possible state reply) := by
  unfold Possible
  split <;> infer_instance

/-- What a call leaves in the file, at the descriptor and in the history. -/
def record (order : Endian) (state : State) (reply : Reply) : State :=
  match call order state.machine, reply with
  | some (.stat _), .size size => { state with failed := state.failed || size < 0 }
  | some (.openFile _), .fd fd => 
      { state with descriptor := some fd, failed := state.failed || fd < 0 }
  | some .read, .data none => { state with failed := true }
  | some .read, .data (some bytes) => { state with left := state.left.drop bytes.length }
  | some .querySpeed, .grant speed => { state with granted := state.granted ++ [speed] }
  | some (.returnSpeed speed), _ => { state with returned := state.returned ++ [speed] }
  | some (.sendto msg), .sent ok =>
      { state with
        packets := state.packets ++ [⟨state.machine.protocol, state.machine.recvBuff⟩]
        sent := state.sent ++ [msg]
        failed := state.failed || !ok }
  | _, _ => state

def step (order : Endian) (state : State) (reply : Reply) : Option State :=
  if Possible state reply then
    (resume state.machine reply).map fun machine => { record order state reply with machine := machine }
  else none

/-- What one call can do. -/
inductive Moves (order : Endian) (state : State) : Reply → State → Prop where
  | stat (size : Int) (at_ : state.machine.pc = .stat) (low : -1 ≤ size) :
      Moves order state (.size size) { state with
        failed := state.failed || size < 0
        machine := { state.machine with
          fileSize := size, pc := if size < 0 then .finished (-1) else .openFile } }
  | openFile (fd : Int) (at_ : state.machine.pc = .openFile) (low : -1 ≤ fd) :
      Moves order state (.fd fd) { state with
        descriptor := some fd
        failed := state.failed || fd < 0
        machine := { state.machine with pc := if fd = 0 then .errClose else .read } }
  | readFails (at_ : state.machine.pc = .read) :
      Moves order state (.data none) { state with
        failed := true, machine := { state.machine with pc := .errClose } }
  | endOfFile (at_ : state.machine.pc = .read) (readable : state.descriptor ≠ some (-1))
      (empty : state.left = []) :
      Moves order state (.data (some [])) { state with
        machine := { state.machine with
          pc := if state.machine.queryed ≠ 0 then .okGiveBack else .okClose } }
  | read (bytes : Bytes) (at_ : state.machine.pc = .read) (readable : state.descriptor ≠ some (-1))
      (front : bytes <+: state.left) (some_ : bytes ≠ []) (fits : bytes.length ≤ maxline) :
      Moves order state (.data (some bytes)) { state with
        left := state.left.drop bytes.length
        machine := { packed state.machine bytes with pc := afterRead (packed state.machine bytes) } }
  | giveBack (at_ : state.machine.pc = .giveBack) :
      Moves order state .done { state with
        returned := state.returned ++ [state.machine.queryed]
        machine := { state.machine with queryed := 0, pc := .query } }
  | query (speed : Int) (at_ : state.machine.pc = .query) (nonzero : speed ≠ 0) :
      Moves order state (.grant speed) { state with
        granted := state.granted ++ [speed]
        machine := { state.machine with
          queryed := speed, waitT := (8016 * state.machine.packT).tdiv speed, pc := .sendto } }
  | sendto (ok : Bool) (at_ : state.machine.pc = .sendto) :
      Moves order state (.sent ok) { state with
        packets := state.packets ++ [⟨state.machine.protocol, state.machine.recvBuff⟩]
        sent := state.sent ++ [message order state.machine]
        failed := state.failed || !ok
        machine := { state.machine with
          pc := if ok then if state.machine.packNu = 1 then .sleepFirst else afterSend state.machine
            else .errClose } }
  | sleepFirst (at_ : state.machine.pc = .sleepFirst) :
      Moves order state .done { state with
        machine := { state.machine with pc := afterSend state.machine } }
  | sleepBatch (at_ : state.machine.pc = .sleepBatch) :
      Moves order state .done { state with machine := { state.machine with pc := .read } }
  | okGiveBack (at_ : state.machine.pc = .okGiveBack) :
      Moves order state .done { state with
        returned := state.returned ++ [state.machine.queryed]
        machine := { state.machine with pc := .okClose } }
  | okClose (at_ : state.machine.pc = .okClose) :
      Moves order state .done { state with machine := { state.machine with pc := .finished 0 } }
  | errClose (at_ : state.machine.pc = .errClose) :
      Moves order state .done { state with
        machine := { state.machine with
          pc := if state.machine.queryed ≠ 0 then .errGiveBack else .finished (-1) } }
  | errGiveBack (at_ : state.machine.pc = .errGiveBack) :
      Moves order state .done { state with
        returned := state.returned ++ [state.machine.queryed]
        machine := { state.machine with pc := .finished (-1) } }

/-- The datagrams of the packets, numbered from 1 on. -/
def messages (order : Endian) (filePath : Bytes) (fileSize : Int) (packets : List Packet) :
    List Bytes :=
  packets.mapIdx fun index packet =>
    datagram order version packet.protocol (index + 1 : Nat) fileSize filePath packet.part

/-- The bytes of a packet that is made and not sent. -/
def pending (machine : SendPack.State) : List Bytes :=
  match machine.pc with
  | .giveBack | .query | .sendto => [machine.recvBuff]
  | _ => []

/-- How the calls made so far came out. -/
def Outcome (state : State) : Prop :=
  match state.machine.pc with
  | .stat | .openFile =>
      state.failed = false ∧ state.descriptor = none ∧ state.packets = []
  | .read => state.descriptor ≠ some 0 ∧ (state.failed = true ↔ state.descriptor = some (-1))
  | .errClose | .errGiveBack => state.failed = true ↔ state.descriptor ≠ some 0
  | .okGiveBack | .okClose =>
      state.failed = false ∧ state.descriptor ≠ some 0 ∧ state.left = []
  | .finished ret =>
      (ret = 0 ∧ state.failed = false ∧ state.descriptor ≠ some 0 ∧ state.left = []) ∨
        (ret = -1 ∧ (state.failed = true ↔ state.descriptor ≠ some 0))
  | .dividedByZero => False
  | _ => state.failed = false ∧ state.descriptor ≠ some 0 ∧ state.descriptor ≠ some (-1)

/-- The grant that the call holds. -/
def outstanding (machine : SendPack.State) : List Int :=
  if held machine = 0 then [] else [held machine]

/-- The packets so far, the one that is made and what is left are the content. -/
structure Flow (order : Endian) (content : Bytes) (state : State) : Prop where
  bytes : (state.packets.map Packet.part ++ pending state.machine).flatten ++ state.left = content
  parts : ∀ part ∈ state.packets.map Packet.part ++ pending state.machine,
    part ≠ [] ∧ part.length ≤ maxline
  packNu : state.machine.packNu = (state.packets.length + (pending state.machine).length : Nat)
  sent : state.sent =
    messages order state.machine.filePath state.machine.fileSize state.packets

structure Inv (order : Endian) (content : Bytes) (state : State) : Prop where
  packT : 1 ≤ state.machine.packT
  ready : Ready state.machine
  outcome : Outcome state
  flow : Flow order content state
  quota : state.granted = state.returned ++ outstanding state.machine

/-- No more calls than this are left. -/
def measure (state : State) : Nat :=
  7 * state.left.length +
    match state.machine.pc with
    | .stat => 5
    | .openFile => 4
    | .giveBack => 8
    | .query => 7
    | .sendto => 6
    | .sleepFirst => 5
    | .sleepBatch => 4
    | .read => 3
    | .okGiveBack | .errClose => 2
    | .okClose | .errGiveBack => 1
    | .finished _ | .dividedByZero => 0

/-- The reply of a call that goes well. -/
def onward (state : State) : Reply :=
  match state.machine.pc with
  | .stat => .size state.left.length
  | .openFile => .fd 3
  | .read => .data (if state.descriptor = some (-1) then none else some (state.left.take maxline))
  | .query => .grant 320
  | .sendto => .sent true
  | _ => .done

def Finished (state : State) : Prop := ∃ ret, state.machine.pc = .finished ret

section
variable {order : Endian} {content : Bytes} {state next : State} {reply : Reply}

theorem step_moves (h : step order state reply = some next) : Moves order state reply next := by
  unfold step at h
  split at h
  case isFalse => contradiction
  rename_i hpossible
  obtain ⟨machine, hresume, rfl⟩ := Option.map_eq_some_iff.mp h
  unfold resume at hresume
  split at hresume
  · -- stat
    rename_i size hpc
    cases hresume
    simp only [Possible, hpc] at hpossible
    simpa [record, call, hpc] using @Moves.stat order _ size hpc hpossible
  · -- openFile
    rename_i fd hpc
    cases hresume
    simp only [Possible, hpc] at hpossible
    simpa [record, call, hpc] using @Moves.openFile order _ fd hpc hpossible
  · -- a failed read
    rename_i hpc
    cases hresume
    simpa [record, call, hpc] using @Moves.readFails order _ hpc
  · -- the end of the file
    rename_i hpc
    cases hresume
    simp only [Possible, hpc] at hpossible
    obtain ⟨hreadable, -, hempty, -⟩ := hpossible
    simpa [record, call, hpc] using
      @Moves.endOfFile order _ hpc hreadable (hempty.mp trivial)
  · -- read
    rename_i bytes hnonempty hpc
    simp only [Possible, hpc] at hpossible
    obtain ⟨hreadable, hfront, -, hfits⟩ := hpossible
    rw [if_pos hfits] at hresume
    cases hresume
    simpa [record, call, hpc] using
      @Moves.read order _ bytes hpc hreadable hfront (fun hnil => hnonempty (by rw [hnil])) hfits
  · -- giveBack
    rename_i hpc
    cases hresume
    simpa [record, call, hpc] using @Moves.giveBack order _ hpc
  · -- query
    rename_i speed hpc
    simp only [Possible, hpc] at hpossible
    rw [if_neg hpossible] at hresume
    cases hresume
    simpa [record, call, hpc] using @Moves.query order _ speed hpc hpossible
  · -- a failed sendto
    rename_i hpc
    cases hresume
    simpa [record, call, hpc] using @Moves.sendto order _ false hpc
  · -- sendto
    rename_i hpc
    cases hresume
    simpa [record, call, hpc] using @Moves.sendto order _ true hpc
  · -- sleepFirst
    rename_i hpc
    cases hresume
    simpa [record, call, hpc] using @Moves.sleepFirst order _ hpc
  · -- sleepBatch
    rename_i hpc
    cases hresume
    simpa [record, call, hpc] using @Moves.sleepBatch order _ hpc
  · -- okGiveBack
    rename_i hpc
    cases hresume
    simpa [record, call, hpc] using @Moves.okGiveBack order _ hpc
  · -- okClose
    rename_i hpc
    cases hresume
    simpa [record, call, hpc] using @Moves.okClose order _ hpc
  · -- errClose
    rename_i hpc
    cases hresume
    simpa [record, call, hpc] using @Moves.errClose order _ hpc
  · -- errGiveBack
    rename_i hpc
    cases hresume
    simpa [record, call, hpc] using @Moves.errGiveBack order _ hpc
  · -- no such reply
    contradiction

theorem inv_start {packT : Int} (h : 1 ≤ packT) (filePath content : Bytes) :
    Inv order content (start filePath packT content) where
  packT := h
  ready := rfl
  outcome := ⟨rfl, rfl, rfl⟩
  flow := ⟨rfl, by simp [start, pending, SendPack.start], rfl, rfl⟩
  quota := rfl

@[simp] theorem messages_append (order : Endian) (filePath : Bytes) (fileSize : Int)
    (packets : List Packet) (packet : Packet) :
    messages order filePath fileSize (packets ++ [packet]) =
      messages order filePath fileSize packets ++
        [datagram order version packet.protocol (packets.length + 1 : Nat) fileSize filePath
          packet.part] := by
  simp [messages, List.mapIdx_append]

theorem Moves.quota (moves : Moves order state reply next) (ready : Ready state.machine)
    (quota : state.granted = state.returned ++ outstanding state.machine) :
    Ready next.machine ∧ next.granted = next.returned ++ outstanding next.machine := by
  unfold outstanding Ready at *
  cases moves with
  | stat size hpc low =>
    simp only [hpc] at ready
    by_cases hsize : size < 0
    · simpa [held, hpc, ready, hsize] using quota
    · simpa [held, hpc, ready, hsize] using quota
  | openFile fd hpc low =>
    simp only [hpc] at ready
    by_cases hfd : fd = 0
    · simpa [held, hpc, ready, hfd] using quota
    · simpa [held, hpc, ready, hfd] using quota
  | readFails hpc =>
    simp only [held, hpc] at quota
    exact ⟨trivial, quota⟩
  | endOfFile hpc readable empty =>
    by_cases hheld : state.machine.queryed = 0
    · simpa [held, hpc, hheld] using quota
    · simpa [held, hpc, hheld] using quota
  | read bytes hpc readable front nonempty fits =>
    have hqueryed : (packed state.machine bytes).queryed = state.machine.queryed := rfl
    simp only [held, hpc] at quota
    rcases afterRead_cases (packed state.machine bytes) with h | ⟨h, hheld⟩ | ⟨h, hheld⟩ | h
    · simpa [held, h, hqueryed] using quota
    · simpa [held, h, hqueryed, hqueryed ▸ hheld] using quota
    · simpa [held, h, hqueryed, hqueryed ▸ hheld] using quota
    · simpa [held, h, hqueryed] using quota
  | giveBack hpc =>
    simp only [hpc] at ready
    simpa [held, hpc, ready] using quota
  | query speed hpc nonzero =>
    simp only [hpc] at ready
    simp only [held, hpc, ready, if_true, List.append_nil] at quota
    simp [held, nonzero, quota]
  | sendto ok hpc =>
    simp only [held, hpc] at quota
    cases ok with
    | false => simpa [held] using quota
    | true =>
      by_cases hfirst : state.machine.packNu = 1
      · simpa [held, hfirst] using quota
      · rcases afterSend_cases state.machine with h | h | h
        all_goals simpa [held, hfirst, h] using quota
  | sleepFirst hpc =>
    simp only [held, hpc] at quota
    rcases afterSend_cases state.machine with h | h | h
    all_goals simpa [held, h] using quota
  | sleepBatch hpc =>
    simp only [held, hpc] at quota
    exact ⟨trivial, quota⟩
  | okGiveBack hpc =>
    simp only [hpc] at ready
    simpa [held, hpc, ready] using quota
  | okClose hpc => simpa [held, hpc] using quota
  | errClose hpc =>
    by_cases hheld : state.machine.queryed = 0
    · simpa [held, hpc, hheld] using quota
    · simpa [held, hpc, hheld] using quota
  | errGiveBack hpc =>
    simp only [hpc] at ready
    simpa [held, hpc, ready] using quota

theorem Moves.outcome (moves : Moves order state reply next) (packT : 1 ≤ state.machine.packT)
    (outcome : Outcome state) : Outcome next := by
  unfold Outcome at *
  cases moves with
  | stat size hpc low =>
    simp only [hpc] at outcome
    by_cases hsize : size < 0
    · simp [hsize, outcome]
    · simp [hsize, outcome]
  | openFile fd hpc low =>
    simp only [hpc] at outcome
    by_cases hfd : fd = 0
    · simp [hfd, outcome]
    · simp only [hfd, outcome.1, if_false, Bool.false_or, decide_eq_true_eq, Option.some.injEq]
      refine ⟨fun hzero => hfd (Option.some.inj hzero), ?_⟩
      omega
  | readFails hpc =>
    simp only [hpc] at outcome
    simp [outcome.1]
  | endOfFile hpc readable empty =>
    simp only [hpc] at outcome
    have hgood : state.failed = false := by simpa [readable] using outcome.2
    by_cases hheld : state.machine.queryed = 0
    · simp [hheld, outcome.1, hgood, empty]
    · simp [hheld, outcome.1, hgood, empty]
  | read bytes hpc readable front nonempty fits =>
    simp only [hpc] at outcome
    have hgood : state.failed = false := by simpa [readable] using outcome.2
    have hdefined : afterRead (packed state.machine bytes) ≠ .dividedByZero :=
      afterRead_defined packT
    rcases afterRead_cases (packed state.machine bytes) with h | ⟨h, -⟩ | ⟨h, -⟩ | h
    · exact absurd h hdefined
    all_goals simp [h, hgood, outcome.1, readable]
  | giveBack hpc => simpa [hpc] using outcome
  | query speed hpc nonzero => simpa [hpc] using outcome
  | sendto ok hpc =>
    simp only [hpc] at outcome
    cases ok with
    | false => simp [outcome]
    | true =>
      by_cases hfirst : state.machine.packNu = 1
      · simp [hfirst, outcome]
      · rcases afterSend_cases state.machine with h | h | h
        · exact absurd h (afterSend_defined packT)
        · simp [hfirst, h, outcome]
        · simp [hfirst, h, outcome]
  | sleepFirst hpc =>
    simp only [hpc] at outcome
    rcases afterSend_cases state.machine with h | h | h
    · exact absurd h (afterSend_defined packT)
    · simp [h, outcome]
    · simp [h, outcome]
  | sleepBatch hpc =>
    simp only [hpc] at outcome
    simp [outcome]
  | okGiveBack hpc => simpa [hpc] using outcome
  | okClose hpc =>
    simp only [hpc] at outcome
    simp [outcome]
  | errClose hpc =>
    simp only [hpc] at outcome
    by_cases hheld : state.machine.queryed = 0
    · simp [hheld, outcome]
    · simp [hheld, outcome]
  | errGiveBack hpc =>
    simp only [hpc] at outcome
    simp [outcome]

theorem pending_read (packT : 1 ≤ state.machine.packT) (bytes : Bytes) :
    pending { packed state.machine bytes with pc := afterRead (packed state.machine bytes) } =
      [bytes] := by
  have hdefined : afterRead (packed state.machine bytes) ≠ .dividedByZero := afterRead_defined packT
  rcases afterRead_cases (packed state.machine bytes) with h | ⟨h, -⟩ | ⟨h, -⟩ | h
  · exact absurd h hdefined
  all_goals
    simp only [pending, h]
    rfl

theorem pending_sendto (ok : Bool) :
    pending { state.machine with
      pc := if ok then if state.machine.packNu = 1 then .sleepFirst else afterSend state.machine
        else .errClose } = [] := by
  cases ok with
  | false => rfl
  | true =>
    by_cases hfirst : state.machine.packNu = 1
    · simp [pending, hfirst]
    · rcases afterSend_cases state.machine with h | h | h
      all_goals simp [pending, hfirst, h]

/-- A call that makes no packet and sends none. -/
structure Same (state next : State) : Prop where
  packets : next.packets = state.packets
  left : next.left = state.left
  sent : next.sent = state.sent
  pending : pending next.machine = pending state.machine
  packNu : next.machine.packNu = state.machine.packNu
  filePath : next.machine.filePath = state.machine.filePath
  sendCount : next.machine.sendCount = state.machine.sendCount
  protocol : next.machine.protocol = state.machine.protocol
  fileSize : state.machine.pc = .stat ∨ next.machine.fileSize = state.machine.fileSize

theorem Moves.same (moves : Moves order state reply next)
    (hread : ∀ bytes, bytes ≠ [] → reply ≠ .data (some bytes)) (hsendto : ∀ ok, reply ≠ .sent ok) :
    Same state next := by
  cases moves with
  | stat size hpc low =>
    refine ⟨rfl, rfl, rfl, ?_, rfl, rfl, rfl, rfl, .inl hpc⟩
    by_cases hsize : size < 0
    · simp [Transmission.pending, hpc, hsize]
    · simp [Transmission.pending, hpc, hsize]
  | openFile fd hpc low =>
    refine ⟨rfl, rfl, rfl, ?_, rfl, rfl, rfl, rfl, .inr rfl⟩
    by_cases hfd : fd = 0
    · simp [Transmission.pending, hpc, hfd]
    · simp [Transmission.pending, hpc, hfd]
  | endOfFile hpc readable empty =>
    refine ⟨rfl, rfl, rfl, ?_, rfl, rfl, rfl, rfl, .inr rfl⟩
    by_cases hheld : state.machine.queryed = 0
    · simp [Transmission.pending, hpc, hheld]
    · simp [Transmission.pending, hpc, hheld]
  | read bytes hpc readable front nonempty fits => exact absurd rfl (hread bytes nonempty)
  | sendto ok hpc => exact absurd rfl (hsendto ok)
  | sleepFirst hpc =>
    refine ⟨rfl, rfl, rfl, ?_, rfl, rfl, rfl, rfl, .inr rfl⟩
    rcases afterSend_cases state.machine with h | h | h
    all_goals simp [Transmission.pending, hpc, h]
  | errClose hpc =>
    refine ⟨rfl, rfl, rfl, ?_, rfl, rfl, rfl, rfl, .inr rfl⟩
    by_cases hheld : state.machine.queryed = 0
    · simp [Transmission.pending, hpc, hheld]
    · simp [Transmission.pending, hpc, hheld]
  | readFails hpc | giveBack hpc | query speed hpc nonzero | sleepBatch hpc | okGiveBack hpc
  | okClose hpc | errGiveBack hpc =>
    exact ⟨rfl, rfl, rfl, by simp [Transmission.pending, hpc], rfl, rfl, rfl, rfl, .inr rfl⟩

theorem Flow.of_same (h : Flow order content state) (same : Same state next)
    (outcome : Outcome state) : Flow order content next where
  bytes := by rw [same.packets, same.pending, same.left, h.bytes]
  parts := by
    rw [same.packets, same.pending]
    exact h.parts
  packNu := by rw [same.packNu, same.packets, same.pending, h.packNu]
  sent := by
    rw [same.sent, same.packets, same.filePath, h.sent]
    rcases same.fileSize with hpc | hsize
    · simp only [Outcome, hpc] at outcome
      rw [outcome.2.2]
      rfl
    · rw [hsize]

theorem Moves.flow (moves : Moves order state reply next) (packT : 1 ≤ state.machine.packT)
    (outcome : Outcome state) (h : Flow order content state) : Flow order content next := by
  have hsame := moves.same
  have hbytes := h.bytes
  have hparts := h.parts
  have hpackNu := h.packNu
  cases moves with
  | read bytes hpc readable front nonempty fits =>
    have hnone : pending state.machine = [] := by simp [pending, hpc]
    rw [hnone] at hbytes hparts hpackNu
    obtain ⟨rest, hrest⟩ := front
    refine ⟨?_, ?_, ?_, h.sent⟩
    · rw [pending_read packT, ← hbytes]
      simp [← hrest]
    · rw [pending_read packT]
      intro part hpart
      rcases List.mem_append.mp hpart with hpart | hpart
      · exact hparts part (List.mem_append_left _ hpart)
      · rw [List.mem_singleton.mp hpart]
        exact ⟨nonempty, fits⟩
    · rw [pending_read packT]
      simp only [packed, hpackNu]
      simp
  | sendto ok hpc =>
    have hmade : pending state.machine = [state.machine.recvBuff] := by simp [pending, hpc]
    rw [hmade] at hbytes hparts hpackNu
    refine ⟨?_, ?_, ?_, ?_⟩
    · rw [pending_sendto, ← hbytes]
      simp
    · rw [pending_sendto]
      simpa using hparts
    · rw [pending_sendto]
      simpa using hpackNu
    · dsimp only
      rw [messages_append, ← h.sent, message, hpackNu]
      rfl
  | _ => exact h.of_same (hsame (by simp [eq_comm]) (by simp)) outcome

theorem Moves.packT (moves : Moves order state reply next) :
    next.machine.packT = state.machine.packT := by
  cases moves with
  | _ => rfl

/-- No packet is counted modulo zero, and no quota divided by. -/
theorem Inv.defined (h : Inv order content state) : state.machine.pc ≠ .dividedByZero := by
  intro hpc
  have houtcome := h.outcome
  simp only [Outcome, hpc] at houtcome

theorem Inv.step (h : Inv order content state) (hstep : step order state reply = some next) :
    Inv order content next := by
  have moves := step_moves hstep
  obtain ⟨hready, hquota⟩ := moves.quota h.ready h.quota
  have hpackT : 1 ≤ next.machine.packT := by
    rw [moves.packT]
    exact h.packT
  have houtcome := moves.outcome h.packT h.outcome
  have hflow := moves.flow h.packT h.outcome h.flow
  exact ⟨hpackT, hready, houtcome, hflow, hquota⟩

theorem Moves.decreases (moves : Moves order state reply next) : measure next < measure state := by
  unfold measure
  cases moves with
  | stat size hpc low =>
    rw [hpc]
    by_cases hsize : size < 0
    · simp [hsize]
    · simp [hsize]
  | openFile fd hpc low =>
    rw [hpc]
    by_cases hfd : fd = 0
    · simp [hfd]
    · simp [hfd]
  | endOfFile hpc readable empty =>
    rw [hpc]
    by_cases hheld : state.machine.queryed = 0
    · simp [hheld]
    · simp [hheld]
  | read bytes hpc readable front nonempty fits =>
    have hpos := List.length_pos_iff.mpr nonempty
    have hle := front.length_le
    rw [hpc, List.length_drop]
    rcases afterRead_cases (packed state.machine bytes) with h | ⟨h, -⟩ | ⟨h, -⟩ | h
    all_goals
      rw [h]
      dsimp only
      omega
  | sendto ok hpc =>
    rw [hpc]
    cases ok with
    | false => simp
    | true =>
      by_cases hfirst : state.machine.packNu = 1
      · simp [hfirst]
      · rcases afterSend_cases state.machine with h | h | h
        all_goals simp [hfirst, h]
  | sleepFirst hpc =>
    rw [hpc]
    rcases afterSend_cases state.machine with h | h | h
    all_goals simp [h]
  | errClose hpc =>
    rw [hpc]
    by_cases hheld : state.machine.queryed = 0
    · simp [hheld]
    · simp [hheld]
  | readFails hpc | giveBack hpc | query speed hpc nonzero | sleepBatch hpc | okGiveBack hpc
  | okClose hpc | errGiveBack hpc => simp [hpc]

theorem resume_read (hpc : state.machine.pc = .read) (bytes : Bytes) (hfits : bytes.length ≤ maxline) :
    (resume state.machine (.data (some bytes))).isSome := by
  cases bytes with
  | nil => simp [resume, hpc]
  | cons byte rest =>
    simp only [resume, hpc, if_pos hfits]
    rfl

theorem Inv.onward (h : Inv order content state) (hnot : ¬Finished state) :
    (Transmission.step order state (onward state)).isSome := by
  suffices hboth : Possible state (Transmission.onward state) ∧
      (resume state.machine (Transmission.onward state)).isSome by
    rw [Transmission.step, if_pos hboth.1, Option.isSome_map]
    exact hboth.2
  have houtcome := h.outcome
  unfold Outcome at houtcome
  unfold Transmission.onward Possible
  cases hpc : state.machine.pc with
  | stat => exact ⟨by dsimp only; omega, by simp [resume, hpc]⟩
  | openFile => exact ⟨by dsimp only; omega, by simp [resume, hpc]⟩
  | read =>
    by_cases hbad : state.descriptor = some (-1)
    · simp [hbad, resume, hpc]
    · have hfits : (state.left.take maxline).length ≤ maxline := List.length_take_le _ _
      have htaken := resume_read hpc _ hfits
      simp only [if_neg hbad]
      refine ⟨⟨hbad, List.take_prefix _ _, ?_, hfits⟩, htaken⟩
      simp [maxline]
  | query => exact ⟨by dsimp only; omega, by simp [resume, hpc]⟩
  | finished ret => exact absurd ⟨ret, hpc⟩ hnot
  | dividedByZero =>
    rw [hpc] at houtcome
    contradiction
  | _ => exact ⟨trivial, by simp [resume, hpc]⟩

/-! ### What `SendPack_ex` returns -/

/-- The whole content, in packets numbered from 1 on. -/
structure Complete (order : Endian) (content : Bytes) (state : State) : Prop where
  sent : state.sent =
    messages order state.machine.filePath state.machine.fileSize state.packets
  content : (state.packets.map Packet.part).flatten = content
  parts : ∀ packet ∈ state.packets, packet.part ≠ [] ∧ packet.part.length ≤ maxline

/-- `SendPack_ex` has returned `ret`. -/
structure Right (order : Endian) (content : Bytes) (state : State) (ret : Int) : Prop where
  success : ret = 0 ↔ state.failed = false
  complete : ret = 0 → Complete order content state
  returned : state.returned = state.granted

theorem Inv.right_iff (h : Inv order content state) {ret : Int}
    (hpc : state.machine.pc = .finished ret) :
    Right order content state ret ↔ state.descriptor ≠ some 0 := by
  have houtcome := h.outcome
  simp only [Outcome, hpc] at houtcome
  have hquota : state.returned = state.granted := by
    have hquota := h.quota
    simpa [outstanding, held, hpc] using hquota.symm
  constructor
  · intro hright hzero
    rcases houtcome with ⟨-, -, hne, -⟩ | ⟨rfl, hfailed⟩
    · exact hne hzero
    · have hgood : state.failed = false := by simpa [hzero] using hfailed
      exact absurd (hright.success.mpr hgood) (by decide)
  · intro hne
    rcases houtcome with ⟨rfl, hgood, -, hleft⟩ | ⟨rfl, hfailed⟩
    · refine ⟨by simp [hgood], fun _ => ?_, hquota⟩
      have hpending : pending state.machine = [] := by simp [pending, hpc]
      have hbytes := h.flow.bytes
      have hparts := h.flow.parts
      rw [hpending, List.append_nil] at hbytes hparts
      rw [hleft, List.append_nil] at hbytes
      exact ⟨h.flow.sent, hbytes, fun packet hpacket => hparts _ (List.mem_map_of_mem hpacket)⟩
    · have hbad : state.failed = true := hfailed.mpr hne
      exact ⟨by simp [hbad], fun hret => absurd hret (by decide), hquota⟩

theorem descriptor_fd {fd : Int} (h : step order state (.fd fd) = some next) :
    state.machine.pc = .openFile ∧ next.descriptor = some fd := by
  unfold step at h
  split at h
  case isFalse => contradiction
  rename_i hpossible
  have hpc : state.machine.pc = .openFile := by
    unfold Possible at hpossible
    split at hpossible <;> simp_all
  obtain ⟨machine, -, rfl⟩ := Option.map_eq_some_iff.mp h
  simp [record, call, hpc]

theorem descriptor_other (hreply : ∀ fd, reply ≠ .fd fd) (h : step order state reply = some next) :
    next.descriptor = state.descriptor := by
  unfold step at h
  split at h
  case isFalse => contradiction
  obtain ⟨machine, -, rfl⟩ := Option.map_eq_some_iff.mp h
  unfold record
  split
  · rfl
  · rename_i fd _ _
    exact absurd rfl (hreply fd)
  all_goals rfl

/-- Descriptor 0 is held when `open` has answered it. -/
structure History (order : Endian) (content : Bytes) (past : List Reply) (state : State) : Prop where
  inv : Inv order content state
  descriptor : .fd 0 ∈ past ↔ state.descriptor = some 0

theorem History.step {past : List Reply} (h : History order content past state)
    (hstep : Transmission.step order state reply = some next) :
    History order content (past ++ [reply]) next := by
  refine ⟨h.inv.step hstep, ?_⟩
  cases reply with
  | fd fd =>
    obtain ⟨hpc, hnext⟩ := descriptor_fd hstep
    have houtcome := h.inv.outcome
    simp only [Outcome, hpc] at houtcome
    rw [hnext, List.mem_append, h.descriptor, houtcome.2.1]
    simp [eq_comm]
  | _ =>
    rw [descriptor_other (fun fd => by simp) hstep, ← h.descriptor]
    simp

/-- `SendPack_ex` returns after a bounded number of calls, holds at most one grant at a
time, and its return value, its packets and its quota are right exactly when `open`
did not return descriptor 0. -/
theorem transmits_exactly (order : Endian) (filePath content : Bytes) (packT : PackT)
    {replies : List Reply} {final : State}
    (run : exec (step order) (start filePath packT content) replies = some final) :
    (∃ grants, final.granted = final.returned ++ grants ∧ grants.length ≤ 1) ∧
      replies.length ≤ 7 * content.length + 5 ∧
      (Stuck (step order) (fun _ => True) final → Finished final) ∧
      ∀ ret, final.machine.pc = .finished ret →
        (Right order content final ret ↔ .fd 0 ∉ replies) := by
  have hstart : History order content [] (start filePath packT content) :=
    ⟨inv_start packT.property.1 filePath content, by simp [start]⟩
  obtain ⟨hinv, hdescriptor⟩ := exec_history (fun _ _ _ _ h hstep => h.step hstep) hstart run
  refine ⟨⟨_, hinv.quota, ?_⟩, ?_, ?_, ?_⟩
  · unfold outstanding
    split <;> simp
  · have hlength := exec_length_le' measure (fun _ => True)
      (fun _ _ _ _ hstep => ⟨trivial, (step_moves hstep).decreases⟩) trivial run
    have hstart : measure (start filePath packT content) = 7 * content.length + 5 := rfl
    omega
  · intro hstuck
    by_contra hnot
    have honward := hinv.onward hnot
    rw [hstuck _ trivial] at honward
    contradiction
  · intro ret hpc
    rw [hinv.right_iff hpc, ← List.nil_append replies, hdescriptor]

end

/-- A file of one byte whose `open` returns descriptor 0. -/
theorem descriptor_zero : ∃ final,
    exec (step .little) (start (ascii "f") 200 [7]) [.size 1, .fd 0, .done] = some final ∧
      final.machine.pc = .finished (-1) ∧ final.failed = false ∧
      ¬Right .little [7] final (-1) := by
  refine ⟨_, rfl, rfl, rfl, ?_⟩
  intro hright
  exact absurd (hright.success.mpr rfl) (by decide)

/-- The same file behind descriptor 3. -/
def sentByte : List Reply :=
  [.size 1, .fd 3, .data (some [7]), .grant 320, .sent true, .done, .data (some []), .done, .done]

theorem transmits_exactly_byte : ∃ final,
    exec (step .little) (start (ascii "f") 200 [7]) sentByte = some final ∧
      Right .little [7] final 0 := by
  have hreturns : (exec (step .little) (start (ascii "f") 200 [7]) sentByte).any
      (fun final => final.machine.pc = .finished 0) = true := by decide +kernel
  obtain ⟨final, run, hpc⟩ := (Option.any_eq_true _ _).mp hreturns
  have hexact := transmits_exactly .little (ascii "f") [7] ⟨200, by decide⟩ run
  exact ⟨final, run, (hexact.2.2.2 0 (of_decide_eq_true hpc)).mpr (by decide)⟩

end UdpFileProxy.Transmission
