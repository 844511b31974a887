import UdpFileProxy.FileHelper
import UdpFileProxy.Lib.Extension

/-! The two loops of `file_helper_copy` with their buffer, pointer and counts, for every
outcome of the calls, and as the copy inside `file_helper_move`. -/
namespace UdpFileProxy.CopyLoop
open Lib.Memory Lib.Run
open FileHelper (bufferSize)

def eintr : Int := 4

/-- What `open`, `read` and `write` return; `failed` is -1 with this `errno`. -/
inductive Reply where
  | opened (fd : Int)
  | data (bytes : Bytes)
  | wrote (count : Nat)
  | failed (errno : Int)
  deriving DecidableEq, Repr

/-- The call that is next. -/
inductive Pc where
  | openFrom
  | openTo
  | read
  | write
  | returned (ret : Int)
  deriving DecidableEq, Repr

/-- `ptr` is an offset into `buffer`. `accepted` is history: what `write` has taken. -/
structure State where
  buffer : Buffer bufferSize
  ptr : Nat
  bytesRead : Int
  bytesWrite : Int
  ret : Int
  pc : Pc
  accepted : Bytes

/-- The buffer is not initialised. -/
def start (buffer : Buffer bufferSize) : State where
  buffer := buffer
  ptr := 0
  bytesRead := 0
  bytesWrite := 0
  ret := 0
  pc := .openFrom
  accepted := []

def finish (state : State) : State := { state with pc := .returned state.ret }

/-- From the test of the outer loop to the next call. -/
def afterRead (state : State) (errno : Int) : State :=
  if state.bytesRead = 0 then finish state
  else if state.bytesRead = -1 ∧ errno ≠ eintr then finish { state with ret := -1 }
  else if state.bytesRead > 0 then { state with ptr := 0, pc := .write }
  else { state with pc := .read }

/-- Behind the inner loop. -/
def leave (state : State) : State :=
  if state.bytesWrite = -1 then finish { state with ret := -1 } else { state with pc := .read }

/-- From the test of the inner loop to the next call. -/
def afterWrite (state : State) (errno : Int) : State :=
  if state.bytesWrite = 0 then leave state
  else if state.bytesWrite = -1 ∧ errno ≠ eintr then leave { state with ret := -1 }
  else if state.bytesWrite = state.bytesRead then leave state
  else if state.bytesWrite > 0 then
    { state with
      ptr := state.ptr + state.bytesWrite.toNat
      bytesRead := state.bytesRead - state.bytesWrite }
  else state

/-- What `write` is called with; none when it is not inside the buffer. -/
def requested (state : State) : Option Bytes := state.buffer.read state.ptr state.bytesRead.toNat

/-- One call with its outcome. A call that returns no failure leaves `errno` alone, which
is not looked at then. -/
def step (state : State) (reply : Reply) : Option State :=
  match state.pc, reply with
  | .openFrom, .opened fd => some { state with pc := if fd = -1 then .returned (-1) else .openTo }
  | .openTo, .opened fd =>
      some { state with ret := 0, pc := if fd = -1 then .returned (-1) else .read }
  | .read, .data bytes =>
      if bytes.length ≤ bufferSize then
        some (afterRead { state with
          buffer := state.buffer.fill bytes
          bytesRead := bytes.length } 0)
      else none
  | .read, .failed errno => some (afterRead { state with bytesRead := -1 } errno)
  | .write, .wrote count =>
      (requested state).bind fun bytes =>
        if 0 < count ∧ count ≤ bytes.length then
          some (afterWrite { state with
            bytesWrite := count
            accepted := state.accepted ++ bytes.take count } 0)
        else none
  | .write, .failed errno => some (afterWrite { state with bytesWrite := -1 } errno)
  | _, _ => none

/-- The bytes that the reads returned. -/
def delivered (replies : List Reply) : Bytes :=
  (replies.filterMap fun reply =>
    match reply with
    | .data bytes => some bytes
    | _ => none).flatten

/-- A failure other than an interruption. -/
def Fatal : Reply → Prop
  | .failed errno => errno ≠ eintr
  | _ => False

def Clean (past : List Reply) : Prop := ∀ reply ∈ past, ¬Fatal reply

/-- `ptr` and `bytes_read` give the bytes that are still to be written. -/
structure Pending (state : State) (rest : Bytes) : Prop where
  range : requested state = some rest
  count : state.bytesRead = rest.length
  nonempty : rest ≠ []

/-- How far the copy has come. -/
inductive Stage (past : List Reply) (state : State) : Prop where
  | opening (hpc : state.pc = .openFrom ∨ state.pc = .openTo)
      (hall : state.accepted = delivered past) (hpast : Clean past)
  | read (hpc : state.pc = .read) (hret : state.ret = 0) (hall : state.accepted = delivered past)
      (hpast : Clean past)
  | write {rest : Bytes} (hpc : state.pc = .write) (hret : state.ret = 0)
      (hpending : Pending state rest) (hall : state.accepted ++ rest = delivered past)
      (hpast : Clean past)
  | finished (hpc : state.pc = .returned 0) (hall : state.accepted = delivered past)
      (hpast : Clean past)
  | failed (hpc : state.pc = .returned (-1))

section
variable {past replies : List Reply} {state next final : State} {reply : Reply} {bytes rest : Bytes}
  {errno : Int} {count : Nat} {move moved : FileHelper.State} {answer : FileHelper.Reply}

@[simp] theorem afterRead_end (h : state.bytesRead = 0) : afterRead state errno = finish state := if_pos h

@[simp] theorem afterRead_some (h : 0 < state.bytesRead) :
    afterRead state errno = { state with ptr := 0, pc := .write } := by
  rw [afterRead, if_neg (by omega), if_neg (by omega), if_pos h]

@[simp] theorem afterRead_fatal (h : state.bytesRead = -1) (hfatal : errno ≠ eintr) :
    afterRead state errno = finish { state with ret := -1 } := by
  rw [afterRead, if_neg (by omega), if_pos ⟨h, hfatal⟩]

@[simp] theorem afterRead_interrupted (h : state.bytesRead = -1) :
    afterRead state eintr = { state with pc := .read } := by
  rw [afterRead, if_neg (by omega), if_neg (by simp), if_neg (by omega)]

@[simp] theorem afterWrite_whole (h : 0 < state.bytesWrite) (hwhole : state.bytesWrite = state.bytesRead) :
    afterWrite state errno = { state with pc := .read } := by
  rw [afterWrite, if_neg (by omega), if_neg (by omega), if_pos hwhole, leave, if_neg (by omega)]

@[simp] theorem afterWrite_part (h : 0 < state.bytesWrite) (hpart : state.bytesWrite ≠ state.bytesRead) :
    afterWrite state errno = { state with
      ptr := state.ptr + state.bytesWrite.toNat
      bytesRead := state.bytesRead - state.bytesWrite } := by
  rw [afterWrite, if_neg (by omega), if_neg (by omega), if_neg hpart, if_pos h]

@[simp] theorem afterWrite_fatal (h : state.bytesWrite = -1) (hfatal : errno ≠ eintr) :
    afterWrite state errno = finish { state with ret := -1 } := by
  rw [afterWrite, if_neg (by omega), if_pos ⟨h, hfatal⟩, leave, if_pos h]

@[simp] theorem afterWrite_interrupted (h : state.bytesWrite = -1) (hread : 0 < state.bytesRead) :
    afterWrite state eintr = state := by
  rw [afterWrite, if_neg (by omega), if_neg (by simp), if_neg (by omega), if_neg (by omega)]

@[simp] theorem read_fill (buffer : Buffer bufferSize) (hlength : bytes.length ≤ bufferSize) :
    (buffer.fill bytes).read 0 bytes.length = some bytes := by
  rw [buffer.read_fill_of_le (by omega) hlength, List.drop_zero, List.take_length]

theorem read_rest {size : Nat} {buffer : Buffer size} {offset len : Nat}
    (h : buffer.read offset len = some rest) (hcount : count ≤ len) :
    buffer.read (offset + count) (len - count) = some (rest.drop count) := by
  unfold Buffer.read at h ⊢
  split at h
  · cases h
    rw [if_pos (by omega), List.drop_take, List.drop_drop]
  · contradiction

theorem Pending.pos (h : Pending state rest) : 0 < state.bytesRead := by
  have hpos := List.length_pos_iff.mpr h.nonempty
  have hcount := h.count
  omega

theorem pending_data (state : State) (hlength : bytes.length ≤ bufferSize) (hne : bytes ≠ []) :
    Pending { state with
      buffer := state.buffer.fill bytes, bytesRead := bytes.length, ptr := 0, pc := .write } bytes where
  range := read_fill state.buffer hlength
  count := rfl
  nonempty := hne

theorem Pending.advance (h : Pending state rest) (hcount : count < rest.length) (accepted : Bytes) :
    Pending { state with
      bytesWrite := count, accepted := accepted, ptr := state.ptr + count
      bytesRead := state.bytesRead - count } (rest.drop count) where
  range := by
    have hlength := h.count
    have hrest := read_rest h.range (by omega : count ≤ state.bytesRead.toNat)
    have hleft : state.bytesRead.toNat - count = (state.bytesRead - (count : Int)).toNat := by omega
    rw [hleft] at hrest
    exact hrest
  count := by
    have hlength := h.count
    rw [List.length_drop]
    dsimp only
    omega
  nonempty := by
    rw [Ne, List.drop_eq_nil_iff]
    omega

theorem step_data (hpc : state.pc = .read) (hret : state.ret = 0) (hlength : bytes.length ≤ bufferSize) :
    ∃ next, step state (.data bytes) = some next ∧ next.accepted = state.accepted ∧ next.ret = 0 ∧
      (bytes = [] ∧ next.pc = .returned 0 ∨ bytes ≠ [] ∧ next.pc = .write ∧ Pending next bytes) := by
  have htaken : step state (.data bytes) = some (afterRead { state with
      buffer := state.buffer.fill bytes, bytesRead := bytes.length } 0) := by
    cases state
    cases hpc
    exact if_pos hlength
  refine ⟨_, htaken, ?_⟩
  by_cases hnil : bytes = []
  · subst hnil
    rw [afterRead_end rfl]
    exact ⟨rfl, hret, .inl ⟨rfl, congrArg Pc.returned hret⟩⟩
  · have hpos := List.length_pos_iff.mpr hnil
    rw [afterRead_some (by dsimp only; omega)]
    exact ⟨rfl, hret, .inr ⟨hnil, rfl, pending_data state hlength hnil⟩⟩

theorem step_readFailed (hpc : state.pc = .read) (hret : state.ret = 0) (errno : Int) :
    ∃ next, step state (.failed errno) = some next ∧ next.accepted = state.accepted ∧
      (errno = eintr ∧ next.pc = .read ∧ next.ret = 0 ∨ errno ≠ eintr ∧ next.pc = .returned (-1)) := by
  have htaken : step state (.failed errno) =
      some (afterRead { state with bytesRead := -1 } errno) := by
    cases state
    cases hpc
    rfl
  refine ⟨_, htaken, ?_⟩
  by_cases hfatal : errno = eintr
  · rw [hfatal, afterRead_interrupted rfl]
    exact ⟨rfl, .inl ⟨rfl, rfl, hret⟩⟩
  · rw [afterRead_fatal rfl hfatal]
    exact ⟨rfl, .inr ⟨hfatal, rfl⟩⟩

theorem step_wrote (hpc : state.pc = .write) (hret : state.ret = 0) (hpending : Pending state rest)
    (hpos : 0 < count) (hle : count ≤ rest.length) :
    ∃ next, step state (.wrote count) = some next ∧
      next.accepted = state.accepted ++ rest.take count ∧ next.ret = 0 ∧
      (count = rest.length ∧ next.pc = .read ∨
        count < rest.length ∧ next.pc = .write ∧ Pending next (rest.drop count)) := by
  have hcount := hpending.count
  have htaken : step state (.wrote count) = some (afterWrite { state with
      bytesWrite := count, accepted := state.accepted ++ rest.take count } 0) := by
    cases state
    cases hpc
    exact (congrArg (Option.bind · _) hpending.range).trans (if_pos ⟨hpos, hle⟩)
  refine ⟨_, htaken, ?_⟩
  by_cases hwhole : count = rest.length
  · rw [afterWrite_whole (by dsimp only; omega) (by dsimp only; omega)]
    exact ⟨rfl, hret, .inl ⟨hwhole, rfl⟩⟩
  · have hpart : count < rest.length := by omega
    rw [afterWrite_part (by dsimp only; omega) (by dsimp only; omega)]
    exact ⟨rfl, hret, .inr ⟨hpart, hpc, hpending.advance hpart _⟩⟩

theorem step_writeFailed (hpc : state.pc = .write) (hret : state.ret = 0)
    (hpending : Pending state rest) (errno : Int) :
    ∃ next, step state (.failed errno) = some next ∧ next.accepted = state.accepted ∧
      (errno = eintr ∧ next.pc = .write ∧ next.ret = 0 ∧ Pending next rest ∨
        errno ≠ eintr ∧ next.pc = .returned (-1)) := by
  have htaken : step state (.failed errno) =
      some (afterWrite { state with bytesWrite := -1 } errno) := by
    cases state
    cases hpc
    rfl
  refine ⟨_, htaken, ?_⟩
  by_cases hfatal : errno = eintr
  · rw [hfatal, afterWrite_interrupted rfl (by exact hpending.pos)]
    exact ⟨rfl, .inl ⟨rfl, hpc, hret, hpending.range, hpending.count, hpending.nonempty⟩⟩
  · rw [afterWrite_fatal rfl hfatal]
    exact ⟨rfl, .inr ⟨hfatal, rfl⟩⟩

@[simp] theorem delivered_append (past : List Reply) (reply : Reply) :
    delivered (past ++ [reply]) = delivered past ++ delivered [reply] := by
  simp [delivered]

theorem delivered_quiet (hreply : delivered [reply] = []) :
    delivered (past ++ [reply]) = delivered past := by
  simp [hreply]

theorem clean_append (hpast : Clean past) (hreply : ¬Fatal reply) : Clean (past ++ [reply]) := by
  intro other hother
  rcases List.mem_append.mp hother with hold | hnew
  · exact hpast other hold
  · rw [List.mem_singleton.mp hnew]
    exact hreply

theorem stage_start (buffer : Buffer bufferSize) : Stage [] (start buffer) :=
  .opening (.inl rfl) rfl (by simp [Clean])

theorem Stage.openStep (hpc : state.pc = .openFrom ∨ state.pc = .openTo)
    (hall : state.accepted = delivered past) (hpast : Clean past)
    (hstep : CopyLoop.step state reply = some next) : Stage (past ++ [reply]) next := by
  rcases hpc with hpc | hpc <;> cases reply <;>
    simp only [CopyLoop.step, hpc, reduceCtorEq, Option.some.injEq] at hstep <;> subst hstep
  all_goals
    rename_i fd
    have hall' : state.accepted = delivered (past ++ [.opened fd]) := by
      rw [delivered_quiet rfl, hall]
    have hpast' : Clean (past ++ [.opened fd]) := clean_append hpast (by simp [Fatal])
    by_cases hfd : fd = -1
  · exact .failed (if_pos hfd)
  · exact .opening (.inr (if_neg hfd)) hall' hpast'
  · exact .failed (if_pos hfd)
  · exact .read (if_neg hfd) rfl hall' hpast'

theorem Stage.readStep (hpc : state.pc = .read) (hret : state.ret = 0)
    (hall : state.accepted = delivered past) (hpast : Clean past)
    (hstep : CopyLoop.step state reply = some next) : Stage (past ++ [reply]) next := by
  cases reply with
  | data bytes =>
    have hlength : bytes.length ≤ bufferSize := by
      by_contra hlong
      simp [CopyLoop.step, hpc, hlong] at hstep
    have hpast' : Clean (past ++ [.data bytes]) := clean_append hpast (by simp [Fatal])
    have hdelivered : delivered (past ++ [.data bytes]) = state.accepted ++ bytes := by
      simp [hall, delivered]
    obtain ⟨after, htaken, haccepted, hret', hcases⟩ := step_data hpc hret hlength
    cases htaken.symm.trans hstep
    rcases hcases with ⟨rfl, hpc'⟩ | ⟨-, hpc', hpending⟩
    · refine .finished hpc' ?_ hpast'
      rw [hdelivered, haccepted, List.append_nil]
    · refine .write hpc' hret' hpending ?_ hpast'
      rw [hdelivered, haccepted]
  | failed errno =>
    obtain ⟨after, htaken, haccepted, hcases⟩ := step_readFailed hpc hret errno
    cases htaken.symm.trans hstep
    rcases hcases with ⟨rfl, hpc', hret'⟩ | ⟨-, hpc'⟩
    · refine .read hpc' hret' ?_ (clean_append hpast (by simp [Fatal]))
      rw [haccepted, hall, delivered_quiet rfl]
    · exact .failed hpc'
  | opened fd => simp [CopyLoop.step, hpc] at hstep
  | wrote count => simp [CopyLoop.step, hpc] at hstep

theorem Stage.writeStep (hpc : state.pc = .write) (hret : state.ret = 0)
    (hpending : Pending state rest) (hall : state.accepted ++ rest = delivered past)
    (hpast : Clean past) (hstep : CopyLoop.step state reply = some next) :
    Stage (past ++ [reply]) next := by
  cases reply with
  | wrote count =>
    have hcount : 0 < count ∧ count ≤ rest.length := by
      by_contra hother
      simp [CopyLoop.step, hpc, hpending.range, hother] at hstep
    have hpast' : Clean (past ++ [.wrote count]) := clean_append hpast (by simp [Fatal])
    obtain ⟨after, htaken, haccepted, hret', hcases⟩ :=
      step_wrote hpc hret hpending hcount.1 hcount.2
    cases htaken.symm.trans hstep
    rcases hcases with ⟨hwhole, hpc'⟩ | ⟨-, hpc', hpending'⟩
    · refine .read hpc' hret' ?_ hpast'
      rw [delivered_quiet rfl, ← hall, haccepted, hwhole, List.take_length]
    · refine .write hpc' hret' hpending' ?_ hpast'
      rw [delivered_quiet rfl, ← hall, haccepted, List.append_assoc, List.take_append_drop]
  | failed errno =>
    obtain ⟨after, htaken, haccepted, hcases⟩ := step_writeFailed hpc hret hpending errno
    cases htaken.symm.trans hstep
    rcases hcases with ⟨rfl, hpc', hret', hpending'⟩ | ⟨-, hpc'⟩
    · refine .write hpc' hret' hpending' ?_ (clean_append hpast (by simp [Fatal]))
      rw [delivered_quiet rfl, ← hall, haccepted]
    · exact .failed hpc'
  | opened fd => simp [CopyLoop.step, hpc] at hstep
  | data bytes => simp [CopyLoop.step, hpc] at hstep

theorem Stage.step (h : Stage past state) (hstep : CopyLoop.step state reply = some next) :
    Stage (past ++ [reply]) next := by
  cases h with
  | opening hpc hall hpast => exact .openStep hpc hall hpast hstep
  | read hpc hret hall hpast => exact .readStep hpc hret hall hpast hstep
  | write hpc hret hpending hall hpast => exact .writeStep hpc hret hpending hall hpast hstep
  | finished hpc => simp [CopyLoop.step, hpc] at hstep
  | failed hpc => simp [CopyLoop.step, hpc] at hstep

/-- What the loops see of a call of the move. -/
def lower (move : FileHelper.State) : FileHelper.Reply → List Reply
  | .rename _ | .unlink _ => []
  | .openSrc opened | .openDes opened => [.opened (if opened then 0 else -1)]
  | .read (.done count) => [.data ((move.src.getD []).drop move.fromPos |>.take count)]
  | .write (.done count) => [.wrote count]
  | .read .interrupted | .write .interrupted => [.failed eintr]
  | .read .failed | .write .failed => [.failed 0]

/-- The loops are where the copy of the move is, and have written what it has read, but for the
pending bytes. -/
inductive Mirrors (content : Bytes) (move : FileHelper.State) (state : State) : Prop where
  | openFrom (hpc : state.pc = .openFrom) (hmove : move.pc = .rename ∨ move.pc = .openSrc)
      (hsrc : move.src = some content) (hall : state.accepted = [])
  | renamed (hpc : state.pc = .openFrom) (hmove : move.pc = .returned 0)
  | openTo (hpc : state.pc = .openTo) (hmove : move.pc = .openDes) (hsrc : move.src = some content)
      (hpos : move.fromPos = 0) (hall : state.accepted = [])
  | read (hpc : state.pc = .read) (hret : state.ret = 0) (hmove : move.pc = .read)
      (hsrc : move.src = some content) (hall : state.accepted = content.take move.fromPos)
  | write {rest : Bytes} (hpc : state.pc = .write) (hret : state.ret = 0)
      (hpending : Pending state rest) (hmove : move.pc = .write rest)
      (hsrc : move.src = some content) (hall : state.accepted ++ rest = content.take move.fromPos)
  | copied (hpc : state.pc = .returned 0) (hmove : move.pc = .unlink ∨ move.pc = .returned 0)
      (hall : state.accepted = content)
  | failed (hpc : state.pc = .returned (-1)) (hmove : move.pc = .returned (-1))

theorem exec_one (h : CopyLoop.step state reply = some next) :
    exec CopyLoop.step state [reply] = some next :=
  exec_cons_eq_some.mpr ⟨next, h, rfl⟩

theorem Mirrors.readStep {content : Bytes} (hpc : state.pc = .read) (hret : state.ret = 0)
    (hmove : move.pc = .read) (hsrc : move.src = some content)
    (hall : state.accepted = content.take move.fromPos)
    (hstep : FileHelper.step move answer = some moved) : ∃ next,
      exec CopyLoop.step state (lower move answer) = some next ∧ Mirrors content moved next := by
  cases answer <;> simp only [FileHelper.step, hmove, reduceCtorEq] at hstep
  rename_i outcome
  cases outcome with
  | interrupted =>
    cases hstep
    obtain ⟨next, htaken, haccepted, hcases⟩ := step_readFailed hpc hret eintr
    rcases hcases with ⟨-, hpc', hret'⟩ | ⟨hne, -⟩
    · exact ⟨next, exec_one htaken, .read hpc' hret' hmove hsrc (haccepted.trans hall)⟩
    · contradiction
  | failed =>
    cases hstep
    obtain ⟨next, htaken, -, hcases⟩ := step_readFailed hpc hret 0
    rcases hcases with ⟨hzero, -⟩ | ⟨-, hpc'⟩
    · contradiction
    · exact ⟨next, exec_one htaken, .failed hpc' rfl⟩
  | done count =>
    obtain ⟨bytes, hbytes, hstep⟩ := Option.bind_eq_some_iff.mp hstep
    obtain rfl := Option.some.inj (hsrc.symm.trans hbytes)
    rw [Option.ite_none_right_eq_some] at hstep
    obtain ⟨⟨hsize, hlength, hend⟩, hnext⟩ := hstep
    obtain ⟨next, htaken, haccepted, hret', hcases⟩ := step_data hpc hret (hlength.trans_le hsize)
    have hlower : lower move (.read (.done count)) =
        [.data ((content.drop move.fromPos).take count)] := by
      rw [lower, hsrc]
      rfl
    rw [hlower]
    refine ⟨next, exec_one htaken, ?_⟩
    rcases hcases with ⟨hnil, hpc'⟩ | ⟨hne, hpc', hpending⟩
    · have hzero : count = 0 := by rw [← hlength, hnil, List.length_nil]
      rw [if_pos hzero] at hnext
      cases hnext
      refine .copied hpc' (.inl rfl) ?_
      rw [haccepted, hall, List.take_of_length_le (hend hzero)]
    · have hpos : count ≠ 0 := by
        rw [← hlength, Ne, List.length_eq_zero_iff]
        exact hne
      rw [if_neg hpos] at hnext
      cases hnext
      refine .write hpc' hret' hpending rfl hsrc ?_
      rw [haccepted, hall, List.take_add]

theorem Mirrors.writeStep {content : Bytes} (hpc : state.pc = .write) (hret : state.ret = 0)
    (hpending : Pending state rest) (hmove : move.pc = .write rest) (hsrc : move.src = some content)
    (hall : state.accepted ++ rest = content.take move.fromPos)
    (hstep : FileHelper.step move answer = some moved) : ∃ next,
      exec CopyLoop.step state (lower move answer) = some next ∧ Mirrors content moved next := by
  cases answer <;> simp only [FileHelper.step, hmove, reduceCtorEq] at hstep
  rename_i outcome
  cases outcome with
  | interrupted =>
    cases hstep
    obtain ⟨next, htaken, haccepted, hcases⟩ := step_writeFailed hpc hret hpending eintr
    rcases hcases with ⟨-, hpc', hret', hpending'⟩ | ⟨hne, -⟩
    · refine ⟨next, exec_one htaken, .write hpc' hret' hpending' hmove hsrc ?_⟩
      rw [haccepted, hall]
    · contradiction
  | failed =>
    cases hstep
    obtain ⟨next, htaken, -, hcases⟩ := step_writeFailed hpc hret hpending 0
    rcases hcases with ⟨hzero, -⟩ | ⟨-, hpc'⟩
    · contradiction
    · exact ⟨next, exec_one htaken, .failed hpc' rfl⟩
  | done count =>
    obtain ⟨des, -, hstep⟩ := Option.bind_eq_some_iff.mp hstep
    rw [Option.ite_none_right_eq_some] at hstep
    obtain ⟨⟨hpos, hle⟩, hnext⟩ := hstep
    cases hnext
    obtain ⟨next, htaken, haccepted, hret', hcases⟩ := step_wrote hpc hret hpending hpos hle
    refine ⟨next, exec_one htaken, ?_⟩
    rcases hcases with ⟨hwhole, hpc'⟩ | ⟨hpart, hpc', hpending'⟩
    · refine .read hpc' hret' (if_pos hwhole) hsrc ?_
      rw [haccepted, hwhole, List.take_length, hall]
    · refine .write hpc' hret' hpending' (if_neg hpart.ne) hsrc ?_
      rw [haccepted, List.append_assoc, List.take_append_drop, hall]

theorem Mirrors.step {content : Bytes} (h : Mirrors content move state)
    (hstep : FileHelper.step move answer = some moved) : ∃ next,
      exec CopyLoop.step state (lower move answer) = some next ∧ Mirrors content moved next := by
  cases h with
  | openFrom hpc hmove hsrc hall =>
    rcases hmove with hmove | hmove
    · cases answer <;> simp only [FileHelper.step, hmove, reduceCtorEq, Option.some.injEq] at hstep
      rename_i succeeded
      subst hstep
      cases succeeded with
      | true => exact ⟨state, rfl, .renamed hpc rfl⟩
      | false => exact ⟨state, rfl, .openFrom hpc (.inr rfl) hsrc hall⟩
    · cases answer <;> simp only [FileHelper.step, hmove, reduceCtorEq, Option.some.injEq] at hstep
      rename_i opened
      subst hstep
      cases state
      cases hpc
      cases opened with
      | true => exact ⟨_, rfl, .openTo rfl rfl hsrc rfl hall⟩
      | false => exact ⟨_, rfl, .failed rfl rfl⟩
  | renamed _ hmove => simp [FileHelper.step, hmove] at hstep
  | openTo hpc hmove hsrc hpos hall =>
    cases answer <;> simp only [FileHelper.step, hmove, reduceCtorEq, Option.some.injEq] at hstep
    rename_i opened
    subst hstep
    cases state
    cases hpc
    cases opened with
    | true =>
      refine ⟨_, rfl, .read rfl rfl rfl hsrc ?_⟩
      simp only [if_true, hpos, List.take_zero]
      exact hall
    | false => exact ⟨_, rfl, .failed rfl rfl⟩
  | read hpc hret hmove hsrc hall => exact Mirrors.readStep hpc hret hmove hsrc hall hstep
  | write hpc hret hpending hmove hsrc hall =>
    exact Mirrors.writeStep hpc hret hpending hmove hsrc hall hstep
  | copied hpc hmove hall =>
    rcases hmove with hmove | hmove
    · cases answer <;> simp only [FileHelper.step, hmove, reduceCtorEq, Option.some.injEq] at hstep
      subst hstep
      exact ⟨state, rfl, .copied hpc (.inr rfl) hall⟩
    · simp [FileHelper.step, hmove] at hstep
  | failed _ hmove => simp [FileHelper.step, hmove] at hstep

/-- In every run of a move the loops go through its copy: when its source is to be unlinked they
have written all of it, and what they return otherwise is what the move returns. -/
theorem move_copies {content : Bytes} {old : Option Bytes} {answers : List FileHelper.Reply}
    (buffer : Buffer bufferSize)
    (run : exec FileHelper.step (FileHelper.start content old) answers = some moved) : ∃ final,
      exec step (start buffer)
          (translated FileHelper.step lower (FileHelper.start content old) answers) = some final ∧
        (moved.pc = .unlink → final.pc = .returned 0 ∧ final.accepted = content) ∧
        ∀ ret, ret ≠ 0 → moved.pc = .returned ret → final.pc = .returned ret := by
  have hstart : Mirrors content (FileHelper.start content old) (start buffer) :=
    .openFrom rfl (.inl rfl) rfl rfl
  obtain ⟨final, run', hfinal⟩ :=
    exec_translated (fun _ _ _ _ h hstep => h.step hstep) hstart run
  refine ⟨final, run', ?_⟩
  cases hfinal with
  | openFrom _ hmove => rcases hmove with hmove | hmove <;> simp [hmove]
  | renamed _ hmove =>
    refine ⟨by simp [hmove], fun ret hne hret => ?_⟩
    rw [hmove, FileHelper.Pc.returned.injEq] at hret
    exact absurd hret.symm hne
  | openTo _ hmove => simp [hmove]
  | read _ _ hmove => simp [hmove]
  | write _ _ _ hmove => simp [hmove]
  | copied hpc hmove hall =>
    refine ⟨fun _ => ⟨hpc, hall⟩, fun ret hne hret => ?_⟩
    rw [hret] at hmove
    simp [hne] at hmove
  | failed hpc hmove =>
    refine ⟨by simp [hmove], fun ret _ hret => ?_⟩
    rw [hmove, FileHelper.Pc.returned.injEq] at hret
    rw [hpc, hret]

end

end UdpFileProxy.CopyLoop
