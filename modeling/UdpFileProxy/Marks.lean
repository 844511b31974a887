import UdpFileProxy.Transmission

/-! The protocol bytes that `SendPack_ex` puts on the packets of one file, when every
`read` returns `MAXLINE` bytes or the rest. It tells them from a count of 32 bits. -/
namespace UdpFileProxy.Marks
open Lib.Memory Lib.Run Protocol Transmission
open SendPack (Reply protocolByte wrap32 wrap32_of_lt)

/-- The first packet is `PT_START` and the last one `PT_END`; a packet alone is
`PT_ONLY`. -/
def marks (count : Nat) : List UInt8 :=
  if count = 1 then [0x13] else 0x14 :: List.replicate (count - 2) 0x15 ++ [0x16]

/-- The byte that the code puts on the packet after `made` others of a file of `size`
bytes. -/
def mark (size : Nat) : Nat → UInt8
  | 0 => 0x0c
  | made + 1 =>
      protocolByte (wrap32 (1024 * made : Nat)) (min 1024 (size - 1024 * made) : Nat) size
        (mark size made)

def packetCount (size : Nat) : Nat := (size + 1023) / 1024

/-- `stat` tells the size of the file, and `read` returns as much as it is asked for. -/
def Full (content : Bytes) (state : State) (reply : Reply) : Prop :=
  match state.machine.pc, reply with
  | .stat, .size size => size = content.length
  | .read, .data (some bytes) => bytes = state.left.take maxline
  | _, _ => True

@[simp] theorem full_size (content : Bytes) (state : State) (size : Int) :
    Full content state (.size size) ↔ (state.machine.pc = .stat → size = content.length) := by
  unfold Full
  cases state.machine.pc <;> simp

@[simp] theorem full_data (content : Bytes) (state : State) (bytes : Bytes) :
    Full content state (.data (some bytes)) ↔
      (state.machine.pc = .read → bytes = state.left.take maxline) := by
  unfold Full
  cases state.machine.pc <;> simp

instance decidableFull (content : Bytes) (state : State) : ∀ reply, Decidable (Full content state reply)
  | .size size => decidable_of_iff' _ (full_size content state size)
  | .data (some bytes) => decidable_of_iff' _ (full_data content state bytes)
  | .data none | .fd _ | .grant _ | .sent _ | .done =>
      isTrue (by unfold Full; cases state.machine.pc <;> trivial)

/-- The packets that are made. -/
def made (state : State) : Nat := state.packets.length + (pending state.machine).length

structure Counted (content : Bytes) (state : State) : Prop where
  left : state.left = content.drop (1024 * made state)
  bound : 1024 * made state ≤ content.length + 1023
  sendCount : state.machine.sendCount =
    wrap32 (min (1024 * made state) content.length : Nat)
  fileSize : state.machine.pc = .stat ∨ state.machine.fileSize = content.length
  protocol : state.machine.protocol = mark content.length (made state)
  bytes : state.packets.map Packet.protocol =
    (List.range' 1 state.packets.length).map (mark content.length)

section
variable {order : Endian} {content : Bytes} {state next : State} {reply : Reply}

theorem counted_start (filePath : Bytes) (packT : Int) (content : Bytes) :
    Counted content (start filePath packT content) where
  left := rfl
  bound := Nat.zero_le _
  sendCount := by
    have hzero : min (1024 * made (start filePath packT content)) content.length = 0 :=
      Nat.zero_min _
    rw [hzero]
    rfl
  fileSize := .inl rfl
  protocol := rfl
  bytes := rfl

theorem Counted.of_same (h : Counted content state) (same : Same state next)
    (hsize : next.machine.fileSize = content.length) : Counted content next := by
  have hmade : made next = made state := by rw [made, made, same.packets, same.pending]
  refine ⟨?_, ?_, ?_, .inr hsize, ?_, ?_⟩
  · rw [hmade, same.left, h.left]
  · rw [hmade]
    exact h.bound
  · rw [hmade, same.sendCount, h.sendCount]
  · rw [hmade, same.protocol, h.protocol]
  · rw [same.packets, h.bytes]

@[simp] theorem wrap32_add (left right : Int) : wrap32 (wrap32 left + right) = wrap32 (left + right) :=
  Int.bmod_add_bmod

theorem Counted.step (h : Counted content state) (packT : 1 ≤ state.machine.packT)
    (full : Full content state reply) (moves : Moves order state reply next) :
    Counted content next := by
  have hsame := moves.same
  cases moves with
  | stat size hpc low =>
    have hsize : size = content.length := by simpa [Full, hpc] using full
    exact h.of_same (hsame (by simp) (by simp)) hsize
  | read bytes hpc readable front nonempty fits =>
    have hfull : bytes = state.left.take 1024 := by
      simpa [Full, hpc, maxline] using full
    have hfileSize : state.machine.fileSize = content.length := by simpa [hpc] using h.fileSize
    have hmore : made { state with
        left := state.left.drop bytes.length
        machine := { SendPack.packed state.machine bytes with
          pc := SendPack.afterRead (SendPack.packed state.machine bytes) } } = made state + 1 := by
      simp only [made, pending_read packT]
      simp [pending, hpc]
    have hlength : state.left.length = content.length - 1024 * made state := by
      rw [h.left, List.length_drop]
    have hbytes : bytes.length = min 1024 (content.length - 1024 * made state) := by
      rw [hfull, List.length_take, hlength]
    have hpos : 0 < bytes.length := List.length_pos_iff.mpr nonempty
    have hsendCount : state.machine.sendCount = wrap32 (1024 * made state : Nat) := by
      rw [h.sendCount, Nat.min_eq_left (by omega)]
    refine ⟨?_, ?_, ?_, .inr hfileSize, ?_, h.bytes⟩
    · rw [hmore, h.left, List.drop_drop]
      by_cases hlast : content.length ≤ 1024 * made state + bytes.length
      · rw [List.drop_eq_nil_of_le hlast, List.drop_eq_nil_of_le (by omega)]
      · rw [show bytes.length = 1024 by omega, Nat.mul_succ]
    · rw [hmore]
      omega
    · rw [hmore]
      simp only [SendPack.packed]
      rw [hsendCount, wrap32_add]
      congr 1
      omega
    · rw [hmore]
      simp only [SendPack.packed]
      rw [mark, ← h.protocol, hsendCount, hfileSize, hbytes]
  | sendto ok hpc =>
    have hpending : pending state.machine = [state.machine.recvBuff] := by simp [pending, hpc]
    have hfileSize : state.machine.fileSize = content.length := by simpa [hpc] using h.fileSize
    have hmade : made state = state.packets.length + 1 := by simp [made, hpending]
    have hsame : made { state with
        packets := state.packets ++ [⟨state.machine.protocol, state.machine.recvBuff⟩]
        sent := state.sent ++ [SendPack.message order state.machine]
        failed := state.failed || !ok
        machine := { state.machine with
          pc := if ok then if state.machine.packNu = 1 then .sleepFirst
              else SendPack.afterSend state.machine
            else .errClose } } = made state := by
      simp only [made, pending_sendto, hpending]
      simp
    refine ⟨?_, ?_, ?_, .inr hfileSize, ?_, ?_⟩
    · rw [hsame, h.left]
    · rw [hsame]
      exact h.bound
    · rw [hsame, h.sendCount]
    · rw [hsame, h.protocol]
    · dsimp only
      rw [List.map_append, h.bytes, List.length_append, List.length_singleton, List.range'_1_concat,
        List.map_append, List.map_singleton, List.map_singleton, h.protocol, hmade, Nat.add_comm 1]
  | _ =>
    have hfileSize := h.fileSize.resolve_left (by simp [*])
    exact h.of_same (hsame (by simp [eq_comm]) (by simp)) hfileSize

/-! ### The byte of each packet -/

theorem wrap32_lt (value : Int) : wrap32 value < 2 ^ 31 := by
  have hlt : value.bmod (2 ^ 32) < ((2 ^ 32 : Nat) + 1) / 2 := Int.bmod_lt (by decide)
  exact hlt

section
variable {size made : Nat}

theorem mark_of_lt (hsize : size < 2 ^ 31) (made : Nat) (hmade : 1024 * made < size) :
    mark size (made + 1) =
      if packetCount size = 1 then 0x13 else if made = 0 then 0x14
        else if made + 1 = packetCount size then 0x16 else 0x15 := by
  have hsum : (1024 * made : Nat) + (min 1024 (size - 1024 * made) : Nat) < 2 ^ 31 := by omega
  have hwrapped : wrap32 ((1024 * made : Nat) + (min 1024 (size - 1024 * made) : Nat) : Int) =
      ((1024 * made + min 1024 (size - 1024 * made) : Nat) : Int) := by
    rw [← Nat.cast_add, wrap32_of_lt hsum]
  rw [mark, protocolByte, wrap32_of_lt (by omega), hwrapped]
  unfold packetCount
  split_ifs <;> first | rfl | omega

theorem mark_of_le (hsize : 2 ^ 31 ≤ size) : mark size (made + 1) ≠ 0x16 := by
  have hlt := wrap32_lt (wrap32 (1024 * made : Nat) + (min 1024 (size - 1024 * made) : Nat))
  rw [mark, protocolByte]
  split_ifs with h1 h2 h3 h4
  · decide
  · decide
  · omega
  · decide
  · omega

theorem marks_succ (count : Nat) :
    marks (count + 2) = 0x14 :: List.replicate count 0x15 ++ [0x16] := by
  rw [marks, if_neg (by omega), Nat.add_sub_cancel]

/-- The bytes of all packets are right exactly when the size is in the range of the count. -/
theorem mark_eq_marks (hpos : 1 ≤ size) :
    (List.range' 1 (packetCount size)).map (mark size) = marks (packetCount size) ↔
      size < 2 ^ 31 := by
  have hcount : 1 ≤ packetCount size := by
    unfold packetCount
    omega
  constructor
  · intro hmarks
    by_contra hle
    have htwo : 2 ≤ packetCount size := by
      unfold packetCount
      omega
    obtain ⟨count, hn⟩ : ∃ count, packetCount size = count + 2 := ⟨packetCount size - 2, by omega⟩
    rw [hn, marks_succ, List.range'_1_concat, List.map_append, List.map_singleton] at hmarks
    have hlast := congrArg List.getLast? hmarks
    rw [List.getLast?_concat, List.getLast?_concat, Option.some.injEq] at hlast
    have hend : mark size (count + 1 + 1) ≠ 0x16 := mark_of_le (Nat.le_of_not_lt hle)
    rw [Nat.add_comm 1 (count + 1)] at hlast
    exact hend hlast
  · intro hlt
    have hmark := mark_of_lt hlt
    by_cases hone : packetCount size = 1
    · rw [hone]
      have hfirst := hmark 0 (by omega)
      rw [if_pos hone] at hfirst
      simp [marks, hfirst]
    · obtain ⟨count, hn⟩ : ∃ count, packetCount size = count + 2 :=
        ⟨packetCount size - 2, by omega⟩
      have hlast : 1024 * (count + 1) < size := by
        unfold packetCount at hn
        omega
      have hfirst : mark size 1 = 0x14 := by
        rw [hmark 0 (by omega), if_neg hone, if_pos rfl]
      have hend : mark size (1 + (count + 1)) = 0x16 := by
        rw [Nat.add_comm, hmark (count + 1) hlast, if_neg hone, if_neg (by omega), if_pos hn.symm]
      have hmiddle : (List.range' 2 count).map (mark size) = List.replicate count 0x15 := by
        refine List.eq_replicate_iff.mpr ⟨by simp, ?_⟩
        intro byte hbyte
        obtain ⟨number, hnumber, rfl⟩ := List.mem_map.mp hbyte
        obtain ⟨made, rfl⟩ : ∃ made, number = made + 2 :=
          ⟨number - 2, by have := List.mem_range'_1.mp hnumber; omega⟩
        have hless := (List.mem_range'_1.mp hnumber).2
        rw [hmark (made + 1) (by omega), if_neg hone, if_neg (by omega), if_neg (by omega)]
      rw [hn, marks_succ, List.range'_1_concat, List.range'_succ, List.map_append, List.map_cons,
        List.map_singleton, hfirst, hmiddle, hend]

end

/-! ### Whole files -/

@[simp] theorem messages_protocol (order : Endian) (filePath : Bytes) (fileSize : Int)
    (packets : List Packet) :
    (messages order filePath fileSize packets).map (fun msg => msg[1]?) =
      (packets.map Packet.protocol).map some := by
  refine List.ext_getElem? fun index => ?_
  simp only [messages, List.getElem?_map, List.getElem?_mapIdx, Option.map_map]
  rfl

/-- The calls that go well make up a run that reads the whole file. -/
structure Smooth (order : Endian) (content : Bytes) (state : State) : Prop where
  inv : Inv order content state
  failed : state.failed = false
  descriptor : state.descriptor ≠ some 0 ∧ state.descriptor ≠ some (-1)

theorem Smooth.full (h : Smooth order content state) : Full content state (onward state) := by
  unfold Full onward
  cases hpc : state.machine.pc with
  | stat =>
    have houtcome := h.inv.outcome
    have hbytes := h.inv.flow.bytes
    simp only [Outcome, hpc] at houtcome
    have hleft : state.left = content := by
      rw [← hbytes, houtcome.2.2]
      simp [pending, hpc]
    simp [hleft]
  | read => simp [h.descriptor.2]
  | _ => trivial

theorem Smooth.step (h : Smooth order content state) (hreply : reply = onward state)
    (hstep : Transmission.step order state reply = some next) : Smooth order content next := by
  have hinv := h.inv.step hstep
  have hfailed := h.failed
  have hdescriptor := h.descriptor
  cases step_moves hstep with
  | stat size hpc low =>
    have hsize : size = state.left.length := by simpa [onward, hpc] using hreply
    exact ⟨hinv, by simp [hfailed, hsize], hdescriptor⟩
  | openFile fd hpc low =>
    have hfd : fd = 3 := by simpa [onward, hpc] using hreply
    exact ⟨hinv, by simp [hfailed, hfd], by simp [hfd]⟩
  | readFails hpc => simp [onward, hpc, hdescriptor.2] at hreply
  | sendto ok hpc =>
    have hok : ok = true := by simpa [onward, hpc] using hreply
    exact ⟨hinv, by simp [hfailed, hok], hdescriptor⟩
  | _ => exact ⟨hinv, hfailed, hdescriptor⟩

theorem Smooth.returns (h : Smooth order content state) (hfinished : Finished state) :
    state.machine.pc = .finished 0 := by
  obtain ⟨ret, hpc⟩ := hfinished
  have houtcome := h.inv.outcome
  simp only [Outcome, hpc, h.failed] at houtcome
  rcases houtcome with ⟨rfl, -⟩ | ⟨-, hfailed⟩
  · exact hpc
  · exact absurd (hfailed.mpr h.descriptor.1) (by decide)

theorem exists_run (order : Endian) (filePath content : Bytes) (packT : PackT) :
    ∃ replies final, exec (step order) (start filePath packT content) replies = some final ∧
      Meets (step order) (Full content) (start filePath packT content) replies ∧
      final.machine.pc = .finished 0 := by
  have hstart : Smooth order content (start filePath packT content) :=
    ⟨inv_start packT.property.1 filePath content, rfl, by simp [start]⟩
  have hreaches : ∃ replies final,
      exec (step order) (start filePath packT content) replies = some final ∧
        Meets (step order) (Full content) (start filePath packT content) replies ∧
        Smooth order content final ∧ Finished final := by
    refine exec_reaches measure ?_ hstart
    intro state h hnot
    obtain ⟨next, hstep⟩ := Option.isSome_iff_exists.mp (h.inv.onward hnot)
    exact ⟨onward state, next, h.full, hstep, h.step rfl hstep, (step_moves hstep).decreases⟩
  obtain ⟨replies, final, run, full, hfinal, hfinished⟩ := hreaches
  exact ⟨replies, final, run, full, hfinal.returns hfinished⟩

structure Counting (order : Endian) (content : Bytes) (state : State) : Prop where
  inv : Inv order content state
  counted : Counted content state

theorem Counting.step (h : Counting order content state) (full : Full content state reply)
    (hstep : Transmission.step order state reply = some next) : Counting order content next :=
  ⟨h.inv.step hstep, h.counted.step h.inv.packT full (step_moves hstep)⟩

theorem Counting.sent (h : Counting order content state) (hpc : state.machine.pc = .finished 0) :
    state.sent.map (fun msg => msg[1]?) =
      ((List.range' 1 (packetCount content.length)).map (mark content.length)).map some := by
  have houtcome := h.inv.outcome
  simp only [Outcome, hpc] at houtcome
  have hleft : state.left = [] := houtcome.elim (fun h => h.2.2.2) (fun h => absurd h.1 (by decide))
  have hpending : pending state.machine = [] := by simp [pending, hpc]
  have hmade : made state = state.packets.length := by simp [made, hpending]
  have hbound := h.counted.bound
  have hrest := h.counted.left
  rw [hleft, hmade, eq_comm, List.drop_eq_nil_iff] at hrest
  rw [hmade] at hbound
  have hcount : packetCount content.length = state.packets.length := by
    unfold packetCount
    omega
  rw [h.inv.flow.sent, messages_protocol, h.counted.bytes, hcount]

theorem Counting.marks_iff (h : Counting order content state) (nonempty : content ≠ [])
    (hpc : state.machine.pc = .finished 0) :
    state.sent.map (fun msg => msg[1]?) = (marks (packetCount content.length)).map some ↔
      content.length < 2 ^ 31 := by
  have hinjective : Function.Injective (List.map (some : UInt8 → Option UInt8)) :=
    List.map_injective_iff.mpr (Option.some_injective UInt8)
  rw [h.sent hpc, hinjective.eq_iff]
  exact mark_eq_marks (List.length_pos_iff.mpr nonempty)

theorem counting_run {filePath : Bytes} {packT : PackT} {replies : List Reply} {final : State}
    (run : exec (step order) (start filePath packT content) replies = some final)
    (full : Meets (step order) (Full content) (start filePath packT content) replies) :
    Counting order content final :=
  exec_invariant (fun _ _ _ h hfull hstep => h.step hfull hstep)
    ⟨inv_start packT.property.1 filePath content, counted_start filePath packT content⟩ full run

/-- The protocol bytes of a file that was sent are right exactly when its size is below
2^31: beyond, the count never equals it. -/
theorem marks_exactly (order : Endian) (filePath content : Bytes) (packT : PackT)
    (nonempty : content ≠ []) {replies : List Reply} {final : State}
    (run : exec (step order) (start filePath packT content) replies = some final)
    (full : Meets (step order) (Full content) (start filePath packT content) replies)
    (returned : final.machine.pc = .finished 0) :
    final.sent.map (fun msg => msg[1]?) = (marks (packetCount content.length)).map some ↔
      content.length < 2 ^ 31 :=
  (counting_run run full).marks_iff nonempty returned

end

theorem marks_exactly_byte : ∃ final,
    exec (step .little) (start (ascii "f") 200 [7]) sentByte = some final ∧
      final.sent.map (fun msg => msg[1]?) = [some 0x13] := by
  have hreturns : (exec (step .little) (start (ascii "f") 200 [7]) sentByte).any
      (fun final => final.machine.pc = .finished 0) = true := by decide +kernel
  have full : Meets (step .little) (Full [7]) (start (ascii "f") 200 [7]) sentByte := by
    decide +kernel
  obtain ⟨final, run, hpc⟩ := (Option.any_eq_true _ _).mp hreturns
  have hexact := marks_exactly .little (ascii "f") [7] ⟨200, by decide⟩ (by simp) run full
    (of_decide_eq_true hpc)
  exact ⟨final, run, hexact.mpr (by norm_num)⟩

/-- A file of 2^31 bytes is sent as a whole, and its packets do not end with `PT_END`. -/
theorem endless_file : ∃ content : Bytes, content.length = 2 ^ 31 ∧ ∃ replies final,
    exec (step .little) (start (ascii "f") 200 content) replies = some final ∧
      Meets (step .little) (Full content) (start (ascii "f") 200 content) replies ∧
      final.machine.pc = .finished 0 ∧
      final.sent.map (fun msg => msg[1]?) ≠ (marks (packetCount content.length)).map some := by
  have hlength : (List.replicate (2 ^ 31) (7 : UInt8)).length = 2 ^ 31 := List.length_replicate
  refine ⟨List.replicate (2 ^ 31) 7, hlength, ?_⟩
  obtain ⟨replies, final, run, full, hpc⟩ :=
    exists_run .little (ascii "f") (List.replicate (2 ^ 31) 7) ⟨200, by decide⟩
  have hnonempty : List.replicate (2 ^ 31) (7 : UInt8) ≠ [] := by
    rw [← List.length_pos_iff, hlength]
    norm_num
  refine ⟨replies, final, run, full, hpc, ?_⟩
  intro hmarks
  have hlt := ((counting_run run full).marks_iff hnonempty hpc).mp hmarks
  rw [hlength] at hlt
  exact absurd hlt (lt_irrefl _)

end UdpFileProxy.Marks
