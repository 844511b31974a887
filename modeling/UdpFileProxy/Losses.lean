import UdpFileProxy.Transmission
import UdpFileProxy.Sudp
import Mathlib.Data.List.Chain
import Mathlib.Data.List.DropRight

/-! What the receive loop of `Sudp` reports as lost when the network loses datagrams and
delivers the others once and in order. -/
namespace UdpFileProxy.Losses
open Lib.Memory Lib.Run Protocol
open FileProcess (wrap64)
open Sending (Datagram)
open Sudp (Host RecvLoop receive)

/-- A datagram on the network; `origin` is history and plays no part. -/
structure Sent where
  datagram : Datagram
  delivered : Bool

/-- What a call of `SendPack_ex` that returns 0 sends of a file. -/
def Transmits (order : Endian) (file : SentFile) (datagrams : List Bytes) : Prop :=
  ∃ (packT : Transmission.PackT) (replies : List SendPack.Reply) (final : Transmission.State),
    exec (Transmission.step order) (Transmission.start file.path packT file.content) replies =
      some final ∧ final.machine.pc = .finished 0 ∧ final.sent = datagrams

/-- The datagrams of the files, sent one after the other. -/
def Carries (order : Endian) (files : List SentFile) (traffic : List Sent) : Prop :=
  ∃ sent, List.Forall₂ (Transmits order) files sent ∧
    (traffic.map fun sent => sent.datagram.bytes) = sent.flatten

def arrivals (traffic : List Sent) : List Datagram := (traffic.filter Sent.delivered).map Sent.datagram

/-- `pack_nu`, as it is in the datagram. -/
def number (order : Endian) (bytes : Bytes) : Int := loadInt order ((bytes.drop 2).take 8)

def Sent.number (order : Endian) (sent : Sent) : Int := Losses.number order sent.datagram.bytes

/-- What was lost since the last delivery. -/
def missing (past : List Sent) : List Sent := past.rtakeWhile fun sent => !sent.delivered

/-- The number of the packet delivered last, 0 at the start. -/
def previous (order : Endian) (past : List Sent) : Int :=
  (past.filter Sent.delivered).getLast?.elim 0 (Sent.number order)

/-- Packets are lost right before a first packet or before one that bears the next number. -/
def Hidden (order : Endian) (past : List Sent) (sent : Sent) : Prop :=
  missing past ≠ [] ∧ (sent.number order = 1 ∨ sent.number order = previous order past + 1)

/-- A number that may follow another on the network. -/
def Follows (left right : Int) : Prop := right = 1 ∨ right = left + 1

/-- The numbers are consecutive or start again at 1, and the datagrams fit the buffers. -/
structure Numbered (order : Endian) (traffic : List Sent) : Prop where
  chain : ∀ first, List.IsChain Follows (first :: traffic.map (Sent.number order))
  bounds : ∀ sent ∈ traffic, 1 ≤ sent.number order ∧ sent.number order < 2 ^ 63
  fits : ∀ sent ∈ traffic, 10 ≤ sent.datagram.bytes.length ∧ sent.datagram.bytes.length ≤ msgbufText

section
variable {order : Endian} {files : List SentFile} {file : SentFile} {datagrams : List Bytes}
  {traffic past later : List Sent} {sent : Sent} {bytes : Bytes} {host : Host}
  {state next : Sudp.State} {action : Sudp.Action} {actions : List Sudp.Action}

theorem length_le_flatten {parts : List Bytes} (h : ∀ part ∈ parts, part ≠ []) :
    parts.length ≤ parts.flatten.length := by
  induction parts with
  | nil => simp
  | cons part parts ih =>
    have hpos := List.length_pos_iff.mpr (h part List.mem_cons_self)
    have htail := ih fun other hother => h other (List.mem_cons_of_mem part hother)
    rw [List.flatten_cons, List.length_append, List.length_cons]
    omega

theorem number_datagram (order : Endian) (version protocol : UInt8) {packNu : Nat}
    (hpackNu : packNu < 2 ^ 63) (fileSize : Int) (fileName chunk : Bytes) :
    number order (datagram order version protocol packNu fileSize fileName chunk) = packNu := by
  have hfield : ((datagram order version protocol packNu fileSize fileName chunk).drop 2).take 8 =
      storeInt order 8 packNu := by
    simp [datagram]
  rw [number, hfield]
  exact loadInt_storeInt _ _ _ (by omega) (by norm_num; omega)

theorem number_messages (order : Endian) (filePath : Bytes) (fileSize : Int)
    {packets : List Transmission.Packet} (hcount : packets.length < 2 ^ 63) :
    (Transmission.messages order filePath fileSize packets).map (number order) =
      (List.range' 1 packets.length).map Nat.cast := by
  refine List.ext_getElem (by simp [Transmission.messages]) ?_
  intro index hleft hright
  have hindex : index < packets.length := by simpa [Transmission.messages] using hleft
  simp only [Transmission.messages, List.getElem_map, List.getElem_mapIdx, List.getElem_range']
  rw [number_datagram order _ _ (by omega), Nat.one_mul, Nat.add_comm]

theorem filePath_run {filePath content : Bytes} {packT : Int} {replies : List SendPack.Reply}
    {final : Transmission.State}
    (run : exec (Transmission.step order) (Transmission.start filePath packT content) replies =
      some final) : final.machine.filePath = filePath := by
  have hpreserved : ∀ state reply next, state.machine.filePath = filePath →
      Transmission.step order state reply = some next → next.machine.filePath = filePath := by
    intro state reply next hsame hstep
    have moves := Transmission.step_moves hstep
    cases moves with
    | _ => exact hsame
  exact exec_invariant' hpreserved rfl run

theorem Transmits.packets (h : Transmits order file datagrams) :
    datagrams.map (number order) = (List.range' 1 datagrams.length).map Nat.cast ∧
      datagrams.length < 2 ^ 63 ∧
      ∀ bytes ∈ datagrams, 10 ≤ bytes.length ∧ bytes.length ≤ msgbufText := by
  obtain ⟨packT, replies, final, run, hpc, rfl⟩ := h
  have hinv : Transmission.Inv order file.content final := by
    have hinvariant := exec_invariant' (fun _ _ _ h hstep => h.step hstep)
      (Transmission.inv_start packT.property.1 file.path file.content) run
    exact hinvariant
  have hpath := filePath_run run
  have hpending : Transmission.pending final.machine = [] := by simp [Transmission.pending, hpc]
  have hbytes := hinv.flow.bytes
  have hparts := hinv.flow.parts
  rw [hpending, List.append_nil] at hbytes hparts
  have hcount : final.packets.length < 2 ^ 63 := by
    have hle := length_le_flatten fun part hpart => (hparts part hpart).1
    have hsize := file.content_lt
    rw [← hbytes, List.length_append] at hsize
    rw [List.length_map] at hle
    omega
  have hsent := hinv.flow.sent
  have hlength : final.sent.length = final.packets.length := by
    rw [hsent, Transmission.messages, List.length_mapIdx]
  refine ⟨by rw [hlength, hsent, number_messages order _ _ hcount], by omega, ?_⟩
  · intro bytes hmem
    rw [hsent, Transmission.messages, List.mem_mapIdx] at hmem
    obtain ⟨index, hindex, rfl⟩ := hmem
    have hpart := (hparts _ (List.mem_map_of_mem (List.getElem_mem hindex))).2
    have hname := file.path_le
    rw [length_datagram, hpath]
    simp only [msgbufText, maxline] at hpart ⊢
    omega

theorem isChain_range' {rest : List Int} (hrest : ∀ last, List.IsChain Follows (last :: rest))
    (count : Nat) {first : Nat} {last : Int} (hfirst : Follows last first) :
    List.IsChain Follows (last :: ((List.range' first count).map Nat.cast ++ rest)) := by
  induction count generalizing first last with
  | zero => exact hrest last
  | succ count ih =>
    rw [List.range'_succ, List.map_cons, List.cons_append]
    exact .cons_cons hfirst (ih (.inr (by push_cast; rfl)))

theorem exists_file {sent : List (List Bytes)} (h : List.Forall₂ (Transmits order) files sent)
    (hmem : datagrams ∈ sent) : ∃ file, Transmits order file datagrams := by
  induction h with
  | nil => simp at hmem
  | cons hfirst _ ih =>
    rcases List.mem_cons.mp hmem with rfl | hmem
    · exact ⟨_, hfirst⟩
    · exact ih hmem

theorem Transmits.bounds (h : Transmits order file datagrams) (hmem : bytes ∈ datagrams) :
    1 ≤ number order bytes ∧ number order bytes < 2 ^ 63 := by
  have hnumber := List.mem_map_of_mem (f := number order) hmem
  rw [h.packets.1, List.mem_map] at hnumber
  obtain ⟨index, hindex, heq⟩ := hnumber
  rw [List.mem_range'_1] at hindex
  have hcount := h.packets.2.1
  omega

theorem Carries.numbered (h : Carries order files traffic) : Numbered order traffic := by
  obtain ⟨sent, htransmits, hbytes⟩ := h
  have hfile : ∀ packet ∈ traffic, ∃ file datagrams, Transmits order file datagrams ∧
      packet.datagram.bytes ∈ datagrams := by
    intro packet hpacket
    have hmem := List.mem_map_of_mem (f := fun sent : Sent => sent.datagram.bytes) hpacket
    rw [hbytes, List.mem_flatten] at hmem
    obtain ⟨datagrams, hdatagrams, hmem⟩ := hmem
    obtain ⟨file, hfile⟩ := exists_file htransmits hdatagrams
    exact ⟨file, datagrams, hfile, hmem⟩
  constructor
  · have hnumbers : traffic.map (Sent.number order) = sent.flatten.map (number order) := by
      rw [← hbytes, List.map_map]
      rfl
    rw [hnumbers]
    clear hbytes hnumbers hfile
    induction htransmits with
    | nil => exact fun first => .singleton first
    | cons hfirst _ ih =>
      intro first
      rw [List.flatten_cons, List.map_append, hfirst.packets.1]
      exact isChain_range' ih _ (.inl rfl)
  · intro packet hpacket
    obtain ⟨file, datagrams, hfile, hmem⟩ := hfile packet hpacket
    exact hfile.bounds hmem
  · intro packet hpacket
    obtain ⟨file, datagrams, hfile, hmem⟩ := hfile packet hpacket
    exact hfile.packets.2.2 _ hmem

/-! ### The receive loop -/

theorem previous_append_missing (order : Endian) (past : List Sent) {lost : List Sent}
    (hlost : ∀ sent ∈ lost, sent.delivered = false) :
    previous order (past ++ lost) = previous order past := by
  have hnone : lost.filter Sent.delivered = [] := by
    rw [List.filter_eq_nil_iff]
    intro sent hsent
    simp [hlost sent hsent]
  rw [previous, List.filter_append, hnone, List.append_nil, previous]

theorem previous_concat (past : List Sent) (hdelivered : sent.delivered = true) :
    previous order (past ++ [sent]) = sent.number order := by
  simp [previous, List.filter_append, hdelivered]

theorem Numbered.follows (h : Numbered order (past ++ sent :: later)) (hnone : missing past = []) :
    Follows (previous order past) (sent.number order) := by
  have hchain := h.chain 0
  cases hpast : past.getLast? with
  | none =>
    rw [List.getLast?_eq_none_iff] at hpast
    subst hpast
    exact hchain.rel
  | some last =>
    obtain ⟨front, rfl⟩ := List.getLast?_eq_some_iff.mp hpast
    have hdelivered : last.delivered = true := by
      rw [missing, List.rtakeWhile_concat] at hnone
      cases hlast : last.delivered with
      | true => rfl
      | false => simp [hlast] at hnone
    rw [previous_concat front hdelivered]
    rw [List.append_assoc, List.map_append, List.cons_append, List.nil_append, List.map_cons,
      List.map_cons, ← List.cons_append, List.isChain_append_cons_cons] at hchain
    exact hchain.2.1

/-- The comparison of the receive loop. -/
theorem receive_sent (order : Endian) (loop : RecvLoop) {datagram : Datagram}
    (hlow : 10 ≤ datagram.bytes.length)
    (hhigh : datagram.bytes.length ≤ msgbufText) :
    ∃ after msg, receive order loop datagram = .ok (after, msg) ∧
      after.save = number order datagram.bytes ∧
      (after.lost ≠ loop.lost ↔ number order datagram.bytes ≠ 1 ∧
        number order datagram.bytes ≠ wrap64 (loop.save + 1)) := by
  have htake : datagram.bytes.take maxdatasize = datagram.bytes := by
    apply List.take_of_length_le
    simp only [msgbufText, maxdatasize] at hhigh ⊢
    omega
  have hfits : datagram.bytes.length ≤ maxdatasize := by
    rw [← htake]
    exact List.length_take_le _ _
  have hfield : loadInt order (((loop.msg.fill datagram.bytes).bytes.drop 2).take 8) =
      number order datagram.bytes := by
    rw [Buffer.take_drop_fill loop.msg hlow hfits, number]
  unfold receive
  simp only [htake, hfield]
  rw [if_neg (by omega)]
  refine ⟨_, _, rfl, rfl, ?_⟩
  by_cases hfirst : number order datagram.bytes = 1
  · simp [hfirst, wrap64]
  · by_cases hnext : number order datagram.bytes = wrap64 (loop.save + 1)
    · simp [hfirst, ← hnext]
    · simp [hfirst, hnext]

/-- Where the process is in the traffic. -/
def Watching (order : Endian) (traffic : List Sent) (state : Sudp.State) : Prop :=
  ∃ past later, traffic = past ++ later ∧ state.incoming = arrivals later ∧
    state.loop.save = previous order past

theorem arrivals_eq_cons {datagram : Datagram} {rest : List Datagram}
    (h : arrivals later = datagram :: rest) :
    ∃ lost sent others, later = lost ++ sent :: others ∧ (∀ sent ∈ lost, sent.delivered = false) ∧
      sent.delivered = true ∧ sent.datagram = datagram ∧ arrivals others = rest := by
  rw [arrivals, List.map_eq_cons_iff] at h
  obtain ⟨sent, kept, hfilter, rfl, rfl⟩ := h
  obtain ⟨lost, others, rfl, hlost, hsent, rfl⟩ := List.filter_eq_cons_iff.mp hfilter
  exact ⟨lost, sent, others, rfl, by simpa using hlost, hsent, rfl, rfl⟩

theorem step_recvfrom (hstep : Sudp.step host state .recvfrom = some next) :
    ∃ datagram rest, state.incoming = datagram :: rest ∧
      ∀ after msg, receive host.info.order state.loop datagram = .ok (after, msg) →
        next.incoming = rest ∧ next.loop = after := by
  unfold Sudp.step at hstep
  split at hstep
  · contradiction
  · dsimp only at hstep
    split at hstep
    · rename_i datagram rest hincoming hheld
      refine ⟨datagram, rest, hincoming, ?_⟩
      intro after msg hreceive
      rw [hreceive] at hstep
      cases hstep
      exact ⟨rfl, rfl⟩
    · contradiction

theorem takeMessage_loop (host : Host) (io : FileProcess.FileIo) (state : Sudp.State) (move : Int)
    (msg : Sudp.Msg) (rest : List Sudp.Msg) :
    (Sudp.takeMessage host io state move msg rest).incoming = state.incoming ∧
      (Sudp.takeMessage host io state move msg rest).loop = state.loop := by
  unfold Sudp.takeMessage
  dsimp only
  split
  · exact ⟨rfl, rfl⟩
  · exact ⟨rfl, rfl⟩

theorem step_other (hother : action ≠ .recvfrom) (hstep : Sudp.step host state action = some next) :
    next.incoming = state.incoming ∧ next.loop = state.loop := by
  unfold Sudp.step at hstep
  split at hstep
  · contradiction
  · cases action with
    | recvfrom => contradiction
    | msgsnd =>
      dsimp only at hstep
      split at hstep
      · contradiction
      · split at hstep
        · cases hstep
          exact ⟨rfl, rfl⟩
        · rw [Option.ite_none_right_eq_some] at hstep
          cases hstep.2
          exact ⟨rfl, rfl⟩
    | poll io =>
      dsimp only at hstep
      split at hstep
      · contradiction
      · split at hstep
        · cases hstep
          exact takeMessage_loop _ _ _ _ _ _
        · cases hstep
          exact ⟨rfl, rfl⟩
    | wait io =>
      dsimp only at hstep
      split at hstep
      · cases hstep
        exact takeMessage_loop _ _ _ _ _ _
      · contradiction

theorem Watching.recvfrom (h : Watching host.info.order traffic state)
    (hnumbered : Numbered host.info.order traffic)
    (hstep : Sudp.step host state .recvfrom = some next) :
    ∃ past sent later, traffic = past ++ sent :: later ∧ sent.delivered = true ∧
      state.incoming = arrivals (sent :: later) ∧ next.incoming = arrivals later ∧
      state.loop.save = previous host.info.order past ∧
      next.loop.save = sent.number host.info.order ∧
      (next.loop.lost ≠ state.loop.lost ↔ sent.number host.info.order ≠ 1 ∧
        sent.number host.info.order ≠ wrap64 (previous host.info.order past + 1)) := by
  obtain ⟨past, later, rfl, hincoming, hsave⟩ := h
  obtain ⟨datagram, rest, harrived, hnext⟩ := step_recvfrom hstep
  obtain ⟨lost, sent, others, rfl, hlost, hdelivered, rfl, rfl⟩ :=
    arrivals_eq_cons (hincoming.symm.trans harrived)
  obtain ⟨hlow, hhigh⟩ := hnumbered.fits sent (by simp)
  obtain ⟨after, msg, hreceive, hafter, hreports⟩ :=
    receive_sent host.info.order state.loop hlow hhigh
  obtain ⟨hrest, hloop⟩ := hnext after msg hreceive
  have hsame := previous_append_missing host.info.order past hlost
  refine ⟨past ++ lost, sent, others, by simp, hdelivered, ?_, hrest, hsave.trans hsame.symm, ?_, ?_⟩
  · rw [harrived]
    simp [arrivals, hdelivered]
  · rw [hloop, hafter]
    rfl
  · rw [hloop, hreports, hsave, hsame]
    rfl

theorem Watching.step (h : Watching host.info.order traffic state)
    (hnumbered : Numbered host.info.order traffic) (hstep : Sudp.step host state action = some next) :
    Watching host.info.order traffic next := by
  by_cases hrecvfrom : action = .recvfrom
  · subst hrecvfrom
    obtain ⟨past, sent, later, htraffic, hdelivered, -, hincoming, -, hsave, -⟩ :=
      h.recvfrom hnumbered hstep
    refine ⟨past ++ [sent], later, by rw [htraffic]; simp, hincoming, ?_⟩
    rw [hsave, previous_concat past hdelivered]
  · obtain ⟨past, later, htraffic, hincoming, hsave⟩ := h
    obtain ⟨hsame, hloop⟩ := step_other hrecvfrom hstep
    exact ⟨past, later, htraffic, hsame.trans hincoming, by rw [hloop, hsave]⟩

theorem wrap64_next {previous number : Int} (hprevious : 0 ≤ previous ∧ previous < 2 ^ 63)
    (hnumber : 1 ≤ number ∧ number < 2 ^ 63) :
    number = wrap64 (previous + 1) ↔ number = previous + 1 := by
  by_cases hlast : previous + 1 = 2 ^ 63
  · have hwrapped : wrap64 (2 ^ 63) = -2 ^ 63 := by decide
    rw [hlast, hwrapped]
    omega
  · rw [wrap64, Int.bmod_eq_of_le_mul_two (by omega) (by norm_num; omega)]

theorem Numbered.previous (h : Numbered order (past ++ later)) :
    0 ≤ Losses.previous order past ∧ Losses.previous order past < 2 ^ 63 := by
  unfold Losses.previous
  cases hlast : (past.filter Sent.delivered).getLast? with
  | none => simp
  | some sent =>
    have hmem := List.mem_of_mem_filter (List.mem_of_getLast? hlast)
    have hbounds := h.bounds sent (List.mem_append_left later hmem)
    rw [Option.elim_some]
    omega

/-- Whenever `Sudp` takes a datagram off the network, it reports a loss exactly when something was
lost since the last delivery, unless the loss ends right before a first packet or before a packet
that bears the number after the last one delivered. -/
theorem reports_exactly (hcarries : Carries host.info.order files traffic)
    (run : exec (Sudp.step host) (Sudp.start (arrivals traffic)) actions = some state)
    (hstep : Sudp.step host state .recvfrom = some next) :
    ∃ past sent later, traffic = past ++ sent :: later ∧ sent.delivered = true ∧
      state.incoming = arrivals (sent :: later) ∧
      ((next.loop.lost ≠ state.loop.lost ↔ missing past ≠ []) ↔
        ¬Hidden host.info.order past sent) := by
  have hnumbered := hcarries.numbered
  have hstart : Watching host.info.order traffic (Sudp.start (arrivals traffic)) :=
    ⟨[], traffic, rfl, rfl, rfl⟩
  have hwatching : Watching host.info.order traffic state :=
    exec_invariant' (fun _ _ _ h htaken => h.step hnumbered htaken) hstart run
  obtain ⟨past, sent, later, rfl, hdelivered, hincoming, -, -, -, hreports⟩ :=
    hwatching.recvfrom hnumbered hstep
  refine ⟨past, sent, later, rfl, hdelivered, hincoming, ?_⟩
  have hfollows : missing past = [] → Follows (previous host.info.order past)
      (sent.number host.info.order) := hnumbered.follows
  rw [hreports, Ne, Ne, wrap64_next hnumbered.previous (hnumbered.bounds sent (by simp)), Hidden]
  unfold Follows at hfollows
  by_cases hnone : missing past = []
  · have hnext := hfollows hnone
    simp only [hnone, ne_eq, not_true_eq_false, iff_false, false_and, not_false_eq_true, iff_true]
    omega
  · simp only [ne_eq, hnone, not_false_eq_true, iff_true, true_and]
    omega

end

def oneByte : SentFile := Sending.filledFile 102 7 1 (by decide) (by decide)

def twoBytes : SentFile := Sending.filledFile 103 8 2 (by decide) (by decide)

theorem transmits_oneByte :
    Transmits .little oneByte [datagram .little 0x0f 0x13 1 1 [102] [7]] := by
  let replies : List SendPack.Reply :=
    [.size 1, .fd 3, .data (some [7]), .grant 320, .sent true, .done, .data (some []), .done, .done]
  exact ⟨⟨200, by decide⟩, replies, _, rfl, rfl, rfl⟩

theorem transmits_twoBytes : Transmits .little twoBytes
    [datagram .little 0x0f 0x14 1 2 [103] [8], datagram .little 0x0f 0x16 2 2 [103] [8]] := by
  let replies : List SendPack.Reply :=
    [.size 2, .fd 3, .data (some [8]), .grant 320, .sent true, .done, .data (some [8]), .sent true,
      .data (some []), .done, .done]
  exact ⟨⟨200, by decide⟩, replies, _, rfl, rfl, rfl⟩

def host : Host := ⟨⟨.little, [100], [101]⟩, fun _ _ => true⟩

/-- The second packet of the first file is lost. -/
def tailLost : List Sent :=
  [⟨⟨⟨0, 1⟩, datagram .little 0x0f 0x14 1 2 [103] [8]⟩, true⟩,
    ⟨⟨⟨0, 2⟩, datagram .little 0x0f 0x16 2 2 [103] [8]⟩, false⟩,
    ⟨⟨⟨1, 1⟩, datagram .little 0x0f 0x13 1 1 [102] [7]⟩, true⟩]

/-- The first packet is lost. -/
def headLost : List Sent :=
  [⟨⟨⟨0, 1⟩, datagram .little 0x0f 0x14 1 2 [103] [8]⟩, false⟩,
    ⟨⟨⟨0, 2⟩, datagram .little 0x0f 0x16 2 2 [103] [8]⟩, true⟩]

/-- The first packet of the next file follows the lost one, and nothing is reported. -/
theorem tail_unreported : Carries .little [twoBytes, oneByte] tailLost ∧ ∃ state next past sent,
    exec (Sudp.step host) (Sudp.start (arrivals tailLost)) [.recvfrom, .msgsnd] = some state ∧
      Sudp.step host state .recvfrom = some next ∧ tailLost = past ++ [sent] ∧
      sent.delivered = true ∧ state.incoming = arrivals [sent] ∧
      ¬(next.loop.lost ≠ state.loop.lost ↔ missing past ≠ []) := by
  refine ⟨⟨_, .cons transmits_twoBytes (.cons transmits_oneByte .nil), rfl⟩, _, _,
    tailLost.take 2, _, rfl, rfl, rfl, rfl, rfl, ?_⟩
  rw [iff_true_right (by simp [missing, tailLost, List.rtakeWhile]), not_not]
  rfl

theorem reports_exactly_head : ∃ state next,
    exec (Sudp.step host) (Sudp.start (arrivals headLost)) [] = some state ∧
      Sudp.step host state .recvfrom = some next ∧
      ∃ past sent later, headLost = past ++ sent :: later ∧ sent.delivered = true ∧
        state.incoming = arrivals (sent :: later) ∧
        ((next.loop.lost ≠ state.loop.lost ↔ missing past ≠ []) ↔
          ¬Hidden host.info.order past sent) := by
  have hcarries : Carries .little [twoBytes] headLost :=
    ⟨_, .cons transmits_twoBytes .nil, rfl⟩
  exact ⟨_, _, rfl, rfl, reports_exactly hcarries (exec_nil _) rfl⟩

end UdpFileProxy.Losses
