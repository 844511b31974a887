import UdpFileProxy.Integrity

/-! One file whose datagrams arrive in any order and any number of times. The
queue sorts them only as long as the packet that is wanted is in it; otherwise
whatever is oldest is appended. -/
namespace UdpFileProxy.Reorder
open Lib.Memory Lib.Run Protocol FileProcess Sending Refinement Reassembly Integrity
open Sudp (Host Finished)

/-- With the file open, the message that `msgrcv` returns is number 1 or not
behind `pack_move`. -/
def TakesForward (state : Sudp.State) (action : Sudp.Action) : Prop :=
  ∀ found ∈ Sudp.taken state action, state.fp.packSaved ≠ 0 →
    found.2.1.mtype = 1 ∨ state.fp.packMove ≤ found.2.1.mtype

instance (state : Sudp.State) (action : Sudp.Action) : Decidable (TakesForward state action) :=
  inferInstanceAs (Decidable (∀ found ∈ Sudp.taken state action, state.fp.packSaved ≠ 0 →
    found.2.1.mtype = 1 ∨ state.fp.packMove ≤ found.2.1.mtype))

section
variable {host : Host} {file : SentFile} {arrivals : List Datagram} {concrete : Sudp.State}
  {abstract : Reassembly.State} {action : Sudp.Action}

theorem file_zero {index : Nat} (h : 0 < count [file] index) : index = 0 :=
  Nat.lt_one_iff.mp (lt_of_count_pos h)

theorem TakesForward.continues (h : TakesForward concrete action)
    (related : Related host [file] concrete abstract)
    (sound : Sound (count [file]) abstract) (numbered : Numbered (count [file]) abstract) :
    Continues abstract (abstraction action) := by
  intro packet rest htaken hne hnumber
  have hpacket : packet.file = 0 := by
    have hbounds := numbered packet (mem_pending_of_taken htaken)
    exact file_zero (Nat.lt_of_lt_of_le hbounds.1 hbounds.2)
  have hopener : opener abstract.saved = 0 := by
    obtain ⟨first, hfirst⟩ := List.exists_mem_of_ne_nil _ hne
    have hbounds := sound.ascending.bounds first hfirst
    rw [← sound.ascending.oneFile first hfirst]
    exact file_zero (Nat.lt_of_lt_of_le hbounds.1 hbounds.2)
  refine ⟨by rw [hpacket, hopener], ?_⟩
  rw [taken_related related action, Option.map_eq_some_iff] at htaken
  obtain ⟨⟨move, msg, rest'⟩, hfound, hmsg⟩ := htaken
  obtain ⟨rfl, -⟩ := Prod.mk.inj hmsg
  have hmtype := (taken_carries related hfound).2.1.1
  have hsaved : concrete.fp.packSaved ≠ 0 := by
    rw [related.holds.packSaved]
    simpa using hne
  have hforward := h _ hfound hsaved
  simp only [hmtype, related.holds.packMove] at hforward
  dsimp only at hnumber ⊢
  omega

/-- Every job is for the bytes of the file in order, when no packet behind
`pack_move` is appended to it. -/
theorem jobs_ordered {final : Sudp.State} {actions : List Sudp.Action}
    (harrivals : ∀ sent ∈ arrivals, sent ∈ packets host.info.order 0 file)
    (meets : Meets (Sudp.step host) TakesForward (Sudp.start arrivals) actions)
    (run : exec (Sudp.step host) (Sudp.start arrivals) actions = some final) :
    ∀ done ∈ final.jobs, done.job = jobOf host.info file := by
  have genuine : ∀ sent ∈ arrivals, Genuine host.info.order [file] sent.origin sent.bytes := by
    intro sent hsent
    apply genuine_of_mem_stream
    simpa [stream, streamFrom] using harrivals sent hsent
  have numbered : Numbered (count [file]) (Reassembly.start (arrivals.map Datagram.origin)) := by
    intro packet hpacket
    obtain ⟨sent, hsent, rfl⟩ := List.mem_map.mp hpacket
    exact (genuine sent hsent).numbered
  obtain ⟨abstract, ⟨sound, -⟩, hjobs, -⟩ := exec_refines
    (fun abstract => Sound (count [file]) abstract ∧ Numbered (count [file]) abstract)
    genuine ⟨sound_start _, numbered⟩
    (fun _ _ _ related invariant takes packet rest htaken hne hnumber => by
      rw [(takes.continues related invariant.1 invariant.2 packet rest htaken hne hnumber).1])
    (fun _ _ _ _ related invariant takes hstep =>
      ⟨invariant.1.step invariant.2 (takes.continues related invariant.1 invariant.2) hstep,
        invariant.2.step hstep⟩) meets run
  intro done hdone
  obtain ⟨index, sent, hsent, hjob, -⟩ := intact_of_sound sound hjobs done hdone
  rw [hjob, List.mem_singleton.mp (List.mem_of_getElem? hsent)]

end

theorem letter_ne : (97 : UInt8) ≠ 0 := by decide

/-- Three packets. -/
def threePackets : SentFile := filledFile 97 1 2049 letter_ne (by decide)

def threePacketsSent : List Datagram :=
  packetsFrom .little threePackets 0 0 0x0c 0
    [List.replicate 1024 1, List.replicate 1024 1, List.replicate 1 1]

theorem packets_threePackets : packets plainHost.info.order 0 threePackets = threePacketsSent := by
  have hchunks : chunks (List.replicate 2049 1) =
      [List.replicate 1024 1, List.replicate 1024 1, List.replicate 1 1] := by
    rw [chunks_replicate_of_lt 1 (by decide), chunks_replicate_of_lt 1 (by decide)]
    exact congrArg _ (congrArg _ (chunks_replicate_of_le 1 (by decide)))
  exact congrArg _ hchunks

/-- The datagrams with these positions, in this order. -/
def arriving (positions : List Nat) : List Datagram :=
  positions.flatMap fun position => (threePacketsSent[position]?).toList

theorem arriving_mem (positions : List Nat) :
    ∀ sent ∈ arriving positions, sent ∈ packets plainHost.info.order 0 threePackets := by
  intro sent hsent
  rw [packets_threePackets]
  simp only [arriving, List.mem_flatMap, Option.mem_toList] at hsent
  obtain ⟨position, -, hposition⟩ := hsent
  exact List.mem_of_getElem? hposition

/-- The second packet arrives twice, and again before the third. -/
def duplicateRun : List Sudp.Action :=
  [.recvfrom, .msgsnd, .poll .ok, .recvfrom, .msgsnd, .poll .ok, .recvfrom, .msgsnd, .poll .ok,
    .wait .ok]

theorem duplicated_packet :
    (∀ sent ∈ arriving [0, 1, 1, 2], sent ∈ packets plainHost.info.order 0 threePackets) ∧
    (∀ sent ∈ packets plainHost.info.order 0 threePackets, sent ∈ arriving [0, 1, 1, 2]) ∧
    ∃ final, exec (Sudp.step plainHost) (Sudp.start (arriving [0, 1, 1, 2])) duplicateRun =
      some final ∧ ∃ done ∈ final.jobs,
        done.job.savePath = (jobOf plainHost.info threePackets).savePath ∧
        done.job.content ≠ threePackets.content := by
  refine ⟨arriving_mem _, ?_, ?_⟩
  · rw [packets_threePackets]
    decide +kernel
  have hjobs : (exec (Sudp.step plainHost) (Sudp.start (arriving [0, 1, 1, 2])) duplicateRun).any
      (fun final => final.jobs.any fun done =>
        done.job.savePath = (jobOf plainHost.info threePackets).savePath ∧
          done.job.content ≠ threePackets.content) = true := by decide +kernel
  obtain ⟨final, run, hany⟩ := (Option.any_eq_true _ _).mp hjobs
  obtain ⟨done, hdone, hother⟩ := List.any_eq_true.mp hany
  exact ⟨final, run, done, hdone, by simpa using hother⟩

/-- The second and the third packet change places, and the queue sorts them. -/
theorem jobs_ordered_swapped :
    ∃ final, exec (Sudp.step plainHost) (Sudp.start (arriving [0, 2, 1]))
      [.recvfrom, .msgsnd, .recvfrom, .msgsnd, .recvfrom, .msgsnd, .poll .ok, .poll .ok,
        .poll .ok] = some final ∧ final.jobs.length = 1 ∧
      ∀ done ∈ final.jobs, done.job = jobOf plainHost.info threePackets := by
  have meets : Meets (Sudp.step plainHost) TakesForward (Sudp.start (arriving [0, 2, 1]))
      [.recvfrom, .msgsnd, .recvfrom, .msgsnd, .recvfrom, .msgsnd, .poll .ok, .poll .ok,
        .poll .ok] := by decide +kernel
  have hjobs : (exec (Sudp.step plainHost) (Sudp.start (arriving [0, 2, 1]))
      [.recvfrom, .msgsnd, .recvfrom, .msgsnd, .recvfrom, .msgsnd, .poll .ok, .poll .ok,
        .poll .ok]).any (fun final => final.jobs.length = 1) = true := by decide +kernel
  obtain ⟨final, run, hone⟩ := (Option.any_eq_true _ _).mp hjobs
  exact ⟨final, run, by simpa using hone, jobs_ordered (arriving_mem _) meets run⟩

end UdpFileProxy.Reorder
