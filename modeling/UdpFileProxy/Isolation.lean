import UdpFileProxy.Integrity

/-! A file whose datagrams all arrive, while datagrams of other files are lost: it
is not opened yet, it is open and its packets follow one another, or it is
finished. -/
namespace UdpFileProxy.Isolation
open Lib.Memory Lib.Run Protocol FileProcess Sending Refinement Reassembly Integrity
open Sudp (Host Finished)

/-- Of this file, the packets after the first `number` are pending and no others. -/
structure PendingAfter (count : Nat → Nat) (file number : Nat) (state : Reassembly.State) :
    Prop where
  above : ∀ packet ∈ pending state, packet.file = file → number < packet.number
  pending : ∀ next, number < next → next ≤ count file → ⟨file, next⟩ ∈ pending state

def finishedOf (file : Nat) (state : Reassembly.State) : List (List Origin) :=
  state.finished.filter fun packets => opener packets = file

/-- While the file is open, no packet that could start another one is older than
what is left of it. -/
inductive Stage (count : Nat → Nat) (file : Nat) (state : Reassembly.State) : Prop where
  | before (after : PendingAfter count file 0 state)
      (other : state.saved ≠ [] → opener state.saved ≠ file)
      (finished : finishedOf file state = [])
  | during (number : Nat) (bounds : 1 ≤ number ∧ number < count file)
      (after : PendingAfter count file number state)
      (saved : state.saved = (whole count file).take number)
      (packMove : state.packMove = number + 1)
      (clear : ∀ packet ∈ pending state, packet.file < file → packet.number ≠ 1)
      (finished : finishedOf file state = [])
  | done (after : PendingAfter count file (count file) state)
      (other : state.saved ≠ [] → opener state.saved ≠ file)
      (finished : finishedOf file state = [whole count file])

section
variable {count : Nat → Nat} {file number : Nat} {state next : Reassembly.State}
  {action : Reassembly.Action} {packet : Origin} {rest : List Origin}

theorem stage_start (h : PendingAfter count file 0 (Reassembly.start arrivals)) :
    Stage count file (Reassembly.start arrivals) :=
  .before h (by simp [Reassembly.start]) rfl

theorem Stage.congr (h : Stage count file state) (hpending : pending next = pending state)
    (hsaved : next.saved = state.saved) (hmove : next.packMove = state.packMove)
    (hfinished : next.finished = state.finished) : Stage count file next := by
  have hof : finishedOf file next = finishedOf file state := by rw [finishedOf, hfinished, finishedOf]
  have hafter {number : Nat} (after : PendingAfter count file number state) :
      PendingAfter count file number next := by
    refine ⟨?_, ?_⟩
    · rw [hpending]
      exact after.above
    · rw [hpending]
      exact after.pending
  cases h with
  | before after other finished =>
    refine .before (hafter after) ?_ (hof.trans finished)
    rw [hsaved]
    exact other
  | during number bounds after saved packMove clear finished =>
    refine .during number bounds (hafter after) (hsaved.trans saved) (hmove.trans packMove) ?_
      (hof.trans finished)
    rw [hpending]
    exact clear
  | done after other finished =>
    refine .done (hafter after) ?_ (hof.trans finished)
    rw [hsaved]
    exact other

theorem PendingAfter.take_other (h : PendingAfter count file number state)
    (htaken : taken state action = some (packet, rest)) (hother : packet.file ≠ file) :
    PendingAfter count file number (take count state packet rest) := by
  obtain ⟨older, newer, hpending, hnext, -⟩ := taken_pending count htaken
  refine ⟨?_, ?_⟩
  · intro other hmem
    rw [hnext] at hmem
    apply h.above other
    rw [hpending]
    simp only [List.mem_append, List.mem_cons] at hmem ⊢
    tauto
  · intro next hlt hle
    have hmem := h.pending next hlt hle
    rw [hpending] at hmem
    rw [hnext]
    simp only [List.mem_append, List.mem_cons] at hmem ⊢
    rcases hmem with hmem | rfl | hmem
    · exact Or.inl hmem
    · exact absurd rfl hother
    · exact Or.inr hmem

theorem PendingAfter.take_next (h : PendingAfter count file number state) (lossy : Lossy count state)
    (htaken : taken state action = some (⟨file, number + 1⟩, rest)) :
    PendingAfter count file (number + 1) (take count state ⟨file, number + 1⟩ rest) := by
  obtain ⟨older, newer, hpending, hnext, -⟩ := taken_pending count htaken
  have hordered := lossy.ordered
  rw [hpending, List.pairwise_append] at hordered
  refine ⟨?_, ?_⟩
  · intro other hmem hfile
    rw [hnext, List.mem_append] at hmem
    rcases hmem with hmem | hmem
    · have habove := h.above other (by simp [hpending, hmem]) hfile
      have hearlier := hordered.2.2 other hmem ⟨file, number + 1⟩ (by simp)
      simp only [Earlier, hfile, Nat.lt_irrefl, false_or, true_and] at hearlier
      omega
    · have hearlier := (List.pairwise_cons.mp hordered.2.1).1 other hmem
      simp only [Earlier, hfile, Nat.lt_irrefl, false_or, true_and] at hearlier
      exact hearlier
  · intro next hlt hle
    have hmem := h.pending next (by omega) hle
    rw [hpending] at hmem
    rw [hnext]
    simp only [List.mem_append, List.mem_cons, Origin.mk.injEq] at hmem ⊢
    rcases hmem with hmem | ⟨-, heq⟩ | hmem
    · exact Or.inl hmem
    · omega
    · exact Or.inr hmem

theorem take_other (count : Nat → Nat) (rest : List Origin)
    (hopener : opener (append state.saved packet) ≠ file) :
    finishedOf file (take count state packet rest) = finishedOf file state ∧
      ((take count state packet rest).saved ≠ [] →
        opener (take count state packet rest).saved ≠ file) := by
  refine ⟨?_, ?_⟩
  · rcases take_cases count state packet rest with ⟨-, htake⟩ | htake | htake
    · rw [htake]
      simp [finishedOf, hopener]
    · rw [htake]
      rfl
    · rw [htake]
      rfl
  · intro hne
    rw [(saved_take hne).1]
    exact hopener

theorem Stage.take_next (hnumber : number < count file)
    (hadded : append state.saved ⟨file, number + 1⟩ = (whole count file).take (number + 1))
    (after : PendingAfter count file (number + 1) (take count state ⟨file, number + 1⟩ rest))
    (clear : ∀ packet ∈ pending (take count state ⟨file, number + 1⟩ rest),
      packet.file < file → packet.number ≠ 1)
    (hfinished : finishedOf file state = []) :
    Stage count file (take count state ⟨file, number + 1⟩ rest) := by
  have hopener : opener (append state.saved ⟨file, number + 1⟩) = file := by
    rw [hadded]
    exact opener_take_whole (by omega)
  have hlength : (append state.saved ⟨file, number + 1⟩).length = number + 1 := by
    rw [hadded, List.length_take, length_whole]
    omega
  by_cases hcomplete : count file = number + 1
  · have hwhole : append state.saved ⟨file, number + 1⟩ = whole count file := by
      rw [hadded, List.take_of_length_le (by rw [length_whole, hcomplete])]
    have hfirst : 0 < count file := by omega
    rw [take_complete rest (by rw [hopener, hlength, hcomplete])] at after ⊢
    refine .done ?_ (by simp) ?_
    · rw [hcomplete]
      exact after
    · simp only [finishedOf, List.filter_append] at hfinished ⊢
      rw [hfinished, hwhole]
      simp [hfirst]
  · rw [take_continue rest (by rw [hopener, hlength]; exact hcomplete)
      (by rw [hopener]; exact hcomplete)] at after clear ⊢
    exact .during (number + 1) (by omega) after hadded rfl clear hfinished

theorem next_of_oldest (h : PendingAfter count file number state) (lossy : Lossy count state)
    (hnumber : number < count file) {newer : List Origin} (hpending : pending state = packet :: newer)
    (hfile : packet.file = file) : packet = ⟨file, number + 1⟩ := by
  have hmem := h.pending (number + 1) (Nat.lt_succ_self _) hnumber
  rw [hpending, List.mem_cons] at hmem
  rcases hmem with heq | hmem
  · exact heq.symm
  · have hordered := lossy.ordered
    rw [hpending] at hordered
    have hearlier := (List.pairwise_cons.mp hordered).1 _ hmem
    simp only [Earlier, hfile, Nat.lt_irrefl, false_or, true_and] at hearlier
    have := h.above packet (by simp [hpending]) hfile
    omega

theorem first_taken (h : PendingAfter count file 0 state) (lossy : Lossy count state)
    (own : Own state action) (hcount : 0 < count file)
    (hother : state.saved ≠ [] → opener state.saved ≠ file)
    (htaken : taken state action = some (packet, rest)) (hfile : packet.file = file) :
    packet = ⟨file, 1⟩ ∧ append state.saved packet = [packet] ∧
      ∀ packet' ∈ pending (take count state packet rest), packet'.file < file →
        packet'.number ≠ 1 := by
  obtain ⟨older, newer, hpending, hnext, hwanted⟩ := taken_pending count htaken
  have hnumber : packet.number = 1 := by
    by_cases hne : state.saved = []
    · rcases hwanted with ⟨hnumber, -⟩ | hnil
      · rw [hnumber, lossy.sound.idle hne]
      · rw [hnil] at hpending
        rw [next_of_oldest h lossy hcount hpending hfile]
    · by_contra hnumber
      exact hother hne (by rw [← own packet rest htaken hne hnumber, hfile])
  refine ⟨Origin.ext hfile hnumber, if_pos (Or.inr hnumber), ?_⟩
  intro other hmem hless
  have hordered := lossy.ordered
  rw [hpending] at hordered
  rw [hnext, List.mem_append] at hmem
  rcases hmem with hmem | hmem
  · rcases hwanted with ⟨hmove, holder⟩ | hnil
    · rw [← hnumber, hmove]
      exact holder other hmem
    · simp [hnil] at hmem
  · have hearlier := (List.pairwise_cons.mp (List.pairwise_append.mp hordered).2.1).1 other hmem
    rcases hearlier with hlt | ⟨heq, -⟩ <;> omega

theorem next_taken (h : PendingAfter count file number state) (lossy : Lossy count state)
    (own : Own state action) (bounds : 1 ≤ number ∧ number < count file)
    (hsaved : state.saved = (whole count file).take number) (hmove : state.packMove = number + 1)
    (clear : ∀ packet ∈ pending state, packet.file < file → packet.number ≠ 1)
    (htaken : taken state action = some (packet, rest)) : packet = ⟨file, number + 1⟩ := by
  obtain ⟨older, newer, hpending, -, hwanted⟩ := taken_pending count htaken
  obtain ⟨previous, rfl⟩ : ∃ previous, number = previous + 1 := ⟨number - 1, by omega⟩
  have hopener : opener state.saved = file := by
    rw [hsaved]
    exact opener_take_whole (by omega)
  have hne : state.saved ≠ [] := by
    rw [hsaved, ne_eq, ← List.length_eq_zero_iff, List.length_take, length_whole]
    omega
  have hfile (hnumber : packet.number ≠ 1) : packet.file = file := by
    rw [own packet rest htaken hne hnumber, hopener]
  rcases hwanted with ⟨hnumber, -⟩ | hnil
  · rw [hmove] at hnumber
    exact Origin.ext (hfile (by omega)) hnumber
  · rw [hnil, List.nil_append] at hpending
    refine next_of_oldest h lossy bounds.2 hpending ?_
    by_contra hother
    have hone : packet.number = 1 := not_not.mp (mt hfile hother)
    -- a packet that could start another file is newer than what is left of this one
    have hmem := h.pending (previous + 1 + 1) (Nat.lt_succ_self _) bounds.2
    have hordered := lossy.ordered
    rw [hpending] at hmem hordered
    rcases List.mem_cons.mp hmem with heq | hmem
    · rw [← heq] at hother
      exact hother rfl
    · rcases (List.pairwise_cons.mp hordered).1 _ hmem with hlt | ⟨heq, -⟩
      · exact clear packet (by simp [hpending]) hlt hone
      · exact hother heq

theorem Stage.step (h : Stage count file state) (lossy : Lossy count state) (own : Own state action)
    (hcount : 0 < count file) (hstep : Reassembly.step count state action = some next) :
    Stage count file next := by
  rcases step_cases hstep with ⟨hpending, hsaved, hmove, hfinished, -⟩ | ⟨packet, rest, htaken, rfl⟩
  · exact h.congr hpending hsaved hmove hfinished
  have hadded := own.opener_append htaken
  cases h with
  | before after other finished =>
    by_cases hfile : packet.file = file
    · obtain ⟨rfl, hone, clear⟩ := first_taken after lossy own hcount other htaken hfile
      refine .take_next hcount ?_ (after.take_next lossy htaken) clear finished
      rw [hone, take_whole_succ hcount]
      rfl
    · obtain ⟨hsame, hopener⟩ := take_other count rest
        (show opener (append state.saved packet) ≠ file by rwa [hadded])
      exact .before (after.take_other htaken hfile) hopener (hsame.trans finished)
  | during number bounds after saved packMove clear finished =>
    obtain rfl := next_taken after lossy own bounds saved packMove clear htaken
    refine .take_next bounds.2 ?_ (after.take_next lossy htaken) ?_ finished
    · rw [saved]
      exact append_take_whole bounds.2
    · intro other hmem
      exact clear other ((pending_sublist hstep).subset hmem)
  | done after other finished =>
    have hfile : packet.file ≠ file := by
      intro hfile
      have habove := after.above packet (mem_pending_of_taken htaken) hfile
      have hbelow := (lossy.numbered packet (mem_pending_of_taken htaken)).2
      rw [hfile] at hbelow
      omega
    obtain ⟨hsame, hopener⟩ := take_other count rest
      (show opener (append state.saved packet) ≠ file by rwa [hadded])
    exact .done (after.take_other htaken hfile) hopener (hsame.trans finished)

theorem Stage.done_of_pending (h : Stage count file state) (hcount : 0 < count file)
    (hpending : pending state = []) : finishedOf file state = [whole count file] := by
  cases h with
  | before after other finished =>
    have hmem := after.pending 1 (Nat.lt_succ_self _) hcount
    simp [hpending] at hmem
  | during number bounds after saved packMove clear finished =>
    have hmem := after.pending (number + 1) (Nat.lt_succ_self _) bounds.2
    simp [hpending] at hmem
  | done after other finished => exact finished

theorem Stage.finished_cases (h : Stage count file state) :
    finishedOf file state = [] ∨ finishedOf file state = [whole count file] := by
  cases h with
  | before after other finished => exact Or.inl finished
  | during number bounds after saved packMove clear finished => exact Or.inl finished
  | done after other finished => exact Or.inr finished

end

/-- The jobs for what the packets of this file opened. -/
def jobsOf (index : Nat) (state : Sudp.State) : List Job :=
  (state.jobs.filter fun done => opener done.packets = index).map Finished.job

section
variable {host : Host} {files : List SentFile} {arrivals : List Datagram} {concrete : Sudp.State}
  {abstract : Reassembly.State} {index : Nat} {file : SentFile}

theorem pendingAfter_start (hfile : files[index]? = some file)
    (hlost : arrivals.Sublist (stream host.info.order files))
    (hall : ∀ sent ∈ packets host.info.order index file, sent ∈ arrivals) :
    PendingAfter (count files) index 0 (Reassembly.start (arrivals.map Datagram.origin)) where
  above := by
    intro packet hpacket _
    exact ((lossy_start hlost).numbered packet hpacket).1
  pending := by
    intro number hpos hle
    have hmem : (⟨index, number⟩ : Origin) ∈ whole (count files) index := by
      simp only [whole, List.mem_map, List.mem_range'_1]
      exact ⟨number, by omega, rfl⟩
    rw [← packets_origins host.info.order file index files hfile] at hmem
    obtain ⟨sent, hsent, horigin⟩ := List.mem_map.mp hmem
    rw [← horigin]
    exact List.mem_map_of_mem (hall sent hsent)

theorem jobsOf_eq (hfile : files[index]? = some file)
    (hjobs : Delivers host.info files concrete.jobs abstract.finished) :
    (finishedOf index abstract = [] → jobsOf index concrete = []) ∧
      (finishedOf index abstract = [whole (count files) index] →
        jobsOf index concrete = [jobOf host.info file]) := by
  have hof : (concrete.jobs.filter fun done => opener done.packets = index).map Finished.packets =
      finishedOf index abstract := by
    rw [finishedOf, ← hjobs.packets, List.filter_map]
    rfl
  refine ⟨?_, ?_⟩
  · intro hnone
    rw [hnone, List.map_eq_nil_iff] at hof
    rw [jobsOf, hof, List.map_nil]
  · intro hone
    rw [hone, List.map_eq_singleton_iff] at hof
    obtain ⟨done, hdone, hpackets⟩ := hof
    have hmem : done ∈ concrete.jobs := by
      have hfiltered : done ∈ [done] := List.mem_singleton_self done
      rw [← hdone] at hfiltered
      exact List.mem_of_mem_filter hfiltered
    rw [jobsOf, hdone, List.map_singleton, (hjobs.delivered done hmem).job_eq hpackets hfile]

/-- A file whose datagrams all arrive gets its one job, whatever is lost of the
others, when every packet appended to an open file is of that file. -/
theorem received_once {final : Sudp.State} {actions : List Reassembly.Action}
    (hfile : files[index]? = some file)
    (fits : Fits host.info files) (room : ∀ msg, host.room [] msg = true)
    (hlost : arrivals.Sublist (stream host.info.order files))
    (hall : ∀ sent ∈ packets host.info.order index file, sent ∈ arrivals)
    (meets : Meets (performing host) (fun state action => TakesOwn state (perform action))
      (Sudp.start arrivals) actions)
    (run : exec (performing host) (Sudp.start arrivals) actions = some final) :
    (jobsOf index final = [] ∨ jobsOf index final = [jobOf host.info file]) ∧
    actions.length ≤ Sudp.work (Sudp.start arrivals) ∧
    ((∀ action, performing host final action = none) →
      jobsOf index final = [jobOf host.info file]) := by
  have genuine : ∀ sent ∈ arrivals, Genuine host.info.order files sent.origin sent.bytes :=
    fun sent hsent => genuine_of_mem_stream _ (hlost.subset hsent)
  have hcount : 0 < count files index := count_pos (List.getElem?_eq_some_iff.mp hfile).1
  have own {concrete : Sudp.State} {abstract : Reassembly.State} {action : Reassembly.Action}
      (related : Related host files concrete abstract) (takes : TakesOwn concrete (perform action)) :
      Own abstract action := by
    simpa using takes.own related
  obtain ⟨abstract, ⟨-, stage⟩, related⟩ := exec_performing
    (fun abstract => Lossy (count files) abstract ∧ Stage (count files) index abstract)
    genuine fits ⟨lossy_start hlost, stage_start (pendingAfter_start hfile hlost hall)⟩
    (fun _ _ _ related _ takes => (own related takes).keepsName)
    (fun _ _ _ _ related invariant takes hstep =>
      ⟨invariant.1.step (own related takes) hstep,
        invariant.2.step invariant.1 (own related takes) hcount hstep⟩) meets run
  obtain ⟨hnone, hone⟩ := jobsOf_eq hfile related.jobs
  refine ⟨?_, exec_performing_length run, ?_⟩
  · rcases stage.finished_cases with hfinished | hfinished
    · exact Or.inl (hnone hfinished)
    · exact Or.inr (hone hfinished)
  · intro stuck
    exact hone (stage.done_of_pending hcount (pending_of_stuck related room stuck))

end

/-- The second packet of the first file is lost, and `File_Process` lags: it
takes the second packet of the second file instead. -/
def laggingRun : List Reassembly.Action :=
  [.recvfrom, .msgsnd, .recvfrom, .msgsnd, .recvfrom, .msgsnd, .poll, .poll, .poll, .poll]

theorem stolen_packet :
    (arrived [⟨0, 1⟩, ⟨1, 1⟩, ⟨1, 2⟩]).Sublist (stream plainHost.info.order twoFiles) ∧
    (∀ sent ∈ packets plainHost.info.order 1 (filledFile 98 2 2000 (by decide) (by decide)),
      sent ∈ arrived [⟨0, 1⟩, ⟨1, 1⟩, ⟨1, 2⟩]) ∧
    ∃ final, exec (performing plainHost) (Sudp.start (arrived [⟨0, 1⟩, ⟨1, 1⟩, ⟨1, 2⟩]))
      laggingRun = some final ∧ (∀ action, performing plainHost final action = none) ∧
      jobsOf 1 final = [] ∧ ∀ done ∈ final.jobs, done.job ≠
        jobOf plainHost.info (filledFile 98 2 2000 (by decide) (by decide)) := by
  refine ⟨arrived_sublist _, ?_, ?_⟩
  · rw [packets_second]
    decide +kernel
  have hend : (exec (performing plainHost) (Sudp.start (arrived [⟨0, 1⟩, ⟨1, 1⟩, ⟨1, 2⟩]))
      laggingRun).any (fun final =>
        [Reassembly.Action.recvfrom, .msgsnd, .poll, .wait].all
          (fun action => (performing plainHost final action).isNone) &&
        (jobsOf 1 final).isEmpty &&
        final.jobs.all fun done => done.job ≠
          jobOf plainHost.info (filledFile 98 2 2000 (by decide) (by decide))) = true := by
    decide +kernel
  obtain ⟨final, run, hall⟩ := (Option.any_eq_true _ _).mp hend
  simp only [Bool.and_eq_true, List.all_cons, List.all_nil, Option.isNone_iff_eq_none,
    List.isEmpty_iff, List.all_eq_true, decide_eq_true_eq, and_true] at hall
  obtain ⟨⟨⟨hrecvfrom, hmsgsnd, hpoll, hwait⟩, hnone⟩, hother⟩ := hall
  refine ⟨final, run, ?_, hnone, hother⟩
  intro action
  cases action with
  | recvfrom => exact hrecvfrom
  | msgsnd => exact hmsgsnd
  | poll => exact hpoll
  | wait => exact hwait

/-- The second packet of the first file is lost, but `File_Process` does not lag. -/
theorem received_once_second :
    ∃ final, exec (performing plainHost) (Sudp.start (arrived [⟨0, 1⟩, ⟨1, 1⟩, ⟨1, 2⟩]))
      [.recvfrom, .msgsnd, .poll, .poll, .recvfrom, .msgsnd, .wait, .recvfrom, .msgsnd, .poll] =
        some final ∧
      (jobsOf 1 final = [] ∨ jobsOf 1 final =
        [jobOf plainHost.info (filledFile 98 2 2000 (by decide) (by decide))]) ∧
      [Reassembly.Action.recvfrom, .msgsnd, .poll, .poll, .recvfrom, .msgsnd, .wait, .recvfrom,
        .msgsnd, .poll].length ≤ Sudp.work (Sudp.start (arrived [⟨0, 1⟩, ⟨1, 1⟩, ⟨1, 2⟩])) ∧
      ((∀ action, performing plainHost final action = none) → jobsOf 1 final =
        [jobOf plainHost.info (filledFile 98 2 2000 (by decide) (by decide))]) := by
  have hall : ∀ sent ∈ packets plainHost.info.order 1
      (filledFile 98 2 2000 (by decide) (by decide)), sent ∈ arrived [⟨0, 1⟩, ⟨1, 1⟩, ⟨1, 2⟩] := by
    rw [packets_second]
    decide +kernel
  have meets : Meets (performing plainHost) (fun state action => TakesOwn state (perform action))
      (Sudp.start (arrived [⟨0, 1⟩, ⟨1, 1⟩, ⟨1, 2⟩]))
      [.recvfrom, .msgsnd, .poll, .poll, .recvfrom, .msgsnd, .wait, .recvfrom, .msgsnd, .poll] := by
    decide +kernel
  have hsome : (exec (performing plainHost) (Sudp.start (arrived [⟨0, 1⟩, ⟨1, 1⟩, ⟨1, 2⟩]))
      [.recvfrom, .msgsnd, .poll, .poll, .recvfrom, .msgsnd, .wait, .recvfrom, .msgsnd,
        .poll]).isSome = true := by decide +kernel
  obtain ⟨final, run⟩ := Option.isSome_iff_exists.mp hsome
  exact ⟨final, run, received_once rfl fits_twoFiles (fun _ => rfl) (arrived_sublist _) hall meets run⟩

end UdpFileProxy.Isolation
