import UdpFileProxy.Refinement

/-! The receiver when datagrams are lost and the others arrive in order. A packet
of one file can be appended to the output file of another; as long as that does
not happen, every file is received whole or not at all, and nothing that was lost
of one file costs another one. -/
namespace UdpFileProxy.Integrity
open Lib.Memory Lib.Run Protocol FileProcess Sending Refinement Reassembly
open Sudp (Host Finished)

/-- Sending order. -/
def Earlier (a b : Origin) : Prop := a.file < b.file ∨ (a.file = b.file ∧ a.number < b.number)

/-- The packet that a step appends to the open file, number 1 apart, is of that
file. -/
def Own (state : Reassembly.State) (action : Reassembly.Action) : Prop :=
  ∀ packet rest, taken state action = some (packet, rest) → state.saved ≠ [] →
    packet.number ≠ 1 → packet.file = opener state.saved

/-- What is pending of the open file lies ahead of what is in it. -/
def Ahead (state : Reassembly.State) : Prop :=
  ∀ packet ∈ pending state, state.saved ≠ [] → packet.file = opener state.saved →
    state.packMove ≤ packet.number

structure Lossy (count : Nat → Nat) (state : Reassembly.State) : Prop where
  sound : Sound count state
  numbered : Numbered count state
  ordered : (pending state).Pairwise Earlier
  ahead : Ahead state

theorem pairwise_stream (count : Nat → Nat) (files : Nat) :
    ((List.range files).flatMap (whole count)).Pairwise Earlier := by
  rw [List.pairwise_flatMap]
  refine ⟨?_, ?_⟩
  · intro file _
    have hincreasing : (List.range' 1 (count file)).Pairwise (· < ·) := List.pairwise_lt_range'
    rw [whole, List.pairwise_map]
    exact hincreasing.imp fun h => Or.inr ⟨rfl, h⟩
  · refine List.pairwise_lt_range.imp ?_
    intro file later hfile packet hpacket other hother
    obtain ⟨_, -, rfl⟩ := List.mem_map.mp hpacket
    obtain ⟨_, -, rfl⟩ := List.mem_map.mp hother
    exact Or.inl hfile

section
variable {count : Nat → Nat} {state next : Reassembly.State} {action : Reassembly.Action}
  {packet : Origin} {rest : List Origin}

theorem two_le_packMove (h : Sound count state) (hne : state.saved ≠ []) : 2 ≤ state.packMove := by
  obtain ⟨first, hfirst⟩ := List.exists_mem_of_ne_nil _ hne
  have hnumber := (h.ascending.bounds first hfirst).1
  have hbelow := h.below first hfirst
  omega

theorem Own.continues (h : Own state action) (ahead : Ahead state) : Continues state action :=
  fun packet rest htaken hne hnumber =>
    have hfile := h packet rest htaken hne hnumber
    ⟨hfile, ahead packet (mem_pending_of_taken htaken) hne hfile⟩

theorem Own.opener_append (h : Own state action) (htaken : taken state action = some (packet, rest)) :
    opener (append state.saved packet) = packet.file := by
  unfold append
  split
  · rfl
  · rename_i hcontinue
    obtain ⟨hne, hnumber⟩ := not_or.mp hcontinue
    rw [Reassembly.opener_append hne, h packet rest htaken hne hnumber]

theorem Lossy.older_other (h : Lossy count state) (own : Own state action)
    (htaken : taken state action = some (packet, rest)) {older newer : List Origin}
    (hpending : pending state = older ++ packet :: newer)
    (hwanted : packet.number = state.packMove ∧ (∀ other ∈ older, other.number ≠ state.packMove) ∨
      older = []) : ∀ other ∈ older, other.file ≠ packet.file := by
  intro other hother hfile
  have hbefore : Earlier other packet := by
    have hordered := h.ordered
    rw [hpending] at hordered
    exact (List.pairwise_append.mp hordered).2.2 other hother packet (by simp)
  have hmem : other ∈ pending state := by simp [hpending, hother]
  have hless : other.number < packet.number := by
    rcases hbefore with hlt | ⟨-, hlt⟩ <;> omega
  rcases hwanted with ⟨hnumber, -⟩ | hnil
  · by_cases hne : state.saved = []
    · -- no file is open, so number 1 was wanted
      have := h.sound.idle hne
      have := (h.numbered other hmem).1
      omega
    · have := two_le_packMove h.sound hne
      have hown := own packet rest htaken hne (by omega)
      have := h.ahead other hmem hne (by rw [hfile, hown])
      omega
  · simp [hnil] at hother

theorem Lossy.step (h : Lossy count state) (own : Own state action)
    (hstep : Reassembly.step count state action = some next) : Lossy count next := by
  refine ⟨h.sound.step h.numbered (own.continues h.ahead) hstep, h.numbered.step hstep,
    h.ordered.sublist (pending_sublist hstep), ?_⟩
  rcases step_cases hstep with ⟨hpending, hsaved, hmove, -, -⟩ | ⟨packet, rest, htaken, rfl⟩
  · unfold Ahead
    rw [hpending, hsaved, hmove]
    exact h.ahead
  · intro other hother hne hfile
    obtain ⟨hsaved, hmove⟩ := saved_take hne
    rw [hsaved, own.opener_append htaken] at hfile
    rw [hmove]
    obtain ⟨older, newer, hpending, hnext, hwanted⟩ := taken_pending count htaken
    rw [hnext, List.mem_append] at hother
    rcases hother with hother | hother
    · exact absurd hfile (h.older_other own htaken hpending hwanted other hother)
    · have hordered := h.ordered
      rw [hpending] at hordered
      have hafter := (List.pairwise_cons.mp (List.pairwise_append.mp hordered).2.1).1 other hother
      rcases hafter with hlt | ⟨-, hlt⟩ <;> omega

end

/-! ### Integrity -/

/-- With a file open, the message that `msgrcv` returns is number 1 or was made
of the file that the first packet in the open file is of. -/
def TakesOwn (state : Sudp.State) (action : Sudp.Action) : Prop :=
  ∀ found ∈ Sudp.taken state action, state.fp.packSaved ≠ 0 → found.2.1.mtype ≠ 1 →
    found.2.1.origin.file = opener state.packets

instance (state : Sudp.State) (action : Sudp.Action) : Decidable (TakesOwn state action) :=
  inferInstanceAs (Decidable (∀ found ∈ Sudp.taken state action, state.fp.packSaved ≠ 0 →
    found.2.1.mtype ≠ 1 → found.2.1.origin.file = opener state.packets))

/-- A job for a file that was sent, with its name, its bytes and its packets. -/
def Intact (info : Info) (files : List SentFile) (done : Finished) : Prop :=
  ∃ index file, files[index]? = some file ∧ done.job = jobOf info file ∧
    ∀ packet ∈ done.packets, packet.file = index

section
variable {host : Host} {files : List SentFile} {arrivals : List Datagram} {concrete : Sudp.State}
  {abstract : Reassembly.State} {action : Sudp.Action}

theorem TakesOwn.own (h : TakesOwn concrete action) (related : Related host files concrete abstract) :
    Own abstract (abstraction action) := by
  intro packet rest htaken hne hnumber
  rw [taken_related related action, Option.map_eq_some_iff] at htaken
  obtain ⟨⟨move, msg, rest'⟩, hfound, hpacket⟩ := htaken
  obtain ⟨rfl, -⟩ := Prod.mk.inj hpacket
  have hcarries := (taken_carries related hfound).2.1
  have hsaved : concrete.fp.packSaved ≠ 0 := by
    rw [related.holds.packSaved]
    simpa using hne
  have hmtype : msg.mtype ≠ 1 := by
    rw [hcarries.1]
    exact_mod_cast hnumber
  rw [← related.packets]
  exact h _ hfound hsaved hmtype

theorem Own.keepsName {state : Reassembly.State} {action : Reassembly.Action} (h : Own state action) :
    KeepsName files state action := by
  intro packet rest htaken hne hnumber
  rw [h packet rest htaken hne hnumber]

theorem lossy_start (hlost : arrivals.Sublist (stream host.info.order files)) :
    Lossy (count files) (Reassembly.start (arrivals.map Datagram.origin)) where
  sound := sound_start _
  numbered := by
    intro packet hpacket
    obtain ⟨sent, hsent, rfl⟩ := List.mem_map.mp hpacket
    exact (genuine_of_mem_stream _ (hlost.subset hsent)).numbered
  ordered := by
    have hordered := pairwise_stream (count files) files.length
    rw [← stream_origins host.info.order files] at hordered
    exact hordered.sublist (hlost.map _)
  ahead := by simp [Ahead, Reassembly.start]

theorem intact_of_sound (h : Sound (count files) abstract) {jobs : List Finished}
    (hjobs : Delivers host.info files jobs abstract.finished) :
    ∀ done ∈ jobs, Intact host.info files done := by
  intro done hdone
  have hmem : done.packets ∈ abstract.finished := by
    rw [← hjobs.packets]
    exact List.mem_map_of_mem hdone
  obtain ⟨index, hcount, hwhole⟩ := h.finished _ hmem
  have hdelivered := hjobs.delivered done hdone
  have hindex := lt_of_count_pos hcount
  refine ⟨index, files[index], List.getElem?_eq_getElem hindex, ?_, ?_⟩
  · exact hdelivered.job_eq hwhole (List.getElem?_eq_getElem hindex)
  · intro packet hpacket
    rw [hwhole] at hpacket
    obtain ⟨_, -, rfl⟩ := List.mem_map.mp hpacket
    rfl

/-- Whatever was lost, and however far `File_Process` lags: when every packet
appended to an open file is of that file, each job is for the exact bytes of one
file that was sent. -/
theorem jobs_intact {final : Sudp.State} {actions : List Sudp.Action}
    (hlost : arrivals.Sublist (stream host.info.order files))
    (meets : Meets (Sudp.step host) TakesOwn (Sudp.start arrivals) actions)
    (run : exec (Sudp.step host) (Sudp.start arrivals) actions = some final) :
    ∀ done ∈ final.jobs, Intact host.info files done := by
  have genuine : ∀ sent ∈ arrivals, Genuine host.info.order files sent.origin sent.bytes :=
    fun sent hsent => genuine_of_mem_stream _ (hlost.subset hsent)
  obtain ⟨abstract, hlossy, hjobs, -⟩ := exec_refines (Lossy (count files)) genuine (lossy_start hlost)
    (fun _ _ _ related _ takes => (takes.own related).keepsName)
    (fun _ _ _ _ related lossy takes hstep => lossy.step (takes.own related) hstep) meets run
  exact intact_of_sound hlossy.sound hjobs

end

/-- A queue that is never full. -/
def plainHost : Host := ⟨⟨.little, [100], [101]⟩, fun _ _ => true⟩

def twoFiles : List SentFile :=
  [filledFile 97 1 1025 (by decide) (by decide), filledFile 98 2 2000 (by decide) (by decide)]

theorem fits_twoFiles : Fits plainHost.info twoFiles := by
  intro file hfile
  simp only [twoFiles, List.mem_cons, List.not_mem_nil, or_false] at hfile
  rcases hfile with rfl | rfl <;> decide

/-- What is sent for the first of them, and for the second. -/
def firstSent : List Datagram :=
  packetsFrom .little (filledFile 97 1 1025 (by decide) (by decide)) 0 0 0x0c 0
    [List.replicate 1024 1, List.replicate 1 1]

def secondSent : List Datagram :=
  packetsFrom .little (filledFile 98 2 2000 (by decide) (by decide)) 1 0 0x0c 0
    [List.replicate 1024 2, List.replicate 976 2]

theorem packets_first : packets plainHost.info.order 0
    (filledFile 97 1 1025 (by decide) (by decide)) = firstSent := by
  have hchunks : chunks (List.replicate 1025 1) = [List.replicate 1024 1, List.replicate 1 1] :=
    (chunks_replicate_of_lt 1 (by decide)).trans
      (congrArg _ (chunks_replicate_of_le 1 (by decide)))
  exact congrArg _ hchunks

theorem packets_second : packets plainHost.info.order 1
    (filledFile 98 2 2000 (by decide) (by decide)) = secondSent := by
  have hchunks : chunks (List.replicate 2000 2) = [List.replicate 1024 2, List.replicate 976 2] :=
    (chunks_replicate_of_lt 2 (by decide)).trans
      (congrArg _ (chunks_replicate_of_le 2 (by decide)))
  exact congrArg _ hchunks

theorem stream_twoFiles : stream plainHost.info.order twoFiles = firstSent ++ secondSent := by
  unfold stream twoFiles streamFrom streamFrom streamFrom
  rw [packets_first, packets_second, List.append_nil]

/-- The datagrams that are not lost. -/
def arrived (origins : List Origin) : List Datagram :=
  (firstSent ++ secondSent).filter fun sent => sent.origin ∈ origins

theorem arrived_sublist (origins : List Origin) :
    (arrived origins).Sublist (stream plainHost.info.order twoFiles) := by
  rw [stream_twoFiles]
  exact List.filter_sublist

/-- The second packet of the first file and the first packet of the second are
lost: what is left of both becomes one file. -/
def crossedRun : List Sudp.Action :=
  [.recvfrom, .msgsnd, .poll .ok, .recvfrom, .msgsnd, .poll .ok]

theorem crossed_job :
    (arrived [⟨0, 1⟩, ⟨1, 2⟩]).Sublist (stream plainHost.info.order twoFiles) ∧
    ∃ final, exec (Sudp.step plainHost) (Sudp.start (arrived [⟨0, 1⟩, ⟨1, 2⟩])) crossedRun =
      some final ∧ ∃ done ∈ final.jobs, ¬Intact plainHost.info twoFiles done ∧
        ∀ file ∈ twoFiles, done.job.content ≠ file.content := by
  refine ⟨arrived_sublist _, ?_⟩
  have hjobs : (exec (Sudp.step plainHost) (Sudp.start (arrived [⟨0, 1⟩, ⟨1, 2⟩])) crossedRun).any
      (fun final => final.jobs.any fun done =>
        twoFiles.all fun file => done.job.content ≠ file.content) = true := by decide +kernel
  obtain ⟨final, run, hany⟩ := (Option.any_eq_true _ _).mp hjobs
  obtain ⟨done, hdone, hall⟩ := List.any_eq_true.mp hany
  have hother : ∀ file ∈ twoFiles, done.job.content ≠ file.content := by simpa using hall
  refine ⟨final, run, done, hdone, ?_, hother⟩
  rintro ⟨index, file, hfile, hjob, -⟩
  exact hother file (List.mem_of_getElem? hfile) (congrArg Job.content hjob)

/-- Without the first packet of the second file, the first file is received. -/
theorem jobs_intact_first :
    ∃ final, exec (Sudp.step plainHost) (Sudp.start (arrived [⟨0, 1⟩, ⟨0, 2⟩, ⟨1, 2⟩]))
      (crossedRun ++ [.recvfrom, .msgsnd, .poll .ok]) = some final ∧ final.jobs.length = 1 ∧
      ∀ done ∈ final.jobs, Intact plainHost.info twoFiles done := by
  have meets : Meets (Sudp.step plainHost) TakesOwn
      (Sudp.start (arrived [⟨0, 1⟩, ⟨0, 2⟩, ⟨1, 2⟩]))
      (crossedRun ++ [.recvfrom, .msgsnd, .poll .ok]) := by decide +kernel
  have hjobs : (exec (Sudp.step plainHost) (Sudp.start (arrived [⟨0, 1⟩, ⟨0, 2⟩, ⟨1, 2⟩]))
      (crossedRun ++ [.recvfrom, .msgsnd, .poll .ok])).any (fun final => final.jobs.length = 1) =
        true := by decide +kernel
  obtain ⟨final, run, hone⟩ := (Option.any_eq_true _ _).mp hjobs
  exact ⟨final, run, by simpa using hone, jobs_intact (arrived_sublist _) meets run⟩

end UdpFileProxy.Integrity
