import UdpFileProxy.Sudp

/-! `Sudp` refines the receiver of packet origins: as long as every output file
is written from packets with names of one length, each step of the process on
bytes is the same step on origins. -/
namespace UdpFileProxy.Refinement
open Lib.Memory Lib.TypedFifo Protocol FileProcess Sending Sudp
open Lib.Run
open Reassembly (Origin append opener pending whole)

def nameLength (files : List SentFile) (file : Nat) : Nat :=
  files[file]?.elim 0 fun sent => sent.path.length

def chunkOf (files : List SentFile) (origin : Origin) : Bytes :=
  (files[origin.file]?.bind fun file => (chunks file.content)[origin.number - 1]?).getD []

def contentOf (files : List SentFile) (packets : List Origin) : Bytes :=
  packets.flatMap (chunkOf files)

theorem contentOf_whole {files : List SentFile} {index : Nat} {file : SentFile}
    (h : files[index]? = some file) : contentOf files (whole (count files) index) = file.content := by
  have hchunks : (whole (count files) index).map (chunkOf files) = chunks file.content := by
    apply List.ext_getElem?
    intro i
    simp only [whole, count, h, Option.elim_some, List.map_map, List.getElem?_map,
      Function.comp_def, chunkOf, Option.bind_some]
    by_cases hi : i < (chunks file.content).length <;> simp [hi]
  rw [contentOf, List.flatMap_def, hchunks, chunks_flatten]

/-- The job for a file that arrived whole. -/
def jobOf (info : Info) (file : SentFile) : Job := ⟨savePathOf info file.path, file.content⟩

/-- The variables of `File_Process` when `saved` are the packets it has written
to the open file. -/
structure Holds (info : Info) (files : List SentFile) (fp : FileProcess.State)
    (saved : List Origin) (packMove : Nat) : Prop where
  packSaved : fp.packSaved = saved.length
  packMove : fp.packMove = packMove
  opened : saved ≠ [] → ∃ file, files[opener saved]? = some file ∧
    fp.packTotal = packetCount file.content.length ∧
    fp.fileNameLength = file.path.length ∧
    fp.pack = 22 + file.path.length + 4 ∧
    fp.savePath = savePathOf info file.path ∧
    fp.fp = some (contentOf files saved)

section
variable {info : Info} {files : List SentFile} {fp : FileProcess.State} {saved : List Origin}
  {packMove : Nat} {origin : Origin} {text : Bytes}

theorem holds_again (info : Info) (files : List SentFile) (fp : FileProcess.State) :
    Holds info files (again fp) [] 1 :=
  ⟨rfl, rfl, by simp⟩

theorem count_eq {file : SentFile} {index : Nat} (h : files[index]? = some file) :
    packetCount file.content.length = count files index := by
  rw [count, h, Option.elim_some, length_chunks]
  rfl

theorem number_lt {order : Endian} (genuine : Genuine order files origin text) :
    origin.number < 2 ^ 62 := by
  obtain ⟨file, chunk, protocol, hfile, hpos, hchunk, -⟩ := genuine
  have hlt := (List.getElem?_eq_some_iff.mp hchunk).1
  have hsize := file.content_lt
  rw [length_chunks] at hlt
  omega

theorem wrap64_number {order : Endian} (genuine : Genuine order files origin text) :
    wrap64 ((origin.number : Int) + 1) = (origin.number + 1 : Nat) := by
  have := number_lt genuine
  rw [wrap64, Int.bmod_eq_of_le_mul_two] <;> push_cast <;> omega

theorem checkSize_holds (h : Holds info files fp saved (origin.number + 1)) (hne : saved ≠ []) :
    ∃ path, (∃ file, files[opener saved]? = some file ∧ path = savePathOf info file.path) ∧
    checkSize fp (contentOf files saved) =
      if count files (opener saved) = saved.length then
        (again { fp with fp := none }, some ⟨path, contentOf files saved⟩)
      else if count files (opener saved) = origin.number then
        (again { fp with fp := none }, none)
      else (fp, none) := by
  obtain ⟨file, hfile, htotal, -, -, hpath, -⟩ := h.opened hne
  refine ⟨fp.savePath, ⟨file, hfile, hpath⟩, ?_⟩
  have hmove : fp.packMove - 1 = origin.number := by
    rw [h.packMove]
    push_cast
    omega
  unfold checkSize
  rw [htotal, h.packSaved, hmove, count_eq hfile]
  simp only [Nat.cast_inj]

/-- The packet that opens a file, or has the same name length as the one that
did. -/
def SameName (files : List SentFile) (saved : List Origin) (origin : Origin) : Prop :=
  saved ≠ [] → origin.number ≠ 1 →
    nameLength files origin.file = nameLength files (opener saved)

theorem startsFile_iff (h : Holds info files fp saved packMove)
    (genuine : Genuine info.order files origin text) :
    startsFile (FileProcess.receive fp origin.number text) = true ↔
      saved = [] ∨ origin.number = 1 := by
  simp only [startsFile, FileProcess.receive, Bool.decide_or, Bool.or_eq_true, decide_eq_true_eq,
    h.packSaved, wrap64_number genuine]
  constructor
  · rintro (hsaved | hnumber)
    · exact Or.inl (List.length_eq_zero_iff.mp (by exact_mod_cast hsaved))
    · exact Or.inr (by omega)
  · rintro (rfl | hnumber)
    · exact Or.inl rfl
    · exact Or.inr (by omega)

@[simp] theorem contentOf_append (packets : List Origin) (origin : Origin) :
    contentOf files (packets ++ [origin]) = contentOf files packets ++ chunkOf files origin := by
  simp [contentOf]

theorem iterate_holds (h : Holds info files fp saved packMove)
    (genuine : Genuine info.order files origin text) (same : SameName files saved origin)
    (io : FileIo) :
    ∃ written, Holds info files written (append saved origin) (origin.number + 1) ∧
      (∀ result, iterate info io fp origin.number text = .ok result →
        result = checkSize written (contentOf files (append saved origin))) ∧
      (io = .ok → (∀ file ∈ files, (savePathOf info file.path).length < savePathSize) →
        iterate info io fp origin.number text =
          .ok (checkSize written (contentOf files (append saved origin)))) := by
  have hmove := wrap64_number genuine
  have hiff := startsFile_iff h genuine
  obtain ⟨file, chunk, protocol, hfile, hpos, hchunk, htext⟩ := genuine
  have hpath := file.path_le
  have hchunkLength := length_le_of_mem_chunks (List.mem_of_getElem? hchunk)
  have hchunkOf : chunkOf files origin = chunk := by simp [chunkOf, hfile, hchunk]
  by_cases hstart : saved = [] ∨ origin.number = 1
  · have happend : append saved origin = [origin] := if_pos hstart
    have hcontent : contentOf files [origin] = chunk := by simp [contentOf, hchunkOf]
    have hbegins := hiff.mpr hstart
    rw [htext] at hbegins
    have hiterate (io : FileIo) := iterate_start info fp io hbegins hpath hchunkLength
      file.content_lt
    simp only [← htext] at hiterate
    rw [happend, hcontent]
    refine ⟨started info (FileProcess.receive fp origin.number text) file.content.length file.path
      chunk, ⟨?_, ?_, ?_⟩, ?_, ?_⟩
    · simp [started]
    · simpa [started, FileProcess.receive] using hmove
    · intro _
      refine ⟨file, hfile, ?_⟩
      simp [started, hcontent]
    · intro result hresult
      rw [hiterate io] at hresult
      split at hresult
      · cases hresult
      split at hresult
      · cases hresult
      split at hresult
      · cases hresult
      exact (Except.ok.inj hresult).symm
    · rintro rfl hfits
      have hshort := hfits file (List.mem_of_getElem? hfile)
      rw [hiterate .ok, if_neg (by omega), if_neg (by simp [FileIo.ok]),
        if_neg (by simp [FileIo.ok])]
  · have happend : append saved origin = saved ++ [origin] := if_neg hstart
    obtain ⟨hne, hnumber⟩ := not_or.mp hstart
    obtain ⟨first, hfirst, htotal, hlength, hpack, hsavePath, hfp⟩ := h.opened hne
    have hsame : first.path.length = file.path.length := by
      have := same hne hnumber
      simpa [nameLength, hfile, hfirst] using this.symm
    rw [hsame] at hlength hpack
    have hcontinue := Bool.eq_false_iff.mpr (mt hiff.mp hstart)
    rw [htext] at hcontinue
    have hiterate (io : FileIo) := iterate_append info fp io hcontinue hpath hchunkLength hlength
      hpack hfp
    simp only [← htext] at hiterate
    rw [happend, contentOf_append, hchunkOf]
    refine ⟨{ FileProcess.receive fp origin.number text with
      fp := some (contentOf files saved ++ chunk), packSaved := fp.packSaved + 1 },
      ⟨?_, ?_, ?_⟩, ?_, ?_⟩
    · simp [h.packSaved]
    · simpa [FileProcess.receive] using hmove
    · intro _
      rw [Reassembly.opener_append hne]
      refine ⟨first, hfirst, ?_⟩
      simp [FileProcess.receive, htotal, hlength, hpack, hsavePath, hsame,
        hchunkOf]
    · intro result hresult
      rw [hiterate io] at hresult
      split at hresult
      · cases hresult
      exact (Except.ok.inj hresult).symm
    · rintro rfl -
      rw [hiterate .ok, if_neg (by simp [FileIo.ok])]

end

/-! ### The process -/

def abstraction (action : Sudp.Action) : Reassembly.Action :=
  match action with
  | .recvfrom => .recvfrom
  | .msgsnd => .msgsnd
  | .poll _ => .poll
  | .wait _ => .wait

/-- A message that carries a datagram of the sender, under its packet number. -/
def Carries (order : Endian) (files : List SentFile) (msg : Msg) : Prop :=
  msg.mtype = msg.origin.number ∧ Genuine order files msg.origin msg.mtext

/-- A job for the file that its packets, in this order, were written to. -/
structure Delivered (info : Info) (files : List SentFile) (done : Finished) : Prop where
  savePath : ∃ file, files[opener done.packets]? = some file ∧
    done.job.savePath = savePathOf info file.path
  content : done.job.content = contentOf files done.packets

/-- The jobs are for these lists of packets. -/
structure Delivers (info : Info) (files : List SentFile) (jobs : List Finished)
    (finished : List (List Origin)) : Prop where
  packets : jobs.map Finished.packets = finished
  delivered : ∀ done ∈ jobs, Delivered info files done

theorem Delivered.job_eq {info : Info} {files : List SentFile} {done : Finished} {index : Nat}
    {file : SentFile} (h : Delivered info files done)
    (hpackets : done.packets = whole (count files) index) (hfile : files[index]? = some file) :
    done.job = jobOf info file := by
  have hopener : opener (whole (count files) index) = index :=
    Reassembly.opener_whole (count_pos (List.getElem?_eq_some_iff.mp hfile).1)
  obtain ⟨first, hfirst, hpath⟩ := h.savePath
  rw [hpackets, hopener, hfile] at hfirst
  cases hfirst
  have hcontent := h.content
  rw [hpackets, contentOf_whole hfile] at hcontent
  rw [jobOf, ← hpath, ← hcontent]

theorem Delivers.append {info : Info} {files : List SentFile} {jobs : List Finished}
    {finished : List (List Origin)} (h : Delivers info files jobs finished) {done : Finished}
    (hdone : Delivered info files done) :
    Delivers info files (jobs ++ [done]) (finished ++ [done.packets]) where
  packets := by rw [List.map_append, h.packets, List.map_singleton]
  delivered := by
    intro other hother
    rcases List.mem_append.mp hother with hother | hother
    · exact h.delivered other hother
    · rw [List.mem_singleton.mp hother]
      exact hdone

structure Related (host : Host) (files : List SentFile) (concrete : Sudp.State)
    (abstract : Reassembly.State) : Prop where
  running : concrete.stopped = none
  incoming : abstract.incoming = concrete.incoming.map Datagram.origin
  genuine : ∀ sent ∈ concrete.incoming, Genuine host.info.order files sent.origin sent.bytes
  held : abstract.held = concrete.held.map Msg.origin
  heldCarries : ∀ msg ∈ concrete.held, Carries host.info.order files msg
  queue : abstract.queue = concrete.queue.map Msg.origin
  queueCarries : ∀ msg ∈ concrete.queue, Carries host.info.order files msg
  waiting : abstract.waiting = true ↔ concrete.phase = .waiting
  holds : Holds host.info files concrete.fp abstract.saved abstract.packMove
  packets : concrete.packets = abstract.saved
  wanted : 1 ≤ abstract.packMove
  jobs : Delivers host.info files concrete.jobs abstract.finished

section
variable {host : Host} {files : List SentFile} {concrete next : Sudp.State}
  {abstract : Reassembly.State} {action : Sudp.Action}

theorem related_start (arrivals : List Datagram)
    (genuine : ∀ sent ∈ arrivals, Genuine host.info.order files sent.origin sent.bytes) :
    Related host files (Sudp.start arrivals) (Reassembly.start (arrivals.map Datagram.origin)) where
  running := rfl
  incoming := rfl
  genuine := genuine
  held := rfl
  heldCarries := by simp [Sudp.start]
  queue := rfl
  queueCarries := by simp [Sudp.start]
  waiting := by simp [Sudp.start, Reassembly.start]
  holds := holds_again _ _ _
  packets := rfl
  wanted := le_refl 1
  jobs := ⟨rfl, by simp [Sudp.start]⟩

theorem receive_genuine {sent : Datagram} (loop : RecvLoop)
    (genuine : Genuine host.info.order files sent.origin sent.bytes) :
    ∃ after, receive host.info.order loop sent =
      .ok (after, ⟨sent.origin.number, sent.bytes, sent.origin⟩) := by
  have hnumber := number_lt genuine
  obtain ⟨file, chunk, protocol, hfile, hpos, hchunk, hbytes⟩ := id genuine
  have hpath := file.path_le
  have hchunkLength := length_le_of_mem_chunks (List.mem_of_getElem? hchunk)
  have hlength : sent.bytes.length ≤ msgbufText := by
    rw [hbytes, length_datagram]
    simp only [msgbufText, maxline] at hchunkLength ⊢
    omega
  have htake : sent.bytes.take maxdatasize = sent.bytes := by
    apply List.take_of_length_le
    simp only [msgbufText, maxdatasize] at hlength ⊢
    omega
  let front : Bytes := [SendPack.version, protocol]
  let back := storeInt host.info.order 8 file.content.length ++
    storeInt host.info.order 4 file.path.length ++ file.path ++
    storeInt host.info.order 4 chunk.length ++ chunk
  have layout : sent.bytes = front ++ storeInt host.info.order 8 sent.origin.number ++ back := by
    rw [hbytes]
    simp [datagram, front, back]
  have hfits : sent.bytes.length ≤ maxdatasize := by
    rw [← htake]
    exact List.length_take_le _ _
  have hread : (loop.msg.fill sent.bytes).read 2 8 =
      some (storeInt host.info.order 8 sent.origin.number) :=
    Buffer.read_fill loop.msg layout rfl (length_storeInt _ _ _).symm hfits
  have hfield : ((loop.msg.fill sent.bytes).bytes.drop 2).take 8 =
      storeInt host.info.order 8 sent.origin.number := by
    simpa [Buffer.read, maxdatasize] using hread
  have hload : loadInt host.info.order (storeInt host.info.order 8 sent.origin.number) =
      sent.origin.number :=
    loadInt_storeInt _ _ _ (by omega) (by norm_num; omega)
  unfold Sudp.receive
  simp only [htake, hfield, hload]
  rw [if_neg (by omega)]
  exact ⟨_, rfl⟩

theorem taken_related (h : Related host files concrete abstract) (action : Sudp.Action) :
    Reassembly.taken abstract (abstraction action) =
      (taken concrete action).map fun found => (found.2.1.origin, found.2.2.map Msg.origin) := by
  cases action with
  | recvfrom => rfl
  | msgsnd => rfl
  | poll io =>
    cases hphase : concrete.phase with
    | waiting =>
      have hwaiting := h.waiting.mpr hphase
      simp [Reassembly.taken, taken, abstraction, hphase, hwaiting]
    | polling =>
      have hwaiting : abstract.waiting = false := by
        rw [← Bool.not_eq_true, h.waiting, hphase]
        simp
      have hwanted : (0 : Int) < concrete.fp.packMove := by
        rw [h.holds.packMove]
        exact_mod_cast h.wanted
      have hsame : ∀ msg ∈ concrete.queue,
          decide (msg.origin.number = abstract.packMove) =
            decide (msg.mtype = concrete.fp.packMove) := by
        intro msg hmsg
        rw [(h.queueCarries msg hmsg).1, h.holds.packMove]
        simp
      simp only [Reassembly.taken, taken, abstraction, hphase, hwaiting, h.queue, takeFirst_map,
        msgrcv_pos _ _ hwanted, takeFirst_congr hsame, Option.map_map, Function.comp_def]
  | wait io =>
    cases hphase : concrete.phase with
    | waiting =>
      have hwaiting := h.waiting.mpr hphase
      simp only [Reassembly.taken, taken, abstraction, hphase, hwaiting, h.queue, takeFirst_map,
        msgrcv, if_true, Option.map_map, Function.comp_def]
    | polling =>
      have hwaiting : abstract.waiting = false := by
        rw [← Bool.not_eq_true, h.waiting, hphase]
        simp
      simp [Reassembly.taken, taken, abstraction, hphase, hwaiting]

theorem taken_carries (h : Related host files concrete abstract) {move : Int} {msg : Msg}
    {rest : List Msg} (htaken : taken concrete action = some (move, msg, rest)) :
    move = msg.origin.number ∧ Carries host.info.order files msg ∧
      ∀ other ∈ rest, Carries host.info.order files other := by
  have split_queue {wanted : Msg → Bool} (hfirst : takeFirst wanted concrete.queue = some (msg, rest)) :
      wanted msg = true ∧ Carries host.info.order files msg ∧
        ∀ other ∈ rest, Carries host.info.order files other := by
    obtain ⟨older, newer, hqueue, hrest, hwanted, -⟩ := takeFirst_eq_some.mp hfirst
    have hcarries := h.queueCarries
    rw [hqueue] at hcarries
    refine ⟨hwanted, hcarries msg (by simp), ?_⟩
    intro other hother
    rw [hrest, List.mem_append] at hother
    rcases hother with hother | hother
    · exact hcarries other (by simp [hother])
    · exact hcarries other (by simp [hother])
  unfold taken at htaken
  split at htaken
  · have hwanted : (0 : Int) < concrete.fp.packMove := by
      rw [h.holds.packMove]
      exact_mod_cast h.wanted
    rw [msgrcv_pos _ _ hwanted] at htaken
    simp only [Option.map_eq_some_iff, Prod.exists, Prod.mk.injEq] at htaken
    obtain ⟨_, _, hfirst, rfl, rfl, rfl⟩ := htaken
    obtain ⟨hmtype, hmsg, hrest⟩ := split_queue hfirst
    refine ⟨?_, hmsg, hrest⟩
    rw [← hmsg.1]
    exact (of_decide_eq_true hmtype).symm
  · simp only [msgrcv, if_true, Option.map_eq_some_iff, Prod.exists, Prod.mk.injEq] at htaken
    obtain ⟨_, _, hfirst, rfl, rfl, rfl⟩ := htaken
    obtain ⟨-, hmsg, hrest⟩ := split_queue hfirst
    exact ⟨hmsg.1, hmsg, hrest⟩
  · contradiction

/-- All names fit `save_path`. -/
def Fits (info : Info) (files : List SentFile) : Prop :=
  ∀ file ∈ files, (savePathOf info file.path).length < savePathSize

/-- `CreateDir`, `fopen` and `fwrite` do what they are asked for. -/
def Smooth (action : Sudp.Action) : Prop :=
  ∀ io, action = .poll io ∨ action = .wait io → io = .ok

theorem packets_append {msg : Msg} (h : Related host files concrete abstract)
    (carries : Carries host.info.order files msg) :
    (if startsFile (FileProcess.receive concrete.fp msg.origin.number msg.mtext) then [msg.origin]
      else concrete.packets ++ [msg.origin]) = append abstract.saved msg.origin := by
  have hiff := startsFile_iff h.holds carries.2
  rw [h.packets, append]
  by_cases hstart : abstract.saved = [] ∨ msg.origin.number = 1
  · rw [if_pos hstart, if_pos (hiff.mpr hstart)]
  · rw [if_neg hstart, if_neg (mt hiff.mp hstart)]

/-- What `File_Process` makes of a message is what the receiver of origins makes
of its origin. -/
theorem takeMessage_related {msg : Msg} {rest : List Msg} (io : FileIo)
    (h : Related host files concrete abstract) (carries : Carries host.info.order files msg)
    (hrest : ∀ other ∈ rest, Carries host.info.order files other)
    (same : SameName files abstract.saved msg.origin) :
    let next := takeMessage host io concrete msg.origin.number msg rest
    (next.stopped ≠ none ∧ next.jobs = concrete.jobs ∧ ¬(io = .ok ∧ Fits host.info files)) ∨
      Related host files next
        (Reassembly.take (count files) abstract msg.origin (rest.map Msg.origin)) := by
  intro next
  obtain ⟨written, hwritten, hresult, hok⟩ := iterate_holds h.holds carries.2 same io
  have hpackets := packets_append h carries
  have hne := Reassembly.append_ne_nil abstract.saved msg.origin
  obtain ⟨path, hpath, hcheck⟩ := checkSize_holds hwritten hne
  cases hiterate : iterate host.info io concrete.fp msg.origin.number msg.mtext with
  | error stop =>
    left
    refine ⟨by simp [next, takeMessage, hiterate], by simp [next, takeMessage, hiterate], ?_⟩
    rintro ⟨rfl, fits⟩
    rw [hok rfl fits] at hiterate
    cases hiterate
  | ok result =>
    right
    have hfound := hresult result hiterate
    rw [hcheck] at hfound
    simp only [next, takeMessage, hiterate, hpackets]
    unfold Reassembly.take
    dsimp only
    by_cases hcomplete : count files (opener (append abstract.saved msg.origin)) =
        (append abstract.saved msg.origin).length
    · rw [if_pos hcomplete] at hfound
      rw [if_pos hcomplete]
      subst hfound
      refine { h with
        queue := rfl, queueCarries := hrest, waiting := by simp, holds := holds_again _ _ _
        packets := by simp [again], wanted := le_refl 1, jobs := ?_ }
      simp only [Option.map_some, Option.toList_some]
      exact h.jobs.append ⟨hpath, rfl⟩
    rw [if_neg hcomplete] at hfound
    rw [if_neg hcomplete]
    by_cases hlast : count files (opener (append abstract.saved msg.origin)) = msg.origin.number
    · rw [if_pos hlast] at hfound
      rw [if_pos hlast]
      subst hfound
      exact { h with
        queue := rfl, queueCarries := hrest, waiting := by simp, holds := holds_again _ _ _
        packets := by simp [again], wanted := le_refl 1, jobs := by simpa using h.jobs }
    · rw [if_neg hlast] at hfound
      rw [if_neg hlast]
      subst hfound
      have hsaved : written.packSaved ≠ 0 := by
        rw [hwritten.packSaved]
        simpa using hne
      exact { h with
        queue := rfl, queueCarries := hrest, waiting := by simp, holds := hwritten
        packets := by simp [hsaved], wanted := Nat.le_add_left 1 _
        jobs := by simpa using h.jobs }

/-- The packet that a step appends has a name of the length of the one that
opened the file. -/
def KeepsName (files : List SentFile) (state : Reassembly.State) (action : Reassembly.Action) :
    Prop :=
  ∀ packet rest, Reassembly.taken state action = some (packet, rest) →
    SameName files state.saved packet

/-- A step ends the process, or is a step on origins. -/
theorem step_related (h : Related host files concrete abstract)
    (keeps : KeepsName files abstract (abstraction action))
    (hstep : Sudp.step host concrete action = some next) :
    (next.stopped ≠ none ∧ next.jobs = concrete.jobs ∧ ¬(Smooth action ∧ Fits host.info files)) ∨
      ∃ after, Reassembly.step (count files) abstract (abstraction action) = some after ∧
        Related host files next after := by
  have hrunning : concrete.stopped.isSome = false := by simp [h.running]
  -- the two calls of msgrcv end in the same work
  have takes {io : FileIo} {move : Int} {msg : Msg} {rest : List Msg}
      (hio : action = .poll io ∨ action = .wait io)
      (htaken : taken concrete action = some (move, msg, rest)) :
      Reassembly.taken abstract (abstraction action) = some (msg.origin, rest.map Msg.origin) ∧
      ((takeMessage host io concrete move msg rest).stopped ≠ none ∧
        (takeMessage host io concrete move msg rest).jobs = concrete.jobs ∧
          ¬(Smooth action ∧ Fits host.info files) ∨
        Related host files (takeMessage host io concrete move msg rest)
          (Reassembly.take (count files) abstract msg.origin (rest.map Msg.origin))) := by
    have habstract := taken_related h action
    rw [htaken, Option.map_some] at habstract
    obtain ⟨rfl, carries, hrest⟩ := taken_carries h htaken
    refine ⟨habstract, ?_⟩
    rcases takeMessage_related io h carries hrest (keeps _ _ habstract) with
      ⟨hstopped, hjobs, hfails⟩ | hrelated
    · exact Or.inl ⟨hstopped, hjobs, fun smooth => hfails ⟨smooth.1 io hio, smooth.2⟩⟩
    · exact Or.inr hrelated
  cases action with
  | recvfrom =>
    simp only [Sudp.step, hrunning, Bool.false_eq_true, if_false] at hstep
    split at hstep
    · rename_i sent rest hincoming hheld
      have hgenuine := h.genuine
      rw [hincoming] at hgenuine
      obtain ⟨after, hreceive⟩ := receive_genuine concrete.loop (hgenuine sent (by simp))
      rw [hreceive] at hstep
      cases hstep
      refine Or.inr ⟨{ abstract with incoming := rest.map Datagram.origin, held := some sent.origin },
        ?_, ?_⟩
      · simp [Reassembly.step, abstraction, h.incoming, h.held, hincoming, hheld]
      · exact { h with
          incoming := rfl, genuine := fun other hother => hgenuine other (by simp [hother])
          held := rfl, heldCarries := by simpa using ⟨rfl, hgenuine sent (by simp)⟩ }
    · contradiction
  | msgsnd =>
    simp only [Sudp.step, hrunning, Bool.false_eq_true, if_false] at hstep
    split at hstep
    · contradiction
    rename_i msg hheld
    have hcarries := h.heldCarries msg (by simp [hheld])
    have hpositive : ¬msg.mtype < 1 := by
      have := hcarries.2.numbered
      rw [hcarries.1]
      omega
    rw [if_neg hpositive] at hstep
    split at hstep
    · cases hstep
      refine Or.inr ⟨{ abstract with held := none, queue := abstract.queue ++ [msg.origin] }, ?_, ?_⟩
      · simp [Reassembly.step, abstraction, h.held, hheld]
      · refine { h with
          held := rfl, heldCarries := by simp, queue := by simp [h.queue], queueCarries := ?_ }
        intro other hother
        rcases List.mem_append.mp hother with hother | hother
        · exact h.queueCarries other hother
        · rw [List.mem_singleton.mp hother]
          exact hcarries
    · contradiction
  | poll io =>
    simp only [Sudp.step, hrunning, Bool.false_eq_true, if_false] at hstep
    split at hstep
    · contradiction
    rename_i hphase
    have hwaiting : abstract.waiting = false := by
      rw [← Bool.not_eq_true, h.waiting, hphase]
      simp
    split at hstep
    · rename_i move msg rest htaken
      cases hstep
      obtain ⟨habstract, hstops | hrelated⟩ := takes (Or.inl rfl) htaken
      · exact Or.inl hstops
      · refine Or.inr ⟨_, ?_, hrelated⟩
        rw [abstraction] at habstract
        simp [Reassembly.step, abstraction, hwaiting, habstract]
    · rename_i htaken
      cases hstep
      have habstract := taken_related h (.poll io)
      rw [htaken, Option.map_none, abstraction] at habstract
      refine Or.inr ⟨{ abstract with waiting := true }, ?_, ?_⟩
      · simp [Reassembly.step, abstraction, hwaiting, habstract]
      · exact { h with waiting := by simp }
  | wait io =>
    simp only [Sudp.step, hrunning, Bool.false_eq_true, if_false] at hstep
    split at hstep
    · rename_i move msg rest htaken
      cases hstep
      obtain ⟨habstract, hstops | hrelated⟩ := takes (Or.inr rfl) htaken
      · exact Or.inl hstops
      · refine Or.inr ⟨_, ?_, hrelated⟩
        rw [abstraction] at habstract
        simp [Reassembly.step, abstraction, habstract]
    · contradiction

/-- The action on bytes, with no failing call. -/
def perform (action : Reassembly.Action) : Sudp.Action :=
  match action with
  | .recvfrom => .recvfrom
  | .msgsnd => .msgsnd
  | .poll => .poll .ok
  | .wait => .wait .ok

@[simp] theorem abstraction_perform (action : Reassembly.Action) :
    abstraction (perform action) = action := by
  cases action <;> rfl

theorem smooth_perform (action : Reassembly.Action) : Smooth (perform action) := by
  cases action <;> simp [Smooth, perform]

theorem step_perform (h : Related host files concrete abstract) (fits : Fits host.info files)
    {action : Reassembly.Action} (keeps : KeepsName files abstract action)
    (hstep : Sudp.step host concrete (perform action) = some next) :
    ∃ after, Reassembly.step (count files) abstract action = some after ∧
      Related host files next after := by
  rcases step_related h (by simpa using keeps) hstep with ⟨-, -, hfails⟩ | hmatch
  · exact absurd ⟨smooth_perform action, fits⟩ hfails
  · simpa using hmatch

theorem pending_of_stuck (h : Related host files concrete abstract)
    (room : ∀ msg, host.room [] msg = true)
    (stuck : ∀ action, Sudp.step host concrete (perform action) = none) :
    pending abstract = [] := by
  have hrunning : concrete.stopped.isSome = false := by simp [h.running]
  have hphase : concrete.phase = .waiting := by
    cases hphase : concrete.phase with
    | waiting => rfl
    | polling =>
      have hpoll := stuck .poll
      simp only [Sudp.step, perform, hrunning, Bool.false_eq_true, if_false, hphase] at hpoll
      cases htaken : taken concrete (.poll .ok) <;> simp [htaken] at hpoll
  have hqueue : concrete.queue = [] := by
    cases hqueue : concrete.queue with
    | nil => rfl
    | cons msg rest =>
      have hwait := stuck .wait
      simp [Sudp.step, perform, hrunning, taken, hphase, hqueue] at hwait
  have hheld : concrete.held = none := by
    cases hheld : concrete.held with
    | none => rfl
    | some msg =>
      have hmsgsnd := stuck .msgsnd
      simp only [Sudp.step, perform, hrunning, Bool.false_eq_true, if_false, hheld, hqueue,
        room] at hmsgsnd
      by_cases hmtype : msg.mtype < 1 <;> simp [hmtype] at hmsgsnd
  have hincoming : concrete.incoming = [] := by
    cases hincoming : concrete.incoming with
    | nil => rfl
    | cons sent rest =>
      have hrecvfrom := stuck .recvfrom
      simp only [Sudp.step, perform, hrunning, Bool.false_eq_true, if_false, hheld,
        hincoming] at hrecvfrom
      cases hreceive : Sudp.receive host.info.order concrete.loop sent <;>
        simp [hreceive] at hrecvfrom
  simp [pending, h.queue, h.held, h.incoming, hqueue, hheld, hincoming]

end

/-! ### Runs -/

section
variable {host : Host} {files : List SentFile} {arrivals : List Datagram} {final : Sudp.State}
  {actions : List Sudp.Action}
  {condition : Sudp.State → Sudp.Action → Prop}

/-- What a run keeps of the receiver of origins: its invariant, and that the
jobs of the process are those of the finished packets. -/
theorem exec_refines (invariant : Reassembly.State → Prop)
    (genuine : ∀ sent ∈ arrivals, Genuine host.info.order files sent.origin sent.bytes)
    (start : invariant (Reassembly.start (arrivals.map Datagram.origin)))
    (keeps : ∀ concrete abstract action, Related host files concrete abstract →
      invariant abstract → condition concrete action →
      KeepsName files abstract (abstraction action))
    (preserved : ∀ concrete abstract action after, Related host files concrete abstract →
      invariant abstract → condition concrete action →
      Reassembly.step (count files) abstract (abstraction action) = some after → invariant after)
    (meets : Meets (Sudp.step host) condition (Sudp.start arrivals) actions)
    (run : exec (Sudp.step host) (Sudp.start arrivals) actions = some final) :
    ∃ abstract, invariant abstract ∧
      Delivers host.info files final.jobs abstract.finished ∧
      (final.stopped = none → Related host files final abstract) := by
  let good (concrete : Sudp.State) : Prop := ∃ abstract, invariant abstract ∧
    Delivers host.info files concrete.jobs abstract.finished ∧
    (concrete.stopped = none → Related host files concrete abstract)
  have hstart : good (Sudp.start arrivals) :=
    ⟨_, start, ⟨rfl, by simp [Sudp.start]⟩, fun _ => related_start arrivals genuine⟩
  have hstep : ∀ concrete action next, good concrete → condition concrete action →
      Sudp.step host concrete action = some next → good next := by
    rintro concrete action next ⟨abstract, hinvariant, hjobs, hrelated⟩ hcondition hstep
    have hrunning : concrete.stopped = none := by
      by_contra hstopped
      unfold Sudp.step at hstep
      rw [if_pos (Option.isSome_iff_ne_none.mpr hstopped)] at hstep
      contradiction
    have related := hrelated hrunning
    rcases step_related related (keeps _ _ _ related hinvariant hcondition) hstep with
      ⟨hstopped, hsame, -⟩ | ⟨after, hafter, hnext⟩
    · refine ⟨abstract, hinvariant, ?_, fun hnone => absurd hnone hstopped⟩
      rw [hsame]
      exact hjobs
    · exact ⟨after, preserved _ _ _ _ related hinvariant hcondition hafter, hnext.jobs,
        fun _ => hnext⟩
  exact exec_invariant hstep hstart meets run

end

/-! ### Runs without a failing call -/

def performing (host : Host) (state : Sudp.State) (action : Reassembly.Action) : Option Sudp.State :=
  Sudp.step host state (perform action)

section
variable {host : Host} {files : List SentFile} {arrivals : List Datagram} {final : Sudp.State}
  {actions : List Reassembly.Action}
  {condition : Sudp.State → Reassembly.Action → Prop}

theorem exec_performing (invariant : Reassembly.State → Prop)
    (genuine : ∀ sent ∈ arrivals, Genuine host.info.order files sent.origin sent.bytes)
    (fits : Fits host.info files)
    (start : invariant (Reassembly.start (arrivals.map Datagram.origin)))
    (keeps : ∀ concrete abstract action, Related host files concrete abstract →
      invariant abstract → condition concrete action → KeepsName files abstract action)
    (preserved : ∀ concrete abstract action after, Related host files concrete abstract →
      invariant abstract → condition concrete action →
      Reassembly.step (count files) abstract action = some after → invariant after)
    (meets : Meets (performing host) condition (Sudp.start arrivals) actions)
    (run : exec (performing host) (Sudp.start arrivals) actions = some final) :
    ∃ abstract, invariant abstract ∧ Related host files final abstract := by
  let good (concrete : Sudp.State) : Prop :=
    ∃ abstract, invariant abstract ∧ Related host files concrete abstract
  have hstart : good (Sudp.start arrivals) := ⟨_, start, related_start arrivals genuine⟩
  have hstep : ∀ concrete action next, good concrete → condition concrete action →
      performing host concrete action = some next → good next := by
    rintro concrete action next ⟨abstract, hinvariant, related⟩ hcondition hstep
    obtain ⟨after, hafter, hnext⟩ :=
      step_perform related fits (keeps _ _ _ related hinvariant hcondition) hstep
    exact ⟨after, preserved _ _ _ _ related hinvariant hcondition hafter, hnext⟩
  exact exec_invariant hstep hstart meets run

theorem exec_performing_length (run : exec (performing host) (Sudp.start arrivals) actions = some final) :
    actions.length ≤ Sudp.work (Sudp.start arrivals) := by
  have hlength := exec_length_le' Sudp.work (fun _ => True)
    (fun _ _ _ _ hstep => ⟨trivial, Sudp.step_decreases hstep⟩) trivial run
  omega

end

end UdpFileProxy.Refinement
