import UdpFileProxy.Sudp
import UdpFileProxy.Lib.Fields
import UdpFileProxy.Lib.Run

/-! Datagrams of any bytes and any length. What `File_Process` reads of a message is told by
the length fields of the message and, from the second packet of a file on, by the name length
of the first. -/
namespace UdpFileProxy.Hostile
open Lib.Memory Lib.Fields Lib.Run Lib.TypedFifo Protocol FileProcess
open Sudp (Host Msg taken)

/-- The integer that `memcpy` finds at this offset. -/
def field (order : Endian) (bytes : Bytes) (offset size : Nat) : Int :=
  loadInt order ((bytes.drop offset).take size)

/-- What one iteration reads of the message, as offsets and lengths: `file_size`,
`file_name_length` and the name of a packet that starts a file, then `pack_length` and `pack`. -/
def reads (order : Endian) (state : FileProcess.State) : List (Int × Int) :=
  let starts := startsFile state
  let length := if starts then field order state.mtext.bytes 18 4 else state.fileNameLength
  let pack := if starts then 22 + length + 4 else state.pack
  (if starts then [(10, 8), (18, 4), (22, length)] else []) ++
    [(22 + length, 4), (pack, field order state.mtext.bytes (22 + length).toNat 4)]

def Inside (size : Nat) (range : Int × Int) : Prop :=
  0 ≤ range.1 ∧ 0 ≤ range.2 ∧ range.1 + range.2 ≤ size

def fileName (order : Endian) (bytes : Bytes) : Bytes :=
  (bytes.drop 22).take (field order bytes 18 4).toNat

/-- The directories that there are while the process is in a state. Others make and remove them,
and a state in which a message is taken does not come back. -/
abbrev Directories := Sudp.State → Bytes → Bool

/-- Whether `fopen(path, "w+")` opens the path when the file system works and the directory above
it is there: the path names no directory, and its last component has at most `NAME_MAX` bytes. -/
def creatable (isDirectory : Bytes → Bool) (path : Bytes) : Bool :=
  let name := path.rtakeWhile (· ≠ 47)
  name ≠ [] ∧ name ≠ [46] ∧ name ≠ [46, 46] ∧ name.length ≤ 255 ∧ isDirectory path = false

/-- The message as it is in the buffer when `File_Process` looks at it. -/
def received (state : Sudp.State) (found : Int × Msg × List Msg) : FileProcess.State :=
  receive state.fp found.1 found.2.1.mtext

/-- What `fopen` and `fwrite` return for a message when the file system works. -/
structure Working (info : Info) (isDirectory : Bytes → Bool) (io : FileIo)
    (state : FileProcess.State) : Prop where
  opens : startsFile state →
    io.opens = creatable isDirectory (savePathOf info (fileName info.order state.mtext.bytes))
  writes : io.writes = true

def Works (host : Host) (directories : Directories) (state : Sudp.State) (action : Sudp.Action) :
    Prop :=
  match action with
  | .poll io | .wait io => ∀ found ∈ taken state action,
      Working host.info (directories state) io (received state found)
  | _ => True

/-- The step reads nothing outside the message that was received, writes nothing outside its
buffers and does not end the process. -/
def Safe (host : Host) (state : Sudp.State) (action : Sudp.Action) : Prop :=
  (∀ found ∈ taken state action, ∀ range ∈ reads host.info.order (received state found),
    Inside found.2.1.mtext.length range) ∧
  ∀ next ∈ Sudp.step host state action, next.stopped = none

/-- The chunk lies inside the message when the name in front of it has this length. -/
def Carries (order : Endian) (text : Bytes) (length : Int) : Prop :=
  26 + length ≤ text.length ∧ 0 ≤ field order text (22 + length).toNat 4 ∧
    26 + length + field order text (22 + length).toNat 4 ≤ text.length

/-- The name can be opened below the directory of the application. -/
def Opens (info : Info) (isDirectory : Bytes → Bool) (text : Bytes) : Prop :=
  basename (cstr (fileName info.order text)) ∉ [[47], [46], [46, 46]] ∧
    (basename (cstr (fileName info.order text))).length ≤ 255 ∧
    isDirectory (savePathOf info (fileName info.order text)) = false ∧
    (savePathOf info (fileName info.order text)).length < savePathSize

/-- What the bytes of a datagram must be like. Which of the two applies to a message is decided by
what came before it. -/
def Fits (info : Info) (isDirectory : Bytes → Bool) (state : FileProcess.State) (text : Bytes) :
    Prop :=
  if startsFile state then
    0 ≤ field info.order text 18 4 ∧ Carries info.order text (field info.order text 18 4) ∧
      Opens info isDirectory text
  else Carries info.order text state.fileNameLength

def Allowed (host : Host) (directories : Directories) (state : Sudp.State) (action : Sudp.Action) :
    Prop :=
  match action with
  | .recvfrom => state.held = none → ∀ datagram ∈ state.incoming.head?,
      datagram.bytes.length ≤ msgbufText
  | .msgsnd => True
  | .poll _ | .wait _ => ∀ found ∈ taken state action,
      Fits host.info (directories state) (received state found) found.2.1.mtext

instance (size : Nat) (range : Int × Int) : Decidable (Inside size range) :=
  inferInstanceAs (Decidable (_ ∧ _ ∧ _))

instance (order : Endian) (text : Bytes) (length : Int) : Decidable (Carries order text length) :=
  inferInstanceAs (Decidable (_ ∧ _ ∧ _))

instance (info : Info) (isDirectory : Bytes → Bool) (text : Bytes) :
    Decidable (Opens info isDirectory text) :=
  inferInstanceAs (Decidable (_ ∧ _ ∧ _ ∧ _))

instance (info : Info) (isDirectory : Bytes → Bool) (state : FileProcess.State) (text : Bytes) :
    Decidable (Fits info isDirectory state text) :=
  inferInstanceAs (Decidable (if startsFile state then
    0 ≤ field info.order text 18 4 ∧ Carries info.order text (field info.order text 18 4) ∧
      Opens info isDirectory text
    else Carries info.order text state.fileNameLength))

instance (host : Host) (state : Sudp.State) (action : Sudp.Action) : Decidable (Safe host state action) :=
  inferInstanceAs (Decidable ((∀ _ ∈ _, ∀ _ ∈ _, _) ∧ ∀ _ ∈ _, _))

instance (info : Info) (isDirectory : Bytes → Bool) (io : FileIo) (state : FileProcess.State) :
    Decidable (Working info isDirectory io state) :=
  decidable_of_iff ((startsFile state →
    io.opens = creatable isDirectory (savePathOf info (fileName info.order state.mtext.bytes))) ∧
      io.writes = true)
    ⟨fun h => ⟨h.1, h.2⟩, fun h => ⟨h.opens, h.writes⟩⟩

instance (host : Host) (directories : Directories) (state : Sudp.State) :
    DecidablePred (Works host directories state)
  | .recvfrom | .msgsnd => inferInstanceAs (Decidable True)
  | .poll _ | .wait _ => inferInstanceAs (Decidable (∀ _ ∈ _, _))

instance (host : Host) (directories : Directories) (state : Sudp.State) :
    DecidablePred (Allowed host directories state)
  | .recvfrom => inferInstanceAs (Decidable (_ → ∀ _ ∈ _, _))
  | .msgsnd => inferInstanceAs (Decidable True)
  | .poll _ | .wait _ => inferInstanceAs (Decidable (∀ _ ∈ _, _))

section
variable {order : Endian} {info : Info} {io : FileIo} {state next : FileProcess.State} {text : Bytes}
  {move : Int}

theorem field_fill {size offset len : Nat} (buffer : Buffer size) (hrange : offset + len ≤ text.length)
    (hsize : text.length ≤ size) :
    field order (buffer.fill text).bytes offset len = field order text offset len := by
  simp [field, hrange, hsize]

theorem fileName_fill {size : Nat} (buffer : Buffer size)
    (hlength : 0 ≤ field order text 18 4) (hcarries : Carries order text (field order text 18 4))
    (hsize : text.length ≤ size) :
    fileName order (buffer.fill text).bytes = fileName order text := by
  obtain ⟨hfront, -⟩ := hcarries
  have hfield : field order (buffer.fill text).bytes 18 4 = field order text 18 4 :=
    field_fill buffer (by omega) hsize
  rw [fileName, fileName, hfield, buffer.take_drop_fill (by omega) hsize]

theorem inside_start (hsize : text.length ≤ maxmsg) (hstart : startsFile (receive state move text) = true) :
    (∀ range ∈ reads order (receive state move text), Inside text.length range) ↔
      0 ≤ field order text 18 4 ∧ Carries order text (field order text 18 4) := by
  have hbytes : (receive state move text).mtext = state.mtext.fill text := rfl
  simp only [reads, hstart, if_true, hbytes, Inside, List.cons_append, List.nil_append, List.mem_cons,
    List.not_mem_nil, or_false, forall_eq_or_imp, forall_eq, Carries]
  constructor
  · rintro ⟨-, hheader, hname, hfront, hchunk⟩
    have hlength : field order (state.mtext.fill text).bytes 18 4 = field order text 18 4 :=
      field_fill state.mtext (by omega) hsize
    rw [hlength] at hname hfront hchunk
    have hpack : field order (state.mtext.fill text).bytes (22 + field order text 18 4).toNat 4 =
        field order text (22 + field order text 18 4).toNat 4 :=
      field_fill state.mtext (by omega) hsize
    rw [hpack] at hchunk
    omega
  · rintro ⟨hnonneg, hfront, hpositive, hchunk⟩
    have hlength : field order (state.mtext.fill text).bytes 18 4 = field order text 18 4 :=
      field_fill state.mtext (by omega) hsize
    have hpack : field order (state.mtext.fill text).bytes (22 + field order text 18 4).toNat 4 =
        field order text (22 + field order text 18 4).toNat 4 :=
      field_fill state.mtext (by omega) hsize
    rw [hlength, hpack]
    omega

/-- What `File_Process` keeps of the first packet of the file that is open. -/
structure Opened (state : FileProcess.State) : Prop where
  length : 0 ≤ state.fileNameLength
  pack : state.pack = 22 + state.fileNameLength.toNat + 4
  fp : ∃ written, state.fp = some written

theorem inside_append (hsize : text.length ≤ maxmsg) (hopened : Opened state)
    (hstart : startsFile (receive state move text) = false) :
    (∀ range ∈ reads order (receive state move text), Inside text.length range) ↔
      Carries order text state.fileNameLength := by
  have hbytes : (receive state move text).mtext = state.mtext.fill text := rfl
  have hlength : (receive state move text).fileNameLength = state.fileNameLength := rfl
  have hpack : (receive state move text).pack = state.pack := rfl
  have hnonneg := hopened.length
  have hsame (hfront : 26 + state.fileNameLength ≤ text.length) :
      field order (state.mtext.fill text).bytes (22 + state.fileNameLength).toNat 4 =
        field order text (22 + state.fileNameLength).toNat 4 :=
    field_fill state.mtext (by omega) hsize
  simp only [reads, hstart, Bool.false_eq_true, if_false, hbytes, hlength, hpack, Inside, List.nil_append,
    List.mem_cons, List.not_mem_nil, or_false, forall_eq_or_imp, forall_eq, Carries, hopened.pack]
  constructor
  · rintro ⟨hfront, hchunk⟩
    rw [hsame (by omega)] at hchunk
    omega
  · rintro ⟨hfront, hpositive, hchunk⟩
    rw [hsame hfront]
    omega

/-- Between two files nothing is kept. -/
def Remembers (state : FileProcess.State) : Prop := state.packSaved ≠ 0 → Opened state

theorem Opened.checkSize (h : Opened state) (content : Bytes) :
    Remembers (FileProcess.checkSize state content).1 := by
  unfold FileProcess.checkSize
  split
  · exact fun hsaved => absurd rfl hsaved
  split
  · exact fun hsaved => absurd rfl hsaved
  · exact fun _ => h

theorem writePack_inside (hsize : text.length ≤ maxmsg) (hwrites : io.writes = true)
    {old : Buffer maxmsg} (hmtext : state.mtext = old.fill text) (hopened : Opened state)
    (hcarries : Carries info.order text state.fileNameLength) :
    ∃ written content, Opened written ∧ writePack info io state = .ok (checkSize written content) := by
  obtain ⟨hnonneg, hpack, before, hfp⟩ := hopened
  obtain ⟨hfront, hpositive, hchunk⟩ := hcarries
  have hoffset : (22 + state.fileNameLength).toNat = 22 + state.fileNameLength.toNat := by omega
  rw [hoffset] at hpositive hchunk
  have hfield : state.mtext.read (22 + state.fileNameLength.toNat) 4 =
      some ((text.drop (22 + state.fileNameLength.toNat)).take 4) := by
    rw [hmtext]
    exact old.read_fill_of_le (by omega) hsize
  let packLength := field info.order text (22 + state.fileNameLength.toNat) 4
  let chunk := (text.drop state.pack).take packLength.toNat
  have hread : state.mtext.read state.pack packLength.toNat = some chunk := by
    rw [hmtext]
    exact old.read_fill_of_le (by omega) hsize
  refine ⟨{ state with fp := some (before ++ chunk), packSaved := state.packSaved + 1 },
    before ++ chunk, ⟨hnonneg, hpack, _, rfl⟩, ?_⟩
  have hlength : loadInt info.order ((text.drop (22 + state.fileNameLength.toNat)).take 4) = packLength :=
    rfl
  simp only [writePack, hfield, inBounds, bind, Except.bind, pure, Except.pure, throw, throwThe,
    MonadExceptOf.throw, hlength, hread, hfp, hwrites, Bool.true_eq_false, false_and, if_false]
  rw [if_neg (by omega)]

theorem readHeader_inside (state : FileProcess.State) (move : Int) (hsize : text.length ≤ maxmsg)
    (hlength : 0 ≤ field info.order text 18 4)
    (hname : 22 + field info.order text 18 4 ≤ text.length) :
    ∃ named, readHeader info (receive state move text) =
        (if savePathSize ≤ (savePrefix info).length then .error .undefined
        else .ok (named, fileName info.order text)) ∧
      named.mtext = state.mtext.fill text ∧ named.fileNameLength = field info.order text 18 4 ∧
      named.savePath = savePrefix info := by
  have hbytes : (receive state move text).mtext = state.mtext.fill text := rfl
  have hfileSize : (state.mtext.fill text).read 10 8 = some ((text.drop 10).take 8) :=
    state.mtext.read_fill_of_le (by omega) hsize
  have hnameLength : (state.mtext.fill text).read 18 4 = some ((text.drop 18).take 4) :=
    state.mtext.read_fill_of_le (by omega) hsize
  have hfileName : (state.mtext.fill text).read 22 (field info.order text 18 4).toNat =
      some (fileName info.order text) :=
    state.mtext.read_fill_of_le (by omega) hsize
  have hload : loadInt info.order ((text.drop 18).take 4) = field info.order text 18 4 := rfl
  unfold readHeader
  simp only [hbytes, hfileSize, hnameLength, inBounds, bind, Except.bind, pure, Except.pure, throw,
    throwThe, MonadExceptOf.throw, hload, hfileName]
  rw [if_neg (by omega)]
  exact ⟨_, rfl, rfl, rfl, rfl⟩

theorem length_savePathOf (info : Info) (name : Bytes) :
    (savePathOf info name).length = (savePrefix info).length + (basename (cstr name)).length :=
  List.length_append

theorem iterate_start_long (hsize : text.length ≤ maxmsg)
    (hstart : startsFile (receive state move text) = true) (hlength : 0 ≤ field info.order text 18 4)
    (hname : 22 + field info.order text 18 4 ≤ text.length)
    (hlong : savePathSize ≤ (savePathOf info (fileName info.order text)).length) :
    ∃ stop, iterate info io state move text = .error stop := by
  obtain ⟨named, hnamed, -, -, hsavePath⟩ := readHeader_inside state move hsize hlength hname
  rw [iterate, if_pos hstart]
  by_cases hprefix : savePathSize ≤ (savePrefix info).length
  · refine ⟨.undefined, ?_⟩
    simp only [hnamed, if_pos hprefix, bind, Except.bind]
  · have hpath : savePathSize ≤ (named.savePath ++ basename (cstr (fileName info.order text))).length := by
      rw [hsavePath]
      exact hlong
    refine ⟨.undefined, ?_⟩
    simp only [hnamed, if_neg hprefix, openFile, bind, Except.bind, if_pos hpath, throw, throwThe,
      MonadExceptOf.throw]

theorem iterate_start_inside (hsize : text.length ≤ maxmsg) (hwrites : io.writes = true)
    (hstart : startsFile (receive state move text) = true) (hlength : 0 ≤ field info.order text 18 4)
    (hcarries : Carries info.order text (field info.order text 18 4))
    (hpath : (savePathOf info (fileName info.order text)).length < savePathSize) :
    ∃ written content, Opened written ∧ iterate info io state move text =
      if io.opens = false then .error .exited else .ok (checkSize written content) := by
  have hprefix : ¬savePathSize ≤ (savePrefix info).length := by
    rw [length_savePathOf] at hpath
    omega
  have hfront := hcarries.1
  obtain ⟨named, hnamed, hmtext, hnameLength, hsavePath⟩ :=
    readHeader_inside state move hsize hlength (by omega)
  let opened : FileProcess.State := { named with
    savePath := savePathOf info (fileName info.order text)
    pack := 22 + named.fileNameLength.toNat + 4
    fp := some [] }
  rw [← hnameLength] at hlength hcarries
  have hopened : Opened opened := ⟨hlength, rfl, [], rfl⟩
  obtain ⟨written, content, hwritten, hresult⟩ :=
    writePack_inside hsize hwrites (show opened.mtext = state.mtext.fill text from hmtext) hopened hcarries
  refine ⟨written, content, hwritten, ?_⟩
  have hsame : named.savePath ++ basename (cstr (fileName info.order text)) =
      savePathOf info (fileName info.order text) := by rw [hsavePath, savePathOf]
  rw [iterate, if_pos hstart]
  simp only [hnamed, if_neg hprefix, openFile, bind, Except.bind, hsame, throw, throwThe,
    MonadExceptOf.throw, pure, Except.pure]
  rw [if_neg (by omega)]
  by_cases hopens : io.opens = false
  · simp only [if_pos hopens]
  · simp only [if_neg hopens]
    exact hresult

theorem iterate_append_inside (hsize : text.length ≤ maxmsg) (hwrites : io.writes = true)
    (hopened : Opened state) (hstart : startsFile (receive state move text) = false)
    (hcarries : Carries info.order text state.fileNameLength) :
    ∃ written content, Opened written ∧
      iterate info io state move text = .ok (checkSize written content) := by
  have hreceived : Opened (receive state move text) := ⟨hopened.length, hopened.pack, hopened.fp⟩
  obtain ⟨written, content, hwritten, hresult⟩ := writePack_inside hsize hwrites rfl hreceived hcarries
  refine ⟨written, content, hwritten, ?_⟩
  rw [iterate, if_neg (by simp [hstart])]
  exact hresult

theorem basename_cases (path : Bytes) :
    basename path = [47] ∨ basename path ≠ [] ∧ 47 ∉ basename path := by
  unfold basename
  split
  · exact .inr ⟨by simp, by decide⟩
  dsimp only
  split
  · exact .inl rfl
  rename_i htrimmed
  refine .inr ⟨?_, ?_⟩
  · rw [ne_eq, List.rtakeWhile_eq_nil_iff, not_forall]
    refine ⟨htrimmed, ?_⟩
    have hlast := List.rdropWhile_last_not (fun byte : UInt8 => decide (byte = 47)) path htrimmed
    simpa using hlast
  · intro hmem
    have hslash := List.mem_rtakeWhile_imp hmem
    simp at hslash

theorem rtakeWhile_component (front : Bytes) {component : Bytes} (hnot : 47 ∉ component) :
    (front ++ [47] ++ component).rtakeWhile (· ≠ 47) = component := by
  rw [List.rtakeWhile, List.reverse_append, List.reverse_append, List.reverse_singleton,
    List.singleton_append, takeWhile_separator (by simpa using hnot), List.reverse_reverse]

theorem creatable_savePathOf (info : Info) (isDirectory : Bytes → Bool) (name : Bytes) :
    creatable isDirectory (savePathOf info name) = true ↔
      basename (cstr name) ∉ [[47], [46], [46, 46]] ∧ (basename (cstr name)).length ≤ 255 ∧
        isDirectory (savePathOf info name) = false := by
  have hpath : savePathOf info name = (info.dir1 ++ [47] ++ info.appName) ++ [47] ++ basename (cstr name) :=
    rfl
  rcases basename_cases (cstr name) with hslash | ⟨hne, hnot⟩
  · simp [hpath, hslash, creatable]
  · have hlast := rtakeWhile_component (info.dir1 ++ [47] ++ info.appName) hnot
    have hcomponent : basename (cstr name) ≠ [47] := by
      intro hslash
      rw [hslash] at hnot
      contradiction
    rw [← hpath] at hlast
    simp only [creatable, hlast, hne, hcomponent, ne_eq, not_false_eq_true, true_and, Bool.decide_and,
      Bool.and_eq_true, decide_eq_true_eq, List.mem_cons, List.not_mem_nil, or_false, not_or]
    exact and_assoc.symm

end

section
variable {info : Info} {isDirectory : Bytes → Bool} {io : FileIo} {state : FileProcess.State}
  {text : Bytes} {move : Int}

theorem opened_of_startsFile (h : Remembers state) (hstart : startsFile (receive state move text) = false) :
    Opened state := by
  simp only [startsFile, Bool.decide_or, Bool.or_eq_false_iff, decide_eq_false_iff_not] at hstart
  exact h hstart.1

theorem inside_of_fits (h : Remembers state) (hsize : text.length ≤ maxmsg)
    (hfits : Fits info isDirectory (receive state move text) text) :
    ∀ range ∈ reads info.order (receive state move text), Inside text.length range := by
  unfold Fits at hfits
  split at hfits
  · rename_i hstart
    exact (inside_start hsize hstart).mpr ⟨hfits.1, hfits.2.1⟩
  · rename_i hstart
    have hstart : startsFile (receive state move text) = false := by simpa using hstart
    exact (inside_append hsize (opened_of_startsFile h hstart) hstart).mpr hfits

/-- On a file system that works, a packet that fits is written. -/
theorem iterate_of_fits (h : Remembers state) (hsize : text.length ≤ maxmsg)
    (working : Working info isDirectory io (receive state move text))
    (hfits : Fits info isDirectory (receive state move text) text) :
    ∃ written content, Opened written ∧
      iterate info io state move text = .ok (checkSize written content) := by
  unfold Fits at hfits
  split at hfits
  · rename_i hstart
    obtain ⟨hlength, hcarries, hname, hshort, hfree, hpath⟩ := hfits
    obtain ⟨written, content, hwritten, hresult⟩ :=
      iterate_start_inside hsize working.writes hstart hlength hcarries hpath
    have hbytes : fileName info.order (receive state move text).mtext.bytes = fileName info.order text :=
      fileName_fill state.mtext hlength hcarries hsize
    have hcreated : io.opens = true := by
      rw [working.opens hstart, hbytes]
      exact (creatable_savePathOf info isDirectory _).mpr ⟨hname, hshort, hfree⟩
    refine ⟨written, content, hwritten, ?_⟩
    rw [hresult, if_neg (by simp [hcreated])]
  · rename_i hstart
    have hstart : startsFile (receive state move text) = false := by simpa using hstart
    exact iterate_append_inside hsize working.writes (opened_of_startsFile h hstart) hstart hfits

theorem fits_of_iterate (h : Remembers state) (hsize : text.length ≤ maxmsg)
    (working : Working info isDirectory io (receive state move text))
    (hinside : ∀ range ∈ reads info.order (receive state move text), Inside text.length range)
    {result : FileProcess.State × Option Job} (hok : iterate info io state move text = .ok result) :
    Fits info isDirectory (receive state move text) text := by
  unfold Fits
  split
  · rename_i hstart
    obtain ⟨hlength, hcarries⟩ := (inside_start hsize hstart).mp hinside
    have hfront := hcarries.1
    have hpath : (savePathOf info (fileName info.order text)).length < savePathSize := by
      by_contra hlong
      obtain ⟨stop, herror⟩ := iterate_start_long hsize hstart hlength (by omega) (Nat.le_of_not_lt hlong)
      rw [herror] at hok
      contradiction
    obtain ⟨written, content, -, hresult⟩ :=
      iterate_start_inside hsize working.writes hstart hlength hcarries hpath
    have hbytes : fileName info.order (receive state move text).mtext.bytes = fileName info.order text :=
      fileName_fill state.mtext hlength hcarries hsize
    have hcreated : creatable isDirectory (savePathOf info (fileName info.order text)) = true := by
      rw [← hbytes, ← working.opens hstart]
      by_contra hfails
      rw [hresult, if_pos (by simpa using hfails)] at hok
      contradiction
    obtain ⟨hname, hshort, hfree⟩ := (creatable_savePathOf info isDirectory _).mp hcreated
    exact ⟨hlength, hcarries, hname, hshort, hfree, hpath⟩
  · rename_i hstart
    have hstart : startsFile (receive state move text) = false := by simpa using hstart
    exact (inside_append hsize (opened_of_startsFile h hstart) hstart).mp hinside

end

section
variable {host : Host} {state next : Sudp.State} {action : Sudp.Action} {io : FileIo}
  {found : Int × Msg × List Msg} {move : Int} {msg : Msg} {rest : List Msg}
  {isDirectory : Bytes → Bool} {directories : Directories}

/-- What holds as long as the process runs. -/
structure Intact (state : Sudp.State) : Prop where
  running : state.stopped = none
  remembers : Remembers state.fp
  held : ∀ msg ∈ state.held, msg.mtext.length ≤ maxmsg
  queue : ∀ msg ∈ state.queue, msg.mtext.length ≤ maxmsg

theorem intact_start (arrivals : List Sending.Datagram) : Intact (Sudp.start arrivals) where
  running := rfl
  remembers := fun hsaved => absurd rfl hsaved
  held := by simp [Sudp.start]
  queue := by simp [Sudp.start]

theorem Intact.taken (h : Intact state) (htaken : taken state action = some (move, msg, rest)) :
    msg.mtext.length ≤ maxmsg ∧ ∀ other ∈ rest, other.mtext.length ≤ maxmsg := by
  obtain ⟨older, newer, hqueue, rfl⟩ := Sudp.split_of_taken htaken
  have hall := h.queue
  rw [hqueue] at hall
  refine ⟨hall msg (by simp), fun other hother => hall other ?_⟩
  rw [List.mem_append, List.mem_cons]
  exact (List.mem_append.mp hother).imp_right .inr

theorem Intact.takeMessage_iff (h : Intact state) (htaken : Sudp.taken state action = some (move, msg, rest))
    (working : Working host.info isDirectory io (receive state.fp move msg.mtext)) :
    (∀ range ∈ reads host.info.order (receive state.fp move msg.mtext), Inside msg.mtext.length range) ∧
        (Sudp.takeMessage host io state move msg rest).stopped = none ↔
      Fits host.info isDirectory (receive state.fp move msg.mtext) msg.mtext := by
  have hsize := (h.taken htaken).1
  constructor
  · rintro ⟨hinside, hrunning⟩
    cases hok : iterate host.info io state.fp move msg.mtext with
    | error stop => simp [Sudp.takeMessage, hok] at hrunning
    | ok result => exact fits_of_iterate h.remembers hsize working hinside hok
  · intro hfits
    obtain ⟨written, content, -, hok⟩ := iterate_of_fits h.remembers hsize working hfits
    refine ⟨inside_of_fits h.remembers hsize hfits, ?_⟩
    simp only [Sudp.takeMessage, hok]
    exact h.running

theorem Intact.takeMessage (h : Intact state) (htaken : Sudp.taken state action = some (move, msg, rest))
    (working : Working host.info isDirectory io (receive state.fp move msg.mtext))
    (hfits : Fits host.info isDirectory (receive state.fp move msg.mtext) msg.mtext) :
    Intact (Sudp.takeMessage host io state move msg rest) := by
  obtain ⟨hsize, hrest⟩ := h.taken htaken
  obtain ⟨written, content, hwritten, hok⟩ := iterate_of_fits h.remembers hsize working hfits
  simp only [Sudp.takeMessage, hok]
  exact ⟨h.running, hwritten.checkSize content, h.held, hrest⟩

theorem receive_eq (order : Endian) (loop : Sudp.RecvLoop) (datagram : Sending.Datagram) :
    (∃ received, Sudp.receive order loop datagram = .ok received ∧
      received.2.mtext.length ≤ maxmsg ∧ datagram.bytes.length ≤ msgbufText) ∨
    (Sudp.receive order loop datagram = .error .undefined ∧ msgbufText < datagram.bytes.length) := by
  have hlength : (datagram.bytes.take maxdatasize).length = min maxdatasize datagram.bytes.length :=
    List.length_take
  by_cases hlong : msgbufText < (datagram.bytes.take maxdatasize).length
  · refine .inr ⟨?_, ?_⟩
    · rw [Sudp.receive, if_pos hlong]
    · omega
  · refine .inl ⟨_, if_neg hlong, ?_, ?_⟩
    · simp only [maxmsg, msgbufText] at hlong ⊢
      omega
    · simp only [maxdatasize, msgbufText] at hlong hlength ⊢
      omega

theorem step_taken (hrunning : state.stopped = none) (htaken : taken state action = some (move, msg, rest))
    (hio : action = .poll io ∨ action = .wait io) :
    Sudp.step host state action = some (Sudp.takeMessage host io state move msg rest) := by
  rcases hio with rfl | rfl
  · have hphase : state.phase = .polling := by
      cases hphase : state.phase with
      | polling => rfl
      | waiting =>
        simp [taken, hphase] at htaken
    simp [Sudp.step, hrunning, hphase, htaken]
  · simp [Sudp.step, hrunning, htaken]

theorem step_idle (htaken : taken state action = none) (hio : action = .poll io ∨ action = .wait io)
    (hstep : Sudp.step host state action = some next) : next = { state with phase := .waiting } := by
  unfold Sudp.step at hstep
  split at hstep
  · contradiction
  rcases hio with rfl | rfl
  · simp only [htaken] at hstep
    split at hstep
    · contradiction
    · cases hstep
      rfl
  · simp [htaken] at hstep

theorem safe_iff_fits (h : Intact state) (hio : action = .poll io ∨ action = .wait io)
    (works : ∀ found ∈ taken state action, Working host.info isDirectory io (received state found)) :
    Safe host state action ↔
      ∀ found ∈ taken state action, Fits host.info isDirectory (received state found) found.2.1.mtext := by
  cases htaken : taken state action with
  | none =>
    refine ⟨by simp, fun _ => ⟨by simp [htaken], fun next hnext => ?_⟩⟩
    rw [step_idle htaken hio hnext]
    exact h.running
  | some found =>
    obtain ⟨move, msg, rest⟩ := found
    have working : Working host.info isDirectory io (receive state.fp move msg.mtext) := works (move, msg, rest) htaken
    have hiff := h.takeMessage_iff htaken working
    simp only [Safe, htaken, step_taken h.running htaken hio, Option.mem_some_iff, forall_eq']
    exact hiff

theorem Intact.wait (h : Intact state) (hio : action = .poll io ∨ action = .wait io)
    (works : ∀ found ∈ Sudp.taken state action, Working host.info isDirectory io (received state found))
    (hfits : ∀ found ∈ Sudp.taken state action, Fits host.info isDirectory (received state found) found.2.1.mtext)
    (hstep : Sudp.step host state action = some next) : Intact next := by
  cases htaken : Sudp.taken state action with
  | none =>
    rw [step_idle htaken hio hstep]
    exact ⟨h.running, h.remembers, h.held, h.queue⟩
  | some found =>
    obtain ⟨move, msg, rest⟩ := found
    have working : Working host.info isDirectory io (receive state.fp move msg.mtext) := works (move, msg, rest) htaken
    have hfit : Fits host.info isDirectory (receive state.fp move msg.mtext) msg.mtext :=
      hfits (move, msg, rest) htaken
    rw [step_taken h.running htaken hio, Option.some.injEq] at hstep
    rw [← hstep]
    exact h.takeMessage htaken working hfit

theorem step_recvfrom (host : Host) (h : Intact state) {datagram : Sending.Datagram}
    {later : List Sending.Datagram} (hincoming : state.incoming = datagram :: later)
    (hheld : state.held = none) :
    ∃ next, Sudp.step host state .recvfrom = some next ∧
      (datagram.bytes.length ≤ msgbufText → Intact next) ∧
      (msgbufText < datagram.bytes.length → next.stopped = some .undefined) := by
  rcases receive_eq host.info.order state.loop datagram with ⟨received, hok, hsize, hfits⟩ | ⟨herror, hlong⟩
  · refine ⟨{ state with incoming := later, loop := received.1, held := some received.2 }, ?_,
      fun _ => ⟨h.running, h.remembers, ?_, h.queue⟩, fun hlong => absurd hlong (by omega)⟩
    · simp [Sudp.step, h.running, hincoming, hheld, hok]
    · intro msg hmsg
      obtain rfl := Option.some.inj hmsg
      exact hsize
  · refine ⟨{ state with stopped := some .undefined }, ?_, fun hfits => absurd hlong (by omega),
      fun _ => rfl⟩
    simp [Sudp.step, h.running, hincoming, hheld, herror]

theorem Intact.msgsnd (h : Intact state) (hstep : Sudp.step host state .msgsnd = some next) :
    Intact next := by
  simp only [Sudp.step, h.running, Option.isSome_none, Bool.false_eq_true, if_false] at hstep
  split at hstep
  · contradiction
  rename_i msg hheld
  split at hstep
  · cases hstep
    exact ⟨rfl, h.remembers, by simp, h.queue⟩
  split at hstep
  · cases hstep
    refine ⟨rfl, h.remembers, by simp, ?_⟩
    intro other hother
    rcases List.mem_append.mp hother with hold | hnew
    · exact h.queue other hold
    · obtain rfl := List.mem_singleton.mp hnew
      exact h.held other hheld
  · contradiction

theorem step_recvfrom_none (h : state.incoming = [] ∨ state.held ≠ none) :
    Sudp.step host state .recvfrom = none := by
  unfold Sudp.step
  split
  · rfl
  dsimp only
  split
  · rename_i hincoming hheld
    rcases h with hnone | hfull
    · rw [hincoming] at hnone
      contradiction
    · exact absurd hheld hfull
  · rfl

theorem safe_iff_received (h : Intact state) :
    Safe host state .recvfrom ↔
      (state.held = none → ∀ datagram ∈ state.incoming.head?, datagram.bytes.length ≤ msgbufText) := by
  have hnone : taken state .recvfrom = none := rfl
  simp only [Safe, hnone, Option.not_mem_none, false_implies, implies_true, true_and]
  cases hincoming : state.incoming with
  | nil => simp [step_recvfrom_none (.inl hincoming)]
  | cons datagram later =>
    cases hheld : state.held with
    | some msg =>
      have hfull : state.held ≠ none := by simp [hheld]
      simp [step_recvfrom_none (.inr hfull)]
    | none =>
      obtain ⟨next, hstep, hfits, hlong⟩ := step_recvfrom host h hincoming hheld
      simp only [hstep, Option.mem_some_iff, forall_eq', List.head?_cons, true_imp_iff]
      constructor
      · intro hrunning
        by_contra hover
        rw [hlong (Nat.lt_of_not_le hover)] at hrunning
        contradiction
      · exact fun hroom => (hfits hroom).running

theorem Intact.recvfrom (h : Intact state)
    (hroom : state.held = none → ∀ datagram ∈ state.incoming.head?, datagram.bytes.length ≤ msgbufText)
    (hstep : Sudp.step host state .recvfrom = some next) : Intact next := by
  cases hincoming : state.incoming with
  | nil =>
    rw [step_recvfrom_none (.inl hincoming)] at hstep
    contradiction
  | cons datagram later =>
    cases hheld : state.held with
    | some msg =>
      rw [step_recvfrom_none (.inr (by simp [hheld]))] at hstep
      contradiction
    | none =>
      obtain ⟨received, hreceived, hfits, -⟩ := step_recvfrom host h hincoming hheld
      obtain rfl := Option.some.inj (hreceived.symm.trans hstep)
      exact hfits (hroom hheld datagram (by simp [hincoming]))

theorem safe_iff_allowed (h : Intact state) (works : Works host directories state action) :
    Safe host state action ↔ Allowed host directories state action := by
  cases action with
  | recvfrom => exact safe_iff_received h
  | msgsnd =>
    exact ⟨fun _ => trivial, fun _ => ⟨by simp [taken], fun next hnext => (h.msgsnd hnext).running⟩⟩
  | poll io => exact safe_iff_fits h (.inl rfl) works
  | wait io => exact safe_iff_fits h (.inr rfl) works

theorem Intact.step (h : Intact state) (works : Works host directories state action)
    (allowed : Allowed host directories state action) (hstep : Sudp.step host state action = some next) :
    Intact next := by
  cases action with
  | recvfrom => exact h.recvfrom allowed hstep
  | msgsnd => exact h.msgsnd hstep
  | poll io => exact h.wait (.inl rfl) works allowed hstep
  | wait io => exact h.wait (.inr rfl) works allowed hstep

/-- In every run on a file system that works, what is received is read and written inside its buffers
and leaves the process running as long as the datagrams fit, and only then. -/
theorem safe_while_fitting (directories : Directories) {arrivals : List Sending.Datagram} {actions : List Sudp.Action}
    (works : Meets (Sudp.step host) (Works host directories) (Sudp.start arrivals) actions) :
    Meets (Sudp.step host) (Safe host) (Sudp.start arrivals) actions ↔
      Meets (Sudp.step host) (Allowed host directories) (Sudp.start arrivals) actions :=
  meets_congr (fun _ _ => safe_iff_allowed) (fun _ _ _ => Intact.step) (intact_start arrivals) works

end

def plainHost : Host := ⟨⟨.little, [100], [101]⟩, fun _ _ => true⟩

/-- Two packets, the second with a longer name than the first. -/
def longerName : List Sending.Datagram :=
  [⟨⟨0, 1⟩, datagram .little 0x0c 0x13 1 1025 [97, 98] [7]⟩,
    ⟨⟨0, 2⟩, datagram .little 0x0e 0x13 2 1025 [97, 98, 1, 0, 0, 0, 9] [8]⟩]

def bothTaken : List Sudp.Action :=
  [.recvfrom, .msgsnd, .poll .ok, .recvfrom, .msgsnd, .poll .ok]

/-- The directory of the application is the only one. -/
def onlyAbove : Directories := fun _ path => path = [100, 47, 101]

theorem safe_while_fitting_longer :
    Meets (Sudp.step plainHost) (Works plainHost onlyAbove) (Sudp.start longerName) bothTaken ∧
      Meets (Sudp.step plainHost) (Safe plainHost) (Sudp.start longerName) bothTaken := by
  have works : Meets (Sudp.step plainHost) (Works plainHost onlyAbove) (Sudp.start longerName)
      bothTaken := by
    decide +kernel
  have allowed : Meets (Sudp.step plainHost) (Allowed plainHost onlyAbove) (Sudp.start longerName)
      bothTaken := by
    decide +kernel
  exact ⟨works, (safe_while_fitting onlyAbove works).mpr allowed⟩

/-- As the first datagram it breaks the receiver, although the file system works. -/
def Breaks (directories : Directories) (bytes : Bytes) (actions : List Sudp.Action) : Prop :=
  Meets (Sudp.step plainHost) (Works plainHost directories) (Sudp.start [⟨⟨0, 1⟩, bytes⟩]) actions ∧
    ¬Meets (Sudp.step plainHost) (Safe plainHost) (Sudp.start [⟨⟨0, 1⟩, bytes⟩]) actions

instance (directories : Directories) (bytes : Bytes) (actions : List Sudp.Action) :
    Decidable (Breaks directories bytes actions) :=
  inferInstanceAs (Decidable (_ ∧ ¬_))

/-- `pack_nu` and `file_size` are 1. -/
def onePacket (nameLength : Int) (name : Bytes) (packLength : Int) (pack : Bytes) : Bytes :=
  [0x0b, 0x13] ++ storeInt .little 8 1 ++ storeInt .little 8 1 ++ storeInt .little 4 nameLength ++ name ++
    storeInt .little 4 packLength ++ pack

/-- One byte more than the message has room for; a name length of -1; a `pack_length` of 1000 in front
of one byte; the name "."; the name of a directory that is below that of the application. -/
theorem broken_receiver :
    Breaks onlyAbove (List.replicate 2041 0) [.recvfrom] ∧
      Breaks onlyAbove (onePacket (-1) [] 0 []) [.recvfrom, .msgsnd, .poll ⟨false, true⟩] ∧
      Breaks onlyAbove (onePacket 1 [97] 1000 [7]) [.recvfrom, .msgsnd, .poll .ok] ∧
      Breaks onlyAbove (onePacket 1 [46] 1 [7]) [.recvfrom, .msgsnd, .poll ⟨false, true⟩] ∧
      Breaks (fun _ path => path ∈ [[100, 47, 101], [100, 47, 101, 47, 101]])
        (onePacket 1 [101] 1 [7]) [.recvfrom, .msgsnd, .poll ⟨false, true⟩] := by
  decide +kernel

end UdpFileProxy.Hostile
