import UdpFileProxy.Protocol
import Mathlib.Data.List.DropRight

/-! One iteration of the loop of `File_Process`: what happens between the
`msgrcv` that took a message and the next one. The iteration is cut where the
source rewrites the shared `save_path`, so that the parts can also be
interleaved with the workers that read it. -/
namespace UdpFileProxy.FileProcess
open Lib.Memory Protocol

/-- How the process ends: `goto err_end`, which exits, or a read or write
outside an object. -/
inductive Stop where
  | exited
  | undefined
  deriving DecidableEq, Repr

/-- The strings of `THREAD_INFO` that `File_Process` reads, and the byte order
of the machine. -/
structure Info where
  order : Endian
  dir1 : Bytes
  appName : Bytes

/-- Whether `fopen` and `fwrite` succeed. -/
structure FileIo where
  opens : Bool
  writes : Bool
  deriving DecidableEq, Repr

def FileIo.ok : FileIo := ⟨true, true⟩

/-- The local variables of `File_Process`. `fp` holds what was written to the
stream since it was opened; `fileNameLength`, `pack` and `savePath` have no value
in the source before the first packet, and are not read before it either. -/
structure State where
  packTotal : Int
  packSaved : Int
  packMove : Int
  mtext : Buffer maxmsg
  fileNameLength : Int
  pack : Nat
  savePath : Bytes
  fp : Option Bytes

/-- `threadpool_add_job(pool, Recv_Finish, save_path)`: the path and the bytes that `fwrite`
took, of which `fclose` may have lost the last. -/
structure Job where
  savePath : Bytes
  content : Bytes
  deriving DecidableEq, Repr

/-- The jump to `again`. -/
def again (state : State) : State :=
  { state with packSaved := 0, packMove := 1, packTotal := 10, mtext := .zeros maxmsg }

def start : State := again {
  packTotal := 0
  packSaved := 0
  packMove := 0
  mtext := .zeros maxmsg
  fileNameLength := 0
  pack := 0
  savePath := []
  fp := none }

/-- `pack_move` is a `long long`. -/
def wrap64 (value : Int) : Int := value.bmod (2 ^ 64)

/-- The component after the last slash, trailing slashes apart (`libgen.h`). -/
def basename (path : Bytes) : Bytes :=
  if path = [] then [46]
  else
    let trimmed := path.rdropWhile (· = 47)
    if trimmed = [] then [47] else trimmed.rtakeWhile (· ≠ 47)

/-- `sprintf(save_path, "%s/%s/", dir1, app_name)`. -/
def savePrefix (info : Info) : Bytes := info.dir1 ++ [47] ++ info.appName ++ [47]

def savePathOf (info : Info) (fileName : Bytes) : Bytes :=
  savePrefix info ++ basename (cstr fileName)

/-- `msgrcv` has stored `text`; `move` is `pack_move` before the increment. -/
def receive (state : State) (move : Int) (text : Bytes) : State :=
  { state with mtext := state.mtext.fill text, packMove := wrap64 (move + 1) }

/-- The test in front of the header: the first packet of a file, or packet
number 1 in the middle of one. -/
def startsFile (state : State) : Bool := state.packSaved = 0 ∨ state.packMove = 2

/-- A range that `memcpy`, `strcpy` or `fwrite` reads, or the end of the process. -/
def inBounds (range : Option Bytes) : Except Stop Bytes :=
  match range with
  | some bytes => .ok bytes
  | none => .error .undefined

/-- The header fields are copied out and `sprintf` starts the new `save_path`.
A file that the packet interrupts is closed first. -/
def readHeader (info : Info) (state : State) : Except Stop (State × Bytes) := do
  let size ← inBounds (state.mtext.read 10 8)
  let length ← inBounds (state.mtext.read 18 4)
  let fileSize := loadInt info.order size
  let fileNameLength := loadInt info.order length
  -- memcpy takes a negative length as a huge size_t
  if fileNameLength < 0 then throw .undefined
  let fileName ← inBounds (state.mtext.read 22 fileNameLength.toNat)
  if savePathSize ≤ (savePrefix info).length then throw .undefined
  let interrupted := state.packMove = 2 ∧ state.packSaved ≠ 0
  return ({ state with
    packSaved := if interrupted then 0 else state.packSaved
    fp := if interrupted then none else state.fp
    packTotal := fileSize.tdiv 1024 + if fileSize.tmod 1024 ≠ 0 then 1 else 0
    fileNameLength := fileNameLength
    savePath := savePrefix info }, fileName)

/-- `strcat(save_path, basename(file_name))`, then `CreateDir` and `fopen`. -/
def openFile (io : FileIo) (state : State) (fileName : Bytes) : Except Stop State := do
  let savePath := state.savePath ++ basename (cstr fileName)
  if savePathSize ≤ savePath.length then throw .undefined
  if io.opens = false then throw .exited
  return { state with
    savePath := savePath
    pack := 22 + state.fileNameLength.toNat + 4
    fp := some [] }

/-- The two tests after a packet was written: the file is complete, or the
packet was the last one and the file is not. -/
def checkSize (state : State) (content : Bytes) : State × Option Job :=
  if state.packTotal = state.packSaved then
    (again { state with fp := none }, some ⟨state.savePath, content⟩)
  else if state.packTotal = state.packMove - 1 then
    (again { state with fp := none }, none)
  else (state, none)

def writePack (info : Info) (io : FileIo) (state : State) : Except Stop (State × Option Job) := do
  let length ← inBounds (state.mtext.read (22 + state.fileNameLength.toNat) 4)
  let packLength := loadInt info.order length
  if packLength < 0 then throw .undefined
  let pack ← inBounds (state.mtext.read state.pack packLength.toNat)
  let written ← inBounds state.fp
  if io.writes = false ∧ packLength ≠ 0 then throw .exited
  return checkSize
    { state with fp := some (written ++ pack), packSaved := state.packSaved + 1 } (written ++ pack)

/-- One iteration of the loop, from the message taken to the next `msgrcv`. -/
def iterate (info : Info) (io : FileIo) (state : State) (move : Int) (text : Bytes) :
    Except Stop (State × Option Job) := do
  let received := receive state move text
  if startsFile received then
    let (named, fileName) ← readHeader info received
    let opened ← openFile io named fileName
    writePack info io opened
  else
    writePack info io received

theorem checkSize_savePath (state : State) (content : Bytes) :
    (checkSize state content).1.savePath = state.savePath ∧
      ∀ job ∈ (checkSize state content).2, job.savePath = state.savePath := by
  unfold checkSize
  split
  · simp [again]
  · split
    · simp [again]
    · simp

theorem writePack_savePath {info : Info} {io : FileIo} {state next : State} {job : Option Job}
    (h : writePack info io state = .ok (next, job)) :
    next.savePath = state.savePath ∧ ∀ done ∈ job, done.savePath = state.savePath := by
  have hchecked (written : State) (content : Bytes) (hpath : written.savePath = state.savePath)
      (hcheck : checkSize written content = (next, job)) :
      next.savePath = state.savePath ∧ ∀ done ∈ job, done.savePath = state.savePath := by
    have hsame := checkSize_savePath written content
    rwa [hcheck, hpath] at hsame
  unfold writePack at h
  simp only [bind, Except.bind, pure, Except.pure, throw, throwThe, MonadExceptOf.throw] at h
  split at h
  · cases h
  split at h
  · cases h
  split at h
  · cases h
  split at h
  · cases h
  split at h
  · cases h
  refine hchecked _ _ ?_ (Except.ok.inj h)
  rfl

section
variable (info : Info) (state : State) (version protocol : UInt8) (packNu fileSize : Int)
  (name chunk : Bytes)

theorem read_packet (hname : name.length ≤ 255) (hchunk : chunk.length ≤ maxline) :
    let buffer := state.mtext.fill
      (datagram info.order version protocol packNu fileSize name chunk)
    buffer.read 10 8 = some (storeInt info.order 8 fileSize) ∧
    buffer.read 18 4 = some (storeInt info.order 4 name.length) ∧
    buffer.read 22 name.length = some name ∧
    buffer.read (22 + name.length) 4 = some (storeInt info.order 4 chunk.length) ∧
    buffer.read (22 + name.length + 4) chunk.length = some chunk := by
  intro buffer
  have hsize : (datagram info.order version protocol packNu fileSize name chunk).length ≤ maxmsg := by
    rw [length_datagram]
    simp only [maxmsg, maxline] at hchunk ⊢
    omega
  let size := storeInt info.order 8 fileSize
  let nameLength := storeInt info.order 4 name.length
  let chunkLength := storeInt info.order 4 chunk.length
  let front := [version, protocol] ++ storeInt info.order 8 packNu
  have hfront : front.length = 10 := by simp [front]
  have hlength : size.length = 8 ∧ nameLength.length = 4 ∧ chunkLength.length = 4 := by
    simp [size, nameLength, chunkLength]
  refine ⟨?_, ?_, ?_, ?_, ?_⟩
  · have layout : datagram info.order version protocol packNu fileSize name chunk =
        front ++ size ++ (nameLength ++ name ++ chunkLength ++ chunk) := by
      simp [datagram, front, size, nameLength, chunkLength]
    exact Buffer.read_fill _ layout hfront.symm hlength.1.symm hsize
  · have layout : datagram info.order version protocol packNu fileSize name chunk =
        (front ++ size) ++ nameLength ++ (name ++ chunkLength ++ chunk) := by
      simp [datagram, front, size, nameLength, chunkLength]
    exact Buffer.read_fill _ layout (by rw [List.length_append]; omega) hlength.2.1.symm hsize
  · have layout : datagram info.order version protocol packNu fileSize name chunk =
        (front ++ size ++ nameLength) ++ name ++ (chunkLength ++ chunk) := by
      simp [datagram, front, size, nameLength, chunkLength]
    exact Buffer.read_fill _ layout (by simp only [List.length_append]; omega) rfl hsize
  · have layout : datagram info.order version protocol packNu fileSize name chunk =
        (front ++ size ++ nameLength ++ name) ++ chunkLength ++ chunk := by
      simp [datagram, front, size, nameLength, chunkLength]
    exact Buffer.read_fill _ layout (by simp only [List.length_append]; omega)
      hlength.2.2.symm hsize
  · have layout : datagram info.order version protocol packNu fileSize name chunk =
        (front ++ size ++ nameLength ++ name ++ chunkLength) ++ chunk ++ [] := by
      simp [datagram, front, size, nameLength, chunkLength]
    exact Buffer.read_fill _ layout (by simp only [List.length_append]; omega) rfl hsize

/-- The number of packets that `File_Process` expects of a file of this size. -/
def packetCount (size : Nat) : Int := ((size + 1023) / 1024 : Nat)

theorem packTotal_eq (size : Nat) :
    ((size : Int).tdiv 1024 + if (size : Int).tmod 1024 ≠ 0 then 1 else 0) = packetCount size := by
  rw [Int.tdiv_eq_ediv_of_nonneg (by omega), Int.tmod_eq_emod_of_nonneg (by omega), packetCount]
  split <;> omega

variable {version protocol packNu name chunk} (io : FileIo) {size : Nat} {move : Int}

/-- A packet that starts a file, whatever was being written before. -/
def started (info : Info) (state : State) (size : Nat) (name chunk : Bytes) : State :=
  { state with
    packTotal := packetCount size
    packSaved := 1
    fileNameLength := name.length
    pack := 22 + name.length + 4
    savePath := savePathOf info name
    fp := some chunk }

private theorem loadInt_store4 (value : Nat) (h : value < 2 ^ 31) :
    loadInt info.order (storeInt info.order 4 value) = value :=
  loadInt_storeInt info.order 4 value (by omega) (by norm_num; omega)

private theorem loadInt_store8 (value : Nat) (h : value < 2 ^ 63) :
    loadInt info.order (storeInt info.order 8 value) = value :=
  loadInt_storeInt info.order 8 value (by omega) (by norm_num; omega)

theorem writePack_packet {current : State} {written : Bytes}
    (hname : name.length ≤ 255) (hchunk : chunk.length ≤ maxline)
    (hmtext : current.mtext = state.mtext.fill
      (datagram info.order version protocol packNu size name chunk))
    (hlength : current.fileNameLength = name.length)
    (hpack : current.pack = 22 + name.length + 4) (hfp : current.fp = some written) :
    writePack info io current =
      if io.writes = false ∧ (chunk.length : Int) ≠ 0 then .error .exited
      else .ok (checkSize
        { current with fp := some (written ++ chunk), packSaved := current.packSaved + 1 }
        (written ++ chunk)) := by
  obtain ⟨-, -, -, hchunkLength, hchunkField⟩ :=
    read_packet info state version protocol packNu size name chunk hname hchunk
  have hload : loadInt info.order (storeInt info.order 4 chunk.length) = chunk.length :=
    loadInt_store4 info _ (by simp only [maxline] at hchunk; omega)
  unfold writePack
  simp only [hmtext, hlength, hpack, hfp, Int.toNat_natCast, hchunkLength, hload, hchunkField,
    inBounds, bind, Except.bind, pure, Except.pure, throw, throwThe, MonadExceptOf.throw]
  have hnonneg : ¬(chunk.length : Int) < 0 := by omega
  simp only [hnonneg, if_false]

theorem readHeader_packet
    (hname : name.length ≤ 255) (hchunk : chunk.length ≤ maxline) (hsize : size < 2 ^ 63) :
    let received := receive state move (datagram info.order version protocol packNu size name chunk)
    let interrupted := received.packMove = 2 ∧ received.packSaved ≠ 0
    readHeader info received =
      if savePathSize ≤ (savePrefix info).length then .error .undefined
      else .ok ({ received with
        packSaved := if interrupted then 0 else received.packSaved
        fp := if interrupted then none else received.fp
        packTotal := packetCount size
        fileNameLength := name.length
        savePath := savePrefix info }, name) := by
  intro received interrupted
  obtain ⟨hsizeField, hlengthField, hnameField, -, -⟩ :=
    read_packet info state version protocol packNu size name chunk hname hchunk
  have hloadSize := loadInt_store8 info size hsize
  have hloadName := loadInt_store4 info name.length (by omega)
  have hmtext : received.mtext = state.mtext.fill
    (datagram info.order version protocol packNu size name chunk) := rfl
  unfold readHeader
  simp only [hmtext, hsizeField, hlengthField, hloadSize, hloadName, Int.toNat_natCast, hnameField,
    inBounds, bind, Except.bind, pure, Except.pure, throw, throwThe, MonadExceptOf.throw,
    packTotal_eq]
  have hnonneg : ¬(name.length : Int) < 0 := by omega
  simp only [hnonneg, if_false]
  split <;> rfl

theorem iterate_start
    (hstart : startsFile (receive state move
      (datagram info.order version protocol packNu size name chunk)) = true)
    (hname : name.length ≤ 255) (hchunk : chunk.length ≤ maxline) (hsize : size < 2 ^ 63) :
    let packet := datagram info.order version protocol packNu size name chunk
    iterate info io state move packet =
      if savePathSize ≤ (savePathOf info name).length then .error .undefined
      else if io.opens = false then .error .exited
      else if io.writes = false ∧ (chunk.length : Int) ≠ 0 then .error .exited
      else .ok (checkSize (started info (receive state move packet) size name chunk) chunk) := by
  intro packet
  -- the file that the packet interrupts, if any, is closed and its count dropped
  have hzero : (if (receive state move packet).packMove = 2 ∧
      (receive state move packet).packSaved ≠ 0 then (0 : Int)
      else (receive state move packet).packSaved) = 0 := by
    simp only [startsFile, Bool.decide_or, Bool.or_eq_true, decide_eq_true_eq] at hstart
    split
    · rfl
    · grind
  unfold iterate
  simp only [packet, hstart, if_true]
  rw [readHeader_packet info state hname hchunk hsize]
  by_cases hshort : savePathSize ≤ (savePrefix info).length
  · have hlong : savePathSize ≤ (savePathOf info name).length := by
      rw [savePathOf, List.length_append]
      omega
    simp [hshort, hlong, bind, Except.bind]
  have hpath : savePrefix info ++ basename (cstr name) = savePathOf info name := rfl
  simp only [hshort, if_false, bind, Except.bind, openFile, throw, throwThe, MonadExceptOf.throw,
    pure, Except.pure, hpath]
  by_cases hlong : savePathSize ≤ (savePathOf info name).length
  · simp [hlong]
  by_cases hopens : io.opens = false
  · simp [hlong, hopens]
  simp only [hlong, hopens, Bool.true_eq_false, if_false, Int.toNat_natCast]
  rw [writePack_packet info state io hname hchunk rfl rfl rfl rfl]
  simp only [packet] at hzero
  simp only [List.nil_append, hzero]
  rfl

theorem iterate_append {written : Bytes}
    (hstart : startsFile (receive state move
      (datagram info.order version protocol packNu size name chunk)) = false)
    (hname : name.length ≤ 255) (hchunk : chunk.length ≤ maxline)
    (hlength : state.fileNameLength = name.length)
    (hpack : state.pack = 22 + name.length + 4) (hfp : state.fp = some written) :
    let packet := datagram info.order version protocol packNu size name chunk
    iterate info io state move packet =
      if io.writes = false ∧ (chunk.length : Int) ≠ 0 then .error .exited
      else .ok (checkSize { receive state move packet with
        fp := some (written ++ chunk), packSaved := state.packSaved + 1 } (written ++ chunk)) := by
  intro packet
  unfold iterate
  simp only [packet, hstart, Bool.false_eq_true, if_false]
  rw [writePack_packet info state io hname hchunk rfl
    (show (receive state move _).fileNameLength = _ from hlength) hpack hfp]
  rfl

end

end UdpFileProxy.FileProcess
