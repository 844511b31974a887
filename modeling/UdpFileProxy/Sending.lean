import UdpFileProxy.SendPack
import UdpFileProxy.Reassembly

/-! The datagrams that one run of `SendPack_ex` hands to `sendto`, and a sender
that sends one file after the other through the machine of `SendPack`. -/
namespace UdpFileProxy.Sending
open Lib.Memory Protocol
open Reassembly (Origin whole)

/-- `origin` records which packet of which file the datagram was made as. It is
history: nothing that runs depends on it. -/
structure Datagram where
  origin : Origin
  bytes : Bytes
  deriving DecidableEq

def packetsFrom (order : Endian) (file : SentFile) (index : Nat) :
    Int → UInt8 → Nat → List Bytes → List Datagram
  | _, _, _, [] => []
  | sendCount, protocol, packNu, chunk :: rest =>
      let next := SendPack.protocolByte sendCount chunk.length file.content.length protocol
      ⟨⟨index, packNu + 1⟩, datagram order SendPack.version next (packNu + 1 : Nat)
        file.content.length file.path chunk⟩ ::
        packetsFrom order file index (SendPack.wrap32 (sendCount + chunk.length)) next
          (packNu + 1) rest

/-- All datagrams of one file; it is the `index`-th that is sent. -/
def packets (order : Endian) (index : Nat) (file : SentFile) : List Datagram :=
  packetsFrom order file index 0 0x0c 0 (chunks file.content)

def streamFrom (order : Endian) : Nat → List SentFile → List Datagram
  | _, [] => []
  | index, file :: rest => packets order index file ++ streamFrom order (index + 1) rest

/-- All datagrams of the files, in sending order. -/
def stream (order : Endian) (files : List SentFile) : List Datagram := streamFrom order 0 files

/-- How many packets the file of this number has. -/
def count (files : List SentFile) (index : Nat) : Nat :=
  files[index]?.elim 0 fun file => (chunks file.content).length

/-- A datagram that `SendPack_ex` made: the packet of its origin. -/
def Genuine (order : Endian) (files : List SentFile) (origin : Origin) (bytes : Bytes) : Prop :=
  ∃ file chunk protocol, files[origin.file]? = some file ∧ 1 ≤ origin.number ∧
    (chunks file.content)[origin.number - 1]? = some chunk ∧
    bytes = datagram order SendPack.version protocol origin.number file.content.length
      file.path chunk

section
variable (order : Endian) (file : SentFile) (index : Nat)

@[simp] theorem packetsFrom_origins (sendCount : Int) (protocol : UInt8) (packNu : Nat)
    (rest : List Bytes) :
    (packetsFrom order file index sendCount protocol packNu rest).map Datagram.origin =
      (List.range' (packNu + 1) rest.length).map (Origin.mk index) := by
  induction rest generalizing sendCount protocol packNu with
  | nil => rfl
  | cons chunk rest ih => simp [packetsFrom, ih, List.range'_succ]

theorem packets_origins (files : List SentFile) (h : files[index]? = some file) :
    (packets order index file).map Datagram.origin = whole (count files) index := by
  rw [packets, packetsFrom_origins, whole, count, h]
  rfl

theorem genuine_of_mem_packetsFrom {files : List SentFile} (h : files[index]? = some file)
    {sendCount : Int} {protocol : UInt8} {packNu : Nat} {rest : List Bytes}
    (hrest : rest = (chunks file.content).drop packNu) {sent : Datagram}
    (hsent : sent ∈ packetsFrom order file index sendCount protocol packNu rest) :
    Genuine order files sent.origin sent.bytes := by
  induction rest generalizing sendCount protocol packNu with
  | nil => simp [packetsFrom] at hsent
  | cons chunk rest ih =>
    rw [packetsFrom, List.mem_cons] at hsent
    rcases hsent with rfl | hsent
    · refine ⟨file, chunk, _, h, by simp, ?_, rfl⟩
      have hhead := congrArg List.head? hrest
      simpa using hhead.symm
    · refine ih ?_ hsent
      have htail := congrArg List.tail hrest
      simpa using htail

theorem genuine_of_mem_streamFrom {files rest : List SentFile} {index : Nat}
    (hrest : rest = files.drop index) {sent : Datagram}
    (hsent : sent ∈ streamFrom order index rest) :
    Genuine order files sent.origin sent.bytes := by
  induction rest generalizing index with
  | nil => simp [streamFrom] at hsent
  | cons file rest ih =>
    have hfile : files[index]? = some file := by
      have hhead := congrArg List.head? hrest
      simpa using hhead.symm
    rw [streamFrom, List.mem_append] at hsent
    rcases hsent with hsent | hsent
    · exact genuine_of_mem_packetsFrom order file index hfile rfl hsent
    · refine ih ?_ hsent
      have htail := congrArg List.tail hrest
      simpa using htail

theorem genuine_of_mem_stream {files : List SentFile} {sent : Datagram}
    (hsent : sent ∈ stream order files) : Genuine order files sent.origin sent.bytes :=
  genuine_of_mem_streamFrom order rfl hsent

end

section
variable {order : Endian} {files : List SentFile}

theorem count_pos {index : Nat} (h : index < files.length) : 0 < count files index := by
  have hne := List.length_pos_iff.mpr (files[index]).content_ne
  rw [count, List.getElem?_eq_getElem h, Option.elim_some, length_chunks]
  omega

theorem lt_of_count_pos {index : Nat} (h : 0 < count files index) : index < files.length := by
  by_contra hle
  rw [count, List.getElem?_eq_none (Nat.le_of_not_lt hle)] at h
  exact absurd h (Nat.lt_irrefl 0)

theorem streamFrom_origins {rest : List SentFile} {index : Nat} (hrest : rest = files.drop index) :
    (streamFrom order index rest).map Datagram.origin =
      (List.range' index rest.length).flatMap (whole (count files)) := by
  induction rest generalizing index with
  | nil => rfl
  | cons file rest ih =>
    have hfile : files[index]? = some file := by
      have hhead := congrArg List.head? hrest
      simpa using hhead.symm
    have htail : rest = files.drop (index + 1) := by
      have htail := congrArg List.tail hrest
      simpa using htail
    rw [streamFrom, List.map_append, packets_origins order file index files hfile, ih htail,
      List.length_cons, List.range'_succ, List.flatMap_cons]

/-- The origins of the whole stream: every packet of every file once, in order. -/
theorem stream_origins (order : Endian) (files : List SentFile) :
    (stream order files).map Datagram.origin =
      (List.range files.length).flatMap (whole (count files)) := by
  rw [stream, streamFrom_origins (show files = files.drop 0 from rfl), List.range_eq_range']

theorem Genuine.numbered {origin : Origin} {bytes : Bytes}
    (h : Genuine order files origin bytes) :
    1 ≤ origin.number ∧ origin.number ≤ count files origin.file := by
  obtain ⟨file, chunk, protocol, hfile, hpos, hchunk, -⟩ := h
  have := (List.getElem?_eq_some_iff.mp hchunk).1
  rw [count, hfile, Option.elim_some]
  omega

end

/-- A file that repeats one byte, under a name of one byte. -/
def filledFile (name fill : UInt8) (size : Nat) (hname : name ≠ 0)
    (hsize : 0 < size ∧ size < 2 ^ 63) : SentFile where
  path := [name]
  content := List.replicate size fill
  path_le := by simp
  path_noNul := by simpa using hname.symm
  content_ne := by simpa using hsize.1.ne'
  content_lt := by simpa using hsize.2

end UdpFileProxy.Sending
