import UdpFileProxy.Lib.Memory
import Mathlib.Data.List.Basic

/-! The packet layout that `SendPack_ex` writes and `File_Process` reads, and
the numeric constants of `Protocol.h` and `proxy_proto.h`. -/
namespace UdpFileProxy.Protocol
open Lib.Memory

/-- Payload bytes of one packet. -/
def maxline : Nat := 1024

/-- Size of the buffer that `recvfrom` fills. -/
def maxdatasize : Nat := 1024 * 2

/-- `MAXMSG` without the `long` that holds the message type. -/
def maxmsg : Nat := 8192

/-- Size of `msgbuf->mtext`: `calloc(2048)` without the `long` in front. -/
def msgbufText : Nat := 2048 - 8

def savePathSize : Nat := 1024

def maxFile : Int := 20
def maxSpeed : Int := 800
def packTDefault : Int := 200

def cmdRegister : UInt8 := 0x00
def cmdDelect : UInt8 := 0x01
def cmdQuery : UInt8 := 0x02
def cmdAddFile : UInt8 := 0x10

def eOk : Int := 0x00
def eExist : Int := 0x01
def eNotfound : Int := 0x02
def eFull : Int := 0x03
def eBadCmd : Int := 0x04
def eThread : Int := 0x05
def eRegister : Int := 0x06
def eFormat : Int := 0x07

def sIdle : Int := 0x00
def sBusy : Int := 0x01
def sCancel : Int := 0x03

def delNow : Int := 0
def delLastOne : Int := 1
def delLater : Int := 2

/-- `version | protocol | pack_nu | file_size | file_name_length | file_name |
pack_length | pack`, with offsets 0, 1, 2, 10, 18, 22, 22 + length and
26 + length. -/
def datagram (order : Endian) (version protocol : UInt8) (packNu fileSize : Int)
    (fileName chunk : Bytes) : Bytes :=
  [version, protocol] ++ storeInt order 8 packNu ++ storeInt order 8 fileSize ++
    storeInt order 4 fileName.length ++ fileName ++ storeInt order 4 chunk.length ++ chunk

@[simp] theorem length_datagram (order : Endian) (version protocol : UInt8) (packNu fileSize : Int)
    (fileName chunk : Bytes) :
    (datagram order version protocol packNu fileSize fileName chunk).length =
      26 + fileName.length + chunk.length := by
  simp only [datagram, List.length_append, length_storeInt, List.length_cons, List.length_nil]
  omega

/-- A file on the sending side, as `SendPack_ex` can open and send it: its path
came in a command frame, and its size is a positive `off_t`. -/
structure SentFile where
  path : Bytes
  content : Bytes
  path_le : path.length ≤ 255
  path_noNul : 0 ∉ path
  content_ne : content ≠ []
  content_lt : content.length < 2 ^ 63

/-- The reads of `MAXLINE` bytes that return a file of this content. -/
def chunks (content : Bytes) : List Bytes :=
  if content = [] then [] else content.take maxline :: chunks (content.drop maxline)
termination_by content.length
decreasing_by
  have : content.length ≠ 0 := by simpa using ‹¬content = []›
  simp only [List.length_drop, maxline]
  omega

@[simp] theorem chunks_nil : chunks [] = [] := by
  rw [chunks, if_pos rfl]

theorem chunks_of_ne {content : Bytes} (h : content ≠ []) :
    chunks content = content.take maxline :: chunks (content.drop maxline) := by
  rw [chunks, if_neg h]

@[simp] theorem chunks_flatten (content : Bytes) : (chunks content).flatten = content := by
  induction content using chunks.induct with
  | case1 => simp
  | case2 content h ih => rw [chunks_of_ne h, List.flatten_cons, ih, List.take_append_drop]

theorem length_le_of_mem_chunks {content chunk : Bytes} (h : chunk ∈ chunks content) :
    chunk.length ≤ maxline := by
  induction content using chunks.induct with
  | case1 => simp at h
  | case2 content hne ih =>
    rw [chunks_of_ne hne, List.mem_cons] at h
    rcases h with rfl | h
    · exact List.length_take_le _ _
    · exact ih h

theorem length_chunks (content : Bytes) :
    (chunks content).length = (content.length + 1023) / 1024 := by
  induction content using chunks.induct with
  | case1 => simp
  | case2 content hne ih =>
    have hpos : 0 < content.length := List.length_pos_iff.mpr hne
    rw [chunks_of_ne hne, List.length_cons, ih, List.length_drop, maxline]
    omega

theorem chunks_replicate_of_lt {size : Nat} (byte : UInt8) (h : maxline < size) :
    chunks (List.replicate size byte) =
      List.replicate maxline byte :: chunks (List.replicate (size - maxline) byte) := by
  have hne : List.replicate size byte ≠ [] := by
    simp only [ne_eq, List.replicate_eq_nil_iff]
    omega
  rw [chunks_of_ne hne, List.take_replicate, List.drop_replicate, Nat.min_eq_left h.le]

theorem chunks_replicate_of_le {size : Nat} (byte : UInt8) (h : 0 < size ∧ size ≤ maxline) :
    chunks (List.replicate size byte) = [List.replicate size byte] := by
  have hne : List.replicate size byte ≠ [] := by
    simp only [ne_eq, List.replicate_eq_nil_iff]
    omega
  rw [chunks_of_ne hne, List.take_replicate, List.drop_replicate, Nat.min_eq_right h.2,
    Nat.sub_eq_zero_of_le h.2, List.replicate_zero, chunks_nil]

end UdpFileProxy.Protocol
