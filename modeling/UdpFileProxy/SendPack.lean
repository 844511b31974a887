import UdpFileProxy.Protocol

/-! `SendPack_ex` as a machine that makes one call at a time and continues with
what the call returned. Everything outside the function, the file system, the
socket, the clock and the speed manager, answers through `Reply`. -/
namespace UdpFileProxy.SendPack
open Lib.Memory Protocol

/-- The call that `SendPack_ex` is about to make. `giveBack` returns the held
grant before a new one is queried; the two exits return it as well. -/
inductive Pc where
  | stat
  | openFile
  | read
  | giveBack
  | query
  | sendto
  | sleepFirst
  | sleepBatch
  | okGiveBack
  | okClose
  | errClose
  | errGiveBack
  | finished (ret : Int)
  | dividedByZero
  deriving DecidableEq, Repr

inductive Call where
  | stat (path : Bytes)
  | openFile (path : Bytes)
  | read
  | returnSpeed (speed : Int)
  | querySpeed
  | sendto (msg : Bytes)
  | usleep (time : Int)
  | close
  deriving DecidableEq, Repr

/-- `size` is what `GetFileSize` returns, -1 when `stat` failed. A failed `read`
is `none`, and end of file is `some []`. -/
inductive Reply where
  | size (size : Int)
  | fd (fd : Int)
  | data (bytes : Option Bytes)
  | grant (speed : Int)
  | sent (ok : Bool)
  | done
  deriving DecidableEq, Repr

structure State where
  filePath : Bytes
  packT : Int
  pc : Pc
  waitT : Int
  queryed : Int
  sendCount : Int
  protocol : UInt8
  packNu : Int
  fileSize : Int
  recvBuff : Bytes
  deriving DecidableEq, Repr

def start (filePath : Bytes) (packT : Int) : State where
  filePath := filePath
  packT := packT
  pc := .stat
  waitT := 0
  queryed := 0
  sendCount := 0
  protocol := 0x0c
  packNu := 0
  fileSize := 0
  recvBuff := []

/-- `send_count` is an `int`. -/
def wrap32 (value : Int) : Int := value.bmod (2 ^ 32)

theorem wrap32_of_lt {value : Nat} (h : value < 2 ^ 31) : wrap32 value = value := by
  have hlow : -((2 ^ 32 : Nat) : Int) ≤ (value : Int) * 2 := by omega
  have hhigh : (value : Int) * 2 < (2 ^ 32 : Nat) := by omega
  exact Int.bmod_eq_of_le_mul_two hlow hhigh

/-- A byte count that matches no branch leaves the byte as it was. -/
def protocolByte (sendCount rlen fileSize : Int) (current : UInt8) : UInt8 :=
  if sendCount = 0 ∧ wrap32 (sendCount + rlen) = fileSize then 0x13
  else if sendCount = 0 then 0x14
  else if wrap32 (sendCount + rlen) = fileSize then 0x16
  else if wrap32 (sendCount + rlen) < fileSize then 0x15
  else current

def version : UInt8 := 0x0f

def message (order : Endian) (state : State) : Bytes :=
  datagram order version state.protocol state.packNu state.fileSize state.filePath state.recvBuff

def call (order : Endian) (state : State) : Option Call :=
  match state.pc with
  | .stat => some (.stat state.filePath)
  | .openFile => some (.openFile state.filePath)
  | .read => some .read
  | .giveBack | .okGiveBack | .errGiveBack => some (.returnSpeed state.queryed)
  | .query => some .querySpeed
  | .sendto => some (.sendto (message order state))
  | .sleepFirst | .sleepBatch => some (.usleep state.waitT)
  | .okClose | .errClose => some .close
  | .finished _ | .dividedByZero => none

/-- The tests `pack_nu % pack_t == 0`: after the read they are guarded by
`pack_nu == 1`, after the send they are not. -/
def afterRead (state : State) : Pc :=
  if state.packNu ≠ 1 ∧ state.packT = 0 then .dividedByZero
  else if state.packNu = 1 ∨ state.packNu.tmod state.packT = 0 then
    if state.queryed ≠ 0 then .giveBack else .query
  else .sendto

def afterSend (state : State) : Pc :=
  if state.packT = 0 then .dividedByZero
  else if state.packNu.tmod state.packT = 0 then .sleepBatch
  else .read

/-- The packet of the bytes just read. -/
def packed (state : State) (bytes : Bytes) : State :=
  { state with
    recvBuff := bytes
    protocol := protocolByte state.sendCount bytes.length state.fileSize state.protocol
    sendCount := wrap32 (state.sendCount + bytes.length)
    packNu := state.packNu + 1 }

def resume (state : State) (reply : Reply) : Option State :=
  match state.pc, reply with
  | .stat, .size size =>
      some { state with fileSize := size, pc := if size < 0 then .finished (-1) else .openFile }
  | .openFile, .fd fd =>
      -- only descriptor 0 counts as a failure; -1 goes on to `read`, which fails
      some { state with pc := if fd = 0 then .errClose else .read }
  | .read, .data none => some { state with pc := .errClose }
  | .read, .data (some []) =>
      some { state with pc := if state.queryed ≠ 0 then .okGiveBack else .okClose }
  | .read, .data (some bytes) =>
      if bytes.length ≤ maxline then
        some { packed state bytes with pc := afterRead (packed state bytes) }
      else none
  | .giveBack, .done => some { state with queryed := 0, pc := .query }
  | .query, .grant speed =>
      if speed = 0 then some { state with queryed := speed, pc := .dividedByZero }
      else some { state with
        queryed := speed
        waitT := (8016 * state.packT).tdiv speed
        pc := .sendto }
  | .sendto, .sent false => some { state with pc := .errClose }
  | .sendto, .sent true =>
      some { state with pc := if state.packNu = 1 then .sleepFirst else afterSend state }
  | .sleepFirst, .done => some { state with pc := afterSend state }
  | .sleepBatch, .done => some { state with pc := .read }
  | .okGiveBack, .done => some { state with pc := .okClose }
  | .okClose, .done => some { state with pc := .finished 0 }
  | .errClose, .done =>
      some { state with pc := if state.queryed ≠ 0 then .errGiveBack else .finished (-1) }
  | .errGiveBack, .done => some { state with pc := .finished (-1) }
  | _, _ => none

theorem afterRead_cases (state : State) :
    afterRead state = .dividedByZero ∨ (afterRead state = .giveBack ∧ state.queryed ≠ 0) ∨
      (afterRead state = .query ∧ state.queryed = 0) ∨ afterRead state = .sendto := by
  unfold afterRead
  split
  · simp
  split
  · split
    · simp_all
    · simp_all
  · simp

theorem afterSend_cases (state : State) :
    afterSend state = .dividedByZero ∨ afterSend state = .sleepBatch ∨
      afterSend state = .read := by
  unfold afterSend
  split
  · simp
  split
  · simp
  · simp

theorem afterRead_defined {state : State} (h : 1 ≤ state.packT) : afterRead state ≠ .dividedByZero := by
  have hne : state.packT ≠ 0 := by omega
  unfold afterRead
  rw [if_neg (fun hzero => hne hzero.2)]
  split
  · split <;> simp
  · simp

theorem afterSend_defined {state : State} (h : 1 ≤ state.packT) : afterSend state ≠ .dividedByZero := by
  unfold afterSend
  rw [if_neg (by omega)]
  split <;> simp

end UdpFileProxy.SendPack
