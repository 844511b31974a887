import UdpFileProxy.Lib.Memory
import UdpFileProxy.Protocol

/-! The management connection. `ProxyClient::handler_msg_c` and
`ProxyServer::handler_msg_c` are the same function around their own
`RequestHandler`. -/
namespace UdpFileProxy.Manager
open Lib.Memory Protocol

variable {State : Type*}

/-- The command, the length byte and the body that `RequestHandler` takes from
its buffer; there is no body when the length byte is 0. -/
def parts (msgEx : Bytes) : Option (UInt8 × Option Bytes) :=
  match msgEx with
  | cmdType :: msgLen :: msg => some (cmdType, if msgLen ≠ 0 then some msg else none)
  | _ => none

/-- A frame as a client of the manager writes it. -/
def frame (cmdType : UInt8) (body : Bytes) : Bytes :=
  cmdType :: UInt8.ofNat body.length :: body

/-- `read_len` against the length byte. -/
def wellFormed (input : Bytes) : Bool :=
  match input with
  | _ :: msgLen :: body => body.length = 0 ∨ msgLen.toNat = body.length
  | _ => false

/-- One read callback: the reply and the new state. The buffer that is handed on
ends with a NUL. `none` is a crash. -/
def handlerMsgC (requestHandler : State → Bytes → Option (Int × State)) (state : State)
    (input : Bytes) : Option (Bytes × State) :=
  if input.isEmpty then none
  else if wellFormed input then
    (requestHandler state (input ++ [0])).map fun (ret, next) => ([UInt8.ofInt ret, 0], next)
  else some ([UInt8.ofInt eFormat, 0], state)

end UdpFileProxy.Manager
