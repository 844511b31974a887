import UdpFileProxy.ProxyClient
import UdpFileProxy.ProxyServer
import Mathlib.Data.List.Flatten

/-! Command frames against the chunks that the read callbacks get. `handler_msg_c`
takes a chunk for a whole frame or refuses it, so only chunks that are the frames
have the effect of the frames. -/
namespace UdpFileProxy.Framing
open Lib.Memory Protocol Manager

/-- A command frame with a body. -/
structure Frame where
  cmdType : UInt8
  body : Bytes
  body_ne : body ≠ []
  body_le : body.length ≤ 255

def Frame.bytes (frame : Frame) : Bytes := Manager.frame frame.cmdType frame.body

/-- What a connection did: the buffers handed to `RequestHandler`, the replies,
and the state in the end unless a request crashed. -/
@[ext] structure Outcome (State : Type*) where
  requests : List Bytes
  replies : List Bytes
  state : Option State

/-- The buffers that chunks make. -/
def buffers (chunks : List Bytes) : List Bytes := chunks.map fun chunk => chunk ++ [0]

/-- The chunks that are taken for frames. -/
def taken (chunks : List Bytes) : List Bytes := chunks.filter wellFormed

section
variable {State : Type*}

/-- One read callback for each chunk. -/
def deliver (requestHandler : State → Bytes → Option (Int × State)) :
    State → List Bytes → Outcome State
  | state, [] => ⟨[], [], some state⟩
  | state, chunk :: rest =>
      match handlerMsgC requestHandler state chunk with
      | none => ⟨buffers (taken [chunk]), [], none⟩
      | some (reply, next) =>
          let outcome := deliver requestHandler next rest
          ⟨buffers (taken [chunk]) ++ outcome.requests, reply :: outcome.replies, outcome.state⟩

variable {requestHandler : State → Bytes → Option (Int × State)} {state : State}
  {chunk : Bytes} {chunks : List Bytes}

theorem handlerMsgC_refused (hne : chunk ≠ []) (hformat : wellFormed chunk = false) :
    handlerMsgC requestHandler state chunk = some ([UInt8.ofInt eFormat, 0], state) := by
  unfold handlerMsgC
  rw [if_neg (by simpa using hne), if_neg (by simp [hformat])]

@[simp] theorem wellFormed_frame (frame : Frame) : wellFormed frame.bytes = true := by
  have hlength : (UInt8.ofNat frame.body.length).toNat = frame.body.length := by
    have hle := frame.body_le
    rw [UInt8.toNat_ofNat']
    omega
  simp [Frame.bytes, Manager.frame, wellFormed, hlength]

@[simp] theorem parts_frame (frame : Frame) :
    parts (frame.bytes ++ [0]) = some (frame.cmdType, some (frame.body ++ [0])) := by
  have hlength : UInt8.ofNat frame.body.length ≠ 0 := by
    intro hzero
    have hpos := List.length_pos_iff.mpr frame.body_ne
    have hle := frame.body_le
    have hmod := congrArg UInt8.toNat hzero
    rw [UInt8.toNat_ofNat'] at hmod
    simp only [UInt8.toNat_zero] at hmod
    omega
  simp [Frame.bytes, Manager.frame, parts, hlength]

/-- A frame in a chunk of its own goes to `RequestHandler`. -/
theorem handlerMsgC_frame (frame : Frame) : handlerMsgC requestHandler state frame.bytes =
    (requestHandler state (frame.bytes ++ [0])).map fun (ret, next) => ([UInt8.ofInt ret, 0], next) := by
  unfold handlerMsgC
  rw [if_neg (by simp [Frame.bytes, Manager.frame]), if_pos (wellFormed_frame frame)]

theorem wellFormed_iff :
    wellFormed chunk = true ↔ chunk.length = 2 ∨ ∃ frame : Frame, chunk = frame.bytes := by
  constructor
  · intro hformat
    match chunk with
    | [] => contradiction
    | [_] => contradiction
    | cmdType :: msgLen :: body =>
      by_cases hbody : body = []
      · exact .inl (by simp [hbody])
      · have hlength : msgLen.toNat = body.length := by
          simpa [wellFormed, hbody] using hformat
        have hle := msgLen.toNat_lt
        refine .inr ⟨⟨cmdType, body, hbody, by omega⟩, ?_⟩
        simp [Frame.bytes, Manager.frame, ← hlength]
  · rintro (htwo | ⟨frame, rfl⟩)
    · match chunk, htwo with
      | [_, _], _ => rfl
    · exact wellFormed_frame frame

theorem requests_deliver (hstate : (deliver requestHandler state chunks).state.isSome) :
    (deliver requestHandler state chunks).requests = buffers (taken chunks) := by
  induction chunks generalizing state with
  | nil => rfl
  | cons chunk rest ih =>
    simp only [deliver] at hstate ⊢
    split at hstate
    · contradiction
    · rename_i reply next hhandled
      simp only [ih hstate]
      rw [buffers, buffers, buffers, ← List.map_append, taken, taken, taken, ← List.filter_append]
      rfl

theorem taken_frames (frames : List Frame) :
    taken (frames.map Frame.bytes) = frames.map Frame.bytes := by
  rw [taken, List.filter_eq_self]
  intro chunk hchunk
  obtain ⟨frame, -, rfl⟩ := List.mem_map.mp hchunk
  exact wellFormed_frame frame

theorem length_taken (chunks : List Bytes) :
    (taken chunks).flatten.length ≤ chunks.flatten.length :=
  List.filter_sublist.flatten.length_le

theorem taken_eq_self (hne : ∀ chunk ∈ chunks, chunk ≠ [])
    (hbytes : (taken chunks).flatten = chunks.flatten) : taken chunks = chunks := by
  induction chunks with
  | nil => rfl
  | cons chunk rest ih =>
    have hrest := length_taken rest
    have hpos := List.length_pos_iff.mpr (hne chunk (by simp))
    simp only [taken, List.filter_cons] at ih hbytes hrest ⊢
    split at hbytes
    · rename_i hformat
      rw [List.flatten_cons, List.flatten_cons, List.append_cancel_left_eq] at hbytes
      rw [if_pos hformat, ih (fun other hother => hne other (by simp [hother])) hbytes]
    · have hlength := congrArg List.length hbytes
      rw [List.flatten_cons, List.length_append] at hlength
      omega

theorem deliver_eq_iff {frames : List Frame} (hcut : chunks.flatten = (frames.map Frame.bytes).flatten)
    (hne : ∀ chunk ∈ chunks, chunk ≠ [])
    (hstate : (deliver requestHandler state (frames.map Frame.bytes)).state.isSome) :
    deliver requestHandler state chunks = deliver requestHandler state (frames.map Frame.bytes) ↔
      chunks = frames.map Frame.bytes := by
  constructor
  · intro hsame
    have hrequests := requests_deliver (hsame ▸ hstate)
    rw [hsame, requests_deliver hstate, taken_frames] at hrequests
    have htaken : taken chunks = frames.map Frame.bytes :=
      (List.map_injective_iff.mpr (List.append_left_injective [0]) hrequests).symm
    rw [← taken_eq_self hne (by rw [htaken, hcut]), htaken]
  · rintro rfl
    rfl

/-- Each request meets what the system does at its time. -/
def numbered {World : Type*} (requestHandler : World → State → Bytes → Option (Int × State))
    (worlds : Nat → World) (state : Nat × State) (msgEx : Bytes) : Option (Int × (Nat × State)) :=
  (requestHandler (worlds state.1) state.2 msgEx).map fun (ret, next) => (ret, (state.1 + 1, next))

end

section
variable (conf : Config.Section) (clientWorlds : Nat → ProxyClient.World)
  (serverWorlds : Nat → Config.Errno × ProxyServer.World)

/-- A connection to the client. -/
def deliverClient (client : ProxyClient.Client) (chunks : List Bytes) :
    Outcome (Nat × ProxyClient.Client) :=
  deliver (numbered (ProxyClient.requestHandler conf) clientWorlds) (0, client) chunks

/-- A connection to the server. -/
def deliverServer (server : ProxyServer.Server) (chunks : List Bytes) :
    Outcome (Nat × ProxyServer.Server) :=
  deliver (numbered (fun world => ProxyServer.requestHandler world.1 world.2) serverWorlds)
    (0, server) chunks

/-- The chunks have the effect of the frames exactly when they are the frames; a
chunk that is neither a frame nor two bytes long is refused. -/
theorem frames_need_own_chunks (client : ProxyClient.Client) (server : ProxyServer.Server)
    {frames : List Frame} {chunks : List Bytes}
    (hcut : chunks.flatten = (frames.map Frame.bytes).flatten) (hne : ∀ chunk ∈ chunks, chunk ≠ []) :
    ((deliverClient conf clientWorlds client (frames.map Frame.bytes)).state.isSome →
      (deliverClient conf clientWorlds client chunks =
        deliverClient conf clientWorlds client (frames.map Frame.bytes) ↔
          chunks = frames.map Frame.bytes)) ∧
    ((deliverServer serverWorlds server (frames.map Frame.bytes)).state.isSome →
      (deliverServer serverWorlds server chunks =
        deliverServer serverWorlds server (frames.map Frame.bytes) ↔
          chunks = frames.map Frame.bytes)) ∧
    ∀ chunk ∈ chunks, chunk.length ≠ 2 → (∀ frame : Frame, chunk ≠ frame.bytes) →
      (∀ world, ProxyClient.handlerMsgC conf world client chunk =
        some ([UInt8.ofInt eFormat, 0], client)) ∧
      ∀ errno world, ProxyServer.handlerMsgC errno world server chunk =
        some ([UInt8.ofInt eFormat, 0], server) := by
  refine ⟨deliver_eq_iff hcut hne, deliver_eq_iff hcut hne, ?_⟩
  intro chunk hchunk hlength hframe
  have hformat : wellFormed chunk = false := by
    rw [← Bool.not_eq_true, wellFormed_iff]
    rintro (htwo | ⟨frame, hbytes⟩)
    · exact hlength htwo
    · exact hframe frame hbytes
  constructor
  · intro world
    exact handlerMsgC_refused (hne chunk hchunk) hformat
  · intro errno world
    exact handlerMsgC_refused (hne chunk hchunk) hformat

end

/-- A frame that deletes the app `a`. -/
def deleteFrame : Frame where
  cmdType := cmdDelect
  body := ascii "app_name=a"
  body_ne := by decide +kernel
  body_le := by decide +kernel

/-- The same bytes, the first one on its own. -/
def cutAfterOne : List Bytes := [deleteFrame.bytes.take 1, deleteFrame.bytes.drop 1]

theorem cut_frame_refused : ∃ (frames : List Frame) (chunks : List Bytes),
    chunks.flatten = (frames.map Frame.bytes).flatten ∧ (∀ chunk ∈ chunks, chunk ≠ []) ∧
    deliverClient [] (fun _ => ⟨.other, 1, true⟩) ProxyClient.new chunks ≠
      deliverClient [] (fun _ => ⟨.other, 1, true⟩) ProxyClient.new (frames.map Frame.bytes) ∧
    deliverServer (fun _ => ⟨.other, 100, 0⟩) ProxyServer.new chunks ≠
      deliverServer (fun _ => ⟨.other, 100, 0⟩) ProxyServer.new (frames.map Frame.bytes) := by
  refine ⟨[deleteFrame], cutAfterOne, by decide +kernel, by decide +kernel, ?_, ?_⟩
  · intro hsame
    have hreplies := congrArg Outcome.replies hsame
    revert hreplies
    decide +kernel
  · intro hsame
    have hreplies := congrArg Outcome.replies hsame
    revert hreplies
    decide +kernel

/-- One reply for the frame, two refusals for its parts. -/
theorem frames_need_own_chunks_cut :
    (deliverClient [] (fun _ => ⟨.other, 1, true⟩) ProxyClient.new cutAfterOne =
      deliverClient [] (fun _ => ⟨.other, 1, true⟩) ProxyClient.new [deleteFrame.bytes] ↔
        cutAfterOne = [deleteFrame.bytes]) ∧
    (deliverServer (fun _ => ⟨.other, 100, 0⟩) ProxyServer.new cutAfterOne =
      deliverServer (fun _ => ⟨.other, 100, 0⟩) ProxyServer.new [deleteFrame.bytes] ↔
        cutAfterOne = [deleteFrame.bytes]) ∧
    ∀ chunk ∈ cutAfterOne, ∀ world, ProxyClient.handlerMsgC [] world ProxyClient.new chunk =
      some ([UInt8.ofInt eFormat, 0], ProxyClient.new) := by
  have hrefused : ∀ chunk ∈ cutAfterOne, chunk.length ≠ 2 ∧ wellFormed chunk = false := by
    decide +kernel
  have hall := frames_need_own_chunks [] (fun _ => ⟨.other, 1, true⟩) (fun _ => ⟨.other, 100, 0⟩)
    ProxyClient.new ProxyServer.new (show cutAfterOne.flatten =
      ([deleteFrame].map Frame.bytes).flatten by decide +kernel) (by decide +kernel)
  refine ⟨hall.1 (by decide +kernel), hall.2.1 (by decide +kernel), ?_⟩
  intro chunk hchunk
  obtain ⟨hlength, hformat⟩ := hrefused chunk hchunk
  refine (hall.2.2 chunk hchunk hlength ?_).1
  rintro frame rfl
  rw [wellFormed_frame] at hformat
  contradiction

end UdpFileProxy.Framing
