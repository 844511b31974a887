import UdpFileProxy.Framing
import UdpFileProxy.Grammar

/-! The bodies of the command frames as the clients of the manager encode them,
and the way of a frame through `handler_msg_c`, `RequestHandler` and `Msg_parse`. -/
namespace UdpFileProxy.Encoding
open Lib Lib.Memory Lib.Fields Protocol Config Grammar Manager

def comma : UInt8 := 44

/-- None of these characters, and no blank at either end. -/
structure Clean (forbidden : List UInt8) (text : Bytes) : Prop where
  allowed : ∀ c ∈ text, c ∉ forbidden
  head : ∀ c ∈ text.head?, isSpace c = false
  last : ∀ c ∈ text.getLast?, isSpace c = false

instance (forbidden : List UInt8) (text : Bytes) : Decidable (Clean forbidden text) :=
  decidable_of_iff ((∀ c ∈ text, c ∉ forbidden) ∧ (∀ c ∈ text.head?, isSpace c = false) ∧
      ∀ c ∈ text.getLast?, isSpace c = false)
    ⟨fun ⟨allowed, head, last⟩ => ⟨allowed, head, last⟩, fun ⟨allowed, head, last⟩ =>
      ⟨allowed, head, last⟩⟩

def pairBytes (pair : Bytes × Bytes) : Bytes := pair.1 ++ equalSign :: pair.2

/-- `k1=v1,k2=v2,...`, with or without a comma at the end. -/
def encode (pairs : List (Bytes × Bytes)) (finalComma : Bool) : Bytes :=
  [comma].intercalate (pairs.map pairBytes) ++ if finalComma then [comma] else []

/-- The keys and values of a command that fit into a frame. -/
structure Command where
  pairs : List (Bytes × Bytes)
  finalComma : Bool
  distinct : (pairs.map Prod.fst).Nodup
  keys : ∀ pair ∈ pairs, 2 ≤ pair.1.length ∧ Clean [equalSign, comma, commentChar, 0] pair.1
  values : ∀ pair ∈ pairs, Clean [comma, commentChar, 0] pair.2
  body_ne : encode pairs finalComma ≠ []
  body_le : (encode pairs finalComma).length ≤ 255

def Command.body (command : Command) : Bytes := encode command.pairs command.finalComma

section
variable {fields : List Bytes} {field back : Bytes} {pair : Bytes × Bytes} {fuel : Nat}

theorem find_comma (front : Bytes) (hfield : comma ∉ field) :
    find (front ++ (field ++ comma :: back)) [comma] front.length =
      some (front.length + field.length) := by
  rw [find, List.find?_range'_eq_some]
  refine ⟨?_, ?_, ?_⟩
  · rw [← List.append_assoc, List.drop_left' (by simp)]
    simp
  · rw [List.mem_range'_1]
    simp only [List.length_append, List.length_cons]
    omega
  · intro pos hfront hpos
    obtain ⟨index, rfl⟩ := Nat.exists_eq_add_of_le hfront
    have hlt : index < field.length := by omega
    have hne : comma ≠ field[index] := by
      intro heq
      exact hfield (heq ▸ List.getElem_mem hlt)
    have hdrop : (front ++ (field ++ comma :: back)).drop (front.length + index) =
        field[index] :: (field.drop (index + 1) ++ comma :: back) := by
      rw [List.drop_append, Nat.add_sub_cancel_left, List.drop_of_length_le (by omega),
        List.nil_append, List.drop_append_of_le_length hlt.le, List.drop_eq_getElem_cons hlt,
        List.cons_append]
    rw [hdrop]
    simp [List.isPrefixOf, hne]

theorem splitLoop_fields (front : Bytes) (hfields : ∀ field ∈ fields, comma ∉ field)
    (hfuel : fields.length ≤ fuel) :
    splitLoop (front ++ (fields.map fun field => field ++ [comma]).flatten) [comma] fuel front.length =
      fields := by
  induction fields generalizing front fuel with
  | nil => cases fuel <;> simp [splitLoop]
  | cons field rest ih =>
    obtain ⟨fuel, rfl⟩ : ∃ less, fuel = less + 1 := ⟨fuel - 1, by simp at hfuel; omega⟩
    have hfield : comma ∉ field := hfields field (by simp)
    have hlength : rest.length ≤ fuel := by simpa using hfuel
    have hrest := ih (front ++ (field ++ [comma])) (fun other hother => hfields other (by simp [hother]))
      hlength
    have hstr : front ++ ((field :: rest).map fun field => field ++ [comma]).flatten =
        front ++ (field ++ comma :: (rest.map fun field => field ++ [comma]).flatten) := by
      simp
    have hnext : front.length + field.length + [comma].length - 1 + 1 =
        (front ++ (field ++ [comma])).length := by
      simp only [List.length_append, List.length_cons, List.length_nil]
      omega
    have hcut : substr (front ++ (field ++ comma :: (rest.map fun field => field ++ [comma]).flatten))
        front.length ((front.length + field.length : Nat) - front.length) = field := by
      rw [substr, if_neg (by omega), List.drop_left]
      simp
    rw [hstr, splitLoop, find_comma front hfield, if_pos (by simp)]
    dsimp only
    rw [if_pos (by simp), hnext, hcut]
    congr 1
    simpa using hrest

theorem intercalate_comma (hfields : fields ≠ []) :
    [comma].intercalate fields ++ [comma] = (fields.map fun field => field ++ [comma]).flatten := by
  induction fields with
  | nil => contradiction
  | cons field rest ih =>
    cases rest with
    | nil => simp
    | cons second others =>
      rw [List.intercalate_cons_cons, List.append_assoc, ih (by simp)]
      simp

theorem split_intercalate (hne : fields ≠ []) (hfields : ∀ field ∈ fields, comma ∉ field) :
    split ([comma].intercalate fields) [comma] = fields := by
  have hrounds : fields.length ≤ ([comma].intercalate fields ++ [comma]).length := by
    rw [intercalate_comma hne]
    clear hfields hne
    induction fields with
    | nil => simp
    | cons field rest ih =>
      simp only [List.map_cons, List.flatten_cons, List.length_append, List.length_cons] at ih ⊢
      omega
  have hloop := splitLoop_fields [] hfields hrounds
  rw [split]
  rw [List.nil_append, ← intercalate_comma hne] at hloop
  exact hloop

theorem analyseLine_pair (hkey : Clean [equalSign, comma, commentChar, 0] pair.1)
    (htwo : 2 ≤ pair.1.length) (hvalue : Clean [comma, commentChar, 0] pair.2) :
    analyseLine (pairBytes pair) = some pair := by
  have hbody : body (pairBytes pair) = pairBytes pair := by
    apply takeWhile_of_notMem
    rw [pairBytes, List.mem_append, List.mem_cons, not_or, not_or]
    exact ⟨fun hmem => hkey.allowed _ hmem (by simp), by decide, fun hmem => hvalue.allowed _ hmem (by simp)⟩
  have hequal : equalSign ∉ pair.1 := fun hmem => hkey.allowed _ hmem (by simp)
  have hlong : 3 ≤ (body (pairBytes pair)).length := by
    rw [hbody, pairBytes]
    simp only [List.length_append, List.length_cons]
    omega
  have hline : analyseLine (pairBytes pair) = keyValue (pairBytes pair) := by
    rw [analyseLine_long hlong, hbody]
    simp [pairBytes]
  have hnonblank : ¬∀ c ∈ pair.1, isSpace c = true := by
    intro hblank
    cases hfirst : pair.1 with
    | nil => simp [hfirst] at htwo
    | cons first rest =>
      have hspace := hkey.head first (by simp [hfirst])
      rw [hblank first (by simp [hfirst])] at hspace
      contradiction
  rw [hline, keyValue_of_body hbody hequal, if_neg hnonblank, strip_eq_self hkey.head hkey.last,
    strip_eq_self hvalue.head hvalue.last]

theorem foldl_pairs {pairs : List (Bytes × Bytes)} (mSection : Section)
    (hpairs : ∀ pair ∈ pairs, analyseLine (pairBytes pair) = some pair) :
    (pairs.map pairBytes).foldl (fun mSection line => (analyseLine line).toList ++ mSection) mSection =
      pairs.reverse ++ mSection := by
  induction pairs generalizing mSection with
  | nil => rfl
  | cons pair rest ih =>
    rw [List.map_cons, List.foldl_cons, hpairs pair (by simp),
      ih _ fun other hother => hpairs other (by simp [hother])]
    simp

theorem lookup_reverse {pairs : List (Bytes × Bytes)} (h : (pairs.map Prod.fst).Nodup) (key : Bytes) :
    pairs.reverse.lookup key = pairs.lookup key := by
  have hreverse : (pairs.reverse.map Prod.fst).Nodup := by
    rwa [List.map_reverse, List.nodup_reverse]
  apply Option.ext
  intro value
  rw [lookup_eq_some hreverse, lookup_eq_some h, List.mem_reverse]

theorem intercalate_final (hne : fields ≠ []) :
    [comma].intercalate (fields ++ [[]]) = [comma].intercalate fields ++ [comma] := by
  induction fields with
  | nil => contradiction
  | cons field rest ih =>
    cases rest with
    | nil => simp [List.intercalate_cons_cons]
    | cons second others =>
      rw [List.cons_append, List.cons_append, List.intercalate_cons_cons, List.intercalate_cons_cons,
        ← List.cons_append, ih (by simp)]
      simp

end

namespace Command
variable (command : Command)

/-- The fields that `split` finds; a comma at the end leaves an empty one behind. -/
def fields : List Bytes :=
  (if command.pairs = [] then [[]] else command.pairs.map pairBytes) ++
    if command.finalComma then [[]] else []

theorem body_eq_intercalate : command.body = [comma].intercalate command.fields := by
  have hhead : (if command.pairs = [] then [[]] else command.pairs.map pairBytes) ≠ [] := by
    split <;> simp_all
  have hpairs : [comma].intercalate (if command.pairs = [] then [[]] else command.pairs.map pairBytes) =
      [comma].intercalate (command.pairs.map pairBytes) := by
    split <;> simp_all
  unfold body encode fields
  split
  · rw [intercalate_final hhead, hpairs]
  · rw [List.append_nil, List.append_nil, hpairs]

theorem fields_ne : command.fields ≠ [] := by
  unfold fields
  split <;> simp_all

theorem notMem_fields {c : UInt8} (hc : c = comma ∨ c = 0) : ∀ field ∈ command.fields, c ∉ field := by
  have hpairs : ∀ pair ∈ command.pairs, c ∉ pairBytes pair := by
    intro pair hpair
    have hequal : c ≠ equalSign := by
      rcases hc with rfl | rfl <;> decide
    have hkey : c ∉ pair.1 := by
      intro hmem
      exact (command.keys pair hpair).2.allowed c hmem (by rcases hc with rfl | rfl <;> simp)
    have hvalue : c ∉ pair.2 := by
      intro hmem
      exact (command.values pair hpair).allowed c hmem (by rcases hc with rfl | rfl <;> simp)
    simp [pairBytes, hkey, hvalue, hequal]
  intro field hfield
  unfold fields at hfield
  rcases List.mem_append.mp hfield with hfield | hfield
  · split at hfield
    · rw [List.mem_singleton.mp hfield]
      simp
    · obtain ⟨pair, hpair, rfl⟩ := List.mem_map.mp hfield
      exact hpairs pair hpair
  · split at hfield
    · rw [List.mem_singleton.mp hfield]
      simp
    · contradiction

theorem confPraseLine_body : confPraseLine command.body (ascii ",") = command.pairs.reverse := by
  have hcomma : ascii "," = [comma] := by decide +kernel
  have hpairs : (command.pairs.map pairBytes).foldl
      (fun mSection line => (analyseLine line).toList ++ mSection) [] = command.pairs.reverse ++ [] := by
    apply foldl_pairs
    intro pair hpair
    exact analyseLine_pair (command.keys pair hpair).2 (command.keys pair hpair).1
      (command.values pair hpair)
  have hfold : command.fields.foldl (fun mSection line => (analyseLine line).toList ++ mSection) [] =
      command.pairs.reverse := by
    unfold fields
    rw [List.foldl_append]
    by_cases hpairs' : command.pairs = []
    · rw [if_pos hpairs', hpairs']
      split <;> rfl
    · rw [if_neg hpairs', hpairs, List.append_nil]
      split <;> rfl
  rw [confPraseLine, hcomma, body_eq_intercalate,
    split_intercalate command.fields_ne (command.notMem_fields (.inl rfl)), hfold]

theorem zero_notMem_body : 0 ∉ command.body := by
  intro hmem
  have hfields := List.mem_append_left [comma] hmem
  rw [body_eq_intercalate, intercalate_comma command.fields_ne, List.mem_flatten] at hfields
  obtain ⟨_, hmapped, hzero⟩ := hfields
  obtain ⟨field, hfield, rfl⟩ := List.mem_map.mp hmapped
  rcases List.mem_append.mp hzero with hzero | hzero
  · exact command.notMem_fields (.inr rfl) field hfield hzero
  · exact absurd hzero (by decide)

theorem msgParse_body : msgParse (some (command.body ++ [0])) = some command.pairs.reverse := by
  have hcstr : cstr (command.body ++ [0]) = command.body := takeWhile_separator command.zero_notMem_body
  rw [msgParse, Option.map_some, hcstr, confPraseLine_body]

theorem confGetString_pair {pair : Bytes × Bytes} (hpair : pair ∈ command.pairs) :
    confGetString command.pairs.reverse pair.1 = pair.2 := by
  have hlookup : command.pairs.lookup pair.1 = some pair.2 :=
    (lookup_eq_some command.distinct).mpr hpair
  rw [confGetString, lookup_reverse command.distinct, hlookup]
  rfl

theorem confGetString_other {key : Bytes} (hkey : key ∉ command.pairs.map Prod.fst) :
    confGetString command.pairs.reverse key = [] := by
  have hlookup : command.pairs.lookup key = none := by
    rw [List.lookup_eq_none_iff]
    intro pair hpair
    have hne : key ≠ pair.1 := fun heq => hkey (heq ▸ List.mem_map_of_mem hpair)
    simpa using hne
  rw [confGetString, lookup_reverse command.distinct, hlookup]
  rfl

/-- The frame that carries the command. -/
def frame (cmdType : UInt8) : Framing.Frame :=
  ⟨cmdType, command.body, command.body_ne, command.body_le⟩

end Command

/-- The commands that `ProxyClient::RequestHandler` has a branch for. -/
inductive ClientCommand where
  | register
  | addFile
  | delect
  deriving DecidableEq, Repr

namespace ClientCommand
open ProxyClient

def cmdType : ClientCommand → UInt8
  | register => cmdRegister
  | addFile => cmdAddFile
  | delect => cmdDelect

theorem cmdType_injective : Function.Injective cmdType := by
  intro left right
  cases left <;> cases right <;> decide

/-- The branch of the command, once its message is parsed. -/
def branch (conf : Section) (world : World) (client : Client) (helper : Section) :
    ClientCommand → Option (Int × Client)
  | register =>
      if (client.heap world.memory).isSome then none
      else
        addApp { client with
          heap := Function.update client.heap world.memory
            (some ⟨registration conf world.errno helper, none⟩)
          nodes := client.nodes + 1 } world.memory world.created
  | addFile =>
      addSendFile client (confGetString helper (ascii "app_name"))
        (confGetString helper (ascii "file_name")) (confGetBool helper (ascii "delect")) world.memory
  | delect => delApp client (confGetString helper (ascii "app_name")) delNow

theorem requestHandler_eq {conf : Section} {world : World} {client : Client} {msgEx msg : Bytes}
    (command : ClientCommand) (hparts : parts msgEx = some (command.cmdType, some msg)) :
    requestHandler conf world client msgEx =
      command.branch conf world client (confPraseLine (cstr msg) (ascii ",")) := by
  cases command with
  | register => simp [requestHandler, hparts, cmdType, msgParse, branch]
  | addFile =>
    simp [requestHandler, hparts, cmdType, msgParse, branch,
      show cmdAddFile ≠ cmdRegister by decide]
  | delect =>
    simp [requestHandler, hparts, cmdType, msgParse, branch,
      show cmdDelect ≠ cmdRegister by decide, show cmdDelect ≠ cmdAddFile by decide]

theorem requestHandler_null {conf : Section} {world : World} {client : Client} {msgEx : Bytes}
    (command : ClientCommand) (hparts : parts msgEx = some (command.cmdType, none)) :
    requestHandler conf world client msgEx = none := by
  cases command with
  | register => simp [requestHandler, hparts, cmdType, msgParse]
  | addFile =>
    simp [requestHandler, hparts, cmdType, msgParse, show cmdAddFile ≠ cmdRegister by decide]
  | delect =>
    simp [requestHandler, hparts, cmdType, msgParse, show cmdDelect ≠ cmdRegister by decide,
      show cmdDelect ≠ cmdAddFile by decide]

theorem requestHandler_unknown {conf : Section} {world : World} {client : Client} {msgEx : Bytes}
    {byte : UInt8} {body : Option Bytes} (hparts : parts msgEx = some (byte, body))
    (h : ∀ command : ClientCommand, command.cmdType ≠ byte) :
    requestHandler conf world client msgEx = some (eOk, client) := by
  have hregister : byte ≠ cmdRegister := (h .register).symm
  have haddFile : byte ≠ cmdAddFile := (h .addFile).symm
  have hdelect : byte ≠ cmdDelect := (h .delect).symm
  simp only [requestHandler, hparts]
  rw [if_neg hregister, if_neg haddFile, if_neg hdelect]

end ClientCommand

/-- The commands that `ProxyServer::RequestHandler` has a branch for. -/
inductive ServerCommand where
  | register
  | delect
  deriving DecidableEq, Repr

namespace ServerCommand
open ProxyServer

def cmdType : ServerCommand → UInt8
  | register => cmdRegister
  | delect => cmdDelect

theorem cmdType_injective : Function.Injective cmdType := by
  intro left right
  cases left <;> cases right <;> decide

/-- The first step of the branch of the command, once its message is parsed. -/
def branch (errno : Errno) (helper : Section) : ServerCommand → Main
  | register =>
      if (checkServerAddInfo helper errno).1 then
        .registerCount (confGetString helper (ascii "app_name")) helper
      else .done eBadCmd
  | delect =>
      if (confGetString helper (ascii "app_name")).isEmpty then .done eBadCmd
      else .deleteCount (confGetString helper (ascii "app_name"))

theorem decode_eq {errno : Errno} {msgEx msg : Bytes} (command : ServerCommand)
    (hparts : parts msgEx = some (command.cmdType, some msg)) :
    decode errno msgEx = some (command.branch errno (confPraseLine (cstr msg) (ascii ","))) := by
  cases command with
  | register => simp [decode, hparts, cmdType, msgParse, branch]
  | delect =>
    simp [decode, hparts, cmdType, msgParse, branch, show cmdDelect ≠ cmdRegister by decide]

theorem decode_null {errno : Errno} {msgEx : Bytes} (command : ServerCommand)
    (hparts : parts msgEx = some (command.cmdType, none)) : decode errno msgEx = none := by
  cases command with
  | register => simp [decode, hparts, cmdType, msgParse]
  | delect =>
    simp [decode, hparts, cmdType, msgParse, show cmdDelect ≠ cmdRegister by decide]

theorem decode_unknown {errno : Errno} {msgEx : Bytes} {byte : UInt8} {body : Option Bytes}
    (hparts : parts msgEx = some (byte, body)) (h : ∀ command : ServerCommand, command.cmdType ≠ byte) :
    decode errno msgEx = some (.done eOk) := by
  have hregister : byte ≠ cmdRegister := (h .register).symm
  have hdelect : byte ≠ cmdDelect := (h .delect).symm
  simp only [decode, hparts]
  rw [if_neg hregister, if_neg hdelect]

end ServerCommand

/-- The bytes that `handler_msg_c` sends back, with the new state. -/
def replied {State : Type*} (handled : Int × State) : Bytes × State :=
  ([UInt8.ofInt handled.1, 0], handled.2)

/-- A command that is encoded and delivered in one chunk comes to the branch of its
command byte, with exactly the pairs that were encoded. -/
theorem command_received (command : Command) : ∃ helper,
    msgParse (some (command.body ++ [0])) = some helper ∧
    (∀ pair ∈ command.pairs, confGetString helper pair.1 = pair.2) ∧
    (∀ key ∉ command.pairs.map Prod.fst, confGetString helper key = []) ∧
    (∀ (sent : ClientCommand) conf world client,
      ProxyClient.handlerMsgC conf world client (command.frame sent.cmdType).bytes =
        (sent.branch conf world client helper).map replied) ∧
    ∀ (sent : ServerCommand) errno world server,
      ProxyServer.handlerMsgC errno world server (command.frame sent.cmdType).bytes =
        (ProxyServer.finish world 6 { server with main := sent.branch errno helper }).map replied := by
  have hparse := command.msgParse_body
  have hhelper : confPraseLine (cstr (command.body ++ [0])) (ascii ",") = command.pairs.reverse :=
    Option.some.inj hparse
  refine ⟨command.pairs.reverse, hparse, fun pair hpair => command.confGetString_pair hpair,
    fun key hkey => command.confGetString_other hkey, ?_, ?_⟩
  · intro sent conf world client
    rw [ProxyClient.handlerMsgC, Framing.handlerMsgC_frame,
      sent.requestHandler_eq (Framing.parts_frame _), ← hhelper]
    rfl
  · intro sent errno world server
    rw [ProxyServer.handlerMsgC, Framing.handlerMsgC_frame, ProxyServer.requestHandler,
      sent.decode_eq (Framing.parts_frame _), ← hhelper]
    rfl

/-- Three pairs, one with an equal sign in its value, and a comma behind the last one. -/
def threePairs : Command where
  pairs := [(ascii "app", ascii "a"), (ascii "dir1", ascii "b=c"), (ascii "stat", ascii "ok")]
  finalComma := true
  distinct := by decide +kernel
  keys := by decide +kernel
  values := by decide +kernel
  body_ne := by decide +kernel
  body_le := by decide +kernel

theorem command_received_threePairs : ∃ helper,
    msgParse (some (ascii "app=a,dir1=b=c,stat=ok," ++ [0])) = some helper ∧
      confGetString helper (ascii "dir1") = ascii "b=c" ∧
      confGetString helper (ascii "dir2") = [] := by
  obtain ⟨helper, hparse, hpairs, hother, -⟩ := command_received threePairs
  have hbody : threePairs.body = ascii "app=a,dir1=b=c,stat=ok," := by decide +kernel
  rw [hbody] at hparse
  exact ⟨helper, hparse, hpairs (ascii "dir1", ascii "b=c") (by decide +kernel),
    hother _ (by decide +kernel)⟩

end UdpFileProxy.Encoding
