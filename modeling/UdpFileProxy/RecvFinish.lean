import UdpFileProxy.FileProcess
import UdpFileProxy.Hostile
import UdpFileProxy.ProxyServer

/-! `Recv_Finish`: the final path of a received file and the notice that names it, in
arrays of 256 bytes. -/
namespace UdpFileProxy.RecvFinish
open Lib Lib.Memory Config FileProcess
open ProxyServer (checkServerAddInfo)

/-- The fields of `share_info` that `Recv_Finish` reads, apart from the lock, the socket
and its address. -/
structure ShareInfo where
  dir2 : Bytes
  appName : Bytes
  moveFile : Int
  deriving DecidableEq, Repr

/-- Size of `filename`, `des` and `echo_msg`. -/
def arraySize : Nat := 256

/-- `sprintf` or `strcpy` of a string into one of the arrays. -/
def stored (text : Bytes) : Option Bytes :=
  if text.length < arraySize then some text else none

/-- The path that is announced. -/
def desOf (info : ShareInfo) (filename : Bytes) : Option Bytes :=
  if info.moveFile > 0 then
    stored (info.dir2 ++ [47] ++ info.appName ++ [47] ++ basename filename)
  else stored filename

/-- The bytes of `echo_msg` that are sent, when `memcpy` stays inside it. -/
def echoMsg (des : Bytes) : Option Bytes :=
  if 2 + des.length ≤ arraySize then some (0x00 :: UInt8.ofNat des.length :: des) else none

/-- From the argument to the notice, whatever the move between them does. -/
def notice (info : ShareInfo) (args : Bytes) : Option Bytes := do
  let filename ← stored args
  let des ← desOf info filename
  echoMsg des

/-- How a receiver takes the path from a notice. -/
def decodeNotice (message : Bytes) : Option Bytes :=
  match message with
  | 0x00 :: length :: path => if path.length = length.toNat then some path else none
  | _ => none

/-- The notice names the path. -/
structure Names (message path : Bytes) : Prop where
  layout : ∃ length : UInt8, message = 0x00 :: length :: path ∧ length.toNat = path.length
  decoded : decodeNotice message = some path

/-- Where a file of this name is in the end. -/
def finalPath (info : Info) (dir2 : Bytes) (moveFile : Int) (fileName : Bytes) : Bytes :=
  if moveFile > 0 then dir2 ++ [47] ++ info.appName ++ [47] ++ basename (cstr fileName)
  else savePathOf info fileName

/-- The directories and the name of an app as its registration brought them, and a name
that a file system takes. -/
structure Admissible (info : Info) (dir2 fileName : Bytes) : Prop where
  registered : ∃ body errno, body.length ≤ 255 ∧
    (checkServerAddInfo (confPraseLine (cstr body) (ascii ",")) errno).1 = true ∧
    info.dir1 = confGetString (confPraseLine (cstr body) (ascii ",")) (ascii "dir1") ∧
    dir2 = confGetString (confPraseLine (cstr body) (ascii ",")) (ascii "dir2") ∧
    info.appName = confGetString (confPraseLine (cstr body) (ascii ",")) (ascii "app_name")
  component : basename (cstr fileName) ∉ [[47], [46], [46, 46]]
  short : (basename (cstr fileName)).length ≤ 255

section
variable {info : Info} {dir2 fileName path des message text : Bytes} {moveFile : Int}

theorem stored_eq_some : stored text = some path ↔ text.length ≤ 255 ∧ text = path := by
  unfold stored arraySize
  split
  · rename_i hlt
    simp only [Option.some.injEq]
    exact (and_iff_right (by omega)).symm
  · rename_i hge
    exact iff_of_false (by simp) fun hall => hge (by omega)

theorem basename_savePathOf (hname : basename (cstr fileName) ≠ [47]) :
    basename (savePathOf info fileName) = basename (cstr fileName) := by
  obtain ⟨hne, hnot⟩ := (Hostile.basename_cases (cstr fileName)).resolve_left hname
  have hpath : savePathOf info fileName =
      (info.dir1 ++ [47] ++ info.appName) ++ [47] ++ basename (cstr fileName) := rfl
  generalize basename (cstr fileName) = base at hpath hne hnot ⊢
  have htrimmed : (savePathOf info fileName).rdropWhile (· = 47) = savePathOf info fileName := by
    rw [List.rdropWhile_eq_self_iff, hpath]
    intro hpath
    rw [List.getLast_append_of_ne_nil hpath hne, decide_eq_true_eq]
    intro hslash
    exact hnot (hslash ▸ List.getLast_mem hne)
  have hnonempty : savePathOf info fileName ≠ [] := by simp [hpath]
  rw [basename, if_neg hnonempty]
  dsimp only
  rw [htrimmed, if_neg hnonempty, hpath]
  exact Hostile.rtakeWhile_component _ hnot

theorem names_echoMsg (hle : des.length ≤ 254) :
    ∃ message, echoMsg des = some message ∧ Names message des := by
  have hbyte : (UInt8.ofNat des.length).toNat = des.length := by
    rw [UInt8.toNat_ofNat', Nat.mod_eq_of_lt (by omega)]
  refine ⟨0x00 :: UInt8.ofNat des.length :: des, ?_, ⟨_, rfl, hbyte⟩, ?_⟩
  · rw [echoMsg, if_pos (by rw [arraySize]; omega)]
  · rw [decodeNotice, if_pos hbyte.symm]

theorem decode_echoMsg (h : echoMsg des = some message) : decodeNotice message = some des := by
  have hle : des.length ≤ 254 := by
    unfold echoMsg arraySize at h
    split at h
    · omega
    · contradiction
  obtain ⟨_, hecho, hnames⟩ := names_echoMsg hle
  cases h.symm.trans hecho
  exact hnames.decoded

/-- The notice of a file is well formed, and everything on the way to it inside its array,
exactly when `save_path` has at most 255 bytes and the final path at most 254. -/
theorem announces_exactly (info : Info) (dir2 : Bytes) (moveFile : Int)
    (hname : basename (cstr fileName) ≠ [47]) :
    (∃ message, notice ⟨dir2, info.appName, moveFile⟩ (savePathOf info fileName) = some message ∧
      Names message (finalPath info dir2 moveFile fileName)) ↔
    (savePathOf info fileName).length ≤ 255 ∧
      (finalPath info dir2 moveFile fileName).length ≤ 254 := by
  have hdes : desOf ⟨dir2, info.appName, moveFile⟩ (savePathOf info fileName) =
      stored (finalPath info dir2 moveFile fileName) := by
    rw [desOf, basename_savePathOf hname, finalPath]
    split <;> rfl
  generalize finalPath info dir2 moveFile fileName = final at hdes ⊢
  constructor
  · rintro ⟨message, hnotice, -⟩
    obtain ⟨filename, hfilename, hrest⟩ := Option.bind_eq_some_iff.mp hnotice
    obtain ⟨hsave, rfl⟩ := stored_eq_some.mp hfilename
    rw [hdes] at hrest
    obtain ⟨des, hstored, hecho⟩ := Option.bind_eq_some_iff.mp hrest
    obtain ⟨-, rfl⟩ := stored_eq_some.mp hstored
    refine ⟨hsave, ?_⟩
    unfold echoMsg arraySize at hecho
    split at hecho
    · omega
    · contradiction
  · rintro ⟨hsave, hfinal⟩
    obtain ⟨message, hecho, hnames⟩ := names_echoMsg hfinal
    have hfilename : stored (savePathOf info fileName) = some (savePathOf info fileName) :=
      stored_eq_some.mpr ⟨hsave, rfl⟩
    have hstored : stored final = some final := stored_eq_some.mpr ⟨by omega, rfl⟩
    refine ⟨message, ?_, hnames⟩
    rw [notice, hfilename, Option.bind_eq_bind, Option.bind_some, hdes, hstored, Option.bind_some]
    exact hecho

end

/-- The body of a registration with the shortest names. -/
def shortest : Bytes :=
  ascii "app_name=a,server_ip=i,message_ip=i,dir1=b,dir2=c,server_port=1,message_port=2"

/-- The app of that registration. -/
def shortestInfo : Info := ⟨.little, ascii "b", ascii "a"⟩

/-- A name of 255 bytes. -/
def longest : Bytes := List.replicate 255 97

theorem admissible_shortest {fileName : Bytes}
    (hcomponent : basename (cstr fileName) ∉ [[47], [46], [46, 46]])
    (hshort : (basename (cstr fileName)).length ≤ 255) :
    Admissible shortestInfo (ascii "c") fileName where
  registered := ⟨shortest, .other, by decide +kernel, by decide +kernel, by decide +kernel,
    by decide +kernel, by decide +kernel⟩
  component := hcomponent
  short := hshort

/-- A file whose name has 255 bytes overflows `filename`. -/
theorem long_name : Admissible shortestInfo (ascii "c") longest ∧
    ¬∃ message, notice ⟨ascii "c", shortestInfo.appName, 0⟩ (savePathOf shortestInfo longest) =
        some message ∧ Names message (finalPath shortestInfo (ascii "c") 0 longest) := by
  refine ⟨admissible_shortest (by decide +kernel) (by decide +kernel), ?_⟩
  rintro ⟨message, hnotice, -⟩
  have hnone : notice ⟨ascii "c", shortestInfo.appName, 0⟩ (savePathOf shortestInfo longest) =
      none := by
    decide +kernel
  rw [hnone] at hnotice
  contradiction

theorem announces_exactly_moved : ∃ message,
    notice ⟨ascii "c", shortestInfo.appName, 1⟩ (savePathOf shortestInfo (ascii "f")) = some message ∧
      Names message (finalPath shortestInfo (ascii "c") 1 (ascii "f")) := by
  have hname : basename (cstr (ascii "f")) ≠ [47] := by decide +kernel
  exact (announces_exactly shortestInfo (ascii "c") 1 hname).mpr (by decide +kernel)

end UdpFileProxy.RecvFinish
