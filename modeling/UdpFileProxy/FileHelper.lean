import UdpFileProxy.Lib.Memory
import UdpFileProxy.Lib.Run
import Mathlib.Logic.Function.Basic

/-! `file_helper_move` of `file_helper.c` as a machine that makes one system call at
a time, with the contents that it finds under its two names. -/
namespace UdpFileProxy.FileHelper
open Lib.Memory Lib.Run

def bufferSize : Nat := 2048

/-- What `read` or `write` returns: a count, or -1 with `EINTR` or another `errno`. -/
inductive Outcome where
  | done (count : Nat)
  | interrupted
  | failed
  deriving DecidableEq, Repr

inductive Reply where
  | rename (succeeded : Bool)
  | openSrc (opened : Bool)
  | openDes (opened : Bool)
  | read (outcome : Outcome)
  | write (outcome : Outcome)
  | unlink (succeeded : Bool)
  deriving DecidableEq, Repr

/-- The call that is next. `write` has the bytes from `ptr` on, `bytes_read` of them. -/
inductive Pc where
  | rename
  | openSrc
  | openDes
  | read
  | write (rest : Bytes)
  | unlink
  | returned (ret : Int)
  deriving DecidableEq, Repr

/-- The contents under the two names, and the offsets of the two descriptors. -/
structure State where
  src : Option Bytes
  des : Option Bytes
  fromPos : Nat
  toPos : Nat
  pc : Pc
  deriving DecidableEq, Repr

def start (src : Bytes) (des : Option Bytes) : State where
  src := some src
  des := des
  fromPos := 0
  toPos := 0
  pc := .rename

/-- A file after a write at an offset that is not behind its end. -/
def overwrite (content : Bytes) (pos : Nat) (bytes : Bytes) : Bytes :=
  content.take pos ++ bytes ++ content.drop (pos + bytes.length)

/-- The end of `file_helper_copy`. -/
def copied (state : State) (ret : Int) : State :=
  { state with pc := if ret = 0 then .unlink else .returned ret }

/-- One call with its reply. `read` gives 0 at the end of the file only, and `write`
takes at least one of the bytes. -/
def step (state : State) (reply : Reply) : Option State :=
  match state.pc, reply with
  | .rename, .rename succeeded =>
      some (if succeeded then { state with src := none, des := state.src, pc := .returned 0 }
        else { state with pc := .openSrc })
  | .openSrc, .openSrc opened =>
      some (if opened then { state with fromPos := 0, pc := .openDes } else copied state (-1))
  | .openDes, .openDes opened =>
      -- `O_WRONLY | O_CREAT`: what the file holds already stays in it
      some (if opened then { state with des := some (state.des.getD []), toPos := 0, pc := .read }
        else copied state (-1))
  | .read, .read .interrupted => some state
  | .read, .read .failed => some (copied state (-1))
  | .read, .read (.done count) =>
      state.src.bind fun content =>
        let bytes := (content.drop state.fromPos).take count
        if count ≤ bufferSize ∧ bytes.length = count ∧ (count = 0 → content.length ≤ state.fromPos) then
          some (if count = 0 then copied state 0
            else { state with fromPos := state.fromPos + count, pc := .write bytes })
        else none
  | .write _, .write .interrupted => some state
  | .write _, .write .failed => some (copied state (-1))
  | .write rest, .write (.done count) =>
      state.des.bind fun content =>
        if 0 < count ∧ count ≤ rest.length then
          some { state with
            des := some (overwrite content state.toPos (rest.take count))
            toPos := state.toPos + count
            pc := if count = rest.length then .read else .write (rest.drop count) }
        else none
  | .unlink, .unlink succeeded =>
      some { state with src := if succeeded then none else state.src, pc := .returned 0 }
  | _, _ => none

/-- The calls that leave both contents. -/
def Quiet : Reply → Prop
  | .rename true | .openDes true | .write (.done _) | .unlink true => False
  | _ => True

/-- A failure that `file_helper_copy` reports. -/
def Fatal : Reply → Prop
  | .openSrc opened => opened = false
  | .openDes opened => opened = false
  | .read outcome => outcome = .failed
  | .write outcome => outcome = .failed
  | _ => False

/-- The move gave an exact copy, or left the source where it is. -/
structure Exact (content : Bytes) (state : State) : Prop where
  copied : state.pc = .returned 0 → state.des = some content
  kept : state.pc ≠ .returned 0 → state.src = some content

/-- The destination when this many bytes are copied over what it held. -/
def merged (content : Bytes) (old : Option Bytes) (pos : Nat) : Bytes :=
  content.take pos ++ (old.getD []).drop pos

/-- The rename has failed, and nothing else has. -/
def Clean (past : List Reply) : Prop := ∀ reply ∈ past, reply ≠ .rename true ∧ ¬Fatal reply

/-- Both descriptors are where they should be, and `rest` is between them. -/
structure Copying (content : Bytes) (old : Option Bytes) (state : State) (rest : Bytes) : Prop where
  des : state.des = some (merged content old state.toPos)
  between : rest = (content.drop state.toPos).take rest.length
  fromPos : state.fromPos = state.toPos + rest.length
  le : state.fromPos ≤ content.length

/-- How far the move has come. -/
inductive Stage (content : Bytes) (old : Option Bytes) (past : List Reply) (state : State) : Prop where
  | rename (hpc : state.pc = .rename) (hsrc : state.src = some content) (hdes : state.des = old)
      (hpos : state.fromPos = 0) (hpast : Clean past)
  | opening (hpc : state.pc = .openSrc ∨ state.pc = .openDes) (hsrc : state.src = some content)
      (hdes : state.des = old) (hpos : state.fromPos = 0) (hpast : Clean past)
  | read (hpc : state.pc = .read) (hsrc : state.src = some content) (hpast : Clean past)
      (hcopying : Copying content old state [])
  | write {rest} (hpc : state.pc = .write rest) (hrest : rest ≠ []) (hsrc : state.src = some content)
      (hpast : Clean past) (hcopying : Copying content old state rest)
  | unlink (hpc : state.pc = .unlink) (hsrc : state.src = some content) (hpast : Clean past)
      (hdes : state.des = some (merged content old content.length))
  | renamed (hpc : state.pc = .returned 0) (hpast : Reply.rename true ∈ past)
      (hdes : state.des = some content)
  | moved (hpc : state.pc = .returned 0) (hpast : Clean past)
      (hdes : state.des = some (merged content old content.length))
  | failed {ret} (hpc : state.pc = .returned ret) (hret : ret ≠ 0) (hsrc : state.src = some content)
      (hpast : ∃ reply ∈ past, Fatal reply)

section
variable {content bytes rest : Bytes} {old : Option Bytes} {past replies : List Reply}
  {state next final : State} {reply : Reply} {pos count : Nat}

theorem clean_append (hpast : Clean past) (hreply : reply ≠ .rename true ∧ ¬Fatal reply) :
    Clean (past ++ [reply]) := by
  intro other hother
  rcases List.mem_append.mp hother with hold | hnew
  · exact hpast other hold
  · rw [List.mem_singleton.mp hnew]
    exact hreply

@[simp] theorem merged_zero (content : Bytes) (old : Option Bytes) : merged content old 0 = old.getD [] := by
  simp [merged]

@[simp] theorem merged_length :
    merged content old content.length = content ++ (old.getD []).drop content.length := by
  rw [merged, List.take_length]

theorem overwrite_merged (hbytes : bytes = (content.drop pos).take bytes.length)
    (hle : pos ≤ content.length) :
    overwrite (merged content old pos) pos bytes = merged content old (pos + bytes.length) := by
  have hlength : (content.take pos).length = pos := List.length_take_of_le hle
  have htake : (merged content old pos).take pos = content.take pos := by
    rw [merged, List.take_append_of_le_length (le_of_eq hlength.symm), List.take_take, min_self]
  have hdrop : (merged content old pos).drop (pos + bytes.length) =
      (old.getD []).drop (pos + bytes.length) := by
    rw [merged, List.drop_append, hlength, List.drop_eq_nil_of_le (by omega), List.nil_append,
      List.drop_drop]
    congr 1
    omega
  rw [overwrite, htake, hdrop, merged, List.take_add, ← hbytes]

theorem renames_first (hstep : FileHelper.step state reply = some next) : next.pc ≠ .rename := by
  have hcopied (ret : Int) : (copied state ret).pc ≠ .rename := by
    dsimp only [copied]
    split <;> simp
  unfold FileHelper.step at hstep
  split at hstep
  · -- rename
    cases hstep
    split <;> simp
  · -- openSrc
    cases hstep
    split
    · simp
    · exact hcopied _
  · -- openDes
    cases hstep
    split
    · simp
    · exact hcopied _
  · -- an interrupted read
    rename_i hpc
    cases hstep
    simp [hpc]
  · cases hstep
    exact hcopied _
  · -- read
    obtain ⟨content, -, hread⟩ := Option.bind_eq_some_iff.mp hstep
    obtain ⟨-, hnext⟩ := Option.ite_none_right_eq_some.mp hread
    cases hnext
    split
    · exact hcopied _
    · simp
  · -- an interrupted write
    rename_i hpc
    cases hstep
    simp [hpc]
  · cases hstep
    exact hcopied _
  · -- write
    obtain ⟨content, -, hwrite⟩ := Option.bind_eq_some_iff.mp hstep
    obtain ⟨-, hnext⟩ := Option.ite_none_right_eq_some.mp hwrite
    cases hnext
    dsimp only
    split <;> simp
  · -- unlink
    cases hstep
    simp
  · contradiction

theorem step_quiet (hquiet : Quiet reply)
    (hstep : FileHelper.step state reply = some next) :
    next.src = state.src ∧ next.des = state.des := by
  unfold FileHelper.step at hstep
  split at hstep
  · -- rename
    rename_i succeeded _
    cases succeeded with
    | true => exact hquiet.elim
    | false =>
      cases hstep
      exact ⟨rfl, rfl⟩
  · -- openSrc
    cases hstep
    split <;> exact ⟨rfl, rfl⟩
  · -- openDes
    rename_i opened _
    cases opened with
    | true => exact hquiet.elim
    | false =>
      cases hstep
      exact ⟨rfl, rfl⟩
  · cases hstep
    exact ⟨rfl, rfl⟩
  · cases hstep
    exact ⟨rfl, rfl⟩
  · -- read
    obtain ⟨content, -, hnext⟩ := Option.bind_eq_some_iff.mp hstep
    rw [Option.ite_none_right_eq_some] at hnext
    obtain ⟨-, hnext⟩ := hnext
    split at hnext <;> cases hnext <;> exact ⟨rfl, rfl⟩
  · cases hstep
    exact ⟨rfl, rfl⟩
  · cases hstep
    exact ⟨rfl, rfl⟩
  · -- write
    exact hquiet.elim
  · -- unlink
    rename_i succeeded _
    cases succeeded with
    | true => exact hquiet.elim
    | false =>
      cases hstep
      exact ⟨rfl, rfl⟩
  · contradiction

@[simp] theorem merged_self (content : Bytes) (pos : Nat) : merged content (some content) pos = content :=
  List.take_append_drop pos content

theorem stage_start (content : Bytes) (old : Option Bytes) : Stage content old [] (start content old) :=
  .rename rfl rfl rfl rfl (by simp [Clean])

theorem Stage.fails (hsrc : state.src = some content) (hfatal : Fatal reply) :
    Stage content old (past ++ [reply]) (copied state (-1)) :=
  .failed rfl (by decide) hsrc ⟨reply, by simp, hfatal⟩

theorem Stage.readStep (hpc : state.pc = .read) (hsrc : state.src = some content) (hpast : Clean past)
    (hcopying : Copying content old state []) (hstep : FileHelper.step state reply = some next) :
    Stage content old (past ++ [reply]) next := by
  cases reply <;> simp only [FileHelper.step, hpc, reduceCtorEq] at hstep
  rename_i outcome
  cases outcome with
  | interrupted =>
    cases hstep
    exact .read hpc hsrc (clean_append hpast (by simp [Fatal])) hcopying
  | failed =>
    cases hstep
    exact .fails hsrc rfl
  | done count =>
    have hclean : Clean (past ++ [.read (.done count)]) := clean_append hpast (by simp [Fatal])
    have hpos : state.toPos = state.fromPos := hcopying.fromPos.symm
    simp only [hsrc, Option.bind_some, Option.ite_none_right_eq_some] at hstep
    obtain ⟨⟨-, hlength, hend⟩, hnext⟩ := hstep
    by_cases hzero : count = 0
    · rw [if_pos hzero] at hnext
      cases hnext
      have hdone : state.toPos = content.length := by
        have hle := hcopying.le
        have hge := hend hzero
        omega
      exact .unlink rfl hsrc hclean (hdone ▸ hcopying.des)
    · rw [if_neg hzero] at hnext
      cases hnext
      refine .write rfl ?_ rfl hclean ⟨hcopying.des, ?_, ?_, ?_⟩
      · intro hnil
        rw [hnil] at hlength
        exact hzero hlength.symm
      · rw [hlength, hpos]
      · dsimp only
        rw [hlength, hpos]
      · rw [List.length_take, List.length_drop] at hlength
        dsimp only
        omega

theorem Copying.advance (h : Copying content old state rest) (hcount : count ≤ rest.length) (pc : Pc) :
    Copying content old { state with
      des := some (overwrite (merged content old state.toPos) state.toPos (rest.take count))
      toPos := state.toPos + count, pc := pc } (rest.drop count) := by
  have htaken : (rest.take count).length = count := List.length_take_of_le hcount
  have hfrom := h.fromPos
  have hle := h.le
  have hbytes : rest.take count = (content.drop state.toPos).take (rest.take count).length := by
    conv_lhs => rw [h.between]
    rw [List.take_take, htaken, Nat.min_eq_left hcount]
  constructor
  · rw [overwrite_merged hbytes (by omega), htaken]
  · conv_lhs => rw [h.between]
    rw [List.drop_take, List.drop_drop, List.length_drop]
  · dsimp only
    rw [List.length_drop]
    omega
  · exact hle

theorem Stage.writeStep (hpc : state.pc = .write rest) (hrest : rest ≠ [])
    (hsrc : state.src = some content) (hpast : Clean past) (hcopying : Copying content old state rest)
    (hstep : FileHelper.step state reply = some next) : Stage content old (past ++ [reply]) next := by
  cases reply <;> simp only [FileHelper.step, hpc, reduceCtorEq] at hstep
  rename_i outcome
  cases outcome with
  | interrupted =>
    cases hstep
    exact .write hpc hrest hsrc (clean_append hpast (by simp [Fatal])) hcopying
  | failed =>
    cases hstep
    exact .fails hsrc rfl
  | done count =>
    have hclean : Clean (past ++ [.write (.done count)]) := clean_append hpast (by simp [Fatal])
    simp only [hcopying.des, Option.bind_some, Option.ite_none_right_eq_some] at hstep
    obtain ⟨⟨hpos, hcount⟩, hnext⟩ := hstep
    cases hnext
    by_cases hall : count = rest.length
    · have hadvance := hcopying.advance hcount .read
      rw [List.drop_eq_nil_of_le (le_of_eq hall.symm)] at hadvance
      rw [if_pos hall]
      exact .read rfl hsrc hclean hadvance
    · rw [if_neg hall]
      refine .write rfl ?_ hsrc hclean (hcopying.advance hcount _)
      rw [Ne, List.drop_eq_nil_iff]
      omega

theorem Stage.step (h : Stage content old past state)
    (hstep : FileHelper.step state reply = some next) : Stage content old (past ++ [reply]) next := by
  cases h with
  | rename hpc hsrc hdes hpos hpast =>
    cases reply <;> simp only [FileHelper.step, hpc, reduceCtorEq, Option.some.injEq] at hstep
    rename_i succeeded
    cases succeeded with
    | true =>
      cases hstep
      exact .renamed rfl (by simp) hsrc
    | false =>
      cases hstep
      exact .opening (.inl rfl) hsrc hdes hpos (clean_append hpast (by simp [Fatal]))
  | opening hpc hsrc hdes hpos hpast =>
    rcases hpc with hpc | hpc
    · cases reply <;> simp only [FileHelper.step, hpc, reduceCtorEq, Option.some.injEq] at hstep
      rename_i opened
      cases opened with
      | true =>
        cases hstep
        exact .opening (.inr rfl) hsrc hdes rfl (clean_append hpast (by simp [Fatal]))
      | false =>
        cases hstep
        exact .fails hsrc rfl
    · cases reply <;> simp only [FileHelper.step, hpc, reduceCtorEq, Option.some.injEq] at hstep
      rename_i opened
      cases opened with
      | true =>
        cases hstep
        refine .read rfl hsrc (clean_append hpast (by simp [Fatal])) ⟨?_, rfl, hpos, ?_⟩
        · simp only [if_true, merged_zero, hdes]
        · simp only [if_true, hpos, Nat.zero_le]
      | false =>
        cases hstep
        exact .fails hsrc rfl
  | read hpc hsrc hpast hcopying => exact .readStep hpc hsrc hpast hcopying hstep
  | write hpc hrest hsrc hpast hcopying => exact .writeStep hpc hrest hsrc hpast hcopying hstep
  | unlink hpc hsrc hpast hdes =>
    cases reply <;> simp only [FileHelper.step, hpc, reduceCtorEq, Option.some.injEq] at hstep
    cases hstep
    exact .moved rfl (clean_append hpast (by simp [Fatal])) hdes
  | renamed hpc hpast hdes => simp [FileHelper.step, hpc] at hstep
  | moved hpc hpast hdes => simp [FileHelper.step, hpc] at hstep
  | failed hpc hret hsrc hpast => simp [FileHelper.step, hpc] at hstep

theorem Stage.enabled (h : Stage content old past state) :
    (∃ ret, state.pc = .returned ret) ∨
      ∃ reply, Quiet reply ∧ (FileHelper.step state reply).isSome := by
  cases h with
  | rename hpc => exact .inr ⟨.rename false, trivial, by simp [FileHelper.step, hpc]⟩
  | opening hpc =>
    rcases hpc with hpc | hpc
    · exact .inr ⟨.openSrc false, trivial, by simp [FileHelper.step, hpc]⟩
    · exact .inr ⟨.openDes false, trivial, by simp [FileHelper.step, hpc]⟩
  | read hpc => exact .inr ⟨.read .failed, trivial, by simp [FileHelper.step, hpc]⟩
  | write hpc => exact .inr ⟨.write .failed, trivial, by simp [FileHelper.step, hpc]⟩
  | unlink hpc => exact .inr ⟨.unlink false, trivial, by simp [FileHelper.step, hpc]⟩
  | renamed hpc => exact .inl ⟨0, hpc⟩
  | moved hpc => exact .inl ⟨0, hpc⟩
  | failed hpc => exact .inl ⟨_, hpc⟩

@[simp] theorem merged_eq_iff : merged content old content.length = content ↔
    (old.getD []).length ≤ content.length := by
  rw [merged_length, List.append_right_eq_self, List.drop_eq_nil_iff]

/-- A move that returns was exact, unless it copied over a longer file. -/
theorem Stage.exact_iff (h : Stage content old past state) {ret : Int}
    (hret : state.pc = .returned ret) :
    Exact content state ↔ Reply.rename true ∈ past ∨ (∃ reply ∈ past, Fatal reply) ∨
      (old.getD []).length ≤ content.length := by
  cases h with
  | rename hpc => simp [hpc] at hret
  | opening hpc => rcases hpc with hpc | hpc <;> simp [hpc] at hret
  | read hpc => simp [hpc] at hret
  | write hpc => simp [hpc] at hret
  | unlink hpc => simp [hpc] at hret
  | renamed hpc hpast hdes =>
    exact iff_of_true ⟨fun _ => hdes, fun hne => absurd hpc hne⟩ (.inl hpast)
  | moved hpc hpast hdes =>
    have hrename : Reply.rename true ∉ past := fun hmem => (hpast _ hmem).1 rfl
    have hfatal : ¬∃ reply ∈ past, Fatal reply := fun ⟨reply, hmem, hfatal⟩ => (hpast reply hmem).2 hfatal
    rw [or_iff_right hrename, or_iff_right hfatal, ← merged_eq_iff]
    constructor
    · intro hexact
      exact Option.some.inj (hdes.symm.trans (hexact.copied hpc))
    · intro hmerged
      exact ⟨fun _ => hmerged ▸ hdes, fun hne => absurd hpc hne⟩
  | failed hpc hret' hsrc hpast =>
    refine iff_of_true ⟨?_, fun _ => hsrc⟩ (.inr (.inl hpast))
    intro hzero
    rw [hpc, Pc.returned.injEq] at hzero
    exact absurd hzero hret'

theorem Stage.source (h : Stage content old past state) (hne : state.pc ≠ .returned 0) :
    state.src = some content := by
  cases h with
  | rename _ hsrc => exact hsrc
  | opening _ hsrc => exact hsrc
  | read _ hsrc => exact hsrc
  | write _ _ hsrc => exact hsrc
  | unlink _ hsrc => exact hsrc
  | renamed hpc => exact absurd hpc hne
  | moved hpc => exact absurd hpc hne
  | failed _ _ hsrc => exact hsrc

theorem Stage.copying (h : Stage content old past state) (hpc : state.pc = .write rest) :
    Copying content old state rest := by
  cases h with
  | write hwriting _ _ _ hcopying =>
    rw [hpc, Pc.write.injEq] at hwriting
    rw [hwriting]
    exact hcopying
  | rename hother => simp [hpc] at hother
  | opening hother => simp [hpc] at hother
  | read hother => simp [hpc] at hother
  | unlink hother => simp [hpc] at hother
  | renamed hother => simp [hpc] at hother
  | moved hother => simp [hpc] at hother
  | failed hother => simp [hpc] at hother

theorem Stage.merged_of_copying (h : Stage content old past state)
    (hpc : state.pc = .read ∨ ∃ rest, state.pc = .write rest) :
    state.des = some (merged content old state.toPos) := by
  cases h with
  | read _ _ _ hcopying => exact hcopying.des
  | write _ _ _ _ hcopying => exact hcopying.des
  | rename hother => simp [hother] at hpc
  | opening hother => rcases hother with hother | hother <;> simp [hother] at hpc
  | unlink hother => simp [hother] at hpc
  | renamed hother => simp [hother] at hpc
  | moved hother => simp [hother] at hpc
  | failed hother => simp [hother] at hpc

theorem Stage.clean_of_rename (h : Stage content old past state) (hpc : state.pc = .rename) :
    Clean past := by
  cases h with
  | rename _ _ _ _ hpast => exact hpast
  | opening hother => rcases hother with hother | hother <;> simp [hother] at hpc
  | read hother => simp [hpc] at hother
  | write hother => simp [hpc] at hother
  | unlink hother => simp [hpc] at hother
  | renamed hother => simp [hpc] at hother
  | moved hother => simp [hpc] at hother
  | failed hother => simp [hpc] at hother

theorem Stage.copied_of_unlink (h : Stage content old past state) (hpc : state.pc = .unlink) :
    Clean past ∧ state.des = some (merged content old content.length) := by
  cases h with
  | unlink _ _ hpast hdes => exact ⟨hpast, hdes⟩
  | rename hother => simp [hpc] at hother
  | opening hother => simp [hpc] at hother
  | read hother => simp [hpc] at hother
  | write hother => simp [hpc] at hother
  | renamed hother => simp [hpc] at hother
  | moved hother => simp [hpc] at hother
  | failed hother => simp [hpc] at hother

end

end UdpFileProxy.FileHelper
