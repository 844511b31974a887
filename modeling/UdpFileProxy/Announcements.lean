import UdpFileProxy.FileHelper
import UdpFileProxy.RecvFinish

/-! `Recv_Finish` around `file_helper_move`, whose result it does not look at: what is under
the announced path when the notice is sent. Nothing else uses the two files meanwhile. -/
namespace UdpFileProxy.Announcements
open Lib.Memory Lib.Run FileHelper RecvFinish

/-- The bytes that the writes of a copy took. -/
def written (calls : List FileHelper.Reply) : Nat :=
  (calls.map fun call =>
    match call with
    | .write (.done count) => count
    | _ => 0).sum

/-- What a move leaves under the new name. -/
def landed (content : Bytes) (old : Option Bytes) (calls : List FileHelper.Reply) : Option Bytes :=
  if .rename true ∈ calls then some content
  else if .openDes true ∈ calls then some (merged content old (written calls))
  else old

/-- The move with the count of its writes. -/
structure Tracked (content : Bytes) (old : Option Bytes) (past : List FileHelper.Reply)
    (state : FileHelper.State) : Prop where
  stage : Stage content old past state
  des : state.des = landed content old past
  before : state.pc ∈ [.rename, .openSrc, .openDes] → .openDes true ∉ past
  copying : (state.pc = .read ∨ ∃ rest, state.pc = .write rest) →
    .openDes true ∈ past ∧ state.toPos = written past
  unopened : .openDes true ∉ past → written past = 0

section
variable {content : Bytes} {old : Option Bytes} {past : List FileHelper.Reply}
  {state next : FileHelper.State} {reply : FileHelper.Reply}

@[simp] theorem written_append (past : List FileHelper.Reply) (reply : FileHelper.Reply) :
    written (past ++ [reply]) = written past + written [reply] := by
  simp [written]

theorem unrenamed (h : Stage content old past state) (hpc : ∀ ret, state.pc ≠ .returned ret) :
    .rename true ∉ past := by
  have hclean (hpast : Clean past) : .rename true ∉ past := fun hmem => (hpast _ hmem).1 rfl
  cases h with
  | rename _ _ _ _ hpast => exact hclean hpast
  | opening _ _ _ _ hpast => exact hclean hpast
  | read _ _ hpast _ => exact hclean hpast
  | write _ _ _ hpast _ => exact hclean hpast
  | unlink _ _ hpast _ => exact hclean hpast
  | renamed hreturned _ _ => exact absurd hreturned (hpc 0)
  | moved _ hpast _ => exact hclean hpast
  | failed hreturned _ _ _ => exact absurd hreturned (hpc _)

theorem tracked_start (content : Bytes) (old : Option Bytes) :
    Tracked content old [] (FileHelper.start content old) where
  stage := stage_start content old
  des := by simp [landed, FileHelper.start]
  before := by simp
  copying := by simp [FileHelper.start]
  unopened := by simp [written]

theorem Tracked.idle (h : Tracked content old past state)
    (hstage : Stage content old (past ++ [reply]) next) (hdes : next.des = state.des)
    (hrename : reply ≠ .rename true) (hopen : reply ≠ .openDes true) (hwrite : written [reply] = 0)
    (hbefore : next.pc ∈ [.rename, .openSrc, .openDes] → state.pc ∈ [.rename, .openSrc, .openDes])
    (hcopying : (next.pc = .read ∨ ∃ rest, next.pc = .write rest) →
      (state.pc = .read ∨ ∃ rest, state.pc = .write rest) ∧ next.toPos = state.toPos) :
    Tracked content old (past ++ [reply]) next := by
  have hcount : written (past ++ [reply]) = written past := by simp [hwrite]
  have hmem {call : FileHelper.Reply} (hne : reply ≠ call) :
      call ∈ past ++ [reply] ↔ call ∈ past := by
    simp [hne.symm]
  refine ⟨hstage, ?_, ?_, ?_, ?_⟩
  · rw [hdes, h.des]
    simp only [landed, hmem hrename, hmem hopen, hcount]
  · rw [hmem hopen]
    exact fun hpc => h.before (hbefore hpc)
  · rw [hmem hopen, hcount]
    intro hpc
    obtain ⟨hcopies, hpos⟩ := hcopying hpc
    rw [hpos]
    exact h.copying hcopies
  · rw [hmem hopen, hcount]
    exact h.unopened

theorem Tracked.opens (h : Tracked content old past state) (hpc : state.pc = .openDes)
    (hstage : Stage content old (past ++ [.openDes true]) { state with
      des := some (state.des.getD []), toPos := 0, pc := .read }) :
    Tracked content old (past ++ [.openDes true]) { state with
      des := some (state.des.getD []), toPos := 0, pc := .read } := by
  have hrename : .rename true ∉ past := unrenamed h.stage (by simp [hpc])
  have hopen := h.before (by simp [hpc])
  have hcount : written (past ++ [.openDes true]) = 0 := by
    rw [written_append, h.unopened hopen]
    rfl
  have hdes : state.des = old := by
    rw [h.des, landed, if_neg hrename, if_neg hopen]
  refine ⟨hstage, ?_, by simp, fun _ => ⟨by simp, hcount.symm⟩, by simp⟩
  dsimp only
  rw [landed, if_neg (by simpa using hrename), if_pos (by simp), hcount, merged_zero, hdes]

theorem Tracked.writes (h : Tracked content old past state) {rest bytes : Bytes} {count : Nat}
    {pc : FileHelper.Pc} (hpc : state.pc = .write rest) (hdes : state.des = some bytes)
    (hcount : count ≤ rest.length) (hnext : pc ∉ [.rename, .openSrc, .openDes])
    (hstage : Stage content old (past ++ [.write (.done count)]) { state with
      des := some (overwrite bytes state.toPos (rest.take count))
      toPos := state.toPos + count
      pc := pc }) :
    Tracked content old (past ++ [.write (.done count)]) { state with
      des := some (overwrite bytes state.toPos (rest.take count))
      toPos := state.toPos + count
      pc := pc } := by
  have hrename : .rename true ∉ past := unrenamed h.stage (by simp [hpc])
  obtain ⟨hopen, hpos⟩ := h.copying (.inr ⟨rest, hpc⟩)
  have htotal : written (past ++ [.write (.done count)]) = state.toPos + count := by
    rw [written_append, hpos]
    rfl
  have hcopying := h.stage.copying hpc
  obtain rfl : bytes = merged content old state.toPos :=
    Option.some.inj (hdes.symm.trans hcopying.des)
  refine ⟨hstage, ?_, fun hmem => absurd hmem hnext, fun _ => ⟨by simp [hopen], htotal.symm⟩, ?_⟩
  · rw [landed, if_neg (by simpa using hrename), if_pos (by simp [hopen]), htotal]
    exact (hcopying.advance hcount pc).des
  · exact fun hnot => absurd (List.mem_append_left _ hopen) hnot

theorem Tracked.step (h : Tracked content old past state)
    (hstep : FileHelper.step state reply = some next) :
    Tracked content old (past ++ [reply]) next := by
  have hstage := h.stage.step hstep
  unfold FileHelper.step at hstep
  split at hstep
  · -- rename
    rename_i succeeded hpc
    cases succeeded with
    | true =>
      cases hstep
      have hsrc := h.stage.source (by simp [hpc])
      refine ⟨hstage, ?_, by simp, by simp, ?_⟩
      · simp [landed, hsrc]
      · intro hopen
        rw [written_append, h.unopened fun hmem => hopen (List.mem_append_left _ hmem)]
        rfl
    | false =>
      cases hstep
      exact h.idle hstage rfl (by simp) (by simp) rfl (by simp [hpc]) (by simp)
  · -- openSrc
    rename_i opened hpc
    cases opened with
    | true =>
      cases hstep
      exact h.idle hstage rfl (by simp) (by simp) rfl (by simp [hpc]) (by simp)
    | false =>
      cases hstep
      exact h.idle hstage rfl (by simp) (by simp) rfl (by simp [copied]) (by simp [copied])
  · -- openDes
    rename_i opened hpc
    cases opened with
    | true =>
      cases hstep
      exact h.opens hpc hstage
    | false =>
      cases hstep
      exact h.idle hstage rfl (by simp) (by simp) rfl (by simp [copied]) (by simp [copied])
  · -- read is interrupted
    cases hstep
    exact h.idle hstage rfl (by simp) (by simp) rfl id fun hpc => ⟨hpc, rfl⟩
  · -- read fails
    cases hstep
    exact h.idle hstage rfl (by simp) (by simp) rfl (by simp [copied]) (by simp [copied])
  · -- read
    rename_i count hpc
    obtain ⟨source, -, hnext⟩ := Option.bind_eq_some_iff.mp hstep
    simp only [Option.ite_none_right_eq_some] at hnext
    obtain ⟨-, hnext⟩ := hnext
    split at hnext
    · cases hnext
      exact h.idle hstage rfl (by simp) (by simp) rfl (by simp [copied]) (by simp [copied])
    · cases hnext
      exact h.idle hstage rfl (by simp) (by simp) rfl (by simp) fun _ => ⟨.inl hpc, rfl⟩
  · -- write is interrupted
    cases hstep
    exact h.idle hstage rfl (by simp) (by simp) rfl id fun hpc => ⟨hpc, rfl⟩
  · -- write fails
    cases hstep
    exact h.idle hstage rfl (by simp) (by simp) rfl (by simp [copied]) (by simp [copied])
  · -- write
    rename_i rest count hpc
    obtain ⟨bytes, hdes, hnext⟩ := Option.bind_eq_some_iff.mp hstep
    simp only [Option.ite_none_right_eq_some] at hnext
    obtain ⟨⟨-, hcount⟩, hnext⟩ := hnext
    cases hnext
    exact h.writes hpc hdes hcount (by split <;> simp) hstage
  · -- unlink
    cases hstep
    exact h.idle hstage rfl (by simp) (by simp) rfl (by simp) (by simp)
  · -- no such reply
    contradiction

end

inductive Pc where
  | createDir
  | move (mover : FileHelper.State)
  | message
  | finished (message : Bytes)
  deriving DecidableEq, Repr

inductive Reply where
  | createDir (ret : Int)
  | call (reply : FileHelper.Reply)
  | sent
  deriving DecidableEq, Repr

/-- `files` has the contents under the names that paths resolve to. -/
structure State where
  files : Bytes → Option Bytes
  filename : Bytes
  des : Bytes
  pc : Pc

def start (info : ShareInfo) (args : Bytes) (files : Bytes → Option Bytes) : Option State := do
  let filename ← stored args
  let des ← desOf info filename
  return ⟨files, filename, des, if info.moveFile > 0 then .createDir else .message⟩

section
variable (resolve : Bytes → Bytes)

/-- The move with its two files as they are. -/
def seen (state : State) (mover : FileHelper.State) : FileHelper.State :=
  { mover with
    src := state.files (resolve state.filename)
    des := state.files (resolve state.des) }

/-- The files after a call of the move. When both paths are the same file, a rename
leaves it and an `unlink` removes it. -/
def store (state : State) (reply : FileHelper.Reply) (next : FileHelper.State) :
    Bytes → Option Bytes :=
  match reply with
  | .unlink _ => Function.update state.files (resolve state.filename) next.src
  | _ =>
      Function.update (Function.update state.files (resolve state.filename) next.src)
        (resolve state.des) next.des

def step (state : State) (reply : Reply) : Option State :=
  match state.pc, reply with
  | .createDir, .createDir _ =>
      some { state with pc := .move ⟨none, none, 0, 0, .rename⟩ }
  | .move mover, .call reply =>
      (FileHelper.step (seen resolve state mover) reply).map fun next =>
        { state with
          files := store resolve state reply next
          pc :=
            match next.pc with
            | .returned _ => .message
            | _ => .move next }
  | .message, .sent => (echoMsg state.des).map fun message => { state with pc := .finished message }
  | _, _ => none

end

/-- The calls of the move. -/
def calls (past : List Reply) : List FileHelper.Reply :=
  past.filterMap fun reply =>
    match reply with
    | .call reply => some reply
    | _ => none

/-- What the calls leave under the announced path is the content: the move's own part
of the condition. -/
def Complete (same : Prop) [Decidable same] (content : Bytes) (old : Option Bytes)
    (calls : List FileHelper.Reply) : Prop :=
  .rename true ∈ calls ∨
    if same then .unlink true ∉ calls
    else (old ≠ none ∨ .openDes true ∈ calls) ∧
      (old.getD []).drop (written calls) = content.drop (written calls)

section
variable {resolve : Bytes → Bytes} {content : Bytes} {old : Option Bytes}
  {past : List FileHelper.Reply} {state next : State} {mover mover' : FileHelper.State}
  {reply : FileHelper.Reply}

theorem merged_eq_content_iff (pos : Nat) :
    merged content old pos = content ↔ (old.getD []).drop pos = content.drop pos := by
  have hcontent : content.take pos ++ content.drop pos = content := List.take_append_drop pos content
  constructor
  · intro hmerged
    exact List.append_cancel_left (hmerged.trans hcontent.symm)
  · intro hdrop
    rw [merged, hdrop, hcontent]

@[simp] theorem landed_self (past : List FileHelper.Reply) :
    landed content (some content) past = some content := by
  have hself : merged content (some content) (written past) = content :=
    (merged_eq_content_iff (written past)).mpr rfl
  rw [landed, hself]
  split
  · rfl
  split <;> rfl

theorem complete_iff (h : Tracked content old past mover) :
    landed content old past = some content ↔ Complete False content old past := by
  unfold landed Complete
  rw [if_neg not_false]
  split
  · rename_i hrename
    exact iff_of_true rfl (.inl hrename)
  rename_i hrename
  rw [or_iff_right hrename]
  split
  · rename_i hopen
    rw [and_iff_right (.inr hopen), Option.some.injEq]
    exact merged_eq_content_iff _
  · rename_i hopen
    rw [or_iff_left hopen, h.unopened hopen, List.drop_zero, List.drop_zero]
    cases old <;> simp

@[simp] theorem calls_append (past : List Reply) (reply : Reply) :
    calls (past ++ [reply]) = calls past ++ calls [reply] := by
  rw [calls, List.filterMap_append]
  rfl

/-- How far `Recv_Finish` has come. -/
inductive Arrives (resolve : Bytes → Bytes) (content : Bytes) (old : Option Bytes) (past : List Reply)
    (state : State) : Prop where
  | createDir (hpc : state.pc = .createDir) (hpast : calls past = [])
      (hsrc : state.files (resolve state.filename) = some content)
      (hdes : state.files (resolve state.des) = old)
  | move (mover : FileHelper.State) (hpc : state.pc = .move mover)
      (htracked : Tracked content old (calls past) (seen resolve state mover))
      (hkept : .unlink true ∉ calls past)
  | moved (hpc : state.pc = .message ∨
        ∃ message, state.pc = .finished message ∧ echoMsg state.des = some message)
      (hiff : state.files (resolve state.des) = some content ↔
        Complete (resolve state.filename = resolve state.des) content old (calls past))

theorem arrives_start {info : ShareInfo} {args des : Bytes} {files : Bytes → Option Bytes}
    (hdes : desOf info args = some des) (hcontent : files (resolve args) = some content) :
    Arrives resolve content (files (resolve des)) []
      ⟨files, args, des, if info.moveFile > 0 then .createDir else .message⟩ := by
  by_cases hmove : info.moveFile > 0
  · rw [if_pos hmove]
    exact .createDir rfl rfl hcontent rfl
  · rw [desOf, if_neg hmove] at hdes
    obtain ⟨-, rfl⟩ := stored_eq_some.mp hdes
    rw [if_neg hmove]
    refine .moved (.inl rfl) (iff_of_true hcontent (.inr ?_))
    rw [if_pos rfl]
    exact List.not_mem_nil

theorem Arrives.sent {past : List Reply} {message : Bytes} (h : Arrives resolve content old past state)
    (hsent : state.pc = .finished message) :
    echoMsg state.des = some message ∧
      (state.files (resolve state.des) = some content ↔
        Complete (resolve state.filename = resolve state.des) content old (calls past)) := by
  cases h with
  | createDir hpc => simp [hsent] at hpc
  | move mover hpc => simp [hsent] at hpc
  | moved hpc hiff =>
    rcases hpc with hpc | ⟨other, hpc, hecho⟩
    · simp [hsent] at hpc
    · rw [hsent, Pc.finished.injEq] at hpc
      rw [hpc]
      exact ⟨hecho, hiff⟩

theorem step_unlink {succeeded : Bool}
    (hstep : FileHelper.step mover (.unlink succeeded) = some mover') :
    mover.pc = .unlink ∧
      mover' = { mover with src := if succeeded then none else mover.src, pc := .returned 0 } := by
  unfold FileHelper.step at hstep
  split at hstep <;> first | contradiction | skip
  rename_i hpc hreply
  cases hreply
  cases hstep
  exact ⟨hpc, rfl⟩

theorem store_other (state : State) (mover : FileHelper.State)
    (hreply : ∀ succeeded, reply ≠ .unlink succeeded) :
    store resolve state reply mover =
      Function.update (Function.update state.files (resolve state.filename) mover.src)
        (resolve state.des) mover.des := by
  cases reply with
  | unlink succeeded => exact absurd rfl (hreply succeeded)
  | _ => rfl

theorem seen_store (pc : Pc) (hreply : ∀ succeeded, reply ≠ .unlink succeeded)
    (hsame : resolve state.filename = resolve state.des → mover.src = mover.des) :
    seen resolve { state with files := store resolve state reply mover, pc := pc } mover = mover := by
  have hdes : store resolve state reply mover (resolve state.des) = mover.des := by
    rw [store_other state mover hreply, Function.update_self]
  have hsrc : store resolve state reply mover (resolve state.filename) = mover.src := by
    by_cases heq : resolve state.filename = resolve state.des
    · rw [heq, hdes, hsame heq]
    · rw [store_other state mover hreply, Function.update_of_ne heq, Function.update_self]
  simp only [seen, hsrc, hdes]

theorem stored_iff (hold : resolve state.filename = resolve state.des → old = some content)
    {past : List FileHelper.Reply} (h : Tracked content old past (seen resolve state mover))
    (hkept : .unlink true ∉ past)
    (hstep : FileHelper.step (seen resolve state mover) reply = some mover') :
    store resolve state reply mover' (resolve state.des) = some content ↔
      Complete (resolve state.filename = resolve state.des) content old (past ++ [reply]) := by
  have hnext := h.step hstep
  by_cases hunlink : ∃ succeeded, reply = .unlink succeeded
  · obtain ⟨succeeded, rfl⟩ := hunlink
    obtain ⟨hpc, rfl⟩ := step_unlink hstep
    have hrename : .rename true ∉ past ++ [.unlink succeeded] := by
      simpa using unrenamed h.stage (by simp [hpc])
    have hsrc := h.stage.source (by simp [hpc])
    by_cases hsame : resolve state.filename = resolve state.des
    · rw [Complete, or_iff_right hrename, if_pos hsame]
      simp only [store, hsame, Function.update_self, hsrc, List.mem_append, hkept, false_or]
      cases succeeded <;> simp
    · have hdes : store resolve state (.unlink succeeded) { seen resolve state mover with
          src := if succeeded then none else (seen resolve state mover).src
          pc := .returned 0 } (resolve state.des) = (seen resolve state mover).des :=
        Function.update_of_ne (Ne.symm hsame) _ _
      have hlanded : (seen resolve state mover).des =
          landed content old (past ++ [.unlink succeeded]) := hnext.des
      rw [hdes, hlanded, complete_iff hnext, Complete, Complete, if_neg hsame, if_neg not_false]
  · have hreply : ∀ succeeded, reply ≠ .unlink succeeded := not_exists.mp hunlink
    rw [store_other state mover' hreply, Function.update_self, hnext.des]
    by_cases hsame : resolve state.filename = resolve state.des
    · rw [hold hsame, landed_self]
      refine iff_of_true rfl (.inr ?_)
      rw [if_pos hsame]
      simpa [hkept] using (hreply true).symm
    · rw [complete_iff hnext, Complete, Complete, if_neg hsame, if_neg not_false]

theorem arrives_called {past : List Reply}
    (hold : resolve state.filename = resolve state.des → old = some content)
    (htracked : Tracked content old (calls past) (seen resolve state mover))
    (hkept : .unlink true ∉ calls past)
    (hcalled : FileHelper.step (seen resolve state mover) reply = some mover') :
    Arrives resolve content old (past ++ [.call reply]) { state with
      files := store resolve state reply mover'
      pc :=
        match mover'.pc with
        | .returned _ => .message
        | _ => .move mover' } := by
  have hcalls : calls (past ++ [.call reply]) = calls past ++ [reply] := calls_append past _
  have hnext := htracked.step hcalled
  by_cases hreturned : ∃ ret, mover'.pc = .returned ret
  · obtain ⟨ret, hret⟩ := hreturned
    refine .moved (.inl (by simp only [hret])) ?_
    rw [hcalls]
    exact stored_iff hold htracked hkept hcalled
  · have hrunning : ∀ ret, mover'.pc ≠ .returned ret := not_exists.mp hreturned
    have hreply : ∀ succeeded, reply ≠ .unlink succeeded := by
      rintro succeeded rfl
      obtain ⟨-, rfl⟩ := step_unlink hcalled
      exact hrunning 0 rfl
    have hsame : resolve state.filename = resolve state.des → mover'.src = mover'.des := by
      intro heq
      rw [hnext.stage.source (hrunning 0), hnext.des, hold heq, landed_self]
    refine .move mover' ?_ ?_ ?_
    · dsimp only
      split
      · rename_i hret
        exact absurd hret (hrunning _)
      · rfl
    · rw [seen_store _ hreply hsame, hcalls]
      exact hnext
    · rw [hcalls]
      simpa [hkept] using (hreply true).symm

theorem Arrives.step {past : List Reply} {reply : Reply}
    (hold : resolve state.filename = resolve state.des → old = some content)
    (h : Arrives resolve content old past state)
    (hstep : Announcements.step resolve state reply = some next) :
    next.filename = state.filename ∧ next.des = state.des ∧
      Arrives resolve content old (past ++ [reply]) next := by
  unfold Announcements.step at hstep
  split at hstep
  · -- CreateDir
    rename_i hpc
    cases hstep
    refine ⟨rfl, rfl, ?_⟩
    cases h with
    | createDir _ hpast hsrc hdes =>
      have hcalls : ∀ ret, calls (past ++ [.createDir ret]) = [] := by
        intro ret
        rw [calls_append, hpast]
        rfl
      refine .move _ rfl ?_ (by simp [hcalls])
      rw [hcalls]
      simp only [seen, hsrc, hdes]
      exact tracked_start content old
    | move mover hmove => simp [hpc] at hmove
    | moved hmoved => simp [hpc] at hmoved
  · -- a call of the move
    rename_i mover call hpc
    obtain ⟨mover', hcalled, rfl⟩ := Option.map_eq_some_iff.mp hstep
    refine ⟨rfl, rfl, ?_⟩
    cases h with
    | createDir hother => simp [hpc] at hother
    | moved hother => simp [hpc] at hother
    | move _ hmove htracked hkept =>
      rw [hpc, Pc.move.injEq] at hmove
      subst hmove
      exact arrives_called hold htracked hkept hcalled
  · -- the notice
    rename_i hpc
    obtain ⟨message, hecho, rfl⟩ := Option.map_eq_some_iff.mp hstep
    refine ⟨rfl, rfl, ?_⟩
    have hcalls : calls (past ++ [.sent]) = calls past := by
      rw [calls_append]
      exact List.append_nil _
    cases h with
    | createDir hother => simp [hpc] at hother
    | move mover hother => simp [hpc] at hother
    | moved _ hiff =>
      refine .moved (.inr ⟨message, rfl, hecho⟩) ?_
      rw [hcalls]
      exact hiff
  · contradiction

theorem Arrives.run {state : State} {past replies : List Reply} {final : State}
    (hold : resolve state.filename = resolve state.des → old = some content)
    (h : Arrives resolve content old past state)
    (run : exec (Announcements.step resolve) state replies = some final) :
    final.filename = state.filename ∧ final.des = state.des ∧
      Arrives resolve content old (past ++ replies) final := by
  have hkept : ∀ past current reply next,
      current.filename = state.filename ∧ current.des = state.des ∧
        Arrives resolve content old past current →
      Announcements.step resolve current reply = some next →
      next.filename = state.filename ∧ next.des = state.des ∧
        Arrives resolve content old (past ++ [reply]) next := by
    rintro past current reply next ⟨hfilename, hdes, harrives⟩ hstep
    obtain ⟨hfilename', hdes', hnext⟩ :=
      harrives.step (by rwa [hfilename, hdes]) hstep
    exact ⟨hfilename'.trans hfilename, hdes'.trans hdes, hnext⟩
  exact exec_history hkept ⟨rfl, rfl, h⟩ run

theorem unmoved {state : State} {replies : List Reply} {final : State}
    (hpc : state.pc = .message ∨ ∃ message, state.pc = .finished message)
    (run : exec (step resolve) state replies = some final) : final.files = state.files := by
  have hkept : ∀ current reply next,
      (current.pc = .message ∨ ∃ message, current.pc = .finished message) ∧
        current.files = state.files →
      step resolve current reply = some next →
      (next.pc = .message ∨ ∃ message, next.pc = .finished message) ∧ next.files = state.files := by
    rintro current reply next ⟨hcurrent, hfiles⟩ hstep
    unfold step at hstep
    split at hstep
    · rename_i hcreate
      simp [hcreate] at hcurrent
    · rename_i hmove
      simp [hmove] at hcurrent
    · obtain ⟨message, -, rfl⟩ := Option.map_eq_some_iff.mp hstep
      exact ⟨.inr ⟨message, rfl⟩, hfiles⟩
    · contradiction
  exact (exec_invariant' hkept ⟨hpc, rfl⟩ run).2

end

def received : Bytes := ascii "b/a/f"

def oneFile : Bytes → Option Bytes := Function.update (fun _ => none) received (some [7])

end UdpFileProxy.Announcements
