import UdpFileProxy.FileHelper
import UdpFileProxy.Lib.Chain
import Mathlib.Logic.Function.Basic

/-! `file_helper_move` in a file system with links: both paths may be one file, and symbolic
links may stand at them. Nothing else uses the files meanwhile. -/
namespace UdpFileProxy.Moves
open Lib.Memory Lib.Run Lib.Chain FileHelper

/-- The names with the inodes that they are links to. An inode is a file with its content, or a
symbolic link, which leads from the name where it stands to another one. -/
structure Files where
  entry : Bytes → Option Nat
  symlink : Nat → Option (Bytes → Bytes)
  content : Nat → Bytes

/-- `MAXSYMLINKS`: a path through more symbolic links than this cannot be opened. -/
def maxSymlinks : Nat := 40

def Files.target (files : Files) (name : Bytes) : Option Bytes :=
  (files.entry name).bind fun inode => (files.symlink inode).map fun link => link name

/-- The names that a path leads through. -/
def Files.way (files : Files) (name : Bytes) : List Bytes :=
  Lib.Chain.way files.target maxSymlinks name

/-- The name behind all symbolic links, at which there may be nothing. -/
def Files.behind (files : Files) (name : Bytes) : Option Bytes :=
  Lib.Chain.follow files.target maxSymlinks name

def Files.inode (files : Files) (name : Bytes) : Option Nat := (files.behind name).bind files.entry

def Files.read (files : Files) (name : Bytes) : Option Bytes := (files.inode name).map files.content

/-- What a symbolic link leads through when it stands at this name; a file leads nowhere. -/
def Files.wayFrom (files : Files) (inode : Nat) (name : Bytes) : List Bytes :=
  match files.symlink inode with
  | none => []
  | some link => Lib.Chain.way files.target (maxSymlinks - 1) (link name)

/-- What is read of an inode that stands at this name. -/
def Files.readFrom (files : Files) (inode : Nat) (name : Bytes) : Option Bytes :=
  match files.symlink inode with
  | none => some (files.content inode)
  | some link =>
      ((Lib.Chain.follow files.target (maxSymlinks - 1) (link name)).bind files.entry).map files.content

/-- The two paths, and the inode that `O_CREAT` makes. -/
structure Names where
  src : Bytes
  des : Bytes
  fresh : Nat

/-- Nothing happens where both names are links to one inode. -/
def Files.renamed (files : Files) (names : Names) : Files :=
  if files.entry names.src = files.entry names.des then files
  else
    { files with
      entry := Function.update (Function.update files.entry names.src none) names.des
        (files.entry names.src) }

/-- What a call does in the file system: `rename` and `unlink` with the two names themselves, the
others with what is behind symbolic links. -/
def Files.store (names : Names) (files : Files) (reply : Reply) (next : State) : Option Files :=
  match reply with
  | .rename true => some (files.renamed names)
  | .openDes true =>
      (files.behind names.des).map fun name =>
        match files.entry name with
        | some _ => files
        | none =>
            { files with
              entry := Function.update files.entry name (some names.fresh)
              content := Function.update files.content names.fresh [] }
  | .write (.done _) =>
      (files.inode names.des).map fun file =>
        { files with content := Function.update files.content file (next.des.getD []) }
  | .unlink true => some { files with entry := Function.update files.entry names.src none }
  | _ => some files

/-- An inode that `O_CREAT` can take. -/
structure Unused (files : Files) (inode : Nat) : Prop where
  entry : ∀ name, files.entry name ≠ some inode
  file : files.symlink inode = none

structure Move where
  files : Files
  mover : State

def start (files : Files) : Move := ⟨files, ⟨none, none, 0, 0, .rename⟩⟩

/-- The move with the contents that its two paths have. -/
def Move.seen (names : Names) (move : Move) : State :=
  { move.mover with
    src := move.files.read names.src
    des := move.files.read names.des }

def step (names : Names) (move : Move) (reply : Reply) : Option Move :=
  (FileHelper.step (move.seen names) reply).bind fun next =>
    (move.files.store names reply next).map fun files => ⟨files, next⟩

/-- What `src` is leads from the place of `des` to the same content, and the names that are changed
are not on the way. -/
def Renames (names : Names) (files : Files) : Prop :=
  ∃ inode, files.entry names.src = some inode ∧
    files.readFrom inode names.des = files.read names.src ∧
    (files.entry names.src = files.entry names.des ∨
      names.src ∉ files.wayFrom inode names.des ∧ names.des ∉ files.wayFrom inode names.des)

/-- While the move is running, the symbolic links are what they were, and two paths to one file
agree. -/
structure Placed (names : Names) (content : Bytes) (old : Option Bytes) (before files : Files) :
    Prop where
  target : files.target = before.target
  other : files.inode names.src ≠ some names.fresh
  file : files.symlink names.fresh = none
  linked : files.inode names.src = files.inode names.des → old = some content

/-- How far the move has come. The file is `lost` when it was a symbolic link that does not lead to
it from the new name, or when it was copied onto itself and unlinked. -/
inductive Moving (names : Names) (content : Bytes) (old : Option Bytes) (before : Files)
    (past : List Reply) (move : Move) : Prop where
  | going (hstage : Stage content old past (move.seen names))
      (hplaced : (∀ ret, move.mover.pc ≠ .returned ret) → Placed names content old before move.files)
      (hrenamed : .rename true ∈ past → Renames names before)
      (hkept : .unlink true ∈ past → names.src ∉ before.way names.des)
      (hbefore : move.mover.pc = .rename → move.files = before)
  | lost (hpc : move.mover.pc = .returned 0) (hgone : move.files.read names.des ≠ some content)
      (hclean : ∀ reply ∈ past, ¬Fatal reply)
      (hcase : .rename true ∈ past ∧ ¬Renames names before ∨
        .rename true ∉ past ∧ .unlink true ∈ past ∧ names.src ∈ before.way names.des)

section
variable {names : Names} {content : Bytes} {old : Option Bytes} {before files files' : Files}
  {past replies : List Reply} {move next final : Move} {mover : State} {reply : Reply}
  {name other : Bytes} {file : Nat}

/-! ### Names and what is behind them -/

theorem Files.behind_congr (h : files'.target = files.target) (name : Bytes) :
    files'.behind name = files.behind name := by
  rw [Files.behind, Files.behind, h]

theorem Files.way_congr (h : files'.target = files.target) (name : Bytes) :
    files'.way name = files.way name := by
  rw [Files.way, Files.way, h]

theorem Files.behind_of_read (h : files.read name = some content) : ∃ last file,
    files.behind name = some last ∧ files.entry last = some file ∧
      files.inode name = some file ∧ files.content file = content := by
  obtain ⟨file, hfile, hcontent⟩ := Option.map_eq_some_iff.mp h
  obtain ⟨last, hlast, hentry⟩ := Option.bind_eq_some_iff.mp hfile
  exact ⟨last, file, hlast, hentry, hfile, hcontent⟩

theorem Files.read_eq (files : Files) (name : Bytes) :
    files.read name = (files.entry name).bind fun inode => files.readFrom inode name := by
  cases hentry : files.entry name with
  | none =>
    have htarget : files.target name = none := by simp [Files.target, hentry]
    simp [Files.read, Files.inode, Files.behind, htarget, hentry]
  | some inode =>
    cases hlink : files.symlink inode with
    | none =>
      have htarget : files.target name = none := by simp [Files.target, hentry, hlink]
      simp [Files.read, Files.inode, Files.behind, Files.readFrom, htarget, hentry, hlink]
    | some link =>
      have htarget : files.target name = some (link name) := by simp [Files.target, hentry, hlink]
      simp [Files.read, Files.inode, Files.behind, Files.readFrom, maxSymlinks, htarget, hlink]

/-! ### The calls -/

theorem renamed_entry_src (hlinked : files.entry names.src ≠ files.entry names.des) :
    (files.renamed names).entry names.src = none := by
  have hne : names.src ≠ names.des := fun heq => hlinked (congrArg _ heq)
  simp [Files.renamed, hlinked, hne]

theorem renamed_entry_des (hlinked : files.entry names.src ≠ files.entry names.des) :
    (files.renamed names).entry names.des = files.entry names.src := by
  simp [Files.renamed, hlinked]

theorem renamed_entry (hlinked : files.entry names.src ≠ files.entry names.des)
    (hsrc : name ≠ names.src) (hdes : name ≠ names.des) :
    (files.renamed names).entry name = files.entry name := by
  simp [Files.renamed, hlinked, hsrc, hdes]

theorem renamed_symlink (hlinked : files.entry names.src ≠ files.entry names.des) :
    (files.renamed names).symlink = files.symlink := by
  simp [Files.renamed, hlinked]

theorem renamed_content (hlinked : files.entry names.src ≠ files.entry names.des) :
    (files.renamed names).content = files.content := by
  simp [Files.renamed, hlinked]

theorem renamed_target (hlinked : files.entry names.src ≠ files.entry names.des)
    (hsrc : name ≠ names.src) (hdes : name ≠ names.des) :
    (files.renamed names).target name = files.target name := by
  simp only [Files.target, renamed_entry hlinked hsrc hdes, renamed_symlink hlinked]

/-- A symbolic link at its new place, when one of the two names is on the way from there. -/
theorem read_renamed_link (hlinked : files.entry names.src ≠ files.entry names.des)
    (hentry : files.entry names.src = some file)
    (hway : names.src ∈ files.wayFrom file names.des ∨ names.des ∈ files.wayFrom file names.des) :
    (files.renamed names).read names.des = none := by
  obtain ⟨link, hlink⟩ : ∃ link, files.symlink file = some link := by
    rw [← Option.ne_none_iff_exists']
    intro hfile
    simp [Files.wayFrom, hfile] at hway
  simp only [Files.wayFrom, hlink] at hway
  have hdes : (files.renamed names).target names.des = some (link names.des) := by
    simp [Files.target, renamed_entry_des hlinked, renamed_symlink hlinked, hentry, hlink]
  by_cases hloop : names.des ∈ Lib.Chain.way (files.renamed names).target (maxSymlinks - 1) (link names.des)
  · rw [Files.read, Files.inode, Files.behind, follow_loop hdes hloop]
    rfl
  · have hends : names.src ∈ Lib.Chain.way (files.renamed names).target (maxSymlinks - 1)
        (link names.des) := by
      by_contra hnot
      have hsame : Lib.Chain.way files.target (maxSymlinks - 1) (link names.des) =
          Lib.Chain.way (files.renamed names).target (maxSymlinks - 1) (link names.des) :=
        way_congr fun name hname => (renamed_target hlinked (fun heq => hnot (heq ▸ hname))
          (fun heq => hloop (heq ▸ hname))).symm
      rw [hsame] at hway
      exact hway.elim hnot hloop
    have hgone : (files.renamed names).target names.src = none := by
      simp [Files.target, renamed_entry_src hlinked]
    have hbehind : (files.renamed names).behind names.des = some names.src :=
      (follow_link hdes).trans (follow_cut hends hgone fun _ _ _ => rfl)
    rw [Files.read, Files.inode, hbehind, Option.bind_some, renamed_entry_src hlinked]
    rfl

theorem read_renamed (hlinked : files.entry names.src ≠ files.entry names.des)
    (hentry : files.entry names.src = some file)
    (hsrc : names.src ∉ files.wayFrom file names.des) (hdes : names.des ∉ files.wayFrom file names.des) :
    (files.renamed names).read names.des = files.readFrom file names.des := by
  rw [Files.read_eq, renamed_entry_des hlinked, hentry, Option.bind_some]
  simp only [Files.readFrom, Files.wayFrom, renamed_symlink hlinked, renamed_content hlinked] at hsrc hdes ⊢
  cases hlink : files.symlink file with
  | none => rfl
  | some link =>
    simp only [hlink] at hsrc hdes
    have hsame : ∀ name ∈ Lib.Chain.way files.target (maxSymlinks - 1) (link names.des),
        name ≠ names.src ∧ name ≠ names.des :=
      fun name hname => ⟨fun heq => hsrc (heq ▸ hname), fun heq => hdes (heq ▸ hname)⟩
    dsimp only
    rw [follow_congr fun name hname => renamed_target hlinked (hsame name hname).1 (hsame name hname).2]
    cases hlast : Lib.Chain.follow files.target (maxSymlinks - 1) (link names.des) with
    | none => rfl
    | some last =>
      obtain ⟨hnotSrc, hnotDes⟩ := hsame last (follow_mem hlast).1
      rw [Option.bind_some, Option.bind_some, renamed_entry hlinked hnotSrc hnotDes]

theorem renames_iff (hsrc : files.read names.src = some content) :
    (files.renamed names).read names.des = some content ↔ Renames names files := by
  obtain ⟨inode, hentry, -⟩ := Option.bind_eq_some_iff.mp ((files.read_eq names.src).symm.trans hsrc)
  by_cases hlinked : files.entry names.src = files.entry names.des
  · have hsame : (files.renamed names).read names.des = files.readFrom inode names.des := by
      rw [Files.renamed, if_pos hlinked, Files.read_eq, ← hlinked, hentry, Option.bind_some]
    rw [hsame]
    constructor
    · exact fun hfrom => ⟨inode, hentry, hfrom.trans hsrc.symm, .inl hlinked⟩
    · rintro ⟨other, hother, hfrom, -⟩
      obtain rfl := Option.some.inj (hentry.symm.trans hother)
      exact hfrom.trans hsrc
  · by_cases hway : names.src ∈ files.wayFrom inode names.des ∨ names.des ∈ files.wayFrom inode names.des
    · rw [read_renamed_link hlinked hentry hway]
      refine iff_of_false (by simp) ?_
      rintro ⟨other, hother, -, hcase⟩
      obtain rfl := Option.some.inj (hentry.symm.trans hother)
      rcases hcase with hsame | ⟨hnotSrc, hnotDes⟩
      · exact hlinked hsame
      · exact hway.elim hnotSrc hnotDes
    · rw [not_or] at hway
      rw [read_renamed hlinked hentry hway.1 hway.2]
      constructor
      · exact fun hfrom => ⟨inode, hentry, hfrom.trans hsrc.symm, .inr hway⟩
      · rintro ⟨other, hother, hfrom, -⟩
        obtain rfl := Option.some.inj (hentry.symm.trans hother)
        exact hfrom.trans hsrc

theorem read_unlinked (files : Files) (src name : Bytes) :
    ({ files with entry := Function.update files.entry src none } : Files).read name =
      if src ∈ files.way name then none else files.read name := by
  have hother {last : Bytes} (hne : last ≠ src) :
      ({ files with entry := Function.update files.entry src none } : Files).target last =
        files.target last := by
    simp only [Files.target, Function.update_of_ne hne]
  split
  · rename_i hway
    have hcut : ({ files with entry := Function.update files.entry src none } : Files).behind name =
        some src := by
      refine follow_cut hway ?_ fun last _ hne => hother hne
      simp only [Files.target, Function.update_self, Option.bind_none]
    rw [Files.read, Files.inode, hcut, Option.bind_some]
    simp only [Function.update_self, Option.map_none]
  · rename_i hway
    have hbehind : ({ files with entry := Function.update files.entry src none } : Files).behind name =
        files.behind name :=
      follow_congr fun last hlast => hother fun heq => hway (heq ▸ hlast)
    rw [Files.read, Files.inode, hbehind, Files.read, Files.inode]
    cases hlast : files.behind name with
    | none => rfl
    | some last =>
      have hne : last ≠ src := fun heq => hway (heq ▸ (follow_mem hlast).1)
      simp only [Option.bind_some, Function.update_of_ne hne]

theorem store_quiet (hquiet : Quiet reply) (files : Files) (mover : State) :
    files.store names reply mover = some files := by
  cases reply with
  | rename succeeded => cases succeeded <;> first | rfl | exact hquiet.elim
  | openDes opened => cases opened <;> first | rfl | exact hquiet.elim
  | write outcome => cases outcome <;> first | rfl | exact hquiet.elim
  | unlink succeeded => cases succeeded <;> first | rfl | exact hquiet.elim
  | _ => rfl

/-- The move finds under its paths what it left there. -/
theorem seen_stored (hsrc : files.read names.src = mover.src) (hdes : files.read names.des = mover.des) :
    Move.seen names ⟨files, mover⟩ = mover := by
  simp only [Move.seen, hsrc, hdes]

theorem Moving.quiet (hquiet : Quiet reply) (hstage : Stage content old past (move.seen names))
    (hplaced : Placed names content old before move.files)
    (hrenamed : .rename true ∈ past → Renames names before)
    (hkept : .unlink true ∈ past → names.src ∉ before.way names.des)
    (hstep : FileHelper.step (move.seen names) reply = some mover) :
    Moving names content old before (past ++ [reply]) ⟨move.files, mover⟩ := by
  obtain ⟨hsrc, hdes⟩ := step_quiet hquiet hstep
  refine .going ?_ (fun _ => hplaced) ?_ ?_ fun hpc => absurd hpc (renames_first hstep)
  · rw [seen_stored hsrc.symm hdes.symm]
    exact hstage.step hstep
  · have hreply : .rename true ≠ reply := by
      rintro rfl
      exact hquiet.elim
    simpa [hreply] using hrenamed
  · have hreply : .unlink true ≠ reply := by
      rintro rfl
      exact hquiet.elim
    simpa [hreply] using hkept

theorem Moving.rename (hstage : Stage content old past (move.seen names))
    (hbefore : move.mover.pc = .rename → move.files = before)
    (hkept : .unlink true ∈ past → names.src ∉ before.way names.des)
    (hstep : FileHelper.step (move.seen names) (.rename true) = some mover)
    (hfiles : move.files.store names (.rename true) mover = some files) :
    Moving names content old before (past ++ [.rename true]) ⟨files, mover⟩ := by
  have hpc : (move.seen names).pc = .rename := by
    unfold FileHelper.step at hstep
    split at hstep <;> first | assumption | contradiction
  have hsrc : move.files.read names.src = some content := hstage.source (by simp [hpc])
  have hkept' : .unlink true ∈ past ++ [.rename true] → names.src ∉ before.way names.des := by
    simpa using hkept
  have hclean := hstage.clean_of_rename hpc
  have hiff := renames_iff hsrc
  rw [hbefore hpc] at hfiles hiff
  simp only [FileHelper.step, hpc, if_true, Option.some.injEq] at hstep
  subst hstep
  rw [Files.store, Option.some.injEq] at hfiles
  subst hfiles
  by_cases hrenames : Renames names before
  · exact .going (.renamed rfl (by simp) (hiff.mpr hrenames)) (fun hrunning => absurd rfl (hrunning 0))
      (fun _ => hrenames) hkept' (by simp)
  · refine .lost rfl (fun hread => hrenames (hiff.mp hread)) ?_ (.inl ⟨by simp, hrenames⟩)
    intro reply hreply
    rcases List.mem_append.mp hreply with hold | hnew
    · exact (hclean reply hold).2
    · rw [List.mem_singleton.mp hnew]
      exact not_false

/-- The file system after `O_CREAT` at a name without an entry. -/
def Files.created (files : Files) (name : Bytes) (inode : Nat) : Files :=
  { files with
    entry := Function.update files.entry name (some inode)
    content := Function.update files.content inode [] }

theorem created_target {inode : Nat} (hentry : files.entry name = none)
    (hfile : files.symlink inode = none) : (files.created name inode).target = files.target := by
  funext last
  simp only [Files.target, Files.created]
  by_cases heq : last = name
  · rw [heq, Function.update_self, hentry, Option.bind_some, hfile, Option.map_none, Option.bind_none]
  · rw [Function.update_of_ne heq]

theorem created_inode {inode : Nat} (hentry : files.entry name = none)
    (hfile : files.symlink inode = none) (hother : files.inode other = some file) :
    (files.created name inode).inode other = some file := by
  obtain ⟨last, hlast, hlastEntry⟩ := Option.bind_eq_some_iff.mp hother
  have hne : last ≠ name := by
    rintro rfl
    rw [hentry] at hlastEntry
    contradiction
  rw [Files.inode, Files.behind_congr (created_target hentry hfile), hlast, Option.bind_some]
  exact (Function.update_of_ne hne _ _).trans hlastEntry

theorem Moving.openDes (hstage : Stage content old past (move.seen names))
    (hplaced : Placed names content old before move.files)
    (hrenamed : .rename true ∈ past → Renames names before)
    (hkept : .unlink true ∈ past → names.src ∉ before.way names.des)
    (hstep : FileHelper.step (move.seen names) (.openDes true) = some mover)
    (hfiles : move.files.store names (.openDes true) mover = some files) :
    Moving names content old before (past ++ [.openDes true]) ⟨files, mover⟩ := by
  have hnext := hstage.step hstep
  have hpc : (move.seen names).pc = .openDes := by
    unfold FileHelper.step at hstep
    split at hstep <;> first | assumption | contradiction
  have hsrc : move.files.read names.src = some content := hstage.source (by simp [hpc])
  have hmover : mover.src = some content ∧ mover.des = some ((move.files.read names.des).getD []) := by
    simp only [FileHelper.step, hpc, if_true, Option.some.injEq] at hstep
    rw [← hstep]
    exact ⟨hsrc, rfl⟩
  have hrenamed' : .rename true ∈ past ++ [.openDes true] → Renames names before := by
    simpa using hrenamed
  have hkept' : .unlink true ∈ past ++ [.openDes true] → names.src ∉ before.way names.des := by
    simpa using hkept
  have hfirst : mover.pc = .rename → files = before := fun hfirst => absurd hfirst (renames_first hstep)
  obtain ⟨last, hlast, hopened⟩ := Option.map_eq_some_iff.mp hfiles
  cases hentry : move.files.entry last with
  | some file =>
    simp only [hentry] at hopened
    subst hopened
    have hdes : move.files.read names.des = mover.des := by
      rw [hmover.2, Files.read, Files.inode, hlast, Option.bind_some, hentry]
      rfl
    refine .going ?_ (fun _ => hplaced) hrenamed' hkept' hfirst
    rw [seen_stored (hsrc.trans hmover.1.symm) hdes]
    exact hnext
  | none =>
    simp only [hentry] at hopened
    obtain ⟨-, file, -, -, hfile, hcontent⟩ := Files.behind_of_read hsrc
    have hother : file ≠ names.fresh := by
      rintro rfl
      exact hplaced.other hfile
    have hcreated : files = move.files.created last names.fresh := hopened.symm
    have hinode : files.inode names.src = some file := by
      rw [hcreated]
      exact created_inode hentry hplaced.file hfile
    have htarget : files.target = move.files.target := by
      rw [hcreated]
      exact created_target hentry hplaced.file
    have hnew : files.inode names.des = some names.fresh := by
      rw [Files.inode, Files.behind_congr htarget, hlast, Option.bind_some, hcreated]
      exact Function.update_self _ _ _
    refine .going ?_ (fun _ => ⟨htarget.trans hplaced.target, ?_, ?_, ?_⟩) hrenamed' hkept' hfirst
    · rw [seen_stored]
      · exact hnext
      · rw [hmover.1, Files.read, hinode, Option.map_some, hcreated]
        exact congrArg some ((Function.update_of_ne hother _ _).trans hcontent)
      · rw [hmover.2, Files.read, hnew, Option.map_some, hcreated, Files.read, Files.inode, hlast,
          Option.bind_some, hentry]
        exact congrArg some (Function.update_self _ _ _)
    · rw [hinode, Ne, Option.some.injEq]
      exact hother
    · rw [hcreated]
      exact hplaced.file
    · rw [hinode, hnew, Option.some.injEq]
      exact fun hsame => absurd hsame hother

theorem Moving.write {count : Nat} (hstage : Stage content old past (move.seen names))
    (hplaced : Placed names content old before move.files)
    (hrenamed : .rename true ∈ past → Renames names before)
    (hkept : .unlink true ∈ past → names.src ∉ before.way names.des)
    (hstep : FileHelper.step (move.seen names) (.write (.done count)) = some mover)
    (hfiles : move.files.store names (.write (.done count)) mover = some files) :
    Moving names content old before (past ++ [.write (.done count)]) ⟨files, mover⟩ := by
  have hnext := hstage.step hstep
  obtain ⟨rest, hpc⟩ : ∃ rest, (move.seen names).pc = .write rest := by
    unfold FileHelper.step at hstep
    split at hstep <;> first | exact ⟨_, by assumption⟩ | contradiction
  have hsrc : move.files.read names.src = some content := hstage.source (by simp [hpc])
  obtain ⟨bytes, hwritten⟩ : ∃ bytes, mover = { move.seen names with
      des := some bytes
      toPos := (move.seen names).toPos + count
      pc := if count = rest.length then .read else .write (rest.drop count) } := by
    simp only [FileHelper.step, hpc] at hstep
    obtain ⟨bytes, -, hmover⟩ := Option.bind_eq_some_iff.mp hstep
    rw [Option.ite_none_right_eq_some] at hmover
    exact ⟨_, (Option.some.inj hmover.2).symm⟩
  have hdes : mover.des = some bytes := by
    rw [hwritten]
  obtain ⟨file, hfile, hopened⟩ := Option.map_eq_some_iff.mp hfiles
  rw [hdes, Option.getD_some] at hopened
  subst hopened
  refine .going ?_ (fun _ => ⟨hplaced.target, hplaced.other, hplaced.file, hplaced.linked⟩) ?_ ?_
    fun hfirst => absurd hfirst (renames_first hstep)
  · rw [seen_stored]
    · exact hnext
    · have hmover : mover.src = some content := by
        rw [hwritten]
        exact hsrc
      obtain ⟨-, other, -, -, hother, hcontent⟩ := Files.behind_of_read hsrc
      rw [hmover]
      refine (congrArg (Option.map _) hother).trans ?_
      rw [Option.map_some, Option.some.injEq]
      dsimp only
      by_cases hlinked : other = file
      · -- both paths are the file
        have hold := hplaced.linked (by rw [hother, hfile, hlinked])
        have hpc' : mover.pc = .read ∨ ∃ rest, mover.pc = .write rest := by
          rw [hwritten]
          dsimp only
          split
          · exact .inl rfl
          · exact .inr ⟨_, rfl⟩
        have hmerged := hnext.merged_of_copying hpc'
        rw [hdes, hold, merged_self, Option.some.injEq] at hmerged
        rw [hlinked, Function.update_self, hmerged]
      · rw [Function.update_of_ne hlinked, hcontent]
    · rw [hdes]
      refine (congrArg (Option.map _) hfile).trans ?_
      exact congrArg some (Function.update_self _ _ _)
  · simpa using hrenamed
  · simpa using hkept

theorem Moving.unlink (hstage : Stage content old past (move.seen names))
    (hplaced : Placed names content old before move.files)
    (hstep : FileHelper.step (move.seen names) (.unlink true) = some mover)
    (hfiles : move.files.store names (.unlink true) mover = some files) :
    Moving names content old before (past ++ [.unlink true]) ⟨files, mover⟩ := by
  have hpc : (move.seen names).pc = .unlink := by
    unfold FileHelper.step at hstep
    split at hstep <;> first | assumption | contradiction
  have hway : move.files.way names.des = before.way names.des := Files.way_congr hplaced.target _
  obtain ⟨hclean, hdes⟩ := hstage.copied_of_unlink hpc
  have hclean' : Clean (past ++ [.unlink true]) := clean_append hclean (by simp [Fatal])
  have hrename : .rename true ∉ past ++ [.unlink true] := fun hmem => (hclean' _ hmem).1 rfl
  simp only [FileHelper.step, hpc, if_true, Option.some.injEq] at hstep
  subst hstep
  rw [Files.store, Option.some.injEq] at hfiles
  have hread := read_unlinked move.files names.src names.des
  rw [hfiles] at hread
  by_cases hpasses : names.src ∈ move.files.way names.des
  · rw [if_pos hpasses] at hread
    refine .lost rfl ?_ (fun reply hreply => (hclean' reply hreply).2) (.inr ⟨hrename, by simp, ?_⟩)
    · rw [hread]
      simp
    · rw [← hway]
      exact hpasses
  · rw [if_neg hpasses] at hread
    refine .going (.moved rfl hclean' (hread.trans hdes)) (fun hrunning => absurd rfl (hrunning 0))
      (fun hmem => absurd hmem hrename) (fun _ => ?_) (by simp)
    rw [← hway]
    exact hpasses

/-! ### Runs -/

theorem Moving.step (h : Moving names content old before past move)
    (hstep : Moves.step names move reply = some next) :
    Moving names content old before (past ++ [reply]) next := by
  obtain ⟨mover, hmover, hstored⟩ := Option.bind_eq_some_iff.mp hstep
  obtain ⟨files, hfiles, rfl⟩ := Option.map_eq_some_iff.mp hstored
  cases h with
  | lost hpc =>
    have hreturned : (move.seen names).pc = .returned 0 := hpc
    simp [FileHelper.step, hreturned] at hmover
  | going hstage hplaced hrenamed hkept hbefore =>
    have hrunning : ∀ ret, move.mover.pc ≠ .returned ret := by
      intro ret hpc
      have hreturned : (move.seen names).pc = .returned ret := hpc
      simp [FileHelper.step, hreturned] at hmover
    have hplaced := hplaced hrunning
    by_cases hquiet : Quiet reply
    · rw [store_quiet hquiet, Option.some.injEq] at hfiles
      rw [← hfiles]
      exact .quiet hquiet hstage hplaced hrenamed hkept hmover
    · unfold Quiet at hquiet
      split at hquiet
      · exact .rename hstage hbefore hkept hmover hfiles
      · exact .openDes hstage hplaced hrenamed hkept hmover hfiles
      · exact .write hstage hplaced hrenamed hkept hmover hfiles
      · exact .unlink hstage hplaced hmover hfiles
      · exact absurd trivial hquiet

theorem moving_start (hsrc : files.read names.src = some content) (hfresh : Unused files names.fresh) :
    Moving names content (files.read names.des) files [] (start files) := by
  have hseen : (start files).seen names = FileHelper.start content (files.read names.des) := by
    simp only [Move.seen, start, FileHelper.start, hsrc]
  refine .going (hseen ▸ stage_start _ _) (fun _ => ⟨rfl, ?_, hfresh.file, ?_⟩) (by simp) (by simp)
    fun _ => rfl
  · intro hinode
    obtain ⟨last, -, hentry⟩ := Option.bind_eq_some_iff.mp hinode
    exact hfresh.entry last hentry
  · intro hlinked
    have hinode : files.inode names.src = files.inode names.des := hlinked
    rw [Files.read, ← hinode]
    exact hsrc

theorem Moving.exact_iff (h : Moving names content old before past move) {ret : Int}
    (hret : move.mover.pc = .returned ret) :
    Exact content (move.seen names) ↔
      .rename true ∈ past ∧ Renames names before ∨ (∃ reply ∈ past, Fatal reply) ∨
        .rename true ∉ past ∧ (old.getD []).length ≤ content.length ∧
          (.unlink true ∈ past → names.src ∉ before.way names.des) := by
  cases h with
  | going hstage _ hrenamed hkept =>
    rw [hstage.exact_iff hret]
    by_cases hrename : .rename true ∈ past
    · exact iff_of_true (.inl hrename) (.inl ⟨hrename, hrenamed hrename⟩)
    · simp only [hrename, not_false_eq_true, true_and, false_and, false_or]
      rw [and_iff_left hkept]
  | lost hpc hgone hclean hcase =>
    refine iff_of_false ?_ ?_
    · intro hexact
      exact hgone (hexact.copied hpc)
    · rintro (⟨hrename, hrenames⟩ | ⟨reply, hmem, hfatal⟩ | ⟨hrename, -, hkept⟩)
      · rcases hcase with ⟨-, hnot⟩ | ⟨hnot, -, -⟩
        · exact hnot hrenames
        · exact hnot hrename
      · exact hclean reply hmem hfatal
      · rcases hcase with ⟨hmem, -⟩ | ⟨-, hunlink, hpasses⟩
        · exact hrename hmem
        · exact hkept hunlink hpasses

theorem Moving.enabled (h : Moving names content old before past move) :
    (∃ ret, move.mover.pc = .returned ret) ∨ ∃ reply, (Moves.step names move reply).isSome := by
  cases h with
  | lost hpc => exact .inl ⟨0, hpc⟩
  | going hstage =>
    rcases hstage.enabled with hret | ⟨reply, hquiet, hreply⟩
    · exact .inl hret
    · obtain ⟨mover, hmover⟩ := Option.isSome_iff_exists.mp hreply
      refine .inr ⟨reply, ?_⟩
      rw [Moves.step, hmover, Option.bind_some, store_quiet hquiet]
      rfl

/-- In every run the source is there until the move returns 0, and a move that returns was exact
unless it renamed a symbolic link that leads elsewhere then, copied over a longer file, or copied a
file onto itself and unlinked it. -/
theorem moved_exactly (hsrc : files.read names.src = some content) (hfresh : Unused files names.fresh)
    (run : exec (Moves.step names) (start files) replies = some final) :
    (final.mover.pc ≠ .returned 0 → final.files.read names.src = some content) ∧
    ((∃ ret, final.mover.pc = .returned ret) ∨ ∃ reply, (Moves.step names final reply).isSome) ∧
    ∀ ret, final.mover.pc = .returned ret →
      (Exact content (final.seen names) ↔
        .rename true ∈ replies ∧ Renames names files ∨ (∃ reply ∈ replies, Fatal reply) ∨
          .rename true ∉ replies ∧ ((files.read names.des).getD []).length ≤ content.length ∧
            (.unlink true ∈ replies → names.src ∉ files.way names.des)) := by
  have hmoving : Moving names content (files.read names.des) files replies final := by
    have hhistory := exec_history (fun _ _ _ _ h hstep => h.step hstep) (moving_start hsrc hfresh) run
    exact hhistory
  refine ⟨fun hne => ?_, hmoving.enabled, fun ret hret => hmoving.exact_iff hret⟩
  cases hmoving with
  | going hstage => exact hstage.source hne
  | lost hpc => exact absurd hpc hne

end

/-- The files "s" and "d", the second of them longer, and "l", which is a symbolic link to the "d"
next to it. -/
def twoFiles : Files where
  entry name := if name = [115] then some 0 else if name = [100] then some 1
    else if name = [108] then some 2 else none
  symlink inode := if inode = 2 then some fun name => name.dropLast ++ [100] else none
  content inode := if inode = 0 then [1] else [2, 3]

/-- The rename fails, and the copy does not. -/
def copies : List Reply :=
  [.rename false, .openSrc true, .openDes true, .read (.done 1), .write .interrupted,
    .write (.done 1), .read (.done 0), .unlink true]

theorem tail_left_over : ∃ final,
    exec (step ⟨[115], [100], 3⟩) (start twoFiles) copies = some final ∧
      final.mover.pc = .returned 0 ∧ final.files.read [115] = none ∧
      final.files.read [100] = some [1, 3] ∧ ¬Exact [1] (final.seen ⟨[115], [100], 3⟩) := by
  have hruns : (exec (step ⟨[115], [100], 3⟩) (start twoFiles) copies).any (fun final =>
      final.mover.pc = .returned 0 ∧ final.files.read [115] = none ∧
        final.files.read [100] = some [1, 3]) = true := by
    decide +kernel
  obtain ⟨final, run, htest⟩ := (Option.any_eq_true _ _).mp hruns
  obtain ⟨hpc, hsrc, hdes⟩ := of_decide_eq_true htest
  refine ⟨final, run, hpc, hsrc, hdes, fun hexact => ?_⟩
  have hcopied : final.files.read [100] = some [1] := hexact.copied hpc
  rw [hdes] at hcopied
  contradiction

/-- A file that is copied onto itself is gone. -/
example : (exec (step ⟨[115], [115], 3⟩) (start twoFiles) copies).any (fun final =>
    final.mover.pc = .returned 0 ∧ final.files.read [115] = none) = true := by
  decide +kernel

/-- A symbolic link that is renamed to the file behind it leads to itself then. In another directory
it leads to a file that is not there. -/
example : (exec (step ⟨[108], [100], 3⟩) (start twoFiles) [.rename true]).any (fun final =>
    final.mover.pc = .returned 0 ∧ final.files.read [100] = none) = true ∧
    (exec (step ⟨[108], [101, 47, 108], 3⟩) (start twoFiles) [.rename true]).any (fun final =>
      final.mover.pc = .returned 0 ∧ final.files.read [101, 47, 108] = none) = true := by
  decide +kernel

/-- The longer file is copied over the other one. -/
def copiesBoth : List Reply :=
  [.rename false, .openSrc true, .openDes true, .read (.done 2), .write .interrupted,
    .write (.done 1), .write (.done 1), .read (.done 0), .unlink true]

theorem moved_exactly_onto : ∃ final,
    exec (step ⟨[108], [115], 3⟩) (start twoFiles) copiesBoth = some final ∧
      final.mover.pc = .returned 0 ∧ Exact [2, 3] (final.seen ⟨[108], [115], 3⟩) := by
  have hruns : (exec (step ⟨[108], [115], 3⟩) (start twoFiles) copiesBoth).any
      (fun final => final.mover.pc = .returned 0) = true := by
    decide +kernel
  obtain ⟨final, run, htest⟩ := (Option.any_eq_true _ _).mp hruns
  have hpc := of_decide_eq_true htest
  have hfresh : Unused twoFiles 3 := by
    refine ⟨fun name => ?_, rfl⟩
    simp only [twoFiles]
    split
    · simp
    · split
      · simp
      · split <;> simp
  have hsrc : twoFiles.read [108] = some [2, 3] := by decide +kernel
  obtain ⟨-, -, hiff⟩ := moved_exactly hsrc hfresh run
  exact ⟨final, run, hpc, (hiff 0 hpc).mpr (.inr (.inr (by decide +kernel)))⟩

end UdpFileProxy.Moves
