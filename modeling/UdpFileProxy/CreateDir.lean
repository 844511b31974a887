import UdpFileProxy.Lib.Directories
import UdpFileProxy.Lib.Memory
import Mathlib.Data.List.DropRight
import Mathlib.Data.List.Infix

/-! `CreateDir` of `Common.c` on a tree of directories without links, where `mkdir` fails only
for a path that exists, is empty or has no directory to be in. -/
namespace UdpFileProxy.CreateDir
open Lib.Directories Lib.Memory

def slash : UInt8 := 47

/-- The files of the machine and the working directory of the process. -/
@[ext] structure Files where
  tree : DirTree Bytes
  cwd : List Bytes
  inside : tree.kind cwd = some .directory

/-- What one component of a path stands for. -/
def move (name : Bytes) : Move Bytes :=
  if name = [] ∨ name = [46] then .stay
  else if name = [46, 46] then .up
  else .down name

def moves (path : Bytes) : List (Move Bytes) := (path.splitOn slash).map move

def Files.base (files : Files) (path : Bytes) : List Bytes :=
  if path.head? = some slash then [] else files.cwd

def Files.locate (files : Files) (path : Bytes) : Option (List Bytes) :=
  files.tree.walk (files.base path) (moves path)

/-- What a path names; the empty path names nothing. -/
def Files.stat (files : Files) (path : Bytes) : Option Kind :=
  if path = [] then none else (files.locate path).bind files.tree.kind

/-- `access(path, F_OK)`. -/
def access (files : Files) (path : Bytes) : Int := if (files.stat path).isSome then 0 else -1

/-- The node that `mkdir` creates; slashes at the end do not count. -/
def Files.vacant (files : Files) (path : Bytes) : Option (List Bytes) :=
  if path = [] then none
  else
    (files.tree.walk (files.base path) (moves (path.rdropWhile (· = slash)))).filter
      fun node => (files.tree.kind node).isNone

section
variable {files : Files} {path : Bytes} {node : List Bytes}

@[simp] theorem Files.base_parent (files : Files) (path : Bytes) :
    files.tree.kind (files.base path) = some .directory := by
  rw [base]
  split
  · exact files.tree.root
  · exact files.inside

theorem Files.vacant_parent (h : files.vacant path = some node) :
    files.tree.kind node.dropLast = some .directory := by
  rw [vacant, Option.ite_none_left_eq_some, Option.filter_eq_some_iff] at h
  refine DirTree.walk_parent h.2.1 (files.tree.parent _ ?_)
  simp

end

/-- The files with one more directory. -/
def Files.create (files : Files) (node : List Bytes)
    (hparent : files.tree.kind node.dropLast = some .directory) : Files where
  tree := files.tree.create node hparent
  cwd := files.cwd
  inside := by
    by_cases hsame : files.cwd = node
    · simp [DirTree.create, hsame]
    · exact (Function.update_of_ne hsame _ _).trans files.inside

/-- `mkdir(path, 0755)`; `none` is -1. -/
def mkdir (files : Files) (path : Bytes) : Option Files :=
  match h : files.vacant path with
  | none => none
  | some node => some (files.create node (Files.vacant_parent h))

/-- The loop that looks for the last slash; at the end of the list is the NUL. -/
def lastSlash : Bytes → Nat → Option Nat → Option Nat
  | [], _, filePath => filePath
  | byte :: rest, i, filePath => lastSlash rest (i + 1) (if byte = slash then some i else filePath)

/-- One round of the second loop; an error is `return -1`. -/
def visit : Files × Bytes → Nat → Except Files (Files × Bytes)
  | (files, pszDir), i =>
    if pszDir[i]? = some slash ∧ i > 0 then
      let cut := pszDir.set i 0
      if access files (cstr cut) < 0 then
        match mkdir files (cstr cut) with
        | none => .error files
        | some made => .ok (made, cut.set i slash)
      else .ok (files, cut.set i slash)
    else .ok (files, pszDir)

/-- `none` is a null pointer that is written through. -/
def createDir (files : Files) (pDir : Option Bytes) : Option (Int × Files) :=
  match pDir with
  | none => some (0, files)
  | some pDir =>
    let text := cstr pDir
    (lastSlash text 0 none).map fun filePath =>
      match (List.range text.length).foldlM visit (files, (text ++ [0]).set filePath 0) with
      | .error files => (-1, files)
      | .ok (files, pszDir) =>
        match mkdir files (cstr pszDir) with
        | none => (-1, files)
        | some made => (0, made)

/-- A non-empty part of the path that ends just before one of its slashes. -/
def Ancestor (path ancestor : Bytes) : Prop := ancestor ≠ [] ∧ ancestor ++ [slash] <+: path

/-- No component is `.` or `..`. -/
def Plain (path : Bytes) : Prop := ∀ name ∈ path.splitOn slash, name ≠ [46] ∧ name ≠ [46, 46]

/-- The directories before the slashes up to position `k` are there, and nothing else is new. -/
structure Made (files after : Files) (text : Bytes) (k : Nat) : Prop where
  cwd : after.cwd = files.cwd
  reached : ∀ j < k, text[j]? = some slash → ∃ node,
    DirTree.Reached files.tree after.tree (files.base text) (moves (text.take j)) node
  kept : ∀ node, after.tree.kind node = files.tree.kind node ∨
    files.tree.kind node = none ∧ after.tree.kind node = some .directory ∧
      ∃ j, 0 < j ∧ text[j]? = some slash ∧
        after.tree.walk (files.base text) (moves (text.take j)) = some node

section
variable {files after made : Files} {path front name text buffer : Bytes} {node : List Bytes}
  {i j k : Nat}

theorem mkdir_eq_none (h : files.vacant path = none) : mkdir files path = none := by
  unfold mkdir
  split
  · rfl
  · rename_i node hvacant
    rw [h] at hvacant
    contradiction

theorem mkdir_of_vacant (h : files.vacant path = some node) :
    ∃ made, mkdir files path = some made ∧ made.cwd = files.cwd ∧
      made.tree.kind = Function.update files.tree.kind node (some .directory) := by
  unfold mkdir
  split
  · rename_i hvacant
    rw [h] at hvacant
    contradiction
  · rename_i other hvacant
    obtain rfl := Option.some.inj (h.symm.trans hvacant)
    exact ⟨_, rfl, rfl, rfl⟩

theorem moves_concat (front : Bytes) (hname : slash ∉ name) :
    moves (front ++ slash :: name) = moves front ++ [move name] := by
  rw [moves, List.splitOn_append_cons_self, List.splitOn_eq_singleton hname, List.map_append]
  rfl

theorem moves_singleton (hname : slash ∉ name) : moves name = [move name] := by
  rw [moves, List.splitOn_eq_singleton hname]
  rfl

theorem moves_slashes (front : Bytes) (count : Nat) :
    moves (front ++ List.replicate count slash) = moves front ++ List.replicate count .stay := by
  induction count with
  | zero => simp
  | succ count ih =>
    rw [List.replicate_succ', ← List.append_assoc, moves_concat _ List.not_mem_nil, ih,
      List.replicate_succ', List.append_assoc]
    rfl

theorem vacant_eq_none {kind : Kind} (h : files.stat path = some kind) : files.vacant path = none := by
  rw [Files.stat, Option.ite_none_left_eq_some, Option.bind_eq_some_iff] at h
  obtain ⟨hne, node, hlocate, hkind⟩ := h
  rw [Files.vacant, if_neg hne, Option.filter_eq_none_iff]
  intro other hother
  have hslashes : path.rtakeWhile (· = slash) =
      List.replicate (path.rtakeWhile (· = slash)).length slash := by
    rw [List.eq_replicate_iff]
    exact ⟨rfl, fun byte hbyte => by simpa using List.mem_rtakeWhile_imp hbyte⟩
  have hsplit := List.rdropWhile_append_rtakeWhile (p := fun byte => decide (byte = slash)) (l := path)
  rw [hslashes] at hsplit
  rw [Files.locate, ← hsplit, moves_slashes, DirTree.walk_append, hsplit, hother,
    Option.bind_some] at hlocate
  rw [DirTree.walk_stay hlocate] at hkind
  simp [hkind]

theorem vacant_eq_some (hlast : path.getLast? ≠ some slash) (hne : path ≠ [])
    (hlocate : files.locate path = some node) (hnone : files.tree.kind node = none) :
    files.vacant path = some node := by
  have hstrip : path.rdropWhile (· = slash) = path := by
    rw [List.rdropWhile_eq_self_iff]
    intro hne'
    rw [List.getLast?_eq_some_getLast hne'] at hlast
    simpa using hlast
  rw [Files.vacant, if_neg hne, hstrip, ← Files.locate, hlocate]
  simp [Option.filter, hnone]

theorem exists_last (path : Bytes) :
    slash ∉ path ∨ ∃ front name, path = front ++ slash :: name ∧ slash ∉ name := by
  induction path using List.reverseRecOn with
  | nil => exact .inl List.not_mem_nil
  | append_singleton path byte ih =>
    by_cases hbyte : byte = slash
    · exact .inr ⟨path, [], by rw [hbyte], List.not_mem_nil⟩
    · rcases ih with hnot | ⟨front, name, rfl, hnot⟩
      · exact .inl (by simp [hnot, Ne.symm hbyte])
      · exact .inr ⟨front, name ++ [byte], by simp, by simp [hnot, Ne.symm hbyte]⟩

theorem Files.base_take (hcwd : after.cwd = files.cwd) (hk : 0 < k) :
    after.base (text.take k) = files.base text := by
  rw [base, base, hcwd, List.head?_take, if_neg hk.ne']

theorem text_eq (hslash : text[k]? = some slash) : text = text.take k ++ slash :: text.drop (k + 1) := by
  obtain ⟨hlt, hget⟩ := List.getElem?_eq_some_iff.mp hslash
  rw [← hget, ← List.drop_eq_getElem_cons hlt, List.take_append_drop]

theorem move_ne_up (hplain : Plain text) (hslash : text[k]? = some slash)
    (hmem : name ∈ (text.take k).splitOn slash) : move name ≠ .up := by
  have hall : name ∈ text.splitOn slash := by
    rw [text_eq hslash, List.splitOn_append_cons_self]
    exact List.mem_append_left _ hmem
  unfold move
  by_cases hstay : name = [] ∨ name = [46]
  · simp [hstay]
  · simp [hstay, (hplain name hall).2]

theorem made_start (files : Files) (text : Bytes) : Made files files text 0 where
  cwd := rfl
  reached := by simp
  kept := fun _ => .inl rfl

theorem Made.next (h : Made files after text k)
    (hnext : text[k]? = some slash → ∃ node,
      DirTree.Reached files.tree after.tree (files.base text) (moves (text.take k)) node) :
    Made files after text (k + 1) where
  cwd := h.cwd
  reached := by
    intro j hj hslash
    by_cases hlast : j = k
    · rw [hlast] at hslash ⊢
      exact hnext hslash
    · exact h.reached j (by omega) hslash
  kept := h.kept

theorem Made.first (h : Made files after text 0) : Made files after text 1 := by
  refine h.next fun _ => ⟨files.base text, ?_⟩
  have hbase : after.tree.kind (files.base text) = some .directory := by
    rcases h.kept (files.base text) with hsame | ⟨-, hdir, -⟩
    · rw [hsame, files.base_parent]
    · exact hdir
  have hmoves : moves (text.take 0) = [.stay] := rfl
  rw [hmoves]
  exact {
    there := if_pos hbase
    directory := hbase
    before := fun hold => if_pos hold }

theorem Made.above (h : Made files after text k) (hplain : Plain text)
    (hslash : text[k]? = some slash) :
    ∃ start name node, moves (text.take k) = start ++ [move name] ∧ move name ≠ .up ∧
      slash ∉ name ∧ name <:+ text.take k ∧
      DirTree.Reached files.tree after.tree (files.base text) start node := by
  rcases exists_last (text.take k) with hnot | ⟨front, name, heq, hnot⟩
  · have hbase : after.tree.kind (files.base text) = some .directory := by
      rcases h.kept (files.base text) with hsame | ⟨-, hdir, -⟩
      · rw [hsame, files.base_parent]
      · exact hdir
    have hmem : text.take k ∈ (text.take k).splitOn slash := by
      rw [List.splitOn_eq_singleton hnot]
      exact List.mem_singleton_self _
    exact ⟨[], text.take k, files.base text, moves_singleton hnot, move_ne_up hplain hslash hmem,
      hnot, List.suffix_refl _, rfl, hbase, fun _ => rfl⟩
  · have hlength := congrArg List.length heq
    rw [List.length_take, List.length_append, List.length_cons] at hlength
    have hfront : front = text.take front.length := by
      have htake := congrArg (List.take front.length) heq
      rw [List.take_take, List.take_left, Nat.min_eq_left (by omega)] at htake
      exact htake.symm
    have hbefore : text[front.length]? = some slash := by
      rw [← List.getElem?_take_of_lt (by omega : front.length < k), heq]
      simp
    obtain ⟨node, hreached⟩ := h.reached front.length (by omega) hbefore
    rw [← hfront] at hreached
    have hmem : name ∈ (text.take k).splitOn slash := by
      rw [heq, List.splitOn_append_cons_self, List.splitOn_eq_singleton hnot]
      exact List.mem_append_right _ (List.mem_singleton_self name)
    refine ⟨moves front, name, node, ?_, move_ne_up hplain hslash hmem, hnot, ?_, hreached⟩
    · rw [heq, moves_concat front hnot]
    · rw [heq]
      exact ⟨front ++ [slash], by simp⟩


theorem Made.create (h : Made files after text k) (hk : 0 < k) (hslash : text[k]? = some slash)
    (hwalk : after.tree.walk (files.base text) (moves (text.take k)) = some node)
    (hnone : after.tree.kind node = none) (hcwd : made.cwd = after.cwd)
    (hkind : made.tree.kind = Function.update after.tree.kind node (some .directory)) :
    Made files made text (k + 1) := by
  have hnew : made.tree.kind node = some .directory := by rw [hkind, Function.update_self]
  have hother : ∀ other, other ≠ node → made.tree.kind other = after.tree.kind other := by
    intro other hne
    rw [hkind, Function.update_of_ne hne]
  have hdirs : ∀ other, after.tree.kind other = some .directory →
      made.tree.kind other = some .directory := by
    intro other hdir
    by_cases hsame : other = node
    · rw [hsame, hnew]
    · rw [hother other hsame, hdir]
  have hbefore : files.tree.kind node = none := by
    rcases h.kept node with hsame | ⟨hold, -⟩
    · rw [← hsame, hnone]
    · exact hold
  constructor
  · rw [hcwd, h.cwd]
  · intro j hj hat
    by_cases hlast : j = k
    · subst hlast
      exact ⟨node, DirTree.walk_mono hdirs hwalk, hnew, by simp [hbefore]⟩
    · obtain ⟨other, hreached⟩ := h.reached j (by omega) hat
      exact ⟨other, hreached.mono hdirs⟩
  · intro other
    by_cases hsame : other = node
    · subst hsame
      exact .inr ⟨hbefore, hnew, k, hk, hslash, DirTree.walk_mono hdirs hwalk⟩
    · rw [hother other hsame]
      rcases h.kept other with hkept | ⟨hold, hdir, j, hj, hat, hwalked⟩
      · exact .inl hkept
      · exact .inr ⟨hold, hdir, j, hj, hat, DirTree.walk_mono hdirs hwalked⟩

theorem Made.advance (h : Made files after text k) (hk : 0 < k) (hplain : Plain text)
    (hslash : text[k]? = some slash) (hfree : files.stat (text.take k) ≠ some .other) :
    (after.stat (text.take k) = some .directory ∧ Made files after text (k + 1)) ∨
      (after.stat (text.take k) = none ∧ ∃ made, mkdir after (text.take k) = some made ∧
        Made files made text (k + 1)) := by
  obtain ⟨start, name, node, hmoves, hup, hnot, hsuffix, hreached⟩ := h.above hplain hslash
  have hne : text.take k ≠ [] := by
    have hlt := (List.getElem?_eq_some_iff.mp hslash).1
    rw [Ne, List.take_eq_nil_iff, List.eq_nil_iff_length_eq_zero]
    omega
  have hwalk : after.tree.walk (files.base text) (moves (text.take k)) =
      some ((move name).apply node) := by
    rw [hmoves]
    exact DirTree.walk_concat hreached.there hreached.directory (move name)
  have hlocate : after.locate (text.take k) = some ((move name).apply node) := by
    rw [Files.locate, Files.base_take h.cwd hk, hwalk]
  have hstat : after.stat (text.take k) = after.tree.kind ((move name).apply node) := by
    rw [Files.stat, if_neg hne, hlocate, Option.bind_some]
  rw [hstat]
  cases hkind : after.tree.kind ((move name).apply node) with
  | some kind =>
    cases kind with
    | directory =>
      refine .inl ⟨rfl, h.next fun _ => ⟨(move name).apply node, ?_⟩⟩
      rw [hmoves]
      exact hreached.concat hup hkind
    | other =>
      exfalso
      apply hfree
      cases hmove : move name with
      | stay =>
        rw [hmove, Move.apply, hreached.directory] at hkind
        contradiction
      | up => contradiction
      | down last =>
        rw [hmove, Move.apply] at hkind
        have hold : files.tree.kind (node ++ [last]) = some .other := by
          rcases h.kept (node ++ [last]) with hsame | ⟨-, hdir, -⟩
          · rw [← hsame, hkind]
          · rw [hkind] at hdir
            contradiction
        have hbefore := hreached.down (by simp [hold] : files.tree.kind (node ++ [last]) ≠ none)
        rw [← hmove, ← hmoves] at hbefore
        rw [Files.stat, if_neg hne, Files.locate, Files.base_take rfl hk, hbefore, Option.bind_some, hold]
  | none =>
    refine .inr ⟨rfl, ?_⟩
    have hlast : (text.take k).getLast? ≠ some slash := by
      have hname : name ≠ [] := by
        rintro rfl
        rw [move, if_pos (.inl rfl), Move.apply, hreached.directory] at hkind
        contradiction
      obtain ⟨front, heq⟩ := hsuffix
      rw [← heq, List.getLast?_append_of_ne_nil front hname]
      intro hmem
      exact hnot (List.mem_of_getLast? hmem)
    obtain ⟨made, hmkdir, hcwd, hmade⟩ := mkdir_of_vacant (vacant_eq_some hlast hne hlocate hkind)
    exact ⟨made, hmkdir, h.create hk hslash hwalk hkind hcwd hmade⟩


theorem lastSlash_eq (text : Bytes) (i : Nat) (filePath : Option Nat) :
    slash ∉ text ∧ lastSlash text i filePath = filePath ∨
      ∃ last, text[last]? = some slash ∧ (∀ j, last < j → text[j]? ≠ some slash) ∧
        lastSlash text i filePath = some (i + last) := by
  induction text generalizing i filePath with
  | nil => exact .inl ⟨List.not_mem_nil, rfl⟩
  | cons byte rest ih =>
    rw [lastSlash]
    rcases ih (i + 1) (if byte = slash then some i else filePath) with
      ⟨hnot, heq⟩ | ⟨last, hlast, hafter, heq⟩
    · by_cases hbyte : byte = slash
      · refine .inr ⟨0, by rw [hbyte]; rfl, ?_, by rw [heq, if_pos hbyte]; rfl⟩
        intro j hj hmem
        obtain ⟨k, rfl⟩ := Nat.exists_eq_succ_of_ne_zero hj.ne'
        exact hnot (List.mem_of_getElem? hmem)
      · refine .inl ⟨?_, by rw [heq, if_neg hbyte]⟩
        rw [List.mem_cons, not_or]
        exact ⟨Ne.symm hbyte, hnot⟩
    · refine .inr ⟨last + 1, hlast, ?_, by rw [heq, Nat.add_assoc, Nat.add_comm 1 last]⟩
      intro j hj
      obtain ⟨k, rfl⟩ := Nat.exists_eq_succ_of_ne_zero (by omega : j ≠ 0)
      exact hafter k (by omega)

theorem cstr_set (hclean : 0 ∉ text) (hi : i ≤ j) (hj : j < text.length) :
    cstr (((text ++ [0]).set j 0).set i 0) = text.take i := by
  have htake : (((text ++ [0]).set j 0).set i 0).take i = text.take i := by
    rw [List.take_set_of_le (le_refl i), List.take_set_of_le hi, List.take_append_of_le_length (by omega)]
  have hdrop : ∃ rest, (((text ++ [0]).set j 0).set i 0).drop i = 0 :: rest := by
    rw [List.drop_set, if_neg (by omega), Nat.sub_self]
    cases hrest : ((text ++ [0]).set j 0).drop i with
    | nil =>
      rw [List.drop_eq_nil_iff] at hrest
      simp only [List.length_set, List.length_append, List.length_singleton] at hrest
      omega
    | cons byte rest => exact ⟨rest, rfl⟩
  obtain ⟨rest, hdrop⟩ := hdrop
  have hsplit := List.take_append_drop i (((text ++ [0]).set j 0).set i 0)
  rw [htake, hdrop] at hsplit
  rw [← hsplit, cstr, List.takeWhile_append_of_pos, List.takeWhile_cons_of_neg (by simp),
    List.append_nil]
  intro byte hbyte
  have hne : byte ≠ 0 := by
    rintro rfl
    exact hclean (List.mem_of_mem_take hbyte)
  simpa using hne


theorem set_restore {bytes : Bytes} {byte : UInt8} (h : bytes[i]? = some byte) (other : UInt8) :
    (bytes.set i other).set i byte = bytes := by
  obtain ⟨hlt, rfl⟩ := List.getElem?_eq_some_iff.mp h
  rw [List.set_set, List.set_getElem_self]

theorem cut_eq_slash (hj : j < text.length) :
    ((text ++ [0]).set j 0)[i]? = some slash ↔ i ≠ j ∧ text[i]? = some slash := by
  by_cases hsame : i = j
  · subst hsame
    simp [List.getElem?_set, slash]
  · rw [List.getElem?_set_ne (Ne.symm hsame), and_iff_right hsame]
    by_cases hlt : i < text.length
    · rw [List.getElem?_append_left hlt]
    · have hnone : text[i]? = none := List.getElem?_eq_none (by omega)
      rw [List.getElem?_append_right (by omega), hnone, List.getElem?_singleton]
      split <;> simp [slash]

theorem visit_skip (h : ¬(buffer[i]? = some slash ∧ i > 0)) :
    visit (files, buffer) i = .ok (files, buffer) := by
  rw [visit, if_neg h]

theorem visit_slash (hbuffer : buffer[i]? = some slash) (hi : 0 < i)
    (hcut : cstr (buffer.set i 0) = path) :
    visit (files, buffer) i =
      if access files path < 0 then (mkdir files path).elim (.error files) fun made => .ok (made, buffer)
      else .ok (files, buffer) := by
  rw [visit, if_pos ⟨hbuffer, hi⟩]
  dsimp only
  rw [hcut, set_restore hbuffer]
  cases mkdir files path <;> rfl

theorem access_of_stat {kind : Kind} (h : files.stat path = some kind) : ¬access files path < 0 := by
  simp [access, h]

theorem access_of_none (h : files.stat path = none) : access files path < 0 := by
  simp [access, h]

/-- The ancestors that are there already are directories. -/
def Free (files : Files) (path : Bytes) : Prop :=
  ∀ ancestor, Ancestor path ancestor → files.stat ancestor ≠ some .other

theorem ancestor_take (hk : 0 < k) (hslash : text[k]? = some slash) : Ancestor text (text.take k) := by
  constructor
  · have hlt := (List.getElem?_eq_some_iff.mp hslash).1
    rw [Ne, List.take_eq_nil_iff, List.eq_nil_iff_length_eq_zero]
    omega
  · refine ⟨text.drop (k + 1), ?_⟩
    conv_rhs => rw [text_eq hslash]
    simp

theorem Made.round (h : Made files after text i) (hclean : 0 ∉ text) (hplain : Plain text)
    (hfree : Free files text) (hi : i < j) (hj : j < text.length) :
    ∃ made, visit (after, (text ++ [0]).set j 0) i = .ok (made, (text ++ [0]).set j 0) ∧
      Made files made text (i + 1) := by
  by_cases hslash : text[i]? = some slash
  · by_cases hzero : i = 0
    · subst hzero
      exact ⟨after, visit_skip (by simp), h.first⟩
    · have hpos : 0 < i := Nat.pos_of_ne_zero hzero
      rw [visit_slash ((cut_eq_slash hj).mpr ⟨hi.ne, hslash⟩) hpos (cstr_set hclean hi.le hj)]
      rcases h.advance hpos hplain hslash (hfree _ (ancestor_take hpos hslash)) with
        ⟨hstat, hnext⟩ | ⟨hstat, made, hmkdir, hnext⟩
      · rw [if_neg (access_of_stat hstat)]
        exact ⟨after, rfl, hnext⟩
      · rw [if_pos (access_of_none hstat), hmkdir]
        exact ⟨made, rfl, hnext⟩
  · refine ⟨after, visit_skip ?_, h.next fun hother => absurd hother hslash⟩
    rw [cut_eq_slash hj]
    exact fun hboth => hslash hboth.1.2

theorem made_loop (hclean : 0 ∉ text) (hplain : Plain text) (hfree : Free files text)
    (hj : j < text.length) (hafter : ∀ i, j < i → text[i]? ≠ some slash) (count : Nat) :
    ∃ after, (List.range count).foldlM visit (files, (text ++ [0]).set j 0) =
        .ok (after, (text ++ [0]).set j 0) ∧ Made files after text (min count j) := by
  induction count with
  | zero => exact ⟨files, rfl, by rw [Nat.zero_min]; exact made_start files text⟩
  | succ count ih =>
    obtain ⟨after, hloop, hmade⟩ := ih
    rw [List.range_succ, List.foldlM_append, hloop]
    by_cases hlt : count < j
    · rw [Nat.min_eq_left hlt.le] at hmade
      obtain ⟨made, hvisit, hnext⟩ := hmade.round hclean hplain hfree hlt hj
      refine ⟨made, ?_, by rw [Nat.min_eq_left hlt]; exact hnext⟩
      change (List.foldlM visit _ [count]) = _
      rw [List.foldlM_cons, hvisit]
      rfl
    · rw [Nat.min_eq_right (by omega)] at hmade
      have hskip : visit (after, (text ++ [0]).set j 0) count = .ok (after, (text ++ [0]).set j 0) := by
        refine visit_skip fun hboth => ?_
        obtain ⟨hne, hslash⟩ := (cut_eq_slash hj).mp hboth.1
        exact hafter count (by omega) hslash
      refine ⟨after, ?_, by rw [Nat.min_eq_right (by omega)]; exact hmade⟩
      change (List.foldlM visit _ [count]) = _
      rw [List.foldlM_cons, hskip]
      rfl


theorem Made.last (h : Made files after text j) (hclean : 0 ∉ text) (hplain : Plain text)
    (hfree : Free files text) (hslash : text[j]? = some slash) :
    ∃ ret made, (match mkdir after (cstr ((text ++ [0]).set j 0)) with
      | none => (-1, after)
      | some made => ((0 : Int), made)) = (ret, made) ∧ Made files made text (j + 1) := by
  have hj : j < text.length := (List.getElem?_eq_some_iff.mp hslash).1
  have hcut : cstr ((text ++ [0]).set j 0) = text.take j := by
    have hset := cstr_set hclean (le_refl j) hj
    rwa [List.set_set] at hset
  rw [hcut]
  by_cases hzero : j = 0
  · subst hzero
    rw [List.take_zero, mkdir_eq_none (if_pos rfl)]
    exact ⟨-1, after, rfl, h.first⟩
  · have hpos : 0 < j := Nat.pos_of_ne_zero hzero
    rcases h.advance hpos hplain hslash (hfree _ (ancestor_take hpos hslash)) with
      ⟨hstat, hnext⟩ | ⟨hstat, made, hmkdir, hnext⟩
    · rw [mkdir_eq_none (vacant_eq_none hstat)]
      exact ⟨-1, after, rfl, hnext⟩
    · rw [hmkdir]
      exact ⟨0, made, rfl, hnext⟩

/-- A call makes all directories before the slashes of the path, and nothing else. -/
theorem createDir_made {pDir : Bytes} (hslash : slash ∈ cstr pDir) (hplain : Plain (cstr pDir))
    (hfree : Free files (cstr pDir)) :
    ∃ ret after, createDir files (some pDir) = some (ret, after) ∧
      ∀ k, Made files after (cstr pDir) k := by
  have hclean : 0 ∉ cstr pDir := fun hmem => by simpa using List.mem_takeWhile_imp hmem
  rcases lastSlash_eq (cstr pDir) 0 none with ⟨hnot, -⟩ | ⟨j, hat, hafter, hlast⟩
  · contradiction
  · have hj : j < (cstr pDir).length := (List.getElem?_eq_some_iff.mp hat).1
    obtain ⟨before, hloop, hmade⟩ := made_loop hclean hplain hfree hj hafter (cstr pDir).length
    rw [Nat.min_eq_right hj.le] at hmade
    obtain ⟨ret, after, hmkdir, hdone⟩ := hmade.last hclean hplain hfree hat
    refine ⟨ret, after, ?_, fun k => ⟨hdone.cwd, ?_, hdone.kept⟩⟩
    · rw [createDir, hlast, Nat.zero_add, Option.map_some, hloop]
      exact congrArg some hmkdir
    · intro i _ hslash
      refine hdone.reached i ?_ hslash
      by_contra hlate
      exact hafter i (by omega) hslash


theorem Ancestor.exists_take {ancestor : Bytes} (h : Ancestor text ancestor) :
    ∃ k, 0 < k ∧ text[k]? = some slash ∧ ancestor = text.take k := by
  obtain ⟨hne, rest, rfl⟩ := h
  refine ⟨ancestor.length, List.length_pos_iff.mpr hne, ?_, ?_⟩
  · simp
  · simp

theorem Made.dirs (h : Made files after text k) (hdir : files.tree.kind node = some .directory) :
    after.tree.kind node = some .directory := by
  rcases h.kept node with hsame | ⟨-, hnew, -⟩
  · rw [hsame, hdir]
  · exact hnew

theorem Made.stat (h : ∀ k, Made files after text k) {ancestor : Bytes}
    (hancestor : Ancestor text ancestor) : after.stat ancestor = some .directory := by
  have hne := hancestor.1
  obtain ⟨k, hk, hslash, rfl⟩ := hancestor.exists_take
  obtain ⟨node, hreached⟩ := (h (k + 1)).reached k (by omega) hslash
  rw [Files.stat, if_neg hne, Files.locate, Files.base_take (h 0).cwd hk, hreached.there,
    Option.bind_some, hreached.directory]

theorem Made.again (h : ∀ k, Made files after text k) (hagain : ∀ k, Made after made text k) :
    made = after := by
  have hbase : after.base text = files.base text := by
    rw [Files.base, Files.base, (h 0).cwd]
  have hkind : made.tree.kind = after.tree.kind := by
    funext node
    rcases (hagain 0).kept node with hsame | ⟨hnone, -, j, -, hslash, hwalk⟩
    · exact hsame
    · obtain ⟨other, hreached⟩ := (h (j + 1)).reached j (by omega) hslash
      have hthere := DirTree.walk_mono (fun _ hdir => (hagain 0).dirs hdir) hreached.there
      rw [hbase, hthere] at hwalk
      rw [← Option.some.inj hwalk, hreached.directory] at hnone
      contradiction
  exact Files.ext (DirTree.ext hkind) (hagain 0).cwd

/-- After a call every ancestor of the path is a directory, only ancestors are new, and another call
changes nothing. -/
theorem creates_ancestors {pDir : Bytes} (hslash : slash ∈ cstr pDir) (hplain : Plain (cstr pDir))
    (hfree : Free files (cstr pDir)) :
    ∃ ret after, createDir files (some pDir) = some (ret, after) ∧ after.cwd = files.cwd ∧
      (∀ ancestor, Ancestor (cstr pDir) ancestor → after.stat ancestor = some .directory) ∧
      (∀ node, after.tree.kind node = files.tree.kind node ∨
        files.tree.kind node = none ∧ after.tree.kind node = some .directory ∧
          ∃ ancestor, Ancestor (cstr pDir) ancestor ∧ after.locate ancestor = some node) ∧
      ∃ again, createDir after (some pDir) = some (again, after) := by
  obtain ⟨ret, after, hcall, hmade⟩ := createDir_made hslash hplain hfree
  refine ⟨ret, after, hcall, (hmade 0).cwd, fun _ => Made.stat hmade, ?_, ?_⟩
  · intro node
    rcases (hmade 0).kept node with hsame | ⟨hnone, hdir, j, hj, hat, hwalk⟩
    · exact .inl hsame
    · refine .inr ⟨hnone, hdir, _, ancestor_take hj hat, ?_⟩
      rw [Files.locate, Files.base_take (hmade 0).cwd hj, hwalk]
  · have hfree' : Free after (cstr pDir) := by
      intro ancestor hancestor
      rw [Made.stat hmade hancestor]
      simp
    obtain ⟨again, made, hsecond, hdone⟩ := createDir_made hslash hplain hfree'
    rw [Made.again hmade hdone] at hsecond
    exact ⟨again, hsecond⟩

end

/-- Only the root. -/
def empty : Files where
  tree := {
    kind := fun node => if node = [] then some .directory else none
    root := rfl
    parent := by
      intro node hnode
      by_cases hroot : node = []
      · simp [hroot]
      · simp [hroot] at hnode }
  cwd := []
  inside := rfl


/-- Twice `a//b/c`: `a` and `a/b` become directories. -/
theorem creates_ancestors_twice : ∃ ret after,
    createDir empty (some [97, 47, 47, 98, 47, 99]) = some (ret, after) ∧ after.cwd = empty.cwd ∧
      (∀ ancestor, Ancestor (cstr [97, 47, 47, 98, 47, 99]) ancestor →
        after.stat ancestor = some .directory) ∧
      (∀ node, after.tree.kind node = empty.tree.kind node ∨
        empty.tree.kind node = none ∧ after.tree.kind node = some .directory ∧
          ∃ ancestor, Ancestor (cstr [97, 47, 47, 98, 47, 99]) ancestor ∧
            after.locate ancestor = some node) ∧
      ∃ again, createDir after (some [97, 47, 47, 98, 47, 99]) = some (again, after) := by
  have hplain : Plain (cstr [97, 47, 47, 98, 47, 99]) := by
    unfold Plain
    decide
  have hfree : Free empty (cstr [97, 47, 47, 98, 47, 99]) := by
    intro ancestor _ hstat
    rw [Files.stat, Option.ite_none_left_eq_some, Option.bind_eq_some_iff] at hstat
    obtain ⟨-, node, -, hkind⟩ := hstat
    simp [empty] at hkind
  exact creates_ancestors (by decide) hplain hfree

end UdpFileProxy.CreateDir
