import UdpFileProxy.Config
import UdpFileProxy.Lib.Fields
import Mathlib.Data.FinEnum

/-! `AnalyseLine` against the grammar `key = value # comment` of a line. The count
that should cut the comment off is computed the wrong way round, so it cuts lines
of two characters to nothing and leaves the comment on all longer ones. Positions
are of type `int`, which has room for those of any line below 2 GiB. -/
namespace UdpFileProxy.Grammar
open Lib.Memory Lib.Fields Config

/-- The line without its comment. -/
def body (line : Bytes) : Bytes := line.takeWhile (· ≠ commentChar)

/-- The key and the value of a line that has the form `key = value # comment`
with a key that is not blank. -/
def keyValue (line : Bytes) : Option (Bytes × Bytes) :=
  let key := (body line).takeWhile (· ≠ equalSign)
  let value := ((body line).dropWhile (· ≠ equalSign)).tail
  if equalSign ∈ body line ∧ ¬(∀ c ∈ key, isSpace c = true) then
    some (strip isSpace key, strip isSpace value)
  else none

/-- A key of one character with no value, or a comment after three characters
or more that has the first equal sign of the line. -/
def Miscut (line : Bytes) : Prop :=
  (∃ c, isSpace c = false ∧ c ≠ equalSign ∧ body line = [c, equalSign]) ∨
    3 ≤ (body line).length ∧ equalSign ∉ body line ∧ equalSign ∈ line

section
variable {line key value comment : Bytes}

@[simp] theorem substr_zero (line : Bytes) (count : Nat) : substr line 0 count = line.take count := by
  simp [substr]

theorem trim_append {front back : Bytes} {first : UInt8} (hfront : ∀ c ∈ front, isSpace c = true)
    (hfirst : isSpace first = false) :
    trim (front ++ first :: back) = (first :: back).rdropWhile isSpace := by
  have hstart : (front ++ first :: back).findIdx? (fun c => !isSpace c) = some front.length := by
    refine findIdx?_first ?_ (by simp [hfirst])
    intro c hc
    simp [hfront c hc]
  have htail : (front ++ first :: back).reverse.findIdx (fun c => !isSpace c) =
      ((first :: back).rtakeWhile isSpace).length := by
    rw [List.reverse_append, List.findIdx_append, if_pos]
    · rw [List.rtakeWhile, List.length_reverse, List.takeWhile_eq_take_findIdx_not, List.length_take,
        Nat.min_eq_left List.findIdx_le_length]
    · rw [List.findIdx_lt_length]
      exact ⟨first, by simp, by simp [hfirst]⟩
  have hsome : ((first :: back).rtakeWhile isSpace).length ≤ back.length := by
    have hsplit := congrArg List.length
      (List.rdropWhile_append_rtakeWhile (p := isSpace) (l := first :: back))
    have hkept : (first :: back).rdropWhile isSpace ≠ [] := by
      intro hnil
      rw [List.rdropWhile_eq_nil_iff] at hnil
      rw [hnil first (by simp)] at hfirst
      contradiction
    have hpos := List.length_pos_iff.mpr hkept
    simp only [List.length_append, List.length_cons] at hsplit
    omega
  unfold trim
  rw [hstart]
  dsimp only
  rw [htail, rdropWhile_eq_take, substr, if_neg]
  · rw [List.drop_left]
    congr 1
    simp only [List.length_append, List.length_cons]
    omega
  · simp only [List.length_append, List.length_cons]
    omega

theorem trim_eq_strip (str : Bytes) : trim str = strip isSpace str := by
  by_cases hblank : ∀ c ∈ str, isSpace c = true
  · have hnone : str.findIdx? (fun c => !isSpace c) = none := by
      rw [List.findIdx?_eq_none_iff]
      intro c hc
      simp [hblank c hc]
    rw [strip_eq_nil_iff.mpr hblank, trim, hnone]
  · have hsplit := List.takeWhile_append_dropWhile (p := isSpace) (l := str)
    cases hrest : str.dropWhile isSpace with
    | nil => exact absurd (List.dropWhile_eq_nil_iff.mp hrest) hblank
    | cons first back =>
      have hfirst : isSpace first = false := by
        have hnot := List.head_dropWhile_not isSpace (l := str) (by simp [hrest])
        simpa [hrest] using hnot
      have hfront : ∀ c ∈ str.takeWhile isSpace, isSpace c = true := fun c hc => List.mem_takeWhile_imp hc
      rw [hrest] at hsplit
      rw [← hsplit, trim_append hfront hfirst, strip_append hfront hfirst]

/-- What `AnalyseLine` does with the line from which it meant to cut the comment. -/
def fields (newLine : Bytes) (length : Nat) : Option (Bytes × Bytes) :=
  match newLine.findIdx? (· = equalSign) with
  | none => none
  | some pos =>
      let key := trim (substr newLine 0 pos)
      if key.isEmpty then none
      else some (key, trim (substr newLine (pos + 1) ((length : Int) - (pos + 1))))

theorem analyseLine_of_empty (hbody : body line = []) : analyseLine line = none := by
  unfold body at hbody
  cases line with
  | nil => rfl
  | cons first rest =>
    have hfirst : first = commentChar := by
      by_contra hne
      simp [hne] at hbody
    simp [analyseLine, hfirst, List.findIdx?_cons]

theorem analyseLine_eq (hbody : body line ≠ []) : analyseLine line =
    fields (substr line 0 (2 - (body line).length)) (body line).length := by
  have hcut (length : Nat) : (0 : Int) + 1 - ((length : Int) - 1) = 2 - length := by omega
  by_cases hcomment : commentChar ∈ line
  · obtain ⟨front, back, rfl, hfront⟩ := List.eq_append_cons_of_mem hcomment
    have hcommentless : body (front ++ commentChar :: back) = front := takeWhile_separator hfront
    have hnonempty : (front ++ commentChar :: back).isEmpty = false := by simp
    rw [hcommentless] at hbody ⊢
    have hlength : front.length ≠ 0 := by simpa using hbody
    simp only [analyseLine, findIdx?_separator hfront, hnonempty, Option.some.injEq, hlength,
      Option.elim_some, hcut, Int.sub_add_cancel, Bool.false_eq_true, if_false]
    rfl
  · have hcommentless : body line = line := takeWhile_of_notMem hcomment
    rw [hcommentless] at hbody ⊢
    have hnonempty : line.isEmpty = false := by simpa using hbody
    simp only [analyseLine, findIdx?_eq_none hcomment, hnonempty, reduceCtorEq, Option.elim_none,
      hcut, Int.sub_add_cancel, Bool.false_eq_true, if_false]
    rfl

@[simp] theorem trim_isEmpty {str : Bytes} :
    (trim str).isEmpty = true ↔ ∀ c ∈ str, isSpace c = true := by
  rw [trim_eq_strip, List.isEmpty_iff, strip_eq_nil_iff]

theorem fields_append (hkey : equalSign ∉ key) :
    fields (key ++ equalSign :: (value ++ comment)) (key ++ equalSign :: value).length =
      if ∀ c ∈ key, isSpace c = true then none else some (strip isSpace key, strip isSpace value) := by
  have hvalue : substr (key ++ equalSign :: (value ++ comment)) (key.length + 1)
      (((key ++ equalSign :: value).length : Int) - (key.length + 1)) = value := by
    have hcount : ((key ++ equalSign :: value).length : Int) - (key.length + 1) = value.length := by
      simp only [List.length_append, List.length_cons]
      omega
    have hsplit : key ++ equalSign :: (value ++ comment) = (key ++ [equalSign]) ++ (value ++ comment) := by
      simp
    rw [hcount, substr, if_neg (by omega), Int.toNat_natCast, hsplit, List.drop_left' (by simp),
      List.take_left]
  simp only [fields, findIdx?_separator hkey, substr_zero, List.take_left, hvalue]
  by_cases hblank : ∀ c ∈ key, isSpace c = true
  · rw [if_pos hblank, if_pos (trim_isEmpty.mpr hblank)]
  · rw [if_neg hblank, if_neg (trim_isEmpty.not.mpr hblank), trim_eq_strip, trim_eq_strip]

theorem keyValue_of_body (hline : body line = key ++ equalSign :: value) (hkey : equalSign ∉ key) :
    keyValue line =
      if ∀ c ∈ key, isSpace c = true then none else some (strip isSpace key, strip isSpace value) := by
  simp only [keyValue, hline, takeWhile_separator hkey, dropWhile_separator hkey, List.tail_cons]
  split <;> simp_all

theorem keyValue_of_notMem (hline : equalSign ∉ body line) : keyValue line = none := by
  simp [keyValue, hline]

theorem body_append_comment (line : Bytes) : ∃ comment, line = body line ++ comment :=
  ⟨_, List.takeWhile_append_dropWhile.symm⟩

/-- The comment stays on a line of three characters or more, so the key may be
found in it. -/
theorem analyseLine_long (hlong : 3 ≤ (body line).length) :
    analyseLine line = keyValue line ↔ equalSign ∈ body line ∨ equalSign ∉ line := by
  obtain ⟨comment, hline⟩ := body_append_comment line
  have hne : body line ≠ [] := List.ne_nil_of_length_pos (by omega)
  have hwhole : substr line 0 (2 - (body line).length) = line := by
    rw [substr, if_pos (by omega), List.drop_zero]
  rw [analyseLine_eq hne, hwhole]
  by_cases hbody : equalSign ∈ body line
  · obtain ⟨key, value, hsplit, hkey⟩ := List.eq_append_cons_of_mem hbody
    simp only [hbody, true_or, iff_true]
    have hfields : fields (key ++ equalSign :: (value ++ comment)) _ = _ := fields_append hkey
    rw [keyValue_of_body hsplit hkey, ← hfields, ← hsplit]
    congr 1
    rw [hline, hsplit]
    simp
  rw [keyValue_of_notMem hbody]
  by_cases hmem : equalSign ∈ line
  · obtain ⟨key, value, hsplit, hkey⟩ := List.eq_append_cons_of_mem hmem
    have hcomment : commentChar ∈ key := by
      by_contra hnot
      have hfront : ∀ c ∈ key, decide (c ≠ commentChar) = true := by
        intro c hc
        have hne : c ≠ commentChar := fun heq => hnot (heq ▸ hc)
        simpa using hne
      apply hbody
      rw [body, hsplit, List.takeWhile_append_of_pos hfront]
      simp [show equalSign ≠ commentChar by decide]
    have hkept : (trim key).isEmpty = false := by
      rw [← Bool.not_eq_true, trim_isEmpty]
      intro hblank
      exact absurd (hblank commentChar hcomment) (by decide)
    have hfields : fields line (body line).length ≠ none := by
      rw [hsplit]
      simp [fields, findIdx?_separator hkey, hkept]
    simp [hfields, hbody, hmem]
  · simp [fields, findIdx?_eq_none hmem, hmem]

theorem analyseLine_short (hshort : (body line).length ≤ 2) :
    analyseLine line = keyValue line ↔
      ¬∃ c, isSpace c = false ∧ c ≠ equalSign ∧ body line = [c, equalSign] := by
  obtain ⟨comment, hline⟩ := body_append_comment line
  match hbody : body line with
  | [] =>
    have hnone : keyValue line = none := keyValue_of_notMem (by simp [hbody])
    simp [analyseLine_of_empty hbody, hnone]
  | [c] =>
    have hnewLine : substr line 0 (2 - (body line).length) = [c] := by
      have htake : substr line 0 (1 : Nat) = line.take 1 := substr_zero line 1
      rw [hline, hbody] at htake
      rw [hbody, hline, hbody]
      exact htake
    rw [analyseLine_eq (by simp [hbody]), hnewLine]
    by_cases hequal : c = equalSign
    · have hkey : keyValue line = none := by
        have hsplit : body line = [] ++ equalSign :: [] := by simp [hbody, hequal]
        rw [keyValue_of_body hsplit (by simp)]
        simp
      have htrim : trim (substr [equalSign] 0 0) = [] := rfl
      simp [hkey, fields, hequal, htrim]
    · have hkey : keyValue line = none := keyValue_of_notMem (by simp [hbody, Ne.symm hequal])
      simp [hkey, fields, List.findIdx?_cons, hequal]
  | [c, second] =>
    have hnewLine : substr line 0 (2 - (body line).length) = [] := by
      rw [hbody]
      exact substr_zero line 0
    rw [analyseLine_eq (by simp [hbody]), hnewLine]
    have hfields : fields [] (body line).length = none := rfl
    rw [hfields]
    by_cases hfirst : c = equalSign
    · have hkey : keyValue line = none := by
        have hsplit : body line = [] ++ equalSign :: [second] := by simp [hbody, hfirst]
        rw [keyValue_of_body hsplit (by simp)]
        simp
      simp [hkey, hfirst]
    by_cases hsecond : second = equalSign
    · have hsplit : body line = [c] ++ equalSign :: [] := by simp [hbody, hsecond]
      have hkey := keyValue_of_body hsplit (by simp [Ne.symm hfirst])
      simp [hkey, hfirst, hsecond]
    · have hkey : keyValue line = none :=
        keyValue_of_notMem (by simp [hbody, Ne.symm hfirst, Ne.symm hsecond])
      simp [hkey, hsecond]
  | c :: second :: third :: rest => simp [hbody] at hshort

/-- `AnalyseLine` parses a line by the grammar exactly when it does not cut it
in the wrong place. -/
theorem parsed_by_grammar (line : Bytes) : analyseLine line = keyValue line ↔ ¬Miscut line := by
  unfold Miscut
  by_cases hlong : 3 ≤ (body line).length
  · rw [analyseLine_long hlong]
    have hnot : ¬∃ c, isSpace c = false ∧ c ≠ equalSign ∧ body line = [c, equalSign] := by
      rintro ⟨c, -, -, htwo⟩
      simp [htwo] at hlong
    simp only [hnot, hlong, true_and, false_or]
    tauto
  · rw [analyseLine_short (by omega)]
    simp [hlong]

end

/-- A key out of a comment, and a key of one character that is not seen. -/
theorem miscut_lines :
    analyseLine (ascii "max#a=1") = some (ascii "max#a", ascii "1") ∧
      keyValue (ascii "max#a=1") = none ∧ body (ascii "max#a=1") = body (ascii "max#") ∧
      analyseLine (ascii "max#") = none ∧
    analyseLine (ascii "a=") = none ∧ keyValue (ascii "a=") = some (ascii "a", []) := by
  decide +kernel

end UdpFileProxy.Grammar
