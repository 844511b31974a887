import UdpFileProxy.Encoding
import UdpFileProxy.Lib.Pattern
import UdpFileProxy.SendPack

/-! The loop of `split` with its variables as they are declared, and joining its pieces. -/
namespace UdpFileProxy.Splitting
open Lib.Memory Lib.Pattern Config
open Encoding (comma)
open SendPack (wrap32 wrap32_of_lt)

/-- `i` is an `int`. -/
structure Loop where
  i : Int
  result : List Bytes
  deriving DecidableEq, Repr

/-- The value of an `int` that is compared with a `size_t`. -/
def sizeT (value : Int) : Nat := (value % 2 ^ 64).toNat

def npos : Nat := 2 ^ 64 - 1

/-- One round of the loop, with the `i++` behind it; `str` is extended already. -/
def round (str pattern : Bytes) (loop : Loop) : Option Loop :=
  let size := wrap32 str.length
  if loop.i < size then
    let pos := (find str pattern (sizeT loop.i)).getD npos
    if pos < sizeT size then
      some {
        i := wrap32 (wrap32 (pos + pattern.length - 1) + 1)
        result := loop.result ++ [substr str (sizeT loop.i) (pos - loop.i)] }
    else some { loop with i := wrap32 (loop.i + 1) }
  else none

/-- What the loop returns when it ends within this many rounds. -/
def rounds (str pattern : Bytes) : Nat → Loop → Option (List Bytes)
  | 0, _ => none
  | fuel + 1, loop => (round str pattern loop).elim (some loop.result) (rounds str pattern fuel)

section
variable {str pattern front rest : Bytes} {pos i fuel : Nat} {result : List Bytes}

theorem find_eq_of_first (h : First pattern rest pos) (hne : pattern ≠ []) (front : Bytes) :
    find (front ++ rest) pattern front.length = some (front.length + pos) := by
  have hle := h.occurs.le hne
  have hdrop (k : Nat) : (front ++ rest).drop (front.length + k) = rest.drop k := by
    rw [← List.drop_drop, List.drop_left]
  rw [find, List.find?_range'_eq_some]
  refine ⟨?_, ?_, ?_⟩
  · rw [hdrop]
    exact List.isPrefixOf_iff_prefix.mpr h.occurs
  · rw [List.mem_range'_1, List.length_append]
    omega
  · intro other hfront hother
    obtain ⟨k, rfl⟩ := Nat.exists_eq_add_of_le hfront
    rw [hdrop, Bool.not_eq_true', Bool.eq_false_iff, Ne, List.isPrefixOf_iff_prefix]
    exact h.before k (by omega)

theorem le_of_find (hne : pattern ≠ []) (h : find str pattern i = some pos) :
    i ≤ pos ∧ pos + pattern.length ≤ str.length := by
  rw [find, List.find?_range'_eq_some, List.mem_range'_1] at h
  obtain ⟨hbegins, ⟨hle, -⟩, -⟩ := h
  have hoccurs : OccursAt pattern str pos := List.isPrefixOf_iff_prefix.mp hbegins
  exact ⟨hle, hoccurs.le hne⟩

@[simp] theorem splitLoop_end (hend : str.length ≤ i) (fuel : Nat) : splitLoop str pattern fuel i = [] := by
  cases fuel with
  | zero => rfl
  | succ fuel => rw [splitLoop, if_neg (not_lt.mpr hend)]

theorem splitLoop_found (hne : pattern ≠ []) (h : find str pattern i = some pos) (fuel : Nat) :
    splitLoop str pattern (fuel + 1) i =
      substr str i (pos - i) :: splitLoop str pattern fuel (pos + pattern.length) := by
  obtain ⟨hle, hend⟩ := le_of_find hne h
  have hpos := List.length_pos_iff.mpr hne
  have hnext : pos + pattern.length - 1 + 1 = pos + pattern.length := by omega
  rw [splitLoop, if_pos (by omega), h]
  dsimp only
  rw [if_pos (by omega), hnext]

@[simp] theorem sizeT_of_lt {value : Nat} (h : value < 2 ^ 31) : sizeT value = value := by
  rw [sizeT]
  omega

/-- The variables never overflow, so the loop is that of `splitLoop`. -/
theorem rounds_eq (hne : pattern ≠ []) (hsize : str.length < 2 ^ 31) (hle : i ≤ str.length)
    (hfuel : str.length ≤ i + fuel) :
    rounds str pattern (fuel + 1) ⟨i, result⟩ = some (result ++ splitLoop str pattern fuel i) := by
  have hpos := List.length_pos_iff.mpr hne
  induction fuel generalizing i result with
  | zero =>
    have hround : round str pattern ⟨i, result⟩ = none := by
      rw [round, wrap32_of_lt hsize, if_neg (by dsimp only; omega)]
    rw [rounds, hround, Option.elim_none, splitLoop, List.append_nil]
  | succ fuel ih =>
    by_cases hend : str.length ≤ i
    · have hround : round str pattern ⟨i, result⟩ = none := by
        rw [round, wrap32_of_lt hsize, if_neg (by dsimp only; omega)]
      rw [rounds, hround, Option.elim_none, splitLoop_end hend, List.append_nil]
    · have hwithin : (i : Int) < (str.length : Int) := by omega
      cases hfind : find str pattern i with
      | some pos =>
        obtain ⟨hfirst, hlast⟩ := le_of_find hne hfind
        have hsum : (pos : Int) + pattern.length - 1 = (pos + pattern.length - 1 : Nat) := by omega
        have hnext : ((pos + pattern.length - 1 : Nat) : Int) + 1 = (pos + pattern.length : Nat) := by
          omega
        have hround : round str pattern ⟨i, result⟩ =
            some ⟨(pos + pattern.length : Nat), result ++ [substr str i (pos - i)]⟩ := by
          rw [round, wrap32_of_lt hsize]
          dsimp only
          rw [if_pos hwithin, sizeT_of_lt (by omega), sizeT_of_lt hsize, hfind, Option.getD_some,
            if_pos (by omega), hsum, wrap32_of_lt (by omega), hnext, wrap32_of_lt (by omega)]
        rw [rounds, hround, Option.elim_some, splitLoop_found hne hfind, ih (by omega) (by omega),
          List.append_assoc]
        rfl
      | none =>
        have hround : round str pattern ⟨i, result⟩ = some ⟨(i + 1 : Nat), result⟩ := by
          rw [round, wrap32_of_lt hsize]
          dsimp only
          rw [if_pos hwithin, sizeT_of_lt (by omega), sizeT_of_lt hsize, hfind, Option.getD_none,
            if_neg (by rw [npos]; omega), ← Nat.cast_succ, wrap32_of_lt (by omega)]
        rw [rounds, hround, Option.elim_some, splitLoop, if_pos (by omega), hfind]
        dsimp only
        rw [ih (by omega) (by omega)]

/-- Cuts that put the text together again, none of which has the pattern in it. -/
structure Pieces (pattern text : Bytes) (pieces : List Bytes) : Prop where
  nonempty : pieces ≠ []
  joined : pattern.intercalate pieces = text
  free : ∀ piece ∈ pieces, ¬pattern <:+: piece

theorem pieces_last (hfree : ¬pattern <:+: rest) : Pieces pattern rest [rest] where
  nonempty := List.cons_ne_nil _ _
  joined := List.intercalate_singleton
  free piece hpiece := by
    rw [List.mem_singleton.mp hpiece]
    exact hfree

theorem Pieces.cons {pieces : List Bytes} (h : Pieces pattern rest pieces)
    (hfree : ¬pattern <:+: front) : Pieces pattern (front ++ pattern ++ rest) (front :: pieces) where
  nonempty := List.cons_ne_nil _ _
  joined := by rw [List.intercalate_cons_of_ne_nil h.nonempty, h.joined]
  free piece hpiece := by
    rcases List.mem_cons.mp hpiece with rfl | hlater
    · exact hfree
    · exact h.free piece hlater

theorem splitLoop_pieces (hne : pattern ≠ []) (hunbordered : Unbordered pattern)
    (front rest : Bytes) (hfuel : rest.length < fuel) :
    Pieces pattern rest (splitLoop (front ++ (rest ++ pattern)) pattern fuel front.length) := by
  have hpos := List.length_pos_iff.mpr hne
  induction hsize : rest.length using Nat.strongRecOn generalizing front rest fuel with
  | ind size ih =>
    subst hsize
    obtain ⟨less, rfl⟩ : ∃ less, fuel = less + 1 := ⟨fuel - 1, by omega⟩
    have hlast : OccursAt pattern (rest ++ pattern) rest.length := by
      simpa using occursAt_append rest pattern []
    obtain ⟨pos, hfirst⟩ := hlast.exists_first
    have hfind := find_eq_of_first hfirst hne front
    have hcut : substr (front ++ (rest ++ pattern)) front.length
        ((front.length + pos : Nat) - front.length) = (rest ++ pattern).take pos := by
      rw [substr, if_neg (by omega), List.drop_left]
      congr 1
      omega
    rw [splitLoop_found hne hfind, hcut]
    rcases hfirst.occurs.cases hne hunbordered with rfl | ⟨back, hback, hle⟩
    · -- the appended pattern: the loop ends behind it
      have hfree := hfirst.notInfix hne
      rw [List.take_left] at hfree ⊢
      rw [splitLoop_end (by simp only [List.length_append]; omega)]
      exact pieces_last hfree
    · have hfree := hfirst.notInfix hne
      rw [List.take_append_of_le_length hle] at hfree ⊢
      have hlength := congrArg List.length hback
      simp only [List.length_append, List.length_take_of_le hle] at hlength
      have hstr : front ++ (rest.take pos ++ pattern) ++ (back ++ pattern) =
          front ++ (rest ++ pattern) := by
        conv_rhs => rw [hback]
        simp only [List.append_assoc]
      have hindex : (front ++ (rest.take pos ++ pattern)).length =
          front.length + pos + pattern.length := by
        simp only [List.length_append, List.length_take_of_le hle]
        omega
      have hnext : Pieces pattern back
          (splitLoop (front ++ (rest ++ pattern)) pattern less (front.length + pos + pattern.length)) := by
        rw [← hstr, ← hindex]
        exact ih back.length (by omega) _ back (by omega) rfl
      have hcons := hnext.cons hfree
      rw [← hback] at hcons
      exact hcons

/-- `split` ends, and joining its pieces gives back the text. -/
theorem split_joins (hne : pattern ≠ []) (hunbordered : Unbordered pattern)
    (hsize : str.length + pattern.length < 2 ^ 31) :
    (∃ fuel, rounds (str ++ pattern) pattern fuel ⟨0, []⟩ = some (split str pattern)) ∧
      (∀ piece ∈ split str pattern, ¬pattern <:+: piece) ∧
      pattern.intercalate (split str pattern) = str := by
  have hpos := List.length_pos_iff.mpr hne
  have hpieces : Pieces pattern str (split str pattern) :=
    splitLoop_pieces hne hunbordered [] str (by rw [List.length_append]; omega)
  have hrounds : rounds (str ++ pattern) pattern ((str ++ pattern).length + 1) ⟨(0 : Nat), []⟩ =
      some ([] ++ split str pattern) :=
    rounds_eq hne (by rw [List.length_append]; exact hsize) (Nat.zero_le _) (by omega)
  exact ⟨⟨_, hrounds⟩, hpieces.free, hpieces.joined⟩

end

theorem split_joins_comma :
    (∃ fuel, rounds (ascii ",a,,b," ++ ascii ",") (ascii ",") fuel ⟨0, []⟩ =
      some [[], ascii "a", [], ascii "b", []]) ∧
      (ascii ",").intercalate [[], ascii "a", [], ascii "b", []] = ascii ",a,,b," := by
  have hpieces : split (ascii ",a,,b,") (ascii ",") = [[], ascii "a", [], ascii "b", []] := by
    decide +kernel
  have hcomma : ascii "," = [comma] := by decide +kernel
  have hsize : (ascii ",a,,b,").length + (ascii ",").length < 2 ^ 31 := by decide +kernel
  have hjoins := split_joins (by decide +kernel) (hcomma ▸ unbordered_singleton comma) hsize
  rw [hpieces] at hjoins
  exact ⟨hjoins.1, hjoins.2.2⟩

end UdpFileProxy.Splitting
