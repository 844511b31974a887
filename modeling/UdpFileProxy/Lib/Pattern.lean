import Mathlib.Data.List.Infix
import Mathlib.Data.Nat.Find

/-! Occurrences of a pattern in a text, and patterns that do not overlap themselves. -/
namespace UdpFileProxy.Lib.Pattern

variable {α : Type*} {pattern text front : List α} {pos : Nat}

/-- No part of the pattern, neither empty nor the whole, both begins and ends it. -/
def Unbordered (pattern : List α) : Prop :=
  ∀ border, border ≠ [] → border ≠ pattern → border <+: pattern → ¬border <:+ pattern

/-- The pattern is in the text at this position. -/
def OccursAt (pattern text : List α) (pos : Nat) : Prop := pattern <+: text.drop pos

/-- The first position of the pattern in the text. -/
structure First (pattern text : List α) (pos : Nat) : Prop where
  occurs : OccursAt pattern text pos
  before : ∀ earlier < pos, ¬OccursAt pattern text earlier

theorem unbordered_singleton (x : α) : Unbordered [x] := by
  intro border hnonempty hproper hbegins _
  have hlength := List.IsPrefix.length_le hbegins
  have hpos := List.length_pos_iff.mpr hnonempty
  exact hproper (hbegins.eq_of_length (Nat.le_antisymm hlength hpos))

theorem occursAt_append (front pattern back : List α) :
    OccursAt pattern (front ++ pattern ++ back) front.length := by
  rw [OccursAt, List.append_assoc, List.drop_left]
  exact List.prefix_append _ _

theorem OccursAt.le (h : OccursAt pattern text pos) (hne : pattern ≠ []) :
    pos + pattern.length ≤ text.length := by
  have hlength := List.IsPrefix.length_le h
  have hpos := List.length_pos_iff.mpr hne
  rw [List.length_drop] at hlength
  omega

theorem OccursAt.exists_first (h : OccursAt pattern text pos) : ∃ first, First pattern text first := by
  classical
  have hsome : ∃ pos, OccursAt pattern text pos := ⟨pos, h⟩
  exact ⟨Nat.find hsome, Nat.find_spec hsome, fun _ hearlier => Nat.find_min hsome hearlier⟩

theorem First.notInfix (h : First pattern text pos) (hne : pattern ≠ []) :
    ¬pattern <:+: text.take pos := by
  rintro ⟨front, back, hsplit⟩
  have htext : text = front ++ pattern ++ (back ++ text.drop pos) := by
    rw [← List.append_assoc, hsplit, List.take_append_drop]
  have hlength := congrArg List.length hsplit
  have hpos := List.length_pos_iff.mpr hne
  simp only [List.length_append, List.length_take] at hlength
  apply h.before front.length (by omega)
  rw [htext]
  exact occursAt_append front pattern _

/-- In a text that is followed by the pattern, a pattern that does not overlap itself is in
the text or behind it. -/
theorem OccursAt.cases (h : OccursAt pattern (text ++ pattern) pos) (hne : pattern ≠ [])
    (hunbordered : Unbordered pattern) :
    pos = text.length ∨ ∃ back, text = text.take pos ++ pattern ++ back ∧ pos ≤ text.length := by
  have hle := h.le hne
  rw [List.length_append] at hle
  have hle : pos ≤ text.length := by omega
  rw [OccursAt, List.drop_append_of_le_length hle] at h
  have hrest : text.drop pos <+: text.drop pos ++ pattern := List.prefix_append _ _
  rcases Nat.lt_or_ge (text.drop pos).length pattern.length with hshort | hfits
  · obtain ⟨border, hborder⟩ := List.prefix_of_prefix_length_le hrest h hshort.le
    obtain ⟨tail, htail⟩ := h
    -- what is left of the text begins the pattern, and the rest of the pattern begins it again
    have htwice : text.drop pos ++ (border ++ tail) = text.drop pos ++ pattern := by
      rw [← List.append_assoc, hborder, htail]
    have hagain : border ++ tail = pattern := List.append_cancel_left htwice
    left
    by_contra hother
    have hnonempty : text.drop pos ≠ [] := by
      rw [Ne, List.drop_eq_nil_iff]
      omega
    refine hunbordered border ?_ ?_ ⟨tail, hagain⟩ ⟨text.drop pos, hborder⟩
    · rintro rfl
      rw [← hborder, List.append_nil] at hshort
      exact absurd hshort (Nat.lt_irrefl _)
    · rintro rfl
      exact hnonempty (List.append_left_eq_self.mp hborder)
  · obtain ⟨back, hback⟩ := List.prefix_of_prefix_length_le h hrest hfits
    right
    refine ⟨back, ?_, hle⟩
    rw [List.append_assoc, hback, List.take_append_drop]

end UdpFileProxy.Lib.Pattern
