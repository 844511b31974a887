import Mathlib.Data.List.DropRight
import Mathlib.Data.List.TakeWhile

/-! Text that is cut at its first separator, and stripped of blanks at both ends. -/
namespace UdpFileProxy.Lib.Fields

variable {α : Type*} {blank : α → Bool} {text front back : List α} {separator : α}

/-- The text without the blanks at its ends. -/
def strip (blank : α → Bool) (text : List α) : List α := (text.dropWhile blank).rdropWhile blank

@[simp] theorem strip_eq_nil_iff : strip blank text = [] ↔ ∀ x ∈ text, blank x = true := by
  rw [strip, List.rdropWhile_eq_nil_iff]
  constructor
  · intro hrest
    rw [← List.dropWhile_eq_nil_iff, List.eq_nil_iff_forall_not_mem]
    intro x hx
    have hne : text.dropWhile blank ≠ [] := List.ne_nil_of_mem hx
    have hhead := List.head_dropWhile_not blank hne
    rw [hrest _ (List.head_mem hne)] at hhead
    contradiction
  · intro hall x hx
    exact hall x ((List.dropWhile_sublist blank).mem hx)

theorem strip_eq_self (hhead : ∀ x ∈ text.head?, blank x = false)
    (hlast : ∀ x ∈ text.getLast?, blank x = false) : strip blank text = text := by
  have hdrop : text.dropWhile blank = text := by
    cases text with
    | nil => rfl
    | cons first rest => exact List.dropWhile_cons_of_neg (by simp [hhead first rfl])
  rw [strip, hdrop, List.rdropWhile_eq_self_iff]
  intro hne
  simp [hlast _ (List.getLast?_eq_some_getLast hne)]

theorem strip_append {first : α} (hfront : ∀ x ∈ front, blank x = true) (hfirst : blank first = false) :
    strip blank (front ++ first :: back) = (first :: back).rdropWhile blank := by
  rw [strip, List.dropWhile_append_of_pos hfront, List.dropWhile_cons_of_neg (by simp [hfirst])]

theorem findIdx?_first {kind : α → Bool} {first : α} (hfront : ∀ x ∈ front, kind x = false)
    (hfirst : kind first = true) : (front ++ first :: back).findIdx? kind = some front.length := by
  have hnone : front.findIdx? kind = none := List.findIdx?_eq_none_iff.mpr hfront
  rw [List.findIdx?_append, hnone, List.findIdx?_cons, hfirst]
  simp

theorem rdropWhile_eq_take (text : List α) : text.rdropWhile blank =
    text.take (text.length - (text.rtakeWhile blank).length) := by
  have hsplit := List.rdropWhile_append_rtakeWhile (p := blank) (l := text)
  have hlength := congrArg List.length hsplit
  rw [List.length_append] at hlength
  conv_rhs => rw [← hsplit]
  rw [List.take_left']
  rw [hsplit]
  omega

section
variable [DecidableEq α]

theorem findIdx?_separator (h : separator ∉ front) :
    (front ++ separator :: back).findIdx? (· = separator) = some front.length := by
  refine findIdx?_first ?_ (by simp)
  intro x hx
  have hne : x ≠ separator := fun heq => h (heq ▸ hx)
  simpa using hne

theorem findIdx?_eq_none (h : separator ∉ text) : text.findIdx? (· = separator) = none := by
  rw [List.findIdx?_eq_none_iff]
  intro x hx
  have hne : x ≠ separator := fun heq => h (heq ▸ hx)
  simpa using hne

theorem takeWhile_separator (h : separator ∉ front) :
    (front ++ separator :: back).takeWhile (· ≠ separator) = front := by
  have hfront : ∀ x ∈ front, decide (x ≠ separator) = true := by
    intro x hx
    have hne : x ≠ separator := fun heq => h (heq ▸ hx)
    simpa using hne
  rw [List.takeWhile_append_of_pos hfront, List.takeWhile_cons_of_neg (by simp), List.append_nil]

theorem takeWhile_of_notMem (h : separator ∉ text) : text.takeWhile (· ≠ separator) = text := by
  rw [List.takeWhile_eq_self_iff]
  intro x hx
  have hne : x ≠ separator := fun heq => h (heq ▸ hx)
  simpa using hne

theorem dropWhile_separator (h : separator ∉ front) :
    (front ++ separator :: back).dropWhile (· ≠ separator) = separator :: back := by
  have hfront : ∀ x ∈ front, decide (x ≠ separator) = true := by
    intro x hx
    have hne : x ≠ separator := fun heq => h (heq ▸ hx)
    simpa using hne
  rw [List.dropWhile_append_of_pos hfront, List.dropWhile_cons_of_neg (by simp)]

end

end UdpFileProxy.Lib.Fields
