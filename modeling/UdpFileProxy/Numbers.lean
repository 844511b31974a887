import UdpFileProxy.Config
import Mathlib.Data.FinEnum
import Mathlib.Data.Nat.Digits.Defs

/-! Decimal numerals, and what `CONF_get_number` makes of a text that is one or is
not. -/
namespace UdpFileProxy.Numbers
open Lib.Memory Config

/-- What a non-empty string of digits denotes. -/
def magnitude (digits : Bytes) : Option Int :=
  if digits ≠ [] ∧ ∀ digit ∈ digits, isDigit digit then
    some (Nat.ofDigits 10 (digits.reverse.map fun digit => digit.toNat - 48) : Nat)
  else none

/-- A decimal numeral: digits, after a sign if there is one, and nothing else. -/
def numeral (text : Bytes) : Option Int :=
  if text.head? = some 45 then (magnitude text.tail).map Neg.neg
  else if text.head? = some 43 then magnitude text.tail
  else magnitude text

def FitsInt (value : Int) : Prop := -2 ^ 31 ≤ value ∧ value < 2 ^ 31

def FitsLong (value : Int) : Prop := -2 ^ 63 ≤ value ∧ value < 2 ^ 63

instance decidableFitsInt (value : Int) : Decidable (FitsInt value) :=
  inferInstanceAs (Decidable (_ ∧ _))

/-- The number that the entry denotes, else -1. -/
def reading (mSection : Section) (key : Bytes) : Int :=
  match (mSection.lookup key).bind numeral with
  | some value => if FitsInt value then value else -1
  | none => -1

/-- The integer at the start of a C string, of any size; 0 when there is none. -/
def leading (str : Bytes) : Int :=
  let body := str.dropWhile isSpaceC
  let negative := body.head? = some 45
  let unsigned := if negative ∨ body.head? = some 43 then body.tail else body
  let value : Int := decimal (unsigned.takeWhile isDigit).reverse
  if negative then -value else value

/-- The text is a numeral for an `int`, or what it starts with does not fit in a
`long` or is -1 modulo 2^32. An `errno` that was left behind turns every number
but -1 away. -/
def Honest (mSection : Section) (key : Bytes) (errno : Errno) : Prop :=
  ∀ value ∈ mSection.lookup key,
    if errno = .other then
      (∃ number ∈ numeral value, FitsInt number) ∨ ¬FitsLong (leading (cstr value)) ∨
        (leading (cstr value)).bmod (2 ^ 32) = -1
    else ∀ number ∈ numeral value, FitsInt number → number = -1

/-- The entry gives -1 under every `errno`. -/
def Fixed (mSection : Section) (key : Bytes) : Prop :=
  ∀ value ∈ mSection.lookup key,
    ¬FitsLong (leading (cstr value)) ∨ (leading (cstr value)).bmod (2 ^ 32) = -1

section
variable {text digits : Bytes} {value : Int} {mSection : Section} {key : Bytes} {errno : Errno}

theorem atoi_eq (str : Bytes) (errno : Errno) :
    atoi str errno =
      if leading str < -2 ^ 63 then ((-2 ^ 63 : Int).bmod (2 ^ 32), .erange)
      else if 2 ^ 63 ≤ leading str then ((2 ^ 63 - 1 : Int).bmod (2 ^ 32), .erange)
      else ((leading str).bmod (2 ^ 32), errno) := rfl

theorem atoi_of_fits (h : FitsLong (leading text)) (errno : Errno) :
    atoi text errno = ((leading text).bmod (2 ^ 32), errno) := by
  rw [atoi_eq, if_neg (not_lt_of_ge h.1), if_neg (not_le_of_gt h.2)]

theorem atoi_of_not_fits (h : ¬FitsLong (leading text)) (errno : Errno) :
    (atoi text errno).2 = .erange := by
  rw [atoi_eq]
  split
  · rfl
  split
  · rfl
  · rename_i hlow hhigh
    exact absurd ⟨Int.not_lt.mp hlow, Int.not_le.mp hhigh⟩ h

theorem confGetNumber_none (h : mSection.lookup key = none) (errno : Errno) :
    confGetNumber mSection key errno = (-1, errno) := by
  simp only [confGetNumber, h]

theorem confGetNumber_stale (h : mSection.lookup key = some text) (hstale : errno ≠ .other) :
    (confGetNumber mSection key errno).1 = -1 := by
  have hkept : (atoi (cstr text) errno).2 ≠ .other := by
    by_cases hfits : FitsLong (leading (cstr text))
    · rw [atoi_of_fits hfits]
      exact hstale
    · rw [atoi_of_not_fits hfits]
      decide
  simp only [confGetNumber, h]
  split
  · rfl
  · rfl
  · contradiction

theorem confGetNumber_long (h : mSection.lookup key = some text)
    (hfits : FitsLong (leading (cstr text))) :
    confGetNumber mSection key .other = ((leading (cstr text)).bmod (2 ^ 32), .other) := by
  simp only [confGetNumber, h, atoi_of_fits hfits]

theorem confGetNumber_overflow (h : mSection.lookup key = some text)
    (hfits : ¬FitsLong (leading (cstr text))) (errno : Errno) :
    confGetNumber mSection key errno = (-1, .erange) := by
  simp only [confGetNumber, h, atoi_of_not_fits hfits]

/-! ### Numerals -/

theorem decimal_eq_ofDigits (digits : Bytes) :
    decimal digits = Nat.ofDigits 10 (digits.map fun digit => digit.toNat - 48) := by
  induction digits with
  | nil => rfl
  | cons digit rest ih =>
    rw [decimal, ih, List.map_cons, Nat.ofDigits_cons]

theorem isDigit_cases {c : UInt8} (h : isDigit c) :
    c ≠ 0 ∧ c ≠ 43 ∧ c ≠ 45 ∧ isSpaceC c = false := by
  have hrange : 48 ≤ c.toNat ∧ c.toNat ≤ 57 := by
    simpa [isDigit, UInt8.le_iff_toNat_le] using h
  have hne : ∀ other : UInt8, other.toNat < 48 → c ≠ other := by
    rintro other hlt rfl
    omega
  refine ⟨hne 0 (by decide), hne 43 (by decide), hne 45 (by decide), ?_⟩
  have hspace : ¬c ≤ 13 := by
    intro hle
    have hle := UInt8.le_iff_toNat_le.mp hle
    have h13 : (13 : UInt8).toNat = 13 := rfl
    omega
  simp [isSpaceC, hne 32 (by decide), hspace]

theorem magnitude_eq_some (h : magnitude digits = some value) :
    digits ≠ [] ∧ (∀ digit ∈ digits, isDigit digit) ∧ value = decimal digits.reverse := by
  unfold magnitude at h
  split at h
  · rename_i hdigits
    refine ⟨hdigits.1, hdigits.2, ?_⟩
    rw [decimal_eq_ofDigits]
    exact (Option.some.inj h).symm
  · contradiction

theorem takeWhile_digits (h : ∀ digit ∈ digits, isDigit digit) : digits.takeWhile isDigit = digits :=
  List.takeWhile_eq_self_iff.mpr h

theorem whole_cstr (first : UInt8) (hfirst : first ≠ 0 ∧ isSpaceC first = false)
    (h : ∀ digit ∈ digits, isDigit digit) :
    (cstr (first :: digits)).dropWhile isSpaceC = first :: digits := by
  have hcstr : cstr (first :: digits) = first :: digits := by
    refine List.takeWhile_eq_self_iff.mpr fun c hc => ?_
    rcases List.mem_cons.mp hc with rfl | hc
    · exact decide_eq_true hfirst.1
    · exact decide_eq_true (isDigit_cases (h c hc)).1
  rw [hcstr, List.dropWhile_cons_of_neg (by simp [hfirst.2])]

theorem leading_of_numeral (h : numeral text = some value) : leading (cstr text) = value := by
  unfold numeral at h
  cases text with
  | nil => simp [magnitude] at h
  | cons first digits =>
    simp only [List.head?_cons, Option.some.injEq, List.tail_cons] at h
    split at h
    · rename_i hminus
      obtain ⟨size, hsize, rfl⟩ := Option.map_eq_some_iff.mp h
      obtain ⟨-, hdigits, rfl⟩ := magnitude_eq_some hsize
      subst hminus
      simp [leading, whole_cstr 45 (by decide) hdigits, takeWhile_digits hdigits]
    split at h
    · rename_i hminus hplus
      obtain ⟨-, hdigits, rfl⟩ := magnitude_eq_some h
      subst hplus
      simp [leading, whole_cstr 43 (by decide) hdigits, takeWhile_digits hdigits]
    · rename_i hminus hplus
      obtain ⟨-, hdigits, rfl⟩ := magnitude_eq_some h
      have hfirst := isDigit_cases (hdigits first List.mem_cons_self)
      have hrest : ∀ digit ∈ digits, isDigit digit := fun digit hdigit =>
        hdigits digit (List.mem_cons_of_mem first hdigit)
      have hbody := whole_cstr first ⟨hfirst.1, hfirst.2.2.2⟩ hrest
      simp only [leading, hbody, List.head?_cons, Option.some.injEq, hminus, hplus, or_self, if_false,
        takeWhile_digits hdigits]

theorem bmod_of_fitsInt (h : FitsInt value) : value.bmod (2 ^ 32) = value :=
  Int.bmod_eq_of_le_mul_two (by have := h.1; omega) (by have := h.2; omega)

theorem fitsLong_of_fitsInt (h : FitsInt value) : FitsLong value := by
  have hlow := h.1
  have hhigh := h.2
  constructor <;> omega

/-! ### `CONF_get_number` -/

theorem reading_none (h : mSection.lookup key = none) : reading mSection key = -1 := by
  rw [reading, h]
  rfl

theorem reading_eq_of_numeral (h : mSection.lookup key = some text)
    (hnumeral : numeral text = some value) (hfits : FitsInt value) : reading mSection key = value := by
  simp only [reading, h, Option.bind_some, hnumeral, if_pos hfits]

theorem reading_eq_neg (h : mSection.lookup key = some text)
    (hnot : ∀ value ∈ numeral text, FitsInt value → value = -1) : reading mSection key = -1 := by
  simp only [reading, h, Option.bind_some]
  cases hnumeral : numeral text with
  | none => rfl
  | some value =>
    dsimp only
    split
    · rename_i hfits
      exact hnot value hnumeral hfits
    · rfl

theorem stale_iff (h : mSection.lookup key = some text) (hstale : errno ≠ .other) :
    (confGetNumber mSection key errno).1 = reading mSection key ↔
      ∀ value ∈ numeral text, FitsInt value → value = -1 := by
  rw [confGetNumber_stale h hstale]
  constructor
  · intro hreading value hnumeral hfits
    rw [hreading, reading_eq_of_numeral h hnumeral hfits]
  · intro hnot
    exact (reading_eq_neg h hnot).symm

theorem clean_iff (h : mSection.lookup key = some text) :
    (confGetNumber mSection key .other).1 = reading mSection key ↔
      (∃ value ∈ numeral text, FitsInt value) ∨ ¬FitsLong (leading (cstr text)) ∨
        (leading (cstr text)).bmod (2 ^ 32) = -1 := by
  by_cases hnumeral : ∃ value ∈ numeral text, FitsInt value
  · obtain ⟨value, hvalue, hfits⟩ := hnumeral
    have hleading : leading (cstr text) = value := leading_of_numeral hvalue
    have hlong := fitsLong_of_fitsInt hfits
    rw [confGetNumber_long h (hleading ▸ hlong), hleading, bmod_of_fitsInt hfits]
    exact iff_of_true (reading_eq_of_numeral h hvalue hfits).symm (.inl ⟨value, hvalue, hfits⟩)
  · have hreading : reading mSection key = -1 :=
      reading_eq_neg h fun value hvalue hfits => absurd ⟨value, hvalue, hfits⟩ hnumeral
    rw [hreading]
    by_cases hlong : FitsLong (leading (cstr text))
    · rw [confGetNumber_long h hlong, or_iff_right hnumeral, or_iff_right (not_not_intro hlong)]
    · rw [confGetNumber_overflow h hlong]
      exact iff_of_true rfl (.inr (.inl hlong))

/-- Under which texts the prior `errno` shows in the result. -/
theorem steady_iff (h : mSection.lookup key = some text) :
    (∀ errno errno', (confGetNumber mSection key errno).1 = (confGetNumber mSection key errno').1) ↔
      ¬FitsLong (leading (cstr text)) ∨ (leading (cstr text)).bmod (2 ^ 32) = -1 := by
  constructor
  · intro hsteady
    by_cases hlong : FitsLong (leading (cstr text))
    · have hsame := hsteady .other .erange
      rw [confGetNumber_long h hlong, confGetNumber_stale h (by decide)] at hsame
      exact .inr hsame
    · exact .inl hlong
  · intro hfixed
    have hminus : ∀ errno, (confGetNumber mSection key errno).1 = -1 := by
      intro errno
      by_cases hstale : errno = .other
      · rcases hfixed with hlong | hminus
        · rw [confGetNumber_overflow h hlong]
        · by_cases hlong : FitsLong (leading (cstr text))
          · rw [hstale, confGetNumber_long h hlong]
            exact hminus
          · rw [confGetNumber_overflow h hlong]
      · exact confGetNumber_stale h hstale
    intro errno errno'
    rw [hminus, hminus]

/-- `CONF_get_number` returns the number that the entry denotes, else -1, exactly
under these conditions on the text and on the `errno` left behind by earlier calls. -/
theorem reads_exactly (mSection : Section) (key : Bytes) (errno : Errno) :
    ((confGetNumber mSection key errno).1 = reading mSection key ↔ Honest mSection key errno) ∧
      ((∀ before before', (confGetNumber mSection key before).1 =
        (confGetNumber mSection key before').1) ↔ Fixed mSection key) := by
  cases h : mSection.lookup key with
  | none =>
    have hminus : ∀ before, (confGetNumber mSection key before).1 = -1 := fun before => by
      rw [confGetNumber_none h]
    simp [Honest, Fixed, h, hminus, reading_none h]
  | some text =>
    refine ⟨?_, ?_⟩
    · simp only [Honest, h, Option.mem_def, Option.some.injEq, forall_eq']
      by_cases hstale : errno = .other
      · subst hstale
        rw [if_pos rfl]
        exact clean_iff h
      · rw [if_neg hstale]
        exact stale_iff h hstale
    · simp only [Fixed, h, Option.mem_def, Option.some.injEq, forall_eq']
      exact steady_iff h

end

/-- A port that is read after a call that failed, a word, a number with a word
behind it, and a number that an `int` does not hold. -/
theorem misread :
    let conf := [(ascii "port", ascii "8080"), (ascii "pack_t", ascii "abc"),
      (ascii "max_file", ascii "20x"), (ascii "speed", ascii "4294967396")]
    (confGetNumber conf (ascii "port") .erange).1 = -1 ∧ reading conf (ascii "port") = 8080 ∧
      (confGetNumber conf (ascii "pack_t") .other).1 = 0 ∧ reading conf (ascii "pack_t") = -1 ∧
      (confGetNumber conf (ascii "max_file") .other).1 = 20 ∧
      reading conf (ascii "max_file") = -1 ∧
      (confGetNumber conf (ascii "speed") .other).1 = 100 ∧ reading conf (ascii "speed") = -1 := by
  decide +kernel

end UdpFileProxy.Numbers
