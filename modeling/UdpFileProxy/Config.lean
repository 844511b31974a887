import UdpFileProxy.Lib.Memory
import UdpFileProxy.Protocol

/-! The line parser and the section lookups of `config.cpp`, which parse the
configuration file and the bodies of the command frames. -/
namespace UdpFileProxy.Config
open Lib.Memory

/-- The value of `errno`, as far as it is ever compared. -/
inductive Errno where
  | erange
  | einval
  | other
  deriving DecidableEq, Repr

/-- `m_section`. A key that is set again hides its old value. -/
abbrev Section := List (Bytes × Bytes)

def commentChar : UInt8 := 35

def equalSign : UInt8 := 61

def isSpace (c : UInt8) : Bool := c = 32 ∨ c = 9

/-- `std::string::substr`: the count is a `size_t`, so a negative one has no effect. -/
def substr (str : Bytes) (pos : Nat) (count : Int) : Bytes :=
  if count < 0 then str.drop pos else (str.drop pos).take count.toNat

/-- `std::string::find` of a string, from position `start` on. -/
def find (str pattern : Bytes) (start : Nat) : Option Nat :=
  (List.range' start (str.length + 1 - start)).find? fun pos => pattern.isPrefixOf (str.drop pos)

def trim (str : Bytes) : Bytes :=
  match str.findIdx? fun c => !isSpace c with
  | none => []
  | some startPos =>
      let endPos := str.length - 1 - str.reverse.findIdx fun c => !isSpace c
      substr str startPos ((endPos : Int) - startPos + 1)

/-- The key and the value of a line that `AnalyseLine` accepts. -/
def analyseLine (line : Bytes) : Option (Bytes × Bytes) :=
  if line.isEmpty then none
  else
    let comment := line.findIdx? (· = commentChar)
    if comment = some 0 then none
    else
      let endPos : Int := comment.elim ((line.length : Int) - 1) fun pos => (pos : Int) - 1
      -- the count has its terms the wrong way round
      let newLine := substr line 0 (0 + 1 - endPos)
      match newLine.findIdx? (· = equalSign) with
      | none => none
      | some pos =>
          let key := trim (substr newLine 0 pos)
          let value := substr newLine (pos + 1) (endPos + 1 - (pos + 1))
          if key.isEmpty then none else some (key, trim value)

/-- The loop of `split`; `fuel` bounds its rounds. -/
def splitLoop (str pattern : Bytes) : Nat → Nat → List Bytes
  | 0, _ => []
  | fuel + 1, i =>
      if i < str.length then
        match find str pattern i with
        | some pos =>
            if pos < str.length then
              substr str i (pos - i) :: splitLoop str pattern fuel (pos + pattern.length - 1 + 1)
            else splitLoop str pattern fuel (i + 1)
        | none => splitLoop str pattern fuel (i + 1)
      else []

/-- With a pattern that is not empty every round moves on. -/
def split (str pattern : Bytes) : List Bytes :=
  splitLoop (str ++ pattern) pattern (str ++ pattern).length 0

def confPraseLine (data pattern : Bytes) : Section :=
  (split data pattern).foldl (fun mSection line => (analyseLine line).toList ++ mSection) []

def confGetString (mSection : Section) (key : Bytes) : Bytes := (mSection.lookup key).getD []

def confGetBool (mSection : Section) (key : Bytes) : Bool :=
  (mSection.lookup key).elim false (· = ascii "true")

/-- The digits of a decimal numeral, least significant first. -/
def decimal : Bytes → Nat
  | [] => 0
  | digit :: rest => (digit.toNat - 48) + 10 * decimal rest

def isDigit (c : UInt8) : Bool := 48 ≤ c ∧ c ≤ 57

/-- `isspace` of the C locale. -/
def isSpaceC (c : UInt8) : Bool := c = 32 ∨ (9 ≤ c ∧ c ≤ 13)

/-- `(int)strtol(str, NULL, 10)` with a `long` of 64 bits; only a value that does
not fit in it sets `errno`. -/
def atoi (str : Bytes) (errno : Errno) : Int × Errno :=
  let body := str.dropWhile isSpaceC
  let negative := body.head? = some 45
  let unsigned := if negative ∨ body.head? = some 43 then body.tail else body
  let magnitude : Int := decimal (unsigned.takeWhile isDigit).reverse
  let value := if negative then -magnitude else magnitude
  if value < -2 ^ 63 then ((-2 ^ 63 : Int).bmod (2 ^ 32), .erange)
  else if 2 ^ 63 ≤ value then ((2 ^ 63 - 1 : Int).bmod (2 ^ 32), .erange)
  else (value.bmod (2 ^ 32), errno)

/-- The number, and the `errno` that is left behind. It is not cleared before. -/
def confGetNumber (mSection : Section) (key : Bytes) (errno : Errno) : Int × Errno :=
  match mSection.lookup key with
  | none => (-1, errno)
  | some value =>
      let number := atoi (cstr value) errno
      match number.2 with
      | .erange => (-1, .erange)
      | .einval => (-1, .einval)
      | .other => number

/-- `Msg_parse`; `std::string` throws on a null pointer. -/
def msgParse (msg : Option Bytes) : Option Section :=
  msg.map fun data => confPraseLine (cstr data) (ascii ",")

example : confPraseLine (ascii "app_name = a,max_file=2#,x=") (ascii ",") =
    [(ascii "max_file", ascii "2"), (ascii "app_name", ascii "a")] := by decide +kernel

end UdpFileProxy.Config
