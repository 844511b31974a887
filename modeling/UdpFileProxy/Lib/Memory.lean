import Mathlib.Data.List.Basic
import Mathlib.Data.List.TakeWhile
import Mathlib.Tactic.Ring

/-! Byte strings as a C program sees them: integers stored in memory in the
byte order of the machine, reads of a range of a buffer that may fall outside
it, and strings that end at their first NUL. -/
namespace UdpFileProxy.Lib.Memory

abbrev Bytes := List UInt8

inductive Endian where
  | little
  | big
  deriving DecidableEq, Repr

def natLE : Nat → Nat → Bytes
  | 0, _ => []
  | width + 1, value => UInt8.ofNat value :: natLE width (value / 256)

def ofLE : Bytes → Nat
  | [] => 0
  | byte :: rest => byte.toNat + 256 * ofLE rest

@[simp] theorem length_natLE (width value : Nat) : (natLE width value).length = width := by
  induction width generalizing value with
  | zero => rfl
  | succ width ih => simp [natLE, ih]

@[simp] theorem ofLE_natLE (width value : Nat) : ofLE (natLE width value) = value % 256 ^ width := by
  induction width generalizing value with
  | zero => simp [natLE, ofLE, Nat.mod_one]
  | succ width ih =>
    rw [natLE, ofLE, ih, pow_succ', UInt8.toNat_ofNat']
    exact Nat.mod_mul.symm

/-- The bytes of the low `width` bytes of `value`, two's complement when it is
negative. -/
def storeInt (order : Endian) (width : Nat) (value : Int) : Bytes :=
  match order with
  | .little => natLE width (value % (256 ^ width : Nat)).toNat
  | .big => (natLE width (value % (256 ^ width : Nat)).toNat).reverse

def loadInt (order : Endian) (bytes : Bytes) : Int :=
  match order with
  | .little => (ofLE bytes : Int).bmod (256 ^ bytes.length)
  | .big => (ofLE bytes.reverse : Int).bmod (256 ^ bytes.length)

@[simp] theorem length_storeInt (order : Endian) (width : Nat) (value : Int) :
    (storeInt order width value).length = width := by
  cases order <;> simp [storeInt]

@[simp] theorem loadInt_storeInt_bmod (order : Endian) (width : Nat) (value : Int) :
    loadInt order (storeInt order width value) = value.bmod (256 ^ width) := by
  have hpos : (0 : Int) < (256 ^ width : Nat) := by exact_mod_cast Nat.pow_pos (by decide)
  have hnonneg : 0 ≤ value % (256 ^ width : Nat) := Int.emod_nonneg _ (by omega)
  have hlt : (value % (256 ^ width : Nat)).toNat < 256 ^ width := by
    have := Int.emod_lt_of_pos value hpos
    omega
  have hload : ((ofLE (natLE width (value % (256 ^ width : Nat)).toNat) : Nat) : Int) =
      value % (256 ^ width : Nat) := by
    rw [ofLE_natLE, Nat.mod_eq_of_lt hlt, Int.toNat_of_nonneg hnonneg]
  cases order <;>
    simp only [loadInt, storeInt, List.reverse_reverse, List.length_reverse, length_natLE, hload,
      Int.emod_bmod]

/-- A value that fits in `width` bytes is read back unchanged. -/
theorem loadInt_storeInt (order : Endian) (width : Nat) (value : Int)
    (hlow : -(256 ^ width : Nat) ≤ 2 * value) (hhigh : 2 * value < (256 ^ width : Nat)) :
    loadInt order (storeInt order width value) = value := by
  rw [loadInt_storeInt_bmod]
  exact Int.bmod_eq_of_le_mul_two (by omega) (by omega)

/-- A block of memory of a fixed size. -/
structure Buffer (size : Nat) where
  bytes : Bytes
  length_eq : bytes.length = size

namespace Buffer
variable {size : Nat}

def zeros (size : Nat) : Buffer size := ⟨List.replicate size 0, List.length_replicate⟩

instance : Inhabited (Buffer size) := ⟨zeros size⟩

/-- Copy `text` to the start of the block. The rest keeps its old contents. -/
def fill (buffer : Buffer size) (text : Bytes) : Buffer size :=
  ⟨text.take size ++ buffer.bytes.drop text.length, by
    simp only [List.length_append, List.length_take, List.length_drop, buffer.length_eq]
    omega⟩

/-- `len` bytes from `offset` on, when the whole range lies in the block. -/
def read (buffer : Buffer size) (offset len : Nat) : Option Bytes :=
  if offset + len ≤ size then some ((buffer.bytes.drop offset).take len) else none

@[simp] theorem take_drop_fill (buffer : Buffer size) {text : Bytes} {offset len : Nat}
    (hrange : offset + len ≤ text.length) (hsize : text.length ≤ size) :
    ((buffer.fill text).bytes.drop offset).take len = (text.drop offset).take len := by
  simp only [fill, List.take_of_length_le hsize]
  rw [List.drop_append_of_le_length (by omega), List.take_append_of_le_length]
  rw [List.length_drop]
  omega

@[simp] theorem read_fill_of_le (buffer : Buffer size) {text : Bytes} {offset len : Nat}
    (hrange : offset + len ≤ text.length) (hsize : text.length ≤ size) :
    (buffer.fill text).read offset len = some ((text.drop offset).take len) := by
  rw [read, if_pos (by omega), take_drop_fill buffer hrange hsize]

/-- A field of a text made of fields is read back. -/
theorem read_fill (buffer : Buffer size) {text left middle right : Bytes} {offset len : Nat}
    (layout : text = left ++ middle ++ right) (hoffset : offset = left.length)
    (hlen : len = middle.length) (hsize : text.length ≤ size) :
    (buffer.fill text).read offset len = some middle := by
  subst layout hoffset hlen
  rw [buffer.read_fill_of_le (by simp) hsize, List.append_assoc, List.drop_left, List.take_left]

end Buffer

/-- The bytes of a string literal. -/
def ascii (literal : String) : Bytes := literal.toUTF8.data.toList

/-- The C string at the start of `bytes`. -/
def cstr (bytes : Bytes) : Bytes := bytes.takeWhile (· ≠ 0)

end UdpFileProxy.Lib.Memory
