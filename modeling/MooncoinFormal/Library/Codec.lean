import Mathlib

/-!
# Reading what was written

A reader takes a value off the front of a byte string, or fails. `Reads read
bytes value` says that the reader takes exactly those bytes whatever follows
them; the rules below follow the structure of a reader, so the law of a composed
format is put together from those of its parts.
-/

namespace MooncoinFormal.Library.Codec

open List

variable {α β : Type}

/-- A reader of values from the front of a byte string. -/
abbrev Reader (α : Type) := StateT (List UInt8) Option α

/-- The reader takes exactly the bytes and returns the value. -/
def Reads (read : Reader α) (bytes : List UInt8) (value : α) : Prop :=
  ∀ rest, read.run (bytes ++ rest) = some (value, rest)

namespace Reads

theorem pure (value : α) : Reads (Pure.pure value) [] value := fun _ => rfl

variable {read : Reader α} {next : α → Reader β}

theorem bind {bytes bytes' : List UInt8} {value : α}
    {value' : β} (first : Reads read bytes value) (second : Reads (next value) bytes' value') :
    Reads (read >>= next) (bytes ++ bytes') value' := by
  intro rest
  rw [StateT.run_bind, append_assoc, first]
  exact second rest

/-- The rule for a reader that ends with what it does with the last part. -/
theorem last {bytes : List UInt8} {value : α}
    {value' : β} (first : Reads read bytes value) (second : Reads (next value) [] value') :
    Reads (read >>= next) bytes value' := by
  simpa using first.bind second

end Reads

def readByte : Reader UInt8
  | [] => none
  | byte :: rest => some (byte, rest)

theorem reads_readByte (byte : UInt8) : Reads readByte [byte] byte := fun _ => rfl

def readBytes (size : Nat) : Reader (List UInt8) := fun bytes =>
  if bytes.length < size then none else some (bytes.take size, bytes.drop size)

theorem reads_readBytes (bytes : List UInt8) : Reads (readBytes bytes.length) bytes bytes := by
  intro rest
  show (if (bytes ++ rest).length < bytes.length then none
    else some ((bytes ++ rest).take bytes.length, (bytes ++ rest).drop bytes.length)) = _
  rw [if_neg (by simp), take_left, drop_left]

/-! ## Words, the lowest byte first -/

def littleEndian : List UInt8 → Nat
  | [] => 0
  | byte :: rest => byte.toNat + 256 * littleEndian rest

def toBytes : (size value : Nat) → List UInt8
  | 0, _ => []
  | size + 1, value => UInt8.ofNat value :: toBytes size (value / 256)

theorem length_toBytes (size value : Nat) : (toBytes size value).length = size := by
  induction size generalizing value with
  | zero => rfl
  | succ size ih => rw [toBytes, length_cons, ih]

theorem littleEndian_toBytes (size value : Nat) :
    littleEndian (toBytes size value) = value % 256 ^ size := by
  induction size generalizing value with
  | zero => rw [toBytes, pow_zero, Nat.mod_one]; rfl
  | succ size ih =>
    rw [toBytes, littleEndian, ih, pow_succ, Nat.mul_comm (256 ^ size), Nat.mod_mul]
    simp

def readWord (size : Nat) : Reader Nat := do
  let bytes ← readBytes size
  return littleEndian bytes

theorem reads_readWord {size value : Nat} (fits : value < 256 ^ size) :
    Reads (readWord size) (toBytes size value) value := by
  have bytes := reads_readBytes (toBytes size value)
  rw [length_toBytes] at bytes
  refine bytes.last ?_
  rw [littleEndian_toBytes, Nat.mod_eq_of_lt fits]
  exact Reads.pure value

def readMany (read : Reader α) : Nat → Reader (List α)
  | 0 => return []
  | count + 1 => do
      let first ← read
      let rest ← readMany read count
      return first :: rest

theorem reads_readMany {read : Reader β} {write : α → List UInt8} {image : α → β} (values : List α)
    (reads : ∀ value ∈ values, Reads read (write value) (image value)) :
    Reads (readMany read values.length) (values.flatMap write) (values.map image) := by
  induction values with
  | nil => exact Reads.pure []
  | cons first rest ih =>
    refine (reads first mem_cons_self).bind ?_
    exact (ih (forall_mem_cons.mp reads).2).last (Reads.pure _)

end MooncoinFormal.Library.Codec
