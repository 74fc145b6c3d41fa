import Splice.Bytes.LittleEndian

/-!
# Displacement fields

A direct jump or call stores the distance from its own end to its target as a
signed little-endian number inside its encoding. A `DisplacementField` says where
that number lies; reading and writing touch the bytes of the field and nothing
else, and a write that is out of range or out of bounds leaves every byte alone.

A field is an offset and a width. `fits` says whether a number is one of the signed numbers of
that width; `read?` fails where the bytes do not hold the field, and `write?` where they do not
or where the number does not fit. A write returns the new bytes instead of changing them in
place; that it is refused is no answer.
-/

namespace Splice

/-- The place of a relative displacement inside an encoding. -/
structure DisplacementField where
  /-- Position of the first byte of the field. -/
  offset : Nat
  /-- Number of bytes of the field: 1, 2 or 4 in every encoding that can be read. -/
  width : Nat
deriving DecidableEq, Inhabited

namespace DisplacementField

/-- The least and the greatest displacement the field holds. A width other than 1 and 2 has
the range of four bytes. -/
def range (field : DisplacementField) : Int × Int :=
  match field.width with
  | 1 => (-128, 127)
  | 2 => (-32768, 32767)
  | _ => (-2147483648, 2147483647)

def fits (field : DisplacementField) (disp : Int64) : Bool :=
  decide (field.range.1 ≤ disp.toInt ∧ disp.toInt ≤ field.range.2)

/-- The field lies within an encoding of `length` bytes. -/
def inBounds (field : DisplacementField) (length : Nat) : Bool :=
  decide (field.offset + field.width ≤ length)

/-- The bytes of the field, where the encoding is long enough. -/
def slice (field : DisplacementField) (bytes : List UInt8) : List UInt8 :=
  (bytes.drop field.offset).take field.width

/-- The displacement held by the field; none if the field is out of bounds or has a width
other than 1, 2 and 4. -/
def read? (field : DisplacementField) (bytes : List UInt8) : Option Int64 :=
  if field.inBounds bytes.length && [1, 2, 4].contains field.width then
    some (Int64.ofInt (LittleEndian.decodeSigned (field.slice bytes)))
  else
    none

/-- The encoding with `disp` written into the field; none if `disp` is out of range or the
field is out of bounds. -/
def write? (field : DisplacementField) (bytes : List UInt8) (disp : Int64) :
    Option (List UInt8) :=
  if field.fits disp && field.inBounds bytes.length then
    some (bytes.take field.offset
      ++ LittleEndian.encode field.width disp.toUInt64.toNat
      ++ bytes.drop (field.offset + field.width))
  else
    none

/-- A write keeps the length of the encoding. -/
theorem length_write? {field : DisplacementField} {bytes out : List UInt8} {disp : Int64}
    (h : field.write? bytes disp = some out) : out.length = bytes.length := by
  unfold write? at h
  split at h
  · next hok =>
    simp only [Bool.and_eq_true, inBounds, decide_eq_true_eq] at hok
    injection h with h
    subst h
    simp only [List.length_append, List.length_take, List.length_drop,
      LittleEndian.length_encode]
    omega
  · cases h

end DisplacementField

end Splice
