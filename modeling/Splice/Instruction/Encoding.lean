import Splice.Instruction.Displacement

/-!
# Encoding rules of the x86 family

The layout of code depends on the instruction set in two places only: where the
displacement of a direct transfer lies, and how a jump with an 8-bit displacement
is widened. The rules are the same for the 64-bit and the 32-bit member of the
family, which differ in name and pointer width.

`displacementField?` finds the field at the end of the opcode: what is left of the bytes is the
displacement, if it is one, two or four bytes wide. `promote?` gives the long form of a short
jump with prefixes kept: `EB` becomes `E9`, and `70` to `7F` become `0F 80` to `0F 8F`.

Notes on the model: the architecture is a value and not a parameter, since both members share
every rule that is used; and the number of bytes in front of a displacement is kept in one byte,
so it wraps around where the engine's does.
-/

namespace Splice

/-- A member of the x86 family. -/
inductive Architecture where
  | x86_64
  | x86
deriving DecidableEq, Inhabited

namespace Architecture

def name : Architecture → String
  | x86_64 => "x86-64"
  | x86 => "x86"

/-- Width of a pointer in bytes. -/
def pointerBytes : Architecture → Nat
  | x86_64 => 8
  | x86 => 4

end Architecture

namespace Encoding

/-- The displacement follows the opcode (prefixes count as part of the opcode) and fills the
rest of the encoding; a rest of any other length than 1, 2 or 4 bytes is no displacement. -/
def displacementField? (bytes : List UInt8) (opcodeSize : UInt8) : Option DisplacementField :=
  let offset := opcodeSize.toNat
  if offset ≤ bytes.length ∧ [1, 2, 4].contains (bytes.length - offset) then
    some ⟨offset, bytes.length - offset⟩
  else
    none

/-- The long form of a short jump: its encoding with a zero displacement of four bytes, and the
number of bytes in front of that displacement. -/
structure Promotion where
  bytes : List UInt8
  opcodeSize : UInt8
deriving DecidableEq

/-- The opcode bytes with a 32-bit displacement for an opcode with an 8-bit one: `EB` becomes
`E9` and the conditional jumps `70` to `7F` become `0F 80` to `0F 8F`. Other opcodes, such as
the loop instructions, have no long form. -/
def longOpcode? (opcode : UInt8) : Option (List UInt8) :=
  if opcode = 0xEB then some [0xE9]
  else if 0x70 ≤ opcode ∧ opcode ≤ 0x7F then some [0x0F, 0x80 + (opcode - 0x70)]
  else none

/-- Widens a short jump. It has to consist of prefixes, one opcode byte and one displacement
byte; the prefixes are kept. -/
def promote? (bytes : List UInt8) (opcodeSize : UInt8) : Option Promotion :=
  let size := opcodeSize.toNat
  if size = 0 ∨ bytes.length ≠ size + 1 then
    none
  else do
    let opcode ← bytes[size - 1]?
    let long ← longOpcode? opcode
    let code := bytes.take (size - 1) ++ long
    return ⟨code ++ List.replicate 4 0, UInt8.ofNat code.length⟩

end Encoding

end Splice
