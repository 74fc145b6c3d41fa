import Splice.Handle
import Splice.Instruction.Flags
import Splice.Instruction.Encoding

/-!
# Instructions

One decoded machine instruction with everything the rest of the program knows
about it: its bytes, where it was and where it is, where it jumps, who jumps to
it, and the relocations that touch it. Its place in the order of the code is not
part of it; that is the business of `Splice.Chain`.

Addresses are relative to a section.

The operations are: `decoded` and `synthetic`, which make an instruction with an input address
and one without; `size` and `endAddr`; and the reading of its encoding, `displacement?`,
`isShortJump` and `encodedTarget?`.

Notes on the model:
* `endAddr` wraps around at the end of the address space;
* operands are kept as the text of mnemonic and operands, because no operation on code reads
  more of them;
* the lists of jumpers and of records are in the order in which they were noted.
-/

namespace Splice

/-- The number of a section of the object file; zero stands for no section. -/
abbrev SectionId := UInt16

/-- A decoded machine instruction. -/
structure Instruction where
  /-- Address in the input object; it never changes. -/
  inputAddr : UInt64
  /-- Address in the output object. -/
  addr : UInt64
  sec : SectionId
  bytes : List UInt8
  /-- Number of bytes in front of the operands: prefixes and opcode. -/
  opcodeSize : UInt8
  flags : Flags
  mnemonic : String
  operands : List String
  /-- Target of a direct jump or call. -/
  target : Option InstrId
  /-- Targets of an indirect jump or call through a table. -/
  jumpTable : List InstrId
  /-- Relocation records that patch bytes of this instruction. -/
  relocs : List SymbolId
  /-- Symbol records that point at this instruction. -/
  referencedBy : List SymbolId
  /-- Instructions that jump or call here, directly or through a table. -/
  targetedBy : List InstrId
  /-- The function that owns the instruction. -/
  func : Option FuncId
deriving DecidableEq, Inhabited

namespace Instruction

/-- A freshly decoded instruction, in no section and without links. -/
def decoded (addr : UInt64) (bytes : List UInt8) (opcodeSize : UInt8) (flags : Flags) :
    Instruction where
  inputAddr := addr
  addr := addr
  sec := 0
  bytes := bytes
  opcodeSize := opcodeSize
  flags := flags
  mnemonic := ""
  operands := []
  target := none
  jumpTable := []
  relocs := []
  referencedBy := []
  targetedBy := []
  func := none

/-- A new instruction to be spliced in: it has no address in the input and is flagged as
instrumentation. -/
def synthetic (bytes : List UInt8) (opcodeSize : UInt8) (flags : Flags) : Instruction :=
  decoded 0 bytes opcodeSize (flags ∪ .instrumented)

/-- Number of bytes. -/
def size (instr : Instruction) : UInt64 := UInt64.ofNat instr.bytes.length

/-- The address just behind the instruction. -/
def endAddr (instr : Instruction) : UInt64 := instr.addr + instr.size

def isInstrumented (instr : Instruction) : Bool := instr.flags.isInstrumented

/-- A direct jump or call: it has a displacement to be patched. -/
def isDirectTransfer (instr : Instruction) : Bool :=
  instr.target.isSome && !instr.flags.isIndirect

def displacementField? (instr : Instruction) : Option DisplacementField :=
  Encoding.displacementField? instr.bytes instr.opcodeSize

/-- The displacement in the bytes. -/
def displacement? (instr : Instruction) : Option Int64 := do
  (← instr.displacementField?).read? instr.bytes

/-- A direct jump with an 8-bit displacement. -/
def isShortJump (instr : Instruction) : Bool :=
  instr.flags.isJump && !instr.flags.isIndirect
    && instr.displacementField?.any (·.width == 1)

/-- Where the displacement in the bytes leads, modulo `2 ^ 64`. -/
def encodedTarget? (instr : Instruction) : Option UInt64 := do
  return instr.endAddr + (← instr.displacement?).toUInt64

/-- The direct target and the table entries, in this order. -/
def references (instr : Instruction) : List InstrId :=
  instr.target.toList ++ instr.jumpTable

/-- The instruction jumps or calls to `id`, directly or through its table. -/
def refersTo (instr : Instruction) (id : InstrId) : Bool :=
  instr.target == some id || instr.jumpTable.contains id

end Instruction

end Splice
