import Splice.Instruction.Basic
import Splice.Text.Hex

/-!
# Warnings

Conditions met while relocations are read and tied to the code that are reported and
passed over.

What is written to a log besides is left out. Warnings are collected in the order in which they
are met.
-/

namespace Splice

/-- A condition that is reported and passed over. -/
inductive Warning where
  /-- A relocation names a symbol that the object does not list. -/
  | unresolvedRelocation (sec : SectionId) (offset : UInt64) (symbol : UInt32)
  /-- A relocation patches code where no instruction lies. -/
  | relocationOutsideInstruction (sec : SectionId) (offset : UInt64)
  /-- A relocation refers to a place in the code where no instruction begins. -/
  | unlinkedRelocationTarget (sec : SectionId) (addr : UInt64)
deriving DecidableEq

namespace Warning

/-- A place in a section: the number of the section in brackets and the offset in base 16. -/
def placeText (sec : SectionId) (offset : UInt64) : String :=
  "[" ++ sec.toNat.repr ++ "]+0x" ++ hexText offset.toNat

def message : Warning → String
  | unresolvedRelocation sec offset symbol =>
    "relocation at " ++ placeText sec offset ++ " refers to unknown symbol #"
      ++ symbol.toNat.repr
  | relocationOutsideInstruction sec offset =>
    "relocation at " ++ placeText sec offset ++ " is not covered by any instruction"
  | unlinkedRelocationTarget sec addr =>
    "relocation target " ++ placeText sec addr ++ " is not an instruction boundary"

end Warning

end Splice
