import Splice.Handle
import Splice.Text.Hex

/-!
# What goes wrong in the code

The causes for which an operation on instructions and functions is refused, and
the one function that words them.

A refusal for want of handles is left out: a store has room for all that is put in it.
-/

namespace Splice

/-- Why an operation on the instruction chain or the function table is refused. -/
inductive ChainError where
  /-- The handle names no instruction that is present. -/
  | missingInstruction (id : InstrId)
  /-- The handle names no function. -/
  | missingFunction (id : FuncId)
  /-- A displacement is wanted from an encoding that has none. -/
  | noDisplacementField (addr : UInt64)
  /-- The distance to the target is too large for the field. -/
  | displacementOverflow (addr : UInt64) (disp : Int64) (width : Nat)
  /-- A short jump has to be widened but has no long form. -/
  | unpromotable (addr : UInt64)
  /-- An instruction is to be replaced by nothing. -/
  | emptyReplacement (id : InstrId)
deriving DecidableEq

namespace ChainError

def message : ChainError → String
  | missingInstruction id => s!"instruction {id} not found (dangling handle)"
  | missingFunction id => s!"function {id} not found (dangling handle)"
  | noDisplacementField addr =>
    "instruction at 0x" ++ hexText addr.toNat ++ " has no displacement field"
  | displacementOverflow addr disp width =>
    s!"displacement {disp.toInt} does not fit {width}-byte field of instruction at 0x"
      ++ hexText addr.toNat
  | unpromotable addr => "short jump at 0x" ++ hexText addr.toNat ++ " has no long form"
  | emptyReplacement id => s!"instruction {id} replaced by an empty sequence"

end ChainError

end Splice
