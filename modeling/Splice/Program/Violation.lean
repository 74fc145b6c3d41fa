import Splice.Instruction.Basic
import Splice.Text.Hex

/-!
# Violations

What the checks of `Splice.Program.Check` can find wrong with a program, and the one
function that words it.

Violations are found in the order in which the checks go through the program, so the one that is
reported is determined.
-/

namespace Splice

/-- Something that does not hold of a program although it should. -/
inductive Violation where
  /-- The instruction does not name the one in front of it. -/
  | stalePrev (id : InstrId)
  /-- The tail is not the last instruction met. -/
  | wrongTail
  | wrongLength (walked length : Nat)
  | misplaced (id : InstrId) (sec : SectionId) (addr expected : UInt64)
  /-- An instruction of the function is stamped otherwise. -/
  | wrongOwner (id : InstrId) (function : String) (owner : Option FuncId)
  | lastNotReached (function : String)
  | staleAddress (function : String)
  | wrongSize (function : String) (size sum : UInt64)
  | unlinkedTarget (id target : InstrId)
  | unlistedJumper (target jumper : InstrId)
  | strayJumper (id jumper : InstrId)
  | strayRelocation (id : InstrId) (symbol : SymbolId)
  | straySymbol (id : InstrId) (symbol : SymbolId)
  /-- The displacement does not lead to the physical target. -/
  | wrongDisplacement (id : InstrId) (addr : UInt64) (encoded : Option UInt64) (target : UInt64)
  | scatteredRecords (name : String) (id : SymbolId)
  | headlessRun (name : String)
  | repeatedBase (id : SymbolId) (name : String)
  | wrongCount (block : BlockId) (count held : Nat)
  | endNotReached (block : BlockId)
  /-- The instructions of the blocks are not those of the chain. -/
  | outOfStep (block : BlockId) (id : InstrId)
  | strayOutEdge (block : BlockId) (edge : EdgeId)
  | strayInEdge (block : BlockId) (edge : EdgeId)
  | uncoveredInstructions
  | unbalancedTree (block : BlockId)
  | wrongTreeOrder
deriving DecidableEq

namespace Violation

/-- The text of a possible owner. -/
def ownerText : Option FuncId → String
  | none => "None"
  | some id => "Some(FuncId(" ++ id.index.repr ++ "))"

/-- The text of a possible address, in base 16 without a mark. -/
def addressText : Option UInt64 → String
  | none => "None"
  | some addr => "Some(" ++ hexText addr.toNat ++ ")"

def message : Violation → String
  | stalePrev id => s!"{id} has a stale prev link"
  | wrongTail => "chain tail is not the last instruction"
  | wrongLength walked length =>
    s!"chain walk saw {walked} instructions, arena holds {length}"
  | misplaced id sec addr expected =>
    s!"{id} in section {sec.toNat} is at 0x" ++ hexText addr.toNat ++ ", expected 0x"
      ++ hexText expected.toNat
  | wrongOwner id function owner =>
    s!"{id} lies in {function} but is owned by " ++ ownerText owner
  | lastNotReached function => s!"{function} does not reach its last instruction"
  | staleAddress function => s!"{function} address is stale"
  | wrongSize function size sum =>
    s!"{function} size is {size.toNat}, instructions sum to {sum.toNat}"
  | unlinkedTarget id target => s!"{id} targets unlinked {target}"
  | unlistedJumper target jumper => s!"{target} does not list its jumper {jumper}"
  | strayJumper id jumper => s!"{id} lists {jumper}, which does not target it"
  | strayRelocation id symbol => s!"{id} lists relocation {symbol} of another instruction"
  | straySymbol id symbol => s!"{id} lists {symbol}, which points elsewhere"
  | wrongDisplacement id addr encoded target =>
    s!"{id} at 0x" ++ hexText addr.toNat ++ " encodes " ++ addressText encoded
      ++ ", target is at 0x" ++ hexText target.toNat
  | scatteredRecords name id => s!"records of {name} are not contiguous at {id}"
  | headlessRun name => s!"run of {name} does not start with its base record"
  | repeatedBase id name => s!"{id} repeats {name} without being a duplicate"
  | wrongCount block count held => s!"{block} counts {count} instructions, holds {held}"
  | endNotReached block => s!"{block} does not reach its end"
  | outOfStep block id => s!"{block} is out of step with the chain at {id}"
  | strayOutEdge block edge => s!"{block} lists out edge {edge} of another block"
  | strayInEdge block edge => s!"{block} lists in edge {edge} of another block"
  | uncoveredInstructions => "instructions after the last block"
  | unbalancedTree block => s!"tree node {block} is unbalanced"
  | wrongTreeOrder => "tree order differs from block sequence"

end Violation

end Splice
