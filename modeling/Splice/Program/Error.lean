import Splice.Block.Error
import Splice.Program.Violation
import Splice.Redirect
import Splice.Symbol.Table

/-!
# What goes wrong with a program

The causes for which an operation on a whole program is refused. An error of a part of
the program is kept with the name of the part.

Each error says which operation was refused where, by handles and addresses; `Error.message`
words it. The names of the parts in front of their errors are part of the text.
-/

namespace Splice

/-- What the block graph is wanted for. -/
inductive GraphUse where
  | reading
  | editing
deriving DecidableEq

/-- Why an operation on a program is refused. -/
inductive Error where
  | chain (cause : ChainError)
  | symbol (cause : SymbolError)
  | graph (cause : GraphError)
  | redirect (cause : RedirectError)
  /-- Jumps were still being widened when the last pass allowed was done. -/
  | promotionDidNotConverge (passes : Nat)
  | graphNotBuilt (use : GraphUse)
  /-- The instruction is the only one of its block or function. -/
  | emptyBlock (addr : UInt64)
  /-- The edges of a block are those of the instruction. -/
  | blockEndingTransfer (addr : UInt64)
  | missingVersion (index : Nat)
  | baseVersionImmutable
  | violation (cause : Violation)
deriving DecidableEq

def GraphUse.text : GraphUse → String
  | reading => "graph"
  | editing => "graph_mut"

def Error.message : Error → String
  | chain cause => "instruction chain: " ++ cause.message
  | symbol cause => "symbol table: " ++ cause.message
  | graph cause => "block graph: " ++ cause.message
  | redirect cause => cause.message
  | promotionDidNotConverge passes =>
    s!"short-jump promotion did not converge after {passes} passes"
  | graphNotBuilt use => "block graph not built: call build_blocks before " ++ use.text
  | emptyBlock addr =>
    "removing the instruction at 0x" ++ hexText addr.toNat ++ " would leave an empty block"
  | blockEndingTransfer addr =>
    "the transfer at 0x" ++ hexText addr.toNat
      ++ " ends a block; drop the block graph before removing it"
  | missingVersion index => s!"version {index} not found"
  | baseVersionImmutable => "version 0 is the decoded program and cannot be edited"
  | violation cause => "invariant violated: " ++ cause.message

end Splice
