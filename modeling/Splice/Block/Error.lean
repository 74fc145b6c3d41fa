import Splice.Chain.Error

/-!
# What goes wrong in the block graph

The causes for which an operation on basic blocks is refused, and the one function
that words them.

Errors carry the names and addresses that their messages show.
-/

namespace Splice

/-- Why an operation on basic blocks is refused. -/
inductive GraphError where
  /-- A linked instruction belongs to no function. -/
  | unmappedInstruction (addr : UInt64)
  /-- A jump leads to an instruction that is not linked. -/
  | brokenTarget (source target : InstrId)
  /-- The handle names no block. -/
  | missingBlock (id : BlockId)
  /-- The handle names no edge. -/
  | missingEdge (id : EdgeId)
  /-- An operation on the code was refused. -/
  | chain (cause : ChainError)
deriving DecidableEq

def GraphError.message : GraphError → String
  | unmappedInstruction addr =>
    "instruction at 0x" ++ hexText addr.toNat ++ " is not covered by any function"
  | brokenTarget source target =>
    s!"instruction {source} targets {target}, which is not in the chain"
  | missingBlock id => s!"block {id} not found (dangling handle)"
  | missingEdge id => s!"edge {id} not found (dangling handle)"
  | chain cause => cause.message

end Splice
