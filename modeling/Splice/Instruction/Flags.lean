/-!
# Classification flags

A decoder classifies every instruction by a set of flags kept in the bits of one
word. Bits without a meaning are kept as they are but never named. The predicates
say what an instruction does to the flow of control: whether it jumps, calls or
returns, and whether execution can pass on to the instruction behind it.

Sets of flags are words with the operations of the bits. `text` writes the names of the flags in
the order of the bits.
-/

namespace Splice

/-- A set of classification flags, one bit each. -/
structure Flags where
  bits : UInt32
deriving DecidableEq, Inhabited

namespace Flags

def empty : Flags := ⟨0⟩
def memRead : Flags := ⟨1⟩
def memWrite : Flags := ⟨2⟩
def jump : Flags := ⟨4⟩
def indirectJump : Flags := ⟨8⟩
def call : Flags := ⟨16⟩
def indirectCall : Flags := ⟨32⟩
def ret : Flags := ⟨64⟩
def conditional : Flags := ⟨128⟩
def stackRelative : Flags := ⟨256⟩
def nop : Flags := ⟨512⟩
/-- Spliced in after decoding, not present in the input object. -/
def instrumented : Flags := ⟨1024⟩

/-- The flags that have a name, from the lowest bit to the highest. -/
def named : List (Flags × String) :=
  [(memRead, "MEM_READ"), (memWrite, "MEM_WRITE"), (jump, "JUMP"),
   (indirectJump, "INDIRECT_JUMP"), (call, "CALL"), (indirectCall, "INDIRECT_CALL"),
   (ret, "RETURN"), (conditional, "CONDITIONAL"), (stackRelative, "STACK_RELATIVE"),
   (nop, "NOP"), (instrumented, "INSTRUMENTED")]

/-- The flags of either set. -/
def union (a b : Flags) : Flags := ⟨a.bits ||| b.bits⟩

instance : Union Flags := ⟨union⟩

/-- The flags of `a` that are not in `b`. -/
def diff (a b : Flags) : Flags := ⟨a.bits &&& ~~~b.bits⟩

instance : SDiff Flags := ⟨diff⟩

/-- Every flag of `b` is in `a`. -/
def contains (a b : Flags) : Bool := a.bits &&& b.bits == b.bits

/-- Some flag is in both sets. -/
def intersects (a b : Flags) : Bool := a.bits &&& b.bits != 0

def isEmpty (a : Flags) : Bool := a.bits == 0

/-- Direct or indirect jump, not a call. -/
def isJump (a : Flags) : Bool := a.intersects (jump ∪ indirectJump)

/-- Direct or indirect call. -/
def isCall (a : Flags) : Bool := a.intersects (call ∪ indirectCall)

/-- Jump or call whose target is not part of the encoding. -/
def isIndirect (a : Flags) : Bool := a.intersects (indirectJump ∪ indirectCall)

def isReturn (a : Flags) : Bool := a.contains ret

def isConditional (a : Flags) : Bool := a.contains conditional

def isInstrumented (a : Flags) : Bool := a.contains instrumented

/-- Any transfer of control. -/
def isControlFlow (a : Flags) : Bool := a.isJump || a.isCall || a.isReturn

/-- A basic block ends with this instruction: it transfers control. -/
def endsBlock (a : Flags) : Bool := a.isControlFlow

/-- Execution never passes on to the next instruction. -/
def isUnconditionalTransfer (a : Flags) : Bool :=
  (a.isJump && !a.isConditional) || a.isReturn

/-- The names of the flags in the set separated by ` | `, or `NONE` for the empty set. A
non-empty set without a named flag has the empty text. -/
def text (a : Flags) : String :=
  if a.isEmpty then "NONE"
  else " | ".intercalate ((named.filter fun entry => a.contains entry.1).map (·.2))

end Flags

end Splice
