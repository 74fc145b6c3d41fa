import Splice.Chain.Reference

/-!
# Splicing

Each operation changes the list of linked instructions as its name says: `push`
appends, `insertBefore` and `insertAfter` put a new instruction next to a present
one, `unlink` takes one out and keeps its slot, `free` takes one out for good, and
`replace` puts a sequence in the place of one instruction and passes its jumpers on
to the first of the sequence.

`insertBefore` and `insertAfter` relink a neighbour that is detached like any other; what this
does to the list is the subject of `Splice.Proofs.Chain.Detached`. `replace` places the sequence
in front of the instruction that it takes the place of, then leads the jumpers on and frees it;
it is refused for an empty sequence.
-/

namespace Splice.ChainM

/-- Appends an instruction at the end of the code. -/
def push (instr : Instruction) : ChainM InstrId := do
  let tail := (← get).tail
  let id ← allocate instr none none
  linkNext tail (some id)
  updateNode id fun node => { node with prev := tail }
  modify fun chain => { chain with tail := some id, length := chain.length + 1 }
  return id

/-- Puts a new instruction right behind `anchor`. -/
def insertAfter (anchor : InstrId) (instr : Instruction) : ChainM InstrId := do
  let next := (← node anchor).next
  let id ← allocate instr (some anchor) next
  linkNext (some anchor) (some id)
  linkPrev next (some id)
  modify fun chain => { chain with length := chain.length + 1 }
  return id

/-- Puts a new instruction right in front of `anchor`. -/
def insertBefore (anchor : InstrId) (instr : Instruction) : ChainM InstrId := do
  let prev := (← node anchor).prev
  let id ← allocate instr prev (some anchor)
  linkPrev (some anchor) (some id)
  linkNext prev (some id)
  modify fun chain => { chain with length := chain.length + 1 }
  return id

/-- Takes an instruction out of the list and keeps its slot; nothing happens to one that is
not linked. -/
def unlink (id : InstrId) : ChainM Unit := do
  let node ← node id
  if (← get).isLinked id then
    linkNext node.prev node.next
    linkPrev node.next node.prev
    updateNode id fun node => { node with prev := none, next := none }
    modify fun chain => { chain with length := chain.length - 1 }

/-- Takes an instruction out of the list, drops its references to others and empties its slot.
Jumpers that still name it have to be moved beforehand. -/
def free (id : InstrId) : ChainM Instruction := do
  unlink id
  let _ ← unlinkTarget id
  setJumpTable id []
  let freed ← instr id
  -- the slot stays, empty, so that no later instruction takes over the name
  modify fun chain => { chain with slots := chain.slots.setIfInBounds id.index none }
  return freed

/-- Puts `replacements` in the place of `old` and frees it. The jumpers of `old` and the symbols
that point at it pass to the first replacement. The freed instruction is returned with the
relocations that patched its bytes, which are the caller's to place. -/
def replace (old : InstrId) (replacements : List Instruction) :
    ChainM (List InstrId × Instruction) := do
  match replacements with
  | [] => throw (.emptyReplacement old)
  | instr :: instrs =>
    let first ← insertBefore old instr
    -- right in front of `old` is right behind the ones already inserted
    let others ← instrs.mapM (insertBefore old)
    retargetAll old first
    let moved := (← ChainM.instr old).referencedBy
    update old fun instr => { instr with referencedBy := [] }
    update first fun instr => { instr with referencedBy := instr.referencedBy ++ moved }
    let freed ← free old
    return (first :: others, freed)

end Splice.ChainM
