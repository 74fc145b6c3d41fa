import Splice.Block.Basic

/-!
# Splitting blocks

A block is cut in two at one of its instructions, which becomes the first of the
second half or the last of the first half. The block keeps its name, its first half,
its incoming edges and its part as a loop header; a new block behind it takes the
second half, the outgoing edges and the part as a loop footer. An instruction that
already lies on the boundary in question leaves everything as it is.

`split` cuts a given block, `splitAt` the block that is found for the instruction. The count of
the first half is read off the code between the first instruction and the cut; an instruction
that is not in the block is not told from one that is (`split_foreign`). The new block takes its
place in the tree right behind the old one, and each outgoing edge gets a new source.
-/

namespace Splice

/-- Which end of a block the cut is to make of an instruction. -/
inductive SplitMode where
  | first
  | last
deriving DecidableEq

namespace GraphM

/-- The error for an instruction that does not lie in the block it is looked for in. -/
def unmapped (chain : Chain) (instr : InstrId) : GraphError :=
  match chain.get? instr with
  | some found => .unmappedInstruction found.inputAddr
  | none => .chain (.missingInstruction instr)

/-- The handle that follows or precedes an instruction, which has to have one. -/
def neighbour (instr : InstrId) (found : Option InstrId) : GraphM InstrId :=
  match found with
  | some id => pure id
  | none => throw (.chain (.missingInstruction instr))

/-- The number of instructions of a block in front of `tailFirst`, for a cut at `instr`. -/
def headCount (chain : Chain) (block : Block) (tailFirst instr : InstrId) : GraphM Nat := do
  let behind := chain.walk (some block.first)
  let head := behind.takeWhile (· != tailFirst)
  -- past its last instruction the block is over, wherever the cut was meant to be
  if head.contains block.last then
    throw (unmapped chain instr)
  if head.length = behind.length then
    throw (.chain (.missingInstruction (head.getLast?.getD block.first)))
  return head.length

/-- Cuts the block `id` in front of `tailFirst`, behind its first `count` instructions, of which
`headLast` is the last. Returns the new block. -/
def cut (id : BlockId) (block : Block) (count : Nat) (headLast tailFirst : InstrId) :
    GraphM BlockId := do
  let new : BlockId := ⟨(← get).blocks.size⟩
  let second : Block :=
    { first := tailFirst
      last := block.last
      count := block.count - count
      kind := ⟨false, block.kind.isFooter⟩
      inEdges := []
      outEdges := block.outEdges
      func := block.func
      prev := some id
      next := block.next }
  updateBlock id fun block =>
    { block with
      outEdges := []
      last := headLast
      count := count
      kind := ⟨block.kind.isHeader, false⟩
      next := some new }
  block.outEdges.forM fun edge => updateEdge edge fun edge => { edge with source := new }
  match block.next with
  | some next => updateBlock next fun block => { block with prev := some new }
  | none => modify fun graph => { graph with tail := some new }
  modify fun graph => { graph with blocks := graph.blocks.push second }
  onTree (TreeM.insertAfter id new)
  return new

/-- Splits a block so that `instr` becomes the first or the last instruction of a block, and returns
the block that holds `instr` afterwards. -/
def split (chain : Chain) (id : BlockId) (instr : InstrId) (mode : SplitMode) :
    GraphM BlockId := do
  let block ← GraphM.block id
  match mode with
  | .first =>
    if instr = block.first then
      return id
    let count ← headCount chain block instr instr
    let headLast ← neighbour instr (chain.prev? instr)
    cut id block count headLast instr
  | .last =>
    if instr = block.last then
      return id
    let tailFirst ← neighbour instr (chain.next? instr)
    let count ← headCount chain block tailFirst instr
    let headLast ← neighbour tailFirst (chain.prev? tailFirst)
    discard (cut id block count headLast tailFirst)
    return id

/-- Splits the block that lies over an instruction. -/
def splitAt (chain : Chain) (instr : InstrId) (mode : SplitMode) : GraphM BlockId := do
  match (← get).find chain instr with
  | .error cause => throw cause
  | .ok none => throw (unmapped chain instr)
  | .ok (some id) => split chain id instr mode

end GraphM

end Splice
