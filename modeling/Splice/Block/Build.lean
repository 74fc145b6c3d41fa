import Splice.Block.Loop
import Splice.Block.Split

/-!
# Building the block graph

The chain is first one block. It is cut at the first and behind the last instruction
of every function, behind every instruction that ends a block, and at every target.
Then the edges are drawn from what the last instruction of each block does:

* a direct jump leads to its target, an indirect one to each entry of its table, and a
  conditional one also to the next block;
* a call leads to its callees, and each exit of a callee leads back to the next block;
  where no callee is known, control passes on to the next block;
* a return leads nowhere, and any other instruction to the next block.

The next block counts only if it belongs to the same function.

Targets are logical ones here: neither the cuts nor the edges take notice of redirects.

Notes on the model: what a block leads to is listed first (`passages`) and drawn then, in the
same order; the block of a target is found by address in the graph that has been cut so far, so
a search may be refused where addresses wrap around; and a build that is refused leaves the
graph that there was, since it works on a graph of its own.
-/

namespace Splice

namespace BlockGraph

/-- The sections of the instructions in the order in which they first come. -/
def sectionOrder (instrs : List Instruction) : List SectionId :=
  instrs.foldl
    (fun sections instr =>
      if sections.contains instr.sec then sections else sections ++ [instr.sec]) []

/-- The graph with the whole chain as its single block. -/
def whole (head tail : InstrId) (count : Nat) (sections : List SectionId) : BlockGraph where
  blocks := #[⟨head, tail, count, .generic, [], [], none, none, none⟩]
  edges := #[]
  head := some ⟨0⟩
  tail := some ⟨0⟩
  tree := .singleton ⟨0⟩
  sections := sections

/-- A block with the instruction at its end. -/
structure BlockEnd where
  id : BlockId
  block : Block
  instr : Instruction
deriving DecidableEq, Inhabited

/-- The blocks in the order of the code with the instructions at their ends, which have to be
present. -/
def ends (graph : BlockGraph) (chain : Chain) : Except GraphError (List BlockEnd) :=
  graph.ids.mapM fun id => do
    let block ← graph.block id
    let instr ← (chain.get block.last).mapError .chain
    return ⟨id, block, instr⟩

/-- The blocks of a function that end in a return. -/
def exits (ends : List BlockEnd) (func : FuncId) : List BlockId :=
  (ends.filter fun exit => exit.block.func == some func && exit.instr.flags.isReturn).map (·.id)

/-- The next block, if it belongs to the same function. -/
def follower? (graph : BlockGraph) (block : Block) : Option BlockId :=
  block.next.filter fun next => (graph.block? next).any fun found => found.func == block.func

/-- The block that lies over the target of a jump at the end of a block. -/
def blockOfTarget (graph : BlockGraph) (chain : Chain) (source target : InstrId) :
    Except GraphError BlockId := do
  match ← graph.find chain target with
  | some id => return id
  | none => throw (.brokenTarget source target)

/-- A passage of control that is to become an edge. -/
structure Passage where
  source : BlockId
  target : BlockId
  kind : EdgeKind
deriving DecidableEq

/-- The passages of a call to one callee: to the callee, and from its exits to the block behind. -/
def callPassages (graph : BlockGraph) (chain : Chain) (ends : List BlockEnd) (call : BlockEnd)
    (follow : Option BlockId) (callee : InstrId) : Except GraphError (List Passage) := do
  let target ← graph.blockOfTarget chain call.block.last callee
  let back := match follow, (chain.get? callee).bind (·.func) with
    | some follow, some func => (exits ends func).map fun source => ⟨source, follow, .ret⟩
    | _, _ => []
  return ⟨call.id, target, .call⟩ :: back

/-- The passages of control from the end of a block. -/
def passages (graph : BlockGraph) (chain : Chain) (ends : List BlockEnd) (exit : BlockEnd) :
    Except GraphError (List Passage) := do
  let flags := exit.instr.flags
  let follow := graph.follower? exit.block
  let onward (kind : EdgeKind) : List Passage :=
    follow.toList.map fun next => ⟨exit.id, next, kind⟩
  let known := if flags.isIndirect then exit.instr.jumpTable else exit.instr.target.toList
  if flags.isJump then
    let kind : EdgeKind :=
      if flags.isIndirect then .indirect else if flags.isConditional then .taken else .goto
    let jumps ← known.mapM fun target => do
      return ⟨exit.id, ← graph.blockOfTarget chain exit.block.last target, kind⟩
    return jumps ++ if flags.isConditional then onward .notTaken else []
  else if flags.isCall then
    if known.isEmpty then
      return onward .pastCall
    return (← known.mapM (graph.callPassages chain ends exit follow)).flatten
  else if flags.isReturn then
    return []
  else
    return onward .fallthrough

end BlockGraph

namespace GraphM

/-- Cuts in front of the first and behind the last instruction of a function. -/
def splitFunction (chain : Chain) (function : Function) : GraphM Unit := do
  match function.first, function.last with
  | some first, some last =>
    discard (splitAt chain first .first)
    discard (splitAt chain last .last)
  | _, _ => return

/-- Cuts behind an instruction that ends a block, and in front of its targets. -/
def splitTransfer (chain : Chain) (id : InstrId) (instr : Instruction) : GraphM Unit := do
  if instr.flags.endsBlock then
    discard (splitAt chain id .last)
  instr.references.forM fun target => do
    if !chain.isLinked target then
      throw (.brokenTarget id target)
    discard (splitAt chain target .first)

/-- Gives each block the function of its first instruction. -/
def stampFunctions (chain : Chain) : GraphM Unit :=
  modify fun graph =>
    { graph with
      blocks := graph.blocks.map fun block =>
        { block with func := (chain.get? block.first).bind (·.func) } }

/-- Draws the edges of all blocks. -/
def linkEdges (chain : Chain) : GraphM Unit := do
  let graph ← get
  let drawn := do
    let ends ← graph.ends chain
    ends.mapM (graph.passages chain ends)
  match drawn with
  | .error cause => throw cause
  | .ok passages =>
    passages.flatten.forM fun passage =>
      discard (addEdge passage.source passage.target passage.kind)

end GraphM

namespace BlockGraph

/-- The linked instructions with their names; each of them has to belong to a function. -/
def mappedInstructions (chain : Chain) : Except GraphError (List (InstrId × Instruction)) :=
  chain.ids.mapM fun id => do
    match chain.get? id with
    | none => throw (.chain (.missingInstruction id))
    | some instr =>
      if instr.func.isNone then
        throw (.unmappedInstruction instr.inputAddr)
      return (id, instr)

/-- The block graph of a chain whose instructions carry their functions and addresses. -/
def build (chain : Chain) (functions : FunctionTable) : Except GraphError BlockGraph := do
  match chain.head, chain.tail with
  | some head, some tail =>
    let instrs ← mappedInstructions chain
    let action : GraphM Unit := do
      functions.functions.toList.forM (GraphM.splitFunction chain)
      instrs.forM fun (id, instr) => GraphM.splitTransfer chain id instr
      GraphM.stampFunctions chain
      GraphM.linkEdges chain
      discard GraphM.discoverLoops
    match action (whole head tail chain.length (sectionOrder (instrs.map (·.2)))) with
    | .ok _ graph => return graph
    | .error cause _ => throw cause
  | _, _ => return empty

end BlockGraph

end Splice
