import Splice.Block.Flow

/-!
# Loops

A loop is closed by an edge that leads back to a block which is still open on a depth
first walk inside functions. The target of such an edge is the header of the loop, its
source the footer. The walk starts at the blocks that no edge enters, then at the
entries of functions, then at all blocks, so every block is reached.

The edges that close loops are read off the events of the walk (`seen` with an open node), where
the program has a visitor note them on the way. Tags of an earlier discovery are taken off
first, so it can be made again.
-/

namespace Splice

namespace BlockGraph

/-- The blocks where the function changes from the block in front. -/
def functionEntries (graph : BlockGraph) : List BlockId :=
  graph.ids.filter fun id =>
    (graph.block? id).any fun block =>
      match block.prev.bind graph.block? with
      | some prev => prev.func != block.func
      | none => true

/-- The edges that close a loop, as pairs of source and target, in the order in which the walk meets
them. -/
def backPairs (graph : BlockGraph) : List (BlockId × BlockId) :=
  let roots := graph.sources ++ graph.functionEntries ++ graph.ids
  (graph.localFlow.walk roots .forward .depthFirst .always).events.filterMap fun
    | .seen source target true => some (source, target)
    | _ => none

/-- The graph without any loop tag. -/
def withoutLoops (graph : BlockGraph) : BlockGraph :=
  { graph with
    blocks := graph.blocks.map fun block => { block with kind := .generic }
    edges := graph.edges.map fun edge => { edge with direction := .next } }

end BlockGraph

namespace GraphM

/-- Tags the ends of a pair that closes a loop, and the edges inside functions between them. -/
def tagLoop (source target : BlockId) : GraphM Unit := do
  updateBlock source fun block => { block with kind := block.kind.withFooter }
  updateBlock target fun block => { block with kind := block.kind.withHeader }
  (← block source).outEdges.forM fun id => updateEdge id fun edge =>
    if edge.target = target ∧ !edge.kind.isInterprocedural then
      { edge with direction := .back }
    else
      edge

/-- Tags the headers and footers of all loops and the edges that close them anew. Returns how many
pairs close a loop. -/
def discoverLoops : GraphM Nat := do
  modify BlockGraph.withoutLoops
  let pairs := (← get).backPairs
  pairs.forM fun (source, target) => tagLoop source target
  return pairs.length

end GraphM

end Splice
