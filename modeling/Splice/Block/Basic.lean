import Splice.Block.Tree
import Splice.Function

/-!
# Basic blocks

A basic block is a run of the chain that is entered at its first instruction and left
at its last. The blocks of a program follow each other in the order of the code, are
joined by typed edges where control can pass from one to another, and are found by
address through a balanced tree.

`BlockGraph.find` finds the block of an instruction by the section and the address
of the instruction: blocks are ordered by the order in which the sections come along
the chain, and within a section by address.

The operations are: `GraphM.addEdge` and `GraphM.retargetEdge`, which note an edge at both of
its ends; the reading of edges, sources and runs; and `find`, the search by address. A search
answers with a block only if the address is neither in front of it nor behind it; that the
instruction lies in the block it answers with is a theorem about graphs that are ordered
(`Splice.Proofs.Program.Searching`), and no check made here.

Notes on the model: blocks and edges are never taken out of their stores; the search compares
with the ends of blocks, which wrap around at the end of the address space; and the order of
sections is kept as the list of the sections in the order in which they came when the graph was
built.
-/

namespace Splice

/-- The part a block plays in loops. -/
structure BlockKind where
  /-- A loop is entered here: some edge closes a cycle at this block. -/
  isHeader : Bool
  /-- A cycle is closed from here. -/
  isFooter : Bool
deriving DecidableEq

namespace BlockKind

/-- A block without a part in a loop. -/
def generic : BlockKind := ⟨false, false⟩

instance : Inhabited BlockKind := ⟨generic⟩

def withHeader (kind : BlockKind) : BlockKind := { kind with isHeader := true }

def withFooter (kind : BlockKind) : BlockKind := { kind with isFooter := true }

end BlockKind

/-- How control passes along an edge. -/
inductive EdgeKind where
  /-- Unconditional direct jump. -/
  | goto
  /-- Taken side of a conditional jump. -/
  | taken
  /-- Other side of a conditional jump. -/
  | notTaken
  /-- Straight on to the next block. -/
  | fallthrough
  /-- Past a call whose callee is not known here. -/
  | pastCall
  /-- By an entry of the table of an indirect jump. -/
  | indirect
  | call
  /-- From an exit of a callee to the block behind the call. -/
  | ret
deriving DecidableEq, Inhabited

namespace EdgeKind

/-- The edge joins blocks of different calls. -/
def isInterprocedural : EdgeKind → Bool
  | call | ret => true
  | _ => false

/-- The edge is made by a jumper that enters its target block. -/
def isTransfer : EdgeKind → Bool
  | goto | taken | indirect | call => true
  | _ => false

end EdgeKind

/-- Whether an edge closes a loop. -/
inductive Direction where
  | next
  | back
deriving DecidableEq, Inhabited

/-- A possible passage of control between two blocks. -/
structure Edge where
  source : BlockId
  target : BlockId
  kind : EdgeKind
  direction : Direction
deriving DecidableEq, Inhabited

/-- A run of the chain from `first` to `last`. -/
structure Block where
  first : InstrId
  last : InstrId
  /-- Number of instructions of the run. -/
  count : Nat
  kind : BlockKind
  inEdges : List EdgeId
  outEdges : List EdgeId
  func : Option FuncId
  prev : Option BlockId
  next : Option BlockId
deriving DecidableEq, Inhabited

/-- The blocks of a program, their edges, and the tree by which they are found. -/
structure BlockGraph where
  blocks : Array Block
  edges : Array Edge
  head : Option BlockId
  tail : Option BlockId
  tree : BlockTree
  /-- The sections in the order in which they first come along the chain. -/
  sections : List SectionId
deriving DecidableEq

namespace BlockGraph

def empty : BlockGraph := ⟨#[], #[], none, none, .empty, []⟩

instance : Inhabited BlockGraph := ⟨empty⟩

/-- Number of blocks. -/
def size (graph : BlockGraph) : Nat := graph.blocks.size

def block? (graph : BlockGraph) (id : BlockId) : Option Block := graph.blocks[id.index]?

def edge? (graph : BlockGraph) (id : EdgeId) : Option Edge := graph.edges[id.index]?

/-- The block with the name `id`, which has to exist. -/
def block (graph : BlockGraph) (id : BlockId) : Except GraphError Block :=
  match graph.block? id with
  | some block => .ok block
  | none => .error (.missingBlock id)

/-- The edge with the name `id`, which has to exist. -/
def edge (graph : BlockGraph) (id : EdgeId) : Except GraphError Edge :=
  match graph.edge? id with
  | some edge => .ok edge
  | none => .error (.missingEdge id)

/-- The first blocks met along `next` from `start`, at most `steps` of them. -/
def follow (graph : BlockGraph) : (steps : Nat) → (start : Option BlockId) → List BlockId
  | 0, _ => []
  | _, none => []
  | steps + 1, some id => id :: follow graph steps ((graph.block? id).bind (·.next))

/-- The blocks in the order of the code. -/
def ids (graph : BlockGraph) : List BlockId := graph.follow (graph.blocks.size + 1) graph.head

/-- The edges that leave a block. -/
def edgesOut (graph : BlockGraph) (id : BlockId) : List Edge :=
  (((graph.block? id).map (·.outEdges)).getD []).filterMap graph.edge?

/-- The edges that enter a block. -/
def edgesIn (graph : BlockGraph) (id : BlockId) : List Edge :=
  (((graph.block? id).map (·.inEdges)).getD []).filterMap graph.edge?

/-- The blocks that no edge enters, in the order of the code. -/
def sources (graph : BlockGraph) : List BlockId :=
  graph.ids.filter fun id => (graph.block? id).any (·.inEdges.isEmpty)

/-- The instructions of a block in the order of the code. -/
def instructions (graph : BlockGraph) (chain : Chain) (id : BlockId) :
    Except GraphError (List InstrId) := do
  let block ← graph.block id
  return chain.run (some block.first) (some block.last)

/-- The place of a section among the sections of the code; a section without code is behind all
others. -/
def rank (graph : BlockGraph) (sec : SectionId) : Nat := graph.sections.idxOf sec

/-- Places in the code are ordered by the rank of the section, then by address. -/
def precedes (a b : Nat × UInt64) : Bool := a.1 < b.1 || (a.1 == b.1 && a.2 < b.2)

/-- Where a block lies relative to a place in the code. A block whose ends are not present counts as
lying over every place. -/
def position (graph : BlockGraph) (chain : Chain) (place : Nat × UInt64) (id : BlockId) :
    Ordering :=
  let ends := do
    let block ← graph.block? id
    return (← chain.get? block.first, ← chain.get? block.last)
  match ends with
  | none => .eq
  | some (first, last) =>
    if precedes place (graph.rank first.sec, first.addr) then .gt
    else if precedes place (graph.rank last.sec, last.endAddr) then .eq
    else .lt

/-- The block of a section that lies over an address. -/
def findAddr? (graph : BlockGraph) (chain : Chain) (sec : SectionId) (addr : UInt64) :
    Option BlockId :=
  if graph.sections.contains sec then
    graph.tree.find? (graph.position chain (graph.rank sec, addr))
  else
    none

/-- The block that lies over the address of an instruction, which has to be present. -/
def find (graph : BlockGraph) (chain : Chain) (instr : InstrId) :
    Except GraphError (Option BlockId) :=
  match chain.get? instr with
  | some found => .ok (graph.findAddr? chain found.sec found.addr)
  | none => .error (.chain (.missingInstruction instr))

/-- The blocks tagged as loop headers, in the order of the code. -/
def loopHeaders (graph : BlockGraph) : List BlockId :=
  graph.ids.filter fun id => (graph.block? id).any (·.kind.isHeader)

end BlockGraph

/-- A computation that changes the block graph and may be refused. -/
abbrev GraphM := EStateM GraphError BlockGraph

namespace GraphM

/-- The block with the name `id`, which has to exist. -/
def block (id : BlockId) : GraphM Block := do
  match (← get).block? id with
  | some block => return block
  | none => throw (.missingBlock id)

/-- The edge with the name `id`, which has to exist. -/
def edge (id : EdgeId) : GraphM Edge := do
  match (← get).edge? id with
  | some edge => return edge
  | none => throw (.missingEdge id)

/-- Changes a block, which has to exist. -/
def updateBlock (id : BlockId) (f : Block → Block) : GraphM Unit := do
  let _ ← block id
  modify fun graph => { graph with blocks := graph.blocks.modify id.index f }

/-- Changes an edge, which has to exist. -/
def updateEdge (id : EdgeId) (f : Edge → Edge) : GraphM Unit := do
  let _ ← edge id
  modify fun graph => { graph with edges := graph.edges.modify id.index f }

/-- Joins two blocks by a new edge. -/
def addEdge (source target : BlockId) (kind : EdgeKind) : GraphM EdgeId := do
  let _ ← block source
  let _ ← block target
  let id : EdgeId := ⟨(← get).edges.size⟩
  modify fun graph => { graph with edges := graph.edges.push ⟨source, target, kind, .next⟩ }
  updateBlock source fun block => { block with outEdges := block.outEdges ++ [id] }
  updateBlock target fun block => { block with inEdges := block.inEdges ++ [id] }
  return id

/-- Lets an edge lead to another block. -/
def retargetEdge (id : EdgeId) (target : BlockId) : GraphM Unit := do
  let _ ← block target
  let old := (← edge id).target
  updateBlock old fun block => { block with inEdges := block.inEdges.filter (· != id) }
  updateBlock target fun block => { block with inEdges := block.inEdges ++ [id] }
  updateEdge id fun edge => { edge with target := target }

/-- Changes the tree of the graph. -/
def onTree {α : Type} (action : TreeM α) : GraphM α := fun graph =>
  match action graph.tree with
  | .ok value tree => .ok value { graph with tree := tree }
  | .error cause tree => .error cause { graph with tree := tree }

end GraphM

end Splice
