import Splice.Block.Basic
import Splice.Digraph.Traversal

/-!
# Control flow as a graph

The blocks with all their edges, and the view that stays inside functions: there the
edges of calls and returns are left out, and a block that ends in a call to a function
of this object leads on to the block behind it.

`flow` and `localFlow` are graphs in the sense of `Splice.Digraph.Basic`: successors and
predecessors, in the order in which a block lists its edges, over the nodes that any edge
mentions. The return site of a call is the block behind it, if that belongs to the same function.
-/

namespace Splice.BlockGraph

/-- The blocks that the edges of a block lead to. -/
def successors (graph : BlockGraph) (id : BlockId) : List BlockId :=
  (graph.edgesOut id).map (·.target)

/-- The blocks that the edges into a block come from. -/
def predecessors (graph : BlockGraph) (id : BlockId) : List BlockId :=
  (graph.edgesIn id).map (·.source)

/-- The block to which control returns after the call that ends a block: the next block of the same
function. -/
def returnSite? (graph : BlockGraph) (id : BlockId) : Option BlockId := do
  let block ← graph.block? id
  if (graph.edgesOut id).any fun edge => edge.kind == .call then
    let next ← block.next
    if (← graph.block? next).func == block.func then some next else none
  else
    none

/-- The block in front, if control returns from its call to this block. -/
def callSite? (graph : BlockGraph) (id : BlockId) : Option BlockId := do
  let prev ← (← graph.block? id).prev
  if graph.returnSite? prev == some id then some prev else none

/-- The blocks that control passes to within the function. -/
def localSuccessors (graph : BlockGraph) (id : BlockId) : List BlockId :=
  ((graph.edgesOut id).filter fun edge => !edge.kind.isInterprocedural).map (·.target)
    ++ (graph.returnSite? id).toList

/-- The blocks that control comes from within the function. -/
def localPredecessors (graph : BlockGraph) (id : BlockId) : List BlockId :=
  ((graph.edgesIn id).filter fun edge => !edge.kind.isInterprocedural).map (·.source)
    ++ (graph.callSite? id).toList

/-- All blocks that an edge or a neighbour names. -/
def mentioned (graph : BlockGraph) : List BlockId :=
  graph.edges.toList.flatMap (fun edge => [edge.source, edge.target])
    ++ graph.blocks.toList.flatMap fun block => block.next.toList ++ block.prev.toList

theorem edge_mem {graph : BlockGraph} {id : EdgeId} {edge : Edge}
    (h : graph.edge? id = some edge) : edge ∈ graph.edges.toList :=
  Array.mem_toList_iff.mpr (Array.mem_of_getElem? h)

theorem block_mem {graph : BlockGraph} {id : BlockId} {block : Block}
    (h : graph.block? id = some block) : block ∈ graph.blocks.toList :=
  Array.mem_toList_iff.mpr (Array.mem_of_getElem? h)

theorem mem_of_edgesOut {graph : BlockGraph} {id : BlockId} {edge : Edge}
    (h : edge ∈ graph.edgesOut id) : edge ∈ graph.edges.toList := by
  obtain ⟨name, -, hedge⟩ := List.mem_filterMap.mp h
  exact edge_mem hedge

theorem mem_of_edgesIn {graph : BlockGraph} {id : BlockId} {edge : Edge}
    (h : edge ∈ graph.edgesIn id) : edge ∈ graph.edges.toList := by
  obtain ⟨name, -, hedge⟩ := List.mem_filterMap.mp h
  exact edge_mem hedge

theorem target_mentioned {graph : BlockGraph} {edge : Edge} (h : edge ∈ graph.edges.toList) :
    edge.target ∈ graph.mentioned :=
  List.mem_append_left _ (List.mem_flatMap.mpr ⟨edge, h, by simp⟩)

theorem source_mentioned {graph : BlockGraph} {edge : Edge} (h : edge ∈ graph.edges.toList) :
    edge.source ∈ graph.mentioned :=
  List.mem_append_left _ (List.mem_flatMap.mpr ⟨edge, h, by simp⟩)

theorem returnSite_mentioned {graph : BlockGraph} {id next : BlockId}
    (h : graph.returnSite? id = some next) : next ∈ graph.mentioned := by
  simp only [returnSite?, Option.bind_eq_bind, Option.bind_eq_some_iff] at h
  obtain ⟨block, hblock, h⟩ := h
  split at h
  · simp only [Option.bind_eq_some_iff] at h
    obtain ⟨found, hnext, _, _, h⟩ := h
    split at h
    · cases h
      exact List.mem_append_right _
        (List.mem_flatMap.mpr ⟨block, block_mem hblock, by simp [hnext]⟩)
    · cases h
  · cases h

theorem callSite_mentioned {graph : BlockGraph} {id prev : BlockId}
    (h : graph.callSite? id = some prev) : prev ∈ graph.mentioned := by
  simp only [callSite?, Option.bind_eq_bind, Option.bind_eq_some_iff] at h
  obtain ⟨block, hblock, found, hprev, h⟩ := h
  split at h
  · cases h
    exact List.mem_append_right _
      (List.mem_flatMap.mpr ⟨block, block_mem hblock, by simp [hprev]⟩)
  · cases h

/-- The blocks with all their edges. -/
def flow (graph : BlockGraph) : Digraph BlockId where
  successors := graph.successors
  predecessors := graph.predecessors
  nodes := graph.mentioned
  successors_mem := by
    intro id next h
    obtain ⟨edge, hedge, rfl⟩ := List.mem_map.mp h
    exact target_mentioned (mem_of_edgesOut hedge)
  predecessors_mem := by
    intro id previous h
    obtain ⟨edge, hedge, rfl⟩ := List.mem_map.mp h
    exact source_mentioned (mem_of_edgesIn hedge)

/-- The blocks with the passages of control inside functions. -/
def localFlow (graph : BlockGraph) : Digraph BlockId where
  successors := graph.localSuccessors
  predecessors := graph.localPredecessors
  nodes := graph.mentioned
  successors_mem := by
    intro id next h
    rcases List.mem_append.mp h with h | h
    · obtain ⟨edge, hedge, rfl⟩ := List.mem_map.mp h
      exact target_mentioned (mem_of_edgesOut (List.mem_filter.mp hedge).1)
    · exact returnSite_mentioned (Option.mem_toList.mp h)
  predecessors_mem := by
    intro id previous h
    rcases List.mem_append.mp h with h | h
    · obtain ⟨edge, hedge, rfl⟩ := List.mem_map.mp h
      exact source_mentioned (mem_of_edgesIn (List.mem_filter.mp hedge).1)
    · exact callSite_mentioned (Option.mem_toList.mp h)

end Splice.BlockGraph
