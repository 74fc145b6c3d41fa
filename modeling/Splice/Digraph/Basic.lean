/-!
# Finite directed graphs

A graph that can be walked along its edges and against them. All nodes that an edge
leads to or comes from are among finitely many, which is what makes every walk end.

Notes on the model: a graph is a pair of functions with the list of nodes they stay within.
`children` is the one of the two that the flow asks for.
-/

namespace Splice

/-- A finite directed graph given by its lists of neighbours; a node that is listed several times is
joined by as many edges. -/
structure Digraph (α : Type) where
  successors : α → List α
  predecessors : α → List α
  /-- The nodes at either end of an edge. -/
  nodes : List α
  successors_mem : ∀ node, ∀ next ∈ successors node, next ∈ nodes
  predecessors_mem : ∀ node, ∀ previous ∈ predecessors node, previous ∈ nodes

namespace Digraph

/-- Along the edges or against them. -/
inductive Flow where
  | forward
  | backward
deriving DecidableEq

/-- The nodes that a walk goes on to. -/
def children {α : Type} (graph : Digraph α) : Flow → α → List α
  | .forward => graph.successors
  | .backward => graph.predecessors

theorem children_mem {α : Type} (graph : Digraph α) (flow : Flow) (node : α) :
    ∀ child ∈ graph.children flow node, child ∈ graph.nodes := by
  cases flow with
  | forward => exact graph.successors_mem node
  | backward => exact graph.predecessors_mem node

/-- The graph of a list of edges; neighbours are listed in the order of the edges. -/
def ofEdges {α : Type} [BEq α] [LawfulBEq α] (edges : List (α × α)) : Digraph α where
  successors node := (edges.filter fun edge => edge.1 == node).map (·.2)
  predecessors node := (edges.filter fun edge => edge.2 == node).map (·.1)
  nodes := edges.map (·.1) ++ edges.map (·.2)
  successors_mem := by
    intro node next h
    obtain ⟨edge, hedge, rfl⟩ := List.mem_map.mp h
    exact List.mem_append_right _ (List.mem_map.mpr ⟨edge, (List.mem_filter.mp hedge).1, rfl⟩)
  predecessors_mem := by
    intro node previous h
    obtain ⟨edge, hedge, rfl⟩ := List.mem_map.mp h
    exact List.mem_append_left _ (List.mem_map.mpr ⟨edge, (List.mem_filter.mp hedge).1, rfl⟩)

end Digraph

end Splice
