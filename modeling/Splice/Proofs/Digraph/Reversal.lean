import Splice.Digraph.Traversal

/-!
# Walking against the edges

A graph lists its edges twice, at the node that they leave and at the node that they enter. Where
the two agree, with as many edges from one node to another in either list (`Transposed`), to walk
against the edges is to walk along the edges of the graph with all of them turned round
(`walk_backward`, `Transposed.arcs_reverse`).

The two lists may be in different orders, so a walk against the edges of a graph need not be the
walk of the graph that is written down the other way round; it is that of `reverse`, which has
the lists swapped. The proof is an induction on the depth or on the number of steps, since both
walks make the same steps.
-/

namespace Splice.Digraph

variable {α : Type}

/-- How many edges lead from one node to another, as the node that they leave lists them. -/
def arcs [BEq α] (graph : Digraph α) (source target : α) : Nat :=
  (graph.successors source).count target

/-- Each node lists another as its predecessor as often as it is listed there as a successor. -/
def Transposed [BEq α] (graph : Digraph α) : Prop :=
  ∀ source target, (graph.successors source).count target = (graph.predecessors target).count source

/-- The graph with its edges turned round. -/
def reverse (graph : Digraph α) : Digraph α where
  successors := graph.predecessors
  predecessors := graph.successors
  nodes := graph.nodes
  successors_mem := graph.predecessors_mem
  predecessors_mem := graph.successors_mem

variable {graph : Digraph α}

/-- Against the edges a walk goes on to the nodes that it goes on to along the edges turned round. -/
theorem expanded_backward : graph.expanded .backward = graph.reverse.expanded .forward := by
  funext node verdict
  cases verdict <;> rfl

variable [BEq α] {visitor : Visitor α}

/-- Each edge of the graph is one edge the other way round. -/
theorem Transposed.arcs_reverse (h : graph.Transposed) (source target : α) :
    graph.reverse.arcs target source = graph.arcs source target :=
  (h source target).symm

/-- To walk backward below a node is to walk forward below it in the graph that is turned round. The two
walks make the same steps, so the induction is on the depth. -/
theorem descend_backward :
    graph.descend .backward visitor = graph.reverse.descend .forward visitor := by
  funext depth
  induction depth with
  | zero => rfl
  | succ depth ih =>
    funext path node walk
    unfold descend
    rw [expanded_backward, ih]

/-- To spread backward is to spread forward in the graph that is turned round. -/
theorem spread_backward :
    graph.spread .backward visitor = graph.reverse.spread .forward visitor := by
  funext steps
  induction steps with
  | zero => rfl
  | succ steps ih =>
    funext queue walk
    cases queue with
    | nil => rfl
    | cons node queue =>
      unfold spread
      rw [expanded_backward, ih]

/-- A walk against the edges is a walk along the edges turned round. -/
theorem walk_backward (graph : Digraph α) (roots : List α) (order : Order) (visitor : Visitor α) :
    graph.walk roots .backward order visitor = graph.reverse.walk roots .forward order visitor := by
  have hroot : graph.walkRoot .backward order visitor = graph.reverse.walkRoot .forward order visitor := by
    funext walk root
    unfold walkRoot
    rw [descend_backward, spread_backward]
    rfl
  unfold Digraph.walk
  rw [hroot]

end Splice.Digraph
