import Splice.Proofs.Block.Graph
import Splice.Proofs.Chain.Order

/-!
# The order of the blocks

Each block names its neighbours, and the graph names the first and the last block. Where these
links are consistent (`Sequenced`), the blocks come in one order, and following the links from the
head meets each of them once (`Sequenced.ids`).

Nothing is said of what the blocks hold, so this is also known of graphs that cut no code; it is
what the search for loops goes by. Following the links is bounded by the number of blocks, and a
list of different blocks that are there is never longer.
-/

namespace Splice

namespace BlockGraph

variable {graph after : BlockGraph} {order rest : List BlockId} {prev : Option BlockId} {id : BlockId}
  {steps : Nat}

/-- The blocks of a list are linked in this order, the first of them back to `prev` and the last of them
to nothing. -/
def Neighbours (graph : BlockGraph) : (prev : Option BlockId) → List BlockId → Prop
  | _, [] => True
  | prev, id :: rest =>
    (∃ block, graph.block? id = some block ∧ block.prev = prev ∧ block.next = rest.head?)
      ∧ Neighbours graph (some id) rest

/-- All blocks come in this order, each of them once. -/
structure Sequenced (graph : BlockGraph) (order : List BlockId) : Prop where
  nodup : order.Nodup
  neighbours : graph.Neighbours none order
  head : graph.head = order.head?
  tail : graph.tail = order.getLast?
  listed : ∀ id, (graph.block? id).isSome → id ∈ order

/-- The blocks of the list are there. -/
theorem Neighbours.isSome (h : graph.Neighbours prev order) (hid : id ∈ order) : (graph.block? id).isSome := by
  induction order generalizing prev with
  | nil => exact absurd hid List.not_mem_nil
  | cons first rest ih =>
    obtain ⟨⟨block, hblock, -⟩, hrest⟩ := h
    rcases List.mem_cons.mp hid with rfl | hin
    · rw [hblock]
      rfl
    · exact ih hrest hin

/-- To follow the links from the first block gives the list, given as many steps as it has blocks. -/
theorem Neighbours.follow (h : graph.Neighbours prev order) (hsteps : order.length ≤ steps) :
    graph.follow steps order.head? = order := by
  induction order generalizing prev steps with
  | nil => cases steps <;> rfl
  | cons id rest ih =>
    obtain ⟨⟨block, hblock, -, hnext⟩, hrest⟩ := h
    cases steps with
    | zero => simp at hsteps
    | succ steps =>
      rw [List.head?_cons, BlockGraph.follow, hblock, Option.bind_some, hnext,
        ih hrest (by simpa using hsteps)]

/-- The blocks of a graph in sequence are read in that order. -/
theorem Sequenced.ids (h : graph.Sequenced order) : graph.ids = order := by
  have hlength : order.length ≤ graph.blocks.size := by
    refine length_le_of_index_lt h.nodup fun id hid => ?_
    have hsome := h.neighbours.isSome hid
    by_cases hlt : id.index < graph.blocks.size
    · exact hlt
    · rw [block?, Array.getElem?_eq_none (by omega)] at hsome
      cases hsome
  rw [BlockGraph.ids, h.head]
  exact h.neighbours.follow (by omega)

/-- Graphs that cut the code in the same places have the same neighbours. -/
theorem Neighbours.congr (h : graph.Neighbours prev order) (hsame : graph.SameCut after) :
    after.Neighbours prev order := by
  induction order generalizing prev with
  | nil => trivial
  | cons id rest ih =>
    obtain ⟨⟨block, hblock, hprev, hnext⟩, hrest⟩ := h
    have hbounds := hsame.bounds id
    rw [bounds?, bounds?, hblock, Option.map_some] at hbounds
    obtain ⟨found, hfound, he⟩ := Option.map_eq_some_iff.mp hbounds
    refine ⟨⟨found, hfound, ?_, ?_⟩, ih hrest⟩
    · exact (congrArg Bounds.prev he).trans hprev
    · exact (congrArg Bounds.next he).trans hnext

/-- Where no block is cut, the order stays. -/
theorem Sequenced.congr (h : graph.Sequenced order) (hsame : graph.SameCut after) : after.Sequenced order where
  nodup := h.nodup
  neighbours := h.neighbours.congr hsame
  head := hsame.head.trans h.head
  tail := hsame.tail.trans h.tail
  listed id hid := h.listed id (hsame.isSome id ▸ hid)

end BlockGraph

end Splice
