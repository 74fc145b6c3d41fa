import Splice.Block.Build
import Splice.Proofs.Block.Graph

/-!
# Operations that do not cut

Edges are added and led elsewhere, blocks are stamped with functions and loops are tagged.
None of this cuts the code elsewhere, and every edge stays in the lists of its ends
(`Rewired`), also where an operation is refused half way.

`Rewired` is proved for each operation by `Leaves`, of whatever state it ends in: reading a
block or an edge changes nothing, drawing an edge or leading it elsewhere keeps the lists right,
stamping changes no edge. What remains are the cuts, which are followed in
`Splice.Proofs.Block.Partition`.
-/

namespace Splice

namespace BlockGraph

/-- Nothing is cut elsewhere, and the lists of edges are still right if they were. -/
def Rewired (s t : BlockGraph) : Prop := s.Wired → s.SameCut t ∧ t.Wired

/-- To be rewired only holds of doing nothing and of two steps in a row. -/
theorem Rewired.stepRelation : StepRelation Rewired where
  refl s h := ⟨SameCut.stepRelation.refl s, h⟩
  trans h h' hwired := by
    obtain ⟨hcut, hwired⟩ := h hwired
    obtain ⟨hcut', hwired⟩ := h' hwired
    exact ⟨SameCut.stepRelation.trans hcut hcut', hwired⟩

theorem Rewired.of_same {s t : BlockGraph} (hcut : s.SameCut t) (hwires : s.SameWires t) :
    Rewired s t := fun h => ⟨hcut, h.congr hwires⟩

variable {graph : BlockGraph} {f : Block → Block} {g : Edge → Edge}

theorem block?_map {id : BlockId} {edges : Array Edge} :
    ({ graph with blocks := graph.blocks.map f, edges := edges } : BlockGraph).block? id
      = (graph.block? id).map f := Array.getElem?_map ..

theorem edge?_map {id : EdgeId} {blocks : Array Block} :
    ({ graph with blocks := blocks, edges := graph.edges.map g } : BlockGraph).edge? id
      = (graph.edge? id).map g := Array.getElem?_map ..

/-- Every block and every edge is changed in what is neither cut nor wired. -/
theorem Rewired.map
    (hf : ∀ block, (f block).bounds = block.bounds ∧ (f block).outEdges = block.outEdges
      ∧ (f block).inEdges = block.inEdges)
    (hg : ∀ edge, (g edge).source = edge.source ∧ (g edge).target = edge.target) :
    Rewired graph { graph with blocks := graph.blocks.map f, edges := graph.edges.map g } := by
  refine .of_same ⟨fun id => ?_, Array.size_map .., rfl, rfl, rfl, rfl⟩
    ⟨fun id => ?_, fun id => ?_, fun edge => ?_, fun edge => ?_⟩
  · rw [bounds?, block?_map, Option.map_map]
    exact congrArg (Option.map · _) (funext fun block => (hf block).1)
  · rw [outOf, block?_map, Option.map_map]
    exact congrArg (fun k => (Option.map k _).getD []) (funext fun block => (hf block).2.1)
  · rw [intoOf, block?_map, Option.map_map]
    exact congrArg (fun k => (Option.map k _).getD []) (funext fun block => (hf block).2.2)
  · rw [sourceOf, edge?_map, Option.map_map]
    exact congrArg (Option.map · _) (funext fun edge => (hg edge).1)
  · rw [targetOf, edge?_map, Option.map_map]
    exact congrArg (Option.map · _) (funext fun edge => (hg edge).2)

end BlockGraph

namespace GraphM

open BlockGraph

variable {graph : BlockGraph} {id source target : BlockId} {edge : EdgeId} {f : Block → Block}
  {g : Edge → Edge}

/-- To read a block leaves the graph as it is, whether it is there or not. -/
theorem block_leaves : Leaves Rewired (GraphM.block id) := by
  intro graph
  cases hblock : graph.block? id with
  | none => rw [outcome_error (block_error hblock)]; exact Rewired.stepRelation.refl graph
  | some block =>
    rw [outcome_ok (block_ok.mpr ⟨hblock, rfl⟩)]
    exact Rewired.stepRelation.refl graph

/-- To read an edge leaves the graph as it is, whether it is there or not. -/
theorem edge_leaves : Leaves Rewired (GraphM.edge edge) := by
  intro graph
  cases hedge : graph.edge? edge with
  | none => rw [outcome_error (edge_error hedge)]; exact Rewired.stepRelation.refl graph
  | some found =>
    rw [outcome_ok (edge_ok.mpr ⟨hedge, rfl⟩)]
    exact Rewired.stepRelation.refl graph

/-- A change that keeps the bounds and the edges of a block leaves all wires right. -/
theorem updateBlock_leaves
    (hf : ∀ block, (f block).bounds = block.bounds ∧ (f block).outEdges = block.outEdges
      ∧ (f block).inEdges = block.inEdges) : Leaves Rewired (updateBlock id f) :=
  .bind Rewired.stepRelation block_leaves fun _ => .modify fun _ =>
    .of_same (withBlock_sameCut fun block => (hf block).1)
      (withBlock_sameWires fun block => (hf block).2)

theorem updateEdge_leaves (hg : ∀ edge, (g edge).source = edge.source ∧ (g edge).target = edge.target) :
    Leaves Rewired (updateEdge edge g) :=
  .bind Rewired.stepRelation edge_leaves fun _ => .modify fun _ =>
    .of_same withEdge_sameCut (withEdge_sameWires hg)

/-- To draw an edge leaves all wires right, also if one of its ends turns out to be missing. -/
theorem addEdge_leaves {kind : EdgeKind} : Leaves Rewired (addEdge source target kind) := by
  intro graph
  cases hsource : graph.block? source with
  | none =>
    have hrun : addEdge source target kind graph = .error (.missingBlock source) graph :=
      bind_error (block_error hsource)
    rw [outcome_error hrun]
    exact Rewired.stepRelation.refl graph
  | some block =>
    cases htarget : graph.block? target with
    | none =>
      have hrun : addEdge source target kind graph = .error (.missingBlock target) graph :=
        (bind_run (block_ok.mpr ⟨hsource, rfl⟩)).trans (bind_error (block_error htarget))
      rw [outcome_error hrun]
      exact Rewired.stepRelation.refl graph
    | some other =>
      intro hwired
      obtain ⟨after, hrun, hcut, hwired', -⟩ := Wired.addEdge hwired kind
        (by rw [hsource]; rfl : (graph.block? source).isSome)
        (by rw [htarget]; rfl : (graph.block? target).isSome)
      rw [outcome_ok hrun]
      exact ⟨hcut, hwired'⟩

/-- To retarget an edge leaves all wires right, also if it is refused. -/
theorem retargetEdge_leaves : Leaves Rewired (retargetEdge edge target) := by
  intro graph
  cases htarget : graph.block? target with
  | none =>
    have hrun : retargetEdge edge target graph = .error (.missingBlock target) graph :=
      bind_error (block_error htarget)
    rw [outcome_error hrun]
    exact Rewired.stepRelation.refl graph
  | some block =>
    cases hedge : graph.edge? edge with
    | none =>
      have hrun : retargetEdge edge target graph = .error (.missingEdge edge) graph :=
        (bind_run (block_ok.mpr ⟨htarget, rfl⟩)).trans (bind_error (edge_error hedge))
      rw [outcome_error hrun]
      exact Rewired.stepRelation.refl graph
    | some found =>
      intro hwired
      obtain ⟨after, hrun, hcut, hwired', -⟩ :=
        Wired.retargetEdge hwired hedge (by rw [htarget]; rfl : (graph.block? target).isSome)
      rw [outcome_ok hrun]
      exact ⟨hcut, hwired'⟩

/-- To stamp the blocks leaves all wires as they are. -/
theorem stampFunctions_leaves {chain : Chain} : Leaves Rewired (stampFunctions chain) :=
  .modify fun graph => by
    have hmap := @Rewired.map graph
      (fun block => { block with func := (chain.get? block.first).bind (·.func) }) (fun edge => edge)
      (fun _ => ⟨rfl, rfl, rfl⟩) fun _ => ⟨rfl, rfl⟩
    simpa using hmap

/-- To link the blocks draws edges only. -/
theorem linkEdges_leaves {chain : Chain} : Leaves Rewired (linkEdges chain) := by
  refine .bind Rewired.stepRelation (.get Rewired.stepRelation) fun graph => ?_
  dsimp only
  split
  next cause _ => exact .throw Rewired.stepRelation cause
  next passages _ =>
    exact .forM Rewired.stepRelation fun passage _ => .discard addEdge_leaves

/-- To tag a loop leaves all wires as they are. -/
theorem tagLoop_leaves : Leaves Rewired (tagLoop source target) := by
  refine .bind Rewired.stepRelation (updateBlock_leaves fun _ => ⟨rfl, rfl, rfl⟩) fun _ =>
    .bind Rewired.stepRelation (updateBlock_leaves fun _ => ⟨rfl, rfl, rfl⟩) fun _ =>
    .bind Rewired.stepRelation block_leaves fun block =>
    .forM Rewired.stepRelation fun edge _ => updateEdge_leaves fun edge => ?_
  split <;> exact ⟨rfl, rfl⟩

/-- To look for loops leaves all wires as they are. -/
theorem discoverLoops_leaves : Leaves Rewired discoverLoops := by
  refine .bind Rewired.stepRelation (.modify fun graph => ?_) fun _ =>
    .bind Rewired.stepRelation (.get Rewired.stepRelation) fun _ =>
    .bind Rewired.stepRelation (.forM Rewired.stepRelation fun _ _ => tagLoop_leaves) fun _ =>
    .pure Rewired.stepRelation _
  exact .map (fun _ => ⟨rfl, rfl, rfl⟩) fun _ => ⟨rfl, rfl⟩

end GraphM

end Splice
