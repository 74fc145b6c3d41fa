import Splice.Proofs.Block.Tagging

/-!
# Loops

What the tags of loops say of the flow of control. The pairs that the walk finds are passages of
control inside functions that lead back, and there is no way round without one of them
(`ClosesLoops`); exactly their ends and their edges are tagged (`Tagged`). The walk misses no
cycle, since its last roots are all blocks, so that every block is left.

> `discoverLoops_closes`: loops are tagged in every graph whose blocks come in order and whose
> lists of edges are right, and nothing but tags is changed; the pairs that the tags stand for
> close the loops of the graph, and they are counted as often as blocks list them.

That every way round has one of the pairs comes from the order in which a walk leaves nodes
(`DepthFirst.cycle_back` in `Splice.Proofs.Digraph.BackEdges`). Nothing is asked about the code:
the graph may have been split and edited since it was built.
-/

namespace Splice

namespace BlockGraph

variable {graph after : BlockGraph} {order : List BlockId} {id : BlockId}

/-- The pairs of source and target are the passages that close the loops inside functions: they lead
back, and every way round takes one of them. -/
structure ClosesLoops (graph : BlockGraph) (pairs : List (BlockId × BlockId)) : Prop where
  passes : ∀ source target, (source, target) ∈ pairs → target ∈ graph.localSuccessors source
  back : ∀ source target, (source, target) ∈ pairs → graph.localFlow.Leads .forward target source
  round : ∀ first rest, List.IsChain (fun id next => next ∈ graph.localSuccessors id) (first :: rest ++ [first]) →
    ∃ source target, [source, target] <:+: first :: rest ++ [first] ∧ (source, target) ∈ pairs

/-- Blocks and edges carry the tags of the loops that these pairs close. -/
structure Tagged (graph : BlockGraph) (pairs : List (BlockId × BlockId)) : Prop where
  header : ∀ id block, graph.block? id = some block →
    (block.kind.isHeader = true ↔ ∃ source, (source, id) ∈ pairs)
  footer : ∀ id block, graph.block? id = some block →
    (block.kind.isFooter = true ↔ ∃ target, (id, target) ∈ pairs)
  back : ∀ id edge, graph.edge? id = some edge →
    (edge.direction = .back ↔ edge.kind.isInterprocedural = false ∧ (edge.source, edge.target) ∈ pairs)

/-- Which pairs close the loops depends on the successors inside functions only. -/
theorem ClosesLoops.congr {pairs : List (BlockId × BlockId)} (h : graph.ClosesLoops pairs)
    (hsame : after.localSuccessors = graph.localSuccessors) : after.ClosesLoops pairs where
  passes source target hpair := hsame ▸ h.passes source target hpair
  back source target hpair := by
    show Relation.ReflTransGen (fun id next => next ∈ after.localSuccessors id) target source
    rw [hsame]
    exact h.back source target hpair
  round first rest hround := h.round first rest (hsame ▸ hround)

/-- Once the tags are written, the blocks and edges carry them. -/
theorem tagged_withLoops {pairs : List (BlockId × BlockId)} : (graph.withLoops pairs).Tagged pairs where
  header id block hblock := by
    rw [block?_withLoops] at hblock
    obtain ⟨found, -, rfl⟩ := Option.map_eq_some_iff.mp hblock
    simp
  footer id block hblock := by
    rw [block?_withLoops] at hblock
    obtain ⟨found, -, rfl⟩ := Option.map_eq_some_iff.mp hblock
    simp
  back id edge hedge := by
    rw [edge?_withLoops] at hedge
    obtain ⟨found, -, rfl⟩ := Option.map_eq_some_iff.mp hedge
    simp [Edge.tagged, and_comm]

/-- The pairs that close loops are those that a depth-first walk from all entries finds to lead back. -/
theorem backPairs_eq : graph.backPairs = (graph.localFlow.walk
    (graph.sources ++ graph.functionEntries ++ graph.ids) .forward .depthFirst .always).backPairs := by
  unfold backPairs Digraph.Walk.backPairs
  refine congrArg (List.filterMap · _) (funext fun event => ?_)
  rcases event with _ | _ | ⟨_, _, _ | _⟩ <;> rfl

theorem localSuccessors_of_absent (h : graph.block? id = none) : graph.localSuccessors id = [] := by
  rw [localSuccessors, edgesOut, returnSite?, h]
  rfl

/-- A block from which control passes on is one of those in order. -/
theorem Sequenced.mem_of_localSuccessors {next : BlockId} (h : graph.Sequenced order)
    (hnext : next ∈ graph.localSuccessors id) : id ∈ order := by
  cases hblock : graph.block? id with
  | none =>
    rw [localSuccessors_of_absent hblock] at hnext
    exact absurd hnext List.not_mem_nil
  | some block => exact h.listed id (by rw [hblock]; rfl)

/-- The walk finds what closes the loops, each pair as often as blocks list it. -/
theorem Sequenced.closesLoops (h : graph.Sequenced order) : graph.ClosesLoops graph.backPairs
    ∧ graph.backPairs.length = (order.map fun id =>
      (graph.localSuccessors id).countP fun next => graph.backPairs.contains (id, next)).sum := by
  rw [backPairs_eq]
  obtain ⟨hwalk, hleft⟩ := Digraph.walk_depthFirst graph.localFlow .forward
    (graph.sources ++ graph.functionEntries ++ graph.ids)
  have hall : ∀ id ∈ order, id ∈ _ := fun id hid =>
    hleft id (List.mem_append_right _ (h.ids.symm ▸ hid))
  refine ⟨⟨fun source target hpair => (hwalk.of_backPairs hpair).1,
    fun source target hpair => (hwalk.of_backPairs hpair).2, fun first rest hround => ?_⟩, ?_⟩
  · exact hwalk.cycle_back (fun id next hnext => hall id (h.mem_of_localSuccessors hnext)) hround
  · exact hwalk.length_backPairs h.nodup hall fun pair hpair =>
      h.mem_of_localSuccessors (hwalk.of_backPairs hpair).1

end BlockGraph

namespace GraphM

open BlockGraph

variable {graph : BlockGraph} {order : List BlockId}

/-- Loops are tagged in every graph whose blocks come in order and whose lists of edges are right, and
nothing but tags is changed. The pairs that the tags stand for close the loops of the graph, and they
are counted as often as blocks list them. -/
theorem discoverLoops_closes (hsequenced : graph.Sequenced order) (hwired : graph.Wired) :
    ∃ count after pairs, discoverLoops graph = .ok count after
      ∧ after.withoutLoops = graph.withoutLoops ∧ after.localSuccessors = graph.localSuccessors
      ∧ graph.ClosesLoops pairs ∧ after.Tagged pairs
      ∧ count = (order.map fun id =>
        (graph.localSuccessors id).countP fun next => pairs.contains (id, next)).sum := by
  have hsame : graph.Retagged graph.withoutLoops := Retagged.withoutLoops
  obtain ⟨hcloses, hcount⟩ := (hsequenced.congr hsame.sameCut).closesLoops
  have hrun := discoverLoops_eq hsequenced hwired
  rw [hsame.localSuccessors] at hcount
  exact ⟨_, _, graph.withoutLoops.backPairs, hrun, retagged_withLoops, retagged_withLoops.localSuccessors,
    hcloses.congr hsame.localSuccessors.symm, tagged_withLoops, hcount⟩

end GraphM

/-- A function that calls itself in a loop. -/
def spin : BlockGraph where
  blocks := #[⟨⟨0⟩, ⟨0⟩, 1, .generic, [⟨2⟩, ⟨3⟩], [⟨0⟩, ⟨1⟩], some ⟨0⟩, none, some ⟨1⟩⟩,
    ⟨⟨1⟩, ⟨1⟩, 1, .generic, [⟨1⟩], [⟨2⟩], some ⟨0⟩, some ⟨0⟩, some ⟨2⟩⟩,
    ⟨⟨2⟩, ⟨2⟩, 1, .generic, [⟨0⟩], [⟨3⟩], some ⟨0⟩, some ⟨1⟩, none⟩]
  edges := #[⟨⟨0⟩, ⟨2⟩, .taken, .next⟩, ⟨⟨0⟩, ⟨1⟩, .notTaken, .next⟩, ⟨⟨1⟩, ⟨0⟩, .call, .next⟩,
    ⟨⟨2⟩, ⟨0⟩, .goto, .next⟩]
  head := some ⟨0⟩
  tail := some ⟨2⟩
  tree := .empty
  sections := [1]

/-- The blocks of `spin` are in sequence. -/
theorem spin_sequenced : spin.Sequenced [⟨0⟩, ⟨1⟩, ⟨2⟩] where
  nodup := by decide
  neighbours := ⟨⟨_, rfl, rfl, rfl⟩, ⟨_, rfl, rfl, rfl⟩, ⟨_, rfl, rfl, rfl⟩, trivial⟩
  head := rfl
  tail := rfl
  listed id hid := by
    rcases id with ⟨_ | _ | _ | index⟩
    · decide
    · decide
    · decide
    · cases hid

theorem spin_wired : spin.Wired := by
  constructor <;> rintro ⟨_ | _ | _ | index⟩ ⟨_ | _ | _ | _ | edge⟩ <;> rfl

namespace GraphM

open BlockGraph

theorem discoverLoops_closes_spin : spin.Sequenced [⟨0⟩, ⟨1⟩, ⟨2⟩] ∧ spin.Wired
    ∧ ∃ count after pairs, discoverLoops spin = .ok count after
      ∧ after.withoutLoops = spin.withoutLoops ∧ after.localSuccessors = spin.localSuccessors
      ∧ spin.ClosesLoops pairs ∧ after.Tagged pairs
      ∧ count = ([⟨0⟩, ⟨1⟩, ⟨2⟩].map fun id =>
        (spin.localSuccessors id).countP fun next => pairs.contains (id, next)).sum :=
  ⟨spin_sequenced, spin_wired, discoverLoops_closes spin_sequenced spin_wired⟩

example : spin.backPairs = [(⟨2⟩, ⟨0⟩)] := by decide

end GraphM

end Splice
