import Splice.Proofs.Block.Construction

/-!
# Blocks that are known from both sides

Every edge stands in the lists of both of its ends, and a block that has a next one is the one in
front of that (`TwoWay`). It is true of the first block of a graph, and whatever is done to the
blocks keeps it, on whatever chain and also where it is refused half way: edges are drawn and
led elsewhere, and blocks are cut. A cut is the only thing that changes neighbours
(`Halved.twoWay`): the new block comes between the old one and the one behind it. So every graph
that is built is known from both sides (`twoWay_of_build`).

The invariant is kept by whatever an operation leaves behind, and not only by what succeeds
(`Upholds`, with `Leaves`). That is why it needs so little: no chain is mentioned, no address
and no function, and a graph that was cut in the wrong place is known from both sides as well.
-/

namespace Splice

namespace BlockGraph

def nextOf (graph : BlockGraph) (id : BlockId) : Option BlockId := (graph.block? id).bind (·.next)

def prevOf (graph : BlockGraph) (id : BlockId) : Option BlockId := (graph.block? id).bind (·.prev)

/-- Edges are listed at both ends, and a block with another one behind it is the one in front of that. -/
structure TwoWay (graph : BlockGraph) : Prop where
  wired : graph.Wired
  neighbours : ∀ id next, graph.nextOf id = some next → next ≠ id ∧ graph.prevOf next = some id

/-- What was known from both sides still is. -/
def Upholds (s t : BlockGraph) : Prop := s.TwoWay → t.TwoWay

theorem Upholds.stepRelation : StepRelation Upholds := .preserves TwoWay

variable {graph after : BlockGraph} {id : BlockId} {f : Block → Block}

theorem nextOf_eq : graph.nextOf id = (graph.bounds? id).bind (·.next) := by
  rw [bounds?, Option.bind_map]
  rfl

theorem prevOf_eq : graph.prevOf id = (graph.bounds? id).bind (·.prev) := by
  rw [bounds?, Option.bind_map]
  rfl

/-- A block that has another one in front of it is there. -/
theorem isSome_of_prevOf {other : BlockId} (h : graph.prevOf id = some other) :
    (graph.block? id).isSome := by
  obtain ⟨block, hblock, -⟩ := Option.bind_eq_some_iff.mp h
  rw [hblock]
  rfl

/-- Where nothing is cut, the neighbours are the same. -/
theorem Upholds.of_rewired (h : Rewired graph after) : Upholds graph after := by
  intro hgraph
  obtain ⟨hcut, hwired⟩ := h hgraph.wired
  refine ⟨hwired, fun id next hnext => ?_⟩
  rw [nextOf_eq, hcut.bounds, ← nextOf_eq] at hnext
  rw [prevOf_eq, hcut.bounds, ← prevOf_eq]
  exact hgraph.neighbours id next hnext

/-- A block may change in everything but its neighbours and its edges. -/
theorem Upholds.withBlock (hf : ∀ block, (f block).next = block.next ∧ (f block).prev = block.prev
    ∧ (f block).outEdges = block.outEdges ∧ (f block).inEdges = block.inEdges) :
    Upholds graph (graph.withBlock id f) := by
  intro hgraph
  have hkept : ∀ (k : Block → Option BlockId) other, (∀ block, k (f block) = k block) →
      ((graph.withBlock id f).block? other).bind k = (graph.block? other).bind k := by
    intro k other hk
    rw [block?_withBlock]
    split
    next he =>
      rw [he, Option.bind_map]
      exact congrArg (Option.bind _) (funext hk)
    next => rfl
  refine ⟨hgraph.wired.congr (withBlock_sameWires fun block => (hf block).2.2), fun other next h => ?_⟩
  rw [nextOf, hkept _ _ fun block => (hf block).1] at h
  rw [prevOf, hkept _ _ fun block => (hf block).2.1]
  exact hgraph.neighbours other next h

end BlockGraph

namespace GraphM

open BlockGraph

variable {graph after : BlockGraph} {chain : Chain} {id new source target : BlockId} {edge : EdgeId}
  {block first second : Block} {instr headLast tailFirst : InstrId} {mode : SplitMode} {count : Nat}

/-- The new block of a cut comes between the block that was cut and the one behind it. -/
theorem Halved.twoWay (h : Halved graph after id new block first second) (hgraph : graph.TwoWay)
    (hblock : graph.block? id = some block) (hnew : graph.block? new = none)
    (hfirst : first.outEdges = [] ∧ first.inEdges = block.inEdges)
    (hsecond : second.outEdges = block.outEdges ∧ second.inEdges = [])
    (hfront : first.prev = block.prev ∧ first.next = some new)
    (hback : second.prev = some id ∧ second.next = block.next) : after.TwoWay := by
  refine ⟨h.parted.wired hgraph.wired hblock hnew hfirst hsecond, fun other next hnext => ?_⟩
  have hbehind : graph.nextOf id = block.next := by
    rw [nextOf, hblock]
    rfl
  -- whatever has a neighbour in front of it was there before
  have hold : ∀ {a b}, graph.prevOf a = some b → a ≠ new := by
    rintro a b hprev rfl
    have hsome := isSome_of_prevOf hprev
    rw [hnew] at hsome
    cases hsome
  have hapart : id ≠ new := by
    rintro rfl
    rw [hblock] at hnew
    cases hnew
  rw [nextOf, h.block?] at hnext
  by_cases hother : other = new
  · -- the second half is in front of what the block was in front of
    rw [if_pos hother, Option.bind_some, hback.2] at hnext
    obtain ⟨hne, hprev⟩ := hgraph.neighbours id next (hbehind.trans hnext)
    refine ⟨hother ▸ hold hprev, ?_⟩
    rw [prevOf, h.block?, if_neg (hold hprev), if_neg hne, if_pos hnext, hother]
    obtain ⟨found, hfound⟩ := Option.isSome_iff_exists.mp (isSome_of_prevOf hprev)
    rw [hfound]
    rfl
  · rw [if_neg hother] at hnext
    by_cases hid : other = id
    · -- the first half is in front of the second
      rw [if_pos hid, Option.bind_some, hfront.2, Option.some.injEq] at hnext
      subst hnext hid
      refine ⟨Ne.symm hapart, ?_⟩
      rw [prevOf, h.block?, if_pos rfl, Option.bind_some, hback.1]
    · have hkept : graph.nextOf other = some next := by
        rw [if_neg hid] at hnext
        split at hnext
        next =>
          rw [Option.bind_map] at hnext
          exact hnext
        next => exact hnext
      obtain ⟨hne, hprev⟩ := hgraph.neighbours other next hkept
      refine ⟨hne, ?_⟩
      rw [prevOf, h.block?, if_neg (hold hprev)]
      by_cases hcut : next = id
      · subst hcut
        rw [if_pos rfl, Option.bind_some, hfront.1, ← hprev, prevOf, hblock, Option.bind_some]
      · have hother' : block.next ≠ some next := by
          intro hboth
          have hprev' := (hgraph.neighbours id next (hbehind.trans hboth)).2
          exact hid (Option.some.inj (hprev.symm.trans hprev'))
        rw [if_neg hcut, if_neg hother']
        exact hprev

/-- A cut keeps everything known from both sides, whether or not the tree takes in the new block. -/
theorem cut_twoWay (hgraph : graph.TwoWay) (hblock : graph.block? id = some block) :
    (outcome (cut id block count headLast tailFirst) graph).TwoWay := by
  have hedges : ∀ edge ∈ block.outEdges, (graph.edge? edge).isSome := by
    intro edge hedge
    obtain ⟨found, hfound, -⟩ :=
      Option.map_eq_some_iff.mp ((mem_outEdges_iff hgraph.wired hblock edge).mp hedge)
    rw [hfound]
    rfl
  have hnext : ∀ other, block.next = some other → other ≠ id ∧ (graph.block? other).isSome := by
    intro other hother
    obtain ⟨hne, hprev⟩ := hgraph.neighbours id other (by rw [nextOf, hblock]; exact hother)
    exact ⟨hne, isSome_of_prevOf hprev⟩
  obtain ⟨pushed, hrun, -, hhalved⟩ := cut_placed count headLast tailFirst hblock rfl hedges hnext
  have hplaced : ∀ tree, ({ pushed with tree := tree } : BlockGraph).TwoWay := by
    intro tree
    exact (hhalved.withTree tree).twoWay hgraph hblock block?_fresh ⟨rfl, rfl⟩ ⟨rfl, rfl⟩ ⟨rfl, rfl⟩
      ⟨rfl, rfl⟩
  have hrest : outcome (cut id block count headLast tailFirst) graph
      = outcome (do onTree (TreeM.insertAfter id ⟨graph.blocks.size⟩)
                    return ⟨graph.blocks.size⟩ : GraphM BlockId) pushed := by
    unfold outcome
    rw [hrun]
  rw [hrest]
  -- a tree that refuses leaves the blocks and edges as they are
  refine outcome_bind_of (p := TwoWay) ?_ fun _ _ h => h
  unfold outcome onTree
  cases TreeM.insertAfter id ⟨graph.blocks.size⟩ pushed.tree with
  | ok value tree => exact hplaced tree
  | error cause tree => exact hplaced tree

/-- To count what the first half of a split holds changes nothing. -/
theorem headCount_same : outcome (headCount chain block tailFirst instr) graph = graph := by
  simp only [headCount]
  split
  next => rfl
  next =>
    split
    next => rfl
    next => rfl

theorem neighbour_same {found : Option InstrId} : outcome (neighbour instr found) graph = graph := by
  cases found <;> rfl

/-- A split cuts the block, or changes nothing. -/
theorem split_upholds : Leaves Upholds (split chain id instr mode) := by
  intro graph hgraph
  cases hblock : graph.block? id with
  | none =>
    have hrun : split chain id instr mode graph = .error (.missingBlock id) graph :=
      bind_error (block_error hblock)
    rw [outcome_error hrun]
    exact hgraph
  | some block =>
    have hcut : ∀ count headLast tailFirst,
        (outcome (cut id block count headLast tailFirst) graph).TwoWay := by
      intro count headLast tailFirst
      exact cut_twoWay hgraph hblock
    rw [split, outcome_bind_ok (block_ok.mpr ⟨hblock, rfl⟩)]
    -- either mode looks at the chain first, which changes nothing, and then cuts
    cases mode with
    | first =>
      by_cases hseat : instr = block.first
      · rw [if_pos hseat]
        exact hgraph
      · rw [if_neg hseat]
        refine outcome_bind_of_same headCount_same hgraph fun count => ?_
        refine outcome_bind_of_same neighbour_same hgraph fun headLast => ?_
        exact hcut count headLast instr
    | last =>
      by_cases hseat : instr = block.last
      · rw [if_pos hseat]
        exact hgraph
      · rw [if_neg hseat]
        refine outcome_bind_of_same neighbour_same hgraph fun tailFirst => ?_
        refine outcome_bind_of_same headCount_same hgraph fun count => ?_
        refine outcome_bind_of_same neighbour_same hgraph fun headLast => ?_
        refine outcome_bind_of (p := TwoWay) ?_ fun _ _ h => h
        rw [outcome_discard]
        exact hcut count headLast tailFirst

/-- A split upholds what is known from both sides, however it ends. -/
theorem splitAt_upholds : Leaves Upholds (splitAt chain instr mode) := by
  refine .bind Upholds.stepRelation (.get Upholds.stepRelation) fun graph => ?_
  cases graph.find chain instr with
  | error cause => exact .throw Upholds.stepRelation cause
  | ok found =>
    cases found with
    | none => exact .throw Upholds.stepRelation (unmapped chain instr)
    | some id => exact split_upholds

theorem upholds_of_rewired {α : Type} {action : GraphM α} (h : Leaves Rewired action) :
    Leaves Upholds action := fun graph => .of_rewired (h graph)

/-- The splits for a function uphold what is known from both sides. -/
theorem splitFunction_upholds {function : Function} : Leaves Upholds (splitFunction chain function) := by
  unfold splitFunction
  split
  next =>
    exact .bind Upholds.stepRelation (.discard splitAt_upholds) fun _ => .discard splitAt_upholds
  next => exact .pure Upholds.stepRelation _

/-- The splits for an instruction uphold what is known from both sides. -/
theorem splitTransfer_upholds {found : Instruction} : Leaves Upholds (splitTransfer chain instr found) := by
  have htargets : Leaves Upholds (found.references.forM fun target => do
      if !chain.isLinked target then
        throw (.brokenTarget instr target)
      discard (splitAt chain target .first)) := by
    refine .forM Upholds.stepRelation fun target _ => ?_
    by_cases hlinked : chain.isLinked target = true
    · rw [hlinked]
      exact .discard splitAt_upholds
    · rw [Bool.not_eq_true] at hlinked
      rw [hlinked]
      exact .bind Upholds.stepRelation (.throw Upholds.stepRelation _) fun _ => .discard splitAt_upholds
  unfold splitTransfer
  split
  next => exact .bind Upholds.stepRelation (.discard splitAt_upholds) fun _ => htargets
  next => exact htargets

/-- The whole construction upholds what is known from both sides, also if it is given up. -/
theorem construct_upholds {functions : List Function} {instrs : List (InstrId × Instruction)} :
    Leaves Upholds (construct chain functions instrs) :=
  .bind Upholds.stepRelation (.forM Upholds.stepRelation fun _ _ => splitFunction_upholds) fun _ =>
  .bind Upholds.stepRelation (.forM Upholds.stepRelation fun _ _ => splitTransfer_upholds) fun _ =>
  .bind Upholds.stepRelation (upholds_of_rewired stampFunctions_leaves) fun _ =>
  .bind Upholds.stepRelation (upholds_of_rewired linkEdges_leaves) fun _ =>
  .discard (upholds_of_rewired discoverLoops_leaves)

end GraphM

namespace BlockGraph

variable {graph : BlockGraph} {chain : Chain} {functions : FunctionTable}

/-- A graph of one block has no edges and no neighbours to disagree about. -/
theorem whole_twoWay {head tail : InstrId} {count : Nat} {sections : List SectionId} :
    (whole head tail count sections).TwoWay where
  wired := GraphM.whole_wired
  neighbours id next h := by
    rw [nextOf, GraphM.whole_block?] at h
    split at h <;> cases h

/-- A graph without blocks has nothing to disagree about. -/
theorem empty_twoWay : empty.TwoWay where
  wired := GraphM.wired_empty
  neighbours id next h := by
    rw [nextOf, block?, empty, Array.getElem?_empty] at h
    cases h

/-- Whatever the chain is, and whatever functions there are, a graph that is built is known from both
sides. -/
theorem twoWay_of_build (h : build chain functions = .ok graph) : graph.TwoWay := by
  cases hhead : chain.head with
  | none =>
    unfold build at h
    rw [hhead] at h
    exact Except.ok.inj h ▸ empty_twoWay
  | some head =>
    cases htail : chain.tail with
    | none =>
      unfold build at h
      rw [hhead, htail] at h
      exact Except.ok.inj h ▸ empty_twoWay
    | some tail =>
      cases hinstrs : mappedInstructions chain with
      | error cause =>
        unfold build at h
        rw [hhead, htail, hinstrs] at h
        cases h
      | ok instrs =>
        rw [build_eq hhead htail hinstrs] at h
        split at h
        next u built hrun =>
          obtain rfl := Except.ok.inj h
          exact GraphM.construct_upholds.keeps hrun whole_twoWay
        next => cases h

end BlockGraph

end Splice
