import Splice.Proofs.Block.Transposition
import Splice.Proofs.Program.BlockWork

/-!
# Control flow backwards in programs that are edited

The engine touches blocks in few places: it splits the block that an instruction is put in front
of, and changes the ends and the count of blocks. None of this takes a block out of the sight of
its neighbours or an edge out of a list, and all else leaves the blocks alone. So every run of
every edit, refused or not, keeps the blocks known from both sides (`edit_upholds`), whatever
the program is like, and so does everything else that is done to blocks (`BlockGraph.Derived`).

> `flows_transposed`: in every graph that is made of blocks that were built, each block has
> another one as a successor as often as that has it as a predecessor, in both views of the
> control flow, so a walk against the edges is a walk along the edges turned round.

`Derived` lists everything that is done to blocks, in any order and on any chain. Nothing is
asked of the code, so addresses that wrap around and edits that are refused half way are
covered.
-/

namespace Splice

namespace Session

/-- The blocks of the program, if there are any, are known from both sides. -/
def TwoWay (s : Session) : Prop := ∀ graph, s.program.graph = some graph → graph.TwoWay

/-- Blocks that were known from both sides still are. -/
def Upholds (s t : Session) : Prop := s.TwoWay → t.TwoWay

theorem Upholds.stepRelation : StepRelation Upholds := .preserves TwoWay

/-- What leaves the graph leaves it known from both sides. -/
theorem Upholds.of_graph {s t : Session} (h : t.program.graph = s.program.graph) : Upholds s t := by
  intro hs graph hgraph
  rw [h] at hgraph
  exact hs graph hgraph

end Session

namespace EngineM

open Session

variable {α : Type} {s : Session} {id anchor new source dest jumper heir : InstrId} {given : Instruction}

/-! ## What touches no blocks -/

theorem program_upholds : Leaves Upholds program :=
  .bind Upholds.stepRelation (.get Upholds.stepRelation) fun _ => .pure Upholds.stepRelation _

theorem liftResult_upholds {ε : Type} {wrap : ε → Error} (x : Except ε α) :
    Leaves Upholds (liftResult wrap x) := .liftResult Upholds.stepRelation x

theorem onChain_upholds {action : ChainM α} : Leaves Upholds (onChain action) :=
  .focus fun _ => .of_graph rfl

theorem instr_upholds : Leaves Upholds (instr id) := onChain_upholds

theorem node_upholds : Leaves Upholds (node id) := onChain_upholds

theorem updateInstr_upholds {f : Instruction → Instruction} : Leaves Upholds (updateInstr id f) :=
  onChain_upholds

theorem updateProgram_upholds {f : Program → Program} (hf : ∀ program, (f program).graph = program.graph) :
    Leaves Upholds (updateProgram f) :=
  .modify fun s => .of_graph (hf s.program)

theorem count_upholds {measure : Measure} {amount : Nat} : Leaves Upholds (count measure amount) :=
  .modify fun _ => .of_graph rfl

theorem updateOwner_upholds {owner : Option FuncId} {f : Function → Function} :
    Leaves Upholds (updateOwner owner f) := by
  cases owner with
  | none => exact .pure Upholds.stepRelation _
  | some id =>
    refine .bind Upholds.stepRelation program_upholds fun _ => ?_
    refine .bind Upholds.stepRelation (liftResult_upholds _) fun _ => ?_
    exact updateProgram_upholds fun _ => rfl

theorem updateSymbol_upholds {symbol : SymbolId} {f : Symbol → Symbol} :
    Leaves Upholds (updateSymbol symbol f) := by
  refine .bind Upholds.stepRelation program_upholds fun _ => ?_
  refine .bind Upholds.stepRelation (liftResult_upholds _) fun _ => ?_
  exact updateProgram_upholds fun _ => rfl

theorem repointSymbols_upholds {symbols : List SymbolId} {delta : Int64} :
    Leaves Upholds (repointSymbols symbols source dest delta) :=
  .forM Upholds.stepRelation fun _ _ => updateSymbol_upholds

theorem moveInstruction_upholds {addr : UInt64} : Leaves Upholds (moveInstruction id addr) := by
  refine .bind Upholds.stepRelation instr_upholds fun found => ?_
  split
  next => exact .pure Upholds.stepRelation _
  next =>
    refine .bind Upholds.stepRelation updateInstr_upholds fun _ => ?_
    refine .bind Upholds.stepRelation (.forM Upholds.stepRelation fun _ _ => updateSymbol_upholds) fun _ => ?_
    refine .bind Upholds.stepRelation (.forM Upholds.stepRelation fun _ _ => updateSymbol_upholds) fun _ => ?_
    exact .pure Upholds.stepRelation _

/-! ## Settling -/

theorem physicalTarget_upholds {logical : InstrId} : Leaves Upholds (physicalTarget jumper logical) := by
  refine .bind Upholds.stepRelation program_upholds fun current => ?_
  dsimp only
  split
  next =>
    split
    next => exact .pure Upholds.stepRelation _
    next => exact .throw Upholds.stepRelation _
  next => exact .throw Upholds.stepRelation _

/-- Writing a displacement touches no blocks, whether it is granted or not. -/
theorem writeDisplacement_upholds : Leaves Upholds (writeDisplacement jumper) := by
  refine .bind Upholds.stepRelation instr_upholds fun source => ?_
  split
  next => exact .pure Upholds.stepRelation _
  next logical _ =>
    split
    next => exact .pure Upholds.stepRelation _
    next =>
      refine .bind Upholds.stepRelation physicalTarget_upholds fun target => ?_
      split
      next => exact .pure Upholds.stepRelation _
      next =>
        split
        next => exact .throw Upholds.stepRelation _
        next field _ =>
          dsimp only
          split
          next => exact .pure Upholds.stepRelation _
          next =>
            split
            next => exact .throw Upholds.stepRelation _
            next =>
              exact .bind Upholds.stepRelation updateInstr_upholds fun _ => .pure Upholds.stepRelation _

theorem promote_upholds {disp : Int64} : Leaves Upholds (promote jumper disp) := by
  refine .bind Upholds.stepRelation instr_upholds fun short => ?_
  refine .bind Upholds.stepRelation program_upholds fun current => ?_
  cases Encoding.promote? short.bytes short.opcodeSize with
  | none =>
    have hnone : Leaves Upholds
        (throw (.chain (.unpromotable short.addr)) : EngineM Int64) := .throw Upholds.stepRelation _
    exact .ite (.bind Upholds.stepRelation (.throw Upholds.stepRelation _) fun _ => hnone) hnone
  | some long =>
    have hwiden : Leaves Upholds (do
        updateInstr jumper fun instr => { instr with bytes := long.bytes, opcodeSize := long.opcodeSize }
        return Int64.ofInt ((long.bytes.length : Int) - short.bytes.length) : EngineM Int64) :=
      .bind Upholds.stepRelation updateInstr_upholds fun _ => .pure Upholds.stepRelation _
    exact .ite (.bind Upholds.stepRelation (.throw Upholds.stepRelation _) fun _ => hwiden) hwiden

theorem shiftBehind_upholds {delta : Int64} : Leaves Upholds (shiftBehind id delta) :=
  .bind Upholds.stepRelation node_upholds fun _ => .pure Upholds.stepRelation _

/-- A shift touches no blocks, also one that breaks off in the middle. -/
theorem applyShift_upholds {shift : Shift} : Leaves Upholds (applyShift shift) := by
  refine .bind Upholds.stepRelation updateOwner_upholds fun _ => ?_
  split
  next => exact .pure Upholds.stepRelation _
  next =>
    refine .bind Upholds.stepRelation program_upholds fun current => ?_
    refine .bind Upholds.stepRelation (.forM Upholds.stepRelation fun id _ => ?_) fun _ =>
      .pure Upholds.stepRelation _
    refine .bind Upholds.stepRelation instr_upholds fun found => ?_
    exact .bind Upholds.stepRelation (.discard moveInstruction_upholds) fun _ => updateOwner_upholds

theorem settleLinked_upholds {progress : Progress} : Leaves Upholds (settleLinked progress jumper) := by
  have hsettle : Leaves Upholds (settleJumper progress jumper) := by
    refine .bind Upholds.stepRelation writeDisplacement_upholds fun outcome => ?_
    cases outcome with
    | written => exact .pure Upholds.stepRelation _
    | skipped => exact .pure Upholds.stepRelation _
    | overflow disp =>
      refine .bind Upholds.stepRelation promote_upholds fun growth => ?_
      exact .bind Upholds.stepRelation shiftBehind_upholds fun _ => .pure Upholds.stepRelation _
  refine .bind Upholds.stepRelation program_upholds fun current => ?_
  exact .ite hsettle (.pure Upholds.stepRelation _)

/-- Rounds touch no blocks, however they end. -/
theorem settleRounds_upholds {summary : UpdateSummary} {steps : Nat} {round : List Shift} :
    Leaves Upholds (settleRounds summary steps round) := by
  have hround : ∀ round, Leaves Upholds (settleRound round) := by
    intro round
    refine .bind Upholds.stepRelation (.mapM Upholds.stepRelation fun _ _ => applyShift_upholds) fun _ => ?_
    refine .bind Upholds.stepRelation program_upholds fun current => ?_
    refine .bind Upholds.stepRelation (liftResult_upholds _) fun _ => ?_
    refine .bind Upholds.stepRelation ?_ fun _ => .pure Upholds.stepRelation _
    exact .foldlM Upholds.stepRelation (fun _ _ _ => settleLinked_upholds) _
  induction steps generalizing summary round with
  | zero =>
    cases round with
    | nil => exact .pure Upholds.stepRelation _
    | cons shift rest =>
      exact .bind Upholds.stepRelation program_upholds fun _ => .throw Upholds.stepRelation _
  | succ steps ih =>
    cases round with
    | nil => exact .pure Upholds.stepRelation _
    | cons shift rest => exact .bind Upholds.stepRelation (hround _) fun _ => ih

theorem settle_upholds {shift : Shift} : Leaves Upholds (settle shift) := by
  refine .bind Upholds.stepRelation program_upholds fun _ => ?_
  refine .bind Upholds.stepRelation settleRounds_upholds fun summary => ?_
  exact .ite (.bind Upholds.stepRelation count_upholds fun _ => .pure Upholds.stepRelation _)
    (.pure Upholds.stepRelation _)

/-! ## Edits -/

/-- An action on the graph keeps blocks known from both sides if it does so on graphs. -/
theorem onGraph_upholds {action : GraphM α} (h : Leaves BlockGraph.Upholds action) :
    Leaves Upholds (onGraph action) := by
  intro s hs
  cases hgraph : s.program.graph with
  | none =>
    have hread : program s = .ok s.program s := rfl
    have hrun : onGraph action s = .error (.graphNotBuilt .editing) s := by
      unfold onGraph
      rw [bind_run hread, hgraph]
      rfl
    rw [outcome_error hrun]
    exact hs
  | some graph =>
    rw [outcome_onGraph hgraph]
    intro after hafter
    obtain rfl := Option.some.inj hafter
    exact h graph (hs graph hgraph)

theorem readBlock_upholds {block : BlockId} : Leaves Upholds (onGraph (GraphM.block block)) :=
  onGraph_upholds (GraphM.upholds_of_rewired GraphM.block_leaves)

theorem modifyBlock_upholds {block : BlockId} {f : Block → Block}
    (hf : ∀ block, (f block).next = block.next ∧ (f block).prev = block.prev
      ∧ (f block).outEdges = block.outEdges ∧ (f block).inEdges = block.inEdges) :
    Leaves BlockGraph.Upholds (GraphM.updateBlock block f) :=
  .bind BlockGraph.Upholds.stepRelation (GraphM.upholds_of_rewired GraphM.block_leaves) fun _ =>
    .modify fun _ => .withBlock hf

theorem updateBlock_upholds {block : Option BlockId} {f : Block → Block}
    (hf : ∀ block, (f block).next = block.next ∧ (f block).prev = block.prev
      ∧ (f block).outEdges = block.outEdges ∧ (f block).inEdges = block.inEdges) :
    Leaves Upholds (updateBlock block f) := by
  cases block with
  | none => exact .pure Upholds.stepRelation _
  | some block => exact onGraph_upholds (modifyBlock_upholds hf)

theorem blockOf_upholds : Leaves Upholds (blockOf id) := by
  refine .bind Upholds.stepRelation program_upholds fun current => ?_
  split
  next => exact .pure Upholds.stepRelation _
  next =>
    refine .bind Upholds.stepRelation (liftResult_upholds _) fun found => ?_
    split
    next => exact .pure Upholds.stepRelation _
    next => exact .throw Upholds.stepRelation _

theorem linkInserted_upholds : Leaves Upholds (linkInserted id given) := by
  have htable : Leaves Upholds (if !given.jumpTable.isEmpty
      then onChain (ChainM.setJumpTable id given.jumpTable) else pure ()) := by
    split
    next => exact onChain_upholds
    next => exact .pure Upholds.stepRelation _
  unfold linkInserted
  cases given.target with
  | none => exact htable
  | some target => exact .bind Upholds.stepRelation onChain_upholds fun _ => htable

theorem moveReferences_upholds : Leaves Upholds (moveReferences source dest) :=
  .bind Upholds.stepRelation instr_upholds fun _ =>
  .bind Upholds.stepRelation instr_upholds fun _ =>
  .bind Upholds.stepRelation instr_upholds fun _ =>
  .bind Upholds.stepRelation updateInstr_upholds fun _ =>
  .bind Upholds.stepRelation repointSymbols_upholds fun _ => updateInstr_upholds

/-- Splitting off the entry of a block keeps the halves known from both sides, also if the split is
refused. -/
theorem splitEntry_upholds {chain : Chain} {block : BlockId} :
    Leaves BlockGraph.Upholds (splitEntry chain block anchor) := by
  have hr := BlockGraph.Upholds.stepRelation
  refine .bind hr GraphM.split_upholds fun tail => ?_
  refine .bind hr (.discard (GraphM.upholds_of_rewired GraphM.addEdge_leaves)) fun _ => ?_
  refine .bind hr (.get hr) fun graph => ?_
  refine .bind hr (GraphM.upholds_of_rewired GraphM.block_leaves) fun found => ?_
  refine .bind hr (.mapM hr fun edge _ => ?_) fun closing => ?_
  · refine .bind hr (GraphM.upholds_of_rewired GraphM.edge_leaves) fun _ => ?_
    exact .bind hr (GraphM.upholds_of_rewired GraphM.retargetEdge_leaves) fun _ => .pure hr _
  · split
    next =>
      exact .bind hr (modifyBlock_upholds fun _ => ⟨rfl, rfl, rfl, rfl⟩) fun _ =>
        modifyBlock_upholds fun _ => ⟨rfl, rfl, rfl, rfl⟩
    next => exact .pure hr _

theorem extendBlockBefore_upholds {block : BlockId} {retarget : Retarget} :
    Leaves Upholds (extendBlockBefore block anchor new retarget) := by
  refine .bind Upholds.stepRelation readBlock_upholds fun before => ?_
  refine .bind Upholds.stepRelation
    (onGraph_upholds (modifyBlock_upholds fun _ => ⟨rfl, rfl, rfl, rfl⟩)) fun _ => ?_
  refine .ite ?_ (.pure Upholds.stepRelation _)
  refine .bind Upholds.stepRelation
    (onGraph_upholds (modifyBlock_upholds fun _ => ⟨rfl, rfl, rfl, rfl⟩)) fun _ => ?_
  refine .ite ?_ (.pure Upholds.stepRelation _)
  refine .bind Upholds.stepRelation program_upholds fun _ => ?_
  exact .bind Upholds.stepRelation (onGraph_upholds splitEntry_upholds) fun _ => count_upholds

theorem enteringJumpers_upholds {retarget : Retarget} :
    Leaves Upholds (enteringJumpers anchor new retarget) := by
  have hthrough : Leaves Upholds (enterThrough anchor new) := by
    refine .bind Upholds.stepRelation program_upholds fun current => ?_
    dsimp only
    split
    next =>
      refine .bind Upholds.stepRelation (liftResult_upholds _) fun redirects => ?_
      exact .bind Upholds.stepRelation (updateProgram_upholds fun _ => rfl) fun _ => moveReferences_upholds
    next => exact .pure Upholds.stepRelation _
  cases retarget with
  | keep => exact .pure Upholds.stepRelation _
  | inserted =>
    refine .bind Upholds.stepRelation hthrough fun _ => ?_
    exact .bind Upholds.stepRelation program_upholds fun _ => liftResult_upholds _

/-- An insertion in front keeps blocks known from both sides, wherever it breaks off. -/
theorem spliceBefore_upholds {retarget : Retarget} : Leaves Upholds (spliceBefore anchor given retarget) := by
  refine .bind Upholds.stepRelation instr_upholds fun found => ?_
  refine .bind Upholds.stepRelation blockOf_upholds fun block => ?_
  refine .bind Upholds.stepRelation onChain_upholds fun new => ?_
  refine .bind Upholds.stepRelation linkInserted_upholds fun _ => ?_
  refine .bind Upholds.stepRelation updateOwner_upholds fun _ => ?_
  refine .bind Upholds.stepRelation ?_ fun _ => ?_
  · cases block with
    | none => exact .pure Upholds.stepRelation _
    | some block => exact extendBlockBefore_upholds
  · refine .bind Upholds.stepRelation enteringJumpers_upholds fun entering => ?_
    exact .bind Upholds.stepRelation count_upholds fun _ => .pure Upholds.stepRelation _

theorem appendAfter_upholds : Leaves Upholds (appendAfter anchor given) := by
  refine .bind Upholds.stepRelation node_upholds fun found => ?_
  refine .bind Upholds.stepRelation blockOf_upholds fun block => ?_
  refine .bind Upholds.stepRelation onChain_upholds fun new => ?_
  refine .bind Upholds.stepRelation linkInserted_upholds fun _ => ?_
  refine .bind Upholds.stepRelation updateOwner_upholds fun _ => ?_
  refine .bind Upholds.stepRelation (updateBlock_upholds fun _ => ⟨rfl, rfl, rfl, rfl⟩) fun _ => ?_
  exact .bind Upholds.stepRelation count_upholds fun _ => .pure Upholds.stepRelation _

theorem spliceAfter_upholds : Leaves Upholds (spliceAfter anchor given) := by
  refine .bind Upholds.stepRelation node_upholds fun found => ?_
  refine .bind Upholds.stepRelation program_upholds fun current => ?_
  dsimp only
  split
  next => exact spliceBefore_upholds
  next => exact appendAfter_upholds

theorem placeInserted_upholds {pieces : List (InstrId × Instruction)} {addr : UInt64} :
    Leaves Upholds (placeInserted addr pieces) := by
  induction pieces generalizing addr with
  | nil => exact .pure Upholds.stepRelation _
  | cons piece rest ih =>
    refine .bind Upholds.stepRelation updateInstr_upholds fun _ => ?_
    exact .bind Upholds.stepRelation linkInserted_upholds fun _ => ih

/-- A substitution keeps blocks known from both sides, wherever it breaks off. -/
theorem spliceInstead_upholds {pieces : List Instruction} : Leaves Upholds (spliceInstead id pieces) := by
  refine .bind Upholds.stepRelation instr_upholds fun found => ?_
  refine .bind Upholds.stepRelation blockOf_upholds fun block => ?_
  refine .bind Upholds.stepRelation onChain_upholds fun result => ?_
  dsimp only
  split
  next =>
    refine .bind Upholds.stepRelation placeInserted_upholds fun _ => ?_
    refine .bind Upholds.stepRelation instr_upholds fun _ => ?_
    refine .bind Upholds.stepRelation repointSymbols_upholds fun _ => ?_
    refine .bind Upholds.stepRelation ?_ fun _ => ?_
    · refine .bind Upholds.stepRelation (.forM Upholds.stepRelation fun _ _ => updateSymbol_upholds) fun _ => ?_
      exact updateInstr_upholds
    refine .bind Upholds.stepRelation (updateProgram_upholds fun _ => rfl) fun _ => ?_
    refine .bind Upholds.stepRelation updateOwner_upholds fun _ => ?_
    refine .bind Upholds.stepRelation (updateBlock_upholds fun _ => ⟨rfl, rfl, rfl, rfl⟩) fun _ => ?_
    refine .bind Upholds.stepRelation count_upholds fun _ => ?_
    exact .bind Upholds.stepRelation program_upholds fun _ => .pure Upholds.stepRelation _
  next => exact .throw Upholds.stepRelation _

theorem checkRemovable_upholds {block : Option BlockId} : Leaves Upholds (checkRemovable block given) := by
  have hends : Leaves Upholds (if given.flags.endsBlock then throw (.blockEndingTransfer given.addr)
      else pure () : EngineM Unit) := .ite (.throw Upholds.stepRelation _) (.pure Upholds.stepRelation _)
  cases block with
  | none => exact .pure Upholds.stepRelation _
  | some block =>
    refine .bind Upholds.stepRelation readBlock_upholds fun found => ?_
    exact .ite (.bind Upholds.stepRelation (.throw Upholds.stepRelation _) fun _ => hends) hends

theorem moveEnd_upholds {block : BlockId} {addr : UInt64} {taken : Prop} [Decidable taken]
    {heir : Option InstrId} {put : InstrId → Block → Block}
    (hput : ∀ heir block, (put heir block).next = block.next ∧ (put heir block).prev = block.prev
      ∧ (put heir block).outEdges = block.outEdges ∧ (put heir block).inEdges = block.inEdges) :
    Leaves Upholds (moveEnd block addr taken heir put) := by
  cases heir with
  | some heir => exact .ite (onGraph_upholds (modifyBlock_upholds (hput heir))) (.pure Upholds.stepRelation _)
  | none => exact .ite (.throw Upholds.stepRelation _) (.pure Upholds.stepRelation _)

theorem shrinkBlock_upholds {block : BlockId} {addr : UInt64} {after before : Option InstrId} :
    Leaves Upholds (shrinkBlock block id addr after before) := by
  rw [shrinkBlock_eq]
  refine .bind Upholds.stepRelation readBlock_upholds fun found => ?_
  refine .bind Upholds.stepRelation
    (onGraph_upholds (modifyBlock_upholds fun _ => ⟨rfl, rfl, rfl, rfl⟩)) fun _ => ?_
  refine .bind Upholds.stepRelation (moveEnd_upholds fun _ _ => ⟨rfl, rfl, rfl, rfl⟩) fun _ => ?_
  exact moveEnd_upholds fun _ _ => ⟨rfl, rfl, rfl, rfl⟩

theorem passOn_upholds : Leaves Upholds (passOn id heir) := by
  refine .bind Upholds.stepRelation onChain_upholds fun _ => ?_
  refine .bind Upholds.stepRelation moveReferences_upholds fun _ => ?_
  refine .bind Upholds.stepRelation (updateProgram_upholds fun _ => rfl) fun _ => ?_
  refine .bind Upholds.stepRelation instr_upholds fun _ => ?_
  refine .bind Upholds.stepRelation updateInstr_upholds fun _ => ?_
  exact .forM Upholds.stepRelation fun _ _ => updateSymbol_upholds

/-- A removal keeps blocks known from both sides, wherever it breaks off. -/
theorem excise_upholds : Leaves Upholds (excise id) := by
  refine .bind Upholds.stepRelation node_upholds fun found => ?_
  refine .bind Upholds.stepRelation blockOf_upholds fun block => ?_
  refine .bind Upholds.stepRelation checkRemovable_upholds fun _ => ?_
  refine .bind Upholds.stepRelation program_upholds fun current => ?_
  dsimp only
  split
  next => exact .throw Upholds.stepRelation _
  next heir _ =>
    refine .bind Upholds.stepRelation passOn_upholds fun _ => ?_
    refine .bind Upholds.stepRelation updateOwner_upholds fun _ => ?_
    refine .bind Upholds.stepRelation ?_ fun _ => ?_
    · cases block with
      | none => exact .pure Upholds.stepRelation _
      | some block => exact shrinkBlock_upholds
    refine .bind Upholds.stepRelation onChain_upholds fun freed => ?_
    refine .bind Upholds.stepRelation program_upholds fun _ => ?_
    exact .bind Upholds.stepRelation (liftResult_upholds _) fun _ => .pure Upholds.stepRelation _

/-- An edit keeps the blocks known from both sides, also if it is refused. -/
theorem edit_upholds (change : Edit) : Leaves Upholds change.run := by
  cases change with
  | insertBefore anchor given retarget =>
    refine .discard (.bind Upholds.stepRelation spliceBefore_upholds fun _ => ?_)
    exact .bind Upholds.stepRelation (.discard settle_upholds) fun _ => .pure Upholds.stepRelation _
  | insertAfter anchor given =>
    refine .discard (.bind Upholds.stepRelation spliceAfter_upholds fun _ => ?_)
    exact .bind Upholds.stepRelation (.discard settle_upholds) fun _ => .pure Upholds.stepRelation _
  | substitute old given =>
    refine .discard (.bind Upholds.stepRelation spliceInstead_upholds fun _ => ?_)
    exact .bind Upholds.stepRelation (.discard settle_upholds) fun _ => .pure Upholds.stepRelation _
  | remove id =>
    refine .discard (.bind Upholds.stepRelation excise_upholds fun _ => ?_)
    exact .bind Upholds.stepRelation (.discard settle_upholds) fun _ => .pure Upholds.stepRelation _
  | resize id bytes opcodeSize delta =>
    refine .bind Upholds.stepRelation updateInstr_upholds fun _ => .discard ?_
    exact .bind Upholds.stepRelation shiftBehind_upholds fun _ => settle_upholds

end EngineM

namespace BlockGraph

open EngineM

/-- What is made of blocks that were built: they are split, on whatever chain, edges are drawn and led
elsewhere, loops are tagged, and the program is edited that they are the blocks of. Nothing is asked of any of
this: it may also be refused, and leave things half done. -/
inductive Derived : BlockGraph → Prop where
  | built {chain : Chain} {functions : FunctionTable} {graph : BlockGraph} (h : build chain functions = .ok graph) :
      Derived graph
  | split {graph : BlockGraph} (chain : Chain) (id : BlockId) (instr : InstrId) (mode : SplitMode)
      (hgraph : Derived graph) : Derived (outcome (GraphM.split chain id instr mode) graph)
  | splitAt {graph : BlockGraph} (chain : Chain) (instr : InstrId) (mode : SplitMode) (hgraph : Derived graph) :
      Derived (outcome (GraphM.splitAt chain instr mode) graph)
  | addEdge {graph : BlockGraph} (source target : BlockId) (kind : EdgeKind) (hgraph : Derived graph) :
      Derived (outcome (GraphM.addEdge source target kind) graph)
  | retargetEdge {graph : BlockGraph} (id : EdgeId) (target : BlockId) (hgraph : Derived graph) :
      Derived (outcome (GraphM.retargetEdge id target) graph)
  | discoverLoops {graph : BlockGraph} (hgraph : Derived graph) : Derived (outcome GraphM.discoverLoops graph)
  | edited {graph after : BlockGraph} {s : Session} (change : Edit) (hgraph : Derived graph)
      (hs : s.program.graph = some graph) (hafter : (outcome change.run s).program.graph = some after) :
      Derived after

variable {graph : BlockGraph}

/-- Whatever is made of blocks that were built, they are known from both sides. The induction is on how
they were made. -/
theorem Derived.twoWay (h : graph.Derived) : graph.TwoWay := by
  induction h with
  | built h => exact twoWay_of_build h
  | split chain id instr mode _ ih => exact GraphM.split_upholds _ ih
  | splitAt chain instr mode _ ih => exact GraphM.splitAt_upholds _ ih
  | addEdge source target kind _ ih => exact GraphM.upholds_of_rewired GraphM.addEdge_leaves _ ih
  | retargetEdge id target _ ih => exact GraphM.upholds_of_rewired GraphM.retargetEdge_leaves _ ih
  | discoverLoops _ ih => exact GraphM.upholds_of_rewired GraphM.discoverLoops_leaves _ ih
  | @edited graph _ s change _ hs hafter ih =>
    have hbefore : s.TwoWay := by
      intro found hfound
      obtain rfl := Option.some.inj (hs.symm.trans hfound)
      exact ih
    exact edit_upholds change s hbefore _ hafter

/-- In every graph that is made from a built one, control goes from one block to another by as many ways as
are seen from the other, over all the code and within functions. To walk against control is to
walk along it with all ways turned round. -/
theorem flows_transposed (h : graph.Derived) : ∀ flow ∈ [graph.flow, graph.localFlow],
    (∀ source target, (flow.successors source).count target = (flow.predecessors target).count source)
      ∧ (∀ source target, flow.reverse.arcs target source = flow.arcs source target)
      ∧ ∀ roots order visitor,
        flow.walk roots .backward order visitor = flow.reverse.walk roots .forward order visitor := by
  have hflows : ∀ flow ∈ [graph.flow, graph.localFlow], flow.Transposed := by
    simp only [List.mem_cons, List.not_mem_nil, or_false, forall_eq_or_imp, forall_eq]
    exact ⟨h.twoWay.flow_transposed, h.twoWay.localFlow_transposed⟩
  intro flow hflow
  have htransposed := hflows flow hflow
  exact ⟨htransposed, htransposed.arcs_reverse, flow.walk_backward⟩

/-- A jump is given an instruction to land on, which is then parted from the code behind it; that is led
back to itself twice, and the jump past the inserted code to it. -/
theorem flows_transposed_hop : ∃ graph : BlockGraph, graph.Derived
    ∧ graph.flow.successors ⟨3⟩ = [⟨3⟩, ⟨3⟩] ∧ graph.flow.predecessors ⟨3⟩ = [⟨3⟩, ⟨3⟩, ⟨0⟩]
    ∧ ∀ flow ∈ [graph.flow, graph.localFlow],
      (∀ source target, (flow.successors source).count target = (flow.predecessors target).count source)
        ∧ (∀ source target, flow.reverse.arcs target source = flow.arcs source target)
        ∧ ∀ roots order visitor,
          flow.walk roots .backward order visitor = flow.reverse.walk roots .forward order visitor := by
  let built := outcome buildBlocks hop
  obtain ⟨graph, hbuild⟩ := Succeeds.ok (show Succeeds buildBlocks hop = true by decide +kernel)
  let change : Edit := .insertBefore ⟨2⟩ (.synthetic [0x90] 1 .nop) .inserted
  have hedited : (outcome change.run built).program.graph.isSome = true := by decide +kernel
  obtain ⟨after, hafter⟩ := Option.isSome_iff_exists.mp hedited
  have hstart : built.program.graph = some graph := by
    rw [(buildBlocks_ok hbuild).2]
    rfl
  have hderived : after.Derived := .edited change (.built (buildBlocks_ok hbuild).1) hstart hafter
  let rework (graph : BlockGraph) : BlockGraph :=
    outcome (GraphM.retargetEdge ⟨0⟩ ⟨3⟩) <| outcome (GraphM.addEdge ⟨3⟩ ⟨3⟩ .goto) <|
      outcome (GraphM.addEdge ⟨3⟩ ⟨3⟩ .goto) <|
        outcome (GraphM.split (outcome change.run built).program.chain ⟨2⟩ ⟨3⟩ .last) graph
  have hreworked : (rework after).Derived :=
    .retargetEdge _ _ <| .addEdge _ _ _ <| .addEdge _ _ _ <| .split _ _ _ _ hderived
  have hseen : (outcome change.run built).program.graph.all (fun graph =>
      (rework graph).flow.successors ⟨3⟩ == [⟨3⟩, ⟨3⟩]
        && (rework graph).flow.predecessors ⟨3⟩ == [⟨3⟩, ⟨3⟩, ⟨0⟩]) = true := by
    decide +kernel
  rw [hafter, Option.all_some, Bool.and_eq_true, beq_iff_eq, beq_iff_eq] at hseen
  exact ⟨rework after, hreworked, hseen.1, hseen.2, flows_transposed hreworked⟩

end BlockGraph

end Splice
