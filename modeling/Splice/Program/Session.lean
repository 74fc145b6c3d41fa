import Splice.Block.Build
import Splice.Chain.Edit
import Splice.Focus
import Splice.Metric
import Splice.Program.Basic

/-!
# Sessions

A session is a program that is being worked on, with the recorder that counts what is
done to it. Operations of the engine run in `EngineM`, which keeps the session that
was reached when an operation is refused. The operations of the parts of a program run
inside it through `onChain`, `onGraph` and their like.

`onChain` and its like run an operation of a part by `focus`; `buildBlocks`, `dropBlocks` and
`onGraph` are what is done to blocks from outside.

Notes on the model: a session is one program with its recorder, where the engine records into a
recorder that is installed for the process; and tracing is left out altogether.
-/

namespace Splice

/-- A program that is being worked on. -/
structure Session where
  program : Program
  recorder : Recorder
deriving DecidableEq, Inhabited

/-- A computation that changes a session and may be refused. -/
abbrev EngineM := EStateM Error Session

/-- The session of a freshly loaded program; its warnings are counted. -/
def Session.load (decoded : Decoded) (config : Config) : Except Error Session := do
  let program ← Program.load decoded config
  return ⟨program,
    Recorder.empty.count .relocationWarnings program.version.name program.warnings.length⟩

namespace EngineM

/-- The program that is worked on. -/
def program : EngineM Program := return (← get).program

def updateProgram (f : Program → Program) : EngineM Unit :=
  modify fun session => { session with program := f session.program }

/-- Changes the instruction chain. -/
def onChain {α : Type} (action : ChainM α) : EngineM α :=
  focus (·.program.chain)
    (fun session chain => { session with program.chain := chain }) .chain action

/-- Changes the block graph, which has to be built. -/
def onGraph {α : Type} (action : GraphM α) : EngineM α := do
  match (← program).graph with
  | none => throw (.graphNotBuilt .editing)
  | some graph =>
    focus (fun _ => graph)
      (fun session graph => { session with program.graph := some graph }) .graph action

/-- The instruction with the name `id`, which has to be present. -/
def instr (id : InstrId) : EngineM Instruction := onChain (ChainM.instr id)

/-- The instruction with the name `id` and its neighbours. -/
def node (id : InstrId) : EngineM Node := onChain (ChainM.node id)

/-- Changes the instruction `id`, which has to be present. -/
def updateInstr (id : InstrId) (f : Instruction → Instruction) : EngineM Unit :=
  onChain (ChainM.update id f)

/-- Changes a function, which has to exist. -/
def updateFunction (id : FuncId) (f : Function → Function) : EngineM Unit := do
  let _ ← liftResult .chain ((← program).functions.get id)
  updateProgram fun program => { program with functions := program.functions.update id f }

/-- Changes a function, if there is a name for one. -/
def updateOwner (owner : Option FuncId) (f : Function → Function) : EngineM Unit :=
  match owner with
  | some id => updateFunction id f
  | none => pure ()

/-- Changes a symbol record, which has to exist. -/
def updateSymbol (id : SymbolId) (f : Symbol → Symbol) : EngineM Unit := do
  let _ ← liftResult .symbol ((← program).symbols.get id)
  updateProgram fun program => { program with symbols := program.symbols.update id f }

/-- Counts something that was done to the program. -/
def count (measure : Measure) (amount : Nat) : EngineM Unit :=
  modify fun session =>
    { session with
      recorder := session.recorder.count measure session.program.version.name amount }

/-- Records how many passes an update took. -/
def countPasses (passes : Nat) : EngineM Unit :=
  modify fun session =>
    { session with
      recorder := session.recorder.countPasses session.program.version.name passes }

/-- Builds the block graph, or builds it anew. -/
def buildBlocks : EngineM BlockGraph := do
  let current ← program
  let graph ← liftResult .graph (BlockGraph.build current.chain current.functions)
  count .blocksSplit (graph.size - 1)
  updateProgram fun program => { program with graph := some graph }
  return graph

/-- Gives up the block graph and returns it. -/
def dropBlocks : EngineM (Option BlockGraph) := do
  let graph := (← program).graph
  updateProgram fun program => { program with graph := none }
  return graph

end EngineM

end Splice
