import Splice.Block.Basic
import Splice.Chain.Reference
import Splice.Program.Error
import Splice.Symbol.Link

/-!
# Programs

A program is the code of one object file with everything that has to follow when the
code is edited: functions, symbols and relocations, redirects of jumps, and the block
graph if one was built.

`Program.load` makes a program of what a decoder and an object reader deliver, and
`Program.fork` copies one into a new version with its instructions packed.

Notes on the model:
* the configuration is the bound on passes and the switches for promotion, for the checks after a
  full update and for tying relocation targets; it is always given, since the default of the second
  switch depends on the build;
* a fork has the names, redirects and records of the program renamed, no blocks, an empty log,
  and a version of its own;
* loading notes references and stamps the functions, reads the symbols and then ties them to the
  code, in this order, and is refused where one of these is.
-/

namespace Splice

/-- How the engine works. -/
structure Config where
  /-- How many passes, or rounds of shifts, one update may take. -/
  maxPasses : Nat
  /-- Widen short jumps that do not reach their target; else that is an error. -/
  promote : Bool
  /-- Check the program after every full update. -/
  verify : Bool
  /-- Tie relocations of section symbols to the instructions they refer to. -/
  linkTargets : Bool
deriving DecidableEq, Inhabited

/-- The number and the name of a version. -/
structure VersionInfo where
  index : Nat
  name : String
deriving DecidableEq, Inhabited

/-- What a decoder and an object reader deliver. -/
structure Decoded where
  arch : Architecture
  chain : Chain
  functions : FunctionTable
  symbols : List RawSymbol
  relocations : List RawRelocation
deriving DecidableEq, Inhabited

/-- One version of the code of an object file. -/
structure Program where
  arch : Architecture
  chain : Chain
  functions : FunctionTable
  symbols : SymbolTable
  graph : Option BlockGraph
  redirects : Redirects
  warnings : List Warning
  config : Config
  version : VersionInfo
  /-- The address of the first instruction of each section, where its layout begins. -/
  bases : List (SectionId × UInt64)
deriving DecidableEq, Inhabited

/-- The linked instructions with their names, in the order of the code. -/
def Chain.entries (chain : Chain) : List (InstrId × Instruction) :=
  chain.ids.filterMap fun id => (chain.get? id).map fun instr => (id, instr)

namespace Program

/-- The input address of the first instruction of each section. -/
def sectionBases (instrs : List Instruction) : List (SectionId × UInt64) :=
  instrs.foldl
    (fun bases instr =>
      match bases.lookup instr.sec with
      | some _ => bases
      | none => bases ++ [(instr.sec, instr.inputAddr)])
    []

/-- The chain with its back references, and the functions with their sizes. -/
def stamped (chain : Chain) (functions : FunctionTable) :
    Except ChainError (Chain × FunctionTable) :=
  let action : ChainM FunctionTable := do
    ChainM.rebuildReferences
    functions.assign
  match action chain with
  | .ok functions chain => .ok (chain, functions)
  | .error cause _ => .error cause

/-- The functions with the symbols of the same name. -/
def withSymbols (functions : FunctionTable) (symbols : SymbolTable) : FunctionTable :=
  ⟨functions.functions.map fun function =>
    { function with symbol := symbols.byName? function.name }⟩

/-- The program of an object file: instructions know their jumpers and their functions, and symbols
and relocations are tied to the code. What cannot be tied is reported as a warning. -/
def load (decoded : Decoded) (config : Config) : Except Error Program := do
  let (chain, functions) ← (stamped decoded.chain decoded.functions).mapError .chain
  let bases := sectionBases (chain.entries.map (·.2))
  let (symbols, unresolved) ←
    (SymbolTable.load decoded.symbols decoded.relocations).mapError .symbol
  let linked ← (linkSymbols chain symbols config.linkTargets).mapError .symbol
  return {
    arch := decoded.arch
    chain := linked.chain
    functions := withSymbols functions symbols
    symbols := linked.table
    graph := none
    redirects := .empty
    warnings := unresolved ++ linked.warnings
    config := config
    version := ⟨0, "base"⟩
    bases := bases }

/-- A copy of the program as a new version. Its instructions are packed and therefore renamed; the
block graph is not copied. -/
def fork (program : Program) (version : VersionInfo) : Except Error Program := do
  let (chain, names) ← program.chain.compact.mapError .chain
  let functions ← (program.functions.rename names).mapError .chain
  return { program with
    chain := chain
    functions := functions
    symbols := program.symbols.rename names
    graph := none
    redirects := program.redirects.rename names
    version := version }

/-- The block graph, which has to be built. -/
def blockGraph (program : Program) : Except Error BlockGraph :=
  match program.graph with
  | some graph => .ok graph
  | none => .error (.graphNotBuilt .reading)

end Program

end Splice
