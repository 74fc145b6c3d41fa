import Splice.Program.Layout

/-!
# Checks

Each check looks for the first place where something that should hold of a program
does not, and reports it as a `Violation`:

* `verifyChain`: the instructions form a doubly linked list;
* `verifyAddresses`: every section is laid out back to back from its base;
* `verifyFunctions`: every function owns its run and knows its address and size;
* `verifyReferences`: jumpers and targets, and instructions and symbols, know each
  other;
* `verifyDisplacements`: every direct transfer within a section encodes its physical
  target;
* `verifySymbols`: the records of a symbol stand together behind its base record;
* `verifyBlocks`: the blocks cut the chain into runs and agree with their tree and
  their edges.

`verify` makes them in this order and stops at the first violation; the last one is made where
there are blocks. A check reads the program and changes nothing. What each check amounts to is
stated by the lemmas of `Splice.Proofs.Program.Check`, `Layout`, `Ownership` and `Blocks`.
-/

namespace Splice.Program

/-- Reports a violation unless the condition holds. -/
def ensure (condition : Bool) (violation : Violation) : Except Error Unit :=
  if condition then .ok () else .error (.violation violation)

/-- Checks that each instruction of a list is present and names the one in front of it; the first one
has to name `prev`. Returns the last one. -/
def checkLinks (chain : Chain) :
    (prev : Option InstrId) → List InstrId → Except Error (Option InstrId)
  | prev, [] => .ok prev
  | prev, id :: rest =>
    match chain.node? id with
    | none => .error (.chain (.missingInstruction id))
    | some node =>
      if node.prev = prev then
        checkLinks chain (some id) rest
      else
        .error (.violation (.stalePrev id))

def verifyChain (program : Program) : Except Error Unit := do
  let chain := program.chain
  let last ← checkLinks chain none chain.ids
  ensure (chain.tail == last) .wrongTail
  ensure (chain.ids.length == chain.length) (.wrongLength chain.ids.length chain.length)

def verifyAddresses (program : Program) : Except Error Unit :=
  (Layout.expected program).forM fun (id, instr, addr) =>
    ensure (instr.addr == addr) (.misplaced id instr.sec instr.addr addr)

/-- Checks that the instructions of a function are stamped with it, and returns their sizes. -/
def checkOwner (chain : Chain) (id : FuncId) (function : Function) (instrId : InstrId) :
    Except Error UInt64 := do
  let instr ← (chain.get instrId).mapError .chain
  ensure (instr.func == some id) (.wrongOwner instrId function.name instr.func)
  return instr.size

def verifyFunction (chain : Chain) (id : FuncId) (function : Function) : Except Error Unit := do
  match function.first, function.last with
  | some first, some last =>
    let ids := function.instructions chain
    let sizes ← ids.mapM (checkOwner chain id function)
    ensure (ids.contains last) (.lastNotReached function.name)
    let addr := (← (chain.get first).mapError .chain).addr
    ensure (function.addr == addr) (.staleAddress function.name)
    ensure (function.size == sizes.sum) (.wrongSize function.name function.size sizes.sum)
  | _, _ => return

def verifyFunctions (program : Program) : Except Error Unit :=
  program.functions.entries.forM fun (id, function) =>
    verifyFunction program.chain id function

/-- Checks that the targets of an instruction are linked and list it. -/
def checkTarget (chain : Chain) (id target : InstrId) : Except Error Unit := do
  ensure (chain.isLinked target) (.unlinkedTarget id target)
  let found ← (chain.get target).mapError .chain
  ensure (found.targetedBy.contains id) (.unlistedJumper target id)

def verifyReference (program : Program) (id : InstrId) (instr : Instruction) :
    Except Error Unit := do
  instr.references.forM (checkTarget program.chain id)
  instr.targetedBy.forM fun jumper => do
    let found ← (program.chain.get jumper).mapError .chain
    ensure (found.refersTo id) (.strayJumper id jumper)
  instr.relocs.forM fun symbol => do
    let found ← (program.symbols.get symbol).mapError .symbol
    ensure (found.reloc.bind (·.instr) == some id) (.strayRelocation id symbol)
  instr.referencedBy.forM fun symbol => do
    let found ← (program.symbols.get symbol).mapError .symbol
    ensure (found.instr == some id || found.reloc.any (·.target == some id))
      (.straySymbol id symbol)

def verifyReferences (program : Program) : Except Error Unit :=
  program.chain.entries.forM fun (id, instr) => verifyReference program id instr

def verifyDisplacement (program : Program) (id : InstrId) (instr : Instruction) :
    Except Error Unit := do
  match instr.target with
  | none => return
  | some logical =>
    if instr.isDirectTransfer then
      let physical ← (program.chain.get (program.redirects.resolve id logical)).mapError .chain
      if physical.sec == instr.sec then
        ensure (instr.encodedTarget? == some physical.addr)
          (.wrongDisplacement id instr.addr instr.encodedTarget? physical.addr)

def verifyDisplacements (program : Program) : Except Error Unit :=
  program.chain.entries.forM fun (id, instr) => verifyDisplacement program id instr

/-- Checks the records of a table one by one. `current` is the symbol of the record in front, and
`finished` holds the symbols whose records have ended. -/
def checkRecords : (finished : List SymbolId) → (current : Option SymbolId) →
    List (SymbolId × Symbol) → Except Error Unit
  | _, _, [] => .ok ()
  | finished, current, (id, symbol) :: rest => do
    if current = some symbol.base then
      ensure symbol.duplicate (.repeatedBase id symbol.name)
      checkRecords finished current rest
    else
      let finished := finished ++ current.toList
      ensure (!finished.contains symbol.base) (.scatteredRecords symbol.name id)
      ensure (id == symbol.base && !symbol.duplicate) (.headlessRun symbol.name)
      checkRecords finished (some symbol.base) rest

def verifySymbols (program : Program) : Except Error Unit :=
  checkRecords [] none program.symbols.entries

/-- Checks that the instructions of a block are the next of the chain, and returns what is left of the
chain. -/
def stepAlong (block : BlockId) : (chain instrs : List InstrId) → Except Error (List InstrId)
  | chain, [] => .ok chain
  | [], id :: _ => .error (.violation (.outOfStep block id))
  | next :: chain, id :: instrs =>
    if next = id then stepAlong block chain instrs
    else .error (.violation (.outOfStep block id))

/-- Checks a block against the `rest` of the chain, and returns what is left of it. -/
def verifyBlock (graph : BlockGraph) (chain : Chain) (rest : List InstrId) (id : BlockId) :
    Except Error (List InstrId) := do
  let block ← (graph.block id).mapError .graph
  let instrs ← (graph.instructions chain id).mapError .graph
  ensure (instrs.length == block.count) (.wrongCount id block.count instrs.length)
  ensure (instrs.getLast? == some block.last) (.endNotReached id)
  let rest ← stepAlong id rest instrs
  block.outEdges.forM fun edge => do
    ensure ((← (graph.edge edge).mapError .graph).source == id) (.strayOutEdge id edge)
  block.inEdges.forM fun edge => do
    ensure ((← (graph.edge edge).mapError .graph).target == id) (.strayInEdge id edge)
  return rest

def verifyBlocks (program : Program) : Except Error Unit := do
  let graph ← program.blockGraph
  let rest ← graph.ids.foldlM (verifyBlock graph program.chain) program.chain.ids
  ensure rest.isEmpty .uncoveredInstructions
  match graph.tree.firstUnbalanced? with
  | some block => throw (.violation (.unbalancedTree block))
  | none => ensure (graph.tree.inOrder == graph.ids) .wrongTreeOrder

/-- All checks; that of the blocks only if the block graph is built. -/
def verify (program : Program) : Except Error Unit := do
  program.verifyChain
  program.verifyAddresses
  program.verifyFunctions
  program.verifyReferences
  program.verifyDisplacements
  program.verifySymbols
  if program.graph.isSome then
    program.verifyBlocks

end Splice.Program
