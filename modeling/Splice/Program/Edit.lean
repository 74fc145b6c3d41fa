import Splice.Program.Displacement

/-!
# Edits

Instructions are inserted, substituted and removed one place at a time. Each edit is a
splice, which keeps the chain, the bounds of functions, the blocks, the back references
and the symbols in step, and then settles the shift that the splice leaves behind, which
brings addresses and displacements in order. Blocks are not split for control flow that
is inserted.

The operations are `insertBefore`, `insertAfter`, `substitute` and `remove`. Each is the
composition of a splice (`spliceBefore`, `appendAfter`, `spliceInstead`, `excise`) and `settle`;
insertion behind an instruction is insertion in front of the next one, if that is of the same
function and section.

Notes on the model:
* steps are taken in the order in which the engine takes them, so that a refused edit leaves
  the same half-done state;
* two mutable borrows of different parts at a time are two steps here;
* an edit makes no check at its end, whatever the configuration says; spans and events of tracing
  are left out.
-/

namespace Splice

/-- Where jumpers of an instruction land after an insertion in front of it. -/
inductive Retarget where
  /-- On the instruction still; they pass by what was inserted. -/
  | keep
  /-- On what was inserted, as do symbols and relocations that point at the instruction. -/
  | inserted
deriving DecidableEq

namespace EngineM

/-- An instruction to be spliced in, stamped with its place and without any links. -/
def stampedFor (instr : Instruction) (sec : SectionId) (func : Option FuncId) (addr : UInt64) :
    Instruction :=
  { instr with
    sec := sec
    func := func
    addr := addr
    relocs := []
    referencedBy := []
    targetedBy := []
    target := none
    jumpTable := [] }

/-- Points a spliced instruction at the targets that it was given with. -/
def linkInserted (id : InstrId) (given : Instruction) : EngineM Unit := do
  match given.target with
  | some target => onChain (ChainM.linkTarget id target)
  | none => pure ()
  if !given.jumpTable.isEmpty then
    onChain (ChainM.setJumpTable id given.jumpTable)

/-- The block of an instruction, if the block graph is built. -/
def blockOf (id : InstrId) : EngineM (Option BlockId) := do
  let current ← program
  match current.graph with
  | none => return none
  | some graph =>
    match ← liftResult .graph (graph.find current.chain id) with
    | some block => return some block
    | none =>
      throw (.graph (.unmappedInstruction
        (((current.chain.get? id).map (·.inputAddr)).getD 0)))

/-- Changes the block of an edit, if there is one. -/
def updateBlock (block : Option BlockId) (f : Block → Block) : EngineM Unit :=
  match block with
  | some id => onGraph (GraphM.updateBlock id f)
  | none => pure ()

/-- Points the records `symbols` at `dest` instead of `source`, which lies `delta` bytes in front. -/
def repointSymbols (symbols : List SymbolId) (source dest : InstrId) (delta : Int64) :
    EngineM Unit :=
  symbols.forM fun symbol => updateSymbol symbol (·.pointedTo source dest delta)

/-- Moves the symbols and relocations that point at `source` over to `dest`. -/
def moveReferences (source dest : InstrId) : EngineM Unit := do
  let delta := ((← instr dest).addr - (← instr source).addr).toInt64
  let symbols := (← instr source).referencedBy
  updateInstr source fun instr => { instr with referencedBy := [] }
  repointSymbols symbols source dest delta
  updateInstr dest fun instr => { instr with referencedBy := instr.referencedBy ++ symbols }

/-- Cuts a block whose first instruction was inserted in front of `anchor`, so that jumpers still
enter at the anchor: they enter the second half, and control passes straight on to it from the
first. -/
def splitEntry (chain : Chain) (block : BlockId) (anchor : InstrId) : GraphM Unit := do
  let tail ← GraphM.split chain block anchor .first
  discard (GraphM.addEdge block tail .fallthrough)
  let graph ← get
  let transfers := (← GraphM.block block).inEdges.filter fun id =>
    (graph.edge? id).any (·.kind.isTransfer)
  let closing ← transfers.mapM fun id => do
    let direction := (← GraphM.edge id).direction
    GraphM.retargetEdge id tail
    return direction == .back
  if closing.contains true then
    GraphM.updateBlock block fun block => { block with kind := ⟨false, block.kind.isFooter⟩ }
    GraphM.updateBlock tail fun block => { block with kind := block.kind.withHeader }

/-- Takes an instruction that was inserted in front of `anchor` into the block of the anchor. -/
def extendBlockBefore (block : BlockId) (anchor new : InstrId) (retarget : Retarget) :
    EngineM Unit := do
  let before ← onGraph (GraphM.block block)
  onGraph (GraphM.updateBlock block fun block => { block with count := block.count + 1 })
  if before.first = anchor then
    onGraph (GraphM.updateBlock block fun block => { block with first := new })
    if retarget = .keep then
      onGraph (splitEntry (← program).chain block anchor)
      count .blocksSplit 1

/-- Redirects the jumpers of `anchor` to `new`, which was inserted in front of it, and moves along the
symbols and relocations that point at the anchor. Where the anchor has a redirect already, jumpers
do not land on it and are left alone. -/
def enterThrough (anchor new : InstrId) : EngineM Unit := do
  let redirects := (← program).redirects
  if (redirects.targetOf? anchor).isNone then
    let redirects ← liftResult .redirect (redirects.redirect anchor new)
    updateProgram fun program => { program with redirects := redirects }
    moveReferences anchor new

/-- The jumpers that have to be written anew because of an insertion, apart from those that are
affected by the code moving. -/
def enteringJumpers (anchor new : InstrId) : Retarget → EngineM (List InstrId)
  | .keep => return []
  | .inserted => do
    enterThrough anchor new
    liftResult .chain ((← program).jumpersInto [new])

/-- Puts an instruction right in front of `anchor`, in its function and section. Returns the shift that
makes room for it. -/
def spliceBefore (anchor : InstrId) (given : Instruction) (retarget : Retarget) :
    EngineM (InstrId × Shift) := do
  let found ← instr anchor
  let block ← blockOf anchor
  let new ← onChain
    (ChainM.insertBefore anchor (stampedFor given found.sec found.func found.addr))
  linkInserted new given
  updateOwner found.func fun function =>
    if function.first = some anchor then { function with first := some new } else function
  block.forM fun block => extendBlockBefore block anchor new retarget
  let entering ← enteringJumpers anchor new retarget
  count .instructionsInserted 1
  return (new, ⟨some anchor, found.sec, found.func, given.size.toInt64, new :: entering⟩)

/-- Inserts an instruction right in front of `anchor`, in its function and section. -/
def insertBefore (anchor : InstrId) (given : Instruction) (retarget : Retarget) :
    EngineM InstrId := do
  let (new, shift) ← spliceBefore anchor given retarget
  discard (settle shift)
  return new

/-- Puts an instruction behind `anchor` where the next one does not belong to the same function and
section. Returns the shift that makes room for it. -/
def appendAfter (anchor : InstrId) (given : Instruction) : EngineM (InstrId × Shift) := do
  let found ← node anchor
  let block ← blockOf anchor
  let new ← onChain
    (ChainM.insertAfter anchor
      (stampedFor given found.instr.sec found.instr.func found.instr.endAddr))
  linkInserted new given
  updateOwner found.instr.func fun function =>
    if function.last = some anchor then { function with last := some new } else function
  updateBlock block fun block =>
    { block with
      count := block.count + 1
      last := if block.last = anchor then new else block.last }
  count .instructionsInserted 1
  return (new, ⟨found.next, found.instr.sec, found.instr.func, given.size.toInt64, [new]⟩)

/-- Puts an instruction right behind `anchor`, in its function and section. Returns the shift that
makes room for it. -/
def spliceAfter (anchor : InstrId) (given : Instruction) : EngineM (InstrId × Shift) := do
  let found ← node anchor
  let chain := (← program).chain
  let follower := found.next.filter fun next => (chain.get? next).any fun instr =>
    instr.func == found.instr.func && instr.sec == found.instr.sec
  match follower with
  | some next => spliceBefore next given .keep
  | none => appendAfter anchor given

/-- Inserts an instruction right behind `anchor`, in its function and section. Jumpers of the next
instruction pass by it. -/
def insertAfter (anchor : InstrId) (given : Instruction) : EngineM InstrId := do
  let (new, shift) ← spliceAfter anchor given
  discard (settle shift)
  return new

/-- Lays out instructions back to back from `addr` and points them at the targets that they were
given with. -/
def placeInserted : (addr : UInt64) → List (InstrId × Instruction) → EngineM Unit
  | _, [] => pure ()
  | addr, (id, given) :: rest => do
    updateInstr id fun instr => { instr with addr := addr }
    linkInserted id given
    placeInserted (addr + given.size) rest

/-- Ties the relocations that patched the bytes of `old` to `first`, which took its place. -/
def rehomeRelocations (relocs : List SymbolId) (old first : InstrId) : EngineM Unit := do
  relocs.forM fun symbol => updateSymbol symbol fun record =>
    { record with
      reloc := record.reloc.map fun reloc =>
        if reloc.instr = some old then { reloc with instr := some first } else reloc }
  updateInstr first fun instr => { instr with relocs := instr.relocs ++ relocs }

/-- Puts a sequence of instructions in the place of `old`. Its jumpers, the symbols and relocations
that point at it and the relocations that patch its bytes pass to the first of the sequence.
Returns the shift that makes room for the sequence. -/
def spliceInstead (old : InstrId) (given : List Instruction) : EngineM (List InstrId × Shift) := do
  let found ← instr old
  let block ← blockOf old
  let (ids, freed) ← onChain
    (ChainM.replace old (given.map fun instr => stampedFor instr found.sec found.func 0))
  match ids.head?, ids.getLast? with
  | some first, some last =>
    placeInserted found.addr (ids.zip given)
    -- the first of the sequence is where `old` was, so values and addends stay
    repointSymbols (← instr first).referencedBy old first 0
    rehomeRelocations freed.relocs old first
    updateProgram fun program =>
      { program with redirects := program.redirects.replace old first }
    updateOwner found.func fun function =>
      { function with
        first := if function.first = some old then some first else function.first
        last := if function.last = some old then some last else function.last }
    updateBlock block fun block =>
      { block with
        count := block.count + (ids.length - 1)
        first := if block.first = old then first else block.first
        last := if block.last = old then last else block.last }
    count .instructionsSubstituted 1
    let total := (given.map (·.size)).sum
    return (ids,
      ⟨(← program).chain.next? last, found.sec, found.func, (total - found.size).toInt64, ids⟩)
  | _, _ => throw (.chain (.emptyReplacement old))

/-- Puts a sequence of instructions in the place of `old`, which passes its jumpers, symbols and
relocations on to the first of them. -/
def substitute (old : InstrId) (given : List Instruction) : EngineM (List InstrId) := do
  let (ids, shift) ← spliceInstead old given
  discard (settle shift)
  return ids

/-- Refuses to take an instruction out of the block graph if it is the only one of its block or a
transfer, whose block's edges are its own. -/
def checkRemovable (block : Option BlockId) (instr : Instruction) : EngineM Unit := do
  match block with
  | none => return
  | some id =>
    if (← onGraph (GraphM.block id)).count = 1 then
      throw (.emptyBlock instr.addr)
    if instr.flags.endsBlock then
      throw (.blockEndingTransfer instr.addr)

/-- Takes an instruction off the ends of its block. -/
def shrinkBlock (id : BlockId) (removed : InstrId) (addr : UInt64)
    (after before : Option InstrId) : EngineM Unit := do
  let found ← onGraph (GraphM.block id)
  onGraph (GraphM.updateBlock id fun block => { block with count := block.count - 1 })
  if found.first = removed then
    match after with
    | some next => onGraph (GraphM.updateBlock id fun block => { block with first := next })
    | none => throw (.emptyBlock addr)
  if found.last = removed then
    match before with
    | some prev => onGraph (GraphM.updateBlock id fun block => { block with last := prev })
    | none => throw (.emptyBlock addr)

/-- The neighbours of an instruction that belong to its function and section: the next one, and the one
in front. -/
def kin (chain : Chain) (found : Node) : Option InstrId × Option InstrId :=
  let related (other : InstrId) : Bool := (chain.get? other).any fun instr =>
    instr.func == found.instr.func && instr.sec == found.instr.sec
  (found.next.filter related, found.prev.filter related)

/-- Passes what points at `id` on to `heir` and drops the relocations that patch its bytes. -/
def passOn (id heir : InstrId) : EngineM Unit := do
  onChain (ChainM.retargetAll id heir)
  -- values and addends change by the distance of the two, which is right until code is shifted
  moveReferences id heir
  updateProgram fun program =>
    { program with redirects := program.redirects.replace id heir }
  let relocs := (← instr id).relocs
  updateInstr id fun instr => { instr with relocs := [] }
  relocs.forM fun symbol => updateSymbol symbol fun record => { record with reloc := none }

/-- Takes an instruction out of the program. Its jumpers and the symbols and relocations that point at
it pass to its heir, the next instruction of its function, or the one in front if it is the last.
The relocations that patch its bytes are dropped. Returns the shift that closes the gap. -/
def excise (id : InstrId) : EngineM (Instruction × Shift) := do
  let found ← node id
  let block ← blockOf id
  checkRemovable block found.instr
  let (after, before) := kin (← program).chain found
  match after <|> before with
  | none => throw (.emptyBlock found.instr.addr)
  | some heir =>
    passOn id heir
    updateOwner found.instr.func fun function =>
      { function with
        first := if function.first = some id then after else function.first
        last := if function.last = some id then before else function.last }
    block.forM fun block => shrinkBlock block id found.instr.addr after before
    let freed ← onChain (ChainM.free id)
    let edited ← liftResult .chain ((← program).jumpersInto [heir])
    return (freed,
      ⟨found.next, found.instr.sec, found.instr.func, (-found.instr.size).toInt64, edited⟩)

/-- Removes an instruction, which passes its jumpers and symbols on to its heir. -/
def remove (id : InstrId) : EngineM Instruction := do
  let (freed, shift) ← excise id
  discard (settle shift)
  return freed

end EngineM

end Splice
