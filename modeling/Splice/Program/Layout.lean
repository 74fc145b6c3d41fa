import Splice.Program.Session

/-!
# Layout

Each section of the code is laid out back to back from its base address. When an
instruction moves, what is tied to it moves along: relocations that patch its bytes
change their offset, and symbols and relocations that point at it change value and
addend, all by the distance of the move.

The operations are: `updateAddresses`, which puts every linked instruction in its place and
measures the functions after that, and `moveInstruction`, one move with all that goes along.

Notes on the model: places are computed from the addresses before the first move (`expected`),
which the moves do not change; the number of the moved is part of the summary; and a function
whose instructions are missing refuses the update after the instructions have moved, as it does
in the engine.
-/

namespace Splice

namespace Layout

/-- The addresses of a list of instructions, given by section and size, that are laid out back to
back. A section begins at its base, or at zero if it has none, and goes on where `offsets` say
once it has begun. -/
def addresses (bases : List (SectionId × UInt64)) :
    (offsets : List (SectionId × UInt64)) → List (SectionId × UInt64) → List UInt64
  | _, [] => []
  | offsets, (sec, size) :: rest =>
    let addr := (offsets.lookup sec).getD ((bases.lookup sec).getD 0)
    addr :: addresses bases (Assoc.put offsets sec (addr + size)) rest

/-- The address of each linked instruction when all sections are laid out from their bases. -/
def expected (program : Program) : List (InstrId × Instruction × UInt64) :=
  let entries := program.chain.entries
  let addrs := addresses program.bases [] (entries.map fun (_, instr) => (instr.sec, instr.size))
  (entries.zip addrs).map fun ((id, instr), addr) => (id, instr, addr)

end Layout

/-- What an update did. -/
structure UpdateSummary where
  /-- Instructions whose address changed. -/
  moved : Nat
  /-- Displacements that were written. -/
  displacements : Nat
  /-- Short jumps that were widened. -/
  promoted : Nat
  /-- Passes of a full update, or rounds of a local one. -/
  passes : Nat
deriving DecidableEq, Inhabited

namespace UpdateSummary

def zero : UpdateSummary := ⟨0, 0, 0, 0⟩

def add (a b : UpdateSummary) : UpdateSummary :=
  ⟨a.moved + b.moved, a.displacements + b.displacements, a.promoted + b.promoted,
    a.passes + b.passes⟩

instance : Add UpdateSummary := ⟨add⟩

end UpdateSummary

/-- The record of a relocation that patches `id`, when that moves by `delta`. -/
def Symbol.movedWith (symbol : Symbol) (id : InstrId) (delta : Int64) : Symbol :=
  { symbol with
    reloc := symbol.reloc.map fun reloc =>
      if reloc.instr = some id then
        { reloc with offset := reloc.offset + delta.toUInt64 }
      else
        reloc }

/-- The record of a symbol that points at `source`, when it is to point at `dest`, which lies `delta`
bytes further. -/
def Symbol.pointedTo (symbol : Symbol) (source dest : InstrId) (delta : Int64) : Symbol :=
  let value :=
    if symbol.instr = some source then symbol.value + delta.toUInt64 else symbol.value
  { symbol with
    instr := if symbol.instr = some source then some dest else symbol.instr
    value := value
    reloc := symbol.reloc.map fun reloc =>
      if reloc.target = some source then
        { reloc with target := some dest, addend := reloc.addend + delta }
      else
        reloc }

namespace EngineM

/-- Gives an instruction another address and moves along what is tied to it. Returns whether the
address changed. -/
def moveInstruction (id : InstrId) (addr : UInt64) : EngineM Bool := do
  let found ← instr id
  if found.addr = addr then
    return false
  let delta := (addr - found.addr).toInt64
  updateInstr id fun instr => { instr with addr := addr }
  found.relocs.forM fun symbol => updateSymbol symbol (·.movedWith id delta)
  found.referencedBy.forM fun symbol => updateSymbol symbol (·.pointedTo id id delta)
  return true

/-- A function at the address of its first instruction and with the size of all of them. -/
def measured (chain : Chain) (function : Function) : Except ChainError Function :=
  match function.first with
  | none => .ok function
  | some first => do
    let addr := (← chain.get first).addr
    let sizes ← (function.instructions chain).mapM fun id => (·.size) <$> chain.get id
    return { function with addr := addr, size := sizes.sum }

/-- Lays out all sections and measures all functions anew. -/
def updateAddresses : EngineM UpdateSummary := do
  let moves ← (Layout.expected (← program)).mapM fun (id, _, addr) => moveInstruction id addr
  let current ← program
  -- a function is measured only when all of its instructions are in place
  let functions ← liftResult .chain
    (current.functions.functions.toList.mapM (measured current.chain))
  updateProgram fun program => { program with functions := ⟨functions.toArray⟩ }
  return { UpdateSummary.zero with moved := moves.count true }

end EngineM

end Splice
