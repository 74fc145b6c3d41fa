import Splice.Symbol.Table
import Splice.Lookup

/-!
# Tying symbols to the code

Every record of the symbol table is tied to the instructions it touches, by their
addresses in the input object:

* a symbol with a section other than a section symbol, to the instruction that begins
  at its value;
* a relocation, to the instruction whose bytes it patches;
* if wanted, a relocation of a section symbol, to the instruction that begins at the
  address it refers to.

A tie is noted on both sides: in the record, and in the lists `relocs` and
`referencedBy` of the instruction. Instructions that were spliced in have no input
address and are not found.

The index of addresses is the list of instructions with their section and input address, looked
up by `floorEntry?`; the order in which it is sorted is not modelled. Relocations of code that
start in no instruction, or that refer to code where none begins, are reported and passed over.
-/

namespace Splice

/-- The instructions of a chain by section and input address. -/
structure AddressIndex where
  entries : List (SectionId × UInt64 × InstrId)
deriving DecidableEq, Inhabited

namespace AddressIndex

/-- Indexes the decoded instructions of the chain. -/
def ofChain (chain : Chain) : Except ChainError AddressIndex := do
  let decoded ← chain.ids.filterMapM fun id => do
    let instr ← chain.get id
    return if instr.isInstrumented then none else some (instr.sec, instr.inputAddr, id)
  return ⟨decoded⟩

/-- The section holds decoded code. -/
def isCode (index : AddressIndex) (sec : SectionId) : Bool :=
  index.entries.any fun entry => entry.1 == sec

/-- The starts of the instructions of a section. -/
def starts (index : AddressIndex) (sec : SectionId) : List (UInt64 × InstrId) :=
  (index.entries.filter fun entry => entry.1 == sec).map (·.2)

/-- The instruction that begins at `addr`. -/
def beginning? (index : AddressIndex) (sec : SectionId) (addr : UInt64) : Option InstrId := do
  let (start, id) ← floorEntry? (index.starts sec) addr
  if start = addr then some id else none

/-- The instruction whose bytes lie over `offset`. -/
def covering? (index : AddressIndex) (chain : Chain) (sec : SectionId) (offset : UInt64) :
    Option InstrId := do
  let (start, id) ← floorEntry? (index.starts sec) offset
  if offset < start + (← chain.get? id).size then some id else none

end AddressIndex

/-- How many ties of each sort were made. -/
structure LinkSummary where
  /-- Relocations tied to the instruction they patch. -/
  attached : Nat
  /-- Relocations tied to the instruction they refer to. -/
  targets : Nat
  /-- Symbols tied to the instruction at their value. -/
  symbols : Nat
deriving DecidableEq, Inhabited

/-- The code and the symbols while they are being tied together. -/
structure Linking where
  chain : Chain
  table : SymbolTable
  warnings : List Warning
  summary : LinkSummary
deriving DecidableEq, Inhabited

namespace Linking

/-- Notes at the instruction `instr` that the record `id` points at it. -/
def refer (state : Linking) (id : SymbolId) (instr : InstrId) : Linking :=
  { state with
    chain := state.chain.update instr fun node =>
      { node with instr.referencedBy := node.instr.referencedBy ++ [id] } }

def warn (state : Linking) (warning : Warning) : Linking :=
  { state with warnings := state.warnings ++ [warning] }

/-- Ties a symbol to the instruction at its value. -/
def linkSymbol (index : AddressIndex) (state : Linking) (id : SymbolId) (symbol : Symbol) :
    Linking :=
  let found := do
    let sec ← symbol.sec
    if symbol.kind == .wholeSection then none else index.beginning? sec symbol.value
  match found with
  | none => state
  | some instr =>
    { state.refer id instr with
      table := state.table.update id fun symbol => { symbol with instr := some instr }
      summary.symbols := state.summary.symbols + 1 }

/-- Ties a relocation to the instruction whose bytes it patches. -/
def linkPatched (index : AddressIndex) (state : Linking) (id : SymbolId) (reloc : Relocation) :
    Linking :=
  match index.covering? state.chain reloc.sec reloc.offset with
  | some instr =>
    { state with
      chain := state.chain.update instr fun node =>
        { node with instr.relocs := node.instr.relocs ++ [id] }
      table := state.table.updateReloc id fun reloc => { reloc with instr := some instr }
      summary.attached := state.summary.attached + 1 }
  | none =>
    if index.isCode reloc.sec then
      state.warn (.relocationOutsideInstruction reloc.sec reloc.offset)
    else
      state

/-- Ties a relocation of the section symbol of a code section to the instruction that it refers
to. -/
def linkReferred (index : AddressIndex) (state : Linking) (id : SymbolId) (symbol : Symbol)
    (reloc : Relocation) : Linking :=
  match symbol.sec with
  | none => state
  | some sec =>
    if symbol.kind != .wholeSection || !index.isCode sec then
      state
    else
      let addr := symbol.value + reloc.addend.toUInt64 + reloc.kind.pcBias.toUInt64
      match index.beginning? sec addr with
      | some instr =>
        { state.refer id instr with
          table := state.table.updateReloc id fun reloc => { reloc with target := some instr }
          summary.targets := state.summary.targets + 1 }
      | none => state.warn (.unlinkedRelocationTarget sec addr)

/-- Makes all ties of one record. -/
def linkRecord (index : AddressIndex) (withTargets : Bool) (state : Linking) (id : SymbolId) :
    Linking :=
  match state.table.get? id with
  | none => state
  | some symbol =>
    let state := linkSymbol index state id symbol
    match symbol.reloc with
    | none => state
    | some reloc =>
      let state := linkPatched index state id reloc
      if withTargets then linkReferred index state id symbol reloc else state

end Linking

/-- Ties all records of the table to the chain, in the order in which the table is written out;
`withTargets` says whether references into code relative to a section are tied too. -/
def linkSymbols (chain : Chain) (table : SymbolTable) (withTargets : Bool) :
    Except SymbolError Linking :=
  match AddressIndex.ofChain chain with
  | .error cause => .error (.chain cause)
  | .ok index =>
    .ok (table.ids.foldl (Linking.linkRecord index withTargets)
      ⟨chain, table, [], ⟨0, 0, 0⟩⟩)

end Splice
