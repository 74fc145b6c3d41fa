import Splice.Symbol.Basic
import Splice.Symbol.Warning
import Splice.Chain.Compact

/-!
# The symbol table

A record of the table carries at most one relocation. A symbol that several
relocations name therefore owns a *run* of records: its base record, and one
duplicate for each further relocation. The table is written out run by run, so the
records of a symbol stand together although a duplicate is stored last.

`claim` hands out the record for one more relocation: the base record the first
time, a new duplicate of the last record of the run from then on.

The operations are: `load`, which reads symbols and then relocations and reports relocations
without a symbol; `claim`, `byIndex?`, `byName?`, `position?` and `runOf?`, the lookups;
`resolved`, the list in which the table is written out; and `rename`, which takes new names of
instructions over and drops the ties to instructions without one.

Notes on the model: records are stored in one list with an index of runs beside it, as the
engine has it, so a duplicate comes last in the store and last in its run; `byName?` looks through
the base records in front only, for as many as were counted.
-/

namespace Splice

/-- Why an operation on the symbol table is refused. -/
inductive SymbolError where
  /-- The handle names no record of the table. -/
  | missingSymbol (id : SymbolId)
  /-- An operation on the code was refused. -/
  | chain (cause : ChainError)
deriving DecidableEq

def SymbolError.message : SymbolError → String
  | missingSymbol id => s!"symbol {id} not found (dangling handle)"
  | chain cause => cause.message

/-- The symbols of a program in the order in which they were added, grouped into runs. -/
structure SymbolTable where
  records : Array Symbol
  /-- The records of each symbol, base record first, in the order of the base records. -/
  runs : List (List SymbolId)
  /-- The number of base records in front of the first duplicate: below it, the position of a
  record is the position of its symbol in the object. -/
  baseCount : Nat
deriving DecidableEq

namespace SymbolTable

def empty : SymbolTable := ⟨#[], [], 0⟩

instance : Inhabited SymbolTable := ⟨empty⟩

/-- Number of records, duplicates included. -/
def size (table : SymbolTable) : Nat := table.records.size

def get? (table : SymbolTable) (id : SymbolId) : Option Symbol := table.records[id.index]?

def get (table : SymbolTable) (id : SymbolId) : Except SymbolError Symbol :=
  match table.get? id with
  | some symbol => .ok symbol
  | none => .error (.missingSymbol id)

/-- Changes the record `id`, if there is one. -/
def update (table : SymbolTable) (id : SymbolId) (f : Symbol → Symbol) : SymbolTable :=
  { table with records := table.records.modify id.index f }

theorem get?_update (table : SymbolTable) (id other : SymbolId) (f : Symbol → Symbol) :
    (table.update id f).get? other
      = if other = id then (table.get? id).map f else table.get? other := by
  by_cases h : other = id
  · subst h
    simp [get?, update, Array.getElem?_modify]
  · have hne : id.index ≠ other.index := fun he => h (Handle.ext_index he).symm
    simp [get?, update, Array.getElem?_modify, h, hne]

/-- Changes the relocation of the record `id`, if it has one. -/
def updateReloc (table : SymbolTable) (id : SymbolId) (f : Relocation → Relocation) :
    SymbolTable :=
  table.update id fun symbol => { symbol with reloc := symbol.reloc.map f }

/-- Adds a base record. It counts as a position of the object's list only while no duplicate has
been added. -/
def push (table : SymbolTable) (symbol : Symbol) : SymbolId × SymbolTable :=
  let id : SymbolId := ⟨table.records.size⟩
  (id,
    { records := table.records.push { symbol with base := id, duplicate := false }
      runs := table.runs ++ [[id]]
      baseCount :=
        if table.baseCount = table.records.size then table.baseCount + 1 else table.baseCount })

/-- The base record of the symbol at position `index` of the object's list. -/
def byIndex? (table : SymbolTable) (index : UInt32) : Option SymbolId :=
  if index.toNat < table.baseCount then some ⟨index.toNat⟩ else none

/-- The first base record with the given name, among those with a position in the object's
list. -/
def byName? (table : SymbolTable) (name : String) : Option SymbolId :=
  ((table.records.toList.take table.baseCount).findIdx? fun symbol => symbol.name == name).map
    Handle.mk

/-- The records in the order in which they are written out. -/
def ids (table : SymbolTable) : List SymbolId := table.runs.flatten

/-- The records with their names in the order in which they are written out. -/
def entries (table : SymbolTable) : List (SymbolId × Symbol) :=
  table.ids.filterMap fun id => (table.get? id).map fun symbol => (id, symbol)

/-- The relocations with the records that carry them, in the order in which they are written
out. -/
def relocations (table : SymbolTable) : List (SymbolId × Relocation) :=
  table.entries.filterMap fun (id, symbol) => symbol.reloc.map fun reloc => (id, reloc)

/-- The run whose base record is `base`, and its number. -/
def runOf? (table : SymbolTable) (base : SymbolId) : Option (Nat × List SymbolId) := do
  let number ← table.runs.findIdx? fun run => run.head? == some base
  return (number, ← table.runs[number]?)

/-- The position of a record in the order in which the table is written out. -/
def position? (table : SymbolTable) (id : SymbolId) : Option Nat := do
  let (number, run) ← table.runOf? (← table.get? id).base
  return (table.runs.take number).flatten.length + (← run.idxOf? id)

/-- The records of the symbol that the record `id` belongs to. -/
def run (table : SymbolTable) (id : SymbolId) : Except SymbolError (List SymbolId) := do
  let base := (← table.get id).base
  match table.runOf? base with
  | some (_, run) => return run
  | none => throw (.missingSymbol base)

/-- A copy of a record for one more relocation. It keeps the name and the value and gives up the
instructions that the relocation of the copied record touches. -/
def Symbol.duplicated (symbol : Symbol) : Symbol :=
  { symbol with
    duplicate := true
    referenced := true
    reloc := symbol.reloc.map fun reloc => { reloc with instr := none, target := none } }

/-- A record of the symbol of `id` for one more relocation: its base record if none has claimed
that, else a duplicate of the last record of its run, put behind it. -/
def claim (table : SymbolTable) (id : SymbolId) : Except SymbolError (SymbolId × SymbolTable) := do
  let base := (← table.get id).base
  if !(← table.get base).referenced then
    return (base, table.update base fun symbol => { symbol with referenced := true })
  match table.runOf? base with
  | none => throw (.missingSymbol base)
  | some (number, run) =>
    let last ← table.get (run.getLast?.getD base)
    let duplicate : SymbolId := ⟨table.records.size⟩
    return (duplicate,
      { table with
        records := table.records.push (Symbol.duplicated last)
        runs := table.runs.set number (run ++ [duplicate]) })

/-- The table of an object's symbols before any relocation is read. -/
def ofRawSymbols (symbols : List RawSymbol) : SymbolTable :=
  symbols.zipIdx.foldl
    (fun table (raw, index) => (table.push (.ofRaw ⟨index⟩ (UInt32.ofNat index) raw)).2) empty

/-- Gives a relocation a record of its own; one that names no symbol of the list is reported and
skipped. -/
def addRelocation (state : SymbolTable × List Warning) (raw : RawRelocation) :
    Except SymbolError (SymbolTable × List Warning) := do
  let (table, warnings) := state
  match table.byIndex? raw.symbol with
  | none =>
    return (table, warnings ++ [.unresolvedRelocation raw.sec raw.offset raw.symbol])
  | some base =>
    let (id, table) ← table.claim base
    return (table.update id fun symbol => { symbol with reloc := some (.ofRaw raw) }, warnings)

/-- The table of an object's symbols and relocations, with the warnings met on the way. -/
def load (symbols : List RawSymbol) (relocations : List RawRelocation) :
    Except SymbolError (SymbolTable × List Warning) :=
  relocations.foldlM addRelocation (ofRawSymbols symbols, [])

/-- A relocation as it is written out. -/
structure Resolved where
  /-- The record that carries the relocation. -/
  symbol : SymbolId
  /-- Position of the symbol in the object's list. -/
  symbolIndex : UInt32
  name : String
  sec : SectionId
  offset : UInt64
  addend : Int64
  kind : RelocKind
deriving DecidableEq

/-- The relocations in the order in which they are written out. -/
def resolved (table : SymbolTable) : List Resolved :=
  table.entries.filterMap fun (id, symbol) => symbol.reloc.map fun reloc =>
    { symbol := id
      symbolIndex := symbol.index
      name := symbol.name
      sec := reloc.sec
      offset := reloc.offset
      addend := reloc.addend
      kind := reloc.kind }

/-- The table with its instructions named as in the packed chain; a link to an instruction that
does not survive is dropped. -/
def rename (table : SymbolTable) (names : Renaming) : SymbolTable :=
  { table with
    records := table.records.map fun symbol =>
      { symbol with
        instr := symbol.instr.bind names.get?
        reloc := symbol.reloc.map fun reloc =>
          { reloc with
            instr := reloc.instr.bind names.get?
            target := reloc.target.bind names.get? } } }

end SymbolTable

end Splice
