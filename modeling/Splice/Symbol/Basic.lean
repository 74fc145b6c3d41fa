import Splice.Instruction.Basic

/-!
# Symbols and relocations

An object file lists symbols, and relocations that name a symbol by its index. Each
is read as a flat record (`RawSymbol`, `RawRelocation`) and kept as a `Symbol`: the
meaning of the numbers of the record, the instruction found at its value, and at
most one `Relocation`. Several relocations against one symbol are several records
that share a base, which is the business of `Splice.Symbol.Table`.

`Symbol.ofRaw` and `Relocation.ofRaw` give numbers their meaning and keep the numbers that have
none. `RelocKind.pcBias` is what the distance of a displacement relative to the next instruction
differs from the addend by.

Notes on the model: numbers of relocation types that nothing tells apart are kept as one case
with the number; a name is text, already read from its table.
-/

namespace Splice

/-- What a symbol stands for. -/
inductive SymbolKind where
  | noType
  | data
  | function
  /-- Stands for a whole section; references into a section go through it. -/
  | wholeSection
  | file
  /-- Referred to but defined in another object. -/
  | undefined
  | threadLocal
deriving DecidableEq, Inhabited

/-- Who may refer to a symbol. -/
inductive Binding where
  /-- This object only. -/
  | internal
  | global
  | weak
deriving DecidableEq, Inhabited

/-- Where the addend of a relocation is kept. -/
inductive AddendKind where
  /-- In the relocation entry. -/
  | explicit
  /-- In the bytes that are patched. -/
  | embedded
deriving DecidableEq, Inhabited

/-- The number of a relocation type. -/
structure RelocKind where
  code : UInt32
deriving DecidableEq, Inhabited

namespace RelocKind

/-- The types that are computed against the place of the patch: `PC32`, `PLT32`, `GOTPCREL`,
`PC64`, `GOTPCRELX` and `REX_GOTPCRELX` in the numbering of x86-64. -/
def isPcRelative (kind : RelocKind) : Bool := [2, 4, 9, 24, 41, 42].contains kind.code

/-- What has to be added to value and addend to obtain the address referred to. A relative type
counts from the end of its four-byte field. -/
def pcBias (kind : RelocKind) : Int64 := if kind.isPcRelative then 4 else 0

end RelocKind

/-- A relocation as the object file lists it. -/
structure RawRelocation where
  sec : SectionId
  offset : UInt64
  /-- Index into the symbol list. -/
  symbol : UInt32
  kind : UInt32
  addend : Int64
  addendKind : AddendKind
deriving DecidableEq, Inhabited

/-- A symbol as the object file lists it. -/
structure RawSymbol where
  name : String
  /-- Binding in the upper half, type in the lower half. -/
  info : UInt8
  size : UInt64
  /-- Number of the defining section, or one of the numbers reserved for symbols without one. -/
  sec : SectionId
  value : UInt64
deriving DecidableEq, Inhabited

/-- A relocation with the instructions it touches. -/
structure Relocation where
  /-- The section that is patched. -/
  sec : SectionId
  /-- Place of the patch within the section. -/
  offset : UInt64
  addend : Int64
  kind : RelocKind
  addendKind : AddendKind
  /-- The instruction whose bytes are patched. -/
  instr : Option InstrId
  /-- The instruction that is referred to, for references into code relative to a section. -/
  target : Option InstrId
deriving DecidableEq, Inhabited

/-- The relocation of a raw record, not yet tied to any instruction. -/
def Relocation.ofRaw (raw : RawRelocation) : Relocation where
  sec := raw.sec
  offset := raw.offset
  addend := raw.addend
  kind := ⟨raw.kind⟩
  addendKind := raw.addendKind
  instr := none
  target := none

/-- A record of the symbol table. -/
structure Symbol where
  name : String
  kind : SymbolKind
  binding : Binding
  size : UInt64
  /-- The defining section; none for undefined, absolute and common symbols. -/
  sec : Option SectionId
  value : UInt64
  /-- Position in the symbol list of the object. -/
  index : UInt32
  /-- The first record of the same symbol; a base record names itself. -/
  base : SymbolId
  duplicate : Bool
  /-- Some relocation has claimed the record. -/
  referenced : Bool
  reloc : Option Relocation
  /-- The instruction at the value of the symbol. -/
  instr : Option InstrId
deriving DecidableEq, Inhabited

namespace RawSymbol

/-- The binding and the type in the information byte. -/
def infoParts (info : UInt8) : UInt8 × UInt8 := (info >>> 4, info &&& 0xF)

/-- The section number of a symbol that is defined elsewhere. -/
def undefinedSection : SectionId := 0

/-- The symbol has a section of this object: its section number is not one of those for
undefined, absolute and common symbols. -/
def hasSection (raw : RawSymbol) : Bool := !([undefinedSection, 0xFFF1, 0xFFF2].contains raw.sec)

/-- The kind of the symbol at position `index` of the list. Files and sections are known by their
type; any other symbol without a section is undefined, except the first of the list. -/
def kind (raw : RawSymbol) (index : UInt32) : SymbolKind :=
  match (infoParts raw.info).2 with
  | 4 => .file
  | 3 => .wholeSection
  | type =>
    if raw.sec == undefinedSection && index != 0 then .undefined
    else match type with
      | 1 => .data
      | 5 => .data
      | 2 => .function
      | 6 => .threadLocal
      | _ => .noType

def binding (raw : RawSymbol) : Binding :=
  match (infoParts raw.info).1 with
  | 1 => .global
  | 2 => .weak
  | _ => .internal

end RawSymbol

namespace Symbol

/-- The base record with the name `id` of the symbol at position `index` of the list. -/
def ofRaw (id : SymbolId) (index : UInt32) (raw : RawSymbol) : Symbol where
  name := raw.name
  kind := raw.kind index
  binding := raw.binding
  size := raw.size
  sec := if raw.hasSection then some raw.sec else none
  value := raw.value
  index := index
  base := id
  duplicate := false
  referenced := false
  reloc := none
  instr := none

/-- The symbol is not a mere reference to another object. -/
def isDefined (symbol : Symbol) : Bool := symbol.kind != .undefined

def isFunction (symbol : Symbol) : Bool := symbol.kind == .function

end Symbol

end Splice
