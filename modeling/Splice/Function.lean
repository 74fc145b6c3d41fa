import Splice.Chain.Compact
import Splice.Lookup

/-!
# Functions

A function is a run of the chain from its first to its last instruction. A function
without instructions stands for a callee that is defined elsewhere.

A function is looked up by an address of the *input*: among the defined functions of
the section the one with the greatest start not above the address, if the address
lies within its size.

Notes on the model:
* names, sections and input addresses are those that the object reader delivers; only bounds,
  address and size change later;
* the run of a function that has a first and no last instruction goes to the end of the code, as
  following the links until the last one is met does;
* `assign`, which stamps the instructions of each function and measures it, and `rename`, which
  takes new names of instructions over, are refused at the first instruction that is missing.
  What they would have left half done is not kept, because the load or the fork around them
  fails with them.
-/

namespace Splice

/-- A named run of the chain. -/
structure Function where
  name : String
  sec : SectionId
  first : Option InstrId
  last : Option InstrId
  /-- Start address in the input object. -/
  inputAddr : UInt64
  /-- Start address in the output object. -/
  addr : UInt64
  /-- Number of bytes in the output object. -/
  size : UInt64
  /-- The symbol that names the function. -/
  symbol : Option SymbolId
deriving DecidableEq, Inhabited

namespace Function

/-- A function at its input address, not yet measured; `range` is its first and last
instruction. -/
def declared (name : String) (sec : SectionId) (range : Option (InstrId × InstrId))
    (inputAddr : UInt64) : Function where
  name := name
  sec := sec
  first := range.map (·.1)
  last := range.map (·.2)
  inputAddr := inputAddr
  addr := inputAddr
  size := 0
  symbol := none

/-- The function has instructions in this object. -/
def isDefined (function : Function) : Bool := function.first.isSome

/-- The instructions of the function in the order of the code. -/
def instructions (function : Function) (chain : Chain) : List InstrId :=
  chain.run function.first function.last

end Function

/-- The functions of a program, named by their position. -/
structure FunctionTable where
  functions : Array Function
deriving DecidableEq

namespace FunctionTable

def empty : FunctionTable := ⟨#[]⟩

instance : Inhabited FunctionTable := ⟨empty⟩

def size (table : FunctionTable) : Nat := table.functions.size

def get? (table : FunctionTable) (id : FuncId) : Option Function := table.functions[id.index]?

def get (table : FunctionTable) (id : FuncId) : Except ChainError Function :=
  match table.get? id with
  | some function => .ok function
  | none => .error (.missingFunction id)

/-- Changes the function `id`, if there is one. -/
def update (table : FunctionTable) (id : FuncId) (f : Function → Function) : FunctionTable :=
  ⟨table.functions.modify id.index f⟩

theorem get?_update (table : FunctionTable) (id other : FuncId) (f : Function → Function) :
    (table.update id f).get? other
      = if other = id then (table.get? id).map f else table.get? other := by
  by_cases h : other = id
  · subst h
    simp [get?, update, Array.getElem?_modify]
  · have hne : id.index ≠ other.index := fun he => h (Handle.ext_index he).symm
    simp [get?, update, Array.getElem?_modify, h, hne]

/-- Adds a function under the next free name. -/
def push (table : FunctionTable) (function : Function) : FunctionTable :=
  ⟨table.functions.push function⟩

/-- The functions with their names, in the order of the table. -/
def entries (table : FunctionTable) : List (FuncId × Function) :=
  table.functions.toList.zipIdx.map fun (function, index) => (⟨index⟩, function)

/-- The first function with the given name. -/
def byName? (table : FunctionTable) (name : String) : Option (FuncId × Function) :=
  table.entries.find? fun entry => entry.2.name == name

/-- The starts of the defined functions of a section, with their names. -/
def starts (table : FunctionTable) (sec : SectionId) : List (UInt64 × FuncId × Function) :=
  (table.entries.filter fun entry => entry.2.sec == sec && entry.2.isDefined).map
    fun entry => (entry.2.inputAddr, entry)

/-- The function of `sec` whose input range holds `inputAddr`. -/
def containing? (table : FunctionTable) (sec : SectionId) (inputAddr : UInt64) :
    Option FuncId := do
  let (start, id, function) ← floorEntry? (table.starts sec) inputAddr
  if inputAddr < start + function.size then some id else none

/-- The owner of an instruction: the function it is stamped with, else the one whose input range
holds its input address. -/
def ofInstr (table : FunctionTable) (chain : Chain) (id : InstrId) :
    Except ChainError (Option FuncId) := do
  let instr ← chain.get id
  return instr.func <|> table.containing? instr.sec instr.inputAddr

/-- Stamps the instructions of a function with its name and measures it. -/
def stamp (id : FuncId) (function : Function) : ChainM Function := do
  let ids := function.instructions (← getThe Chain)
  let sizes ← ids.mapM fun instrId => do
    ChainM.update instrId fun instr => { instr with func := some id }
    return (← ChainM.instr instrId).size
  return { function with size := sizes.sum }

/-- Stamps each instruction with its owner and records the size of every function. -/
def assign (table : FunctionTable) : ChainM FunctionTable := do
  let functions ← table.entries.mapM fun (id, function) => stamp id function
  return ⟨functions.toArray⟩

/-- The table with its bounds named as in the packed chain. -/
def rename (table : FunctionTable) (names : Renaming) : Except ChainError FunctionTable := do
  let functions ← table.functions.toList.mapM fun function => do
    let first ← names.getOption function.first
    let last ← names.getOption function.last
    return { function with first, last }
  return ⟨functions.toArray⟩

end FunctionTable

end Splice
