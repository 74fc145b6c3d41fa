/-!
# Handles

Every object of a program (an instruction, a function, a symbol record, a basic
block, a control-flow edge) is named by its position in the store that holds it.
A handle carries the kind of object it names in its type, so a block can never be
looked up among the instructions, and it prints as one letter followed by the
position: `i3`, `f0`, `b12`.
-/

namespace Splice

/-- The kinds of object that are named by a handle. -/
inductive HandleKind where
  | instruction
  | function
  | symbol
  | block
  | edge
deriving DecidableEq

/-- The letter that opens the text of a handle. -/
def HandleKind.letter : HandleKind → String
  | .instruction => "i"
  | .function => "f"
  | .symbol => "s"
  | .block => "b"
  | .edge => "e"

/-- A name for the object at position `index` in the store of its kind. The position is unbounded here. Where
it is kept in 32 bits, this supposes that no store comes to hold 2^32 objects: with more, two objects would
share a name. -/
structure Handle (kind : HandleKind) where
  index : Nat
deriving DecidableEq, Inhabited

namespace Handle

variable {kind : HandleKind}

instance : ToString (Handle kind) := ⟨fun id => kind.letter ++ id.index.repr⟩

instance : LawfulBEq (Handle kind) := inferInstance

theorem ext_index {a b : Handle kind} (h : a.index = b.index) : a = b := by
  cases a; cases b; cases h; rfl

end Handle

abbrev InstrId := Handle .instruction
abbrev FuncId := Handle .function
abbrev SymbolId := Handle .symbol
abbrev BlockId := Handle .block
abbrev EdgeId := Handle .edge

end Splice
