import Splice.Chain.Basic

/-!
# Packing the chain

A packed copy of a chain holds the linked instructions alone, in slots numbered in
the order of the code. Instructions get new names thereby: the new name of a linked
instruction is its position, and every other instruction has none. References are
renamed along; a linked instruction whose target or table names one that is not
linked cannot be packed, while jumpers that are not linked are forgotten.

Notes on the model: the new names are looked up in the list of the linked instructions, where
the engine keeps a table from old names to new ones; references are renamed in the order of the
code, targets in front of tables, so a refusal names the first one that leads nowhere.
-/

namespace Splice

/-- New names for the instructions of a chain: each survivor is named by its position. -/
structure Renaming where
  survivors : List InstrId
deriving DecidableEq

namespace Renaming

/-- The new name of `old`, if it survives. -/
def get? (names : Renaming) (old : InstrId) : Option InstrId :=
  (names.survivors.idxOf? old).map Handle.mk

/-- The new name of `old`, which has to survive. -/
def get (names : Renaming) (old : InstrId) : Except ChainError InstrId :=
  match names.get? old with
  | some new => .ok new
  | none => .error (.missingInstruction old)

/-- The new name of a handle that may be absent; one that is there has to survive. -/
def getOption (names : Renaming) : Option InstrId → Except ChainError (Option InstrId)
  | some old => some <$> names.get old
  | none => .ok none

/-- The instruction with its references renamed. -/
def apply (names : Renaming) (instr : Instruction) : Except ChainError Instruction := do
  let target ← names.getOption instr.target
  let jumpTable ← instr.jumpTable.mapM names.get
  return { instr with target, jumpTable, targetedBy := instr.targetedBy.filterMap names.get? }

end Renaming

namespace Chain

/-- The names that the linked instructions get by packing. -/
def packedNames (chain : Chain) : Renaming := ⟨chain.ids⟩

/-- The packed copy of the chain, and the new names in it. -/
def compact (chain : Chain) : Except ChainError (Chain × Renaming) := do
  let names := chain.packedNames
  let instrs ← chain.ids.mapM fun id => do names.apply (← chain.get id)
  return (ofList instrs, names)

end Chain

end Splice
