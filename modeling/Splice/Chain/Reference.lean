import Splice.Chain.Basic

/-!
# Targets and back references

An instruction that jumps or calls names its target, or its table of targets; each
target lists in `targetedBy` the instructions that name it, each of them once. The
operations here change one side and keep the other in step: `j` is in the list of
`t` exactly if `j` names `t` as its target or in its table.

The operations are: `linkTarget` and `unlinkTarget` for the target, `setJumpTable` for the
table, `retargetAll`, which leads all jumpers of one instruction to another, and
`rebuildReferences`, which notes all of them anew, as is done once when code is loaded. Only
linked instructions are gone through when references are rebuilt, in the order of the code.
-/

namespace Splice

/-- Adds `jumper` to a list of jumpers unless it is there already. -/
def addReferrer (jumper : InstrId) (referrers : List InstrId) : List InstrId :=
  if referrers.contains jumper then referrers else referrers ++ [jumper]

namespace ChainM

/-- Lists `jumper` at `target`, which has to be present. -/
def noteReferrer (target jumper : InstrId) : ChainM Unit :=
  update target fun instr => { instr with targetedBy := addReferrer jumper instr.targetedBy }

/-- Strikes `jumper` from the list at `target` unless it still refers to it. A target that is not
present has no list to keep. -/
def dropReferrer (target jumper : InstrId) : ChainM Unit := do
  if (← instr jumper).refersTo target then
    return
  modify fun chain => chain.update target fun node =>
    { node with instr.targetedBy := node.instr.targetedBy.filter (· != jumper) }

/-- Clears the direct target of `jumper` and returns the old one. -/
def unlinkTarget (jumper : InstrId) : ChainM (Option InstrId) := do
  let old := (← instr jumper).target
  update jumper fun instr => { instr with target := none }
  match old with
  | some target => dropReferrer target jumper
  | none => pure ()
  return old

/-- Points `jumper` at `target`; both have to be present. -/
def linkTarget (jumper target : InstrId) : ChainM Unit := do
  let _ ← node target
  let _ ← unlinkTarget jumper
  update jumper fun instr => { instr with target := some target }
  noteReferrer target jumper

/-- Replaces the table of `jumper`; every entry has to be present. -/
def setJumpTable (jumper : InstrId) (entries : List InstrId) : ChainM Unit := do
  entries.forM fun entry => discard (node entry)
  let old := (← instr jumper).jumpTable
  update jumper fun instr => { instr with jumpTable := [] }
  -- with the table empty, only a direct target still counts as named
  old.forM fun entry => dropReferrer entry jumper
  entries.forM fun entry => noteReferrer entry jumper
  update jumper fun instr => { instr with jumpTable := entries }

end ChainM

/-- The instruction with every reference to `source` turned into one to `dest`. -/
def Instruction.redirectedTo (instr : Instruction) (source dest : InstrId) : Instruction :=
  { instr with
    target := instr.target.map fun id => if id = source then dest else id
    jumpTable := instr.jumpTable.map fun id => if id = source then dest else id }

namespace ChainM

/-- Moves every jumper of `source`, direct or through a table, over to `dest`. -/
def retargetAll (source dest : InstrId) : ChainM Unit := do
  if source = dest then
    return
  let _ ← node dest
  let jumpers := (← instr source).targetedBy
  update source fun instr => { instr with targetedBy := [] }
  jumpers.forM fun jumper => do
    update jumper (·.redirectedTo source dest)
    noteReferrer dest jumper

/-- Recomputes every list of jumpers of the linked instructions from their targets and tables. -/
def rebuildReferences : ChainM Unit := do
  let ids := (← get).ids
  ids.forM fun id => update id fun instr => { instr with targetedBy := [] }
  ids.forM fun jumper => do
    (← instr jumper).references.forM fun target => noteReferrer target jumper

end ChainM

end Splice
