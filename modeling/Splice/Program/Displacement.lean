import Splice.Program.Check

/-!
# Displacements

Every direct jump or call has to encode the way to its physical target. When code
moves, the displacements of the moved jumpers and of all jumpers that land on moved
code are written anew. A short jump that no longer reaches is widened, which moves the
code behind it in turn.

There are two ways to get there. `settle` works locally: it shifts the code behind an
edit and goes on in rounds, where the jumps widened in one round are the shifts of the
next. `finalize` works on everything: it lays out all sections, writes all
displacements, and starts over while jumps are being widened. Both stop when nothing
is left to widen; the number of rounds or passes is bounded by the configuration.

Notes on the model:
* rounds and passes are recursions on the number of them that is allowed, and running out of
  them is the error that names the bound;
* the shifts of a round are carried out in the order in which their jumps were widened, and the
  jumpers they affect are collected after that, each once;
* a shift behind an instruction goes on to the first instruction of another section and no
  further;
* the distance of a jump is a difference of words read as a signed number, so it is the shorter
  way around the address space.
-/

namespace Splice

namespace Program

/-- The jumpers whose displacement leads to an instruction, and the instruction itself if it is a
direct jumper: jumpers of it and of the logical targets redirected to it that resolve to it, and
jumpers with an override onto it. -/
def jumpersOnto (program : Program) (id : InstrId) : Except ChainError (List InstrId) := do
  let instr ← program.chain.get id
  let own := if instr.isDirectTransfer then [id] else []
  let landing ← (id :: program.redirects.sourcesOf id).mapM fun logical => do
    return (← program.chain.get logical).targetedBy.filter fun jumper =>
      program.redirects.resolve jumper logical == id
  return own ++ landing.flatten ++ program.redirects.overridesOnto id

/-- The jumpers whose displacement may change when the given instructions move, each of them once. -/
def jumpersInto (program : Program) (moved : List InstrId) :
    Except ChainError (List InstrId) := do
  return (← moved.mapM program.jumpersOnto).flatten.eraseDups

end Program

/-- What came of writing a displacement. -/
inductive DisplacementWrite where
  | written
  | overflow (disp : Int64)
  /-- Not a direct transfer, or one into another section. -/
  | skipped
deriving DecidableEq

/-- Code to be shifted because an instruction in front of it changed its size. -/
structure Shift where
  /-- The first instruction to move. -/
  first : Option InstrId
  sec : SectionId
  /-- The function whose size changed. -/
  func : Option FuncId
  delta : Int64
  /-- Instructions whose displacement has to be written even if they do not move. -/
  edited : List InstrId
deriving DecidableEq

namespace EngineM

/-- The error for a displacement that does not fit. -/
def overflowError (instr : Instruction) (disp : Int64) : Error :=
  .chain (.displacementOverflow instr.addr disp ((instr.displacementField?.map (·.width)).getD 0))

/-- The physical target of a jumper, which has to be linked. -/
def physicalTarget (jumper logical : InstrId) : EngineM Instruction := do
  let current ← program
  let physical := current.redirects.resolve jumper logical
  match current.chain.get? physical with
  | some target =>
    if current.chain.isLinked physical then
      return target
    throw (.graph (.brokenTarget jumper physical))
  | none => throw (.graph (.brokenTarget jumper physical))

/-- Writes the displacement of a direct transfer to its physical target within the same section. -/
def writeDisplacement (jumper : InstrId) : EngineM DisplacementWrite := do
  let source ← instr jumper
  match source.target with
  | none => return .skipped
  | some logical =>
    if !source.isDirectTransfer then
      return .skipped
    let target ← physicalTarget jumper logical
    if target.sec != source.sec then
      return .skipped
    match source.displacementField? with
    | none => throw (.chain (.noDisplacementField source.addr))
    | some field =>
      let disp := (target.addr - source.endAddr).toInt64
      if !field.fits disp then
        return .overflow disp
      match field.write? source.bytes disp with
      | none => throw (.chain (.noDisplacementField source.addr))
      | some bytes =>
        updateInstr jumper fun instr => { instr with bytes := bytes }
        return .written

/-- Writes the displacement of a direct transfer; one that does not fit is an error. -/
def setDisplacement (jumper : InstrId) : EngineM Unit := do
  match ← writeDisplacement jumper with
  | .written | .skipped => return
  | .overflow disp => throw (overflowError (← instr jumper) disp)

/-- Widens a short jump whose displacement `disp` does not fit, and returns by how many bytes it
grew. -/
def promote (jumper : InstrId) (disp : Int64) : EngineM Int64 := do
  let short ← instr jumper
  if !(← program).config.promote || !short.isShortJump then
    throw (overflowError short disp)
  match Encoding.promote? short.bytes short.opcodeSize with
  | none => throw (.chain (.unpromotable short.addr))
  | some long =>
    updateInstr jumper fun instr =>
      { instr with bytes := long.bytes, opcodeSize := long.opcodeSize }
    return Int64.ofInt ((long.bytes.length : Int) - short.bytes.length)

/-- Moves an instruction by `delta`, and its function along if it is the first of it. -/
def shiftInstruction (id : InstrId) (delta : Int64) : EngineM Unit := do
  let found ← instr id
  let addr := found.addr + delta.toUInt64
  discard (moveInstruction id addr)
  updateOwner found.func fun function =>
    if function.first = some id then { function with addr := addr } else function

/-- Carries out a shift: the function grows, and the code from the first instruction to the end of
the section moves. Returns the instructions that moved. -/
def applyShift (shift : Shift) : EngineM (List InstrId) := do
  updateOwner shift.func fun function =>
    { function with size := function.size + shift.delta.toUInt64 }
  if shift.delta = 0 then
    return []
  let chain := (← program).chain
  let ids := (chain.walk shift.first).takeWhile fun id =>
    (chain.get? id).any fun instr => instr.sec == shift.sec
  ids.forM fun id => shiftInstruction id shift.delta
  return ids

/-- The shift that follows from a change of size of one instruction. -/
def shiftBehind (id : InstrId) (delta : Int64) : EngineM Shift := do
  let found ← node id
  return ⟨found.next, found.instr.sec, found.instr.func, delta, [id]⟩

/-- What a round or pass has done so far: the displacements written, and the shifts that follow from
the jumps widened. -/
abbrev Progress := Nat × List Shift

/-- Writes the displacement of a jumper, or widens the jumper if it does not reach. -/
def settleJumper (progress : Progress) (jumper : InstrId) : EngineM Progress := do
  match ← writeDisplacement jumper with
  | .written => return (progress.1 + 1, progress.2)
  | .skipped => return progress
  | .overflow disp =>
    let growth ← promote jumper disp
    return (progress.1, progress.2 ++ [← shiftBehind jumper growth])

/-- As `settleJumper`, for jumpers that are still linked. -/
def settleLinked (progress : Progress) (jumper : InstrId) : EngineM Progress := do
  if (← program).chain.isLinked jumper then settleJumper progress jumper else return progress

/-- Carries out the shifts of a round and settles all jumpers that they affect. Returns what was done
and the shifts of the next round. -/
def settleRound (round : List Shift) : EngineM (UpdateSummary × List Shift) := do
  -- all shifts come first, so that no displacement is computed from half of them
  let moved := (← round.mapM applyShift).flatten
  let affected ← liftResult .chain ((← program).jumpersInto moved)
  let jumpers := (affected ++ round.flatMap (·.edited)).eraseDups
  let (written, next) ← jumpers.foldlM settleLinked (0, [])
  return (⟨moved.length, written, next.length, 1⟩, next)

/-- Settles rounds of shifts until none is left, at most `steps` of them. -/
def settleRounds (summary : UpdateSummary) : (steps : Nat) → List Shift → EngineM UpdateSummary
  | _, [] => return summary
  | 0, _ :: _ => do throw (.promotionDidNotConverge (← program).config.maxPasses)
  | steps + 1, round@(_ :: _) => do
    let (done, next) ← settleRound round
    settleRounds (summary + done) steps next

/-- Carries out a shift and every shift that follows from it. -/
def settle (shift : Shift) : EngineM UpdateSummary := do
  let summary ← settleRounds .zero (← program).config.maxPasses [shift]
  if summary.promoted > 0 then
    count .jumpsPromoted summary.promoted
  return summary

/-- Shifts the code behind an instruction whose size has changed by `delta`. -/
def shiftAddresses (edited : InstrId) (delta : Int64) : EngineM UpdateSummary := do
  settle (← shiftBehind edited delta)

/-- Writes the displacements of all direct transfers. Returns how many were written and how many
jumps were widened instead. -/
def displacementPass : EngineM (Nat × Nat) := do
  let jumpers := (← program).chain.entries.filter fun entry => entry.2.isDirectTransfer
  let (written, widened) ← (jumpers.map (·.1)).foldlM settleJumper (0, [])
  return (written, widened.length)

/-- Writes all displacements, and lays out the code and starts over while jumps are being widened, at
most `steps` times. -/
def displacementPasses (summary : UpdateSummary) : (steps : Nat) → EngineM UpdateSummary
  | 0 => do throw (.promotionDidNotConverge (← program).config.maxPasses)
  | steps + 1 => do
    let (written, widened) ← displacementPass
    let summary := summary + ⟨0, written, widened, 1⟩
    if widened = 0 then
      return summary
    displacementPasses (summary + (← updateAddresses)) steps

/-- Writes all displacements and widens the short jumps that do not reach. -/
def updateDisplacements : EngineM UpdateSummary := do
  let summary ← displacementPasses .zero (← program).config.maxPasses
  countPasses summary.passes
  if summary.promoted > 0 then
    count .jumpsPromoted summary.promoted
  return summary

/-- Lays out all code and writes all displacements, and checks the result if that is configured. -/
def finalize : EngineM UpdateSummary := do
  let layout ← updateAddresses
  let displacements ← updateDisplacements
  let current ← program
  if current.config.verify then
    liftResult id current.verify
  return layout + displacements

end EngineM

end Splice
