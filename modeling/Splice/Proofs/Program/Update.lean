import Splice.Proofs.Instruction.Promotion
import Splice.Proofs.Program.Shift
import Splice.Proofs.Program.Writing

/-!
# What an update keeps

The local update and the full one are made of the same few steps: an instruction is moved, an
instruction is encoded anew, and functions are given other addresses and sizes. So a relation
between sessions that every such step keeps is kept by both updates as a whole. That is
proved here once for any `UpdateRelation`; `Session.Carries` is the first of them.

There are two kinds of relation. A `MoveRelation` is kept by all steps that encode nothing anew,
and so by shifts and by the layout. An `UpdateRelation` is kept by writing and widening as well,
and so by rounds, passes and `finalize`. A module that needs another invariant of updates proves
two or three step lemmas and takes the rest from here.
-/

namespace Splice

/-- The instruction has another encoding, which is not empty. -/
structure Instruction.Recoded (a b : Instruction) : Prop where
  eq : b = { a with bytes := b.bytes, opcodeSize := b.opcodeSize }
  filled : b.bytes ≠ []

theorem Instruction.Recoded.carried {a b : Instruction} (h : a.Recoded b) : a.Carried b := by
  rw [h.eq]
  exact ⟨rfl, rfl, rfl, rfl, rfl, rfl, rfl, rfl⟩

namespace EngineM

/-- A relation that holds between a session and itself, and across each step of an update that encodes
nothing anew. -/
structure MoveRelation (r : Session → Session → Prop) : Prop extends StepRelation r where
  move : ∀ id addr, Keeps r (moveInstruction id addr)
  measure : ∀ (s : Session) (functions : FunctionTable), s.program.functions.Carries functions →
    r s (s.withFunctions functions)
  same : ∀ {s t : Session}, t.program = s.program → r s t

/-- A relation that holds across each step of an update. -/
structure UpdateRelation (r : Session → Session → Prop) : Prop extends MoveRelation r where
  recode : ∀ (s : Session) (id : InstrId) (f : Instruction → Instruction),
    (∀ instr : Instruction, instr.Recoded (f instr)) →
    r s (s.withChain (s.program.chain.adjust (Chain.only id f)))

variable {r : Session → Session → Prop} {s t : Session} {jumper : InstrId}

/-- Measuring a function changes its address and size and nothing else. -/
theorem measured_carried {chain : Chain} {function after : Function}
    (h : measured chain function = .ok after) : function.Carried after := by
  unfold measured at h
  cases hfirst : function.first with
  | none =>
    rw [hfirst] at h
    obtain rfl := Except.ok.inj h
    exact .refl function
  | some first =>
    rw [hfirst] at h
    simp only [bind_eq_ok, pure_eq_ok] at h
    obtain ⟨_, -, _, -, rfl⟩ := h
    exact ⟨hfirst.symm, rfl, rfl, rfl⟩

/-- Each function of a table is what an action on all of them makes of it. -/
theorem get?_of_mapM {ε : Type} {f : Function → Except ε Function} {table : FunctionTable}
    {after : List Function} (h : table.functions.toList.mapM f = .ok after) (id : FuncId) :
    Option.Rel (fun a b => f a = .ok b) (table.get? id) (FunctionTable.get? ⟨after.toArray⟩ id) := by
  have hget := congrArg (·[id.index]?) (mapM_eq_ok.mp h)
  simp only [List.getElem?_map, Array.getElem?_toList] at hget
  have hafter : FunctionTable.get? ⟨after.toArray⟩ id = after[id.index]? := List.getElem?_toArray
  rw [hafter, FunctionTable.get?]
  cases hfunction : table.functions[id.index]? with
  | none =>
    rw [hfunction, Option.map_none, eq_comm, Option.map_eq_none_iff] at hget
    rw [hget]
    exact .none
  | some function =>
    rw [hfunction, Option.map_some, eq_comm, Option.map_eq_some_iff] at hget
    obtain ⟨function', hfunction', hrun⟩ := hget
    rw [hfunction']
    exact .some hrun.symm

theorem measuredAll_carries {chain : Chain} {table : FunctionTable} {after : List Function}
    (h : table.functions.toList.mapM (measured chain) = .ok after) :
    table.Carries ⟨after.toArray⟩ :=
  fun id => rel_mono (get?_of_mapM h id) fun _ _ => measured_carried

/-- An encoding with a displacement is not empty. -/
theorem filled_of_write? {source : Instruction} {field : DisplacementField} {disp : Int64}
    {bytes : List UInt8} (hfield : source.displacementField? = some field)
    (h : field.write? source.bytes disp = some bytes) : bytes ≠ [] := by
  obtain ⟨-, hend, hwidth⟩ := Encoding.displacementField?_eq_some hfield
  have hpos : 0 < field.width := by
    simp only [List.mem_cons, List.not_mem_nil, or_false] at hwidth
    omega
  refine List.ne_nil_of_length_pos ?_
  rw [DisplacementField.length_write? h]
  omega

namespace MoveRelation

theorem program (hr : MoveRelation r) : Keeps r program :=
  Keeps.of_state_eq hr.toStepRelation fun h => (program_ok.mp h).2.symm

theorem count (hr : MoveRelation r) {measure : Measure} {amount : Nat} :
    Keeps r (count measure amount) := by
  intro s u t h
  rw [EngineM.count, modify_ok] at h
  exact hr.same (congrArg (·.program) h)

theorem countPasses (hr : MoveRelation r) {passes : Nat} : Keeps r (countPasses passes) := by
  intro s u t h
  rw [EngineM.countPasses, modify_ok] at h
  exact hr.same (congrArg (·.program) h)

theorem updateOwner (hr : MoveRelation r) {owner : Option FuncId} {f : Function → Function}
    (hf : ∀ function : Function, function.Carried (f function)) : Keeps r (updateOwner owner f) := by
  intro s u t h
  rw [updateOwner_ok h]
  cases owner with
  | none => exact hr.refl s
  | some owner => exact hr.measure s _ (.update hf)

theorem shiftInstruction (hr : MoveRelation r) {id : InstrId} {delta : Int64} :
    Keeps r (shiftInstruction id delta) := by
  have hstep := hr.toStepRelation
  refine Keeps.bind hstep ?_ fun found => ?_
  · exact Keeps.of_state_eq hstep fun h => (instr_ok.mp h).2.symm
  · refine Keeps.bind hstep (Keeps.discard (hr.move id _)) fun _ => hr.updateOwner fun function => ?_
    exact (Function.startingAt_carried id _ function).1

/-- Any relation that the moves of single instructions keep, a shift keeps. -/
theorem applyShift (hr : MoveRelation r) {shift : Shift} : Keeps r (applyShift shift) := by
  have hstep := hr.toStepRelation
  refine Keeps.bind hstep (hr.updateOwner fun _ => ⟨rfl, rfl, rfl, rfl⟩) fun _ => ?_
  by_cases hzero : shift.delta = 0
  · rw [if_pos hzero]
    exact Keeps.pure hstep []
  · rw [if_neg hzero]
    refine Keeps.bind hstep hr.program fun _ => ?_
    exact Keeps.bind hstep (Keeps.forM hstep fun _ _ => hr.shiftInstruction) fun _ =>
      Keeps.pure hstep _

/-- Any relation that the moves of single instructions keep, the layout keeps. -/
theorem updateAddresses (hr : MoveRelation r) : Keeps r updateAddresses := by
  have hstep := hr.toStepRelation
  intro s summary t h
  simp only [EngineM.updateAddresses, bind_ok, program_ok, liftResult_ok, updateProgram_ok,
    pure_ok] at h
  obtain ⟨_, _, ⟨rfl, rfl⟩, moved, m, hmoves, _, _, ⟨rfl, rfl⟩, functions, _, ⟨hmeasured, rfl⟩, _, _,
    rfl, -, rfl⟩ := h
  have hmoved : r s m := Keeps.mapM hstep (fun entry _ => hr.move entry.1 entry.2.2) hmoves
  exact hr.trans hmoved (hr.measure m _ (measuredAll_carries hmeasured))

end MoveRelation

namespace UpdateRelation

/-! ## The local update -/

/-- Whichever way writing a displacement ends, it is one of the steps that the relation holds across. -/
theorem writeRun (hr : UpdateRelation r) {write : DisplacementWrite} (h : WriteRun s jumper write t) :
    r s t := by
  cases h with
  | indirect => exact hr.refl s
  | apart => exact hr.refl s
  | overflow => exact hr.refl s
  | written _ _ hfield write =>
    exact hr.recode s jumper _ fun _ => ⟨rfl, filled_of_write? hfield write⟩

theorem jumperRun (hr : UpdateRelation r) {progress done : Progress}
    (h : JumperRun s jumper progress done t) : r s t := by
  cases h with
  | written run => exact hr.writeRun run
  | skipped => exact hr.refl s
  | widened _ _ _ _ _ promote =>
    refine hr.recode s jumper _ fun _ => ⟨rfl, List.ne_nil_of_length_pos ?_⟩
    exact Nat.zero_lt_of_lt (Encoding.promote?_eq_some promote).2.1

theorem settleJumper (hr : UpdateRelation r) {progress : Progress} :
    Keeps r (settleJumper progress jumper) :=
  fun _ _ _ h => hr.jumperRun (settleJumper_ok h)

theorem settleLinked (hr : UpdateRelation r) {progress : Progress} :
    Keeps r (settleLinked progress jumper) := by
  refine Keeps.bind hr.toStepRelation hr.program fun current => ?_
  by_cases hlinked : current.chain.isLinked jumper = true
  · rw [if_pos hlinked]
    exact hr.settleJumper
  · rw [if_neg hlinked]
    exact Keeps.pure hr.toStepRelation progress

theorem settleRound (hr : UpdateRelation r) {round : List Shift} : Keeps r (settleRound round) := by
  have hstep := hr.toStepRelation
  refine Keeps.bind hstep (Keeps.mapM hstep fun _ _ => hr.applyShift) fun moved => ?_
  refine Keeps.bind hstep hr.program fun current => ?_
  refine Keeps.bind hstep (Keeps.liftResult hstep) fun affected => ?_
  refine Keeps.bind hstep (Keeps.foldlM hstep (fun _ _ _ => hr.settleLinked) _) fun done => ?_
  exact Keeps.pure hstep _

/-- Any relation that the steps keep, rounds keep. -/
theorem settleRounds (hr : UpdateRelation r) {steps : Nat} {summary : UpdateSummary}
    {round : List Shift} : Keeps r (settleRounds summary steps round) := by
  have hstep := hr.toStepRelation
  induction steps generalizing summary round with
  | zero =>
    cases round with
    | nil => exact Keeps.pure hstep summary
    | cons shift round => exact Keeps.bind hstep hr.program fun _ => Keeps.throw _
  | succ steps ih =>
    cases round with
    | nil => exact Keeps.pure hstep summary
    | cons shift round => exact Keeps.bind hstep hr.settleRound fun _ => ih

/-- Both updates end by counting what was widened, if anything was. -/
theorem counted (hr : UpdateRelation r) (summary : UpdateSummary) :
    Keeps r (do
      if summary.promoted > 0 then
        EngineM.count .jumpsPromoted summary.promoted
      return summary : EngineM UpdateSummary) := by
  by_cases hpromoted : summary.promoted > 0
  · simp only [hpromoted, if_true]
    exact Keeps.bind hr.toStepRelation hr.count fun _ => Keeps.pure hr.toStepRelation _
  · simp only [hpromoted, if_false]
    exact Keeps.pure hr.toStepRelation _

theorem settle (hr : UpdateRelation r) {shift : Shift} : Keeps r (settle shift) := by
  refine Keeps.bind hr.toStepRelation hr.program fun current => ?_
  exact Keeps.bind hr.toStepRelation hr.settleRounds hr.counted

/-! ## The full update -/

theorem displacementPass (hr : UpdateRelation r) : Keeps r displacementPass := by
  have hstep := hr.toStepRelation
  refine Keeps.bind hstep hr.program fun current => ?_
  exact Keeps.bind hstep (Keeps.foldlM hstep (fun _ _ _ => hr.settleJumper) _) fun _ =>
    Keeps.pure hstep _

/-- Any relation that the steps keep, passes keep. -/
theorem displacementPasses (hr : UpdateRelation r) {steps : Nat} {summary : UpdateSummary} :
    Keeps r (displacementPasses summary steps) := by
  have hstep := hr.toStepRelation
  induction steps generalizing summary with
  | zero => exact Keeps.bind hstep hr.program fun _ => Keeps.throw _
  | succ steps ih =>
    refine Keeps.bind hstep hr.displacementPass fun pass => ?_
    obtain ⟨written, widened⟩ := pass
    by_cases hwidened : widened = 0
    · simp only [hwidened, if_true]
      exact Keeps.pure hstep _
    · simp only [hwidened, if_false]
      exact Keeps.bind hstep hr.updateAddresses fun _ => ih

theorem updateDisplacements (hr : UpdateRelation r) : Keeps r updateDisplacements := by
  have hstep := hr.toStepRelation
  refine Keeps.bind hstep hr.program fun current => ?_
  refine Keeps.bind hstep hr.displacementPasses fun summary => ?_
  exact Keeps.bind hstep hr.countPasses fun _ => hr.counted summary

/-- Any relation that the steps keep, finalizing keeps. -/
theorem finalize (hr : UpdateRelation r) : Keeps r finalize := by
  have hstep := hr.toStepRelation
  refine Keeps.bind hstep hr.updateAddresses fun layout => ?_
  refine Keeps.bind hstep hr.updateDisplacements fun displacements => ?_
  refine Keeps.bind hstep hr.program fun current => ?_
  by_cases hverify : current.config.verify = true
  · simp only [hverify, if_true]
    exact Keeps.bind hstep (Keeps.liftResult hstep) fun _ => Keeps.pure hstep _
  · rw [if_neg hverify]
    exact Keeps.pure hstep _

end UpdateRelation

end EngineM

/-- Updates change addresses and encodings of instructions and addresses and sizes of functions. -/
theorem Session.Carries.updateRelation : EngineM.UpdateRelation Session.Carries where
  toStepRelation := Session.Carries.stepRelation
  move id addr := by
    intro s moved t h
    obtain ⟨found, -, -, -, hsame⟩ := EngineM.moveInstruction_ok h
    refine Session.Carries.trans (Session.carries_withChain fun x i => ?_) hsame.carries
    unfold Chain.only
    split <;> exact ⟨rfl, rfl, rfl, rfl, rfl, rfl, rfl, rfl⟩
  recode s id f hf := by
    refine Session.carries_withChain fun x i => ?_
    unfold Chain.only
    split
    · exact (hf i).carried
    · exact .refl i
  measure s functions hfunctions := ⟨.refl (fun _ => .refl) _, hfunctions, rfl, rfl, rfl⟩
  same := by
    intro s t h
    exact (⟨by rw [h], by rw [h], by rw [h], by rw [h], by rw [h]⟩ : Session.SameCode s t).carries

end Splice
