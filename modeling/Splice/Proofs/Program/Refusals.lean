import Splice.Proofs.Program.Excision

/-!
# Why operations are refused

Nearly every step of an edit is refused for a cause that lies in one of the parts of the
program: the chain, the symbols, the blocks or the redirects (`Error.OfPart`). The causes that
are named for whole operations come from few places. A removal is refused because of the
blocks where `checkRemovable` and `shrinkBlock` say so and where there is no heir, and an
update gives up on widening jumps only when its rounds or passes are used up.

`Refuses p action` says that whatever `action` is refused for satisfies `p`, and passes through
sequencing and loops like `Keeps`. With it a refusal is traced to the one step that can give its
cause, which is how it is known that nothing was changed before
(`Splice.Proofs.Program.Atomicity`) and that an update is not refused for want of passes
(`Splice.Proofs.Program.Convergence`).
-/

namespace Splice

variable {ε δ σ τ α β : Type}

/-- Whenever the action is refused, it is for one of the causes. -/
def Refuses (causes : ε → Prop) (action : EStateM ε σ α) : Prop :=
  ∀ ⦃s : σ⦄ ⦃cause : ε⦄ ⦃t : σ⦄, action s = .error cause t → causes cause

/-- The run that begins in `s` is refused for `cause`. -/
def Fails [DecidableEq ε] (action : EStateM ε σ α) (s : σ) (cause : ε) : Bool :=
  match action s with
  | .ok _ _ => false
  | .error other _ => other = cause

/-- A run that was seen to fail with a cause is refused with that cause, in the state that it had
reached. -/
theorem Fails.error [DecidableEq ε] {action : EStateM ε σ α} {s : σ} {cause : ε}
    (h : Fails action s cause = true) : action s = .error cause (outcome action s) := by
  unfold Fails at h
  unfold outcome
  cases hrun : action s with
  | ok a t =>
    rw [hrun] at h
    cases h
  | error other t =>
    rw [hrun] at h
    rw [of_decide_eq_true h]

/-- A sequence is refused either by its first part, or by the second in the state that the first led to.
The proof runs the first part and compares both sides in each of the two outcomes. -/
theorem bind_eq_error {x : EStateM ε σ α} {f : α → EStateM ε σ β} {s t : σ} {cause : ε} :
    (x >>= f) s = .error cause t ↔ x s = .error cause t ∨ ∃ a m, x s = .ok a m ∧ f a m = .error cause t := by
  cases hrun : x s with
  | ok a m =>
    rw [bind_run hrun]
    constructor
    · intro h
      exact .inr ⟨a, m, rfl, h⟩
    · rintro (h | ⟨a', m', h, hf⟩)
      · cases h
      · cases h
        exact hf
  | error other m =>
    rw [bind_error hrun]
    constructor
    · intro h
      cases h
      exact .inl rfl
    · rintro (h | ⟨a', m', h, -⟩)
      · cases h
        rfl
      · cases h

namespace Refuses

variable {causes : ε → Prop}

/-- Causes that imply others may be replaced by those. -/
theorem mono {other : ε → Prop} {action : EStateM ε σ α} (h : Refuses causes action)
    (himp : ∀ cause, causes cause → other cause) : Refuses other action :=
  fun _ _ _ hrun => himp _ (h hrun)

theorem pure (a : α) : Refuses causes (pure a : EStateM ε σ α) := by
  intro s cause t h
  cases h

/-- An action that only raises a cause is refused for that cause alone. -/
theorem throw {cause : ε} (h : causes cause) : Refuses causes (throw cause : EStateM ε σ α) := by
  intro s other t hrun
  cases hrun
  exact h

theorem get : Refuses causes (get : EStateM ε σ σ) := by
  intro s cause t h
  cases h

theorem modify {f : σ → σ} : Refuses causes (modify f : EStateM ε σ PUnit) := by
  intro s cause t h
  cases h

/-- A sequence is refused for the causes for which its parts are, whatever the first of them returns. -/
theorem bind {x : EStateM ε σ α} {f : α → EStateM ε σ β} (hx : Refuses causes x)
    (hf : ∀ a, Refuses causes (f a)) : Refuses causes (x >>= f) := by
  intro s cause t h
  rcases bind_eq_error.mp h with h | ⟨a, m, -, h⟩
  · exact hx h
  · exact hf a h

/-- To forget what an action returns adds no cause. -/
theorem discard {x : EStateM ε σ α} (hx : Refuses causes x) : Refuses causes (discard x) := by
  intro s cause t h
  change EStateM.map (Function.const α PUnit.unit) x s = _ at h
  unfold EStateM.map at h
  cases hrun : x s with
  | ok a m =>
    rw [hrun] at h
    cases h
  | error other m =>
    rw [hrun] at h
    cases h
    exact hx hrun

/-- A choice is refused for the causes of its two branches. -/
theorem ite {c : Prop} [Decidable c] {x y : EStateM ε σ α} (hx : Refuses causes x)
    (hy : Refuses causes y) : Refuses causes (if c then x else y) := by
  by_cases hc : c
  · rw [if_pos hc]
    exact hx
  · rw [if_neg hc]
    exact hy

/-- A result that is taken into the engine is refused for the causes that it is wrapped in. -/
theorem liftResult {wrap : δ → ε} {x : Except δ α} (h : ∀ cause, causes (wrap cause)) :
    Refuses causes (liftResult wrap x : EStateM ε σ α) := by
  cases x with
  | ok a => exact pure a
  | error cause => exact throw (h cause)

/-- An action on a part of the state is refused for the wrapped causes of the action, whatever that action
itself is refused for. -/
theorem focus {part : σ → τ} {put : σ → τ → σ} {wrap : δ → ε} {action : EStateM δ τ α}
    (h : ∀ cause, causes (wrap cause)) : Refuses causes (focus part put wrap action) := by
  intro s cause t hrun
  unfold Splice.focus at hrun
  cases hinner : action (part s) with
  | ok a inner =>
    rw [hinner] at hrun
    cases hrun
  | error other inner =>
    rw [hinner] at hrun
    cases hrun
    exact h other

/-- A loop is refused for the causes of its body. -/
theorem forM {f : α → EStateM ε σ PUnit} (hf : ∀ x, Refuses causes (f x)) (xs : List α) :
    Refuses causes (xs.forM f) := by
  induction xs with
  | nil => exact pure _
  | cons x xs ih => exact bind (hf x) fun _ => ih

/-- A loop that carries a value is refused for the causes of its body, whatever value it has come to. -/
theorem foldlM {f : β → α → EStateM ε σ β} (hf : ∀ b x, Refuses causes (f b x)) (xs : List α) (b : β) :
    Refuses causes (xs.foldlM f b) := by
  induction xs generalizing b with
  | nil => exact pure b
  | cons x xs ih => exact bind (hf b x) ih

/-- A loop that collects results is refused for the causes of its body. -/
theorem mapM {f : α → EStateM ε σ β} (hf : ∀ x, Refuses causes (f x)) (xs : List α) :
    Refuses causes (xs.mapM f) := by
  induction xs with
  | nil => exact pure _
  | cons x xs ih =>
    rw [List.mapM_cons]
    exact bind (hf x) fun _ => bind ih fun _ => pure _

end Refuses

/-- Whenever the result is an error, it is one of the causes. -/
def Reports (causes : ε → Prop) (x : Except ε α) : Prop := ∀ ⦃cause : ε⦄, x = .error cause → causes cause

namespace Reports

variable {causes : ε → Prop}

theorem ok (a : α) : Reports causes (.ok a : Except ε α) := by
  intro cause h
  cases h

theorem error {cause : ε} (h : causes cause) : Reports causes (.error cause : Except ε α) := by
  intro other hx
  cases hx
  exact h

/-- A sequence of results reports what its parts report. -/
theorem bind {x : Except ε α} {f : α → Except ε β} (hx : Reports causes x)
    (hf : ∀ a, Reports causes (f a)) : Reports causes (x >>= f) := by
  cases x with
  | ok a => exact hf a
  | error cause => exact error (hx rfl)

/-- A wrapped result reports the wrapped causes only. -/
theorem mapError {wrap : δ → ε} {x : Except δ α} (h : ∀ cause, causes (wrap cause)) :
    Reports causes (x.mapError wrap) := by
  cases x with
  | ok a => exact ok a
  | error cause => exact error (h cause)

theorem forM {f : α → Except ε PUnit} (hf : ∀ x, Reports causes (f x)) (xs : List α) :
    Reports causes (xs.forM f) := by
  induction xs with
  | nil => exact ok _
  | cons x xs ih => exact bind (hf x) fun _ => ih

/-- A fold over results reports what its steps report. -/
theorem foldlM {f : β → α → Except ε β} (hf : ∀ b x, Reports causes (f b x)) (xs : List α) (b : β) :
    Reports causes (xs.foldlM f b) := by
  induction xs generalizing b with
  | nil => exact ok b
  | cons x xs ih => exact bind (hf b x) ih

theorem mapM {f : α → Except ε β} (hf : ∀ x, Reports causes (f x)) (xs : List α) :
    Reports causes (xs.mapM f) := by
  induction xs with
  | nil => exact ok _
  | cons x xs ih =>
    rw [List.mapM_cons]
    exact bind (hf x) fun _ => bind ih fun _ => ok _

/-- A result becomes an action that is refused for what the result reports. -/
theorem refuses {x : Except ε α} (h : Reports causes x) :
    Refuses causes (Splice.liftResult id x : EStateM ε σ α) := by
  cases x with
  | ok a => exact Refuses.pure a
  | error cause => exact Refuses.throw (h rfl)

end Reports

/-- The cause lies in a part of the program. -/
def Error.OfPart : Error → Prop
  | .chain _ | .symbol _ | .graph _ | .redirect _ | .graphNotBuilt _ => True
  | _ => False

/-- The cause lies in a part of the program, or the parts do not go together. -/
def Error.OfCheck : Error → Prop
  | .violation _ => True
  | cause => cause.OfPart

/-- The cause is that an update has used up the passes or rounds that it is allowed. -/
def Error.OfPasses : Error → Prop
  | .promotionDidNotConverge _ => True
  | _ => False

/-- No cause of a part says that passes are used up. -/
theorem Error.OfPart.not_ofPasses {cause : Error} (h : cause.OfPart) : ¬ cause.OfPasses := by
  cases cause <;> first | exact id | exact h.elim

/-- No cause of a check says that passes are used up. -/
theorem Error.OfCheck.not_ofPasses {cause : Error} (h : cause.OfCheck) : ¬ cause.OfPasses := by
  cases cause <;> first | exact id | exact h.elim

/-! ## Checks -/

namespace Program

variable {chain : Chain} {program : Program} {id : InstrId} {instr : Instruction}

/-- A condition that does not hold is reported as the violation that it stands for. -/
theorem ensure_reports {condition : Bool} {violation : Violation} :
    Reports Error.OfCheck (ensure condition violation) := by
  unfold ensure
  split
  · exact .ok ()
  · exact .error trivial

/-- The links of the chain are checked for a violation or a missing instruction, and nothing else is
reported. -/
theorem checkLinks_reports (ids : List InstrId) (prev : Option InstrId) :
    Reports Error.OfCheck (checkLinks chain prev ids) := by
  induction ids generalizing prev with
  | nil => exact .ok prev
  | cons id rest ih =>
    unfold checkLinks
    split
    · exact .error trivial
    · split
      · exact ih _
      · exact .error trivial

theorem verifyChain_reports : Reports Error.OfCheck program.verifyChain :=
  .bind (checkLinks_reports _ _) fun _ => .bind ensure_reports fun _ => ensure_reports

theorem verifyAddresses_reports : Reports Error.OfCheck program.verifyAddresses :=
  .forM (fun _ => ensure_reports) _

/-- The check of a function reports violations, or instructions that are not there. -/
theorem verifyFunction_reports {owner : FuncId} {function : Function} :
    Reports Error.OfCheck (verifyFunction chain owner function) := by
  unfold verifyFunction
  split
  · refine .bind (.mapM (fun _ => ?_) _) fun _ => .bind ensure_reports fun _ => ?_
    · exact .bind (.mapError fun _ => trivial) fun _ => .bind ensure_reports fun _ => .ok _
    · exact .bind (.mapError fun _ => trivial) fun _ => .bind ensure_reports fun _ => ensure_reports
  · exact .ok ()

/-- The check of the references of an instruction reports violations, or instructions that are not
there. -/
theorem verifyReference_reports : Reports Error.OfCheck (verifyReference program id instr) := by
  refine .bind (.forM (fun _ => ?_) _) fun _ => .bind (.forM (fun _ => ?_) _) fun _ =>
    .bind (.forM (fun _ => ?_) _) fun _ => .forM (fun _ => ?_) _
  · exact .bind ensure_reports fun _ => .bind (.mapError fun _ => trivial) fun _ => ensure_reports
  · exact .bind (.mapError fun _ => trivial) fun _ => ensure_reports
  · exact .bind (.mapError fun _ => trivial) fun _ => ensure_reports
  · exact .bind (.mapError fun _ => trivial) fun _ => ensure_reports

/-- The check of a displacement reports violations, or causes that lie in the chain. -/
theorem verifyDisplacement_reports : Reports Error.OfCheck (verifyDisplacement program id instr) := by
  unfold verifyDisplacement
  split
  · exact .ok ()
  · split
    · refine .bind (.mapError fun _ => trivial) fun _ => ?_
      split
      · exact ensure_reports
      · exact .ok ()
    · exact .ok ()

/-- The check of the records, which goes through them one by one, reports violations and missing symbols
only. -/
theorem checkRecords_reports (records : List (SymbolId × Symbol)) (finished : List SymbolId)
    (current : Option SymbolId) : Reports Error.OfCheck (checkRecords finished current records) := by
  induction records generalizing finished current with
  | nil => exact .ok ()
  | cons record records ih =>
    unfold checkRecords
    split
    · exact .bind ensure_reports fun _ => ih _ _
    · exact .bind ensure_reports fun _ => .bind ensure_reports fun _ => ih _ _

/-- Following a block along the code reports a block that ends too soon, which is a violation, and nothing
else. -/
theorem stepAlong_reports {block : BlockId} (instrs rest : List InstrId) :
    Reports Error.OfCheck (stepAlong block rest instrs) := by
  induction instrs generalizing rest with
  | nil =>
    unfold stepAlong
    exact .ok rest
  | cons id instrs ih =>
    cases rest with
    | nil => exact .error trivial
    | cons next rest =>
      unfold stepAlong
      split
      · exact ih rest
      · exact .error trivial

/-- The check of one block reports violations, or blocks and instructions that are not there. -/
theorem verifyBlock_reports {graph : BlockGraph} {rest : List InstrId} {block : BlockId} :
    Reports Error.OfCheck (verifyBlock graph chain rest block) := by
  refine .bind (.mapError fun _ => trivial) fun _ => .bind (.mapError fun _ => trivial) fun _ => ?_
  refine .bind ensure_reports fun _ => .bind ensure_reports fun _ => .bind (stepAlong_reports _ _) fun _ => ?_
  refine .bind (.forM (fun _ => ?_) _) fun _ => .bind (.forM (fun _ => ?_) _) fun _ => .ok _
  · exact .bind (.mapError fun _ => trivial) fun _ => ensure_reports
  · exact .bind (.mapError fun _ => trivial) fun _ => ensure_reports

/-- The check of the blocks reports violations, or what lies in the graph or the chain. -/
theorem verifyBlocks_reports : Reports Error.OfCheck program.verifyBlocks := by
  refine .bind ?_ fun graph => .bind (.foldlM (fun _ _ => verifyBlock_reports) _ _) fun _ =>
    .bind ensure_reports fun _ => ?_
  · unfold blockGraph
    split
    · exact .ok _
    · exact .error trivial
  · split
    · exact .error trivial
    · exact ensure_reports

/-- A check says what is wrong with the program, and never that an update has not come to an end. -/
theorem verify_reports : Reports Error.OfCheck program.verify := by
  refine .bind verifyChain_reports fun _ => .bind verifyAddresses_reports fun _ => ?_
  refine .bind (.forM (fun _ => verifyFunction_reports) _) fun _ => ?_
  refine .bind (.forM (fun _ => verifyReference_reports) _) fun _ => ?_
  refine .bind (.forM (fun _ => verifyDisplacement_reports) _) fun _ => ?_
  refine .bind (checkRecords_reports _ _ _) fun _ => ?_
  split
  · exact verifyBlocks_reports
  · exact .ok ()

end Program

namespace EngineM

variable {id anchor new old source dest heir jumper : InstrId} {given : Instruction} {shift : Shift}
  {f : Instruction → Instruction}

/-! ## Steps -/

/-- Reading the program is never refused. -/
theorem program_refuses {causes : Error → Prop} : Refuses causes program :=
  .bind .get fun _ => .pure _

/-- An operation on the chain is refused for a cause that lies in the chain. -/
theorem onChain_refuses {action : ChainM α} : Refuses Error.OfPart (onChain action) :=
  .focus fun _ => trivial

/-- An operation on the blocks is refused for a cause that lies in the graph, or because there is none. -/
theorem onGraph_refuses {action : GraphM α} : Refuses Error.OfPart (onGraph action) := by
  refine .bind program_refuses fun current => ?_
  cases current.graph with
  | none => exact .throw trivial
  | some graph => exact .focus fun _ => trivial

/-- A change to the owner of an instruction is refused if there is no such function. -/
theorem updateOwner_refuses {owner : Option FuncId} {f : Function → Function} :
    Refuses Error.OfPart (updateOwner owner f) := by
  cases owner with
  | none => exact .pure _
  | some owner =>
    refine .bind program_refuses fun _ => .bind (.liftResult fun _ => trivial) fun _ => ?_
    exact .modify

/-- A change to a symbol is refused if there is no such symbol. -/
theorem updateSymbol_refuses {symbol : SymbolId} {f : Symbol → Symbol} :
    Refuses Error.OfPart (updateSymbol symbol f) :=
  .bind program_refuses fun _ => .bind (.liftResult fun _ => trivial) fun _ => .modify

/-- A change to a block is refused if the graph or the block is missing. -/
theorem updateBlock_refuses {block : Option BlockId} {f : Block → Block} :
    Refuses Error.OfPart (updateBlock block f) := by
  cases block with
  | none => exact .pure _
  | some block => exact onGraph_refuses

/-- To ask for the block of an instruction is refused for a cause that lies in the chain or the graph. -/
theorem blockOf_refuses : Refuses Error.OfPart (blockOf id) := by
  refine .bind program_refuses fun current => ?_
  cases current.graph with
  | none => exact .pure _
  | some graph =>
    refine .bind (.liftResult fun _ => trivial) fun found => ?_
    cases found with
    | none => exact .throw trivial
    | some block => exact .pure _

theorem moveReferences_refuses : Refuses Error.OfPart (moveReferences source dest) := by
  refine .bind onChain_refuses fun _ => .bind onChain_refuses fun _ => .bind onChain_refuses fun _ => ?_
  exact .bind onChain_refuses fun _ => .bind (.forM (fun _ => updateSymbol_refuses) _) fun _ => onChain_refuses

/-- An instruction is moved unless it or a record that is tied to it is missing. -/
theorem moveInstruction_refuses {addr : UInt64} : Refuses Error.OfPart (moveInstruction id addr) := by
  refine .bind onChain_refuses fun found => .ite (.pure false) ?_
  refine .bind onChain_refuses fun _ => .bind (.forM (fun _ => updateSymbol_refuses) _) fun _ => ?_
  exact .bind (.forM (fun _ => updateSymbol_refuses) _) fun _ => .pure true

/-! ## Updates -/

/-- A layout is refused only where an instruction, a function or a record is missing. -/
theorem updateAddresses_refuses : Refuses Error.OfPart updateAddresses := by
  refine .bind program_refuses fun _ => .bind (.mapM (fun _ => moveInstruction_refuses) _) fun _ => ?_
  exact .bind program_refuses fun _ => .bind (.liftResult fun _ => trivial) fun _ => .bind .modify fun _ => .pure _

/-- A displacement is written unless the jump, its landing or its field is missing. That it does not reach
is an answer and no refusal. -/
theorem writeDisplacement_refuses : Refuses Error.OfPart (writeDisplacement jumper) := by
  refine .bind onChain_refuses fun source => ?_
  cases source.target with
  | none => exact .pure _
  | some logical =>
    refine .ite (.pure _) (.bind ?_ fun target => .ite (.pure _) ?_)
    · refine .bind program_refuses fun current => ?_
      dsimp only
      cases current.chain.get? (current.redirects.resolve jumper logical) with
      | none => exact .throw trivial
      | some target => exact .ite (.pure target) (.throw trivial)
    · cases source.displacementField? with
      | none => exact .throw trivial
      | some field =>
        refine .ite (.pure _) ?_
        cases field.write? source.bytes (target.addr - source.endAddr).toInt64 with
        | none => exact .throw trivial
        | some bytes => exact .bind onChain_refuses fun _ => .pure _

/-- A jump is widened unless it is missing or has no longer form, which lies in the chain. -/
theorem promote_refuses {disp : Int64} : Refuses Error.OfPart (promote jumper disp) := by
  refine .bind onChain_refuses fun short => .bind program_refuses fun _ => .ite (.throw trivial) ?_
  cases Encoding.promote? short.bytes short.opcodeSize with
  | none => exact .throw trivial
  | some long => exact .bind onChain_refuses fun _ => .pure _

theorem shiftBehind_refuses {delta : Int64} : Refuses Error.OfPart (shiftBehind id delta) :=
  .bind onChain_refuses fun _ => .pure _

/-- To settle one jumper, by writing or widening it, adds no cause to those of the two. -/
theorem settleJumper_refuses {progress : Progress} : Refuses Error.OfPart (settleJumper progress jumper) := by
  refine .bind writeDisplacement_refuses fun write => ?_
  cases write with
  | written => exact .pure _
  | skipped => exact .pure _
  | overflow disp => exact .bind promote_refuses fun _ => .bind shiftBehind_refuses fun _ => .pure _

theorem settleLinked_refuses {progress : Progress} : Refuses Error.OfPart (settleLinked progress jumper) :=
  .bind program_refuses fun _ => .ite settleJumper_refuses (.pure _)

/-- A shift is carried out unless an instruction, its function or a record is missing. -/
theorem applyShift_refuses : Refuses Error.OfPart (applyShift shift) := by
  refine .bind updateOwner_refuses fun _ => .ite (.pure _) (.bind program_refuses fun _ => ?_)
  refine .bind (.forM (fun id => ?_) _) fun _ => .pure _
  exact .bind onChain_refuses fun _ => .bind (.discard moveInstruction_refuses) fun _ => updateOwner_refuses

/-- A round of settling is refused for causes that lie in the parts; that rounds are used up is found
between them. -/
theorem settleRound_refuses {round : List Shift} : Refuses Error.OfPart (settleRound round) := by
  refine .bind (.mapM (fun _ => applyShift_refuses) _) fun _ => .bind program_refuses fun _ => ?_
  refine .bind (.liftResult fun _ => trivial) fun _ => ?_
  exact .bind (.foldlM (fun _ _ => settleLinked_refuses) _ _) fun _ => .pure _

theorem displacementPass_refuses : Refuses Error.OfPart displacementPass :=
  .bind program_refuses fun _ => .bind (.foldlM (fun _ _ => settleJumper_refuses) _ _) fun _ => .pure _

/-! ## Splices -/

/-- The ends of a new instruction are tied up unless one of them is missing. -/
theorem linkInserted_refuses : Refuses Error.OfPart (linkInserted id given) := by
  unfold linkInserted
  cases given.target with
  | none => exact .bind (.pure _) fun _ => .ite onChain_refuses (.pure _)
  | some target => exact .bind onChain_refuses fun _ => .ite onChain_refuses (.pure _)

/-- The instructions that take the place of another are put in for causes of the chain and the symbols
only. -/
theorem placeInserted_refuses {addr : UInt64} {placed : List (InstrId × Instruction)} :
    Refuses Error.OfPart (placeInserted addr placed) := by
  induction placed generalizing addr with
  | nil => exact .pure ()
  | cons entry placed ih => exact .bind onChain_refuses fun _ => .bind linkInserted_refuses fun _ => ih

theorem rehomeRelocations_refuses {relocs : List SymbolId} :
    Refuses Error.OfPart (rehomeRelocations relocs old new) :=
  .bind (.forM (fun _ => updateSymbol_refuses) _) fun _ => onChain_refuses

theorem count_refuses {causes : Error → Prop} {measure : Measure} {amount : Nat} :
    Refuses causes (count measure amount) := .modify

/-- A block is extended in front, or split there, for causes of the graph and the chain only. -/
theorem extendBlockBefore_refuses {block : BlockId} {retarget : Retarget} :
    Refuses Error.OfPart (extendBlockBefore block anchor new retarget) := by
  refine .bind onGraph_refuses fun before => .bind onGraph_refuses fun _ => .ite ?_ (.pure ())
  refine .bind onGraph_refuses fun _ => .ite ?_ (.pure ())
  exact .bind program_refuses fun _ => .bind onGraph_refuses fun _ => count_refuses

/-- To ask which jumpers enter at the anchor is refused for causes of the chain only. -/
theorem enteringJumpers_refuses {retarget : Retarget} :
    Refuses Error.OfPart (enteringJumpers anchor new retarget) := by
  cases retarget with
  | keep => exact .pure _
  | inserted =>
    refine .bind (.bind program_refuses fun current => .ite ?_ (.pure ())) fun _ =>
      .bind program_refuses fun _ => .liftResult fun _ => trivial
    exact .bind (.liftResult fun _ => trivial) fun _ => .bind .modify fun _ => moveReferences_refuses

/-- What is done in the block of an instruction, if it has one, is refused for the causes of doing it. -/
theorem forM_refuses {causes : Error → Prop} {block : Option BlockId} {f : BlockId → EngineM Unit}
    (hf : ∀ id, Refuses causes (f id)) : Refuses causes (block.forM f) := by
  cases block with
  | none => exact .pure _
  | some id => exact hf id

/-- The splice in front of an anchor is refused for a cause in a part of the program. The part behind it,
which settles the shift, is apart. -/
theorem spliceBefore_refuses {retarget : Retarget} :
    Refuses Error.OfPart (spliceBefore anchor given retarget) := by
  refine .bind onChain_refuses fun _ => .bind blockOf_refuses fun block => .bind onChain_refuses fun _ => ?_
  refine .bind linkInserted_refuses fun _ => .bind updateOwner_refuses fun _ => ?_
  refine .bind (forM_refuses fun _ => extendBlockBefore_refuses) fun _ => ?_
  exact .bind enteringJumpers_refuses fun _ => .bind count_refuses fun _ => .pure _

/-- An instruction is put in behind another one unless that is missing. -/
theorem appendAfter_refuses : Refuses Error.OfPart (appendAfter anchor given) := by
  refine .bind onChain_refuses fun _ => .bind blockOf_refuses fun _ => .bind onChain_refuses fun _ => ?_
  refine .bind linkInserted_refuses fun _ => .bind updateOwner_refuses fun _ => ?_
  exact .bind updateBlock_refuses fun _ => .bind count_refuses fun _ => .pure _

/-- The splice behind an anchor is refused for a cause in a part of the program. -/
theorem spliceAfter_refuses : Refuses Error.OfPart (spliceAfter anchor given) := by
  refine .bind onChain_refuses fun found => .bind program_refuses fun current => ?_
  dsimp only
  split
  · exact spliceBefore_refuses
  · exact appendAfter_refuses

/-- The splice in the place of an instruction is refused for a cause in a part of the program, which
includes that nothing is given. -/
theorem spliceInstead_refuses {givens : List Instruction} :
    Refuses Error.OfPart (spliceInstead old givens) := by
  refine .bind onChain_refuses fun found => .bind blockOf_refuses fun _ => .bind onChain_refuses fun replaced => ?_
  dsimp only
  split
  · refine .bind placeInserted_refuses fun _ => .bind onChain_refuses fun _ => ?_
    refine .bind (.forM (fun _ => updateSymbol_refuses) _) fun _ => .bind rehomeRelocations_refuses fun _ => ?_
    refine .bind .modify fun _ => .bind updateOwner_refuses fun _ => .bind updateBlock_refuses fun _ => ?_
    exact .bind count_refuses fun _ => .bind program_refuses fun _ => .pure _
  · exact .throw trivial

/-- The references of an instruction are passed on to its heir for causes of the parts only. -/
theorem passOn_refuses : Refuses Error.OfPart (passOn id heir) := by
  refine .bind onChain_refuses fun _ => .bind moveReferences_refuses fun _ => .bind .modify fun _ => ?_
  refine .bind onChain_refuses fun _ => .bind onChain_refuses fun _ => ?_
  exact .forM (fun _ => updateSymbol_refuses) _

theorem not_ofPasses_of_emptyBlock {addr : UInt64} : ¬ (Error.emptyBlock addr).OfPasses := id

/-- A removal may be forbidden by the block of the instruction, but never because passes are used up. -/
theorem checkRemovable_refuses {block : Option BlockId} {instr : Instruction} :
    Refuses (fun cause => ¬ cause.OfPasses) (checkRemovable block instr) := by
  have hends : Refuses (fun cause : Error => ¬ cause.OfPasses) (if instr.flags.endsBlock then
      throw (.blockEndingTransfer instr.addr) else pure () : EngineM Unit) := .ite (.throw fun h => h) (.pure ())
  cases block with
  | none => exact .pure ()
  | some block =>
    refine .bind (onGraph_refuses.mono fun _ => Error.OfPart.not_ofPasses) fun found => ?_
    exact .ite (.bind (.throw not_ofPasses_of_emptyBlock) fun _ => hends) hends

/-- To move an end of a block on to the heir is refused for causes other than passes that are used up. -/
theorem moveEnd_refuses {block : BlockId} {addr : UInt64} {taken : Prop} [Decidable taken]
    {heir : Option InstrId} {put : InstrId → Block → Block} :
    Refuses (fun cause => ¬ cause.OfPasses) (moveEnd block addr taken heir put) := by
  cases heir with
  | some heir => exact .ite (onGraph_refuses.mono fun _ => Error.OfPart.not_ofPasses) (.pure ())
  | none => exact .ite (.throw not_ofPasses_of_emptyBlock) (.pure ())

/-- A block is made smaller, or refuses to become empty, and neither has to do with passes. -/
theorem shrinkBlock_refuses {block : BlockId} {addr : UInt64} {after before : Option InstrId} :
    Refuses (fun cause => ¬ cause.OfPasses) (shrinkBlock block id addr after before) := by
  have hgraph : ∀ {α : Type} {action : GraphM α}, Refuses (fun cause => ¬ cause.OfPasses) (onGraph action) :=
    fun {α action} => onGraph_refuses.mono fun _ => Error.OfPart.not_ofPasses
  rw [shrinkBlock_eq]
  exact .bind hgraph fun _ => .bind hgraph fun _ => .bind moveEnd_refuses fun _ => moveEnd_refuses

/-- A removal is refused for a part of the program or for its blocks. -/
theorem excise_refuses : Refuses (fun cause => ¬ cause.OfPasses) (excise id) := by
  have hpart : ∀ cause : Error, cause.OfPart → ¬ cause.OfPasses := fun _ => Error.OfPart.not_ofPasses
  refine .bind (onChain_refuses.mono hpart) fun found => .bind (blockOf_refuses.mono hpart) fun block => ?_
  refine .bind checkRemovable_refuses fun _ => .bind program_refuses fun current => ?_
  dsimp only
  cases ((kin current.chain found).1 <|> (kin current.chain found).2) with
  | none => exact .throw not_ofPasses_of_emptyBlock
  | some heir =>
    refine .bind (passOn_refuses.mono hpart) fun _ => .bind (updateOwner_refuses.mono hpart) fun _ => ?_
    refine .bind (forM_refuses fun _ => shrinkBlock_refuses) fun _ => .bind (onChain_refuses.mono hpart) fun _ => ?_
    exact .bind program_refuses fun _ => .bind (.liftResult fun _ h => h) fun _ => .pure _

end EngineM

end Splice
