import Splice.Proofs.Program.Bounding

/-!
# Shifts that widen nothing

A shift is settled in rounds for as long as jumps are being widened. Where none is, which can be
told from the lengths of the instructions afterwards (`promoted_of_lengths`), there is one
round: the code behind the splice moves by the shift, once, and displacements are written
(`settle_unwidened`). Then it is known of each instruction and of each function what it is
afterwards (`Slid`, `settle_slid`), which says more than the invariants that hold of any number
of rounds.

`Slid` has a field for each part of the session: the order of the code, the instructions with
how far each has moved, the functions with their new places, and the redirects. It is used where
two runs have to be compared exactly, an insertion with the removal that undoes it and a local
update with a full one.
-/

namespace Splice

/-- The function in another place. -/
def Function.Resited (a b : Function) : Prop := b = { a with addr := b.addr, size := b.size }

theorem Function.Resited.trans {a b c : Function} (hab : a.Resited b) (hbc : b.Resited c) : a.Resited c := by
  rw [Resited, hab] at hbc
  exact hbc

/-- Functions change their places only. -/
def FunctionTable.Resites (table after : FunctionTable) : Prop :=
  ∀ id, Option.Rel Function.Resited (table.get? id) (after.get? id)

namespace Session

/-- Where there is no block graph, nothing changes but code, functions, redirects and the records of
the symbols. -/
def SameSetting (s t : Session) : Prop :=
  s.program.graph = none → t.program = { s.program with
    chain := t.program.chain
    functions := t.program.functions
    redirects := t.program.redirects
    symbols := { s.program.symbols with records := t.program.symbols.records } }

theorem SameSetting.stepRelation : StepRelation SameSetting where
  refl _ := fun _ => rfl
  trans {s t u} h k := by
    intro hgraph
    have hst := h hgraph
    have htu := k ((congrArg Program.graph hst).trans hgraph)
    rw [hst] at htu
    exact htu

theorem SameSetting.of_eq {s t : Session} (h : t.program = s.program) : SameSetting s t := by
  intro _
  rw [h]

theorem SameSetting.graph {s t : Session} (h : SameSetting s t) (hgraph : s.program.graph = none) :
    t.program.graph = none := by
  rw [h hgraph]
  exact hgraph

end Session

namespace EngineM

variable {α : Type} {s t m : Session} {l : List InstrId} {id : InstrId} {shift : Shift}
  {summary : UpdateSummary} {owner : FuncId}

/-! ## What stays as it is -/

theorem instr_sameSetting : Keeps Session.SameSetting (instr id) :=
  Keeps.of_state_eq Session.SameSetting.stepRelation fun h => (instr_ok.mp h).2.symm

theorem updateInstr_sameSetting {f : Instruction → Instruction} :
    Keeps Session.SameSetting (updateInstr id f) := by
  intro s u t h
  rw [(updateInstr_ok.mp h).2]
  exact fun _ => rfl

theorem updateSymbol_sameSetting {symbol : SymbolId} {f : Symbol → Symbol} :
    Keeps Session.SameSetting (updateSymbol symbol f) := by
  intro s u t h
  rw [updateSymbol_ok h]
  exact fun _ => rfl

theorem withOwner_sameSetting {owner : Option FuncId} {f : Function → Function} :
    Session.SameSetting s (withOwner s owner f) := by
  cases owner with
  | some _ => exact fun _ => rfl
  | none => exact fun _ => rfl

theorem moveInstruction_sameSetting {addr : UInt64} :
    Keeps Session.SameSetting (moveInstruction id addr) := by
  have hr := Session.SameSetting.stepRelation
  refine Keeps.bind hr instr_sameSetting fun found => ?_
  by_cases haddr : found.addr = addr
  · rw [if_pos haddr]
    exact Keeps.pure hr false
  · rw [if_neg haddr]
    refine Keeps.bind hr updateInstr_sameSetting fun _ => ?_
    refine Keeps.bind hr (Keeps.forM hr fun _ _ => updateSymbol_sameSetting) fun _ => ?_
    exact Keeps.bind hr (Keeps.forM hr fun _ _ => updateSymbol_sameSetting) fun _ => Keeps.pure hr true

end EngineM

theorem Session.SameSetting.updateRelation : EngineM.UpdateRelation Session.SameSetting where
  toStepRelation := Session.SameSetting.stepRelation
  move _ _ := EngineM.moveInstruction_sameSetting
  recode _ _ _ _ := fun _ => rfl
  measure _ _ _ := fun _ => rfl
  same h := .of_eq h

/-! ## Functions under a shift -/

theorem FunctionTable.Resites.stepRelation :
    StepRelation fun s t : Session => s.program.functions.Resites t.program.functions where
  refl _ := fun _ => rel_refl (p := Function.Resited) (fun _ => rfl) _
  trans h k := fun owner => rel_comp (h owner) (k owner) fun _ _ _ => .trans

theorem FunctionTable.Resites.get? {table after : FunctionTable} (h : table.Resites after) {owner : FuncId}
    {function : Function} (hfunction : table.get? owner = some function) :
    ∃ moved, after.get? owner = some moved ∧ function.Resited moved :=
  rel_some (h owner) hfunction

theorem FunctionTable.Resites.get?_eq_none {table after : FunctionTable} (h : table.Resites after)
    {owner : FuncId} (hnone : table.get? owner = none) : after.get? owner = none :=
  rel_none (h owner) hnone

namespace EngineM

variable {s t m : Session} {l : List InstrId} {id : InstrId} {shift : Shift}
  {summary : UpdateSummary} {owner : FuncId}

theorem resites_withOwner {owner : Option FuncId} {f : Function → Function}
    (hf : ∀ function : Function, function.Resited (f function)) :
    s.program.functions.Resites (withOwner s owner f).program.functions := by
  intro other
  rw [get?_withOwner]
  split
  · exact rel_map hf _
  · exact rel_refl (p := Function.Resited) (fun _ => rfl) _

theorem shiftInstruction_resites {delta : Int64} :
    Keeps (fun s t => s.program.functions.Resites t.program.functions) (shiftInstruction id delta) := by
  intro s u t h
  obtain ⟨found, -, hsame⟩ := shiftInstruction_ok h
  rw [hsame.functions]
  refine resites_withOwner (s := s.withChain (s.program.chain.adjust (Chain.only id (.shifted delta))))
    fun function => ?_
  unfold Function.startingAt
  split <;> rfl

/-- A shift changes addresses and sizes of functions and no bounds. -/
theorem applyShift_resites : Keeps (fun s t => s.program.functions.Resites t.program.functions)
    (applyShift shift) := by
  have hr := FunctionTable.Resites.stepRelation
  refine Keeps.bind hr (fun s u t h => ?_) fun _ => ?_
  · rw [updateOwner_ok h]
    exact resites_withOwner fun _ => rfl
  by_cases hdelta : shift.delta = 0
  · rw [if_pos hdelta]
    exact Keeps.pure hr []
  · rw [if_neg hdelta]
    refine Keeps.bind hr (Keeps.of_state_eq hr fun h => (program_ok.mp h).2.symm) fun _ => ?_
    exact Keeps.bind hr (Keeps.forM hr fun _ _ => shiftInstruction_resites) fun ids => Keeps.pure hr _

/-! ## Settling without widening -/

/-- Displacements may have been written, in as many bytes as before. -/
structure Respelled (s t : Session) : Prop where
  chain : s.program.chain.Evolves
    (fun _ a b => b = { a with bytes := b.bytes } ∧ b.bytes.length = a.bytes.length) t.program.chain
  program : t.program = { s.program with chain := t.program.chain }

theorem Respelled.stepRelation : StepRelation Respelled where
  refl _ := ⟨.refl (fun _ _ => ⟨rfl, rfl⟩) _, rfl⟩
  trans h k := by
    refine ⟨h.chain.trans (fun _ a b c hab hbc => ?_) k.chain, ?_⟩
    · refine ⟨?_, hbc.2.trans hab.2⟩
      have heq := hbc.1
      rw [hab.1] at heq
      exact heq
    · have heq := k.program
      rw [h.program] at heq
      exact heq

/-- A displacement that is written without widening keeps the length. -/
theorem WriteRun.respelled {jumper : InstrId} (h : WriteRun s jumper .written t) : Respelled s t := by
  cases h with
  | written lands sec hfield write =>
    rename_i source physical field bytes
    refine ⟨.of_adjust fun id instr hinstr => ?_, rfl⟩
    by_cases hid : id = jumper
    · subst hid
      rw [lands.get, Option.some.injEq] at hinstr
      subst hinstr
      rw [Chain.only_self]
      exact ⟨rfl, DisplacementField.length_write? write⟩
    · rw [Chain.only_ne hid]
      exact ⟨rfl, rfl⟩

/-- A step that adds no shift has widened nothing. -/
theorem settleLinked_unwidened {jumper : InstrId} {progress done : Progress}
    (hl : s.program.chain.Spells l) (h : settleLinked progress jumper s = .ok done t)
    (hdone : done.2 = []) : progress.2 = [] ∧ Respelled s t := by
  rcases settleLinked_ok hl h with ⟨-, hrun⟩ | ⟨-, rfl, rfl⟩
  · cases hrun with
    | written run => exact ⟨hdone, run.respelled⟩
    | skipped => exact ⟨hdone, Respelled.stepRelation.refl s⟩
    | widened => exact absurd hdone (List.append_ne_nil_of_right_ne_nil _ (List.cons_ne_nil _ _))
  · exact ⟨hdone, Respelled.stepRelation.refl _⟩

/-- A round that adds no shift has widened nothing. -/
theorem settleAll_unwidened {jumpers : List InstrId} {progress done : Progress}
    (hl : s.program.chain.Spells l) (h : jumpers.foldlM settleLinked progress s = .ok done t)
    (hdone : done.2 = []) : progress.2 = [] ∧ Respelled s t := by
  induction jumpers generalizing s progress with
  | nil =>
    obtain ⟨rfl, rfl⟩ := foldlM_nil_ok.mp h
    exact ⟨hdone, Respelled.stepRelation.refl _⟩
  | cons jumper jumpers ih =>
    obtain ⟨middle, m, hfirst, hrest⟩ := foldlM_cons_ok.mp h
    have hm := (Session.Carries.updateRelation.settleLinked hfirst).chain.spells hl
    obtain ⟨hmiddle, hrest⟩ := ih hm hrest
    obtain ⟨hprogress, hfirst⟩ := settleLinked_unwidened hl hfirst hmiddle
    exact ⟨hprogress, Respelled.stepRelation.trans hfirst hrest⟩

/-- A round counts as many widenings as it leaves shifts. -/
theorem settleRound_promoted {round next : List Shift}
    (h : settleRound round s = .ok (summary, next) t) : summary.promoted = next.length := by
  simp only [settleRound, bind_ok, program_ok, liftResult_ok, pure_ok, Prod.mk.injEq] at h
  obtain ⟨_, _, _, _, _, _, _, _, _, _, _, _, ⟨rfl, rfl⟩, -⟩ := h
  rfl

/-- Counts of widenings only grow. -/
theorem settleRounds_promoted_le {steps : Nat} {round : List Shift} {total : UpdateSummary}
    (h : settleRounds summary steps round s = .ok total t) : summary.promoted ≤ total.promoted := by
  induction steps generalizing s summary round with
  | zero =>
    cases round with
    | nil =>
      obtain ⟨rfl, -⟩ := pure_ok.mp h
      exact Nat.le_refl _
    | cons shift round =>
      simp only [settleRounds, bind_ok, throw_ok] at h
      obtain ⟨_, _, _, hfalse⟩ := h
      exact hfalse.elim
  | succ steps ih =>
    cases round with
    | nil =>
      obtain ⟨rfl, -⟩ := pure_ok.mp h
      exact Nat.le_refl _
    | cons shift round =>
      simp only [settleRounds, bind_ok] at h
      obtain ⟨⟨done, next⟩, m, -, hrest⟩ := h
      exact Nat.le_trans (Nat.le_add_right _ _) (ih hrest)

/-- The first round of settling, and the rounds for what it widened. -/
theorem settle_rounds (h : settle shift s = .ok summary t) :
    ∃ done next steps m u, settleRound [shift] s = .ok (done, next) m
      ∧ settleRounds (.zero + done) steps next m = .ok summary u ∧ t.program = u.program := by
  obtain ⟨u, hrounds, hsame⟩ := settle_run h
  cases hsteps : s.program.config.maxPasses with
  | zero =>
    rw [hsteps] at hrounds
    simp only [settleRounds, bind_ok, throw_ok] at hrounds
    obtain ⟨_, _, _, hfalse⟩ := hrounds
    exact hfalse.elim
  | succ steps =>
    rw [hsteps] at hrounds
    simp only [settleRounds, bind_ok] at hrounds
    obtain ⟨⟨done, next⟩, m, hround, hrest⟩ := hrounds
    exact ⟨done, next, steps, m, u, hround, hrest, hsame⟩

/-- Where nothing is widened, settling a shift is carrying it out and writing displacements. -/
theorem settle_unwidened (hl : s.program.chain.Spells l) (h : settle shift s = .ok summary t)
    (hpromoted : summary.promoted = 0) :
    ∃ moved m, applyShift shift s = .ok moved m ∧ Respelled m t := by
  obtain ⟨done, next, steps, v, u, hround, hrest, hsame⟩ := settle_rounds h
  have hnext : next = [] := by
    have hle : done.promoted ≤ summary.promoted :=
      Nat.le_trans (Nat.le_add_left _ _) (settleRounds_promoted_le hrest)
    rw [hpromoted, settleRound_promoted hround] at hle
    exact List.eq_nil_of_length_eq_zero (Nat.le_zero.mp hle)
  subst hnext
  obtain ⟨-, rfl⟩ : UpdateSummary.zero + done = summary ∧ v = u := by
    cases steps <;> exact pure_ok.mp hrest
  obtain ⟨moved, m, affected, written, hshifts, -, hjumpers⟩ := settleRound_run hround
  obtain ⟨ids, m', rest, hshift, hnil, -⟩ := mapM_cons_ok.mp hshifts
  obtain ⟨-, rfl⟩ := mapM_nil_ok.mp hnil
  have hm := (Session.Carries.updateRelation.applyShift hshift).chain.spells hl
  obtain ⟨-, hrespelled⟩ := settleAll_unwidened hm hjumpers rfl
  exact ⟨ids, _, hshift, hsame ▸ hrespelled.chain, hsame ▸ hrespelled.program⟩

/-- A jump that is widened is longer from then on. -/
theorem settleLinked_longer {jumper : InstrId} {progress done : Progress}
    (hl : s.program.chain.Spells l) (h : settleLinked progress jumper s = .ok done t) :
    done.2 = progress.2 ∨ ∃ id, s.program.lengths id < t.program.lengths id := by
  rcases settleLinked_ok hl h with ⟨-, hrun⟩ | ⟨-, rfl, rfl⟩
  · cases hrun with
    | written => exact .inl rfl
    | skipped => exact .inl rfl
    | widened lands _ _ _ _ promote =>
      refine .inr ⟨jumper, ?_⟩
      rw [Program.lengths_eq lands.get, Program.lengths_eq (Chain.get?_adjust.trans
        (congrArg (Option.map _) lands.get)), Chain.only_self]
      exact (Encoding.promote?_eq_some promote).2.1
  · exact .inl rfl

theorem Recodes.lengths_le (h : Session.Recodes s t) (id : InstrId) :
    s.program.lengths id ≤ t.program.lengths id :=
  Program.lengths_mono h.chain (fun _ _ _ hab => hab.2.1.sized.length_le) id

/-- A round that adds a shift has made some instruction longer. -/
theorem settleAll_longer {jumpers : List InstrId} {progress done : Progress}
    (hl : s.program.chain.Spells l) (h : jumpers.foldlM settleLinked progress s = .ok done t) :
    done.2 = progress.2 ∨ ∃ id, s.program.lengths id < t.program.lengths id := by
  induction jumpers generalizing s progress with
  | nil =>
    obtain ⟨rfl, -⟩ := foldlM_nil_ok.mp h
    exact .inl rfl
  | cons jumper jumpers ih =>
    obtain ⟨middle, m, hfirst, hrest⟩ := foldlM_cons_ok.mp h
    have hm : m.program.chain.Spells l ∧ Session.Recodes s m :=
      (recodes_invariant s).jumper hfirst ⟨hl, .refl s⟩
    have ht : t.program.chain.Spells l ∧ Session.Recodes m t :=
      (recodes_invariant m).settleAll hrest ⟨hm.1, .refl m⟩
    rcases settleLinked_longer hl hfirst with hkept | ⟨id, hlonger⟩
    · rcases ih hm.1 hrest with hkept' | ⟨id, hlonger⟩
      · exact .inl (hkept'.trans hkept)
      · exact .inr ⟨id, Nat.lt_of_le_of_lt (Recodes.lengths_le hm.2 id) hlonger⟩
    · exact .inr ⟨id, Nat.lt_of_lt_of_le hlonger (Recodes.lengths_le ht.2 id)⟩

/-- Nothing was widened if no instruction is longer afterwards. -/
theorem promoted_of_lengths (hl : s.program.chain.Spells l) (h : settle shift s = .ok summary t)
    (hlengths : ∀ id, t.program.lengths id ≤ s.program.lengths id) : summary.promoted = 0 := by
  obtain ⟨done, next, steps, v, u, hround, hrest, hsame⟩ := settle_rounds h
  rw [hsame] at hlengths
  obtain ⟨moved, m, affected, written, hshifts, -, hjumpers⟩ := settleRound_run hround
  have hm : m.program.chain.Spells l ∧ Session.Recodes s m :=
    @SettleInvariant.applyAll _ _ _ (recodes_invariant s) _ [] _ hshifts ⟨hl, .refl s⟩
  have hv : v.program.chain.Spells l ∧ Session.Recodes s v := (recodes_invariant s).settleAll hjumpers hm
  have hu : u.program.chain.Spells l ∧ Session.Recodes v u :=
    (recodes_invariant v).rounds hrest ⟨hv.1, .refl v⟩
  rcases settleAll_longer hm.1 hjumpers with hnil | ⟨id, hlonger⟩
  · have hnext : next = [] := hnil
    subst hnext
    obtain ⟨rfl, -⟩ : UpdateSummary.zero + done = summary ∧ v = u := by
      cases steps <;> exact pure_ok.mp hrest
    exact (Nat.zero_add _).trans (settleRound_promoted hround)
  · have hlt : s.program.lengths id < u.program.lengths id :=
      Nat.lt_of_le_of_lt (Recodes.lengths_le hm.2 id)
        (Nat.lt_of_lt_of_le hlonger (Recodes.lengths_le hu.2 id))
    exact absurd (hlengths id) (Nat.not_le.mpr hlt)

/-! ## What is known of the outcome -/

/-- The session after a shift that widened nothing. -/
structure Slid (s t : Session) (shift : Shift) : Prop where
  chain : s.program.chain.Evolves (fun id a b => b = { a with addr := b.addr, bytes := b.bytes }
    ∧ b.bytes.length = a.bytes.length
    ∧ b.addr = a.addr + if id ∈ s.program.chain.reach shift then shift.delta.toUInt64 else 0)
    t.program.chain
  functions : s.program.functions.Resites t.program.functions
  size : ∀ owner, t.program.functions.size? owner
    = if shift.func = some owner then (s.program.functions.size? owner).map (· + shift.delta.toUInt64)
      else s.program.functions.size? owner
  anchored : ∀ owner, s.program.Anchored owner
      ∨ shift.delta ≠ 0 ∧ s.program.functions.BeginsAt owner (s.program.chain.reach shift) →
    t.program.Anchored owner
  /-- A function none of whose own instructions is moved as its first one stays where it is. -/
  still : ∀ owner, (shift.delta ≠ 0 → ∀ id ∈ s.program.chain.reach shift, ¬ s.program.BeginsAt owner id) →
    t.program.functions.addr? owner = s.program.functions.addr? owner
  redirects : t.program.redirects = s.program.redirects
  follows : Session.Follows s t
  setting : Session.SameSetting s t

/-- A function grows by the shift if the shift is for it, and keeps its size otherwise. -/
theorem Slid.size_eq {owner : FuncId} {function after : Function} (h : Slid s t shift)
    (hfunction : s.program.functions.get? owner = some function)
    (hafter : t.program.functions.get? owner = some after) :
    after.size = function.size + if shift.func = some owner then shift.delta.toUInt64 else 0 := by
  have hsize := h.size owner
  rw [FunctionTable.size?, FunctionTable.size?, hafter, hfunction] at hsize
  split at hsize
  next hfunc => rw [if_pos hfunc]; exact Option.some.inj hsize
  next hfunc => rw [if_neg hfunc, UInt64.add_zero]; exact Option.some.inj hsize

/-- A settling that counts no widening is one shift and a round of writes after it. -/
theorem settle_slid (hl : s.program.chain.Spells l) (h : settle shift s = .ok summary t)
    (hpromoted : summary.promoted = 0) : Slid s t shift := by
  obtain ⟨moved, m, happly, hrespelled⟩ := settle_unwidened hl h hpromoted
  have happlied := applyShift_applied hl happly
  have hfunctions : t.program.functions = m.program.functions := by rw [hrespelled.program]
  refine ⟨?_, hfunctions ▸ applyShift_resites happly, hfunctions ▸ happlied.size, fun owner hs => ?_,
    fun owner hstill => hfunctions ▸ applyShift_addr happly hstill,
    (Session.Carries.updateRelation.settle h).redirects, Session.Follows.updateRelation.settle h,
    Session.SameSetting.updateRelation.settle h⟩
  · have hevolves : s.program.chain.Evolves (fun id a b => b = if id ∈ s.program.chain.reach shift then
        a.shifted shift.delta else a) m.program.chain := by
      rw [happlied.chain]
      exact .of_adjust fun _ _ _ => rfl
    refine hevolves.comp (fun x a b c hab hbc => ?_) hrespelled.chain
    obtain ⟨hc, hlength⟩ := hbc
    by_cases hx : x ∈ s.program.chain.reach shift
    · rw [if_pos hx] at hab ⊢
      rw [hab] at hc hlength
      exact ⟨by rw [hc]; rfl, hlength, by rw [hc]; rfl⟩
    · rw [if_neg hx] at hab ⊢
      rw [hab] at hc hlength
      exact ⟨by rw [hc], hlength, by rw [hc, UInt64.add_zero]⟩
  · intro function first instr hfunction hfirst hinstr hfunc
    obtain ⟨old, hold, heq, -⟩ := hrespelled.chain.get?_of hinstr
    rw [heq] at hfunc ⊢
    exact happlied.anchored owner hs function first old (hfunctions ▸ hfunction) hfirst hold hfunc

end EngineM

end Splice
