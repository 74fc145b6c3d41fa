import Splice.Proofs.Chain.Backing
import Splice.Proofs.Program.Passes
import Splice.Proofs.Program.Refusals
import Splice.Proofs.Program.Unwidened

/-!
# Widening comes to an end

A jump that was widened is no short jump any more, so a round or pass after which another one is
needed leaves fewer short jumps than it found (`Session.Widens`). An update that may take one pass
more than there are linked short jumps therefore does not run out of passes, whatever the rest of
the program is like (`promotion_converges`). What an edit splices in counts, and so does an
instruction that it links on the way: a detached one that something is inserted in front of.

`Concludes` says that a run ends as described or is refused for another cause, so that nothing
is claimed of programs with missing targets, and nothing is assumed about them either. The bound
on the short jumps that an edit links asks only that links lead back (`Chain.Onward`), which
holds after any calls.
-/

namespace Splice

variable {α β : Type} {s m t : Session} {n k : Nat}

/-! ## Short jumps that are left -/

namespace Session

/-- No instruction is longer than it was. -/
structure SameLengths (s t : Session) : Prop where
  chain : s.program.chain.Evolves (fun _ a b => a.Rewritten b) t.program.chain
  config : t.program.config = s.program.config

/-- Of the linked short jumps `n` were widened, each of them once, and nothing else became longer. -/
structure Widens (s t : Session) (n : Nat) : Prop where
  chain : s.program.chain.Evolves (fun _ a b => a.Sized b) t.program.chain
  left : t.program.chain.shortJumps.length + n = s.program.chain.shortJumps.length
  config : t.program.config = s.program.config

theorem Retied.sameLengths (h : Retied s t) : SameLengths s t :=
  ⟨h.chain.mono fun _ _ _ hab => hab.alike.rewritten, h.config⟩

theorem SameCode.sameLengths (h : SameCode s t) : SameLengths s t := h.retied.sameLengths

theorem SameLengths.of_adjust {f : InstrId → Instruction → Instruction}
    (h : ∀ id instr, s.program.chain.get? id = some instr → instr.Rewritten (f id instr)) :
    SameLengths s (s.withChain (s.program.chain.adjust f)) :=
  ⟨.of_adjust h, rfl⟩

/-- None of the changes that moving code makes lengthens an instruction. -/
theorem SameLengths.moveRelation : EngineM.MoveRelation SameLengths where
  refl s := ⟨.refl (fun _ => .refl) _, rfl⟩
  trans h k := ⟨h.chain.trans (fun _ _ _ _ => .trans) k.chain, k.config.trans h.config⟩
  move id addr := by
    intro s moved t h
    obtain ⟨found, -, -, -, hsame⟩ := EngineM.moveInstruction_ok h
    have hmoved : SameLengths s (s.withChain (s.program.chain.adjust (Chain.only id (.relocated addr)))) := by
      refine .of_adjust fun x i _ => ?_
      unfold Chain.only
      split <;> exact ⟨rfl, rfl, rfl, rfl⟩
    exact ⟨hmoved.chain.trans (fun _ _ _ _ => .trans) hsame.sameLengths.chain,
      hsame.sameLengths.config.trans hmoved.config⟩
  measure s functions _ := ⟨.refl (fun _ => .refl) _, rfl⟩
  same h := ⟨h ▸ .refl (fun _ => .refl) _, by rw [h]⟩

theorem SameLengths.stepRelation : StepRelation SameLengths := SameLengths.moveRelation.toStepRelation

/-- Where nothing is longer, nothing was widened. -/
theorem SameLengths.widens (h : SameLengths s t) : s.Widens t 0 where
  chain := h.chain.mono fun _ _ _ hab => .inl hab
  left := congrArg List.length (h.chain.mono fun _ _ _ hab => hab.isShortJump).shortJumps
  config := h.config

namespace Widens

/-- Widenings add up: a jump that was widened once is short no more, so the second step widens others. -/
theorem trans (h : s.Widens m n) (k' : m.Widens t k) : s.Widens t (n + k) where
  chain := h.chain.trans (fun _ _ _ _ => .trans) k'.chain
  left := by
    have h₁ := h.left
    have h₂ := k'.left
    omega
  config := k'.config.trans h.config

theorem of_program (h : s.Widens m n) (ht : t.program = m.program) : s.Widens t n :=
  h.trans (SameLengths.moveRelation.same ht).widens

end Widens

end Session

/-! ## Runs that do not want for passes -/

/-- The run from `s` ends as `post` says, or it is refused for another cause than that the passes
allowed are used up. -/
def Concludes (action : EngineM α) (s : Session) (post : α → Session → Prop) : Prop :=
  match action s with
  | .ok a t => post a t
  | .error cause _ => ¬ cause.OfPasses

namespace Concludes

variable {action : EngineM α} {post : α → Session → Prop}

/-- An action that is refused for other causes only concludes with what it leaves when it succeeds. -/
theorem of_refuses (hrefuses : Refuses (fun cause => ¬ cause.OfPasses) action)
    (hok : ∀ a t, action s = .ok a t → post a t) : Concludes action s post := by
  unfold Concludes
  cases hrun : action s with
  | ok a t => exact hok a t hrun
  | error cause t => exact hrefuses hrun

theorem of_part (hrefuses : Refuses Error.OfPart action) (hok : ∀ a t, action s = .ok a t → post a t) :
    Concludes action s post :=
  of_refuses (hrefuses.mono fun _ => Error.OfPart.not_ofPasses) hok

/-- A run that succeeds concludes with what holds of its end. -/
theorem of_ok {a : α} (h : action s = .ok a t) (hpost : post a t) : Concludes action s post := by
  unfold Concludes
  rw [h]
  exact hpost

/-- What is concluded holds of each run that succeeds. -/
theorem ok {a : α} (h : Concludes action s post) (hrun : action s = .ok a t) : post a t := by
  unfold Concludes at h
  rw [hrun] at h
  exact h

/-- A run that concludes is not refused for want of passes. -/
theorem not_ofPasses {cause : Error} (h : Concludes action s post) (hrun : action s = .error cause t) :
    ¬ cause.OfPasses := by
  unfold Concludes at h
  rw [hrun] at h
  exact h

/-- Runs conclude one after the other. -/
theorem bind {f : α → EngineM β} {post : β → Session → Prop}
    (h : Concludes action s fun a t => Concludes (f a) t post) : Concludes (action >>= f) s post := by
  cases hrun : action s with
  | ok a t =>
    have hrest := h.ok hrun
    unfold Concludes
    rw [bind_run hrun]
    exact hrest
  | error cause t =>
    unfold Concludes
    rw [bind_error hrun]
    exact h.not_ofPasses hrun

/-- What is concluded may be weakened. -/
theorem imp {post' : α → Session → Prop} (h : Concludes action s post) (himp : ∀ a t, post a t → post' a t) :
    Concludes action s post' := by
  cases hrun : action s with
  | ok a t => exact of_ok hrun (himp a t (h.ok hrun))
  | error cause t =>
    unfold Concludes
    rw [hrun]
    exact h.not_ofPasses hrun

/-- Throwing the answer away leaves the conclusion. -/
theorem discard {post' : Unit → Session → Prop} (h : Concludes action s post)
    (hpost : ∀ a t, action s = .ok a t → post' () t) : Concludes (discard action) s post' := by
  cases hrun : action s with
  | ok a t =>
    have hdiscard : Functor.discard action s = .ok () t := discard_ok.mpr ⟨a, hrun⟩
    exact of_ok hdiscard (hpost a t hrun)
  | error cause t =>
    unfold Concludes
    rw [discard_error hrun]
    exact h.not_ofPasses hrun

end Concludes

/-- A detached short jump. -/
def Chain.isStray (chain : Chain) (id : InstrId) : Bool :=
  !chain.isLinked id && (chain.get? id).any (·.isShortJump)

/-- How many short jumps an edit links: those that it is given, and the instruction that it inserts in
front of, if that is detached. -/
def Session.brought (s : Session) (edit : Edit) : Nat :=
  edit.given.countP (·.isShortJump) + match edit with
    | .insertBefore anchor _ _ => if s.program.chain.isStray anchor then 1 else 0
    | _ => 0

namespace EngineM

variable {jumper id anchor new old heir : InstrId} {jumpers ids l : List InstrId} {progress done : Progress}
  {round : List Shift} {shift : Shift} {summary : UpdateSummary} {given : Instruction} {steps : Nat} {u : Unit}

/-! ## Rounds and passes -/

/-- Writing a displacement leaves lengths as they are unless it widens. -/
theorem WriteRun.sameLengths {write : DisplacementWrite} (h : WriteRun s jumper write t) :
    Session.SameLengths s t := by
  cases h with
  | indirect => exact Session.SameLengths.stepRelation.refl s
  | apart => exact Session.SameLengths.stepRelation.refl s
  | overflow => exact Session.SameLengths.stepRelation.refl s
  | written lands sec hfield write =>
    refine .of_adjust fun id instr hinstr => ?_
    by_cases hid : id = jumper
    · subst hid
      obtain rfl := Option.some.inj (lands.get.symm.trans hinstr)
      rw [Chain.only_self]
      exact Instruction.rewritten_of_write? hfield write
    · rw [Chain.only_ne hid]
      exact .refl instr

/-- A shift was added to the progress for each jump that was widened. -/
def Tallies (s t : Session) (progress done : Progress) : Prop :=
  ∃ n, done.2.length = progress.2.length + n ∧ s.Widens t n

theorem Tallies.refl (s : Session) (progress : Progress) : Tallies s s progress progress :=
  ⟨0, rfl, (Session.SameLengths.stepRelation.refl s).widens⟩

/-- Shifts and widenings of two runs of writes add up. -/
theorem Tallies.trans {middle : Progress} (h : Tallies s m progress middle) (h' : Tallies m t middle done) :
    Tallies s t progress done := by
  obtain ⟨a, ha, hm⟩ := h
  obtain ⟨b, hb, ht⟩ := h'
  exact ⟨a + b, by rw [hb, ha, Nat.add_assoc], hm.trans ht⟩

/-- A linked jumper that is settled is widened or keeps its length. -/
theorem JumperRun.tallies (h : JumperRun s jumper progress done t)
    (hlinked : s.program.chain.isLinked jumper = true) : Tallies s t progress done := by
  cases h with
  | written run => exact ⟨0, rfl, run.sameLengths.widens⟩
  | skipped run => exact ⟨0, rfl, run.sameLengths.widens⟩
  | widened lands sec hfield fits short promote =>
    rename_i source physical field long
    have hmem : jumper ∈ s.program.chain.shortJumps :=
      Chain.mem_shortJumps.mpr ⟨hlinked, source, lands.get, short⟩
    have hlong := Instruction.lengthened_of_promote? short promote
    refine ⟨1, by rw [List.length_append, List.length_singleton], ⟨?_, ?_, rfl⟩⟩
    · refine .of_adjust fun id instr hinstr => ?_
      by_cases hid : id = jumper
      · subst hid
        obtain rfl := Option.some.inj (lands.get.symm.trans hinstr)
        rw [Chain.only_self]
        exact .inr hlong
      · rw [Chain.only_ne hid]
        exact .refl instr
    · refine Chain.length_shortJumps_of_widened hmem fun instr hinstr => ?_
      obtain rfl := Option.some.inj (lands.get.symm.trans hinstr)
      exact hlong.not_short

/-- One jumper adds a shift exactly if it is widened. -/
theorem settleLinked_tallies (h : settleLinked progress jumper s = .ok done t) : Tallies s t progress done := by
  simp only [settleLinked, bind_ok, program_ok] at h
  obtain ⟨_, _, ⟨rfl, rfl⟩, h⟩ := h
  by_cases hlinked : s.program.chain.isLinked jumper = true
  · rw [if_pos hlinked] at h
    exact (settleJumper_ok h).tallies hlinked
  · rw [if_neg hlinked] at h
    obtain ⟨rfl, rfl⟩ := pure_ok.mp h
    exact .refl s progress

/-- A round of writes adds one shift for each jump that it widens. -/
theorem settleAll_tallies (h : jumpers.foldlM settleLinked progress s = .ok done t) :
    Tallies s t progress done := by
  induction jumpers generalizing s progress with
  | nil =>
    obtain ⟨rfl, rfl⟩ := foldlM_nil_ok.mp h
    exact .refl s progress
  | cons jumper jumpers ih =>
    obtain ⟨middle, m, hfirst, hrest⟩ := foldlM_cons_ok.mp h
    exact (settleLinked_tallies hfirst).trans (ih hrest)

/-- A full pass does not ask whether its jumpers are linked. -/
theorem settleJumpers_tallies (hlinked : ∀ jumper ∈ jumpers, s.program.chain.isLinked jumper = true)
    (h : jumpers.foldlM settleJumper progress s = .ok done t) : Tallies s t progress done := by
  induction jumpers generalizing s progress with
  | nil =>
    obtain ⟨rfl, rfl⟩ := foldlM_nil_ok.mp h
    exact .refl s progress
  | cons jumper jumpers ih =>
    obtain ⟨middle, m, hfirst, hrest⟩ := foldlM_cons_ok.mp h
    have hm := (settleJumper_ok hfirst).tallies (hlinked jumper (List.mem_cons_self ..))
    refine hm.trans (ih (fun other hother => ?_) hrest)
    obtain ⟨n, -, hwidens⟩ := hm
    rw [hwidens.chain.isLinked]
    exact hlinked other (List.mem_cons_of_mem _ hother)

/-- A round leaves one short jump less for each shift of the next round. -/
theorem settleRound_concludes : Concludes (settleRound round) s fun done t =>
    done.1.promoted = done.2.length ∧ done.1.passes = 1 ∧ s.Widens t done.2.length := by
  refine .of_part settleRound_refuses fun done t h => ?_
  obtain ⟨summary, next⟩ := done
  obtain ⟨moved, m, affected, written, hshifts, -, hjumpers⟩ := settleRound_run h
  have hm : Session.SameLengths s m := Keeps.mapM Session.SameLengths.stepRelation
    (fun _ _ => Session.SameLengths.moveRelation.applyShift) hshifts
  obtain ⟨n, hn, ht⟩ := settleAll_tallies hjumpers
  refine ⟨settleRound_promoted h, ?_, ?_⟩
  · simp only [settleRound, bind_ok, program_ok, liftResult_ok, pure_ok, Prod.mk.injEq] at h
    obtain ⟨_, _, _, _, _, _, _, _, _, _, _, _, ⟨rfl, rfl⟩, -⟩ := h
    rfl
  · show s.Widens t next.length
    rw [show next.length = 0 + n from hn]
    exact hm.widens.trans ht

/-- The summary has grown by the jumps that were widened, and by at most `rest` passes more than these. -/
def Totals (s t : Session) (before total : UpdateSummary) (rest : Nat) : Prop :=
  ∃ n, total.promoted = before.promoted + n ∧ total.passes ≤ before.passes + n + rest ∧ s.Widens t n

theorem Totals.refl (s : Session) (summary : UpdateSummary) : Totals s s summary summary 0 :=
  ⟨0, rfl, Nat.le_refl _, (Session.SameLengths.stepRelation.refl s).widens⟩

/-- Rounds of shifts come to an end if one more is allowed than there are short jumps. -/
theorem settleRounds_concludes
    (hsteps : s.program.chain.shortJumps.length + (if round = [] then 0 else 1) ≤ steps) :
    Concludes (settleRounds summary steps round) s fun total t =>
      Totals s t summary total (if round = [] then 0 else 1) := by
  induction steps generalizing s summary round with
  | zero =>
    cases round with
    | nil => exact .of_ok rfl (.refl s summary)
    | cons shift round => exact absurd hsteps (by simp)
  | succ steps ih =>
    cases round with
    | nil => exact .of_ok rfl (.refl s summary)
    | cons shift round =>
      refine .bind (settleRound_concludes.imp fun done m hround => ?_)
      obtain ⟨made, next⟩ := done
      obtain ⟨hpromoted, hpasses, hm⟩ := hround
      have hleft : m.program.chain.shortJumps.length + next.length
        = s.program.chain.shortJumps.length := hm.left
      rw [if_neg (List.cons_ne_nil shift round)] at hsteps ⊢
      -- another round comes only after a short jump was widened
      have hnext : (if next = [] then 0 else 1) ≤ next.length := by
        split
        · exact Nat.zero_le _
        next hne => exact List.length_pos_iff.mpr hne
      refine (ih (by omega)).imp fun total t htotal => ?_
      obtain ⟨n, htotal, hle, ht⟩ := htotal
      have hmade : (summary + made).promoted = summary.promoted + next.length :=
        congrArg (summary.promoted + ·) hpromoted
      have hmade' : (summary + made).passes = summary.passes + 1 := congrArg (summary.passes + ·) hpasses
      refine ⟨next.length + n, by rw [htotal, hmade, Nat.add_assoc], ?_, hm.trans ht⟩
      rw [hmade'] at hle
      omega

/-- The update has widened as many jumps as it says, in at most one pass more than there were short
jumps. -/
structure Converged (s : Session) (summary : UpdateSummary) (t : Session) : Prop where
  widens : s.Widens t summary.promoted
  passes : summary.passes ≤ s.program.chain.shortJumps.length + 1

/-- A summary that starts at nothing counts what was widened in all. -/
theorem Totals.converged (h : Totals s t .zero summary 1) : Converged s summary t := by
  obtain ⟨n, hn, hle, ht⟩ := h
  have hpromoted : summary.promoted = n := hn.trans (Nat.zero_add n)
  have hleft := ht.left
  have hle' : summary.passes ≤ 0 + n + 1 := hle
  exact ⟨hpromoted ▸ ht, by omega⟩

/-- What is counted in the end is not part of the program. -/
theorem counted_concludes (h : Converged s summary m) :
    Concludes (do
      if summary.promoted > 0 then
        EngineM.count .jumpsPromoted summary.promoted
      return summary : EngineM UpdateSummary) m fun total t => Converged s total t := by
  by_cases hpromoted : summary.promoted > 0
  · rw [if_pos hpromoted]
    refine .bind (.of_part count_refuses fun u t hcount => .of_ok rfl ?_)
    exact ⟨h.widens.of_program (count_program hcount), h.passes⟩
  · rw [if_neg hpromoted]
    exact .of_ok rfl h

/-- Settling concludes: each pass but the last widens a short jump, so there are not more passes than
short jumps and one. -/
theorem settle_concludes (hpasses : s.program.chain.shortJumps.length < s.program.config.maxPasses) :
    Concludes (settle shift) s fun summary t => Converged s summary t := by
  refine .bind (.of_ok rfl (.bind ((settleRounds_concludes ?_).imp fun summary t htotals => ?_)))
  · rw [if_neg (List.cons_ne_nil shift [])]
    exact hpasses
  · rw [if_neg (List.cons_ne_nil shift [])] at htotals
    exact counted_concludes htotals.converged

/-- All jumpers of a full pass are linked where what comes behind an instruction is. -/
theorem displacementPass_concludes (hs : s.program.chain.Onward) :
    Concludes displacementPass s fun done t => s.Widens t done.2 := by
  refine .of_part displacementPass_refuses fun done t h => ?_
  obtain ⟨written, widened⟩ := done
  obtain ⟨shifts, hjumpers, rfl⟩ := displacementPass_ok.mp h
  have hlinked : ∀ jumper ∈ s.program.jumpers, s.program.chain.isLinked jumper = true := by
    intro jumper hjumper
    rw [Program.jumpers_eq, List.mem_filter, Option.any_eq_true] at hjumper
    obtain ⟨hmem, instr, hinstr, -⟩ := hjumper
    refine hs.isLinked_of_mem_ids hmem ?_
    rw [Chain.contains_eq_isSome_get?, hinstr]
    rfl
  obtain ⟨n, hn, ht⟩ := settleJumpers_tallies hlinked hjumpers
  show s.Widens t shifts.length
  rwa [show shifts.length = 0 + n from hn, Nat.zero_add]

/-- Laying code out widens nothing and takes no passes. -/
theorem updateAddresses_concludes : Concludes updateAddresses s fun layout t =>
    layout.promoted = 0 ∧ layout.passes = 0 ∧ s.Widens t 0 := by
  refine .of_part updateAddresses_refuses fun layout t h => ?_
  have ht := (Session.SameLengths.moveRelation.updateAddresses h).widens
  simp only [updateAddresses, bind_ok, program_ok, pure_ok] at h
  obtain ⟨_, _, _, _, _, _, _, _, _, _, _, _, _, _, _, rfl, -⟩ := h
  exact ⟨rfl, rfl, ht⟩

/-- Full passes come to an end if one more is allowed than there are short jumps. -/
theorem displacementPasses_concludes (hs : s.program.chain.Onward)
    (hsteps : s.program.chain.shortJumps.length + 1 ≤ steps) :
    Concludes (displacementPasses summary steps) s fun total t => Totals s t summary total 1 := by
  -- every pass but the last one widens a short jump, and none becomes short again
  induction steps generalizing s summary with
  | zero => exact absurd hsteps (by simp)
  | succ steps ih =>
    refine .bind ((displacementPass_concludes hs).imp fun done m hm => ?_)
    obtain ⟨written, widened⟩ := done
    have hleft : m.program.chain.shortJumps.length + widened = s.program.chain.shortJumps.length := hm.left
    by_cases hwidened : widened = 0
    · subst hwidened
      exact .of_ok rfl ⟨0, rfl, Nat.le_refl _, hm⟩
    · show Concludes (if widened = 0 then _ else _) m _
      rw [if_neg hwidened]
      refine .bind (updateAddresses_concludes.imp fun layout m' hlayout => ?_)
      obtain ⟨hpromoted, hpasses, hm'⟩ := hlayout
      have hleft' := hm'.left
      refine (ih ((hs.evolve hm.chain).evolve hm'.chain) (by omega)).imp fun total t htotal => ?_
      obtain ⟨n, htotal, hle, ht⟩ := htotal
      have hmade : (summary + ⟨0, written, widened, 1⟩ + layout).promoted = summary.promoted + widened :=
        congrArg (summary.promoted + widened + ·) hpromoted
      have hmade' : (summary + ⟨0, written, widened, 1⟩ + layout).passes = summary.passes + 1 :=
        congrArg (summary.passes + 1 + ·) hpasses
      refine ⟨widened + n, by rw [htotal, hmade, Nat.add_assoc], ?_, hm.trans ?_⟩
      · rw [hmade'] at hle
        omega
      · have hboth := hm'.trans ht
        rwa [Nat.zero_add] at hboth

/-- Writing all displacements concludes, since passes are over once none of them widens. -/
theorem updateDisplacements_concludes (hs : s.program.chain.Onward)
    (hpasses : s.program.chain.shortJumps.length < s.program.config.maxPasses) :
    Concludes updateDisplacements s fun summary t => Converged s summary t := by
  refine .bind (.of_ok rfl (.bind ((displacementPasses_concludes hs hpasses).imp fun summary m htotals => ?_)))
  refine .bind (.of_ok rfl (counted_concludes ?_))
  exact ⟨htotals.converged.widens.of_program rfl, htotals.converged.passes⟩

/-- The layout and then the displacements conclude as the displacements do alone. -/
theorem finalize_concludes (hs : s.program.chain.Onward)
    (hpasses : s.program.chain.shortJumps.length < s.program.config.maxPasses) :
    Concludes finalize s fun summary t => Converged s summary t := by
  refine .bind (updateAddresses_concludes.imp fun layout m hlayout => ?_)
  obtain ⟨hpromoted, hpasses', hm⟩ := hlayout
  have hleft := hm.left
  rw [← hm.config] at hpasses
  refine .bind ((updateDisplacements_concludes (hs.evolve hm.chain) (by omega)).imp fun summary t ht => ?_)
  have htotal : Converged s (layout + summary) t := by
    constructor
    · have hwidens := hm.trans ht.widens
      rwa [← hpromoted] at hwidens
    · have hle := ht.passes
      show layout.passes + summary.passes ≤ _
      omega
  refine .bind (.of_ok rfl ?_)
  show Concludes (if t.program.config.verify then _ else _) t _
  by_cases hverify : t.program.config.verify = true
  · rw [if_pos hverify]
    have hcheck : Refuses Error.OfCheck (liftResult id t.program.verify : EngineM Unit) :=
      Program.verify_reports.refuses
    refine .bind (.of_refuses (hcheck.mono fun _ => Error.OfCheck.not_ofPasses) fun _ u hrun => .of_ok rfl ?_)
    obtain ⟨-, rfl⟩ := liftResult_ok.mp hrun
    exact htotal
  · rw [if_neg hverify]
    exact .of_ok rfl htotal

/-! ## Splices -/

/-- Linking an instruction lengthens none that was there. -/
theorem linkInserted_sameLengths : Keeps Session.SameLengths (linkInserted id given) := by
  intro s u t h
  obtain ⟨chain, rfl, haimed⟩ := linkInserted_ok h
  exact ⟨haimed.evolves.mono fun _ _ _ hab => hab.1.rewritten, rfl⟩

/-- Placing instructions lengthens none that was there. -/
theorem placeInserted_sameLengths {addr : UInt64} {placed : List (InstrId × Instruction)} :
    Keeps Session.SameLengths (placeInserted addr placed) := by
  have hstep := Session.SameLengths.stepRelation
  induction placed generalizing addr with
  | nil => exact Keeps.pure hstep ()
  | cons entry placed ih =>
    refine Keeps.bind hstep (fun s u t h => ?_) fun _ => Keeps.bind hstep linkInserted_sameLengths fun _ => ih
    obtain ⟨-, rfl⟩ := updateInstr_ok.mp h
    refine .of_adjust fun id instr _ => ?_
    unfold Chain.only
    split <;> exact ⟨rfl, rfl, rfl, rfl⟩

/-- Bounds of functions are beside the point. -/
theorem sameLengths_of_withOwner {owner : Option FuncId} {f : Function → Function}
    (h : Session.SameLengths (withOwner s owner f) t) : Session.SameLengths s t := by
  obtain ⟨hchain, hconfig⟩ := h
  rw [chain_withOwner] at hchain
  rw [config_withOwner] at hconfig
  exact ⟨hchain, hconfig⟩

/-- What is in the chain right after a splice is all that counts. -/
theorem shorts_of_sameLengths {c : Chain} (h : Session.SameLengths (s.withChain c) t) (hs : c.Shorts l) :
    t.program.chain.Shorts l ∧ t.program.config = s.program.config :=
  ⟨hs.evolve (h.chain.mono fun _ _ _ hab => hab.isShortJump), h.config⟩

/-- An insertion in front links at most the new instruction and the anchor, so the short jumps stay among
`l`. -/
theorem spliceBefore_shorts {retarget : Retarget} (hs : s.program.chain.Shorts l)
    (hanchor : s.program.chain.Registers l anchor) (hnew : given.isShortJump = true → new ∈ l)
    (h : spliceBefore anchor given retarget s = .ok (new, shift) t) :
    t.program.chain.Shorts l ∧ t.program.config = s.program.config := by
  obtain ⟨found, block, c, s₂, s₄, entering, s₅, -, -, hinsert, hlink, hextend, henter, ht, -⟩ :=
    spliceBefore_run h
  have hstep := Session.SameLengths.stepRelation
  have hregraphed := forBlock_regraphed (fun _ => extendBlockBefore_regraphed) hextend
  obtain ⟨hretied, -, -, hconfig, -⟩ := enteringJumpers_ok henter
  have hentered : Session.SameLengths s₄ s₅ := ⟨hretied.mono fun _ _ _ hab => hab.alike.rewritten, hconfig⟩
  have hextended := hstep.trans (linkInserted_sameLengths hlink)
    (sameLengths_of_withOwner hregraphed.sameCode.sameLengths)
  refine shorts_of_sameLengths ?_ (ChainM.insertBefore_shorts hinsert hs hanchor hnew)
  exact hstep.trans hextended (hstep.trans hentered (Session.SameLengths.moveRelation.same ht))

/-- An insertion behind links one instruction, and keeps the short jumps among `l`. -/
theorem appendAfter_shorts (hs : s.program.chain.Shorts l) (hnew : given.isShortJump = true → new ∈ l)
    (h : appendAfter anchor given s = .ok (new, shift) t) :
    t.program.chain.Shorts l ∧ t.program.config = s.program.config := by
  obtain ⟨found, block, c, s₂, s₄, -, -, hinsert, hlink, hextend, ht, -⟩ := appendAfter_run h
  have hstep := Session.SameLengths.stepRelation
  have hextended := hstep.trans (linkInserted_sameLengths hlink)
    (sameLengths_of_withOwner (updateBlock_regraphed hextend).sameCode.sameLengths)
  refine shorts_of_sameLengths ?_ (ChainM.insertAfter_shorts hinsert hs hnew)
  exact hstep.trans hextended (Session.SameLengths.moveRelation.same ht)

/-- A substitution links what comes in, and keeps the short jumps among `l`. -/
theorem spliceInstead_shorts {givens : List Instruction} (hs : s.program.chain.Shorts l)
    (hnew : ∀ placed ∈ ids.zip givens, placed.2.isShortJump = true → placed.1 ∈ l)
    (h : spliceInstead old givens s = .ok (ids, shift) t) :
    t.program.chain.Shorts l ∧ t.program.config = s.program.config := by
  obtain ⟨found, block, freed, c, first, last, s₂, head, s₃, s₄, s₆, -, -, hreplace, -, -, hplace, -, hrepoint,
    hrehome, hblocks, ht, -⟩ := spliceInstead_run h
  have hstep := Session.SameLengths.stepRelation
  have hplaced := hstep.trans (placeInserted_sameLengths hplace) (repointSymbols_sameCode hrepoint).sameLengths
  have hrehomed := hstep.trans hplaced (rehomeRelocations_retied hrehome).sameLengths
  have hblocks' := sameLengths_of_withOwner (updateBlock_regraphed hblocks).sameCode.sameLengths
  have hextended : Session.SameLengths s₄ s₆ := ⟨hblocks'.chain, hblocks'.config⟩
  have hall := hstep.trans (hstep.trans hrehomed hextended) (Session.SameLengths.moveRelation.same ht)
  refine shorts_of_sameLengths hall (ChainM.replace_shorts hreplace hs fun placed hplaced hshort => ?_)
  rw [List.zip_map_right] at hplaced
  obtain ⟨entry, hentry, rfl⟩ := List.mem_map.mp hplaced
  exact hnew entry hentry hshort

/-- A removal links nothing, and keeps the short jumps among `l`. -/
theorem excise_shorts {freed : Instruction} (hs : s.program.chain.Shorts l)
    (h : excise id s = .ok (freed, shift) t) :
    t.program.chain.Shorts l ∧ t.program.config = s.program.config := by
  obtain ⟨found, block, heir, s₂, s₃, s₄, c, edited, -, -, hcheck, -, hpass, hblocks, hfree, rfl, -, -⟩ :=
    excise_run h
  have hstep := Session.SameLengths.stepRelation
  have hpassed : Session.SameLengths s₂ s₃ := by
    obtain ⟨c, hretarget, hties, -, -, -, hconfig⟩ := passOn_retied hpass
    refine ⟨.trans (fun _ _ _ _ => .trans) ?_ (hties.mono fun _ _ _ hab => hab.alike.rewritten), hconfig⟩
    by_cases hne : id = heir
    · rw [ChainM.retargetAll, if_pos hne] at hretarget
      obtain ⟨-, rfl⟩ := pure_ok.mp hretarget
      exact .refl (fun _ => .refl) _
    · exact (ChainM.retargetAll_relinked hne hretarget).mono fun _ _ _ hab => hab.rewritten
  have hchecked := hstep.trans (checkRemovable_regraphed hcheck).sameCode.sameLengths hpassed
  have hshrunk := (forBlock_regraphed (fun _ => shrinkBlock_regraphed) hblocks).sameCode.sameLengths
  have hall := hstep.trans hchecked (sameLengths_of_withOwner hshrunk)
  obtain ⟨hs₄, hconfig⟩ := shorts_of_sameLengths (s := s) (c := s.program.chain) hall hs
  exact ⟨(ChainM.free_shorts hfree hs₄).1, hconfig⟩

/-- Fewer short jumps are placed than were given. -/
theorem countP_zip_le (ids : List InstrId) (givens : List Instruction) :
    (ids.zip givens).countP (·.2.isShortJump) ≤ givens.countP (·.isShortJump) := by
  induction givens generalizing ids with
  | nil => simp
  | cons given givens ih =>
    cases ids with
    | nil => simp
    | cons id ids =>
      rw [List.zip_cons_cons, List.countP_cons, List.countP_cons]
      exact Nat.add_le_add_right (ih ids) _

/-- What an edit leaves to be settled has no more short jumps than it found and brings. -/
theorem splice_shorts {edit : Edit} (hkind : edit.resizes = false) (hs : s.program.chain.Onward)
    (h : edit.splice s = .ok shift m) :
    m.program.chain.shortJumps.length ≤ s.program.chain.shortJumps.length + s.brought edit
      ∧ m.program.config = s.program.config := by
  -- it is enough to name the short jumps that come on top
  suffices ∃ more : List InstrId, more.length ≤ s.brought edit
      ∧ m.program.chain.Shorts (s.program.chain.shortJumps ++ more) ∧ m.program.config = s.program.config by
    obtain ⟨more, hmore, hm, hconfig⟩ := this
    have hle := hm.length_le
    rw [List.length_append] at hle
    exact ⟨Nat.le_trans hle (Nat.add_le_add_left hmore _), hconfig⟩
  have hshorts : ∀ more, s.program.chain.Shorts (s.program.chain.shortJumps ++ more) :=
    fun more => hs.shorts.subset (List.subset_append_left ..)
  cases edit with
  | insertBefore anchor given retarget =>
    simp only [Edit.splice, bind_ok, pure_ok] at h
    obtain ⟨⟨new, shift⟩, _, hsplice, rfl, rfl⟩ := h
    refine ⟨(if given.isShortJump then [new] else [])
      ++ (if s.program.chain.isStray anchor then [anchor] else []), ?_, spliceBefore_shorts (hshorts _) ?_ ?_ hsplice⟩
    · simp only [Session.brought, Edit.given, List.length_append, List.countP_singleton]
      split <;> split <;> simp
    · intro instr hinstr hshort
      by_cases hlinked : s.program.chain.isLinked anchor = true
      · exact List.mem_append_left _ (Chain.mem_shortJumps.mpr ⟨hlinked, instr, hinstr, hshort⟩)
      · have hstray : s.program.chain.isStray anchor = true := by simp [Chain.isStray, hlinked, hinstr, hshort]
        rw [if_pos hstray]
        simp
    · intro hshort
      rw [if_pos hshort]
      simp
  | insertAfter anchor given =>
    simp only [Edit.splice, bind_ok, pure_ok] at h
    obtain ⟨⟨new, shift⟩, _, hsplice, rfl, rfl⟩ := h
    have hnew : given.isShortJump = true →
        new ∈ s.program.chain.shortJumps ++ (if given.isShortJump then [new] else []) := by
      intro hshort
      rw [if_pos hshort]
      simp
    refine ⟨if given.isShortJump then [new] else [], ?_, ?_⟩
    · simp only [Session.brought, Edit.given, List.countP_singleton]
      split <;> simp
    rcases spliceAfter_ok hsplice with ⟨next, hnext, hbefore⟩ | ⟨-, happend⟩
    · -- what is inserted goes in front of an instruction that is met
      refine spliceBefore_shorts (hshorts _) (hshorts _ next (.inr (.inr ⟨anchor, ?_⟩))) hnew hbefore
      obtain ⟨node, hnode, hkin⟩ := Option.bind_eq_some_iff.mp hnext
      rw [Chain.next?, hnode]
      exact (Option.filter_eq_some_iff.mp hkin).1
    · exact appendAfter_shorts (hshorts _) hnew happend
  | substitute old givens =>
    simp only [Edit.splice, bind_ok, pure_ok] at h
    obtain ⟨⟨ids, shift⟩, _, hsplice, rfl, rfl⟩ := h
    refine ⟨((ids.zip givens).filter (·.2.isShortJump)).map (·.1), ?_,
      spliceInstead_shorts (hshorts _) (fun placed hplaced hshort => ?_) hsplice⟩
    · rw [List.length_map, ← List.countP_eq_length_filter]
      exact countP_zip_le ids givens
    · refine List.mem_append_right _ (List.mem_map.mpr ⟨placed, List.mem_filter.mpr ⟨hplaced, hshort⟩, rfl⟩)
  | remove id =>
    simp only [Edit.splice, bind_ok, pure_ok] at h
    obtain ⟨⟨freed, shift⟩, _, hsplice, rfl, rfl⟩ := h
    exact ⟨[], Nat.zero_le _, excise_shorts (hshorts _) hsplice⟩
  | resize => cases hkind

/-- An edit is its splice and then its update, also where one of them is refused. -/
theorem edit_run_eq (edit : Edit) : edit.run = edit.splice >>= fun shift => discard (settle shift) := by
  have hdiscard : ∀ {α : Type} (x : EngineM α), discard x = x >>= fun _ => pure () := by
    intro α x
    rw [Functor.discard, map_const, Function.comp_apply, map_eq_pure_bind]
  cases edit <;> simp only [Edit.run, Edit.splice, insertBefore, insertAfter, substitute, remove, shiftAddresses,
    hdiscard, bind_assoc, pure_bind]

/-- A splice is never refused for want of passes, since it makes none. -/
theorem splice_refuses {edit : Edit} (hkind : edit.resizes = false) :
    Refuses (fun cause => ¬ cause.OfPasses) edit.splice := by
  have hpart : ∀ cause : Error, cause.OfPart → ¬ cause.OfPasses := fun _ => Error.OfPart.not_ofPasses
  cases edit with
  | insertBefore anchor given retarget => exact .bind (spliceBefore_refuses.mono hpart) fun _ => .pure _
  | insertAfter anchor given => exact .bind (spliceAfter_refuses.mono hpart) fun _ => .pure _
  | substitute old givens => exact .bind (spliceInstead_refuses.mono hpart) fun _ => .pure _
  | remove id => exact .bind excise_refuses fun _ => .pure _
  | resize => cases hkind

/-- A shift on demand concludes as settling does. -/
theorem shiftAddresses_concludes {delta : Int64}
    (hpasses : s.program.chain.shortJumps.length < s.program.config.maxPasses) :
    Concludes (shiftAddresses id delta) s (Converged s) := by
  refine .bind (.of_part shiftBehind_refuses fun shift t h => ?_)
  obtain ⟨_, -, -, rfl⟩ := shiftBehind_ok h
  exact settle_concludes hpasses

/-- An edit concludes: only the update at its end takes passes, and it starts with the short jumps that
were there and those the edit brings. -/
theorem edit_concludes {edit : Edit} (hkind : edit.resizes = false) (hs : s.program.chain.Onward)
    (hpasses : s.program.chain.shortJumps.length + s.brought edit < s.program.config.maxPasses) :
    Concludes edit.run s fun _ t => ∃ shift m summary, edit.splice s = .ok shift m
      ∧ settle shift m = .ok summary t ∧ Converged m summary t := by
  rw [edit_run_eq]
  refine .bind (.of_refuses (splice_refuses hkind) fun shift m hsplice => ?_)
  obtain ⟨hle, hconfig⟩ := splice_shorts hkind hs hsplice
  have hsettle : Concludes (settle shift) m (Converged m) := settle_concludes (by rw [hconfig]; omega)
  exact hsettle.discard fun summary t hrun => ⟨shift, m, summary, hsplice, hrun, hsettle.ok hrun⟩

/-- An update that may take one pass more than there are linked short jumps does not give up widening
them. Each jump that it widens it widens once, and it takes at most so many passes. So does an edit,
where the short jumps that it links are counted in. -/
theorem promotion_converges (hs : s.program.chain.Onward) :
    (s.program.chain.shortJumps.length < s.program.config.maxPasses →
      Concludes updateDisplacements s (Converged s) ∧ Concludes finalize s (Converged s)
        ∧ ∀ id delta, Concludes (shiftAddresses id delta) s (Converged s))
      ∧ ∀ edit : Edit, edit.resizes = false →
        s.program.chain.shortJumps.length + s.brought edit < s.program.config.maxPasses →
        Concludes edit.run s fun _ t => ∃ shift m summary, edit.splice s = .ok shift m
          ∧ settle shift m = .ok summary t ∧ Converged m summary t :=
  ⟨fun hpasses => ⟨updateDisplacements_concludes hs hpasses, finalize_concludes hs hpasses, fun _ _ =>
      shiftAddresses_concludes hpasses⟩,
    fun _ hkind hpasses => edit_concludes hkind hs hpasses⟩

/-- A long instruction between a short jump and its target: the jump is widened. -/
theorem promotion_converges_hop : hop.program.chain.Onward
    ∧ hop.program.chain.shortJumps.length
      + hop.brought (.insertAfter ⟨0⟩ (.synthetic (List.replicate 200 0x90) 200 .nop)) = 1
    ∧ (∃ summary t, finalize hop = .ok summary t ∧ Converged hop summary t)
    ∧ ∃ t, Edit.run (.insertAfter ⟨0⟩ (.synthetic (List.replicate 200 0x90) 200 .nop)) hop = .ok () t
      ∧ ∃ shift m summary,
        Edit.splice (.insertAfter ⟨0⟩ (.synthetic (List.replicate 200 0x90) 200 .nop)) hop = .ok shift m
          ∧ settle shift m = .ok summary t ∧ Converged m summary t := by
  have hs : hop.program.chain.Onward := hop_wellFormed.spells.backed.onward
  have hshorts : hop.program.chain.shortJumps.length
      + hop.brought (.insertAfter ⟨0⟩ (.synthetic (List.replicate 200 0x90) 200 .nop)) = 1 := by
    decide +kernel
  have hfinalizes : Succeeds finalize hop = true := by decide +kernel
  have hedits : Succeeds (Edit.run (.insertAfter ⟨0⟩ (.synthetic (List.replicate 200 0x90) 200 .nop))) hop
      = true := by
    decide +kernel
  obtain ⟨summary, hfinalize⟩ := Succeeds.ok hfinalizes
  obtain ⟨⟨⟩, hedit⟩ := Succeeds.ok hedits
  obtain ⟨hupdates, hconcludes⟩ := promotion_converges hs
  refine ⟨hs, hshorts, ⟨summary, _, hfinalize, ?_⟩, _, hedit, ?_⟩
  · exact (hupdates (by decide +kernel)).2.1.ok hfinalize
  · refine (hconcludes _ rfl ?_).ok hedit
    rw [hshorts]
    decide

/-! Inserting in front of a detached jump links the jump, and the shift settles it as well. -/

/-- A short jump over a long instruction that was detached. One pass is allowed. -/
def detachedHop : Session :=
  outcome (onChain (ChainM.unlink ⟨0⟩))
    { program :=
        { hop.program with
          chain := .ofList
            [{ Instruction.decoded 0 [0xEB, 0x00] 1 .jump with sec := 1, target := some ⟨2⟩ },
              { Instruction.decoded 2 (List.replicate 200 0x90) 200 .nop with sec := 1, func := some ⟨0⟩ },
              { Instruction.decoded 202 [0x90] 1 .nop with
                sec := 1, targetedBy := [⟨0⟩], func := some ⟨0⟩ }]
          functions := ⟨#[{ Function.declared "f" 1 (some (⟨1⟩, ⟨2⟩)) 2 with size := 201 }]⟩
          config := ⟨1, true, true, false⟩ }
      recorder := .empty }

/-- No short jump is linked and none is inserted, and the insertion runs out of passes. -/
theorem detachedHop_not_converged : detachedHop.program.config.promote = true
    ∧ detachedHop.program.config.maxPasses = 1 ∧ detachedHop.program.chain.shortJumps = []
    ∧ (Instruction.synthetic [0x90] 1 .nop).isShortJump = false
    ∧ ∃ t, insertBefore ⟨0⟩ (.synthetic [0x90] 1 .nop) .keep detachedHop
      = .error (.promotionDidNotConverge 1) t := by
  have hfails : Fails (insertBefore ⟨0⟩ (.synthetic [0x90] 1 .nop) .keep) detachedHop
      (.promotionDidNotConverge 1) = true := by
    decide +kernel
  exact ⟨rfl, rfl, by decide +kernel, by decide, _, Fails.error hfails⟩

end EngineM

end Splice
