import Splice.Proofs.Program.Check
import Splice.Proofs.Program.Update
import Splice.Proofs.Redirects

/-!
# Settling displacements

`settle` writes displacements anew only where it takes them to be affected. It misses
none: if before it every jumper encodes its target, apart from those named as edited by
the shift, then after it all of them do (`settle_encodes`).

The jumpers that are still to be written are, within a round, those that it has not come
to yet, and between rounds those edited by the shifts that are left (`Unsettled`). A
jumper outside of them keeps encoding its target when code is shifted, because
`jumpersInto` names it if it moves or lands on something that does
(`mem_jumpersInto`).

The set of jumpers that is left to be encoded shrinks from round to round in the same way
whether displacements are written because code moved or because a jump was widened; that is why
a single invariant, `Unsettled`, is enough. What is said here needs the order of the code and
the lists of jumpers, and nothing of layout.
-/

namespace Splice

/-! ## The jumpers that land on moved code -/

namespace Program

variable {program : Program} {l moved affected onto : List InstrId} {jumper logical id : InstrId}
  {source : Instruction}

/-- A direct transfer is among those that land on it or are it, since its own displacement depends on its
address too. -/
theorem self_mem_jumpersOnto (hsource : program.chain.get? id = some source)
    (hdirect : source.isDirectTransfer = true) (h : program.jumpersOnto id = .ok onto) : id ∈ onto := by
  simp only [jumpersOnto, bind_eq_ok, Chain.get_ok, pure_eq_ok] at h
  obtain ⟨instr, hinstr, landing, -, rfl⟩ := h
  rw [hsource, Option.some.injEq] at hinstr
  rw [← hinstr, if_pos hdirect]
  exact List.mem_append_left _ (List.mem_append_left _ (List.mem_singleton_self _))

/-- A jumper that its target lists is found for the instruction that it lands on. -/
theorem mem_jumpersOnto
    (hlisted : ∀ found, program.chain.get? logical = some found → jumper ∈ found.targetedBy)
    (hlands : program.redirects.resolve jumper logical = id) (h : program.jumpersOnto id = .ok onto) :
    jumper ∈ onto := by
  simp only [jumpersOnto, bind_eq_ok, Chain.get_ok, pure_eq_ok] at h
  obtain ⟨instr, -, landing, hlanding, rfl⟩ := h
  cases hoverride : program.redirects.overrideOf? jumper with
  | some physical =>
    rw [Redirects.resolve, hoverride, Option.getD_some] at hlands
    rw [hlands] at hoverride
    exact List.mem_append_right _ (Redirects.mem_overridesOnto hoverride)
  | none =>
    have hlanding' : program.redirects.landing logical = id := by
      rw [Redirects.resolve, hoverride, Option.getD_none] at hlands
      exact hlands
    -- the target is the landing place or redirected to it, so its jumpers are looked at
    have hmem : logical ∈ id :: program.redirects.sourcesOf id :=
      List.mem_cons.mpr (Redirects.mem_sourcesOf hlanding')
    obtain ⟨jumpers, hjumpers, hrun⟩ := exists_of_mapM_eq_ok hlanding hmem
    simp only [bind_eq_ok, Chain.get_ok, pure_eq_ok] at hrun
    obtain ⟨found, hfound, rfl⟩ := hrun
    refine List.mem_append_left _ (List.mem_append_right _ (List.mem_flatten.mpr ⟨_, hjumpers, ?_⟩))
    rw [List.mem_filter]
    exact ⟨hlisted found hfound, by simpa using hlands⟩

/-- What is found for one of the instructions that move is affected. -/
theorem mem_jumpersInto_of_mem (h : program.jumpersInto moved = .ok affected) (hid : id ∈ moved)
    (hfound : ∀ onto, program.jumpersOnto id = .ok onto → jumper ∈ onto) : jumper ∈ affected := by
  simp only [jumpersInto, bind_eq_ok, pure_eq_ok] at h
  obtain ⟨lists, hlists, rfl⟩ := h
  obtain ⟨onto, honto, hrun⟩ := exists_of_mapM_eq_ok hlists hid
  exact List.mem_eraseDups.mpr (List.mem_flatten.mpr ⟨onto, honto, hfound onto hrun⟩)

/-- A direct transfer that its target lists is affected if it moves or lands on something that moves. -/
theorem mem_jumpersInto_of_listed (hsource : program.chain.get? jumper = some source)
    (hdirect : source.isDirectTransfer = true)
    (hlisted : ∀ target ∈ source.references, ∀ found, program.chain.get? target = some found →
      jumper ∈ found.targetedBy)
    (h : program.jumpersInto moved = .ok affected)
    (hmoved : jumper ∈ moved ∨ ∃ logical, source.target = some logical
      ∧ program.redirects.resolve jumper logical ∈ moved) : jumper ∈ affected := by
  rcases hmoved with hself | ⟨logical, htarget, hlands⟩
  · exact mem_jumpersInto_of_mem h hself fun onto => self_mem_jumpersOnto hsource hdirect
  · have hrefers : logical ∈ source.references := by
      simp [Instruction.references, htarget]
    exact mem_jumpersInto_of_mem h hlands fun onto => mem_jumpersOnto (hlisted logical hrefers) rfl

/-- A direct transfer that moves or lands on something that moves is affected. -/
theorem mem_jumpersInto (hl : program.chain.Listed l) (hjumper : jumper ∈ l)
    (hsource : program.chain.get? jumper = some source) (hdirect : source.isDirectTransfer = true)
    (htarget : source.target = some logical) (h : program.jumpersInto moved = .ok affected)
    (hmoved : jumper ∈ moved ∨ program.redirects.resolve jumper logical ∈ moved) :
    jumper ∈ affected := by
  refine mem_jumpersInto_of_listed hsource hdirect (fun target hrefers found hfound => ?_) h
    (hmoved.imp_right fun hland => ⟨logical, htarget, hland⟩)
  obtain ⟨-, found', hfound', hlisted⟩ := hl jumper hjumper source hsource target hrefers
  rw [hfound, Option.some.injEq] at hfound'
  exact hfound' ▸ hlisted

/-- Encoding depends on the jumper and on where it lands. -/
theorem Encodes.congr {after : Program} (h : program.Encodes jumper)
    (hlands : ∀ source' logical', after.chain.get? jumper = some source' →
      source'.target = some logical' → source'.isDirectTransfer = true →
      ∃ source logical, program.chain.get? jumper = some source ∧ source.target = some logical
        ∧ source.isDirectTransfer = true ∧ source'.sec = source.sec
        ∧ source'.encodedTarget? = source.encodedTarget?
        ∧ ∀ physical,
          program.chain.get? (program.redirects.resolve jumper logical) = some physical →
          ∃ physical',
            after.chain.get? (after.redirects.resolve jumper logical') = some physical'
              ∧ physical'.sec = physical.sec ∧ physical'.addr = physical.addr) :
    after.Encodes jumper := by
  intro source' logical' hsource' htarget' hdirect'
  obtain ⟨source, logical, hsource, htarget, hdirect, hsec, hencoded, hland⟩ :=
    hlands source' logical' hsource' htarget' hdirect'
  obtain ⟨physical, hphysical, hway⟩ := h source logical hsource htarget hdirect
  obtain ⟨physical', hphysical', hsec', haddr'⟩ := hland physical hphysical
  refine ⟨physical', hphysical', fun hsame => ?_⟩
  rw [hencoded, haddr']
  exact hway (by rw [← hsec', ← hsec]; exact hsame)

end Program

namespace EngineM

variable {s t : Session} {l : List InstrId} {jumper : InstrId}

/-! ## Shifting -/

/-- Shifts carried out one after the other leave what none of them moves. -/
theorem applyAll_ok {round : List Shift} {moved : List (List InstrId)}
    (hl : s.program.chain.Spells l) (h : round.mapM applyShift s = .ok moved t)
    {id : InstrId} (hid : id ∉ moved.flatten) :
    t.program.chain.get? id = s.program.chain.get? id := by
  induction round generalizing s moved with
  | nil =>
    rw [mapM_nil_ok] at h
    obtain ⟨rfl, rfl⟩ := h
    rfl
  | cons shift round ih =>
    rw [mapM_cons_ok] at h
    obtain ⟨ids, m, rest, hfirst, hrest, rfl⟩ := h
    have hreach : (s.program.chain.reach shift).Nodup :=
      (hl.nodup_walk shift.first).sublist (List.takeWhile_sublist _)
    have happlied := applyShift_ok hreach hfirst
    rw [List.flatten_cons, List.mem_append, not_or] at hid
    rw [ih (happlied.carries.chain.spells hl) hrest hid.2, happlied.moved id hid.1]

/-! ## Settling a jumper -/

/-- A change of the bytes of one instruction leaves what other jumpers encode alone. -/
theorem encodes_of_ne {f : Instruction → Instruction} {other : InstrId}
    (hf : ∀ instr, (f instr).sec = instr.sec ∧ (f instr).addr = instr.addr) (hne : other ≠ jumper)
    (h : s.program.Encodes other) :
    (s.withChain (s.program.chain.adjust (Chain.only jumper f))).program.Encodes other := by
  have hget : ∀ id, (s.withChain (s.program.chain.adjust (Chain.only jumper f))).program.chain.get? id
      = (s.program.chain.get? id).map (Chain.only jumper f id) := fun _ => Chain.get?_adjust
  refine h.congr fun source' logical hsource' htarget hdirect => ?_
  rw [hget, Option.map_eq_some_iff] at hsource'
  obtain ⟨source, hsource, rfl⟩ := hsource'
  rw [Chain.only_ne hne] at htarget hdirect ⊢
  refine ⟨source, logical, hsource, htarget, hdirect, rfl, rfl, fun physical hphysical => ?_⟩
  refine ⟨Chain.only jumper f (s.program.redirects.resolve other logical) physical, ?_, ?_⟩
  · rw [hget]
    show (s.program.chain.get? (s.program.redirects.resolve other logical)).map _ = _
    rw [hphysical]
    rfl
  · unfold Chain.only
    split
    · exact hf physical
    · exact ⟨rfl, rfl⟩

/-- After a write that does not widen, the displacement is right, whether it was written or needed no
writing. -/
theorem WriteRun.encodes {write : DisplacementWrite} (h : WriteRun s jumper write t)
    (hwrite : write = .written ∨ write = .skipped) : t.program.Encodes jumper := by
  cases h with
  | indirect get direct =>
    intro source logical hsource _ hdirect
    rw [get, Option.some.injEq] at hsource
    rw [← hsource, direct] at hdirect
    cases hdirect
  | apart lands sec =>
    rename_i source physical
    obtain ⟨hget, -, logical, htarget, hphysical, -⟩ := lands
    intro source' logical' hsource' htarget' _
    rw [hget, Option.some.injEq] at hsource'
    subst hsource'
    rw [htarget, Option.some.injEq] at htarget'
    subst htarget'
    exact ⟨physical, hphysical, fun hsame => absurd hsame sec⟩
  | overflow => rcases hwrite with hwrite | hwrite <;> cases hwrite
  -- written lands|the jumper itself may be where it lands, so the landing is looked up after the write
  | written lands sec hfield write =>
    rename_i source physical field bytes
    obtain ⟨hget, -, logical, htarget, hphysical, -⟩ := lands
    intro source' logical' hsource' htarget' _
    replace hsource' : (s.program.chain.adjust (Chain.only jumper (.withBytes bytes))).get? jumper
      = some source' := hsource'
    rw [Chain.get?_adjust, hget, Option.map_some, Option.some.injEq, Chain.only_self] at hsource'
    subst hsource'
    replace htarget' : source.target = some logical' := htarget'
    rw [htarget, Option.some.injEq] at htarget'
    subst htarget'
    refine ⟨Chain.only jumper (.withBytes bytes) (s.program.redirects.resolve jumper logical)
      physical, ?_, fun _ => ?_⟩
    · show (s.program.chain.adjust (Chain.only jumper (.withBytes bytes))).get? _ = _
      rw [Chain.get?_adjust]
      show (s.program.chain.get? (s.program.redirects.resolve jumper logical)).map _ = _
      rw [hphysical]
      rfl
    · have hencoded := Instruction.encodedTarget?_of_write? hfield write
      rw [Instruction.withBytes, hencoded]
      unfold Chain.only
      split <;> rfl

/-- A settled jumper encodes its target or was widened, and no other one is affected. -/
theorem JumperRun.encodes {progress done : Progress} (h : JumperRun s jumper progress done t) :
    (t.program.Encodes jumper ∨ jumper ∈ done.2.flatMap (·.edited))
      ∧ (∀ shift ∈ progress.2, shift ∈ done.2)
      ∧ ∀ other, other ≠ jumper → s.program.Encodes other → t.program.Encodes other := by
  cases h with
  | written run =>
    refine ⟨.inl (run.encodes (.inl rfl)), fun _ h => h, fun other hne hother => ?_⟩
    cases run with
    | written => exact encodes_of_ne (fun _ => ⟨rfl, rfl⟩) hne hother
  | skipped run => exact ⟨.inl (run.encodes (.inr rfl)), fun _ h => h, fun _ _ hother => hother⟩
  | widened =>
    refine ⟨.inr ?_, fun shift hshift => List.mem_append_left _ hshift, fun other hne hother => ?_⟩
    · rw [List.flatMap_append, List.mem_append]
      exact .inr (by simp [widening])
    · exact encodes_of_ne (fun _ => ⟨rfl, rfl⟩) hne hother

/-! ## Rounds -/

/-- The jumpers of the code that do not yet encode their targets are among `pending`. -/
def Unsettled (s : Session) (l pending : List InstrId) : Prop :=
  ∀ jumper ∈ l, s.program.Encodes jumper ∨ jumper ∈ pending

/-- A jumper that is no longer linked is passed by. -/
theorem settleLinked_ok {progress done : Progress} (hl : s.program.chain.Spells l)
    (h : settleLinked progress jumper s = .ok done t) :
    jumper ∈ l ∧ JumperRun s jumper progress done t
      ∨ jumper ∉ l ∧ done = progress ∧ t = s := by
  simp only [settleLinked, bind_ok, program_ok] at h
  obtain ⟨_, _, ⟨rfl, rfl⟩, h⟩ := h
  by_cases hjumper : jumper ∈ l
  · rw [if_pos (hl.isLinked_iff.mpr hjumper)] at h
    exact .inl ⟨hjumper, settleJumper_ok h⟩
  · rw [if_neg fun hlinked => hjumper (hl.isLinked_iff.mp hlinked)] at h
    obtain ⟨rfl, rfl⟩ := pure_ok.mp h
    exact .inr ⟨hjumper, rfl, rfl⟩

/-- After a round of writes, what is left to be encoded is what the shifts of the round's widenings
name. -/
theorem settleAll_ok {jumpers : List InstrId} {progress done : Progress}
    (hl : s.program.chain.Spells l) (h : jumpers.foldlM settleLinked progress s = .ok done t)
    (hs : Unsettled s l (jumpers ++ progress.2.flatMap (·.edited))) :
    Unsettled t l (done.2.flatMap (·.edited)) := by
  -- what is not encoded yet is among the jumpers to come or named by a shift to come
  induction jumpers generalizing s progress with
  | nil =>
    obtain ⟨rfl, rfl⟩ := foldlM_nil_ok.mp h
    exact hs
  | cons jumper jumpers ih =>
    obtain ⟨middle, m, hfirst, hrest⟩ := foldlM_cons_ok.mp h
    rcases settleLinked_ok hl hfirst with ⟨-, hrun⟩ | ⟨hjumper, rfl, rfl⟩
    · obtain ⟨hself, hkept, hothers⟩ := hrun.encodes
      refine ih ((Session.Carries.updateRelation.jumperRun hrun).chain.spells hl) hrest fun other hother => ?_
      by_cases hne : other = jumper
      · rw [hne]
        rcases hself with hself | hself
        · exact .inl hself
        · exact .inr (List.mem_append_right _ hself)
      · rcases hs other hother with henc | hpending
        · exact .inl (hothers other hne henc)
        · right
          rw [List.cons_append, List.mem_cons] at hpending
          rcases List.mem_append.mp (hpending.resolve_left hne) with hmem | hmem
          · exact List.mem_append_left _ hmem
          · obtain ⟨shift, hshift, hin⟩ := List.mem_flatMap.mp hmem
            exact List.mem_append_right _ (List.mem_flatMap.mpr ⟨shift, hkept shift hshift, hin⟩)
    · refine ih hl hrest fun other hother => ?_
      rcases hs other hother with henc | hpending
      · exact .inl henc
      · rw [List.cons_append, List.mem_cons] at hpending
        exact .inr (hpending.resolve_left fun he => hjumper (he ▸ hother))

/-- The parts of a round: the shifts, the jumpers that they affect, and what settling those does. -/
theorem settleRound_run {round next : List Shift} {summary : UpdateSummary}
    (h : settleRound round s = .ok (summary, next) t) :
    ∃ moved m affected written, round.mapM applyShift s = .ok moved m
      ∧ m.program.jumpersInto moved.flatten = .ok affected
      ∧ (affected ++ round.flatMap (·.edited)).eraseDups.foldlM settleLinked (0, []) m
          = .ok (written, next) t := by
  simp only [settleRound, bind_ok, program_ok, liftResult_ok] at h
  obtain ⟨moved, m, hshifts, _, _, ⟨rfl, rfl⟩, affected, _, ⟨haffected, rfl⟩, done, _, hjumpers,
    h⟩ := h
  obtain ⟨written, widened⟩ := done
  obtain ⟨hdone, rfl⟩ := pure_ok.mp h
  rw [Prod.mk.injEq] at hdone
  obtain ⟨-, rfl⟩ := hdone
  exact ⟨moved, m, affected, written, hshifts, haffected, hjumpers⟩

/-- After the shifts of a round only the jumpers that they affect or name are left to be written. -/
theorem applyAll_unsettled {round : List Shift} {moved : List (List InstrId)}
    {affected : List InstrId} (hl : s.program.chain.Spells l) (hlisted : s.program.chain.Listed l)
    (hshifts : round.mapM applyShift s = .ok moved t)
    (haffected : t.program.jumpersInto moved.flatten = .ok affected)
    (hs : Unsettled s l (round.flatMap (·.edited))) :
    Unsettled t l (affected ++ round.flatMap (·.edited)).eraseDups := by
  have hcarries := Keeps.mapM Session.Carries.stepRelation
    (fun _ _ => Session.Carries.updateRelation.applyShift) hshifts
  have hlisted' : t.program.chain.Listed l :=
    hlisted.evolve hcarries.chain (fun _ _ _ h => h.references) (fun _ _ _ h => h.targetedBy)
  have hl' := hcarries.chain.spells hl
  intro jumper hjumper
  rw [List.mem_eraseDups]
  by_cases hpending : jumper ∈ affected ++ round.flatMap (·.edited)
  · exact .inr hpending
  · rw [List.mem_append, not_or] at hpending
    left
    have henc := (hs jumper hjumper).resolve_right hpending.2
    obtain ⟨source, hsource⟩ := hl'.get?_isSome hjumper
    by_cases hdirect : source.isDirectTransfer = true
    · cases htarget : source.target with
      | none => simp [Instruction.isDirectTransfer, htarget] at hdirect
      | some logical =>
        -- neither the jumper nor what it lands on has moved
        have hstill : jumper ∉ moved.flatten
            ∧ t.program.redirects.resolve jumper logical ∉ moved.flatten := by
          refine ⟨fun hmoved => hpending.1 ?_, fun hmoved => hpending.1 ?_⟩
          · exact Program.mem_jumpersInto hlisted' hjumper hsource hdirect htarget haffected
              (.inl hmoved)
          · exact Program.mem_jumpersInto hlisted' hjumper hsource hdirect htarget haffected
              (.inr hmoved)
        refine henc.congr fun source' logical' hsource' htarget' _ => ?_
        rw [hsource, Option.some.injEq] at hsource'
        subst hsource'
        rw [htarget, Option.some.injEq] at htarget'
        subst htarget'
        rw [applyAll_ok hl hshifts hstill.1] at hsource
        refine ⟨source, logical, hsource, htarget, hdirect, rfl, rfl, fun physical hphysical => ?_⟩
        refine ⟨physical, ?_, rfl, rfl⟩
        rw [applyAll_ok hl hshifts hstill.2, hcarries.redirects]
        exact hphysical
    · intro source' logical hsource' _ hdirect'
      rw [hsource, Option.some.injEq] at hsource'
      exact absurd (hsource' ▸ hdirect') hdirect

/-- After a round, what is left to be encoded is what the next round is about to write: the jumpers on
both sides of each move. -/
theorem settleRound_ok {round next : List Shift} {summary : UpdateSummary}
    (hl : s.program.chain.Spells l) (hlisted : s.program.chain.Listed l)
    (h : settleRound round s = .ok (summary, next) t)
    (hs : Unsettled s l (round.flatMap (·.edited))) :
    Unsettled t l (next.flatMap (·.edited)) := by
  obtain ⟨moved, m, affected, written, hshifts, haffected, hjumpers⟩ := settleRound_run h
  have hcarries := Keeps.mapM Session.Carries.stepRelation
    (fun _ _ => Session.Carries.updateRelation.applyShift) hshifts
  have hm := applyAll_unsettled hl hlisted hshifts haffected hs
  exact settleAll_ok (hcarries.chain.spells hl) hjumpers (by simpa using hm)

/-- When the rounds are over, nothing is left to be encoded. The induction is on the passes allowed. -/
theorem settleRounds_ok {steps : Nat} {round : List Shift} {summary total : UpdateSummary}
    (hl : s.program.chain.Spells l) (hlisted : s.program.chain.Listed l)
    (h : settleRounds summary steps round s = .ok total t)
    (hs : Unsettled s l (round.flatMap (·.edited))) : Unsettled t l [] := by
  -- a round takes what its shifts name for what the next ones name
  induction steps generalizing s round summary with
  | zero =>
    cases round with
    | nil =>
      obtain ⟨-, rfl⟩ := pure_ok.mp h
      exact hs
    | cons shift round =>
      simp only [settleRounds, bind_ok, throw_ok] at h
      obtain ⟨_, _, _, h⟩ := h
      exact h.elim
  | succ steps ih =>
    cases round with
    | nil =>
      obtain ⟨-, rfl⟩ := pure_ok.mp h
      exact hs
    | cons shift round =>
      simp only [settleRounds, bind_ok] at h
      obtain ⟨⟨done, next⟩, m, hround, h⟩ := h
      have hcarries := Session.Carries.updateRelation.settleRound hround
      exact ih (hcarries.chain.spells hl)
        (hlisted.evolve hcarries.chain (fun _ _ _ h => h.references) (fun _ _ _ h => h.targetedBy))
        h (settleRound_ok hl hlisted hround hs)

/-- What settling does beyond its rounds is to count. -/
theorem settle_run {shift : Shift} {summary : UpdateSummary} (h : settle shift s = .ok summary t) :
    ∃ m, settleRounds .zero s.program.config.maxPasses [shift] s = .ok summary m
      ∧ t.program = m.program := by
  simp only [settle, bind_ok, program_ok] at h
  obtain ⟨_, _, ⟨rfl, rfl⟩, total, m, hrounds, h⟩ := h
  by_cases hpromoted : total.promoted > 0
  · simp only [hpromoted, if_true, bind_ok, pure_ok] at h
    obtain ⟨_, _, hcount, rfl, rfl⟩ := h
    rw [count, modify_ok] at hcount
    exact ⟨m, hrounds, by rw [hcount]⟩
  · simp only [hpromoted, if_false, pure_ok] at h
    obtain ⟨rfl, rfl⟩ := h
    exact ⟨m, hrounds, rfl⟩

/-- Settling a shift leaves every jumper encoding its target, if only those that the shift names as
edited did not before. -/
theorem settle_encodes {shift : Shift} {summary : UpdateSummary} (hl : s.program.chain.Spells l)
    (hlisted : s.program.chain.Listed l) (h : settle shift s = .ok summary t)
    (hs : Unsettled s l shift.edited) : ∀ jumper ∈ l, t.program.Encodes jumper := by
  obtain ⟨m, hrounds, hsame⟩ := settle_run h
  have hm := settleRounds_ok hl hlisted hrounds (by simpa using hs)
  intro jumper hjumper
  rw [hsame]
  exact (hm jumper hjumper).resolve_right (by simp)

end EngineM

end Splice
