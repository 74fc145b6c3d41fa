import Splice.Proofs.Instruction.Coding
import Splice.Proofs.Program.Agreement

/-!
# What settling does to encodings

Settling changes the encodings of direct transfers within a section and of nothing else, and these
it leaves `Coded` as they were (`settle_recodes`). A jump is widened in a round, at addresses at
which every instruction is in its place, and it does not reach from there
(`settleRound_overflows`). So if all jumps that do not reach, as long as none but some
have been widened, are themselves among these, settling widens no other ones
(`settle_widened`).

`Session.Recodes` is what is compared when two runs of updates widen the same jumps at different
times. `settle_widened` is stated for an arbitrary set `wide`, and asks what holds of it in
every state that settling can pass through; the proof never says which states those are.
-/

namespace Splice

/-- The displacement that is encoded is the one to the target. -/
theorem Instruction.displacement?_of_encodes {source physical : Instruction}
    (h : source.encodedTarget? = some physical.addr) :
    source.displacement? = some (source.displacementTo physical) := by
  simp only [encodedTarget?, Option.bind_eq_bind, Option.bind_eq_some_iff, Option.pure_def,
    Option.some.injEq] at h
  obtain ⟨disp, hdisp, haddr⟩ := h
  have hdiff : disp.toUInt64 = physical.addr - source.endAddr := by grind
  rw [hdisp, displacementTo, ← hdiff, Int64.toInt64_toUInt64]

namespace Program

variable {program after : Program} {a b : Instruction}

/-- The landing that is encoded is the physical target of a direct transfer, if it is in the section. -/
theorem landing?_eq_some {jumper : InstrId} {source physical : Instruction} :
    program.landing? jumper source = some physical ↔ source.isDirectTransfer = true
      ∧ ∃ logical, source.target = some logical
        ∧ program.chain.get? (program.redirects.resolve jumper logical) = some physical
        ∧ physical.sec = source.sec := by
  unfold landing?
  split
  next hdirect =>
    rw [Option.filter_eq_some_iff, Option.bind_eq_some_iff, beq_iff_eq]
    constructor
    · intro h
      obtain ⟨⟨logical, htarget, hphysical⟩, hsec⟩ := h
      exact ⟨hdirect, logical, htarget, hphysical, hsec⟩
    · intro h
      obtain ⟨-, logical, htarget, hphysical, hsec⟩ := h
      exact ⟨⟨logical, htarget, hphysical⟩, hsec⟩
  next hdirect =>
    refine ⟨fun h => ?_, fun h => absurd h.1 hdirect⟩
    cases h

/-- Whether a jumper lands in its section is not a matter of addresses and encodings. -/
theorem isSome_landing?_evolve {r : InstrId → Instruction → Instruction → Prop}
    (hchain : program.chain.Evolves r after.chain) (hredirects : after.redirects = program.redirects)
    (hr : ∀ id a b, r id a b → b.sec = a.sec) (hab : a.Carried b) (id : InstrId) :
    (after.landing? id b).isSome = (program.landing? id a).isSome := by
  unfold landing?
  rw [hab.isDirectTransfer, hab.target, hab.sec, hredirects]
  split
  · rw [Option.isSome_filter, Option.isSome_filter]
    cases a.target with
    | none => rfl
    | some logical =>
      rw [Option.bind_some, Option.bind_some]
      cases hphysical : program.chain.get? (program.redirects.resolve id logical) with
      | none => rw [hchain.get?_eq_none hphysical]
      | some physical =>
        obtain ⟨physical', hphysical', hrel⟩ := hchain.get? hphysical
        rw [hphysical', Option.any_some, Option.any_some, hr _ _ _ hrel]
  · rfl

end Program

/-- The code is the same but for addresses and encodings, and no other encodings are changed than those
of direct transfers within a section. -/
structure Session.Recodes (s t : Session) : Prop where
  chain : s.program.chain.Evolves (fun id a b => a.Carried b ∧ a.Coded b
    ∧ (s.program.landing? id a = none → b.bytes = a.bytes ∧ b.opcodeSize = a.opcodeSize)) t.program.chain
  redirects : t.program.redirects = s.program.redirects
  bases : t.program.bases = s.program.bases

namespace Session.Recodes

variable {s t u : Session}

theorem refl (s : Session) : Recodes s s :=
  ⟨.refl (fun _ i => ⟨.refl i, .refl i, fun _ => ⟨rfl, rfl⟩⟩) _, rfl, rfl⟩

/-- Other encodings twice are other encodings. -/
theorem trans (h : Recodes s t) (k : Recodes t u) : Recodes s u where
  chain := by
    refine h.chain.comp (fun id a b c hab hbc => ?_) k.chain
    refine ⟨hab.1.trans hbc.1, hab.2.1.trans hbc.2.1, fun hnone => ?_⟩
    have hsame := Program.isSome_landing?_evolve h.chain h.redirects (fun _ _ _ hab => hab.1.sec) hab.1 id
    rw [hnone, Option.isSome_none, Option.isSome_eq_false_iff, Option.isNone_iff_eq_none] at hsame
    obtain ⟨hbytes, hsize⟩ := hab.2.2 hnone
    obtain ⟨hbytes', hsize'⟩ := hbc.2.2 hsame
    exact ⟨hbytes'.trans hbytes, hsize'.trans hsize⟩
  redirects := k.redirects.trans h.redirects
  bases := k.bases.trans h.bases

theorem of_program (h : t.program = s.program) : Recodes s t :=
  ⟨h ▸ (refl s).chain, by rw [h], by rw [h]⟩

/-- The encodings of one instruction that lands in its section. -/
theorem of_adjust {jumper : InstrId} {source : Instruction} {f : Instruction → Instruction}
    (hsource : s.program.chain.get? jumper = some source) (hcarried : source.Carried (f source))
    (hcoded : source.Coded (f source)) (hlands : s.program.landing? jumper source ≠ none) :
    Recodes s (s.withChain (s.program.chain.adjust (Chain.only jumper f))) where
  chain := by
    refine .of_adjust fun id instr hinstr => ?_
    by_cases hid : id = jumper
    · subst hid
      obtain rfl := Option.some.inj (hsource.symm.trans hinstr)
      rw [Chain.only_self]
      exact ⟨hcarried, hcoded, fun hnone => absurd hnone hlands⟩
    · rw [Chain.only_ne hid]
      exact ⟨.refl instr, .refl instr, fun _ => ⟨rfl, rfl⟩⟩
  redirects := rfl
  bases := rfl

end Session.Recodes

namespace EngineM

variable {s t m : Session} {l : List InstrId} {shift : Shift} {round next : List Shift}
  {summary total : UpdateSummary} {jumper : InstrId} {progress done : Progress} {wide : List InstrId}

/-! ## Encodings -/

/-- A shift changes addresses alone. -/
theorem Applied.recodes {moved : List InstrId} (h : Applied s t shift moved) : Session.Recodes s t where
  chain := by
    refine h.evolves.mono fun id a b hab => ?_
    rw [hab]
    split
    · exact ⟨⟨rfl, rfl, rfl, rfl, rfl, rfl, rfl, rfl⟩, .inl ⟨rfl, rfl, rfl, rfl⟩, fun _ => ⟨rfl, rfl⟩⟩
    · exact ⟨.refl a, .refl a, fun _ => ⟨rfl, rfl⟩⟩
  redirects := h.carries.redirects
  bases := h.carries.bases

/-- A step of a pass writes at most its jumper's encoding, which is that of a direct transfer within a
section. -/
theorem JumperRun.recodes (h : JumperRun s jumper progress done t) : Session.Recodes s t := by
  have hlands : ∀ {source physical}, s.program.Lands jumper source physical → physical.sec = source.sec →
      s.program.landing? jumper source ≠ none := by
    intro source physical lands sec
    rw [Program.landing?_of_lands lands, if_pos sec]
    exact Option.some_ne_none physical
  cases h with
  | skipped => exact .refl s
  | written run =>
    cases run with
    | written lands sec hfield write =>
      exact .of_adjust lands.get ⟨rfl, rfl, rfl, rfl, rfl, rfl, rfl, rfl⟩
        (.inl (Instruction.rewritten_of_write? hfield write)) (hlands lands sec)
  | widened lands sec hfield fits short promote =>
    exact .of_adjust lands.get ⟨rfl, rfl, rfl, rfl, rfl, rfl, rfl, rfl⟩
      (.inr ⟨short, _, promote, rfl, rfl, rfl, rfl⟩) (hlands lands sec)

/-- Settling changes addresses and those encodings alone. -/
theorem recodes_invariant (s : Session) :
    SettleInvariant fun t _ => t.program.chain.Spells l ∧ Session.Recodes s t where
  carried h hs :=
    ⟨(Session.Carries.updateRelation.applyShift h).chain.spells hs.1,
      hs.2.trans (applyShift_applied hs.1 h).recodes⟩
  jumper h hs := by
    refine ⟨(Session.Carries.updateRelation.settleLinked h).chain.spells hs.1, ?_⟩
    rcases settleLinked_ok hs.1 h with ⟨-, hrun⟩ | ⟨-, -, rfl⟩
    · exact hs.2.trans hrun.recodes
    · exact hs.2
  same h hs := ⟨h ▸ hs.1, hs.2.trans (.of_program h)⟩

theorem settle_recodes (hl : s.program.chain.Spells l) (h : settle shift s = .ok summary t) :
    Session.Recodes s t :=
  ((recodes_invariant s).settled h ⟨hl, .refl s⟩).2

/-! ## Widening -/

/-- To settle linked jumpers is to settle those of the list that are in the code. -/
theorem settleLinked_filter {ids : List InstrId} (hl : s.program.chain.Spells l)
    (h : ids.foldlM settleLinked progress s = .ok done t) :
    (ids.filter fun id => id ∈ l).foldlM settleJumper progress s = .ok done t := by
  induction ids generalizing s progress with
  | nil => exact h
  | cons jumper ids ih =>
    obtain ⟨middle, m, hfirst, hrest⟩ := foldlM_cons_ok.mp h
    have hm := (Session.Carries.updateRelation.settleLinked hfirst).chain.spells hl
    simp only [settleLinked, bind_ok, program_ok] at hfirst
    obtain ⟨_, _, ⟨rfl, rfl⟩, hfirst⟩ := hfirst
    by_cases hjumper : jumper ∈ l
    · rw [if_pos (hl.isLinked_iff.mpr hjumper)] at hfirst
      rw [List.filter_cons, if_pos (decide_eq_true hjumper)]
      exact foldlM_cons_ok.mpr ⟨middle, m, hfirst, ih hm hrest⟩
    · rw [if_neg fun hlinked => hjumper (hl.isLinked_iff.mp hlinked)] at hfirst
      obtain ⟨rfl, rfl⟩ := pure_ok.mp hfirst
      rw [List.filter_cons, if_neg (by simpa using hjumper)]
      exact ih hl hrest

/-- In a round all instructions are put in their places first. What is longer after the round than it
was then did not reach from there. -/
theorem settleRound_overflows (hs : s.program.Sited l round)
    (h : settleRound round s = .ok (summary, next) t) : ∃ m, Session.Carries s m ∧ Session.Recodes s m
      ∧ s.program.chain.Evolves (fun _ a b => b = a.relocated b.addr) m.program.chain
      ∧ m.program.LaidOut l
      ∧ ∀ jumper source after, m.program.chain.get? jumper = some source →
        t.program.chain.get? jumper = some after → after.bytes.length ≠ source.bytes.length →
        ∃ physical, m.program.Overflows jumper source physical := by
  have hl := hs.gapless.spells
  obtain ⟨moved, m, affected, count, hshifts, -, hjumpers⟩ := settleRound_run h
  have hcarries := Keeps.mapM Session.Carries.stepRelation
    (fun _ _ => Session.Carries.updateRelation.applyShift) hshifts
  have howing : m.program.Gapless l ∧ m.program.Owing l [] := by
    refine owing_invariant.applyAll hshifts ?_
    rw [List.append_nil]
    exact ⟨hs.gapless, hs.owing⟩
  have hrecodes := (@SettleInvariant.applyAll _ _ _ (recodes_invariant s) _ [] _ hshifts ⟨hl, .refl s⟩).2
  refine ⟨m, hcarries, hrecodes, applyAll_relocates hl hshifts, Program.owing_nil.mp howing.2,
    fun jumper source after hsource hafter hlength => ?_⟩
  have hrun := settleLinked_filter howing.1.spells hjumpers
  exact (settleJumpers_overflows ((nodup_eraseDups _).filter _) hrun hsource hafter hlength).2

/-- Each jump that settling widens did not reach, with all instructions in their places and some of
those jumps widened that are widened in the end. -/
theorem settleRounds_widened {steps : Nat} {start : Session} (hs : s.program.Sited l round)
    (hstart : Session.Recodes start s) (hwidened : start.program.widened s.program ⊆ wide)
    (h : settleRounds summary steps round s = .ok total t)
    (hwide : ∀ m, Session.Recodes start m → m.program.LaidOut l →
      start.program.widened m.program ⊆ wide → ∀ jumper source physical,
      m.program.Overflows jumper source physical → jumper ∈ wide) :
    start.program.widened t.program ⊆ wide := by
  induction steps generalizing s round summary with
  | zero =>
    cases round with
    | nil =>
      obtain ⟨-, rfl⟩ := pure_ok.mp h
      exact hwidened
    | cons shift round =>
      simp only [settleRounds, bind_ok, throw_ok] at h
      obtain ⟨_, _, _, h⟩ := h
      exact h.elim
  | succ steps ih =>
    cases round with
    | nil =>
      obtain ⟨-, rfl⟩ := pure_ok.mp h
      exact hwidened
    | cons shift round =>
      simp only [settleRounds, bind_ok] at h
      obtain ⟨⟨done, next⟩, u, hround, h⟩ := h
      have hl := hs.gapless.spells
      obtain ⟨m, -, hrecodes, hrelocates, hlaid, hovers⟩ := settleRound_overflows hs hround
      have hm := hstart.trans hrecodes
      have hu := hstart.trans ((recodes_invariant s).round hround ⟨hl, .refl s⟩).2
      have hsame : m.program.lengths = s.program.lengths := by
        funext id
        cases hid : s.program.chain.get? id with
        | none => rw [Program.lengths, Program.lengths, hid, hrelocates.get?_eq_none hid]
        | some a =>
          obtain ⟨b, hb, hab⟩ := hrelocates.get? hid
          rw [Program.lengths_eq hb, Program.lengths_eq hid, hab]
          rfl
      have hwidened' : start.program.widened m.program ⊆ wide := by
        rw [Program.widened, hsame]
        exact hwidened
      refine ih (hs.carry (Session.Carries.updateRelation.settleRound hround)
        (owing_invariant.round hround ⟨hs.gapless, hs.owing⟩).2) hu (fun id hid => ?_) h
      -- what is longer now was longer before the round, or it did not reach in it
      rw [Program.widened, List.mem_filter, bne_iff_ne] at hid
      by_cases hbefore : m.program.lengths id = start.program.lengths id
      · cases hstarted : start.program.chain.get? id with
        | none =>
          rw [Program.lengths, Program.lengths, hstarted, hu.chain.get?_eq_none hstarted] at hid
          exact absurd rfl hid.2
        | some a =>
          obtain ⟨b, hb, -⟩ := hm.chain.get? hstarted
          obtain ⟨c, hc, -⟩ := hu.chain.get? hstarted
          rw [← hbefore, Program.lengths_eq hb, Program.lengths_eq hc] at hid
          obtain ⟨physical, hover⟩ := hovers id b c hb hc hid.2
          exact hwide m hm hlaid hwidened' id b physical hover
      · refine hwidened' ?_
        rw [Program.widened, List.mem_filter, bne_iff_ne]
        exact ⟨hid.1, hbefore⟩

/-- Settling widens nothing but what some state on its way forces: a jump is widened when it overflows,
and then it was in `wide`. -/
theorem settle_widened (hs : s.program.Sited l [shift]) (h : settle shift s = .ok summary t)
    (hwide : ∀ m, Session.Recodes s m → m.program.LaidOut l → s.program.widened m.program ⊆ wide →
      ∀ jumper source physical, m.program.Overflows jumper source physical → jumper ∈ wide) :
    s.program.widened t.program ⊆ wide := by
  obtain ⟨m, hrounds, hsame⟩ := settle_run h
  rw [hsame]
  refine settleRounds_widened hs (.refl s) (fun id hid => ?_) hrounds hwide
  rw [Program.widened, List.mem_filter, bne_self_eq_false] at hid
  cases hid.2

end EngineM

end Splice
