import Splice.Proofs.Program.Passes
import Splice.Proofs.Program.Splicing

/-!
# Settling many jumpers at once

What becomes of a jumper when it is settled depends on its own bytes, on its own address and
on the address that it lands at; settling other jumpers changes none of that. So there is a
function, `Program.rewritten`, that says what becomes of each jumper, and settling any list of
jumpers is to apply it to all of them at once (`settleJumpers_rewrites`), in whatever order
they come. A jumper that encodes its target is left as it is (`Program.rewritten_of_encodes`):
a list may leave out such jumpers, or name them, to the same effect.

This is what makes the order in which jumpers are collected irrelevant. A local update writes
the jumpers that moved code affects, and a full one writes all; by `settleJumpers_rewrites` both
write the same bytes as long as neither widens anything, which is how the two are compared in
`Splice.Proofs.Program.Agreement`.
-/

namespace Splice

namespace Program

/-- The physical target of a direct transfer, if that lies in the section of the transfer. -/
def landing? (program : Program) (jumper : InstrId) (source : Instruction) : Option Instruction :=
  if source.isDirectTransfer then
    (source.target.bind fun logical =>
      program.chain.get? (program.redirects.resolve jumper logical)).filter
        fun physical => physical.sec == source.sec
  else
    none

/-- What settling makes of a jumper: it is written anew, or widened if it does not reach. -/
def rewritten (program : Program) (jumper : InstrId) (source : Instruction) : Instruction :=
  match program.landing? jumper source, source.displacementField? with
  | some physical, some field =>
    match field.write? source.bytes (source.displacementTo physical) with
    | some bytes => source.withBytes bytes
    | none =>
      match Encoding.promote? source.bytes source.opcodeSize with
      | some long => source.widened long
      | none => source
  | _, _ => source

variable {program after : Program} {jumper : InstrId} {source physical : Instruction}

/-- The landing that is encoded is the physical target, unless that is in another section. -/
theorem landing?_of_lands (h : program.Lands jumper source physical) :
    program.landing? jumper source = if physical.sec = source.sec then some physical else none := by
  obtain ⟨logical, htarget, hphysical, -⟩ := h.target
  rw [landing?, if_pos h.direct, htarget, Option.bind_some, hphysical, Option.filter_some]
  by_cases hsec : physical.sec = source.sec
  · rw [if_pos hsec, if_pos (beq_iff_eq.mpr hsec)]
  · rw [if_neg hsec, if_neg fun he => hsec (beq_iff_eq.mp he)]

theorem rewritten_of_landing?_none (h : program.landing? jumper source = none) :
    program.rewritten jumper source = source := by
  rw [rewritten, h]

theorem rewritten_of_indirect (h : source.isDirectTransfer = false) :
    program.rewritten jumper source = source :=
  rewritten_of_landing?_none (by rw [landing?, h]; rfl)

theorem rewritten_of_write? {field : DisplacementField} {bytes : List UInt8}
    (hlanding : program.landing? jumper source = some physical)
    (hfield : source.displacementField? = some field)
    (hwrite : field.write? source.bytes (source.displacementTo physical) = some bytes) :
    program.rewritten jumper source = source.withBytes bytes := by
  rw [rewritten, hlanding, hfield]
  simp only [hwrite]

/-- A displacement that does not fit makes a jump that can be widened wide. -/
theorem rewritten_of_promote? {field : DisplacementField} {long : Encoding.Promotion}
    (hlanding : program.landing? jumper source = some physical)
    (hfield : source.displacementField? = some field)
    (hfits : field.fits (source.displacementTo physical) = false)
    (hlong : Encoding.promote? source.bytes source.opcodeSize = some long) :
    program.rewritten jumper source = source.widened long := by
  have hwrite : field.write? source.bytes (source.displacementTo physical) = none := by
    rw [DisplacementField.write?, hfits, Bool.false_and]
    rfl
  rw [rewritten, hlanding, hfield]
  simp only [hwrite, hlong]

/-- Where a jumper lands, and what becomes of it, is a matter of sections and addresses alone. -/
theorem rewritten_evolve {r : InstrId → Instruction → Instruction → Prop}
    (hchain : program.chain.Evolves r after.chain) (hredirects : after.redirects = program.redirects)
    (hr : ∀ id a b, r id a b → b.sec = a.sec ∧ b.addr = a.addr) (jumper : InstrId)
    (source : Instruction) : after.rewritten jumper source = program.rewritten jumper source := by
  by_cases hdirect : source.isDirectTransfer = true
  · cases htarget : source.target with
    | none => simp [Instruction.isDirectTransfer, htarget] at hdirect
    | some logical =>
      simp only [rewritten, landing?, if_pos hdirect, htarget, Option.bind_some, hredirects]
      cases hphysical : program.chain.get? (program.redirects.resolve jumper logical) with
      | none => rw [hchain.get?_eq_none hphysical]
      | some physical =>
        obtain ⟨physical', hphysical', hrel⟩ := hchain.get? hphysical
        obtain ⟨hsec, haddr⟩ := hr _ _ _ hrel
        rw [hphysical', Option.filter_some, Option.filter_some, hsec]
        by_cases hsame : (physical.sec == source.sec) = true
        · rw [if_pos hsame, if_pos hsame]
          cases source.displacementField? with
          | none => rfl
          | some field => simp only [Instruction.displacementTo, haddr]
        · rw [if_neg hsame, if_neg hsame]
  · rw [Bool.not_eq_true] at hdirect
    rw [rewritten_of_indirect hdirect, rewritten_of_indirect hdirect]

/-- A jumper that encodes its target is left as it is. -/
theorem rewritten_of_encodes (h : program.Encodes jumper)
    (hsource : program.chain.get? jumper = some source) :
    program.rewritten jumper source = source := by
  cases hlanding : program.landing? jumper source with
  | none => exact rewritten_of_landing?_none hlanding
  | some physical =>
    have hlands := hlanding
    unfold landing? at hlands
    split at hlands
    next hdirect =>
      rw [Option.filter_eq_some_iff, Option.bind_eq_some_iff] at hlands
      obtain ⟨⟨logical, htarget, hphysical⟩, hsec⟩ := hlands
      obtain ⟨physical', hphysical', hencoded⟩ := h source logical hsource htarget hdirect
      rw [hphysical, Option.some.injEq] at hphysical'
      subst hphysical'
      have htargeted := hencoded (beq_iff_eq.mp hsec)
      simp only [Instruction.encodedTarget?, Instruction.displacement?, Option.bind_eq_bind,
        Option.bind_eq_some_iff, Option.pure_def, Option.some.injEq] at htargeted
      obtain ⟨disp, ⟨field, hfield, hread⟩, haddr⟩ := htargeted
      -- the displacement that is read leads from the end of the jumper to its target
      have hdisp : disp = source.displacementTo physical := by
        have hdiff : disp.toUInt64 = physical.addr - source.endAddr := by grind
        rw [Instruction.displacementTo, ← hdiff, Int64.toInt64_toUInt64]
      subst hdisp
      rw [rewritten_of_write? hlanding hfield (DisplacementField.write?_of_read? hread)]
      rfl
    next => cases hlands

end Program

namespace EngineM

variable {s m t : Session} {l ids : List InstrId} {jumper : InstrId} {progress middle done : Progress}

/-- All jumpers of a list have been settled at once, and the progress tells whether any of them was
widened. -/
structure Rewrites (s t : Session) (ids : List InstrId) (progress done : Progress) : Prop where
  session : t = s.withChain (s.program.chain.adjust fun id instr =>
    if id ∈ ids then s.program.rewritten id instr else instr)
  le : progress.2.length ≤ done.2.length
  unwidened : done.2.length = progress.2.length ↔ ∀ id ∈ ids, ∀ instr,
    s.program.chain.get? id = some instr →
    (s.program.rewritten id instr).bytes.length = instr.bytes.length

/-- Settling no jumpers changes nothing. -/
theorem Rewrites.nil (s : Session) (progress : Progress) : Rewrites s s [] progress progress where
  session := by
    rw [Chain.adjust_self fun id instr _ => if_neg (List.not_mem_nil)]
    rfl
  le := Nat.le_refl _
  unwidened := ⟨fun _ _ h => absurd h List.not_mem_nil, fun _ => rfl⟩

/-- Settling changes neither sections nor addresses. -/
theorem rewritten_place (program : Program) (id : InstrId) (instr : Instruction) :
    (program.rewritten id instr).sec = instr.sec ∧ (program.rewritten id instr).addr = instr.addr := by
  unfold Program.rewritten
  split
  · split
    · exact ⟨rfl, rfl⟩
    · split <;> exact ⟨rfl, rfl⟩
  · exact ⟨rfl, rfl⟩

/-- Settling jumpers makes of each of them what it is rewritten to, and of others nothing. -/
theorem Rewrites.evolves (h : Rewrites s t ids progress done) :
    s.program.chain.Evolves (fun id a b => b = if id ∈ ids then s.program.rewritten id a else a)
      t.program.chain := by
  have hchain : t.program.chain = s.program.chain.adjust fun id instr =>
      if id ∈ ids then s.program.rewritten id instr else instr :=
    congrArg (·.program.chain) h.session
  rw [hchain]
  exact .of_adjust fun _ _ _ => rfl

/-- What a jumper is rewritten to depends on nothing that settling others changes, since addresses stay
until the round is over. -/
theorem Rewrites.rewritten (h : Rewrites s t ids progress done) (id : InstrId)
    (instr : Instruction) : t.program.rewritten id instr = s.program.rewritten id instr := by
  refine Program.rewritten_evolve h.evolves (by rw [h.session]; rfl) (fun x a b hab => ?_) id instr
  rw [hab]
  split
  · exact rewritten_place s.program x a
  · exact ⟨rfl, rfl⟩

theorem withChain_adjust (s : Session) (f g : InstrId → Instruction → Instruction) :
    (s.withChain (s.program.chain.adjust f)).withChain
        ((s.withChain (s.program.chain.adjust f)).program.chain.adjust g)
      = s.withChain (s.program.chain.adjust fun id instr => g id (f id instr)) :=
  congrArg s.withChain Chain.adjust_adjust

/-- One jumper more: its step does not disturb the others, nor theirs it, so the first step and the rest
are one step on all. -/
theorem Rewrites.cons (hjumper : jumper ∉ ids) (h : Rewrites s m [jumper] progress middle)
    (k : Rewrites m t ids middle done) : Rewrites s t (jumper :: ids) progress done where
  session := by
    have hrewritten : m.program.rewritten = s.program.rewritten :=
      funext fun id => funext fun instr => h.rewritten id instr
    have hfirst := h.session
    have hrest := k.session
    rw [hrewritten, hfirst] at hrest
    rw [hrest, withChain_adjust]
    refine congrArg s.withChain (Chain.adjust_congr fun id instr _ => ?_)
    by_cases hid : id = jumper
    · subst hid
      rw [if_neg hjumper, if_pos (List.mem_singleton_self id), if_pos (List.mem_cons_self ..)]
    · simp only [List.mem_cons, hid, false_or, List.not_mem_nil, if_false]
  le := Nat.le_trans h.le k.le
  -- the lists of shifts only grow, so nothing is added in all exactly if nothing is added in either part
  unwidened := by
    have hget : ∀ id ∈ ids, m.program.chain.get? id = s.program.chain.get? id := by
      intro id hid
      have hne : id ∉ [jumper] := fun he => hjumper (List.mem_singleton.mp he ▸ hid)
      rw [h.session]
      show (s.program.chain.adjust _).get? id = _
      rw [Chain.get?_adjust]
      simp only [if_neg hne, Option.map_id']
    have hboth : done.2.length = progress.2.length
        ↔ middle.2.length = progress.2.length ∧ done.2.length = middle.2.length := by
      have hle := h.le
      have hle' := k.le
      omega
    rw [hboth, h.unwidened, k.unwidened]
    constructor
    · intro hall id hid instr hinstr
      rcases List.mem_cons.mp hid with rfl | hid
      · exact hall.1 id (List.mem_singleton_self id) instr hinstr
      · rw [← h.rewritten id instr]
        exact hall.2 id hid instr ((hget id hid).trans hinstr)
    · intro hall
      refine ⟨fun id hid instr hinstr => ?_, fun id hid instr hinstr => ?_⟩
      · rw [List.mem_singleton.mp hid] at hinstr ⊢
        exact hall jumper (List.mem_cons_self ..) instr hinstr
      · rw [h.rewritten id instr]
        exact hall id (List.mem_cons_of_mem _ hid) instr ((hget id hid).symm.trans hinstr)

/-- A single jumper that becomes what it is rewritten to. -/
theorem rewrites_single {source : Instruction} {f : Instruction → Instruction}
    (hsource : s.program.chain.get? jumper = some source)
    (hf : s.program.rewritten jumper source = f source) (hle : progress.2.length ≤ done.2.length)
    (hlength : done.2.length = progress.2.length ↔ (f source).bytes.length = source.bytes.length) :
    Rewrites s (s.withChain (s.program.chain.adjust (Chain.only jumper f))) [jumper] progress done where
  session := by
    refine congrArg s.withChain (Chain.adjust_congr fun id instr hinstr => ?_)
    by_cases hid : id = jumper
    · subst hid
      rw [hsource, Option.some.injEq] at hinstr
      subst hinstr
      rw [Chain.only_self, if_pos (List.mem_singleton_self id), hf]
    · rw [Chain.only_ne hid, if_neg fun he => hid (List.mem_singleton.mp he)]
  le := hle
  unwidened := by
    rw [hlength, ← hf]
    constructor
    · intro h id hid instr hinstr
      rw [List.mem_singleton.mp hid] at hinstr ⊢
      rw [hsource, Option.some.injEq] at hinstr
      exact hinstr ▸ h
    · intro h
      exact h jumper (List.mem_singleton_self jumper) source hsource

/-- A jumper that stays as it is. -/
theorem rewrites_still {source : Instruction} (hsource : s.program.chain.get? jumper = some source)
    (hstill : s.program.rewritten jumper source = source) : Rewrites s s [jumper] progress progress := by
  have h : Rewrites s
      (s.withChain (s.program.chain.adjust (Chain.only jumper fun instr => instr))) [jumper]
      progress progress :=
    rewrites_single hsource hstill (Nat.le_refl _) ⟨fun _ => rfl, fun _ => rfl⟩
  rw [Chain.adjust_self fun id instr _ => by unfold Chain.only; split <;> rfl] at h
  exact h

/-- A step of a round settles its jumper at once. -/
theorem JumperRun.rewrites (h : JumperRun s jumper progress done t) :
    Rewrites s t [jumper] progress done := by
  cases h with
  | written run =>
    cases run with
    | written lands sec hfield write =>
      refine rewrites_single lands.get
        (Program.rewritten_of_write? (by rw [Program.landing?_of_lands lands, if_pos sec]) hfield write)
        (Nat.le_refl _) ⟨fun _ => DisplacementField.length_write? write, fun _ => rfl⟩
  | skipped run =>
    cases run with
    | indirect get direct => exact rewrites_still get (Program.rewritten_of_indirect direct)
    | apart lands sec =>
      exact rewrites_still lands.get (Program.rewritten_of_landing?_none
        (by rw [Program.landing?_of_lands lands, if_neg sec]))
  | widened lands sec hfield fits short promote =>
    refine rewrites_single lands.get
      (Program.rewritten_of_promote? (by rw [Program.landing?_of_lands lands, if_pos sec]) hfield fits
        promote) (by simp) ⟨fun h => ?_, fun h => ?_⟩
    · simp only [List.length_append, List.length_singleton] at h
      omega
    · obtain ⟨-, hlt, -⟩ := Encoding.promote?_eq_some promote
      exact absurd h (Nat.ne_of_gt hlt)

/-- Settling a list of jumpers settles them all at once. -/
theorem settleJumpers_rewrites (hnodup : ids.Nodup)
    (h : ids.foldlM settleJumper progress s = .ok done t) : Rewrites s t ids progress done := by
  induction ids generalizing s progress with
  | nil =>
    obtain ⟨rfl, rfl⟩ := foldlM_nil_ok.mp h
    exact .nil s progress
  | cons jumper ids ih =>
    obtain ⟨hjumper, hids⟩ := List.nodup_cons.mp hnodup
    obtain ⟨middle, m, hfirst, hrest⟩ := foldlM_cons_ok.mp h
    exact .cons hjumper (settleJumper_ok hfirst).rewrites (ih hids hrest)

/-- The same where names that are not in the code are passed over. -/
theorem settleAll_rewrites (hl : s.program.chain.Spells l) (hattached : s.program.chain.Attached l)
    (hnodup : ids.Nodup) (h : ids.foldlM settleLinked progress s = .ok done t) :
    Rewrites s t ids progress done := by
  -- a name that is not in the code has no instruction, so nothing is rewritten under it
  induction ids generalizing s progress with
  | nil =>
    obtain ⟨rfl, rfl⟩ := foldlM_nil_ok.mp h
    exact .nil s progress
  | cons jumper ids ih =>
    obtain ⟨hjumper, hids⟩ := List.nodup_cons.mp hnodup
    obtain ⟨middle, m, hfirst, hrest⟩ := foldlM_cons_ok.mp h
    rcases settleLinked_ok hl hfirst with ⟨-, hrun⟩ | ⟨hnot, hdone, hsame⟩
    · have hcarries := Session.Carries.updateRelation.jumperRun hrun
      exact .cons hjumper hrun.rewrites
        (ih (hcarries.chain.spells hl) (hcarries.chain.attached hattached) hids hrest)
    · rw [hdone, hsame] at hrest
      have hnone : s.program.chain.get? jumper = none := by
        cases hget : s.program.chain.get? jumper with
        | none => rfl
        | some instr =>
          exact absurd (hattached jumper (by rw [Chain.contains_eq_isSome_get?, hget]; rfl)) hnot
      refine .cons hjumper ⟨?_, Nat.le_refl _, ?_⟩ (ih hl hattached hids hrest)
      · rw [Chain.adjust_self fun id instr hinstr => if_neg fun he => ?_]
        · rfl
        · rw [List.mem_singleton.mp he, hnone] at hinstr
          cases hinstr
      · refine ⟨fun _ id hid instr hinstr => ?_, fun _ => rfl⟩
        rw [List.mem_singleton.mp hid, hnone] at hinstr
        cases hinstr

end EngineM

end Splice
