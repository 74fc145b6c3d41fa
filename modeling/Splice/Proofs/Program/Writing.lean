import Splice.Program.Displacement
import Splice.Proofs.Chain.Order
import Splice.Proofs.Instruction.Displacement
import Splice.Proofs.Program.Session

/-!
# Writing displacements

`writeDisplacement` ends in one of four ways, which `WriteRun` lists together with what is
known in each: there is nothing to write, the physical target is in another section, the
displacement does not fit, or it is written. `JumperRun` lists the three ways in which
settling a jumper ends.

> `writeDisplacement_ok`, `promote_ok`, `settleJumper_ok`: a run that succeeds ended in one of
> the ways listed, with all that it changed.

Later modules take these apart by `cases` and never open the operations. That a displacement
does not fit is no refusal when a single jumper is settled: the jump is widened then, if it has
a long form and the configuration allows it, and the shift behind it is put at the end of what
is to be done.
-/

namespace Splice

/-- `source` is the direct transfer `jumper`, and `physical` the linked instruction on which it
lands. -/
structure Program.Lands (program : Program) (jumper : InstrId) (source physical : Instruction) :
    Prop where
  get : program.chain.get? jumper = some source
  direct : source.isDirectTransfer = true
  target : ∃ logical, source.target = some logical
    ∧ program.chain.get? (program.redirects.resolve jumper logical) = some physical
    ∧ program.chain.isLinked (program.redirects.resolve jumper logical) = true

/-- The displacement of an instruction to another one. -/
def Instruction.displacementTo (source physical : Instruction) : Int64 :=
  (physical.addr - source.endAddr).toInt64

/-- The instruction with other bytes. -/
def Instruction.withBytes (bytes : List UInt8) (instr : Instruction) : Instruction :=
  { instr with bytes := bytes }

/-- The instruction in its long form. -/
def Instruction.widened (long : Encoding.Promotion) (instr : Instruction) : Instruction :=
  { instr with bytes := long.bytes, opcodeSize := long.opcodeSize }

namespace EngineM

variable {s t : Session} {jumper : InstrId}

/-- The ways in which writing a displacement ends. -/
inductive WriteRun (s : Session) (jumper : InstrId) : DisplacementWrite → Session → Prop where
  | indirect {source : Instruction} (get : s.program.chain.get? jumper = some source)
      (direct : source.isDirectTransfer = false) : WriteRun s jumper .skipped s
  | apart {source physical : Instruction} (lands : s.program.Lands jumper source physical)
      (sec : physical.sec ≠ source.sec) : WriteRun s jumper .skipped s
  | overflow {source physical : Instruction} {field : DisplacementField}
      (lands : s.program.Lands jumper source physical) (sec : physical.sec = source.sec)
      (hfield : source.displacementField? = some field)
      (fits : field.fits (source.displacementTo physical) = false) :
      WriteRun s jumper (.overflow (source.displacementTo physical)) s
  | written {source physical : Instruction} {field : DisplacementField} {bytes : List UInt8}
      (lands : s.program.Lands jumper source physical) (sec : physical.sec = source.sec)
      (hfield : source.displacementField? = some field)
      (write : field.write? source.bytes (source.displacementTo physical) = some bytes) :
      WriteRun s jumper .written
        (s.withChain (s.program.chain.adjust (Chain.only jumper (.withBytes bytes))))

/-- The physical target is what redirects lead the logical one to, if that is linked. -/
theorem physicalTarget_ok {logical : InstrId} {physical : Instruction} :
    physicalTarget jumper logical s = .ok physical t
      ↔ s.program.chain.get? (s.program.redirects.resolve jumper logical) = some physical
        ∧ s.program.chain.isLinked (s.program.redirects.resolve jumper logical) = true
        ∧ s = t := by
  simp only [physicalTarget, bind_ok, program_ok]
  constructor
  · intro h
    obtain ⟨_, _, ⟨rfl, rfl⟩, h⟩ := h
    cases hget : s.program.chain.get? (s.program.redirects.resolve jumper logical) with
    | none =>
      rw [hget] at h
      exact (throw_ok.mp h).elim
    | some found =>
      rw [hget] at h
      by_cases hlinked : s.program.chain.isLinked (s.program.redirects.resolve jumper logical) = true
      · simp only [hlinked, if_true] at h
        obtain ⟨rfl, rfl⟩ := pure_ok.mp h
        exact ⟨rfl, hlinked, rfl⟩
      · simp only [hlinked] at h
        exact (throw_ok.mp h).elim
  · intro h
    obtain ⟨hget, hlinked, rfl⟩ := h
    refine ⟨_, _, ⟨rfl, rfl⟩, ?_⟩
    rw [hget]
    simp only [hlinked, if_true]
    exact pure_ok.mpr ⟨rfl, rfl⟩

/-- Writing a displacement ends in one of the ways of `WriteRun`: there is nothing to write, it is there
already, it is written, or it does not fit. -/
theorem writeDisplacement_ok {write : DisplacementWrite}
    (h : writeDisplacement jumper s = .ok write t) : WriteRun s jumper write t := by
  simp only [writeDisplacement, bind_ok, instr_ok] at h
  obtain ⟨source, _, ⟨hget, rfl⟩, h⟩ := h
  cases htarget : source.target with
  | none =>
    rw [htarget] at h
    obtain ⟨rfl, rfl⟩ := pure_ok.mp h
    exact .indirect hget (by simp [Instruction.isDirectTransfer, htarget])
  | some logical =>
    rw [htarget] at h
    by_cases hdirect : source.isDirectTransfer = true
    · simp only [hdirect, Bool.not_true, Bool.false_eq_true, if_false, bind_ok,
        physicalTarget_ok] at h
      obtain ⟨physical, _, ⟨hphysical, hlinked, rfl⟩, h⟩ := h
      have hlands : s.program.Lands jumper source physical :=
        ⟨hget, hdirect, logical, htarget, hphysical, hlinked⟩
      by_cases hsec : physical.sec = source.sec
      · rw [if_neg (by simpa using hsec)] at h
        cases hfield : source.displacementField? with
        | none =>
          rw [hfield] at h
          exact (throw_ok.mp h).elim
        | some field =>
          rw [hfield] at h
          by_cases hfits : field.fits (source.displacementTo physical) = true
          · rw [Instruction.displacementTo] at hfits
            simp only [hfits, Bool.not_true, Bool.false_eq_true, if_false] at h
            cases hbytes : field.write? source.bytes (physical.addr - source.endAddr).toInt64 with
            | none =>
              rw [hbytes] at h
              exact (throw_ok.mp h).elim
            | some bytes =>
              rw [hbytes] at h
              simp only [bind_ok, updateInstr_ok, pure_ok] at h
              obtain ⟨_, _, ⟨-, rfl⟩, rfl, rfl⟩ := h
              exact .written hlands hsec hfield hbytes
          · rw [Bool.not_eq_true] at hfits
            have hfits' := hfits
            rw [Instruction.displacementTo] at hfits'
            simp only [hfits', Bool.not_false, if_true] at h
            obtain ⟨rfl, rfl⟩ := pure_ok.mp h
            exact .overflow hlands hsec hfield hfits
      · rw [if_pos (by simpa using hsec)] at h
        obtain ⟨rfl, rfl⟩ := pure_ok.mp h
        exact .apart hlands hsec
    · rw [Bool.not_eq_true] at hdirect
      simp only [hdirect, Bool.not_false, if_true] at h
      obtain ⟨rfl, rfl⟩ := pure_ok.mp h
      exact .indirect hget hdirect

/-- What is known in each of the ways is all that it takes for writing to end in it. -/
theorem WriteRun.run {write : DisplacementWrite} (h : WriteRun s jumper write t) :
    writeDisplacement jumper s = .ok write t := by
  simp only [writeDisplacement, bind_ok, instr_ok]
  cases h with
  -- indirect get|the run is replayed up to the point where the ways part
  | indirect get direct =>
    rename_i source
    refine ⟨source, s, ⟨get, rfl⟩, ?_⟩
    cases source.target with
    | none => rfl
    | some logical =>
      simp only [direct, Bool.not_false, if_true]
      rfl
  | apart lands sec =>
    rename_i source physical
    obtain ⟨hget, hdirect, logical, htarget, hphysical, hlinked⟩ := lands
    refine ⟨source, s, ⟨hget, rfl⟩, ?_⟩
    simp only [htarget, hdirect, Bool.not_true, Bool.false_eq_true, if_false, bind_ok,
      physicalTarget_ok]
    refine ⟨physical, s, ⟨hphysical, hlinked, rfl⟩, ?_⟩
    rw [if_pos (by simpa using sec)]
    rfl
  | overflow lands sec hfield fits =>
    rename_i source physical field
    obtain ⟨hget, hdirect, logical, htarget, hphysical, hlinked⟩ := lands
    refine ⟨source, s, ⟨hget, rfl⟩, ?_⟩
    simp only [htarget, hdirect, Bool.not_true, Bool.false_eq_true, if_false, bind_ok,
      physicalTarget_ok]
    refine ⟨physical, s, ⟨hphysical, hlinked, rfl⟩, ?_⟩
    rw [Instruction.displacementTo] at fits
    rw [if_neg (by simpa using sec)]
    simp only [hfield, fits, Bool.not_false, if_true]
    rfl
  | written lands sec hfield write =>
    rename_i source physical field bytes
    obtain ⟨hget, hdirect, logical, htarget, hphysical, hlinked⟩ := lands
    refine ⟨source, s, ⟨hget, rfl⟩, ?_⟩
    simp only [htarget, hdirect, Bool.not_true, Bool.false_eq_true, if_false, bind_ok,
      physicalTarget_ok]
    refine ⟨physical, s, ⟨hphysical, hlinked, rfl⟩, ?_⟩
    have hfits := (DisplacementField.write?_eq_some.mp write).1
    rw [Instruction.displacementTo] at hfits write
    rw [if_neg (by simpa using sec)]
    simp only [hfield, hfits, write, Bool.not_true, Bool.false_eq_true, if_false, bind_ok,
      updateInstr_ok, pure_ok]
    refine ⟨⟨⟩, _, ⟨?_, rfl⟩, trivial, rfl⟩
    rw [Chain.contains_eq_isSome_get?, hget]
    rfl

/-! ## Widening -/

/-- How much longer the long form of an instruction is. -/
def growth (source : Instruction) (long : Encoding.Promotion) : Int64 :=
  Int64.ofInt ((long.bytes.length : Int) - source.bytes.length)

/-- The shift that follows from widening a jump. -/
def widening (chain : Chain) (jumper : InstrId) (source : Instruction)
    (long : Encoding.Promotion) : Shift :=
  ⟨chain.next? jumper, source.sec, source.func, growth source long, [jumper]⟩

/-- Widening replaces the bytes by those of the long form, if that is allowed and there is one. -/
theorem promote_ok {disp amount : Int64} (h : promote jumper disp s = .ok amount t) :
    ∃ source long, s.program.chain.get? jumper = some source
      ∧ s.program.config.promote = true ∧ source.isShortJump = true
      ∧ Encoding.promote? source.bytes source.opcodeSize = some long
      ∧ amount = growth source long
      ∧ t = s.withChain (s.program.chain.adjust (Chain.only jumper (.widened long))) := by
  simp only [promote, bind_ok, instr_ok, program_ok] at h
  obtain ⟨source, _, ⟨hget, rfl⟩, _, _, ⟨rfl, rfl⟩, h⟩ := h
  by_cases hallowed : s.program.config.promote = true ∧ source.isShortJump = true
  · rw [if_neg (by simp [hallowed.1, hallowed.2])] at h
    cases hlong : Encoding.promote? source.bytes source.opcodeSize with
    | none =>
      rw [hlong] at h
      exact (throw_ok.mp h).elim
    | some long =>
      rw [hlong] at h
      simp only [bind_ok, updateInstr_ok, pure_ok] at h
      obtain ⟨_, _, ⟨-, rfl⟩, rfl, rfl⟩ := h
      exact ⟨source, long, hget, hallowed.1, hallowed.2, hlong, rfl, rfl⟩
  · have hrefused : (!s.program.config.promote || !source.isShortJump) = true := by
      simp only [Bool.or_eq_true, Bool.not_eq_true']
      grind
    rw [if_pos hrefused] at h
    exact (throw_ok.mp h).elim

/-- The shift behind a jumper begins at what comes next and is for the function of the jumper. -/
theorem shiftBehind_ok {delta : Int64} {shift : Shift}
    (h : shiftBehind jumper delta s = .ok shift t) :
    ∃ source, s.program.chain.get? jumper = some source
      ∧ shift = ⟨s.program.chain.next? jumper, source.sec, source.func, delta, [jumper]⟩
      ∧ s = t := by
  simp only [shiftBehind, bind_ok, node_ok, pure_ok] at h
  obtain ⟨node, _, ⟨hnode, rfl⟩, rfl, rfl⟩ := h
  refine ⟨node.instr, by simp [Chain.get?, hnode], ?_, rfl⟩
  rw [Chain.next?, hnode]
  rfl

/-- The ways in which settling a jumper ends. -/
inductive JumperRun (s : Session) (jumper : InstrId) (progress : Progress) :
    Progress → Session → Prop where
  | written {t : Session} (run : WriteRun s jumper .written t) :
      JumperRun s jumper progress (progress.1 + 1, progress.2) t
  | skipped (run : WriteRun s jumper .skipped s) : JumperRun s jumper progress progress s
  | widened {source physical : Instruction} {field : DisplacementField} {long : Encoding.Promotion}
      (lands : s.program.Lands jumper source physical) (sec : physical.sec = source.sec)
      (hfield : source.displacementField? = some field)
      (fits : field.fits (source.displacementTo physical) = false)
      (short : source.isShortJump = true)
      (promote : Encoding.promote? source.bytes source.opcodeSize = some long) :
      JumperRun s jumper progress
        (progress.1, progress.2 ++ [widening s.program.chain jumper source long])
        (s.withChain (s.program.chain.adjust (Chain.only jumper (.widened long))))

/-- Settling a jumper ends in one of the ways of `JumperRun`: as writing ends, or with a widening and its
shift. -/
theorem settleJumper_ok {progress done : Progress}
    (h : settleJumper progress jumper s = .ok done t) : JumperRun s jumper progress done t := by
  simp only [settleJumper, bind_ok] at h
  obtain ⟨write, s₁, hwrite, h⟩ := h
  have hrun := writeDisplacement_ok hwrite
  -- only an overflow goes on: the jump is widened, and what follows is shifted by as much
  cases write with
  | written =>
    obtain ⟨rfl, rfl⟩ := pure_ok.mp h
    exact .written hrun
  | skipped =>
    obtain ⟨rfl, rfl⟩ := pure_ok.mp h
    have hs : s₁ = s := by cases hrun <;> rfl
    subst hs
    exact .skipped hrun
  | overflow disp =>
    simp only [bind_ok, pure_ok] at h
    obtain ⟨amount, s₂, hpromote, shift, _, hshift, rfl, rfl⟩ := h
    cases hrun with
    | overflow lands sec hfield fits =>
      rename_i source physical field
      obtain ⟨source', long, hsource', -, hshort, hlong, rfl, rfl⟩ := promote_ok hpromote
      rw [lands.get, Option.some.injEq] at hsource'
      subst hsource'
      obtain ⟨source', hsource', rfl, rfl⟩ := shiftBehind_ok hshift
      replace hsource' : (s.program.chain.adjust (Chain.only jumper (.widened long))).get? jumper
        = some source' := hsource'
      rw [Chain.get?_adjust, lands.get, Option.map_some, Option.some.injEq, Chain.only_self]
        at hsource'
      subst hsource'
      have hnext : (s.withChain (s.program.chain.adjust
          (Chain.only jumper (.widened long)))).program.chain.next? jumper
            = s.program.chain.next? jumper := Chain.next?_adjust
      rw [hnext]
      exact .widened lands sec hfield fits hshort hlong

end EngineM

end Splice
