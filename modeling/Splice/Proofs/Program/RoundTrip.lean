import Splice.Proofs.Program.Writing

/-!
# Displacements round trip

A displacement field holds the signed numbers of its width (`DisplacementField.Holds`), and
the field of an encoding accepts these and no others, gives back what was written, and leaves
the rest of the encoding alone (`DisplacementField.RoundTrips`, `roundTrips_of_field`).

Addresses are numbers modulo `2 ^ 64`. The way from the end of a jump to its target is the
signed residue of their difference (`Instruction.wayTo`), which is what `displacementTo`
computes (`toInt_displacementTo`). `setDisplacement` therefore ends in one of two ways
(`setDisplacement_run`), and `displacements_round_trip` says which: the displacement of a direct
transfer is set if and only if the way to the physical target fits the field, and then the
transfer encodes the address of that target. This holds at every two addresses, also where the
jump ends at the last address or the way leads around it.
-/

namespace Splice

namespace DisplacementField

/-- The signed numbers of as many bytes as the field has. -/
def Holds (field : DisplacementField) (number : Int) : Prop :=
  -2 ^ (8 * field.width - 1) ≤ number ∧ number < 2 ^ (8 * field.width - 1)

/-- The encoding that a write leaves behind, whether or not it is granted. -/
def overwritten (field : DisplacementField) (bytes : List UInt8) (disp : Int64) : List UInt8 :=
  (field.write? bytes disp).getD bytes

/-- Displacements round trip through the field of an encoding. -/
structure RoundTrips (field : DisplacementField) (bytes : List UInt8) : Prop where
  granted : ∀ disp : Int64, (field.write? bytes disp).isSome = true ↔ field.Holds disp.toInt
  refused : ∀ disp : Int64, ¬ field.Holds disp.toInt → field.overwritten bytes disp = bytes
  reads : ∀ disp : Int64, field.Holds disp.toInt
    → field.read? (field.overwritten bytes disp) = some disp
  length : ∀ disp, (field.overwritten bytes disp).length = bytes.length
  /-- No byte in front of the field or behind it changes. -/
  frame : ∀ disp i, i < field.offset ∨ field.offset + field.width ≤ i
    → (field.overwritten bytes disp)[i]? = bytes[i]?
  rewrites : ∃ disp, field.read? bytes = some disp ∧ field.write? bytes disp = some bytes

variable {field : DisplacementField} {bytes out : List UInt8} {disp : Int64}

/-- A displacement fits if it is one of the signed numbers of as many bytes. -/
theorem fits_iff_holds (hwidth : field.width ∈ [1, 2, 4]) :
    field.fits disp = true ↔ field.Holds disp.toInt := by
  rw [fits, decide_eq_true_eq, range, Holds]
  simp only [List.mem_cons, List.not_mem_nil, or_false] at hwidth
  rcases hwidth with h | h | h <;> rw [h] <;>
    simp only [Nat.reduceMul, Nat.reduceSub, Int.reducePow, Int.reduceNeg] <;> omega

/-- A write succeeds if the displacement fits, in an encoding that has the field. -/
theorem isSome_write? (hwidth : field.width ∈ [1, 2, 4])
    (hbounds : field.offset + field.width ≤ bytes.length) :
    (field.write? bytes disp).isSome = true ↔ field.Holds disp.toInt := by
  rw [← fits_iff_holds hwidth, Option.isSome_iff_exists]
  constructor
  · rintro ⟨out, hout⟩
    exact (write?_eq_some.mp hout).1
  · intro hfits
    exact ⟨_, write?_eq_some.mpr ⟨hfits, inBounds_iff.mpr hbounds, rfl⟩⟩

/-- A write changes no byte outside the field. -/
theorem frame_of_write? {i : Nat} (h : field.write? bytes disp = some out)
    (hi : i < field.offset ∨ field.offset + field.width ≤ i) : out[i]? = bytes[i]? := by
  obtain ⟨-, hbounds, rfl⟩ := write?_eq_some.mp h
  rw [inBounds_iff] at hbounds
  have hoffset : (bytes.take field.offset).length = field.offset := by
    rw [List.length_take]
    omega
  have hfront : (bytes.take field.offset
      ++ LittleEndian.encode field.width disp.toUInt64.toNat).length
        = field.offset + field.width := by
    rw [List.length_append, hoffset, LittleEndian.length_encode]
  rcases hi with hi | hi
  · rw [List.append_assoc, List.getElem?_append_left (by omega), List.getElem?_take_of_lt hi]
  · rw [List.getElem?_append_right (by omega), hfront, List.getElem?_drop]
    congr 1
    omega

/-- What is in bounds can be read. -/
theorem isSome_read? (hwidth : field.width ∈ [1, 2, 4])
    (hbounds : field.offset + field.width ≤ bytes.length) : ∃ disp, field.read? bytes = some disp := by
  have hok : (field.inBounds bytes.length && [1, 2, 4].contains field.width) = true := by
    rw [inBounds_iff.mpr hbounds, List.contains_iff_mem.mpr hwidth]
    rfl
  exact ⟨_, by rw [read?, if_pos hok]⟩

theorem overwritten_of_write? (h : field.write? bytes disp = some out) :
    field.overwritten bytes disp = out := by
  rw [overwritten, h]
  rfl

theorem overwritten_of_refused (h : field.write? bytes disp = none) :
    field.overwritten bytes disp = bytes := by
  rw [overwritten, h]
  rfl

/-- What is written is read back, the other bytes stay, and a refused write changes nothing that is
read. -/
theorem roundTrips (hwidth : field.width ∈ [1, 2, 4])
    (hbounds : field.offset + field.width ≤ bytes.length) : field.RoundTrips bytes where
  granted _ := isSome_write? hwidth hbounds
  refused disp hout := by
    rw [← isSome_write? hwidth hbounds, Bool.not_eq_true, Option.isSome_eq_false_iff,
      Option.isNone_iff_eq_none] at hout
    exact overwritten_of_refused hout
  reads disp hholds := by
    obtain ⟨out, hout⟩ := Option.isSome_iff_exists.mp ((isSome_write? hwidth hbounds).mpr hholds)
    rw [overwritten_of_write? hout]
    exact read?_of_write? hwidth hout
  length disp := by
    cases hwrite : field.write? bytes disp with
    | none => rw [overwritten_of_refused hwrite]
    | some out => rw [overwritten_of_write? hwrite, length_write? hwrite]
  frame disp i hi := by
    cases hwrite : field.write? bytes disp with
    | none => rw [overwritten_of_refused hwrite]
    | some out => rw [overwritten_of_write? hwrite, frame_of_write? hwrite hi]
  rewrites := by
    obtain ⟨disp, hread⟩ := isSome_read? hwidth hbounds
    exact ⟨disp, hread, write?_of_read? hread⟩

theorem roundTrips_of_field {opcodeSize : UInt8}
    (h : Encoding.displacementField? bytes opcodeSize = some field) : field.RoundTrips bytes := by
  obtain ⟨-, hend, hwidth⟩ := Encoding.displacementField?_eq_some h
  exact roundTrips hwidth (Nat.le_of_eq hend)

end DisplacementField

/-- The way from the end of an instruction to another one: the least one around the circle of
addresses, backwards if it is negative. -/
def Instruction.wayTo (source physical : Instruction) : Int :=
  Int.bmod (physical.addr.toNat - (source.addr.toNat + source.bytes.length)) (2 ^ 64)

/-- The displacement is the way to the target, measured from the end of the source, as a signed number. -/
theorem Instruction.toInt_displacementTo (source physical : Instruction) :
    (source.displacementTo physical).toInt = source.wayTo physical := by
  have hdisp : (source.displacementTo physical).toInt
      = Int.bmod (source.displacementTo physical).toUInt64.toNat (2 ^ 64) :=
    BitVec.toInt_eq_toNat_bmod _
  -- both are the signed form of one residue
  have hresidue : ((physical.addr - source.endAddr).toNat : Int) % (2 ^ 64 : Nat)
      = (physical.addr.toNat - (source.addr.toNat + source.bytes.length)) % (2 ^ 64 : Nat) := by
    rw [UInt64.toNat_sub, endAddr, UInt64.toNat_add, size, UInt64.toNat_ofNat']
    omega
  rw [hdisp, displacementTo, UInt64.toUInt64_toInt64, wayTo, Int.bmod, Int.bmod, hresidue]

namespace EngineM

variable {s t : Session} {jumper : InstrId} {source physical : Instruction}
  {field : DisplacementField}

/-- The displacement of a direct transfer within its section is written, or it does not fit and
nothing happens. -/
theorem setDisplacement_run (hlands : s.program.Lands jumper source physical)
    (hsec : physical.sec = source.sec) (hfield : source.displacementField? = some field) :
    setDisplacement jumper s = match field.write? source.bytes (source.displacementTo physical) with
      | some bytes =>
        .ok () (s.withChain (s.program.chain.adjust (Chain.only jumper (.withBytes bytes))))
      | none => .error (overflowError source (source.displacementTo physical)) s := by
  obtain ⟨-, hend, hwidth⟩ := Encoding.displacementField?_eq_some hfield
  cases hwrite : field.write? source.bytes (source.displacementTo physical) with
  | some bytes => exact (bind_run (WriteRun.written hlands hsec hfield hwrite).run).trans rfl
  | none =>
    have hfits : field.fits (source.displacementTo physical) = false := by
      rw [Bool.eq_false_iff, ne_eq, DisplacementField.fits_iff_holds hwidth,
        ← DisplacementField.isSome_write? hwidth (Nat.le_of_eq hend), hwrite]
      simp
    have hoverflow := (WriteRun.overflow hlands hsec hfield hfits).run
    exact (bind_run hoverflow).trans ((bind_run (instr_ok.mpr ⟨hlands.get, rfl⟩)).trans rfl)

/-- A transfer that got other bytes lands where it did, also if it is its own target. -/
theorem lands_withBytes (bytes : List UInt8) (hlands : s.program.Lands jumper source physical) :
    ∃ physical', physical'.addr = physical.addr
      ∧ (s.withChain (s.program.chain.adjust (Chain.only jumper (.withBytes bytes)))).program.Lands
        jumper (source.withBytes bytes) physical' := by
  obtain ⟨hget, hdirect, logical, htarget, hphysical, hlinked⟩ := hlands
  refine ⟨Chain.only jumper (.withBytes bytes) (s.program.redirects.resolve jumper logical) physical,
    ?_, ?_, hdirect, logical, htarget, ?_, ?_⟩
  · rw [Chain.only]
    split <;> rfl
  · show (s.program.chain.adjust (Chain.only jumper (.withBytes bytes))).get? jumper = _
    rw [Chain.get?_adjust, hget, Option.map_some, Chain.only_self]
  · show (s.program.chain.adjust (Chain.only jumper (.withBytes bytes))).get?
      (s.program.redirects.resolve jumper logical) = _
    rw [Chain.get?_adjust, hphysical, Option.map_some]
  · show (s.program.chain.adjust (Chain.only jumper (.withBytes bytes))).isLinked
      (s.program.redirects.resolve jumper logical) = true
    rw [Chain.isLinked_adjust, hlinked]

/-- Displacements round trip through the field of every encoding. The displacement of a direct
transfer is set if and only if the way to its physical target in the same section fits the field;
the transfer then encodes the address of that target, and otherwise nothing has happened. -/
theorem displacements_round_trip :
    (∀ (bytes : List UInt8) (opcodeSize : UInt8) (field : DisplacementField),
      Encoding.displacementField? bytes opcodeSize = some field → field.RoundTrips bytes)
    ∧ ∀ (s : Session) (jumper : InstrId) (source physical : Instruction) (field : DisplacementField),
      s.program.Lands jumper source physical → physical.sec = source.sec
      → source.displacementField? = some field →
      ((∃ t, setDisplacement jumper s = .ok () t) ↔ field.Holds (source.wayTo physical))
      ∧ (∀ t, setDisplacement jumper s = .ok () t →
        ∃ written physical', t.program.Lands jumper written physical'
          ∧ physical'.addr = physical.addr ∧ written.encodedTarget? = some physical'.addr)
      ∧ ∀ cause t, setDisplacement jumper s = .error cause t →
        t = s ∧ cause = overflowError source (source.displacementTo physical) := by
  refine ⟨fun _ _ _ => DisplacementField.roundTrips_of_field, ?_⟩
  intro s jumper source physical field hlands hsec hfield
  have hrun := setDisplacement_run hlands hsec hfield
  have hgranted := (DisplacementField.roundTrips_of_field hfield).granted
    (source.displacementTo physical)
  rw [Instruction.toInt_displacementTo] at hgranted
  rw [← hgranted]
  -- the run is decided by whether the way fits, and `granted` says the same of the field
  cases hwrite : field.write? source.bytes (source.displacementTo physical) with
  | none =>
    rw [hwrite] at hrun
    refine ⟨⟨fun ⟨t, ht⟩ => ?_, fun h => ?_⟩, fun t ht => ?_, fun cause t ht => ?_⟩
    · rw [hrun] at ht
      cases ht
    · cases h
    · rw [hrun] at ht
      cases ht
    · rw [hrun] at ht
      cases ht
      exact ⟨rfl, rfl⟩
  | some bytes =>
    rw [hwrite] at hrun
    refine ⟨⟨fun _ => rfl, fun _ => ⟨_, hrun⟩⟩, fun t ht => ?_, fun cause t ht => ?_⟩
    · rw [hrun] at ht
      cases ht
      obtain ⟨physical', haddr, hlands'⟩ := lands_withBytes bytes hlands
      refine ⟨_, physical', hlands', haddr, ?_⟩
      rw [haddr]
      exact Instruction.encodedTarget?_of_write? hfield hwrite
    · rw [hrun] at ht
      cases ht

/-- A short jump that ends fourteen addresses before the last one, to an instruction at the beginning
of its section. -/
def aroundTheEnd : Session :=
  (default : Session).withChain (.ofList
    [{ Instruction.decoded 0xFFFFFFFFFFFFFFF0 [0xEB, 0x00] 1 .jump with target := some ⟨1⟩ },
      Instruction.decoded 8 [0x90] 1 .nop])

/-- The way leads around the last address: from `2 ^ 64 - 14` to 8 it is 22. -/
theorem displacements_round_trip_around : ∃ t written,
    setDisplacement ⟨0⟩ aroundTheEnd = .ok () t ∧ t.program.chain.get? ⟨0⟩ = some written
      ∧ written.encodedTarget? = some 8 := by
  let source := (aroundTheEnd.program.chain.get? ⟨0⟩).getD default
  let physical := (aroundTheEnd.program.chain.get? ⟨1⟩).getD default
  have hlands : aroundTheEnd.program.Lands ⟨0⟩ source physical :=
    ⟨by decide +kernel, by decide +kernel, ⟨1⟩, by decide +kernel, by decide +kernel, by decide +kernel⟩
  obtain ⟨hset, hencodes, -⟩ := displacements_round_trip.2 aroundTheEnd ⟨0⟩ source physical ⟨1, 1⟩ hlands
    (by decide +kernel) (by decide +kernel)
  obtain ⟨t, ht⟩ := hset.mpr (by rw [DisplacementField.Holds]; decide +kernel)
  obtain ⟨written, physical', hlands', haddr, hwritten⟩ := hencodes t ht
  rw [haddr] at hwritten
  exact ⟨t, written, ht, hlands'.get, hwritten⟩

end EngineM

end Splice
