import Splice.Proofs.Instruction.Displacement

/-!
# Lengths under writing and widening

Writing a displacement keeps the length of an encoding and the opcode in front of the
displacement, so a jump that was `Rewritten` is as short as before and widens to the same
length. Widening makes an encoding longer and leaves no short jump, so what was
`Lengthened` once stays as it is. An instruction of a program that is finalized is `Sized`
like the one that it was: it is either of the two.

Long forms are met through `promote?_eq_some` alone: the long opcode of the jump behind its
prefixes, and a displacement of four bytes behind that. Lengths do not depend on which
displacement is in there, which is why a pass that widens can be followed by counting bytes only
(`Splice.Proofs.Program.Widening`).
-/

namespace Splice

namespace Encoding

variable {bytes other : List UInt8} {opcodeSize : UInt8} {long : Promotion}

/-- The long form has its opcode, and a displacement of four bytes behind that. -/
theorem promote?_eq_some (h : promote? bytes opcodeSize = some long) :
    bytes.length = opcodeSize.toNat + 1 ∧ bytes.length < long.bytes.length
      ∧ ∃ length, long.bytes.length = length + 4 ∧ long.opcodeSize = UInt8.ofNat length := by
  unfold promote? at h
  simp only at h
  split at h
  next => cases h
  next hshape =>
    rw [not_or, Decidable.not_not] at hshape
    obtain ⟨hsize, hlength⟩ := hshape
    simp only [Option.bind_eq_bind, Option.bind_eq_some_iff, pure, Option.some.injEq] at h
    obtain ⟨opcode, -, code, hcode, rfl⟩ := h
    have hcode : 1 ≤ code.length := by
      unfold longOpcode? at hcode
      split at hcode
      next => cases hcode; decide
      next =>
        split at hcode
        next => cases hcode; exact Nat.succ_le_succ (Nat.zero_le 1)
        next => cases hcode
    refine ⟨hlength, ?_, _, ?_, rfl⟩
    · simp only [List.length_append, List.length_take, List.length_replicate]
      omega
    · rw [List.length_append, List.length_replicate]

/-- An encoding of the length of the long form has no displacement of one byte. -/
theorem width_of_promote? (h : promote? bytes opcodeSize = some long)
    (hlength : other.length = long.bytes.length) :
    (displacementField? other long.opcodeSize).any (·.width == 1) = false := by
  obtain ⟨-, -, length, hlong, hsize⟩ := promote?_eq_some h
  have hoffset : long.opcodeSize.toNat ≤ length := by
    rw [hsize, UInt8.toNat_ofNat']
    exact Nat.mod_le _ _
  cases hfield : displacementField? other long.opcodeSize with
  | none => rfl
  | some field =>
    obtain ⟨hat, hend, -⟩ := displacementField?_eq_some hfield
    rw [Option.any_some, beq_eq_false_iff_ne]
    omega

/-- Widening looks at the opcode and at the length. -/
theorem promote?_congr (hlength : other.length = bytes.length)
    (hopcode : other.take opcodeSize.toNat = bytes.take opcodeSize.toNat) :
    promote? other opcodeSize = promote? bytes opcodeSize := by
  unfold promote?
  simp only [hlength]
  split
  next => rfl
  next hshape =>
    rw [not_or, Decidable.not_not] at hshape
    have hlast : opcodeSize.toNat - 1 < opcodeSize.toNat := by omega
    have hget : other[opcodeSize.toNat - 1]? = bytes[opcodeSize.toNat - 1]? := by
      rw [← List.getElem?_take_of_lt hlast, hopcode, List.getElem?_take_of_lt hlast]
    have hfront : other.take (opcodeSize.toNat - 1) = bytes.take (opcodeSize.toNat - 1) := by
      have htake := congrArg (List.take (opcodeSize.toNat - 1)) hopcode
      rwa [List.take_take, List.take_take, Nat.min_eq_left (by omega)] at htake
    rw [hget, hfront]

end Encoding

namespace Instruction

/-- The encoding has kept its opcode and its length. -/
structure Rewritten (a b : Instruction) : Prop where
  flags : b.flags = a.flags
  length : b.bytes.length = a.bytes.length
  opcodeSize : b.opcodeSize = a.opcodeSize
  opcode : b.bytes.take a.opcodeSize.toNat = a.bytes.take a.opcodeSize.toNat

/-- The encoding has the length of the long form of a short jump. -/
structure Lengthened (a b : Instruction) : Prop where
  flags : b.flags = a.flags
  short : a.isShortJump = true
  long : ∃ long, Encoding.promote? a.bytes a.opcodeSize = some long
    ∧ b.bytes.length = long.bytes.length ∧ b.opcodeSize = long.opcodeSize

/-- The instruction is as long as it was, or as its long form. -/
def Sized (a b : Instruction) : Prop := Rewritten a b ∨ Lengthened a b

variable {a b c : Instruction}

theorem Rewritten.refl (a : Instruction) : Rewritten a a := ⟨rfl, rfl, rfl, rfl⟩

/-- What keeps opcode and length twice keeps them. -/
theorem Rewritten.trans (hab : Rewritten a b) (hbc : Rewritten b c) : Rewritten a c where
  flags := hbc.flags.trans hab.flags
  length := hbc.length.trans hab.length
  opcodeSize := hbc.opcodeSize.trans hab.opcodeSize
  opcode := by
    have hopcode := hbc.opcode
    rw [hab.opcodeSize] at hopcode
    exact hopcode.trans hab.opcode

theorem Rewritten.displacementField? (h : Rewritten a b) :
    b.displacementField? = a.displacementField? := by
  rw [Instruction.displacementField?, Instruction.displacementField?, h.opcodeSize,
    Encoding.displacementField?_congr h.length]

theorem Rewritten.isShortJump (h : Rewritten a b) : b.isShortJump = a.isShortJump := by
  rw [Instruction.isShortJump, Instruction.isShortJump, h.flags, h.displacementField?]

theorem Rewritten.promote? (h : Rewritten a b) :
    Encoding.promote? b.bytes b.opcodeSize = Encoding.promote? a.bytes a.opcodeSize := by
  rw [h.opcodeSize]
  exact Encoding.promote?_congr h.length h.opcode

/-- A long form is not short, so it is widened once at most. -/
theorem Lengthened.not_short (h : Lengthened a b) : b.isShortJump = false := by
  obtain ⟨long, hlong, hlength, hsize⟩ := h.long
  rw [Instruction.isShortJump, Instruction.displacementField?, hsize,
    Encoding.width_of_promote? hlong hlength, Bool.and_false]

/-- The long form of a jump is longer than its short one. -/
theorem Lengthened.lt (h : Lengthened a b) : a.bytes.length < b.bytes.length := by
  obtain ⟨long, hlong, hlength, -⟩ := h.long
  rw [hlength]
  exact (Encoding.promote?_eq_some hlong).2.1

theorem Sized.refl (a : Instruction) : Sized a a := .inl (.refl a)

/-- Nothing is widened twice. -/
theorem Sized.trans (hab : Sized a b) (hbc : Sized b c) : Sized a c := by
  rcases hab with hab | hab
  · rcases hbc with hbc | hbc
    · exact .inl (hab.trans hbc)
    · obtain ⟨long, hlong, hlength, hsize⟩ := hbc.long
      rw [hab.promote?] at hlong
      exact .inr ⟨hbc.flags.trans hab.flags, hab.isShortJump ▸ hbc.short, long, hlong, hlength, hsize⟩
  · rcases hbc with hbc | hbc
    · obtain ⟨long, hlong, hlength, hsize⟩ := hab.long
      exact .inr ⟨hbc.flags.trans hab.flags, hab.short, long, hlong, hbc.length.trans hlength,
        hbc.opcodeSize.trans hsize⟩
    · have hshort := hbc.short
      rw [hab.not_short] at hshort
      cases hshort

/-- A longer instruction was widened. -/
theorem Sized.lengthened (h : Sized a b) (hne : b.bytes.length ≠ a.bytes.length) : Lengthened a b :=
  h.resolve_left fun hrewritten => hne hrewritten.length

/-- To write a displacement into its field keeps the opcode and the length. -/
theorem rewritten_of_write? {field : DisplacementField} {disp : Int64} {bytes : List UInt8}
    (hfield : a.displacementField? = some field) (h : field.write? a.bytes disp = some bytes) :
    Rewritten a { a with bytes := bytes } where
  flags := rfl
  length := DisplacementField.length_write? h
  opcodeSize := rfl
  opcode := by
    obtain ⟨-, hbounds, rfl⟩ := DisplacementField.write?_eq_some.mp h
    rw [DisplacementField.inBounds_iff] at hbounds
    obtain ⟨hoffset, -, -⟩ := Encoding.displacementField?_eq_some hfield
    have hfront : (a.bytes.take field.offset).length = field.offset := by
      rw [List.length_take]
      omega
    rw [← hoffset, List.append_assoc, List.take_left' hfront]

theorem lengthened_of_promote? {long : Encoding.Promotion} (hshort : a.isShortJump = true)
    (h : Encoding.promote? a.bytes a.opcodeSize = some long) :
    Lengthened a { a with bytes := long.bytes, opcodeSize := long.opcodeSize } :=
  ⟨rfl, hshort, long, h, rfl, rfl⟩

end Instruction

end Splice
