import Splice.Proofs.Instruction.Likeness
import Splice.Proofs.Instruction.Promotion

/-!
# Encodings that updates leave

However often the displacement of an instruction is written, and whether or not the
instruction is widened on the way, there are two encodings that it comes from: its own and
its long form (`Instruction.Coded`). Either of them differs from what is left in nothing but
the displacement, which fills what is behind the opcode. So an encoding that was left by updates is
known from its length and from its displacement (`Coded.encoding_eq`).

This is what makes a second insertion independent of the first one: two programs in which a jump
has been written in different orders and perhaps widened at different times have the same bytes
for it as soon as they agree on its length and on where it lands
(`Splice.Proofs.Program.Recoding`).
-/

namespace Splice.Instruction

/-- The encoding of `a` or its long form, with any displacement. -/
def Coded (a b : Instruction) : Prop :=
  Rewritten a b ∨ a.isShortJump = true ∧ ∃ long, Encoding.promote? a.bytes a.opcodeSize = some long
    ∧ Rewritten { a with bytes := long.bytes, opcodeSize := long.opcodeSize } b

variable {a b c : Instruction} {disp : Int64} {long : Encoding.Promotion}

theorem Coded.refl (a : Instruction) : Coded a a := .inl (.refl a)

theorem Coded.of_alike (h : Alike a b) : Coded a b :=
  .inl ⟨h.flags, congrArg List.length h.bytes, h.opcodeSize, congrArg (List.take _) h.bytes⟩

theorem lengthened_of_rewritten (hshort : a.isShortJump = true)
    (hlong : Encoding.promote? a.bytes a.opcodeSize = some long)
    (h : Rewritten { a with bytes := long.bytes, opcodeSize := long.opcodeSize } b) : Lengthened a b :=
  ⟨h.flags, hshort, long, hlong, h.length, h.opcodeSize⟩

/-- An instruction that keeps its length or gets its long form does not get shorter. -/
theorem Sized.length_le (h : Sized a b) : a.bytes.length ≤ b.bytes.length := by
  rcases h with hsame | hlonger
  · exact Nat.le_of_eq hsame.length.symm
  · exact Nat.le_of_lt hlonger.lt

theorem Coded.sized (h : Coded a b) : Sized a b :=
  h.imp_right fun ⟨hshort, _, hlong, hlonger⟩ => lengthened_of_rewritten hshort hlong hlonger

/-- Nothing is widened twice. -/
theorem Coded.trans (hab : Coded a b) (hbc : Coded b c) : Coded a c := by
  rcases hab with hab | ⟨hshort, long, hlong, hab⟩
  · rcases hbc with hbc | ⟨hshort, long, hlong, hbc⟩
    · exact .inl (hab.trans hbc)
    · rw [hab.promote?] at hlong
      exact .inr ⟨hab.isShortJump ▸ hshort, long, hlong, hbc.flags.trans hab.flags, hbc.length,
        hbc.opcodeSize, hbc.opcode⟩
  · rcases hbc with hbc | ⟨hshort', -⟩
    · exact .inr ⟨hshort, long, hlong, hab.trans hbc⟩
    · rw [(lengthened_of_rewritten hshort hlong hab).not_short] at hshort'
      cases hshort'

/-- Behind the same opcode the same displacement makes the same encoding. -/
theorem Rewritten.bytes_eq (hb : Rewritten a b) (hc : Rewritten a c)
    (hdisp : b.displacement? = some disp) (hdisp' : c.displacement? = some disp) :
    c.bytes = b.bytes := by
  obtain ⟨field, hfield, hread⟩ := Option.bind_eq_some_iff.mp hdisp
  obtain ⟨field', hfield', hread'⟩ := Option.bind_eq_some_iff.mp hdisp'
  obtain rfl : field' = field := by
    rw [hc.displacementField?, ← hb.displacementField?, hfield] at hfield'
    exact (Option.some.inj hfield').symm
  obtain ⟨hoffset, hend, -⟩ := Encoding.displacementField?_eq_some hfield
  obtain ⟨-, -, hbytes⟩ := DisplacementField.write?_eq_some.mp (DisplacementField.write?_of_read? hread)
  obtain ⟨-, -, hbytes'⟩ := DisplacementField.write?_eq_some.mp (DisplacementField.write?_of_read? hread')
  have hlength : c.bytes.length = b.bytes.length := hc.length.trans hb.length.symm
  have hopcode : c.bytes.take field'.offset = b.bytes.take field'.offset := by
    rw [hoffset, hb.opcodeSize, hc.opcode, hb.opcode]
  -- nothing is left behind the displacement
  rw [List.drop_of_length_le (by omega)] at hbytes hbytes'
  rw [hbytes', hopcode]
  exact hbytes.symm

/-- The length tells which of the two encodings it was, and the displacement all the rest. -/
theorem Coded.encoding_eq (hb : Coded a b) (hc : Coded a c) (hlength : c.bytes.length = b.bytes.length)
    (hdisp : b.displacement? = some disp) (hdisp' : c.displacement? = some disp) :
    c.bytes = b.bytes ∧ c.opcodeSize = b.opcodeSize := by
  rcases hb with hb | ⟨hshort, long, hlong, hb⟩ <;> rcases hc with hc | ⟨hshort', long', hlong', hc⟩
  · exact ⟨hb.bytes_eq hc hdisp hdisp', hc.opcodeSize.trans hb.opcodeSize.symm⟩
  · have hlt := (lengthened_of_rewritten hshort' hlong' hc).lt
    rw [hlength, hb.length] at hlt
    exact absurd hlt (Nat.lt_irrefl _)
  · have hlt := (lengthened_of_rewritten hshort hlong hb).lt
    rw [← hlength, hc.length] at hlt
    exact absurd hlt (Nat.lt_irrefl _)
  · obtain rfl := Option.some.inj (hlong.symm.trans hlong')
    exact ⟨hb.bytes_eq hc hdisp hdisp', hc.opcodeSize.trans hb.opcodeSize.symm⟩

end Splice.Instruction
