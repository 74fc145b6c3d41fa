import Splice.Instruction.Basic

/-!
# Displacements round trip

A displacement that was written is the one that is read (`read?_of_write?`), and writing
it again changes nothing (`write?_of_write?`). Where the field lies depends on the length
of the encoding alone, which a write keeps, so an instruction whose displacement was
written for the way to some address encodes that address
(`Instruction.encodedTarget?_of_write?`).

The lemmas on `write?` are equivalences: `write?_eq_some` says exactly when a write succeeds and
what comes of it, `inBounds_iff` when bytes hold a field, and `displacementField?_eq_some` where
the field of an encoding lies. Little-endian numbers themselves are the subject of
`Splice.Bytes.LittleEndian`.
-/

namespace Splice

namespace DisplacementField

variable {field : DisplacementField} {bytes out : List UInt8} {disp : Int64}

/-- A displacement is written exactly if it fits and its field lies in the bytes, and it takes the place
of the bytes of the field. -/
theorem write?_eq_some : field.write? bytes disp = some out
    ↔ field.fits disp = true ∧ field.inBounds bytes.length = true
      ∧ out = bytes.take field.offset ++ LittleEndian.encode field.width disp.toUInt64.toNat
        ++ bytes.drop (field.offset + field.width) := by
  unfold write?
  split
  next h =>
    rw [Bool.and_eq_true] at h
    simp [h, eq_comm]
  next h =>
    rw [Bool.and_eq_true] at h
    constructor
    · intro h'
      cases h'
    · intro h'
      exact absurd ⟨h'.1, h'.2.1⟩ h

theorem inBounds_iff {length : Nat} :
    field.inBounds length = true ↔ field.offset + field.width ≤ length := by
  simp [inBounds]

/-- The bytes of the field after a write. -/
theorem slice_of_write? (h : field.write? bytes disp = some out) :
    field.slice out = LittleEndian.encode field.width disp.toUInt64.toNat := by
  obtain ⟨-, hbounds, rfl⟩ := write?_eq_some.mp h
  rw [inBounds_iff] at hbounds
  have hoffset : (bytes.take field.offset).length = field.offset := by
    rw [List.length_take]
    omega
  rw [slice, List.append_assoc, List.drop_left' hoffset,
    List.take_left' (LittleEndian.length_encode _ _)]

/-- A number that fits into `width` bytes is read back from them. -/
theorem decodeSigned_encode (hwidth : field.width ∈ [1, 2, 4]) (hfits : field.fits disp = true) :
    LittleEndian.decodeSigned (LittleEndian.encode field.width disp.toUInt64.toNat)
      = disp.toInt := by
  have hdisp : disp.toInt = Int.bmod disp.toUInt64.toNat (2 ^ 64) := BitVec.toInt_eq_toNat_bmod _
  have hdvd : 256 ^ field.width ∣ 2 ^ 64 := by
    simp only [List.mem_cons, List.not_mem_nil, or_false] at hwidth
    rcases hwidth with h | h | h <;> rw [h] <;> decide
  have hrange : disp.toInt.bmod (256 ^ field.width) = disp.toInt := by
    rw [fits, decide_eq_true_eq, range] at hfits
    simp only [List.mem_cons, List.not_mem_nil, or_false] at hwidth
    rcases hwidth with h | h | h <;> rw [h] at hfits ⊢ <;> simp only at hfits <;>
      refine Int.bmod_eq_of_le ?_ ?_ <;> omega
  rw [LittleEndian.decodeSigned, LittleEndian.decode_encode, LittleEndian.length_encode,
    Int.natCast_emod, Int.emod_bmod, ← hrange, hdisp, Int.bmod_bmod_of_dvd hdvd]

/-- What was written is read. -/
theorem read?_of_write? (hwidth : field.width ∈ [1, 2, 4])
    (h : field.write? bytes disp = some out) : field.read? out = some disp := by
  obtain ⟨hfits, hbounds, -⟩ := write?_eq_some.mp h
  have hwidth' : [1, 2, 4].contains field.width = true := List.contains_iff_mem.mpr hwidth
  rw [read?, length_write? h, hbounds, hwidth', slice_of_write? h, decodeSigned_encode hwidth hfits]
  simp

/-- Writing the same displacement again changes nothing. -/
theorem write?_of_write? (h : field.write? bytes disp = some out) :
    field.write? out disp = some out := by
  have hlength := length_write? h
  obtain ⟨hfits, hbounds, hout⟩ := write?_eq_some.mp h
  refine write?_eq_some.mpr ⟨hfits, by rwa [hlength], ?_⟩
  rw [inBounds_iff] at hbounds
  have hoffset : (bytes.take field.offset).length = field.offset := by
    rw [List.length_take]
    omega
  have hprefix : (bytes.take field.offset
      ++ LittleEndian.encode field.width disp.toUInt64.toNat).length
        = field.offset + field.width := by
    rw [List.length_append, hoffset, LittleEndian.length_encode]
  have htake : out.take field.offset = bytes.take field.offset := by
    rw [hout, List.append_assoc, List.take_left' hoffset]
  have hdrop : out.drop (field.offset + field.width)
      = bytes.drop (field.offset + field.width) := by
    rw [hout, List.drop_left' hprefix]
  rw [htake, hdrop]
  exact hout

/-- The digits that are written depend on the number only up to what they can hold. -/
theorem encode_mod (n value : Nat) :
    LittleEndian.encode n (value % 256 ^ n) = LittleEndian.encode n value := by
  have h := LittleEndian.encode_decode (LittleEndian.encode n value)
  rwa [LittleEndian.length_encode, LittleEndian.decode_encode] at h

/-- A number read from one, two or four bytes is within the range of the field. -/
theorem fits_decodeSigned {slice : List UInt8} (hwidth : field.width ∈ [1, 2, 4])
    (hlength : slice.length = field.width) :
    (Int64.ofInt (LittleEndian.decodeSigned slice)).toInt = LittleEndian.decodeSigned slice
      ∧ field.fits (Int64.ofInt (LittleEndian.decodeSigned slice)) = true := by
  have hpos : 0 < 256 ^ field.width := Nat.pow_pos (by decide)
  have hlower : -((256 ^ field.width : Nat) : Int) ≤ 2 * LittleEndian.decodeSigned slice := by
    have h := @Int.le_bmod (LittleEndian.decode slice) _ hpos
    rw [LittleEndian.decodeSigned, hlength]
    omega
  have hupper : 2 * LittleEndian.decodeSigned slice < ((256 ^ field.width : Nat) : Int) := by
    have h := @Int.bmod_lt (LittleEndian.decode slice) _ hpos
    rw [LittleEndian.decodeSigned, hlength]
    omega
  simp only [List.mem_cons, List.not_mem_nil, or_false] at hwidth
  have hself : (Int64.ofInt (LittleEndian.decodeSigned slice)).toInt
      = LittleEndian.decodeSigned slice := by
    rcases hwidth with h | h | h <;> rw [h] at hlower hupper <;>
      refine Int64.toInt_ofInt_of_le ?_ ?_ <;> omega
  refine ⟨hself, ?_⟩
  rw [fits, hself, decide_eq_true_eq, range]
  rcases hwidth with h | h | h <;> rw [h] at hlower hupper ⊢ <;> simp only <;> omega

/-- The digits of a number that was read are those it was read from. -/
theorem encode_decodeSigned {slice : List UInt8} (hwidth : field.width ∈ [1, 2, 4])
    (hlength : slice.length = field.width) :
    LittleEndian.encode field.width (Int64.ofInt (LittleEndian.decodeSigned slice)).toUInt64.toNat
      = slice := by
  obtain ⟨hself, -⟩ := fits_decodeSigned hwidth hlength
  generalize Int64.ofInt (LittleEndian.decodeSigned slice) = disp at hself ⊢
  have hbmod : disp.toInt = Int.bmod disp.toUInt64.toNat (2 ^ 64) := BitVec.toInt_eq_toNat_bmod _
  have hdvd : 256 ^ field.width ∣ 2 ^ 64 := by
    simp only [List.mem_cons, List.not_mem_nil, or_false] at hwidth
    rcases hwidth with h | h | h <;> rw [h] <;> decide
  have hvalue : disp.toUInt64.toNat % 256 ^ field.width = LittleEndian.decode slice := by
    have hlt := LittleEndian.decode_lt slice
    rw [hlength] at hlt
    rw [hself, LittleEndian.decodeSigned, hlength] at hbmod
    -- the two numbers have the same residue
    have hmod := congrArg (fun x : Int => x.bmod (256 ^ field.width)) hbmod
    simp only [Int.bmod_bmod, Int.bmod_bmod_of_dvd hdvd] at hmod
    have hemod := congrArg (fun x : Int => x % ((256 ^ field.width : Nat) : Int)) hmod
    simp only [Int.bmod_emod] at hemod
    rw [← Int.natCast_emod, ← Int.natCast_emod, Int.natCast_inj, Nat.mod_eq_of_lt hlt] at hemod
    exact hemod.symm
  rw [← encode_mod, hvalue, ← hlength]
  exact LittleEndian.encode_decode slice

/-- Writing what is read changes nothing. -/
theorem write?_of_read? (h : field.read? bytes = some disp) :
    field.write? bytes disp = some bytes := by
  unfold read? at h
  split at h
  next hok =>
    rw [Bool.and_eq_true, List.contains_iff_mem] at hok
    obtain ⟨hbounds, hwidth⟩ := hok
    have hlength : (field.slice bytes).length = field.width := by
      rw [inBounds_iff] at hbounds
      rw [slice, List.length_take, List.length_drop]
      omega
    obtain ⟨-, hfits⟩ := fits_decodeSigned hwidth hlength
    have hdigits := encode_decodeSigned hwidth hlength
    rw [Option.some.inj h] at hfits hdigits
    refine write?_eq_some.mpr ⟨hfits, hbounds, ?_⟩
    rw [hdigits, slice, List.append_assoc, ← List.drop_drop, List.take_append_drop,
      List.take_append_drop]
  next => cases h

end DisplacementField

namespace Encoding

variable {bytes : List UInt8} {opcodeSize : UInt8} {field : DisplacementField}

theorem displacementField?_congr {other : List UInt8} (h : other.length = bytes.length) :
    displacementField? other opcodeSize = displacementField? bytes opcodeSize := by
  rw [displacementField?, displacementField?, h]

/-- The field of a displacement lies behind the opcode and goes up to the end of the instruction, in one,
two or four bytes. -/
theorem displacementField?_eq_some (h : displacementField? bytes opcodeSize = some field) :
    field.offset = opcodeSize.toNat ∧ field.offset + field.width = bytes.length
      ∧ field.width ∈ [1, 2, 4] := by
  unfold displacementField? at h
  simp only at h
  split at h
  next hok =>
    cases h
    rw [List.contains_iff_mem] at hok
    exact ⟨rfl, Nat.add_sub_cancel' hok.1, hok.2⟩
  next => cases h

end Encoding

namespace Instruction

variable {instr : Instruction} {field : DisplacementField} {bytes : List UInt8} {target : UInt64}

/-- An instruction with the displacement to an address leads to it. -/
theorem encodedTarget?_of_write? (hfield : instr.displacementField? = some field)
    (h : field.write? instr.bytes (target - instr.endAddr).toInt64 = some bytes) :
    ({ instr with bytes := bytes } : Instruction).encodedTarget? = some target := by
  have hlength := DisplacementField.length_write? h
  have hwidth := (Encoding.displacementField?_eq_some hfield).2.2
  have hfield' : ({ instr with bytes := bytes } : Instruction).displacementField? = some field := by
    rw [displacementField?, Encoding.displacementField?_congr hlength]
    exact hfield
  have hend : ({ instr with bytes := bytes } : Instruction).endAddr = instr.endAddr := by
    simp [endAddr, size, hlength]
  have hread := DisplacementField.read?_of_write? hwidth h
  simp only [encodedTarget?, displacement?, hfield', hend, Option.bind_eq_bind, Option.bind_some,
    hread, pure, UInt64.toUInt64_toInt64, Option.some.injEq]
  rw [UInt64.add_comm, UInt64.sub_add_cancel]

end Instruction

end Splice
