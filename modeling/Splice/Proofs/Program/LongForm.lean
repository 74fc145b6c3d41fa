import Splice.Proofs.Instruction.Promotion
import Splice.Proofs.Program.RoundTrip

/-!
# Long forms of short jumps

A short jump is its prefixes, one opcode byte and one byte of displacement. Widening it keeps the
prefixes, replaces the opcode by the one with a 32-bit displacement (`LongOpcode`) and makes room
for four bytes (`promote?_iff`). The result is no short jump, and it is never widened again.

The number of bytes in front of the displacement is kept in one byte. The opcode of a conditional
jump becomes longer by one, so the number runs over for a conditional jump that has 255 bytes in
front of its displacement: the long form then says that nothing is in front of it, and
has no displacement at all. This is the only such jump (`overruns_iff`); every other
long form has four bytes of displacement right behind the opcode, which take every signed
32-bit number (`Promotion.usable`). `long_forms_usable` puts this together, for
encodings and for the jumps that the engine widens.
-/

namespace Splice

namespace Encoding

/-- The opcodes of short jumps and of their long forms: the jump that is always taken, and the
sixteen conditional jumps, which keep their condition. -/
inductive LongOpcode : UInt8 → List UInt8 → Prop where
  | always : LongOpcode 0xEB [0xE9]
  | conditional (condition : UInt8) (h : condition < 16) :
    LongOpcode (0x70 + condition) [0x0F, 0x80 + condition]

variable {bytes prefixes code : List UInt8} {opcode opcodeSize : UInt8} {long : Promotion}

/-- The opcodes of the conditional jumps follow one another. -/
theorem toNat_conditional {condition : UInt8} (h : condition < 16) :
    ((0x70 : UInt8) + condition).toNat = 112 + condition.toNat ∧ condition.toNat < 16 := by
  have hlt : condition.toNat < 16 := UInt8.lt_iff_toNat_lt.mp h
  have hfirst : (0x70 : UInt8).toNat = 112 := rfl
  refine ⟨?_, hlt⟩
  rw [UInt8.toNat_add, hfirst]
  omega

/-- The opcode of the long form is as long as the short one, or longer by one byte. -/
theorem LongOpcode.length (h : LongOpcode opcode code) :
    opcode = 0xEB ∧ code.length = 1 ∨ opcode ≠ 0xEB ∧ code.length = 2 := by
  cases h with
  | always => exact .inl ⟨rfl, rfl⟩
  | conditional condition hlt =>
    refine .inr ⟨fun heq => ?_, rfl⟩
    obtain ⟨hopcode, hbound⟩ := toNat_conditional hlt
    rw [heq] at hopcode
    have halways : (0xEB : UInt8).toNat = 235 := rfl
    omega

/-- The opcodes that can be widened are those listed, each with its long one. -/
theorem longOpcode?_iff : longOpcode? opcode = some code ↔ LongOpcode opcode code := by
  have hfirst : (0x70 : UInt8).toNat = 112 := rfl
  have hlast : (0x7F : UInt8).toNat = 127 := rfl
  constructor
  · intro h
    unfold longOpcode? at h
    split at h
    next halways =>
      cases h
      rw [halways]
      exact .always
    next =>
      split at h
      next hrange =>
        cases h
        obtain ⟨hlower, hupper⟩ := hrange
        have hlt : opcode - 0x70 < 16 := by
          rw [UInt8.le_iff_toNat_le] at hupper
          rw [UInt8.lt_iff_toNat_lt, UInt8.toNat_sub_of_le _ _ hlower]
          show opcode.toNat - 112 < 16
          omega
        have hopcode : (0x70 : UInt8) + (opcode - 0x70) = opcode := by
          rw [UInt8.add_comm, UInt8.sub_add_cancel]
        have hlong := LongOpcode.conditional (opcode - 0x70) hlt
        rwa [hopcode] at hlong
      next => cases h
  · intro h
    have hlength := h.length
    cases h with
    | always => rfl
    | conditional condition hlt =>
      obtain ⟨hopcode, hbound⟩ := toNat_conditional hlt
      have hrange : (0x70 : UInt8) ≤ 0x70 + condition ∧ (0x70 : UInt8) + condition ≤ 0x7F := by
        rw [UInt8.le_iff_toNat_le, UInt8.le_iff_toNat_le]
        omega
      have hother : (0x70 : UInt8) + condition ≠ 0xEB := by
        rcases hlength with ⟨-, hshort⟩ | ⟨hother, -⟩
        · cases hshort
        · exact hother
      have hcondition : (0x70 : UInt8) + condition - 0x70 = condition := by
        rw [UInt8.add_comm, UInt8.add_sub_cancel]
      rw [longOpcode?, if_neg hother, if_pos hrange, hcondition]

/-- What is widened is prefixes, an opcode that has a long form, and one byte of displacement. -/
theorem promote?_iff : promote? bytes opcodeSize = some long
    ↔ ∃ prefixes opcode disp code, LongOpcode opcode code ∧ bytes = prefixes ++ [opcode, disp]
      ∧ opcodeSize.toNat = prefixes.length + 1
      ∧ long = ⟨prefixes ++ code ++ List.replicate 4 0, UInt8.ofNat (prefixes ++ code).length⟩ := by
  unfold promote?
  simp only
  constructor
  · intro h
    split at h
    next => cases h
    next hshape =>
      rw [not_or, Decidable.not_not] at hshape
      obtain ⟨hsize, hlength⟩ := hshape
      simp only [Option.bind_eq_bind, Option.bind_eq_some_iff, pure, Option.some.injEq] at h
      obtain ⟨opcode, hopcode, code, hcode, rfl⟩ := h
      obtain ⟨hlt, hopcode⟩ := List.getElem?_eq_some_iff.mp hopcode
      have hlast : opcodeSize.toNat < bytes.length := by omega
      refine ⟨bytes.take (opcodeSize.toNat - 1), opcode, bytes[opcodeSize.toNat], code,
        longOpcode?_iff.mp hcode, ?_, ?_, rfl⟩
      -- the opcode is the last byte but one
      · have hrest : bytes.drop (opcodeSize.toNat - 1) = [opcode, bytes[opcodeSize.toNat]] := by
          rw [List.drop_eq_getElem_cons hlt, hopcode, Nat.sub_add_cancel (by omega),
            List.drop_eq_getElem_cons hlast, List.drop_of_length_le (by omega)]
        rw [← hrest, List.take_append_drop]
      · rw [List.length_take]
        omega
  · rintro ⟨prefixes, opcode, disp, code, hlong, rfl, hsize, rfl⟩
    have hshape : ¬(opcodeSize.toNat = 0
        ∨ (prefixes ++ [opcode, disp]).length ≠ opcodeSize.toNat + 1) := by
      rw [List.length_append, hsize]
      simp
    have hopcode : (prefixes ++ [opcode, disp])[opcodeSize.toNat - 1]? = some opcode := by
      rw [hsize, Nat.add_sub_cancel, List.getElem?_append_right (Nat.le_refl _), Nat.sub_self]
      rfl
    have hfront : (prefixes ++ [opcode, disp]).take (opcodeSize.toNat - 1) = prefixes := by
      rw [hsize, Nat.add_sub_cancel, List.take_left]
    rw [if_neg hshape, hopcode, hfront]
    simp only [Option.bind_eq_bind, Option.bind_some, longOpcode?_iff.mpr hlong]
    rfl

/-- A conditional jump with 255 bytes in front of its displacement: its long form has one byte more
there than the size of the opcode can say. -/
def Overruns (bytes : List UInt8) (opcodeSize : UInt8) : Prop :=
  opcodeSize = 255 ∧ bytes[254]? ≠ some 0xEB

instance : Decidable (Overruns bytes opcodeSize) := inferInstanceAs (Decidable (_ ∧ _))

/-- The long form has too many bytes in front of its displacement exactly if prefixes and opcode are more
than 255. -/
theorem overruns_iff {disp : UInt8} (hlong : LongOpcode opcode code)
    (hsize : opcodeSize.toNat = prefixes.length + 1) :
    Overruns (prefixes ++ [opcode, disp]) opcodeSize ↔ 255 < (prefixes ++ code).length := by
  have hmax : opcodeSize = 255 ↔ opcodeSize.toNat = 255 := UInt8.toNat_inj.symm
  have hlt := opcodeSize.toNat_lt
  rw [Overruns, List.length_append, hmax]
  constructor
  · rintro ⟨hfull, hopcode⟩
    rw [List.getElem?_append_right (by omega)] at hopcode
    have hat : 254 - prefixes.length = 0 := by omega
    rw [hat, List.getElem?_cons_zero, ne_eq, Option.some.injEq] at hopcode
    rcases hlong.length with ⟨heq, -⟩ | ⟨-, hcode⟩
    · exact absurd heq hopcode
    · omega
  · intro hover
    rcases hlong.length with ⟨-, hcode⟩ | ⟨hne, hcode⟩
    · omega
    · have hat : 254 - prefixes.length = 0 := by omega
      refine ⟨by omega, ?_⟩
      rw [List.getElem?_append_right (by omega), hat, List.getElem?_cons_zero, ne_eq,
        Option.some.injEq]
      exact hne

/-- The displacement of a long form that has `front` bytes in front of it: four bytes,
right behind the opcode, that hold what is written to them. -/
structure Promotion.Usable (long : Promotion) (front : Nat) : Prop where
  opcodeSize : long.opcodeSize.toNat = front
  field : displacementField? long.bytes long.opcodeSize = some ⟨front, 4⟩
  roundTrips : DisplacementField.RoundTrips ⟨front, 4⟩ long.bytes

/-- A long form can be used if the size of its opcode is the one that it has. -/
theorem Promotion.usable (hbytes : long.bytes = code ++ List.replicate 4 0)
    (hsize : long.opcodeSize.toNat = code.length) : long.Usable code.length := by
  have hfield : displacementField? long.bytes long.opcodeSize = some ⟨code.length, 4⟩ := by
    have hlength : long.bytes.length = code.length + 4 := by
      rw [hbytes, List.length_append, List.length_replicate]
    have hok : code.length ≤ code.length + 4 ∧ [1, 2, 4].contains 4 = true :=
      ⟨Nat.le_add_right _ _, by decide⟩
    rw [displacementField?, hlength, hsize]
    simp only [Nat.add_sub_cancel_left]
    rw [if_pos hok]
  exact ⟨hsize, hfield, DisplacementField.roundTrips_of_field hfield⟩

/-- The long form of a jump whose opcode runs over has no displacement. -/
theorem displacementField?_of_overruns (hbytes : long.bytes = code ++ List.replicate 4 0)
    (hsize : long.opcodeSize.toNat = 0) (hfront : 0 < code.length) :
    displacementField? long.bytes long.opcodeSize = none := by
  cases hfield : displacementField? long.bytes long.opcodeSize with
  | none => rfl
  | some field =>
    -- a field would reach from the beginning to the end, and is not that wide
    obtain ⟨hoffset, hend, hwidth⟩ := displacementField?_eq_some hfield
    rw [hbytes, List.length_append, List.length_replicate] at hend
    simp only [List.mem_cons, List.not_mem_nil, or_false] at hwidth
    omega

/-- What widening makes of a short jump that consists of these prefixes, this opcode and one byte
of displacement. -/
structure Widens (prefixes : List UInt8) (opcode : UInt8) (bytes : List UInt8) (opcodeSize : UInt8)
    (code : List UInt8) (long : Promotion) : Prop where
  short : ∃ disp, bytes = prefixes ++ [opcode, disp]
  size : opcodeSize.toNat = prefixes.length + 1
  opcode : LongOpcode opcode code
  encoding : long.bytes = prefixes ++ code ++ List.replicate 4 0
  growth : long.bytes.length = bytes.length + 3 ∨ long.bytes.length = bytes.length + 4
  final : promote? long.bytes long.opcodeSize = none
  usable : ¬Overruns bytes opcodeSize → long.Usable (prefixes ++ code).length
  unusable : Overruns bytes opcodeSize →
    long.opcodeSize = 0 ∧ displacementField? long.bytes long.opcodeSize = none

/-- What widening makes of a jump keeps the prefixes and the condition, and the four bytes behind the
opcode are the displacement. -/
theorem widens_of_promote? (h : promote? bytes opcodeSize = some long) :
    ∃ prefixes opcode code, Widens prefixes opcode bytes opcodeSize code long := by
  obtain ⟨prefixes, opcode, disp, code, hlong, rfl, hsize, rfl⟩ := promote?_iff.mp h
  have hlt := opcodeSize.toNat_lt
  -- an opcode is one byte or two, so only 256 bytes in front of the displacement run over
  have hcode : 1 ≤ code.length ∧ code.length ≤ 2 := by
    rcases hlong.length with ⟨-, hcode⟩ | ⟨-, hcode⟩ <;> omega
  have hover : Overruns (prefixes ++ [opcode, disp]) opcodeSize ↔ 255 < (prefixes ++ code).length :=
    overruns_iff hlong hsize
  have hfront : (prefixes ++ code).length = prefixes.length + code.length := List.length_append
  refine ⟨prefixes, opcode, code, ⟨disp, rfl⟩, hsize, hlong, rfl, ?_, ?_, ?_, ?_⟩
  · show (prefixes ++ code ++ List.replicate 4 0).length = (prefixes ++ [opcode, disp]).length + 3
      ∨ (prefixes ++ code ++ List.replicate 4 0).length = (prefixes ++ [opcode, disp]).length + 4
    rw [List.length_append, List.length_append, List.length_append, List.length_replicate]
    show _ = _ + 2 + 3 ∨ _ = _ + 2 + 4
    omega
  · -- the size of the opcode is at most what it should be, and four bytes are behind that
    have hmod := Nat.mod_le (prefixes ++ code).length (2 ^ 8)
    unfold promote?
    apply if_pos
    right
    rw [UInt8.toNat_ofNat']
    show (prefixes ++ code ++ List.replicate 4 0).length ≠ _
    rw [List.length_append, List.length_replicate]
    omega
  · intro hfits
    apply Promotion.usable rfl
    rw [UInt8.toNat_ofNat']
    apply Nat.mod_eq_of_lt
    rw [hover] at hfits
    omega
  · intro hruns
    rw [hover] at hruns
    have hfull : (prefixes ++ code).length = 256 := by omega
    have hzero : UInt8.ofNat (prefixes ++ code).length = 0 := by
      rw [hfull]
      rfl
    refine ⟨hzero, displacementField?_of_overruns rfl ?_ (by omega)⟩
    rw [hzero]
    rfl

end Encoding

namespace Instruction

/-- Every signed 32-bit displacement can be written to the jump and read back from it. -/
def TakesFar (jump : Instruction) : Prop :=
  ∀ disp : Int64, -2 ^ 31 ≤ disp.toInt → disp.toInt < 2 ^ 31 →
    ∃ field out, jump.displacementField? = some field ∧ field.write? jump.bytes disp = some out
      ∧ (jump.withBytes out).displacement? = some disp

variable {jump : Instruction} {prefixes code bytes : List UInt8} {opcode opcodeSize : UInt8}
  {long : Encoding.Promotion}

/-- A jump with the encoding of a long form is no short jump. -/
theorem not_short_of_promote? (h : Encoding.promote? bytes opcodeSize = some long)
    (hbytes : jump.bytes = long.bytes) (hsize : jump.opcodeSize = long.opcodeSize) :
    jump.isShortJump = false := by
  have hwidth := Encoding.width_of_promote? h (congrArg List.length hbytes)
  rw [isShortJump, displacementField?, hsize, hwidth, Bool.and_false]

/-- A jump with the encoding of a long form takes every signed 32-bit displacement, or its opcode
has run over. -/
theorem takesFar_iff (h : Encoding.promote? bytes opcodeSize = some long)
    (hbytes : jump.bytes = long.bytes) (hsize : jump.opcodeSize = long.opcodeSize) :
    jump.TakesFar ↔ ¬Encoding.Overruns bytes opcodeSize := by
  obtain ⟨prefixes, opcode, code, hwidens⟩ := Encoding.widens_of_promote? h
  constructor
  · intro htakes hover
    obtain ⟨field, -, hfield, -⟩ := htakes 0 (by decide) (by decide)
    rw [displacementField?, hbytes, hsize, (hwidens.unusable hover).2] at hfield
    cases hfield
  · intro hfits disp hlower hupper
    have husable := hwidens.usable hfits
    have hfield : jump.displacementField? = some ⟨(prefixes ++ code).length, 4⟩ := by
      rw [displacementField?, hbytes, hsize, husable.field]
    have hholds : DisplacementField.Holds ⟨(prefixes ++ code).length, 4⟩ disp.toInt :=
      ⟨hlower, hupper⟩
    obtain ⟨out, hout⟩ := Option.isSome_iff_exists.mp ((husable.roundTrips.granted disp).mpr hholds)
    refine ⟨_, out, hfield, by rw [hbytes, hout], ?_⟩
    have hfield' : (jump.withBytes out).displacementField? = some ⟨(prefixes ++ code).length, 4⟩ := by
      rw [displacementField?] at hfield ⊢
      rw [← hfield]
      exact Encoding.displacementField?_congr
        ((DisplacementField.length_write? hout).trans (congrArg List.length hbytes.symm))
    have hread := husable.roundTrips.reads disp hholds
    rw [DisplacementField.overwritten_of_write? hout] at hread
    rw [displacement?, hfield']
    exact hread

end Instruction

namespace EngineM

variable {s t : Session} {jumper : InstrId} {disp amount : Int64}

/-- What the engine leaves of a short jump that it widens. -/
theorem promote_takesFar (h : promote jumper disp s = .ok amount t) :
    ∃ short wide, s.program.chain.get? jumper = some short ∧ t.program.chain.get? jumper = some wide
      ∧ Encoding.promote? short.bytes short.opcodeSize = some ⟨wide.bytes, wide.opcodeSize⟩
      ∧ (amount = 3 ∨ amount = 4) ∧ wide.isShortJump = false
      ∧ (wide.TakesFar ↔ ¬Encoding.Overruns short.bytes short.opcodeSize) := by
  obtain ⟨short, long, hget, -, -, hlong, rfl, rfl⟩ := promote_ok h
  obtain ⟨prefixes, opcode, code, hwidens⟩ := Encoding.widens_of_promote? hlong
  refine ⟨short, short.widened long, hget, ?_, hlong, ?_, Instruction.not_short_of_promote? hlong rfl rfl,
    Instruction.takesFar_iff hlong rfl rfl⟩
  · show (s.program.chain.adjust (Chain.only jumper (.widened long))).get? jumper = _
    rw [Chain.get?_adjust, hget, Option.map_some, Chain.only_self]
  · rw [growth]
    rcases hwidens.growth with hgrowth | hgrowth
    · left
      rw [hgrowth, Int.natCast_add, Int.add_comm, Int.add_sub_cancel]
      rfl
    · right
      rw [hgrowth, Int.natCast_add, Int.add_comm, Int.add_sub_cancel]
      rfl

/-- Widening keeps the prefixes of a short jump and the condition of a conditional one, and makes
it three or four bytes longer. The result is no short jump and is not widened again. Its displacement
is the four bytes behind the opcode and takes every signed 32-bit number, unless
the jump is conditional with 255 bytes in front of its displacement: then the long form has none. -/
theorem long_forms_usable (bytes : List UInt8) (opcodeSize : UInt8) :
    (∀ long, Encoding.promote? bytes opcodeSize = some long →
      (∃ prefixes opcode code, Encoding.Widens prefixes opcode bytes opcodeSize code long)
      ∧ ∀ jump : Instruction, jump.bytes = long.bytes → jump.opcodeSize = long.opcodeSize →
        jump.isShortJump = false ∧ (jump.TakesFar ↔ ¬Encoding.Overruns bytes opcodeSize))
    ∧ ∀ (s t : Session) (jumper : InstrId) (disp amount : Int64) (short : Instruction),
      s.program.chain.get? jumper = some short → short.bytes = bytes →
      short.opcodeSize = opcodeSize → promote jumper disp s = .ok amount t →
      ∃ wide, t.program.chain.get? jumper = some wide
        ∧ Encoding.promote? bytes opcodeSize = some ⟨wide.bytes, wide.opcodeSize⟩
        ∧ (amount = 3 ∨ amount = 4) ∧ wide.isShortJump = false
        ∧ (wide.TakesFar ↔ ¬Encoding.Overruns bytes opcodeSize) := by
  refine ⟨fun long h => ⟨Encoding.widens_of_promote? h, ?_⟩, ?_⟩
  · intro jump hbytes hsize
    exact ⟨Instruction.not_short_of_promote? h hbytes hsize, Instruction.takesFar_iff h hbytes hsize⟩
  · rintro s t jumper disp amount short hget rfl rfl h
    obtain ⟨short', wide, hget', hwidened⟩ := promote_takesFar h
    cases hget.symm.trans hget'
    exact ⟨wide, hwidened⟩

/-- A conditional jump with a prefix, to itself. -/
def prefixedJump : Session where
  program :=
    { (default : Program) with
      chain := .ofList [{ Instruction.decoded 0 [0x3E, 0x75, 0xFD] 2 .jump with target := some ⟨0⟩ }]
      config := ⟨8, true, true, false⟩ }
  recorder := .empty

/-- It keeps its prefix and its condition, grows by four bytes, and takes every displacement of
four bytes then. -/
theorem long_forms_usable_prefixed : ∃ t wide, promote ⟨0⟩ 1000 prefixedJump = .ok 4 t
    ∧ t.program.chain.get? ⟨0⟩ = some wide ∧ wide.bytes = [0x3E, 0x0F, 0x85, 0, 0, 0, 0]
    ∧ wide.opcodeSize = 3 ∧ wide.isShortJump = false ∧ wide.TakesFar := by
  have hrun : promote ⟨0⟩ 1000 prefixedJump = .ok 4 (prefixedJump.withChain
      (prefixedJump.program.chain.adjust
        (Chain.only ⟨0⟩ (.widened ⟨[0x3E, 0x0F, 0x85, 0, 0, 0, 0], 3⟩)))) := by
    rfl
  obtain ⟨hencoding, hengine⟩ := long_forms_usable [0x3E, 0x75, 0xFD] 2
  obtain ⟨wide, hwide, hlong, -⟩ := hengine _ _ _ _ _ _ rfl rfl rfl hrun
  obtain ⟨hbytes, hsize⟩ := Encoding.Promotion.mk.inj (Option.some.inj hlong)
  obtain ⟨-, hjump⟩ := hencoding ⟨[0x3E, 0x0F, 0x85, 0, 0, 0, 0], 3⟩ rfl
  obtain ⟨hnotShort, htakes⟩ := hjump wide hbytes.symm hsize.symm
  exact ⟨_, wide, hrun, hwide, hbytes.symm, hsize.symm, hnotShort, htakes.mpr (by decide)⟩

end EngineM

namespace Encoding

/-- A conditional jump with 254 prefixes. -/
def prefixed : List UInt8 := List.replicate 254 0x3E ++ [0x75, 0x00]

/-- The size of the opcode of a long form is not always the number of bytes in front of the
four bytes of displacement. -/
theorem promote?_prefixed : ¬∀ (bytes : List UInt8) (opcodeSize : UInt8) (long : Promotion),
    promote? bytes opcodeSize = some long → long.opcodeSize.toNat + 4 = long.bytes.length := by
  intro hall
  have hlong : promote? prefixed 255
      = some ⟨List.replicate 254 0x3E ++ [0x0F, 0x85, 0, 0, 0, 0], 0⟩ := by
    decide +kernel
  exact absurd (hall _ _ _ hlong) (by decide +kernel)

end Encoding

end Splice
