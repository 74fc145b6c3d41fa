import Splice.Instruction.Basic

/-!
# What an edit leaves of an instruction

An edit changes an instruction in one of two ways. Splicing turns its references to other
instructions and the lists of what refers to it, and leaves it `Alike`: where it was, with the
bytes it had. Where only these links change it is `Relinked`, and where only symbols pass from
one instruction to another it is `Retied`. Settling moves it and writes or widens its
displacement, and leaves all else: the instruction is `Carried` along.

Where one instruction takes the place of another, references are turned by `swap`.

Each relation lists in its fields or its equation what stays, and each is reflexive and
transitive, so it describes single steps and runs alike. `Carried` and `Alike` overlap in what
an update and a splice both leave: section, function, flags and targets. A property of
instructions that depends on these alone is kept by whole edits.
-/

namespace Splice

/-- The names with `new` in the place of `old`. -/
def swap (old new : InstrId) (id : InstrId) : InstrId := if id = old then new else id

section

variable {old new id : InstrId}

@[simp]
theorem swap_self : swap old new old = new := if_pos rfl

theorem swap_of_ne (h : id ≠ old) : swap old new id = id := if_neg h

/-- After the swap the old name is not met. -/
theorem swap_ne (h : old ≠ new) (id : InstrId) : swap old new id ≠ old := by
  by_cases hid : id = old
  · rw [hid, swap_self]
    exact h.symm
  · rw [swap_of_ne hid]
    exact hid

/-- The swap keeps different names apart, but for the one that comes in. -/
theorem swap_inj {a b : InstrId} (ha : a ≠ new) (hb : b ≠ new) (h : swap old new a = swap old new b) :
    a = b := by
  unfold swap at h
  split at h <;> split at h
  next hao hbo => rw [hao, hbo]
  next => exact absurd h.symm hb
  next => exact absurd h ha
  next => exact h

/-- The swap does nothing to names that are not the old one. -/
theorem map_swap_of_not_mem {ids : List InstrId} (h : old ∉ ids) :
    ids.map (swap old new) = ids := by
  have hid : ∀ id ∈ ids, swap old new id = id := by
    intro id hid
    exact swap_of_ne fun he => h (he ▸ hid)
  rw [List.map_congr_left hid, List.map_id']

end

namespace Instruction

/-- The instructions are in the same place and have the same bytes. -/
structure Alike (a b : Instruction) : Prop where
  addr : b.addr = a.addr
  sec : b.sec = a.sec
  bytes : b.bytes = a.bytes
  opcodeSize : b.opcodeSize = a.opcodeSize
  flags : b.flags = a.flags
  func : b.func = a.func

/-- The instructions differ in nothing but the symbols that are tied to them. -/
structure Retied (a b : Instruction) : Prop where
  alike : Alike a b
  target : b.target = a.target
  jumpTable : b.jumpTable = a.jumpTable
  targetedBy : b.targetedBy = a.targetedBy

/-- The instructions differ in nothing but what they refer to and what refers to them. -/
def Relinked (a b : Instruction) : Prop :=
  b = { a with target := b.target, jumpTable := b.jumpTable, targetedBy := b.targetedBy }

/-- The same symbols are tied to the instructions. -/
def SameTies (a b : Instruction) : Prop := b.relocs = a.relocs ∧ b.referencedBy = a.referencedBy

/-- The instructions differ in nothing but their address and their bytes. -/
structure Carried (a b : Instruction) : Prop where
  sec : b.sec = a.sec
  flags : b.flags = a.flags
  target : b.target = a.target
  jumpTable : b.jumpTable = a.jumpTable
  relocs : b.relocs = a.relocs
  referencedBy : b.referencedBy = a.referencedBy
  targetedBy : b.targetedBy = a.targetedBy
  func : b.func = a.func

variable {a b c : Instruction}

namespace Alike

theorem refl (a : Instruction) : Alike a a := ⟨rfl, rfl, rfl, rfl, rfl, rfl⟩

/-- To be in the same place with the same bytes is transitive. -/
theorem trans (hab : Alike a b) (hbc : Alike b c) : Alike a c where
  addr := hbc.addr.trans hab.addr
  sec := hbc.sec.trans hab.sec
  bytes := hbc.bytes.trans hab.bytes
  opcodeSize := hbc.opcodeSize.trans hab.opcodeSize
  flags := hbc.flags.trans hab.flags
  func := hbc.func.trans hab.func

theorem size (h : Alike a b) : b.size = a.size := by
  rw [Instruction.size, Instruction.size, h.bytes]

theorem encodedTarget? (h : Alike a b) : b.encodedTarget? = a.encodedTarget? := by
  simp only [Instruction.encodedTarget?, endAddr, displacement?, displacementField?, h.addr,
    h.size, h.bytes, h.opcodeSize]

end Alike

namespace Retied

theorem refl (a : Instruction) : Retied a a := ⟨.refl a, rfl, rfl, rfl⟩

/-- To differ in nothing but symbols is transitive. -/
theorem trans (hab : Retied a b) (hbc : Retied b c) : Retied a c where
  alike := hab.alike.trans hbc.alike
  target := hbc.target.trans hab.target
  jumpTable := hbc.jumpTable.trans hab.jumpTable
  targetedBy := hbc.targetedBy.trans hab.targetedBy

theorem references (h : Retied a b) : b.references = a.references := by
  rw [Instruction.references, Instruction.references, h.target, h.jumpTable]

end Retied

theorem SameTies.refl (a : Instruction) : SameTies a a := ⟨rfl, rfl⟩

theorem SameTies.trans (hab : SameTies a b) (hbc : SameTies b c) : SameTies a c :=
  ⟨hbc.1.trans hab.1, hbc.2.trans hab.2⟩

namespace Relinked

theorem refl (a : Instruction) : Relinked a a := rfl

theorem trans (hab : Relinked a b) (hbc : Relinked b c) : Relinked a c := by
  rw [Relinked] at hab hbc ⊢
  rw [hbc, hab]

theorem alike (h : Relinked a b) : Alike a b := by
  rw [h]
  exact ⟨rfl, rfl, rfl, rfl, rfl, rfl⟩

theorem sameTies (h : Relinked a b) : SameTies a b := by
  rw [h]
  exact ⟨rfl, rfl⟩

end Relinked

namespace Carried

theorem refl (a : Instruction) : Carried a a := ⟨rfl, rfl, rfl, rfl, rfl, rfl, rfl, rfl⟩

/-- To differ in nothing but address and bytes is transitive. -/
theorem trans (hab : Carried a b) (hbc : Carried b c) : Carried a c where
  sec := hbc.sec.trans hab.sec
  flags := hbc.flags.trans hab.flags
  target := hbc.target.trans hab.target
  jumpTable := hbc.jumpTable.trans hab.jumpTable
  relocs := hbc.relocs.trans hab.relocs
  referencedBy := hbc.referencedBy.trans hab.referencedBy
  targetedBy := hbc.targetedBy.trans hab.targetedBy
  func := hbc.func.trans hab.func

theorem references (h : Carried a b) : b.references = a.references := by
  rw [Instruction.references, Instruction.references, h.target, h.jumpTable]

theorem isDirectTransfer (h : Carried a b) : b.isDirectTransfer = a.isDirectTransfer := by
  rw [Instruction.isDirectTransfer, Instruction.isDirectTransfer, h.target, h.flags]

end Carried

end Instruction

end Splice
