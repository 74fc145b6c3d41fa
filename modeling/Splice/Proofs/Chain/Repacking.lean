import Splice.Proofs.Chain.Calls
import Splice.Proofs.Chain.Packing

/-!
# What packing renumbers

A well-formed chain is packed if and only if what its linked instructions refer to is linked. The
new names count the linked instructions from zero in the order of the code, and the copy holds the
instructions under these names with their targets, tables and jumpers renamed (`Repacked`). It
answers its references where the chain did (`Reciprocal`), and packing it once more gives the same
chain and leaves every name as it is. `compact_renumbers` puts this together.

For the second packing, only the positions matter that a list of instructions mentions: where
they all lie within the list (`Inward`), the chain of the list is its own packed copy
(`compact_ofList`).

That the second packing changes nothing is not a consequence of the first part: it needs that
the copy is threaded in the order of its slots, so that position and name are the same. The
lists of jumpers lose those that are not linked, the first time, and then have no more to lose.
-/

namespace Splice

/-- `b` is `a` under the new names: every reference is renamed, jumpers without a new name are
dropped, and nothing else differs. -/
structure Renaming.Renames (names : Renaming) (a b : Instruction) : Prop where
  target : b.target.map some = a.target.map names.get?
  jumpTable : b.jumpTable.map some = a.jumpTable.map names.get?
  targetedBy : b.targetedBy = a.targetedBy.filterMap names.get?
  relinked : a.Relinked b

namespace Chain

/-- Linked instructions list as jumpers those linked ones that refer to them. -/
def Reciprocal (chain : Chain) : Prop :=
  ∀ jumper ∈ chain.ids, ∀ target ∈ chain.ids, ∀ a b, chain.get? jumper = some a
    → chain.get? target = some b → (target ∈ a.references ↔ jumper ∈ b.targetedBy)

/-- `packed` consists of the linked instructions of `chain` under their new names, and of nothing
else. -/
structure Repacked (chain packed : Chain) (names : Renaming) : Prop where
  /-- An instruction is named by its place in the order of the code, and by that alone. -/
  name_iff : ∀ old new, names.get? old = some new ↔ chain.ids[new.index]? = some old
  spells : packed.Spells ((List.range chain.length).map Handle.mk)
  size : packed.slots.size = chain.length
  instr : ∀ old new a, names.get? old = some new → chain.get? old = some a →
    ∃ b, packed.get? new = some b ∧ names.Renames a b

variable {chain after : Chain} {names : Renaming} {id : InstrId} {instr : Instruction}
  {instrs : List Instruction}

/-! ## The copy -/

/-- What is linked has a new name. -/
theorem packedNames_get?_of_mem (hid : id ∈ chain.ids) :
    chain.packedNames.get? id = some (chain.packedName id) := by
  rw [packedNames_get?, if_pos hid]

/-- What packing makes of an instruction is the instruction under the new names, if all that it refers to
is linked. -/
theorem renames_packed (h : ∀ x ∈ instr.references, x ∈ chain.ids) :
    chain.packedNames.Renames instr (chain.packed instr) where
  target := by
    cases htarget : instr.target with
    | none => simp [packed, htarget]
    | some target =>
      have hmem : target ∈ chain.ids := h target (by simp [Instruction.references, htarget])
      simp [packed, htarget, packedNames_get?_of_mem hmem]
  jumpTable := by
    rw [packed, List.map_map]
    refine List.map_congr_left fun entry hentry => ?_
    have hmem : entry ∈ chain.ids := h entry (List.mem_append_right _ hentry)
    rw [packedNames_get?_of_mem hmem, Function.comp_apply]
  targetedBy := by
    rw [packed, ← List.filterMap_eq_map, List.filterMap_filter]
    refine List.filterMap_congr fun jumper _ => ?_
    rw [packedNames_get?]
    simp
  relinked := rfl

/-- The packed copy of a well-formed chain. -/
theorem repacked (hl : chain.Spells chain.ids) (hclosed : chain.Closed) :
    chain.Repacked (ofList chain.packedInstrs) chain.packedNames where
  name_iff _ _ := Renaming.get?_eq_some_iff hl.nodup
  spells := by
    have hcopy := hl.threaded.packsInto.spells
    rwa [map_packedName hl.nodup, ← hl.length] at hcopy
  size := by
    rw [hl.length, ofList, List.size_toArray, List.length_mapIdx, packedInstrs, List.length_map]
  instr old new a hname ha := by
    rw [packedNames_get?] at hname
    split at hname
    next hold =>
      cases hname
      exact ⟨_, hl.threaded.packsInto.get? hold ha, renames_packed (hclosed old hold a ha)⟩
    next => cases hname

/-- Packing keeps who refers to whom, and who is listed where. -/
theorem reciprocal_packed (hl : chain.Spells chain.ids) (h : chain.Reciprocal) :
    (ofList chain.packedInstrs).Reciprocal := by
  have hcopy := hl.threaded.packsInto
  intro jumper hjumper target htarget a b ha hb
  obtain ⟨x, hx, i, hi, rfl, rfl⟩ := hcopy.get?_of hjumper ha
  obtain ⟨y, hy, j, hj, rfl, rfl⟩ := hcopy.get?_of htarget hb
  have hrefers : chain.packedName y ∈ (chain.packed i).references ↔ y ∈ i.references := by
    rw [references_packed, List.mem_map]
    constructor
    · rintro ⟨z, hz, hzy⟩
      rwa [(packedName_inj hy).mp hzy.symm]
    · exact fun h => ⟨y, h, rfl⟩
  have hlists : chain.packedName x ∈ (chain.packed j).targetedBy ↔ x ∈ j.targetedBy := by
    rw [mem_targetedBy_packed]
    constructor
    · rintro ⟨z, hz, -, hzx⟩
      rwa [(packedName_inj hx).mp hzx.symm]
    · exact fun h => ⟨x, h, hx, rfl⟩
  rw [hrefers, hlists]
  exact h x hx y hy i j hi hj

/-! ## Packing the copy -/

/-- The instructions mention none but positions of their own list. -/
def Inward (instrs : List Instruction) : Prop :=
  ∀ instr ∈ instrs, ∀ x ∈ instr.references ++ instr.targetedBy, x.index < instrs.length

/-- A chain that is made of a list has the positions of the list as its instructions. -/
theorem mem_ids_ofList : id ∈ (ofList instrs).ids ↔ id.index < instrs.length := by
  rw [(spells_ofList instrs).ids_eq, List.mem_map]
  constructor
  · rintro ⟨index, hindex, rfl⟩
    exact List.mem_range.mp hindex
  · exact fun h => ⟨id.index, List.mem_range.mpr h, rfl⟩

/-- In a chain of nothing but its instructions they are already named by their place. -/
theorem get?_packedNames_ofList : (ofList instrs).packedNames.get? id
    = if id.index < instrs.length then some id else none := by
  have hl := spells_ofList instrs
  by_cases hid : id.index < instrs.length
  · have hnodup : (ofList instrs).packedNames.survivors.Nodup := by
      rw [packedNames, hl.ids_eq]
      exact hl.nodup
    rw [if_pos hid, Renaming.get?_eq_some_iff hnodup, packedNames, hl.ids_eq, List.getElem?_map,
      List.getElem?_range hid]
    rfl
  · rw [if_neg hid, packedNames_get?, if_neg (mt mem_ids_ofList.mp hid)]

/-- In a chain that is made of a list, each instruction has its position for a name already. -/
theorem packedName_ofList (h : id.index < instrs.length) : (ofList instrs).packedName id = id := by
  have hname := packedNames_get?_of_mem (mem_ids_ofList.mpr h)
  rw [get?_packedNames_ofList, if_pos h] at hname
  exact (Option.some.inj hname).symm

/-- In a chain that is made of a list, to pack an instruction that mentions positions of the list only
changes nothing. -/
theorem packed_ofList (h : ∀ x ∈ instr.references ++ instr.targetedBy, x.index < instrs.length) :
    (ofList instrs).packed instr = instr := by
  have hname : ∀ x ∈ instr.references ++ instr.targetedBy, (ofList instrs).packedName x = x :=
    fun x hx => packedName_ofList (h x hx)
  have htarget : instr.target.map (ofList instrs).packedName = instr.target := by
    cases htarget : instr.target with
    | none => rfl
    | some target => rw [Option.map_some, hname target (by simp [Instruction.references, htarget])]
  have htable : instr.jumpTable.map (ofList instrs).packedName = instr.jumpTable :=
    (List.map_congr_left fun x hx => hname x (by simp [Instruction.references, hx])).trans
      (List.map_id _)
  have hlinked : instr.targetedBy.filter (ofList instrs).ids.contains = instr.targetedBy :=
    List.filter_eq_self.mpr fun x hx =>
      List.contains_iff_mem.mpr (mem_ids_ofList.mpr (h x (List.mem_append_right _ hx)))
  have hjumpers : instr.targetedBy.map (ofList instrs).packedName = instr.targetedBy :=
    (List.map_congr_left fun x hx => hname x (List.mem_append_right _ hx)).trans (List.map_id _)
  rw [packed, htarget, htable, hlinked, hjumpers]

/-- A chain that is made of a list that mentions its own positions only is packed already. -/
theorem packedInstrs_ofList (h : Inward instrs) : (ofList instrs).packedInstrs = instrs := by
  refine List.ext_getElem? fun index => ?_
  rw [packedInstrs, (spells_ofList instrs).ids_eq, List.map_map, List.getElem?_map]
  by_cases hindex : index < instrs.length
  · rw [List.getElem?_range hindex, List.getElem?_eq_getElem hindex, Option.map_some,
      Function.comp_apply, get?_ofList, List.getElem?_eq_getElem hindex, Option.getD_some,
      packed_ofList (h _ (List.getElem_mem hindex))]
  · rw [List.getElem?_eq_none (by simpa using hindex), List.getElem?_eq_none (by simpa using hindex)]
    rfl

/-- In a list that mentions its own positions only, whatever is referred to is linked. -/
theorem closed_ofList (h : Inward instrs) : (ofList instrs).Closed := by
  intro id _ instr hinstr x hx
  rw [Option.mem_def, get?_ofList] at hinstr
  exact mem_ids_ofList.mpr (h instr (List.mem_of_getElem? hinstr) x (List.mem_append_left _ hx))

theorem compact_ofList (h : Inward instrs) :
    (ofList instrs).compact = .ok (ofList instrs, (ofList instrs).packedNames) :=
  (spells_ofList instrs).threaded.compact_ok_iff.mpr
    ⟨closed_ofList h, by rw [packedInstrs_ofList h], rfl⟩

/-- A packed copy mentions what it holds and nothing else. -/
theorem inward_packedInstrs (hl : chain.Spells chain.ids) (hclosed : chain.Closed) :
    Inward chain.packedInstrs := by
  have hname : ∀ x ∈ chain.ids, (chain.packedName x).index < chain.packedInstrs.length := by
    intro x hx
    rw [packedInstrs, List.length_map]
    exact List.idxOf_lt_length_of_mem hx
  intro instr hinstr x hx
  obtain ⟨id, hid, rfl⟩ := List.mem_map.mp hinstr
  obtain ⟨found, hfound⟩ := hl.get?_isSome hid
  rw [hfound, Option.getD_some] at hx
  rcases List.mem_append.mp hx with hx | hx
  · rw [references_packed] at hx
    obtain ⟨y, hy, rfl⟩ := List.mem_map.mp hx
    exact hname y (hclosed id hid found hfound y hy)
  · obtain ⟨y, -, hy, rfl⟩ := mem_targetedBy_packed.mp hx
    exact hname y hy

/-! ## The result -/

/-- A well-formed chain is packed if and only if what its linked instructions refer to is linked. The copy
is the chain renumbered in the order of the code, it is reciprocal if the chain is, and packing it again
changes nothing. -/
theorem compact_renumbers {chain : Chain} (h : chain.WellFormed) :
    ((∃ result, chain.compact = .ok result) ↔ ∀ id, chain.isLinked id = true
      → ∀ instr, chain.get? id = some instr → ∀ x ∈ instr.references, chain.isLinked x = true)
    ∧ ∀ packed names, chain.compact = .ok (packed, names) →
      chain.Repacked packed names ∧ (chain.Reciprocal → packed.Reciprocal)
      ∧ ∃ same, packed.compact = .ok (packed, same)
        ∧ ∀ id, same.get? id = if packed.contains id then some id else none := by
  have hl := h.spells
  constructor
  · simp only [hl.isLinked_iff]
    constructor
    · rintro ⟨result, hresult⟩
      exact (hl.threaded.compact_ok_iff.mp hresult).1
    · intro hclosed
      exact ⟨_, hl.threaded.compact_ok_iff.mpr ⟨hclosed, rfl, rfl⟩⟩
  · intro packed names hcompact
    obtain ⟨hclosed, rfl, rfl⟩ := hl.threaded.compact_ok_iff.mp hcompact
    refine ⟨repacked hl hclosed, reciprocal_packed hl, _, compact_ofList (inward_packedInstrs hl hclosed),
      fun id => ?_⟩
    rw [get?_packedNames_ofList, contains_eq_isSome_get?, get?_ofList]
    simp

/-- Five instructions, of which the fifth and the second jump to the fourth; then the second is detached
and the third is freed. -/
def thinned : List ChainCall :=
  let plain := Instruction.decoded 0 [0x90] 1 .nop
  [.push plain, .push plain, .push plain, .push plain, .push plain, .linkTarget ⟨4⟩ ⟨3⟩,
    .linkTarget ⟨1⟩ ⟨3⟩, .unlink ⟨1⟩, .free ⟨2⟩]

theorem compact_renumbers_thinned : ∃ packed names,
    (Chain.empty.reached thinned).WellFormed
      ∧ (Chain.empty.reached thinned).compact = .ok (packed, names)
      ∧ (Chain.empty.reached thinned).Repacked packed names
      ∧ [0, 1, 2, 3, 4].map (fun index => names.get? ⟨index⟩) = [some ⟨0⟩, none, none, some ⟨1⟩, some ⟨2⟩]
      ∧ ((Chain.empty.reached thinned).get? ⟨3⟩).map (·.targetedBy) = some [⟨4⟩, ⟨1⟩]
      ∧ (packed.get? ⟨1⟩).map (·.targetedBy) = some [⟨2⟩] ∧ packed.ids = [⟨0⟩, ⟨1⟩, ⟨2⟩] := by
  have hadmitted : Chain.empty.Admits thinned := by decide +kernel
  have hwell : (Chain.empty.reached thinned).WellFormed :=
    (sound_empty.reached hadmitted).1.spells.wellFormed
  let result := (Chain.empty.reached thinned).compact.toOption.getD (Chain.empty, ⟨[]⟩)
  have hcompact : (Chain.empty.reached thinned).compact = .ok result := by decide +kernel
  exact ⟨result.1, result.2, hwell, hcompact, ((compact_renumbers hwell).2 _ _ hcompact).1,
    by decide +kernel, by decide +kernel, by decide +kernel, by decide +kernel⟩

end Chain

end Splice
