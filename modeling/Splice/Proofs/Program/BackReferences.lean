import Splice.Proofs.Chain.Answering
import Splice.Proofs.Program.History
import Splice.Proofs.Symbol.Noting

/-!
# Edits and back references

The check of references passes if jumpers and targets list each other (`Listed`, `Answered`)
and every record that an instruction lists is tied to it (`Noted`). Insertions, substitutions
and updates keep all three. A removal keeps the first two, and the third unless a
relocation goes with the instruction that some other instruction lists for what it refers to:
`Releases` says when no such relocation exists, and `verifyReferences_of_step` that this is
exactly when the check passes afterwards.

What a removal can break is in the symbols alone: a relocation that patches the instruction goes
with it, and the record may still be listed by a third instruction, the one the relocation
referred to. Nothing strikes it off there. The condition is exact, so the statement also says
when the check fails.
-/

namespace Splice

/-! ## The check -/

section

variable {program : Program} {l : List InstrId}

theorem Symbol.patches_iff {record : Symbol} {id : InstrId} :
    (record.reloc.bind (·.instr) == some id) = true ↔ record.Patches id := by
  rw [beq_iff_eq, Option.bind_eq_some_iff]
  exact Iff.rfl

/-- What the search for pointers compares is the definition of pointing. -/
theorem Symbol.pointsAt_iff {record : Symbol} {id : InstrId} :
    (record.instr == some id || record.reloc.any (·.target == some id)) = true
      ↔ record.PointsAt id := by
  rw [Bool.or_eq_true, beq_iff_eq, Option.any_eq_true]
  simp only [beq_iff_eq]
  exact Iff.rfl

theorem Program.verifyReference_ok {id : InstrId} {instr : Instruction} :
    verifyReference program id instr = .ok ()
      ↔ (∀ target ∈ instr.references, checkTarget program.chain id target = .ok ())
        ∧ (∀ jumper ∈ instr.targetedBy, ∃ source, program.chain.get? jumper = some source
          ∧ id ∈ source.references)
        ∧ (∀ symbol ∈ instr.relocs, ∃ record, program.symbols.get? symbol = some record
          ∧ record.Patches id)
        ∧ ∀ symbol ∈ instr.referencedBy, ∃ record, program.symbols.get? symbol = some record
          ∧ record.PointsAt id := by
  simp only [verifyReference, bind_eq_ok, forM_eq_ok, exists_and_left, exists_const, mapError_eq_ok, ensure_ok,
    Chain.get_ok, SymbolTable.get_ok, Instruction.refersTo_iff, Symbol.patches_iff, Symbol.pointsAt_iff]

/-- References are checked in both directions, and so are the lists of records. -/
theorem Program.verifyReferences_ok (hl : program.chain.Spells l)
    (hattached : program.chain.Attached l) :
    program.verifyReferences = .ok () ↔ program.chain.Listed l ∧ program.chain.Answered
      ∧ Noted program.chain.tie? program.symbols.get? := by
  have hmem : ∀ {id instr}, program.chain.get? id = some instr → id ∈ l := fun {id instr} hinstr =>
    hattached id (by rw [Chain.contains_eq_isSome_get?, hinstr]; rfl)
  have hchecks : program.verifyReferences = .ok ()
      ↔ ∀ {id instr}, program.chain.get? id = some instr → program.verifyReference id instr = .ok () := by
    rw [verifyReferences_iff, hl.ids_eq]
    exact ⟨fun h id instr hinstr => h id (hmem hinstr) instr hinstr, fun h id _ instr hinstr => h hinstr⟩
  rw [hchecks]
  constructor
  · intro h
    refine ⟨verifyReferences_listed hl (hchecks.mpr h), ?_, ?_, ?_⟩
    · intro id instr jumper hinstr hjumper
      exact (verifyReference_ok.mp (h hinstr)).2.1 jumper hjumper
    · intro id tie symbol hid hlisted
      obtain ⟨instr, hinstr, rfl⟩ := Chain.get?_of_tie? hid
      exact (verifyReference_ok.mp (h hinstr)).2.2.1 symbol hlisted
    · intro id tie symbol hid hlisted
      obtain ⟨instr, hinstr, rfl⟩ := Chain.get?_of_tie? hid
      exact (verifyReference_ok.mp (h hinstr)).2.2.2 symbol hlisted
  · intro h id instr hinstr
    obtain ⟨hlisted, hanswered, hnoted⟩ := h
    refine verifyReference_ok.mpr ⟨fun target htarget => ?_,
      fun jumper hjumper => hanswered id instr jumper hinstr hjumper,
      fun symbol hsymbol => hnoted.patches (Chain.tie?_eq hinstr) hsymbol,
      fun symbol hsymbol => hnoted.pointers (Chain.tie?_eq hinstr) hsymbol⟩
    obtain ⟨htargets, hfound⟩ := hlisted id (hmem hinstr) instr hinstr target htarget
    exact checkTarget_ok.mpr ⟨hl.isLinked_iff.mpr htargets, hfound⟩

end

/-! ## Jumpers -/

theorem Session.Retied.answered {s t : Session} (h : Session.Retied s t)
    (hs : s.program.chain.Answered) : t.program.chain.Answered :=
  hs.evolve h.chain (fun _ _ _ h => h.references) fun _ _ _ h => h.targetedBy

namespace EngineM

variable {s t : Session} {xs ys : List InstrId} {id anchor old new heir : InstrId}
  {given : Instruction} {shift : Shift} {u : Unit}

/-- Linking a new instruction puts it into the lists of what it refers to. -/
theorem linkInserted_answered (hs : s.program.chain.Answered)
    (h : linkInserted id given s = .ok u t) : t.program.chain.Answered := by
  obtain ⟨middle, chain, rfl, hmiddle, hchain⟩ := linkInserted_run h
  have hm : middle.Answered := by
    rcases hmiddle with ⟨-, rfl⟩ | ⟨target, -, hrun⟩
    · exact hs
    · exact ChainM.linkTarget_answered hs hrun
  rcases hchain with rfl | hrun
  · exact hm
  · exact ChainM.setJumpTable_answered hm hrun

/-- Placing instructions changes no links between jumpers and targets. -/
theorem placeInserted_answered {placed : List (InstrId × Instruction)} {addr : UInt64}
    (hs : s.program.chain.Answered) (h : placeInserted addr placed s = .ok u t) :
    t.program.chain.Answered := by
  induction placed generalizing s addr with
  | nil => exact (pure_ok.mp h).2 ▸ hs
  | cons head rest ih =>
    obtain ⟨id, given⟩ := head
    simp only [placeInserted, bind_ok, updateInstr_ok] at h
    obtain ⟨_, _, ⟨-, rfl⟩, _, m, hlink, hrest⟩ := h
    refine ih (linkInserted_answered ?_ hlink) hrest
    have hmoved : s.program.chain.Evolves (fun _ a b => b.references = a.references
        ∧ b.targetedBy = a.targetedBy)
        (s.program.chain.adjust (Chain.only id (.relocated addr))) := by
      refine .of_adjust fun x i _ => ?_
      unfold Chain.only
      split <;> exact ⟨rfl, rfl⟩
    exact hs.evolve hmoved (fun _ _ _ h => h.1) fun _ _ _ h => h.2

/-- An insertion in front leaves every reference answered: jumpers that are led on change both lists. -/
theorem spliceBefore_answered {retarget : Retarget}
    (hl : s.program.chain.Spells (xs ++ anchor :: ys)) (hs : s.program.chain.Answered)
    (h : spliceBefore anchor given retarget s = .ok (new, shift) t) : t.program.chain.Answered := by
  obtain ⟨found, block, c₁, s₂, s₄, entering, s₅, -, -, hinsert, hlink, hextend, henter, ht, -⟩ :=
    spliceBefore_run h
  have h₂ : s₂.program.chain.Answered :=
    linkInserted_answered (ChainM.insertBefore_answered hl hs rfl hinsert) hlink
  have hs₄ := (forBlock_regraphed (fun _ => extendBlockBefore_regraphed) hextend).sameCode
  have h₄ : s₄.program.chain.Answered := by
    rw [hs₄.chain, chain_withOwner]
    exact h₂
  obtain ⟨hchain, -⟩ := enteringJumpers_ok henter
  rw [ht]
  exact h₄.evolve hchain (fun _ _ _ h => h.references) fun _ _ _ h => h.targetedBy

/-- An insertion behind takes no jumper over, so only the new instruction's own links are added. -/
theorem appendAfter_answered (hl : s.program.chain.Spells (xs ++ anchor :: ys))
    (hs : s.program.chain.Answered) (h : appendAfter anchor given s = .ok (new, shift) t) :
    t.program.chain.Answered := by
  obtain ⟨found, block, c₁, s₂, s₄, -, -, hinsert, hlink, hextend, ht, -⟩ := appendAfter_run h
  have h₂ : s₂.program.chain.Answered :=
    linkInserted_answered (ChainM.insertAfter_answered hl hs rfl hinsert) hlink
  rw [ht, (updateBlock_regraphed hextend).sameCode.chain, chain_withOwner]
  exact h₂

/-- A substitution hands the jumpers to the first of the new instructions, with both lists changed. -/
theorem spliceInstead_answered {ids : List InstrId} {given : List Instruction}
    (hl : s.program.chain.Spells (xs ++ old :: ys)) (hs : s.program.chain.Answered)
    (h : spliceInstead old given s = .ok (ids, shift) t) : t.program.chain.Answered := by
  obtain ⟨found, block, freed, c₁, first, last, s₂, head, s₃, s₄, s₆, -, -, hreplace, -, -, hplace, -,
    hrepoint, hrehome, hblocks, ht, -⟩ := spliceInstead_run h
  have hby : ∀ instr ∈ given.map fun instr => stampedFor instr found.sec found.func 0,
      instr.targetedBy = [] := by
    intro instr hinstr
    obtain ⟨_, _, rfl⟩ := List.mem_map.mp hinstr
    rfl
  have h₁ : c₁.Answered := ChainM.replace_answered hl hs hby hreplace
  have h₂ : s₂.program.chain.Answered := placeInserted_answered h₁ hplace
  have h₄ : s₄.program.chain.Answered :=
    (rehomeRelocations_retied hrehome).answered ((repointSymbols_sameCode hrepoint).retied.answered h₂)
  rw [ht, (updateBlock_regraphed hblocks).sameCode.chain, chain_withOwner]
  exact h₄

/-- A removal hands the jumpers on and drops the instruction's own references. -/
theorem excise_answered {freed : Instruction} (hl : s.program.chain.Spells (xs ++ id :: ys))
    (hs : s.program.chain.Answered) (h : excise id s = .ok (freed, shift) t) :
    t.program.chain.Answered := by
  obtain ⟨node, block, heir, s₂, s₃, s₄, c, edited, -, -, hcheck, hheir, hpass, hblocks, hfree, rfl, -, -⟩ :=
    excise_run h
  have hne : id ≠ heir := fun he => hl.not_mem_rest (he ▸ heir?_mem hl hheir)
  have hs₂ := (checkRemovable_regraphed hcheck).sameCode
  have hs₄ := (forBlock_regraphed (fun _ => shrinkBlock_regraphed) hblocks).sameCode
  obtain ⟨c₁, m, _, hretarget, hmove, -, -, hchain, -⟩ := passOn_run hne hpass
  rw [hs₂.chain] at hretarget
  have hm : m.program.chain.Answered :=
    (moveReferences_retied hmove).answered (ChainM.retargetAll_answered hs hne hretarget)
  have hspells : m.program.chain.Spells (xs ++ id :: ys) :=
    (moveReferences_retied hmove).chain.spells ((ChainM.retargetAll_relinked hne hretarget).spells hl)
  have hdropped : m.program.chain.Evolves (fun _ a b => a.Retied b)
      (m.program.chain.adjust (Chain.only id fun instr => { instr with relocs := [] })) := by
    refine .of_adjust fun x i _ => ?_
    unfold Chain.only
    split
    · exact ⟨⟨rfl, rfl, rfl, rfl, rfl, rfl⟩, rfl, rfl, rfl⟩
    · exact .refl i
  rw [hs₄.chain, chain_withOwner, hchain] at hfree
  exact ChainM.free_answered (hdropped.spells hspells)
    (hm.evolve hdropped (fun _ _ _ h => h.references) fun _ _ _ h => h.targetedBy) hfree

/-- The code is the list `l`, and jumpers and targets list each other. -/
structure Mutual (program : Program) (l : List InstrId) : Prop where
  spells : program.chain.Spells l
  attached : program.chain.Attached l
  listed : program.chain.Listed l
  answered : program.chain.Answered

theorem Mutual.mem_of_get? {program : Program} {l : List InstrId} {instr : Instruction}
    (h : Mutual program l) (hget : program.chain.get? id = some instr) : id ∈ l :=
  h.attached id (by rw [Chain.contains_eq_isSome_get?, hget]; rfl)

/-- Both properties speak of links and order alone, which moving code leaves. -/
theorem Mutual.carry {l : List InstrId} (h : Mutual s.program l) (hcarries : Session.Carries s t) :
    Mutual t.program l where
  spells := hcarries.chain.spells h.spells
  attached := hcarries.chain.attached h.attached
  listed := h.listed.evolve hcarries.chain (fun _ _ _ h => h.references) fun _ _ _ h => h.targetedBy
  answered := h.answered.evolve hcarries.chain (fun _ _ _ h => h.references) fun _ _ _ h => h.targetedBy

theorem Mutual.spliced {site mid : List InstrId} {rename : InstrId → InstrId}
    (h : Mutual s.program (xs ++ site ++ ys)) (hsplice : Session.Spliced s t xs site ys mid rename)
    (hanswered : t.program.chain.Answered) : Mutual t.program (xs ++ mid ++ ys) :=
  ⟨hsplice.spells, hsplice.attached h.attached, hsplice.listed, hanswered⟩

/-- Whatever the edit, its splice leaves a list of linked instructions in which references are mutual. -/
theorem SpliceRun.mutual {edit : Edit} {m : Session} {l : List InstrId} (h : SpliceRun s edit shift m)
    (hs : Mutual s.program l) : ∃ l', Mutual m.program l' := by
  have hbefore : ∀ {anchor given retarget new}, spliceBefore anchor given retarget s = .ok (new, shift) m →
      ∃ l', Mutual m.program l' := by
    intro anchor given retarget new run
    obtain ⟨found, hfound⟩ := spliceBefore_present run
    obtain ⟨xs, ys, rfl⟩ := List.append_of_mem (hs.mem_of_get? hfound)
    obtain ⟨_, -, hplaced, -⟩ := spliceBefore_ok hs.spells hs.attached hs.listed run
    exact ⟨_, Mutual.spliced (by simpa using hs) hplaced.toSpliced (spliceBefore_answered hs.spells hs.answered run)⟩
  -- every splice comes to the same: what is left in front and behind, and the lists are answered
  cases h with
  | before run => exact hbefore run
  | after run => exact hbefore run
  | behind run =>
    obtain ⟨found, hfound⟩ := appendAfter_present run
    obtain ⟨xs, ys, rfl⟩ := List.append_of_mem (hs.mem_of_get? hfound)
    obtain ⟨_, -, hplaced, -⟩ := appendAfter_ok hs.spells hs.attached hs.listed run
    exact ⟨_, Mutual.spliced (by simpa using hs) hplaced.toSpliced (appendAfter_answered hs.spells hs.answered run)⟩
  | instead run =>
    obtain ⟨found, hfound⟩ := spliceInstead_present run
    obtain ⟨xs, ys, rfl⟩ := List.append_of_mem (hs.mem_of_get? hfound)
    obtain ⟨_, _, _, -, -, -, hsplice, -⟩ := spliceInstead_ok hs.spells hs.attached hs.listed run
    exact ⟨_, Mutual.spliced (by simpa using hs) hsplice (spliceInstead_answered hs.spells hs.answered run)⟩
  | out run =>
    obtain ⟨heir, hheir⟩ := excise_heir run
    obtain ⟨xs, ys, rfl⟩ := List.append_of_mem (heir?_linked hs.spells hheir)
    obtain ⟨_, _, -, -, hsplice, -⟩ := excise_ok hs.spells hs.listed run
    exact ⟨_, Mutual.spliced (by simpa using hs) hsplice (excise_answered hs.spells hs.answered run)⟩
  | resized run =>
    obtain ⟨_, -, rfl, rfl⟩ := shiftBehind_ok run
    refine ⟨l, hs.carry (Session.carries_withChain fun x i => ?_)⟩
    unfold Chain.only
    split <;> exact ⟨rfl, rfl, rfl, rfl, rfl, rfl, rfl, rfl⟩

end EngineM

/-! ## Records -/

theorem Session.Untouched.noted {s t : Session} (h : Session.Untouched s t) :
    Noted t.program.chain.tie? t.program.symbols.get?
      ↔ Noted s.program.chain.tie? s.program.symbols.get? := by
  rw [h.chain.tie?, h.symbols]

/-- Ties between symbols and instructions are read alike in sessions that differ by addresses and
displacements. -/
theorem Session.Follows.noted_iff {s t : Session} (h : Session.Follows s t) :
    Noted t.program.chain.tie? t.program.symbols.get?
      ↔ Noted s.program.chain.tie? s.program.symbols.get? := by
  constructor
  · intro ht
    refine ht.congr (fun {id tie} hid => ?_) fun {symbol record'} hrecord' => ?_
    · obtain ⟨instr, hinstr, rfl⟩ := Chain.get?_of_tie? hid
      obtain ⟨instr', hinstr', hrelocs, hpointers⟩ := h.chain.get? hinstr
      exact ⟨instr'.tie, Chain.tie?_eq hinstr', hrelocs.symm, hpointers.symm⟩
    · rw [h.records, Option.map_eq_some_iff] at hrecord'
      obtain ⟨record, hrecord, rfl⟩ := hrecord'
      exact ⟨record, hrecord, fun _ => Symbol.patches_drifted.mp, fun _ => Symbol.pointsAt_drifted.mp⟩
  · intro hs
    refine hs.congr (fun {id tie'} hid => ?_) fun {symbol record} hrecord => ?_
    · obtain ⟨instr', hinstr', rfl⟩ := Chain.get?_of_tie? hid
      obtain ⟨instr, hinstr, hties⟩ := h.chain.get?_of hinstr'
      exact ⟨instr.tie, Chain.tie?_eq hinstr, hties⟩
    · exact ⟨_, by rw [h.records, hrecord]; rfl, fun _ => Symbol.patches_drifted.mpr,
        fun _ => Symbol.pointsAt_drifted.mpr⟩

namespace EngineM

variable {s t : Session} {xs ys : List InstrId} {id anchor old new source dest : InstrId}
  {given : Instruction} {shift : Shift} {u : Unit}

/-- Handing jumpers on keeps each relocation noted where it refers to. -/
theorem moveReferences_noted (hs : Noted s.program.chain.tie? s.program.symbols.get?)
    (hne : source ≠ dest) (h : moveReferences source dest s = .ok u t) :
    Noted t.program.chain.tie? t.program.symbols.get? := by
  obtain ⟨a, b, table, hsource, hdest, rfl, htold⟩ := moveReferences_run hne h
  show Noted (s.program.chain.adjust (ChainM.takingOver source dest a.referencedBy)).tie? table.get?
  rw [tie?_takingOver hne hsource hdest]
  exact hs.pass hne (Chain.tie?_eq hsource) (Chain.tie?_eq hdest) htold.get?

/-- Choosing which jumpers enter keeps the relocations noted, whichever way they are retargeted. -/
theorem enteringJumpers_noted {retarget : Retarget} {entering : List InstrId}
    (hs : Noted s.program.chain.tie? s.program.symbols.get?) (hne : anchor ≠ new)
    (h : enteringJumpers anchor new retarget s = .ok entering t) :
    Noted t.program.chain.tie? t.program.symbols.get? := by
  rcases enteringJumpers_run h with ⟨-, rfl⟩ | ⟨-, -, redirects, -, hmove⟩
  · exact hs
  · have hm : Noted (Session.mk { s.program with redirects := redirects } s.recorder).program.chain.tie?
        s.program.symbols.get? := hs
    exact moveReferences_noted hm hne hmove

/-- An insertion in front keeps the relocations noted: at most the anchor's are handed on. -/
theorem spliceBefore_noted {retarget : Retarget} (hl : s.program.chain.Spells (xs ++ anchor :: ys))
    (hs : Noted s.program.chain.tie? s.program.symbols.get?)
    (h : spliceBefore anchor given retarget s = .ok (new, shift) t) :
    Noted t.program.chain.tie? t.program.symbols.get? := by
  obtain ⟨found, block, c₁, s₂, s₄, entering, s₅, -, -, hinsert, hlink, hextend, henter, ht, -⟩ :=
    spliceBefore_run h
  have hins := ChainM.insertBefore_inserted hl hinsert
  have hne : anchor ≠ new := fun he => hl.fresh (hins.name ▸ he ▸ mem_site_iff.mpr (.inl rfl))
  have h₁ : Noted c₁.tie? s.program.symbols.get? := hs.extend (hins.extends_ties rfl rfl)
  have h₁₄ := (linkInserted_untouched hlink).trans (withOwner_untouched.trans
    (forBlock_regraphed (fun _ => extendBlockBefore_regraphed) hextend).untouched)
  rw [ht]
  exact enteringJumpers_noted (h₁₄.noted.mpr h₁) hne henter

/-- An insertion behind keeps the relocations noted. -/
theorem appendAfter_noted (hl : s.program.chain.Spells (xs ++ anchor :: ys))
    (hs : Noted s.program.chain.tie? s.program.symbols.get?)
    (h : appendAfter anchor given s = .ok (new, shift) t) :
    Noted t.program.chain.tie? t.program.symbols.get? := by
  obtain ⟨found, block, c₁, s₂, s₄, -, -, hinsert, hlink, hextend, ht, -⟩ := appendAfter_run h
  have hins := ChainM.insertAfter_inserted hl hinsert
  have h₁ : Noted c₁.tie? s.program.symbols.get? := hs.extend (hins.extends_ties rfl rfl)
  have h₁₄ := (linkInserted_untouched hlink).trans
    (withOwner_untouched.trans (updateBlock_regraphed hextend).untouched)
  rw [ht]
  exact h₁₄.noted.mpr h₁

theorem spliceInstead_noted {ids : List InstrId} {given : List Instruction}
    (hl : s.program.chain.Spells (xs ++ old :: ys))
    (hs : Noted s.program.chain.tie? s.program.symbols.get?)
    (h : spliceInstead old given s = .ok (ids, shift) t) :
    Noted t.program.chain.tie? t.program.symbols.get? := by
  obtain ⟨found, first, pointed, hfound, -, hext, hpointed, hrecords, -⟩ := spliceInstead_ties hl h
  exact (hs.takeOver (Chain.tie?_eq hfound) hpointed.get? hrecords.get?).extend hext

end EngineM

/-- Every record whose relocation goes with `id` points, as a symbol, at each instruction that lists it,
once what pointed at `id` has passed to its heir. -/
def Program.Releases (program : Program) (id heir : InstrId) : Prop :=
  ∀ found, program.chain.get? id = some found → ∀ symbol ∈ found.relocs,
    ∀ record, program.symbols.get? symbol = some record →
    ∀ x instr, program.chain.get? x = some instr → symbol ∈ instr.referencedBy →
      record.instr.map (swap id heir) = some (swap id heir x)
        ∧ (record.instr = some id → symbol ∈ found.referencedBy)

namespace EngineM

variable {s t m : Session} {l xs ys : List InstrId} {id heir : InstrId} {shift : Shift} {edit : Edit}
  {u : Unit}

/-- A removal drops the relocations that patch the instruction, after what points at it has passed to its
heir. -/
theorem excise_noted_iff {freed : Instruction} (hl : s.program.chain.Spells (xs ++ id :: ys))
    (hs : Noted s.program.chain.tie? s.program.symbols.get?)
    (hheir : heir? s.program.chain id = some heir) (h : excise id s = .ok (freed, shift) t) :
    Noted t.program.chain.tie? t.program.symbols.get? ↔ s.program.Releases id heir := by
  obtain ⟨node, block, heir', s₂, s₃, s₄, c, edited, hnode, -, hcheck, hheir', hpass, hblocks, hfree, rfl,
    -, -⟩ := excise_run h
  obtain rfl := Option.some.inj (hheir.symm.trans hheir')
  have hne : id ≠ heir := fun he => hl.not_mem_rest (he ▸ heir?_mem hl hheir)
  have hs₂ := (checkRemovable_regraphed hcheck).untouched
  obtain ⟨c₁, m, found, hretarget, hmove, hfound, hpointers, hchain, hrecords⟩ := passOn_run hne hpass
  have hm₀ : Session.Untouched s (s₂.withChain c₁) := hs₂.trans
    ⟨(ChainM.retargetAll_relinked hne hretarget).mono fun _ _ _ h => h.tie, rfl⟩
  have hm := moveReferences_noted (hm₀.noted.mpr hs) hne hmove
  obtain ⟨a, b, table', hsource, hdest, rfl, hpointed⟩ := moveReferences_run hne hmove
  -- what the removed instruction lists is as it was, until it is passed on
  have hida : s.program.chain.tie? id = some a.tie := by
    rw [← hm₀.chain.tie?]
    exact Chain.tie?_eq hsource
  have hidb : s.program.chain.tie? heir = some b.tie := by
    rw [← hm₀.chain.tie?]
    exact Chain.tie?_eq hdest
  have hties : (c₁.adjust (ChainM.takingOver id heir a.referencedBy)).tie?
      = Ties.passed s.program.chain.tie? id heir a.tie b.tie := by
    rw [← hm₀.chain.tie?]
    exact tie?_takingOver hne hsource hdest
  replace hfound : (c₁.adjust (ChainM.takingOver id heir a.referencedBy)).get? id = some found := hfound
  have hrelocs : found.relocs = a.relocs := by
    have htie := Chain.tie?_eq hfound
    rw [hties, Ties.passed_apply hne, if_pos rfl] at htie
    exact (congrArg Tie.relocs (Option.some.inj htie)).symm
  have hs₃ : s₃.program.chain.tie? = Ties.put (c₁.adjust (ChainM.takingOver id heir a.referencedBy)).tie?
      id { found.tie with relocs := [] } := by
    rw [hchain]
    exact Chain.tie?_only hfound
  have hs₄ := withOwner_untouched.trans
    (forBlock_regraphed (fun _ => shrinkBlock_regraphed) hblocks).untouched
  have hspells₄ : s₄.program.chain.Spells (xs ++ id :: ys) := by
    refine hs₄.chain.spells ?_
    rw [hchain]
    exact ((hm₀.chain.spells hl).adjust _).adjust _
  have hid₄ : s₄.program.chain.tie? id = some { found.tie with relocs := [] } := by
    rw [hs₄.chain.tie?, hs₃, Ties.put, if_pos rfl]
  have hfreed : Noted c.tie? s₄.program.symbols.get?
      ↔ Noted s₄.program.chain.tie? s₄.program.symbols.get? := by
    rw [ChainM.free_ties hspells₄ hfree]
    exact ⟨fun h => h.of_without hid₄ rfl hpointers, fun h => h.without⟩
  refine hfreed.trans (hs₄.noted.trans ?_)
  rw [hs₃]
  refine (hm.release_iff (Chain.tie?_eq hfound) hrecords.get?).trans ?_
  have hpoint := fun symbol => Noted.pointing_passed_iff hne hida hidb (hpointed.get? symbol)
  have hsymbols₀ : (s₂.withChain c₁).program.symbols = s.program.symbols := hm₀.symbols
  show (∀ symbol ∈ found.relocs, ∀ record', table'.get? symbol = some record' → ∀ x tie',
    (c₁.adjust (ChainM.takingOver id heir a.referencedBy)).tie? x = some tie' → _) ↔ _
  rw [hties, hrelocs]
  rw [hsymbols₀] at hpoint
  constructor
  · intro h instr hinstr symbol hsymbol record hrecord x listing hx hlisted
    have hsame := Option.some.inj (hida.symm.trans (Chain.tie?_eq hinstr))
    have hpatches : a.relocs = instr.relocs := congrArg Tie.relocs hsame
    have hpointing : a.referencedBy = instr.referencedBy := congrArg Tie.referencedBy hsame
    rw [← hpatches] at hsymbol
    rw [← hpointing]
    exact (hpoint symbol).mp (h symbol hsymbol) record hrecord x listing.tie (Chain.tie?_eq hx) hlisted
  · intro h symbol hsymbol
    refine (hpoint symbol).mpr fun record hrecord x tie hx hlisted => ?_
    obtain ⟨instr, hinstr, hsame⟩ := Chain.get?_of_tie? hida
    obtain ⟨listing, hlisting, rfl⟩ := Chain.get?_of_tie? hx
    have hpatches : instr.relocs = a.relocs := congrArg Tie.relocs hsame
    have hpointing : instr.referencedBy = a.referencedBy := congrArg Tie.referencedBy hsame
    rw [← hpatches] at hsymbol
    have hboth := h instr hinstr symbol hsymbol record hrecord x listing hlisting hlisted
    rw [hpointing] at hboth
    exact hboth

/-- Unlike the other splices a removal may leave lists of records wrong. -/
theorem SpliceRun.noted_iff (h : SpliceRun s edit shift m) (hl : s.program.chain.Spells l)
    (hattached : s.program.chain.Attached l) (hs : Noted s.program.chain.tie? s.program.symbols.get?) :
    Noted m.program.chain.tie? m.program.symbols.get?
      ↔ ∀ id heir, edit = .remove id → heir? s.program.chain id = some heir →
        s.program.Releases id heir := by
  have hplace : ∀ {id instr}, s.program.chain.get? id = some instr → ∃ xs ys, l = xs ++ id :: ys := by
    intro id instr hinstr
    exact List.append_of_mem (hattached id (by rw [Chain.contains_eq_isSome_get?, hinstr]; rfl))
  -- only a removal hands over what an instruction lists to one that was there before
  cases h with
  | before run =>
    obtain ⟨found, hfound⟩ := spliceBefore_present run
    obtain ⟨xs, ys, rfl⟩ := hplace hfound
    exact iff_of_true (spliceBefore_noted hl hs run) fun _ _ hedit => nomatch hedit
  | after run =>
    obtain ⟨found, hfound⟩ := spliceBefore_present run
    obtain ⟨xs, ys, rfl⟩ := hplace hfound
    exact iff_of_true (spliceBefore_noted hl hs run) fun _ _ hedit => nomatch hedit
  | behind run =>
    obtain ⟨found, hfound⟩ := appendAfter_present run
    obtain ⟨xs, ys, rfl⟩ := hplace hfound
    exact iff_of_true (appendAfter_noted hl hs run) fun _ _ hedit => nomatch hedit
  | instead run =>
    obtain ⟨found, hfound⟩ := spliceInstead_present run
    obtain ⟨xs, ys, rfl⟩ := hplace hfound
    exact iff_of_true (spliceInstead_noted hl hs run) fun _ _ hedit => nomatch hedit
  | out run =>
    obtain ⟨heir, hheir⟩ := excise_heir run
    obtain ⟨xs, ys, rfl⟩ := List.append_of_mem (heir?_linked hl hheir)
    rw [excise_noted_iff hl hs hheir run]
    constructor
    · intro h id' heir' hedit hheir'
      cases hedit
      exact Option.some.inj (hheir.symm.trans hheir') ▸ h
    · exact fun h => h _ heir rfl hheir
  | resized run =>
    rename_i id bytes opcodeSize delta
    obtain ⟨_, -, rfl, rfl⟩ := shiftBehind_ok run
    refine iff_of_true ?_ fun _ _ hedit => nomatch hedit
    have hsame : Session.Untouched s (s.withChain (s.program.chain.adjust (Chain.only id fun instr =>
        { instr with bytes := bytes, opcodeSize := opcodeSize }))) := by
      refine ⟨.of_adjust fun x i _ => ?_, rfl⟩
      unfold Chain.only
      split <;> rfl
    exact hsame.noted.mpr hs

end EngineM

/-- Insertions, substitutions and updates leave all references in order. A removal does so exactly if
no relocation that goes with the instruction is what ties its record to another one. -/
theorem verifyReferences_of_step {s : Session} (hs : s.program.verify = .ok ())
    (hattached : s.program.chain.Attached s.program.chain.ids) :
    (∀ summary t, EngineM.finalize s = .ok summary t → t.program.verifyReferences = .ok ())
      ∧ ∀ edit t, Edit.run edit s = .ok () t → (t.program.verifyReferences = .ok ()
        ↔ ∀ id heir, edit = .remove id → EngineM.heir? s.program.chain id = some heir →
          s.program.Releases id heir) := by
  obtain ⟨hchain, -, -, hreferences, -⟩ := Program.verify_parts hs
  have hspells := (Program.verifyChain_wellFormed hchain hattached).spells
  obtain ⟨hlisted, hanswered, hnoted⟩ := (Program.verifyReferences_ok hspells hattached).mp hreferences
  have hmutual : EngineM.Mutual s.program s.program.chain.ids :=
    ⟨hspells, hattached, hlisted, hanswered⟩
  constructor
  · intro summary t h
    have hmutual' := hmutual.carry (Session.Carries.updateRelation.finalize h)
    exact (Program.verifyReferences_ok hmutual'.spells hmutual'.attached).mpr
      ⟨hmutual'.listed, hmutual'.answered, (Session.Follows.updateRelation.finalize h).noted_iff.mpr hnoted⟩
  · intro edit t h
    obtain ⟨shift, m, summary, hsplice, hsettle⟩ := EngineM.edit_ok h
    obtain ⟨l, hmutual'⟩ := hsplice.mutual hmutual
    have hmutual'' := hmutual'.carry (Session.Carries.updateRelation.settle hsettle)
    rw [Program.verifyReferences_ok hmutual''.spells hmutual''.attached,
      ← hsplice.noted_iff hspells hattached hnoted]
    have hfollows := Session.Follows.updateRelation.settle hsettle
    exact ⟨fun h => hfollows.noted_iff.mp h.2.2,
      fun h => ⟨hmutual''.listed, hmutual''.answered, hfollows.noted_iff.mpr h⟩⟩

/-- A removal is safe if the relocations that go with it refer to no instruction. -/
theorem Program.releases_of_unreferring {program : Program} {id heir : InstrId}
    (hnoted : Noted program.chain.tie? program.symbols.get?)
    (h : ∀ found, program.chain.get? id = some found → ∀ symbol ∈ found.relocs,
      ∀ record reloc, program.symbols.get? symbol = some record → record.reloc = some reloc →
        reloc.target = none) : program.Releases id heir := by
  intro found hfound symbol hsymbol record hrecord x instr hx hlisted
  obtain ⟨record', hrecord', hpoints⟩ := hnoted.pointers (Chain.tie?_eq hx) hlisted
  obtain rfl := Option.some.inj (hrecord.symm.trans hrecord')
  rcases hpoints with hinstr | ⟨reloc, hreloc, htarget⟩
  · refine ⟨by rw [hinstr, Option.map_some], fun hid => ?_⟩
    obtain rfl := Option.some.inj (hinstr.symm.trans hid)
    obtain rfl := Option.some.inj (hfound.symm.trans hx)
    exact hlisted
  · rw [h found hfound symbol hsymbol record reloc hrecord hreloc] at htarget
    cases htarget

/-- The object `pinned` when its displacements are written: the call at its start is patched by a
relocation that refers to the last instruction. -/
def moored : Session :=
  outcome (discard EngineM.finalize)
    ((Session.load pinned ⟨8, true, true, true⟩).toOption.getD default)

/-- Every link of the object leads to a linked instruction. -/
theorem moored_attached : moored.program.chain.Attached moored.program.chain.ids := by
  have hsize : moored.program.chain.slots.size = 3 := by decide +kernel
  intro id hid
  obtain ⟨node, hnode⟩ := Option.isSome_iff_exists.mp hid
  have hlt := hsize ▸ Chain.index_lt_of_node? hnode
  obtain ⟨index⟩ := id
  match index, hlt with
  | 0, _ | 1, _ | 2, _ => decide +kernel

/-- A removal next to a relocated call, where the heir takes over and all references stay answered. -/
theorem verifyReferences_of_step_moored : ∃ t,
    moored.program.verify = .ok () ∧ moored.program.chain.Attached moored.program.chain.ids
      ∧ (Edit.remove ⟨1⟩).run moored = .ok () t ∧ moored.program.Releases ⟨1⟩ ⟨2⟩
      ∧ t.program.verifyReferences = .ok () := by
  have hverify : moored.program.verify = .ok () := isOk_iff.mp (by decide +kernel)
  obtain ⟨_, h⟩ := Succeeds.ok (show Succeeds (Edit.remove ⟨1⟩).run moored = true by decide +kernel)
  obtain ⟨hchain, -, -, hreferences, -⟩ := Program.verify_parts hverify
  have hspells := (Program.verifyChain_wellFormed hchain moored_attached).spells
  have hnoted := ((Program.verifyReferences_ok hspells moored_attached).mp hreferences).2.2
  have hpatched : (moored.program.chain.get? ⟨1⟩).map (·.relocs) = some [] := by decide +kernel
  have hreleases : moored.program.Releases ⟨1⟩ ⟨2⟩ := by
    refine Program.releases_of_unreferring hnoted fun found hfound symbol hsymbol => ?_
    rw [hfound, Option.map_some, Option.some.injEq] at hpatched
    rw [hpatched] at hsymbol
    cases hsymbol
  have hheir : EngineM.heir? moored.program.chain ⟨1⟩ = some ⟨2⟩ := by decide +kernel
  have hiff := (verifyReferences_of_step hverify moored_attached).2 (.remove ⟨1⟩) _ h
  refine ⟨_, hverify, moored_attached, h, hreleases, hiff.mpr fun id heir hedit hheir' => ?_⟩
  cases hedit
  exact Option.some.inj (hheir.symm.trans hheir') ▸ hreleases

/-- With the call goes the relocation that refers to the last instruction, which lists its record still. -/
theorem removal_leaves_stray_symbol : ∃ t,
    moored.program.verify = .ok () ∧ moored.program.chain.Attached moored.program.chain.ids
      ∧ (Edit.remove ⟨0⟩).run moored = .ok () t ∧ t.program.verifyReferences ≠ .ok () := by
  obtain ⟨_, h⟩ := Succeeds.ok (show Succeeds (Edit.remove ⟨0⟩).run moored = true by decide +kernel)
  refine ⟨_, isOk_iff.mp (by decide +kernel), moored_attached, h, fun hok => ?_⟩
  have hbad : (outcome (Edit.remove ⟨0⟩).run moored).program.verifyReferences.isOk = false := by
    decide +kernel
  rw [isOk_iff.mpr hok] at hbad
  cases hbad

end Splice
