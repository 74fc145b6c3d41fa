import Splice.Proofs.Program.History
import Splice.Proofs.Symbol.Unanimity

/-!
# Duplicates stay with their symbol

The records of a symbol say the same of it as long as its instruction lists all of them. An edit
then takes them along together: what it makes of a record that an instruction lists, it would
make of the others as well, and those that are not listed point elsewhere (`SpliceRun.inStep`).
Updates take along what is listed (`Follows.inStep`).

A claim breaks this in one case. The duplicate that it hands out has no relocation yet and is
listed nowhere, but it points where its symbol points (`claim_copies`). Where that is at an
instruction, the duplicate is left behind as soon as this moves (`duplicate_left_behind`). In all
other states that are reached, duplicates agree with their symbols and every record is listed
where it points (`duplicates_agree`).

The requests for further records are made in between edits and updates (`Request`). One that
copies a record which points at an instruction is left out (`sparing`): the copy would go on
naming an instruction that does not list it, and would stay behind when that one moves.
-/

namespace Splice

/-- What a record says of its symbol when it points at `dest` instead of `source`, from which that is
`delta` bytes away. -/
def Symbol.Profile.pointedTo (source dest : InstrId) (delta : Int64) (said : Symbol.Profile) :
    Symbol.Profile :=
  { said with
    value := if said.instr = some source then said.value + delta.toUInt64 else said.value
    instr := if said.instr = some source then some dest else said.instr }

theorem Symbol.Profile.pointedTo_of_ne {source dest : InstrId} {delta : Int64} {said : Symbol.Profile}
    (h : said.instr ≠ some source) : said.pointedTo source dest delta = said := by
  rw [pointedTo, if_neg h, if_neg h]

/-! ## Edits and updates -/

section

variable {s t : Session} {l xs ys : List InstrId} {gaps : SymbolId → Option UInt64}
  {id anchor old new source dest : InstrId} {given : Instruction} {shift : Shift} {edit : Edit} {u : Unit}

/-- Records that say the same point at the same instruction, which takes each of them along once. -/
theorem Session.Follows.inStep (hs : s.program.Tracked l gaps) (h : Session.Follows s t) :
    s.program.symbols.InStep t.program.symbols := by
  refine .of_profile (g := fun said => { said with value := said.value + (said.instr.map fun id =>
      t.program.chain.addrOf id - s.program.chain.addrOf id).getD 0 }) h.runs h.records (fun _ _ => rfl)
    fun {symbol record} hrecord => ?_
  have hdrift : (record.instr.map (Session.pointedDrift s t symbol)).getD 0 = (record.instr.map fun id =>
      t.program.chain.addrOf id - s.program.chain.addrOf id).getD 0 := by
    cases hinstr : record.instr with
    | none => rfl
    | some id =>
      obtain ⟨tie, htie, hlisted, -⟩ := (hs.tied.record hrecord).pointed hinstr
      obtain ⟨instr, hid, rfl⟩ := Chain.get?_of_tie? htie
      have honce : instr.referencedBy.count symbol = 1 :=
        List.count_eq_one_of_mem (hs.tied.pointers.nodup htie) hlisted
      rw [Option.map_some, Option.map_some, Option.getD_some, Option.getD_some, Session.pointedDrift,
        Chain.pointers, hid, Option.map_some, Option.getD_some, honce]
      exact UInt64.one_mul _
  rw [Symbol.profile, Symbol.drifted, hdrift]
  rfl

/-- Records that the source does not list point elsewhere. -/
theorem SymbolTable.Told.pointed_inStep {after : SymbolTable} {found : Instruction} {delta : Int64}
    (hs : s.program.Tracked l gaps) (hfound : s.program.chain.get? source = some found)
    (h : s.program.symbols.Told after found.referencedBy (·.pointedTo source dest delta)) :
    s.program.symbols.InStep after := by
  refine h.inStep (g := Symbol.Profile.pointedTo source dest delta) (fun _ => rfl) (fun _ => rfl)
    fun {symbol record} hrecord hnot => ?_
  exact Symbol.Profile.pointedTo_of_ne ((hs.tied.record hrecord).unlisted (Chain.tie?_eq hfound) hnot).1

namespace EngineM

theorem moveReferences_inStep (hs : s.program.Tracked l gaps) (hne : source ≠ dest)
    (h : moveReferences source dest s = .ok u t) : s.program.symbols.InStep t.program.symbols := by
  obtain ⟨a, b, table, hsource, -, rfl, htold⟩ := moveReferences_run hne h
  exact htold.pointed_inStep hs hsource

/-- An insertion in front does to all records of a symbol the same. -/
theorem spliceBefore_inStep {retarget : Retarget} (hs : s.program.Tracked l gaps)
    (h : spliceBefore anchor given retarget s = .ok (new, shift) t) :
    s.program.symbols.InStep t.program.symbols := by
  obtain ⟨m, l', entering, t', hm, hsymbols, hne, henter, ht⟩ := spliceBefore_entered hs h
  rw [ht, ← hsymbols]
  rcases enteringJumpers_run henter with ⟨-, rfl⟩ | ⟨-, -, redirects, -, hmove⟩
  · exact .refl _
  · exact moveReferences_inStep (s := { m with program.redirects := redirects })
      ⟨hm.spells, hm.attached, hm.tied⟩ hne hmove

/-- Nothing points at an instruction that comes behind the last one of its kind. -/
theorem appendAfter_symbols (h : appendAfter anchor given s = .ok (new, shift) t) :
    t.program.symbols = s.program.symbols := by
  obtain ⟨node, block, c₁, s₂, s₄, -, -, -, hlink, hextend, ht, -⟩ := appendAfter_run h
  have hextended := withOwner_untouched.trans (updateBlock_regraphed hextend).untouched
  rw [ht]
  exact hextended.symbols.trans (linkInserted_untouched hlink).symbols

/-- A substitution does to all records of a symbol the same. -/
theorem spliceInstead_inStep {ids : List InstrId} {instrs : List Instruction}
    (hs : s.program.Tracked l gaps) (h : spliceInstead old instrs s = .ok (ids, shift) t) :
    s.program.symbols.InStep t.program.symbols := by
  obtain ⟨found, hfound⟩ := spliceInstead_present h
  obtain ⟨xs, ys, rfl⟩ := List.append_of_mem (hs.mem_of_get? hfound)
  obtain ⟨found', first, pointed, hfound', -, -, hpointed, hrehomed, -⟩ := spliceInstead_ties hs.spells h
  exact (hpointed.pointed_inStep hs hfound').trans (hrehomed.inStep_same (fun _ => rfl) fun _ => rfl)

/-- Passing on what points at an instruction does to all records of a symbol the same. -/
theorem passOn_inStep {heir : InstrId} (hs : s.program.Tracked l gaps) (hne : id ≠ heir)
    (h : passOn id heir s = .ok u t) : s.program.symbols.InStep t.program.symbols := by
  obtain ⟨c, m, found, hretarget, hmove, -, -, -, hreleased⟩ := passOn_run hne h
  have hs' : (s.withChain c).program.Tracked l gaps := hs.untouched
    ⟨(ChainM.retargetAll_relinked hne hretarget).mono fun _ _ _ h => h.tie, rfl⟩
  exact (moveReferences_inStep hs' hne hmove).trans (hreleased.inStep_same (fun _ => rfl) fun _ => rfl)

/-- A removal does to all records of a symbol the same. -/
theorem excise_inStep {freed : Instruction} (hs : s.program.Tracked l gaps)
    (h : excise id s = .ok (freed, shift) t) : s.program.symbols.InStep t.program.symbols := by
  obtain ⟨node, block, heir, s₂, s₃, s₄, c, edited, hnode, -, hcheck, hheir, hpass, hblocks, -, rfl,
    -, -⟩ := excise_run h
  have hfound : s.program.chain.get? id = some node.instr := by rw [Chain.get?, hnode]; rfl
  obtain ⟨xs, ys, rfl⟩ := List.append_of_mem (hs.mem_of_get? hfound)
  have hne : id ≠ heir := fun he => hs.spells.not_mem_rest (he ▸ heir?_mem hs.spells hheir)
  have hchecked := (checkRemovable_regraphed hcheck).untouched
  have hpassed := passOn_inStep (hs.untouched hchecked) hne hpass
  have hshrunk := withOwner_untouched.trans
    (forBlock_regraphed (fun _ => shrinkBlock_regraphed) hblocks).untouched
  rw [hchecked.symbols] at hpassed
  exact hshrunk.symbols ▸ hpassed

/-- Whatever the edit, its splice does to all records of a symbol the same, since instructions list
symbols and not records. -/
theorem SpliceRun.inStep (h : SpliceRun s edit shift t) (hs : s.program.Tracked l gaps) :
    s.program.symbols.InStep t.program.symbols := by
  cases h with
  | before run => exact spliceBefore_inStep hs run
  | after run => exact spliceBefore_inStep hs run
  | behind run => exact appendAfter_symbols run ▸ .refl _
  | «instead» run => exact spliceInstead_inStep hs run
  | out run => exact excise_inStep hs run
  | resized run =>
    obtain ⟨_, -, rfl, rfl⟩ := shiftBehind_ok run
    exact .refl _

end EngineM

end

/-! ## Requests -/

/-- What is asked of a loaded program. -/
inductive Request where
  | edit (edit : Edit)
  | finalize
  /-- A record of the symbol of `id` for one more relocation. -/
  | claim (id : SymbolId)

namespace Request

def run : Request → EngineM Unit
  | edit e => e.run
  | finalize => discard EngineM.finalize
  | claim id => do
    let granted ← liftResult .symbol ((← EngineM.program).symbols.claim id)
    EngineM.updateProgram fun program => { program with symbols := granted.2 }

/-- The request is not granted by a duplicate that points at an instruction. -/
def sparing (program : Program) : Request → Bool
  | claim id =>
    match program.symbols.claim id with
    | .ok (claimed, after) =>
      (after.get? claimed).all fun record => !record.duplicate || record.instr.isNone
    | .error _ => true
  | _ => true

/-- A claim changes the symbols and nothing else. -/
theorem claim_ok {id : SymbolId} {s t : Session} {u : Unit} : (claim id).run s = .ok u t ↔
    ∃ claimed after, s.program.symbols.claim id = .ok (claimed, after) ∧ t = s.withSymbols after := by
  simp only [run, bind_ok, EngineM.program_ok, liftResult_ok, EngineM.updateProgram_ok]
  constructor
  · intro h
    obtain ⟨_, _, ⟨rfl, rfl⟩, ⟨claimed, after⟩, _, ⟨hclaim, rfl⟩, rfl⟩ := h
    exact ⟨claimed, after, hclaim, rfl⟩
  · intro h
    obtain ⟨claimed, after, hclaim, rfl⟩ := h
    exact ⟨_, _, ⟨rfl, rfl⟩, (claimed, after), _, ⟨hclaim, rfl⟩, rfl⟩

end Request

/-- What granted requests lead to, none of which is granted by a duplicate that points at an instruction. -/
inductive Session.Reaches (s : Session) : Session → Prop where
  | start : s.Reaches s
  | step {m t : Session} (request : Request) (hm : s.Reaches m) (hsparing : request.sparing m.program = true)
      (hrun : request.run m = .ok () t) : s.Reaches t

/-- The records of each symbol say the same of it, and all records are where the instructions are that they
are tied to. -/
structure Program.Concordant (program : Program) : Prop where
  tracked : ∃ l gaps, program.Tracked l gaps
  arranged : program.symbols.Arranged
  unanimous : program.symbols.Unanimous

section

variable {decoded : Decoded} {config : Config} {s t : Session} {u : Unit}

/-- What was just loaded is concordant: each symbol has one record. -/
theorem load_concordant (hpristine : decoded.chain.Pristine) (h : Session.load decoded config = .ok s) :
    s.program.Concordant := by
  obtain ⟨l, htracked⟩ := load_tracked hpristine h
  simp only [Session.load, bind_eq_ok, pure_eq_ok] at h
  obtain ⟨program, hload, rfl⟩ := h
  simp only [Program.load, bind_eq_ok, mapError_eq_ok, pure_eq_ok] at hload
  obtain ⟨_, -, ⟨table, unresolved⟩, htable, linked, hlinked, rfl⟩ := hload
  have harranged := SymbolTable.load_arranged htable
  have hstep := linkSymbols_inStep harranged hlinked
  exact ⟨⟨l, _, htracked⟩, harranged.step hstep, (SymbolTable.load_unanimous htable).step hstep⟩

/-- An edit keeps the records of each symbol agreeing. -/
theorem edit_concordant {edit : Edit} (hs : s.program.Concordant) (h : edit.run s = .ok u t) :
    t.program.Concordant := by
  obtain ⟨l, gaps, hs'⟩ := hs.tracked
  obtain ⟨shift, m, summary, hsplice, hsettle⟩ := EngineM.edit_ok h
  obtain ⟨l', hm⟩ := hsplice.tracked hs'
  have hfollows := Session.Follows.updateRelation.settle hsettle
  have hstep := (hsplice.inStep hs').trans (hfollows.inStep hm)
  exact ⟨⟨l', gaps, hm.follow hfollows⟩, hs.arranged.step hstep, hs.unanimous.step hstep⟩

/-- Finalizing keeps the records of each symbol agreeing. -/
theorem finalize_concordant {summary : UpdateSummary} (hs : s.program.Concordant)
    (h : EngineM.finalize s = .ok summary t) : t.program.Concordant := by
  obtain ⟨l, gaps, hs'⟩ := hs.tracked
  have hfollows := Session.Follows.updateRelation.finalize h
  have hstep := hfollows.inStep hs'
  exact ⟨⟨l, gaps, hs'.follow hfollows⟩, hs.arranged.step hstep, hs.unanimous.step hstep⟩

/-- A new record is tied to nothing, if it does not point at an instruction as its symbol does. -/
theorem claim_tracked {id claimed : SymbolId} {after : SymbolTable} {l : List InstrId}
    {gaps : SymbolId → Option UInt64} (hs : s.program.Tracked l gaps)
    (hclaim : s.program.symbols.claim id = .ok (claimed, after))
    (hfree : ∀ record, after.get? claimed = some record → record.duplicate = true → record.instr = none) :
    (s.withSymbols after).program.Tracked l gaps := by
  refine ⟨hs.spells, hs.attached, hs.tied.patches, hs.tied.pointers, fun {symbol record} hget => ?_⟩
  replace hget : after.get? symbol = some record := hget
  obtain ⟨found, -, ⟨-, rfl⟩ | ⟨_, _, _, last, -, -, -, rfl, rfl⟩⟩ := SymbolTable.claim_ok hclaim
  · rw [SymbolTable.get?_update] at hget
    split at hget
    next he =>
      obtain ⟨root, hroot, rfl⟩ := Option.map_eq_some_iff.mp hget
      have htied := hs.tied.record hroot
      rw [he]
      exact ⟨htied.pointed, htied.referred, htied.patched⟩
    next => exact hs.tied.record hget
  · rw [SymbolTable.get?_pushed] at hget
    split at hget
    · obtain rfl := Option.some.inj hget
      have hnone := hfree _ ((SymbolTable.get?_pushed _).trans (if_pos rfl)) rfl
      refine ⟨fun hinstr => ?_, fun hreloc htarget => ?_, fun hreloc hinstr => ?_⟩
      · rw [hnone] at hinstr
        cases hinstr
      · obtain ⟨_, -, rfl⟩ := Option.map_eq_some_iff.mp hreloc
        cases htarget
      · obtain ⟨_, -, rfl⟩ := Option.map_eq_some_iff.mp hreloc
        cases hinstr
    · exact hs.tied.record hget

/-- A request keeps the records agreeing: a duplicate that points at no instruction copies all that others
say. -/
theorem request_concordant {request : Request} (hs : s.program.Concordant)
    (hsparing : request.sparing s.program = true) (h : request.run s = .ok u t) : t.program.Concordant := by
  cases request with
  | edit edit => exact edit_concordant hs h
  | finalize =>
    obtain ⟨summary, h⟩ := discard_ok.mp h
    exact finalize_concordant hs h
  | claim id =>
    obtain ⟨claimed, after, hclaim, rfl⟩ := Request.claim_ok.mp h
    obtain ⟨l, gaps, hs'⟩ := hs.tracked
    refine ⟨⟨l, gaps, claim_tracked hs' hclaim fun record hrecord hduplicate => ?_⟩,
      hs.arranged.claim hclaim, hs.unanimous.claim hclaim⟩
    rw [Request.sparing, hclaim] at hsparing
    simp only [hrecord, Option.all_some, hduplicate, Bool.not_true, Bool.false_or] at hsparing
    exact Option.isNone_iff_eq_none.mp hsparing

/-- What granted requests reach is concordant. -/
theorem reaches_concordant (hs : s.program.Concordant) (h : s.Reaches t) : t.program.Concordant := by
  induction h with
  | start => exact hs
  | step request _ hsparing hrun ih => exact request_concordant ih hsparing hrun

/-- In every state that is reached from decoded code without a duplicate being handed out that points at
an instruction, the records of each symbol agree, and every record is listed by the instructions
that it is tied to. A duplicate that is handed out then has no ties of its own and points where
its symbol points. -/
theorem duplicates_agree (hpristine : decoded.chain.Pristine) (hload : Session.load decoded config = .ok s)
    (h : s.Reaches t) :
    (∀ id record, t.program.symbols.get? id = some record →
      (∃ run, t.program.symbols.run id = .ok run ∧ id ∈ run
        ∧ ∀ other ∈ run, ∃ record', t.program.symbols.get? other = some record'
          ∧ record'.name = record.name ∧ record'.sec = record.sec ∧ record'.value = record.value)
        ∧ (∀ i, record.PointsAt i →
          ∃ instr, t.program.chain.get? i = some instr ∧ id ∈ instr.referencedBy)
        ∧ ∀ i, record.Patches i → ∃ instr, t.program.chain.get? i = some instr ∧ id ∈ instr.relocs)
      ∧ ∀ id claimed after copy, t.program.symbols.claim id = .ok (claimed, after) →
        after.get? claimed = some copy → copy.duplicate = true →
          (∀ reloc, copy.reloc = some reloc → reloc.instr = none ∧ reloc.target = none)
            ∧ ∃ record, t.program.symbols.get? id = some record ∧ copy.instr = record.instr := by
  obtain ⟨⟨l, gaps, htracked⟩, harranged, hunanimous⟩ :=
    reaches_concordant (load_concordant hpristine hload) h
  refine ⟨fun id record hget => ⟨?_, fun i hpoints => ?_, fun i hpatches => ?_⟩,
    fun id claimed after copy hclaim hcopy hduplicate => ?_⟩
  · obtain ⟨front, rest, behind, hruns, hmem, hrun, hfound⟩ := harranged.runOf? hget
    refine ⟨record.base :: rest, SymbolTable.run_of_runOf? hget hfound, hmem, fun other hother => ?_⟩
    obtain ⟨duplicate, hrank⟩ := hrun.rank_of_mem hother
    obtain ⟨record', hrecord', he⟩ := Option.map_eq_some_iff.mp hrank
    have hsame := hunanimous hrecord' hget (congrArg Prod.fst he)
    exact ⟨record', hrecord', congrArg Symbol.Profile.name hsame, congrArg Symbol.Profile.sec hsame,
      congrArg Symbol.Profile.value hsame⟩
  · have htied := htracked.tied.record hget
    rcases hpoints with hinstr | ⟨reloc, hreloc, htarget⟩
    · obtain ⟨tie, htie, hlisted, -⟩ := htied.pointed hinstr
      obtain ⟨instr, hinstr, rfl⟩ := Chain.get?_of_tie? htie
      exact ⟨instr, hinstr, hlisted⟩
    · obtain ⟨-, tie, htie, hlisted, -⟩ := htied.referred hreloc htarget
      obtain ⟨instr, hinstr, rfl⟩ := Chain.get?_of_tie? htie
      exact ⟨instr, hinstr, hlisted⟩
  · obtain ⟨reloc, hreloc, hinstr⟩ := hpatches
    obtain ⟨tie, htie, hlisted, -⟩ := (htracked.tied.record hget).patched hreloc hinstr
    obtain ⟨instr, hinstr, rfl⟩ := Chain.get?_of_tie? htie
    exact ⟨instr, hinstr, hlisted⟩
  · obtain ⟨hreloc, record, hrecord, hsame⟩ := hunanimous.claim_copies harranged hclaim hcopy hduplicate
    exact ⟨hreloc, record, hrecord, congrArg Symbol.Profile.instr hsame⟩

end

/-- The symbol that stands for the section of `pinned` gets a second record, and a third one behind an
insertion. -/
theorem duplicates_agree_pinned : ∃ s t, pinned.chain.Pristine
    ∧ Session.load pinned ⟨8, true, true, true⟩ = .ok s ∧ s.Reaches t
    ∧ t.program.symbols.run ⟨1⟩ = .ok [⟨1⟩, ⟨3⟩, ⟨4⟩]
    ∧ ∀ record, t.program.symbols.get? ⟨4⟩ = some record →
      ∃ run, t.program.symbols.run ⟨4⟩ = .ok run ∧ (⟨4⟩ : SymbolId) ∈ run
        ∧ ∀ other ∈ run, ∃ record', t.program.symbols.get? other = some record'
          ∧ record'.name = record.name ∧ record'.sec = record.sec ∧ record'.value = record.value := by
  have hpristine : pinned.chain.Pristine := Chain.pristine_ofList (by decide)
  let s := (Session.load pinned ⟨8, true, true, true⟩).toOption.getD default
  let claimed := outcome (Request.claim ⟨1⟩).run s
  let inserted := outcome (Request.edit (.insertBefore ⟨1⟩ (.synthetic [0x90] 1 .nop) .inserted)).run claimed
  let t := outcome (Request.claim ⟨3⟩).run inserted
  have hload : Session.load pinned ⟨8, true, true, true⟩ = .ok s := by decide +kernel
  have hreaches : s.Reaches t := by
    obtain ⟨_, hfirst⟩ := Succeeds.ok (show Succeeds (Request.claim ⟨1⟩).run s = true by decide +kernel)
    obtain ⟨_, hinsert⟩ := Succeeds.ok (show Succeeds
      (Request.edit (.insertBefore ⟨1⟩ (.synthetic [0x90] 1 .nop) .inserted)).run claimed = true by decide +kernel)
    obtain ⟨_, hsecond⟩ := Succeeds.ok (show Succeeds (Request.claim ⟨3⟩).run inserted = true by decide +kernel)
    exact ((Session.Reaches.start.step _ (by decide +kernel) hfirst).step _ rfl hinsert).step _
      (by decide +kernel) hsecond
  exact ⟨s, t, hpristine, hload, hreaches, by decide +kernel, fun record hget =>
    ((duplicates_agree hpristine hload hreaches).1 ⟨4⟩ record hget).1⟩

/-- A function of two instructions and its symbol, which points at the first one. -/
def named : Decoded where
  arch := .x86_64
  chain := .ofList
    [{ Instruction.decoded 0 [0x90] 1 .nop with sec := 1 },
      { Instruction.decoded 1 [0x90] 1 .nop with sec := 1 }]
  functions := ⟨#[Function.declared "f" 1 (some (⟨0⟩, ⟨1⟩)) 0]⟩
  symbols := [{ name := "f", info := 0x12, size := 2, sec := 1, value := 0 }]
  relocations := []

/-- A duplicate of the symbol points at the first instruction as well, which does not list it: when that
moves, the duplicate is left behind. -/
theorem duplicate_left_behind : ∃ s claimed t, named.chain.Pristine
    ∧ Session.load named ⟨64, true, true, true⟩ = .ok s
    ∧ [Request.claim ⟨0⟩, .claim ⟨0⟩].forM Request.run s = .ok () claimed
    ∧ (Request.edit (.insertBefore ⟨0⟩ (.synthetic [0x90] 1 .nop) .keep)).run claimed = .ok () t
    ∧ (claimed.program.symbols.get? ⟨1⟩).map (fun record => (record.duplicate, record.instr))
      = some (true, some ⟨0⟩)
    ∧ (claimed.program.chain.get? ⟨0⟩).map (·.referencedBy) = some [⟨0⟩]
    ∧ t.program.symbols.run ⟨0⟩ = .ok [⟨0⟩, ⟨1⟩]
    ∧ (t.program.symbols.get? ⟨0⟩).map (·.value) = some 1
    ∧ (t.program.symbols.get? ⟨1⟩).map (·.value) = some 0 := by
  have hpristine : named.chain.Pristine := Chain.pristine_ofList (by decide)
  let s := (Session.load named ⟨64, true, true, true⟩).toOption.getD default
  let claimed := outcome ([Request.claim ⟨0⟩, .claim ⟨0⟩].forM Request.run) s
  obtain ⟨_, hclaims⟩ := Succeeds.ok (show Succeeds ([Request.claim ⟨0⟩, .claim ⟨0⟩].forM Request.run) s
    = true by decide +kernel)
  obtain ⟨_, hinsert⟩ := Succeeds.ok (show Succeeds
    (Request.edit (.insertBefore ⟨0⟩ (.synthetic [0x90] 1 .nop) .keep)).run claimed = true by decide +kernel)
  exact ⟨s, claimed, _, hpristine, by decide +kernel, hclaims, hinsert, by decide +kernel, by decide +kernel,
    by decide +kernel, by decide +kernel, by decide +kernel⟩

end Splice
