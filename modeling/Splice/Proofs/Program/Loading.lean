import Splice.Proofs.Chain.Rebuilding
import Splice.Proofs.Program.BackReferences
import Splice.Proofs.Program.BlockWork
import Splice.Proofs.Program.Stamping
import Splice.Proofs.Symbol.Annotation

/-!
# Loading and finalizing

A program that is loaded passes all checks once it is finalized (`verify_of_load`), whatever
references, addresses and bytes were decoded and whatever symbols and relocations the object has.
Each check has its part in that. The order of the code, its owners, and the lists of jumpers and
of records are right when the program is loaded (`load_bound`), and updates keep them
(`Bound.finalize`). The places of the code and its displacements are what finalizing
computes.

The first half relies on how the code is filled: instructions are appended that nothing is tied to,
and no two functions share one.

`Program.Bound` is the invariant from loading to the end of finalizing. It has no blocks in it,
as none are built yet, and says nothing of addresses, which may be anything before the first
layout.
-/

namespace Splice

/-- Nothing is tied to the instruction. -/
def Instruction.Untied (instr : Instruction) : Prop := instr.relocs = [] ∧ instr.referencedBy = []

instance (instr : Instruction) : Decidable instr.Untied := inferInstanceAs (Decidable (_ ∧ _))

/-- The session with another configuration. -/
def Session.configured (s : Session) (config : Config) : Session := { s with program.config := config }

/-- What holds of a program when it is loaded: the code is the list `l`, in which jumpers and
targets, instructions and records, and functions and their instructions know each other, and the
records of a symbol stand together. There are no blocks yet. -/
structure Program.Bound (program : Program) (l : List InstrId) : Prop
    extends EngineM.Mutual program l where
  noted : Noted program.chain.tie? program.symbols.get?
  stamped : ∀ id function, program.functions.get? id = some function →
    ∃ run, function.Spans l run ∧ ∀ x ∈ run, ∀ instr, program.chain.get? x = some instr →
      instr.func = some id
  grouped : program.symbols.Grouped
  once : program.symbols.ids.Nodup
  unbuilt : program.graph = none

/-! ## What is loaded -/

namespace Program

variable {chain after : Chain} {functions stamped : FunctionTable} {l : List InstrId}

/-- Stamping notes the references first and assigns the functions then. -/
theorem stamped_ok (h : Program.stamped chain functions = .ok (after, stamped)) :
    ∃ m u, ChainM.rebuildReferences chain = .ok u m ∧ functions.assign m = .ok stamped after := by
  unfold Program.stamped at h
  simp only at h
  split at h
  next heq =>
    obtain ⟨rfl, rfl⟩ := Prod.mk.inj (Except.ok.inj h)
    obtain ⟨u, m, hrebuild, hassign⟩ := bind_ok.mp heq
    exact ⟨m, u, hrebuild, hassign⟩
  next => cases h

/-- With its symbols, a function is where it was. -/
theorem withSymbols_carries (functions : FunctionTable) (symbols : SymbolTable) :
    functions.Carries (withSymbols functions symbols) :=
  FunctionTable.carries_map fun _ => ⟨rfl, rfl, rfl, rfl⟩

end Program

/-- Functions lie apart in code whose links and functions are the same. -/
theorem FunctionTable.Apart.evolve {table : FunctionTable} {chain after : Chain}
    {r : InstrId → Instruction → Instruction → Prop} (h : table.Apart chain)
    (hchain : chain.Evolves r after) : table.Apart after where
  spans id function hfunction := by
    rw [hchain.ids]
    exact h.spans id function hfunction
  disjoint id other a b ha hb hne x hx := by
    have hsame : ∀ function : Function, function.instructions after = function.instructions chain :=
      fun function => hchain.run ..
    rw [hsame] at hx ⊢
    exact h.disjoint id other a b ha hb hne x hx

/-- What a decoder delivers is bound together when it is loaded. -/
theorem load_bound {decoded : Decoded} {config : Config} {s : Session} {l : List InstrId}
    (hl : decoded.chain.Spells l) (hattached : decoded.chain.Attached l)
    (huntied : ∀ {id instr}, decoded.chain.get? id = some instr → instr.Untied)
    (hfunctions : decoded.functions.Apart decoded.chain) (h : Session.load decoded config = .ok s) :
    s.program.Bound l := by
  simp only [Session.load, bind_eq_ok, pure_eq_ok] at h
  obtain ⟨program, hload, rfl⟩ := h
  simp only [Program.load, bind_eq_ok, mapError_eq_ok, pure_eq_ok] at hload
  obtain ⟨⟨chain, functions⟩, hstamped, ⟨table, unresolved⟩, htable, linked, hlinked, rfl⟩ := hload
  -- loading relists the references, stamps the owners and links the symbols, in this order
  obtain ⟨m, u, hrebuild, hassign⟩ := Program.stamped_ok hstamped
  obtain ⟨hrelisted, hlisted, hanswered⟩ := ChainM.rebuildReferences_run hl hattached hrebuild
  obtain ⟨hrestamped, hcarries, howners⟩ := FunctionTable.assign_ok (hfunctions.evolve hrelisted) hassign
  have hunlinked := SymbolTable.load_unlinked htable
  obtain ⟨hnoted, hannotated, hruns, hrank⟩ := linkSymbols_noted (fun {id instr} hinstr => by
    obtain ⟨stamped, hstamp, _, rfl⟩ := hrestamped.get?_of hinstr
    obtain ⟨bare, hbare, _, rfl⟩ := hrelisted.get?_of hstamp
    have hfree := huntied hbare
    exact hfree) hunlinked hlinked
  have hspells := hrestamped.spells (hrelisted.spells hl)
  -- stamping and linking do not touch what the first step has listed
  have hkept : m.Evolves (fun _ a b => b.references = a.references ∧ b.targetedBy = a.targetedBy)
      linked.chain := by
    refine hrestamped.comp (fun _ a b c hab hbc => ?_) hannotated
    obtain ⟨_, rfl⟩ := hab
    exact ⟨hbc.references, hbc.targetedBy⟩
  refine ⟨⟨hannotated.spells hspells, ?_, ?_, ?_⟩, hnoted, fun id function hfunction => ?_, ?_, ?_, rfl⟩
  · exact hannotated.attached (hrestamped.attached (hrelisted.attached hattached))
  · exact hlisted.evolve hkept (fun _ _ _ h => h.1) fun _ _ _ h => h.2
  · exact hanswered.evolve hkept (fun _ _ _ h => h.1) fun _ _ _ h => h.2
  · obtain ⟨old, hold, hcarried⟩ :=
      (hcarries.trans (Program.withSymbols_carries functions table)).get?_of hfunction
    obtain ⟨run, hspans⟩ := hfunctions.spans id old hold
    rw [hl.ids_eq] at hspans
    refine ⟨run, hcarried.spans hspans, fun x hx instr hinstr => ?_⟩
    obtain ⟨stamped, hstamp, hsame⟩ := hannotated.get?_of hinstr
    rw [hsame.func]
    rw [← hspans.instructions (hrelisted.spells hl)] at hx
    exact howners id old hold x hx stamped hstamp
  · exact (SymbolTable.load_grouped htable).congr hruns hrank
  · show linked.table.ids.Nodup
    rw [SymbolTable.ids, hruns]
    exact hunlinked.nodup

/-! ## What is finalized -/

namespace Program.Bound

variable {program : Program} {s t : Session} {l : List InstrId} {summary : UpdateSummary}

/-- What finalizing changes binds nothing. -/
theorem finalize (h : s.program.Bound l) (hrun : EngineM.finalize s = .ok summary t) :
    t.program.Bound l := by
  have hcarries := Session.Carries.updateRelation.finalize hrun
  have hfollows := Session.Follows.updateRelation.finalize hrun
  refine ⟨h.toMutual.carry hcarries, hfollows.noted_iff.mpr h.noted, fun id function hfunction => ?_, ?_, ?_,
    (Session.Sustains.updateRelation.finalize hrun).blocks.trans h.unbuilt⟩
  · obtain ⟨old, hold, hcarried⟩ := hcarries.functions.get?_of hfunction
    obtain ⟨run, hspans, hstamped⟩ := h.stamped id old hold
    refine ⟨run, hcarried.spans hspans, fun x hx instr hinstr => ?_⟩
    obtain ⟨before, hbefore, hsame⟩ := hcarries.chain.get?_of hinstr
    rw [hsame.func]
    exact hstamped x hx before hbefore
  · refine h.grouped.congr hfollows.runs fun id => ?_
    rw [SymbolTable.rank?, hfollows.records, Option.map_map]
    rfl
  · rw [SymbolTable.ids, hfollows.runs]
    exact h.once

/-- A program with its functions stamped, laid out and measured, passes the check of functions. -/
theorem verifyFunctions (h : program.Bound l) (hsurveyed : EngineM.Surveyed program l) :
    program.verifyFunctions = .ok () := by
  refine verifyFunctions_ok.mpr fun id function hfunction => ?_
  refine verifyFunction_ok.mpr fun first last hfirst hlast => ?_
  obtain ⟨run, hspans, hstamped⟩ := h.stamped id function hfunction
  have hrun := hspans.instructions h.spells
  rcases EngineM.measured_ok (hsurveyed.measured id function hfunction) with
    ⟨hnone, -⟩ | ⟨first', instr, hfirst', hinstr, -, hfound⟩
  · rw [hnone] at hfirst
    cases hfirst
  obtain rfl := Option.some.inj (hfirst.symm.trans hfirst')
  refine ⟨fun x hx => ?_, ?_, ⟨instr, hinstr, congrArg (·.addr) hfound⟩, congrArg (·.size) hfound⟩
  · rw [hrun] at hx
    obtain ⟨instr, hinstr⟩ := h.spells.get?_isSome (hspans.subset hx)
    exact ⟨instr, hinstr, hstamped x hx instr hinstr⟩
  · rw [hrun]
    exact hspans.last_mem hfirst hlast

/-- A bound program passes all checks if it is laid out and its displacements lead where they should. -/
theorem verify (h : program.Bound l) (hsurveyed : EngineM.Surveyed program l)
    (hencodes : ∀ jumper ∈ l, program.Encodes jumper) : program.verify = .ok () := by
  refine verify_of_parts (verifyChain_ok h.spells) ?_ (h.verifyFunctions hsurveyed)
    ((verifyReferences_ok h.spells h.attached).mpr ⟨h.listed, h.answered, h.noted⟩) ?_
    (verifySymbols_ok h.grouped h.once) fun hgraph => ?_
  · rw [verifyAddresses_ok, h.spells.ids_eq]
    exact hsurveyed.laid
  · rw [verifyDisplacements_ok, h.spells.ids_eq]
    exact hencodes
  · rw [h.unbuilt] at hgraph
    cases hgraph

end Program.Bound

/-- Code that is appended instruction by instruction is one list, which holds all that is present. -/
theorem ChainM.pushAll_filled {p : Instruction → Prop} {instrs : List Instruction} {chain after : Chain}
    {u : Unit} (hinstrs : ∀ instr ∈ instrs, p instr)
    (h : (instrs.forM fun instr => discard (push instr)) chain = .ok u after)
    (hchain : ∃ l, chain.Spells l ∧ chain.Attached l ∧ ∀ {id instr}, chain.get? id = some instr → p instr) :
    ∃ l, after.Spells l ∧ after.Attached l ∧ ∀ {id instr}, after.get? id = some instr → p instr := by
  induction instrs generalizing chain with
  | nil => exact forM_nil_ok.mp h ▸ hchain
  | cons instr instrs ih =>
    obtain ⟨l, hl, hattached, hall⟩ := hchain
    obtain ⟨m, hfirst, hrest⟩ := forM_cons_ok.mp h
    obtain ⟨new, hpush⟩ := discard_ok.mp hfirst
    exact ih (fun other hother => hinstrs other (List.mem_cons_of_mem _ hother)) hrest
      ⟨_, push_filled hl hattached hall (hinstrs instr (List.mem_cons_self ..)) hpush⟩

/-- A program passes all checks when it is loaded and then finalized, with whatever configuration, if
its code is filled by appending instructions that nothing is tied to and its functions span
stretches of it that are apart. -/
theorem verify_of_load {instrs : List Instruction} {decoded : Decoded} {config other : Config}
    {s t : Session} {summary : UpdateSummary} {u : Unit}
    (hfill : (instrs.forM fun instr => discard (ChainM.push instr)) .empty = .ok u decoded.chain)
    (hinstrs : ∀ instr ∈ instrs, instr.Untied) (hfunctions : decoded.functions.Apart decoded.chain)
    (hload : Session.load decoded config = .ok s)
    (hfinalize : EngineM.finalize (s.configured other) = .ok summary t) :
    t.program.verify = .ok () := by
  obtain ⟨l, hl, hattached, huntied⟩ := ChainM.pushAll_filled hinstrs hfill
    ⟨[], Chain.spells_ofList [], fun id hid => (by cases hid), fun {id instr} hinstr => (by cases hinstr)⟩
  have hloaded := load_bound hl hattached huntied hfunctions hload
  have hstart : (s.configured other).program.Bound l :=
    ⟨⟨hloaded.spells, hloaded.attached, hloaded.listed, hloaded.answered⟩, hloaded.noted, hloaded.stamped,
      hloaded.grouped, hloaded.once, hloaded.unbuilt⟩
  have hfinal := EngineM.finalize_final hstart.spells hfinalize
  have hbound := Program.Bound.finalize hstart hfinalize
  refine hbound.verify hfinal.surveyed fun jumper hjumper => ?_
  intro source logical hsource htarget hdirect
  have hmem := Program.mem_jumpers.mpr ⟨hbound.spells.ids_eq.symm ▸ hjumper, source, hsource, hdirect⟩
  exact (hfinal.still jumper hmem).encodes source logical hsource htarget hdirect

/-- A short jump over 200 bytes into another function. -/
def farJump : List Instruction :=
  [{ Instruction.decoded 0 [0xEB, 0] 1 .jump with sec := 1, target := some ⟨2⟩ },
    { Instruction.decoded 2 (List.replicate 200 0x90) 1 .nop with sec := 1 },
    { Instruction.decoded 202 [0xE8, 0, 0, 0, 0] 1 .call with sec := 1, target := some ⟨0⟩ }]

/-- The two functions and a callee that is defined elsewhere, with two relocations that name one
symbol. -/
def farCode : Decoded where
  arch := .x86_64
  chain := outcome (farJump.forM fun instr => discard (ChainM.push instr)) .empty
  functions := ⟨#[.declared "near" 1 (some (⟨0⟩, ⟨1⟩)) 0, .declared "far" 1 (some (⟨2⟩, ⟨2⟩)) 202,
    .declared "away" 0 none 0]⟩
  symbols :=
    [{ name := "", info := 0, size := 0, sec := 0, value := 0 },
      { name := "", info := 3, size := 0, sec := 1, value := 0 },
      { name := "far", info := 0x12, size := 5, sec := 1, value := 202 }]
  relocations :=
    [{ sec := 1, offset := 1, symbol := 1, kind := 2, addend := 198, addendKind := .explicit },
      { sec := 1, offset := 203, symbol := 1, kind := 2, addend := 0, addendKind := .explicit }]

/-- The two functions of the code lie apart. -/
theorem farCode_apart : farCode.functions.Apart farCode.chain where
  spans id function hfunction := by
    have hslices : ∀ entry ∈ farCode.functions.entries, ∃ start < 4, ∃ count < 4,
        entry.2.first = ((farCode.chain.ids.drop start).take count).head?
          ∧ entry.2.last = ((farCode.chain.ids.drop start).take count).getLast? := by
      decide +kernel
    obtain ⟨start, -, count, -, hfirst, hlast⟩ :=
      hslices (id, function) (FunctionTable.mem_entries.mpr hfunction)
    exact ⟨_, Function.spans_slice start count hfirst hlast⟩
  disjoint id other a b ha hb hne := by
    have hapart : ∀ entry ∈ farCode.functions.entries, ∀ entry' ∈ farCode.functions.entries,
        entry.1 ≠ entry'.1 → ∀ x ∈ entry.2.instructions farCode.chain,
          x ∉ entry'.2.instructions farCode.chain := by
      decide +kernel
    exact hapart (id, a) (FunctionTable.mem_entries.mpr ha) (other, b) (FunctionTable.mem_entries.mpr hb) hne

/-- Code with a jump that cannot reach is loaded and finalized, which widens the jump. -/
theorem verify_of_load_farCode : ∃ u s summary t,
    (farJump.forM fun instr => discard (ChainM.push instr)) .empty = .ok u farCode.chain
      ∧ (∀ instr ∈ farJump, instr.Untied) ∧ farCode.functions.Apart farCode.chain
      ∧ Session.load farCode ⟨8, true, true, true⟩ = .ok s
      ∧ EngineM.finalize (s.configured ⟨8, true, false, true⟩) = .ok summary t
      ∧ summary.promoted = 1 ∧ t.program.verify = .ok () := by
  have hfills : Succeeds (farJump.forM fun instr => discard (ChainM.push instr)) .empty = true := by
    decide +kernel
  obtain ⟨u, hfill⟩ := Succeeds.ok hfills
  have hinstrs : ∀ instr ∈ farJump, instr.Untied := by decide +kernel
  let s := (Session.load farCode ⟨8, true, true, true⟩).toOption.getD default
  have hload : Session.load farCode ⟨8, true, true, true⟩ = .ok s := by decide +kernel
  have hwidens : Returns (UpdateSummary.promoted <$> EngineM.finalize)
      (s.configured ⟨8, true, false, true⟩) 1 = true := by
    decide +kernel
  obtain ⟨summary, hfinalize, hpromoted⟩ := map_ok.mp (Returns.ok hwidens)
  exact ⟨u, s, summary, _, hfill, hinstrs, farCode_apart, hload, hfinalize, hpromoted,
    verify_of_load hfill hinstrs farCode_apart hload hfinalize⟩

end Splice
