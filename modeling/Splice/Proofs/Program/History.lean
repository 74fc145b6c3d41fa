import Splice.Proofs.Chain.Packing
import Splice.Proofs.Symbol.Linking
import Splice.Program.Version

/-!
# Symbols follow the code

From the moment that a program is loaded, through every edit, every update and every fork, the
numbers of its symbol records are those of the addresses of the instructions that the records
are tied to (`symbols_follow_code`). Loading ties what is found at the addresses of the input
(`load_tracked`), and each operation keeps the program `Tracked` (`tracked_invariant`): an edit
by its splice and what it settles, an update because symbols follow what moves, and a fork
because it gives every survivor a name of its own.

`Operation` lists what is done to a program after it was loaded: edits, updates, and forks,
after which the fork is what is worked on. Operations that are refused are not followed further.
The numbers are compared modulo the size of the address space, as the engine computes them.
-/

namespace Splice

/-! ## Operations -/

/-- What is done to a program from the moment that it is loaded. -/
inductive Operation where
  | edit (edit : Edit)
  /-- Lays out all code. -/
  | updateAddresses
  /-- Writes all displacements. -/
  | updateDisplacements
  | finalize
  /-- Goes on with a fork of the program. -/
  | fork (version : VersionInfo)

def Operation.run : Operation → EngineM Unit
  | edit e => e.run
  | updateAddresses => discard EngineM.updateAddresses
  | updateDisplacements => discard EngineM.updateDisplacements
  | finalize => discard EngineM.finalize
  | fork version => do
    let forked ← liftResult id ((← EngineM.program).fork version)
    EngineM.updateProgram fun _ => forked

namespace EngineM

variable {s t : Session} {l : List InstrId} {gaps : SymbolId → Option UInt64}

/-- A splice keeps every record where it is kept track of: what is moved takes its records along, and what
is removed hands them on. -/
theorem SpliceRun.tracked {edit : Edit} {shift : Shift} (h : SpliceRun s edit shift t)
    (hs : s.program.Tracked l gaps) : ∃ l', t.program.Tracked l' gaps := by
  cases h with
  | before run => exact spliceBefore_tracked hs run
  | after run => exact spliceBefore_tracked hs run
  | behind run => exact appendAfter_tracked hs run
  | «instead» run => exact spliceInstead_tracked hs run
  | out run => exact excise_tracked hs run
  | resized run =>
    simp only [shiftBehind, bind_ok, node_ok, pure_ok] at run
    obtain ⟨_, _, ⟨-, rfl⟩, -, rfl⟩ := run
    refine ⟨l, hs.untouched ⟨.of_adjust fun x i _ => ?_, rfl⟩⟩
    unfold Chain.only
    split <;> rfl

end EngineM

/-! ## Forks -/

/-- Symbols go over to a fork with the instructions that they are tied to. -/
theorem Program.Tracked.fork {program after : Program} {version : VersionInfo} {l : List InstrId}
    {gaps : SymbolId → Option UInt64} (h : program.Tracked l gaps)
    (hrun : program.fork version = .ok after) : ∃ l', after.Tracked l' gaps := by
  simp only [Program.fork, bind_eq_ok, mapError_eq_ok, pure_eq_ok] at hrun
  obtain ⟨⟨chain, names⟩, hcompact, functions, -, rfl⟩ := hrun
  obtain ⟨rfl, hspells, hbound, hpacked⟩ := Chain.compact_ok h.spells hcompact
  refine ⟨_, hspells, fun id hid => ?_, ?_⟩
  · exact List.mem_map.mpr ⟨id.index, List.mem_range.mpr (hbound id hid), rfl⟩
  have hnames : ∀ {old new : InstrId},
      Renaming.get? ⟨l⟩ old = some new ↔ l[new.index]? = some old :=
    Renaming.get?_eq_some_iff h.spells.nodup
  have hties : Ties.Renamed program.chain.tie? chain.tie? (Renaming.get? ⟨l⟩) := by
    refine ⟨fun {id new tie} hid hnew => ?_, fun {new tie} hnew => ?_⟩
    · obtain ⟨instr, hinstr, rfl⟩ := Chain.get?_of_tie? hid
      obtain ⟨packed, hget, happly⟩ := hpacked new.index id instr (hnames.mp hnew) hinstr
      rw [Chain.tie?_eq hget, (Renaming.apply_relinked happly).tie]
    · obtain ⟨packed, hget, rfl⟩ := Chain.get?_of_tie? hnew
      have hlt := hbound new (by rw [Chain.contains_eq_isSome_get?, hget]; rfl)
      have hold : l[new.index]? = some l[new.index] := List.getElem?_eq_getElem hlt
      obtain ⟨instr, hinstr⟩ := h.spells.get?_isSome (List.getElem_mem hlt)
      obtain ⟨packed', hget', happly⟩ := hpacked new.index _ instr hold hinstr
      obtain rfl := Option.some.inj (hget.symm.trans hget')
      refine ⟨l[new.index], hnames.mpr hold, ?_⟩
      rw [Chain.tie?_eq hinstr, (Renaming.apply_relinked happly).tie]
  exact h.tied.rename hties fun symbol => Array.getElem?_map ..

/-! ## Loading -/

/-- An instruction as it is decoded: in place, and tied to nothing. -/
def Instruction.Pristine (instr : Instruction) : Prop :=
  instr.addr = instr.inputAddr ∧ instr.relocs = [] ∧ instr.referencedBy = []

instance (instr : Instruction) : Decidable instr.Pristine :=
  inferInstanceAs (Decidable (_ ∧ _ ∧ _))

/-- The code as it is decoded. -/
structure Chain.Pristine (chain : Chain) : Prop where
  wellFormed : chain.WellFormed
  attached : chain.Attached chain.ids
  instr : ∀ {id instr}, chain.get? id = some instr → instr.Pristine

/-- An instruction that is appended is the last of the code, and what holds of each instruction holds of
each one still. -/
theorem ChainM.push_filled {p : Instruction → Prop} {chain after : Chain} {l : List InstrId}
    {instr : Instruction} {new : InstrId} (hl : chain.Spells l) (hattached : chain.Attached l)
    (hall : ∀ {id instr}, chain.get? id = some instr → p instr) (hinstr : p instr)
    (hpush : ChainM.push instr chain = .ok new after) :
    after.Spells (l ++ [new]) ∧ after.Attached (l ++ [new])
      ∧ ∀ {id instr}, after.get? id = some instr → p instr := by
  have hins := ChainM.push_inserted hl hpush
  have hspells : after.Spells (l ++ new :: []) :=
    ChainM.Inserted.spells hins (by rwa [List.append_nil])
  refine ⟨hspells, fun id hid => ?_, fun {id found} hget => ?_⟩
  · rw [List.mem_append]
    rw [Chain.contains_eq_isSome_get?, hins.get?] at hid
    by_cases hnew : id = new
    · exact .inr (List.mem_singleton.mpr hnew)
    · rw [if_neg hnew, ← Chain.contains_eq_isSome_get?] at hid
      exact .inl (hattached id hid)
  · rw [hins.get?] at hget
    split at hget
    · obtain rfl := Option.some.inj hget
      exact hinstr
    · exact hall hget

/-- What is decoded is appended instruction by instruction. -/
theorem Chain.Pristine.push {chain after : Chain} {instr : Instruction} {new : InstrId}
    (h : chain.Pristine) (hinstr : instr.Pristine) (hpush : ChainM.push instr chain = .ok new after) :
    after.Pristine := by
  obtain ⟨hspells, hattached, hall⟩ :=
    ChainM.push_filled h.wellFormed.spells h.attached h.instr hinstr hpush
  exact ⟨hspells.wellFormed, hspells.ids_eq.symm ▸ hattached, hall⟩

/-- Code that was pushed untied is as it is decoded. -/
theorem Chain.pristine_ofList {instrs : List Instruction}
    (h : ∀ instr ∈ instrs, instr.Pristine) : (Chain.ofList instrs).Pristine where
  wellFormed := (Chain.spells_ofList instrs).wellFormed
  attached := attached_ofList instrs
  instr := by
    intro id instr hinstr
    rw [Chain.get?_ofList] at hinstr
    exact h instr (List.mem_of_getElem? hinstr)

namespace ChainM

/-- The address in the input, the tie and the bytes of an instruction are the same. -/
def SamePlace (_ : InstrId) (a b : Instruction) : Prop :=
  b.tie = a.tie ∧ b.inputAddr = a.inputAddr ∧ b.bytes = a.bytes

theorem samePlace_stepRelation : StepRelation (Chain.Evolves SamePlace) :=
  Chain.Evolves.stepRelation (fun _ _ => ⟨rfl, rfl, rfl⟩) fun _ _ _ _ h k =>
    ⟨k.1.trans h.1, k.2.1.trans h.2.1, k.2.2.trans h.2.2⟩

/-- A change of one instruction that leaves its place leaves all of them. -/
theorem update_samePlace {id : InstrId} {f : Instruction → Instruction}
    (hf : ∀ instr : Instruction, SamePlace id instr (f instr)) :
    Keeps (Chain.Evolves SamePlace) (update id f) := by
  intro chain u after h
  rw [(update_ok.mp h).2]
  refine .of_adjust fun x i _ => ?_
  unfold Chain.only
  split
  · exact hf i
  · exact ⟨rfl, rfl, rfl⟩

theorem instr_samePlace {id : InstrId} : Keeps (Chain.Evolves SamePlace) (instr id) :=
  Keeps.of_state_eq samePlace_stepRelation fun h => (instr_ok.mp h).2

/-- Noting references leaves where instructions were in the input. -/
theorem rebuildReferences_samePlace : Keeps (Chain.Evolves SamePlace) rebuildReferences := by
  have hr := samePlace_stepRelation
  refine Keeps.bind hr (Keeps.get hr) fun chain => ?_
  refine Keeps.bind hr (Keeps.forM hr fun _ _ => update_samePlace fun _ => ⟨rfl, rfl, rfl⟩) fun _ => ?_
  refine Keeps.forM hr fun jumper _ => Keeps.bind hr instr_samePlace fun found => ?_
  exact Keeps.forM hr fun _ _ => update_samePlace fun _ => ⟨rfl, rfl, rfl⟩

/-- Stamping instructions leaves where they were in the input. -/
theorem assign_samePlace {functions : FunctionTable} :
    Keeps (Chain.Evolves SamePlace) functions.assign := by
  have hr := samePlace_stepRelation
  refine Keeps.bind hr (Keeps.mapM hr fun entry _ => ?_) fun _ => Keeps.pure hr _
  refine Keeps.bind hr (Keeps.get hr) fun chain => ?_
  refine Keeps.bind hr (Keeps.mapM hr fun _ _ => ?_) fun _ => Keeps.pure hr _
  refine Keeps.bind hr (update_samePlace fun _ => ⟨rfl, rfl, rfl⟩) fun _ => ?_
  exact Keeps.bind hr instr_samePlace fun _ => Keeps.pure hr _

end ChainM

/-- Loading leaves each instruction at its place in the input. -/
theorem Program.stamped_samePlace {chain after : Chain} {functions stamped : FunctionTable}
    (h : Program.stamped chain functions = .ok (after, stamped)) :
    chain.Evolves ChainM.SamePlace after := by
  unfold Program.stamped at h
  simp only at h
  split at h
  next heq =>
    obtain ⟨rfl, rfl⟩ := Prod.mk.inj (Except.ok.inj h)
    have hr := ChainM.samePlace_stepRelation
    exact Keeps.bind hr ChainM.rebuildReferences_samePlace (fun _ => ChainM.assign_samePlace) heq
  next => cases h

/-- All records of a table that is read are tied to code that is in place. -/
theorem linkSymbols_tied {chain : Chain} {table : SymbolTable} {withTargets : Bool} {linked : Linking}
    (hplace : ∀ {id instr}, chain.get? id = some instr → instr.Pristine)
    (htable : table.Unlinked) (h : linkSymbols chain table withTargets = .ok linked) :
    (∃ gaps, Tied linked.chain.tie? linked.table.get? gaps)
      ∧ chain.Evolves (fun _ a b => b.addr = a.addr) linked.chain := by
  unfold linkSymbols at h
  split at h
  next => cases h
  next index hindex =>
  obtain rfl := Except.ok.inj h
  -- nothing is listed anywhere in the input, and no record names anything
  have hfree : ∀ {id tie}, chain.tie? id = some tie → tie.relocs = [] ∧ tie.referencedBy = [] := by
    intro id tie hid
    obtain ⟨instr, hinstr, rfl⟩ := Chain.get?_of_tie? hid
    exact (hplace hinstr).2
  have hunlisted : ∀ symbol, Unlisted chain.tie? Tie.relocs symbol
      ∧ Unlisted chain.tie? Tie.referencedBy symbol := by
    refine fun symbol => ⟨fun hid hmem => ?_, fun hid hmem => ?_⟩
    · rw [(hfree hid).1] at hmem
      cases hmem
    · rw [(hfree hid).2] at hmem
      cases hmem
  have hsound : Linking.Sound index ⟨chain, table, [], ⟨0, 0, 0⟩⟩ := by
    refine ⟨fun hmem => ?_, fun _ => none, ⟨fun hid => ?_, fun {symbol} _ _ _ _ hid _ hmem _ => ?_⟩,
      ⟨fun hid => ?_, fun {symbol} _ _ _ _ hid _ hmem _ => ?_⟩, fun hget => ?_⟩
    · obtain ⟨instr, hinstr, hinput⟩ := AddressIndex.ofChain_entry hindex hmem
      exact ⟨instr, hinstr, (hplace hinstr).1.trans hinput⟩
    · rw [(hfree hid).1]
      exact List.nodup_nil
    · exact absurd hmem ((hunlisted symbol).1 hid)
    · rw [(hfree hid).2]
      exact List.nodup_nil
    · exact absurd hmem ((hunlisted symbol).2 hid)
    · have huntied := htable.untied hget
      refine ⟨fun hinstr => ?_, fun hreloc htarget => ?_, fun hreloc hinstr => ?_⟩
      · rw [huntied.instr] at hinstr
        cases hinstr
      · rw [(huntied.reloc hreloc).2] at htarget
        cases htarget
      · rw [(huntied.reloc hreloc).1] at hinstr
        cases hinstr
  obtain ⟨hlinked, hevolves⟩ := Linking.linkRecords_ok withTargets htable.nodup hsound
    fun symbol _ => ⟨⟨(hunlisted symbol).1, fun hget hreloc => ((htable.untied hget).reloc hreloc).1⟩,
      (hunlisted symbol).2, fun hget => (htable.untied hget).instr,
      fun hget hreloc => ((htable.untied hget).reloc hreloc).2⟩
  exact ⟨hlinked.tied, hevolves⟩

/-- Where the bytes that a record patches lie, seen from the instruction that it is tied to. -/
def Program.gap? (program : Program) (symbol : SymbolId) : Option UInt64 := do
  let record ← program.symbols.get? symbol
  let reloc ← record.reloc
  let instr ← program.chain.get? (← reloc.instr)
  return reloc.offset - instr.addr

theorem Program.gap?_eq {program : Program} {symbol : SymbolId} {record : Symbol} {reloc : Relocation}
    {id : InstrId} {instr : Instruction} (hget : program.symbols.get? symbol = some record)
    (hreloc : record.reloc = some reloc) (hid : reloc.instr = some id)
    (hinstr : program.chain.get? id = some instr) :
    program.gap? symbol = some (reloc.offset - instr.addr) := by
  rw [Program.gap?, hget]
  simp only [Option.bind_eq_bind, Option.bind_some, hreloc, hid, hinstr, Option.pure_def]

/-- Right after loading, the records are kept track of: each patched place lies where its record says,
seen from the instruction it lies in. -/
theorem load_tracked {decoded : Decoded} {config : Config} {s : Session}
    (hpristine : decoded.chain.Pristine) (h : Session.load decoded config = .ok s) :
    ∃ l, s.program.Tracked l s.program.gap? := by
  simp only [Session.load, bind_eq_ok, pure_eq_ok] at h
  obtain ⟨program, hload, rfl⟩ := h
  simp only [Program.load, bind_eq_ok, mapError_eq_ok, pure_eq_ok] at hload
  obtain ⟨⟨chain, functions⟩, hstamped, ⟨table, unresolved⟩, htable, linked, hlinked, rfl⟩ := hload
  have hplace := Program.stamped_samePlace hstamped
  obtain ⟨⟨gaps, htied⟩, hevolves⟩ := linkSymbols_tied (fun {id instr} hinstr => by
    obtain ⟨old, hold, htie, hinput, -⟩ := hplace.get?_of hinstr
    obtain ⟨haddr, hrelocs, hpointers⟩ := hpristine.instr hold
    refine ⟨?_, ?_, ?_⟩
    · rw [hinput, ← haddr]
      exact congrArg Tie.addr htie
    · rw [← hrelocs]
      exact congrArg Tie.relocs htie
    · rw [← hpointers]
      exact congrArg Tie.referencedBy htie) (SymbolTable.load_unlinked htable) hlinked
  refine ⟨decoded.chain.ids, hevolves.spells (hplace.spells hpristine.wellFormed.spells),
    hevolves.attached (hplace.attached hpristine.attached), htied.patches, htied.pointers,
    fun {symbol record} hget => ?_⟩
  have hrecord := htied.record hget
  refine ⟨hrecord.pointed, hrecord.referred, fun {reloc id} hreloc hid => ?_⟩
  obtain ⟨tie, htie, hmem, -⟩ := hrecord.patched hreloc hid
  obtain ⟨instr, hinstr, rfl⟩ := Chain.get?_of_tie? htie
  exact ⟨instr.tie, htie, hmem, Program.gap?_eq hget hreloc hid hinstr⟩

/-! ## Runs -/

namespace EngineM

variable {s t : Session} {gaps : SymbolId → Option UInt64}

/-- A property of sessions that splices, updates and forks keep. -/
structure OperationInvariant (p : Session → Prop) : Prop where
  splice : ∀ {s t : Session} {edit : Edit} {shift : Shift}, SpliceRun s edit shift t → p s → p t
  update : ∀ {s t : Session}, Session.Carries s t → Session.Follows s t → p s → p t
  fork : ∀ {s : Session} {version : VersionInfo} {forked : Program},
    s.program.fork version = .ok forked → p s → p { s with program := forked }

namespace OperationInvariant

variable {p : Session → Prop} {u : Unit}

/-- What splices, updates and forks keep, an operation keeps, also one that ends in an update. -/
theorem operation (hp : OperationInvariant p) {operation : Operation} (hs : p s)
    (h : operation.run s = .ok u t) : p t := by
  cases operation with
  | edit edit =>
    obtain ⟨shift, m, summary, hsplice, hsettle⟩ := edit_ok h
    exact hp.update (Session.Carries.updateRelation.settle hsettle)
      (Session.Follows.updateRelation.settle hsettle) (hp.splice hsplice hs)
  | updateAddresses =>
    obtain ⟨_, h⟩ := discard_ok.mp h
    exact hp.update (Session.Carries.updateRelation.updateAddresses h)
      (Session.Follows.updateRelation.updateAddresses h) hs
  | updateDisplacements =>
    obtain ⟨_, h⟩ := discard_ok.mp h
    exact hp.update (Session.Carries.updateRelation.updateDisplacements h)
      (Session.Follows.updateRelation.updateDisplacements h) hs
  | finalize =>
    obtain ⟨_, h⟩ := discard_ok.mp h
    exact hp.update (Session.Carries.updateRelation.finalize h)
      (Session.Follows.updateRelation.finalize h) hs
  | fork version =>
    simp only [Operation.run, bind_ok, program_ok, liftResult_ok, updateProgram_ok] at h
    obtain ⟨_, _, ⟨rfl, rfl⟩, forked, _, ⟨hfork, rfl⟩, rfl⟩ := h
    exact hp.fork hfork hs

/-- What operations keep, a run of them keeps. -/
theorem operations (hp : OperationInvariant p) {operations : List Operation} (hs : p s)
    (h : operations.forM Operation.run s = .ok u t) : p t := by
  induction operations generalizing s with
  | nil =>
    rw [forM_nil_ok] at h
    exact h ▸ hs
  | cons operation operations ih =>
    obtain ⟨m, hfirst, hrest⟩ := forM_cons_ok.mp h
    exact ih (hp.operation hs hfirst) hrest

end OperationInvariant

/-- Keeping track of records is such a property. -/
theorem tracked_invariant (gaps : SymbolId → Option UInt64) :
    OperationInvariant fun s => ∃ l, s.program.Tracked l gaps where
  splice hsplice hs := hs.elim fun _ hl => hsplice.tracked hl
  update _ hfollows hs := hs.imp fun _ hl => hl.follow hfollows
  fork hfork hs := hs.elim fun _ hl => hl.fork hfork

theorem operations_tracked {operations : List Operation} {u : Unit}
    (hs : ∃ l, s.program.Tracked l gaps) (h : operations.forM Operation.run s = .ok u t) :
    ∃ l, t.program.Tracked l gaps :=
  (tracked_invariant gaps).operations hs h

end EngineM

/-- In every state that is reached from decoded code, a symbol has the address of the instruction that
it points at; value and addend of a relocation that refers to an instruction lead to it; and a
relocation is as far behind the instruction that it patches as it was when it was loaded. -/
theorem symbols_follow_code {decoded : Decoded} {config : Config} {s t : Session}
    {operations : List Operation} {u : Unit} (hpristine : decoded.chain.Pristine)
    (hload : Session.load decoded config = .ok s)
    (h : operations.forM Operation.run s = .ok u t) {symbol : SymbolId} {record : Symbol}
    (hget : t.program.symbols.get? symbol = some record) :
    (∀ id, record.instr = some id →
      ∃ instr, t.program.chain.get? id = some instr ∧ record.value = instr.addr)
      ∧ (∀ reloc id, record.reloc = some reloc → reloc.target = some id →
        ∃ instr, t.program.chain.get? id = some instr
          ∧ record.value + reloc.addend.toUInt64 + reloc.kind.pcBias.toUInt64 = instr.addr)
      ∧ ∀ reloc id, record.reloc = some reloc → reloc.instr = some id →
        ∃ instr, t.program.chain.get? id = some instr
          ∧ ∃ record₀ reloc₀ id₀ instr₀, s.program.symbols.get? symbol = some record₀
            ∧ record₀.reloc = some reloc₀ ∧ reloc₀.instr = some id₀
            ∧ s.program.chain.get? id₀ = some instr₀
            ∧ reloc.offset - instr.addr = reloc₀.offset - instr₀.addr := by
  obtain ⟨l, htracked⟩ := EngineM.operations_tracked (load_tracked hpristine hload) h
  have hrecord := htracked.tied.record hget
  refine ⟨fun id hid => ?_, fun reloc id hreloc hid => ?_, fun reloc id hreloc hid => ?_⟩
  · obtain ⟨tie, htie, -, hvalue⟩ := hrecord.pointed hid
    obtain ⟨instr, hinstr, rfl⟩ := Chain.get?_of_tie? htie
    exact ⟨instr, hinstr, hvalue⟩
  · obtain ⟨-, tie, htie, -, hvalue⟩ := hrecord.referred hreloc hid
    obtain ⟨instr, hinstr, rfl⟩ := Chain.get?_of_tie? htie
    exact ⟨instr, hinstr, hvalue⟩
  · obtain ⟨tie, htie, -, hgap⟩ := hrecord.patched hreloc hid
    obtain ⟨instr, hinstr, rfl⟩ := Chain.get?_of_tie? htie
    simp only [Program.gap?, Option.bind_eq_bind, Option.bind_eq_some_iff, Option.pure_def,
      Option.some.injEq] at hgap
    obtain ⟨record₀, hget₀, reloc₀, hreloc₀, id₀, hid₀, instr₀, hinstr₀, hsame⟩ := hgap
    exact ⟨instr, hinstr, record₀, reloc₀, id₀, instr₀, hget₀, hreloc₀, hid₀, hinstr₀, hsame.symm⟩

/-- A call of what comes behind it, and the symbols and the relocation of its object. -/
def pinned : Decoded where
  arch := .x86_64
  chain := .ofList
    [{ Instruction.decoded 0 [0xE8, 0, 0, 0, 0] 1 .call with sec := 1, target := some ⟨2⟩ },
      { Instruction.decoded 5 [0x90] 1 .nop with sec := 1 },
      { Instruction.decoded 6 [0x90] 1 .nop with sec := 1 }]
  functions := ⟨#[Function.declared "pinned" 1 (some (⟨0⟩, ⟨2⟩)) 0]⟩
  symbols :=
    [{ name := "", info := 0, size := 0, sec := 0, value := 0 },
      { name := "", info := 3, size := 0, sec := 1, value := 0 },
      { name := "end", info := 0x12, size := 1, sec := 1, value := 6 }]
  relocations :=
    [{ sec := 1, offset := 1, symbol := 1, kind := 2, addend := 2, addendKind := .explicit }]

/-- A relocated call, its target displaced by an insertion, the program forked, an instruction removed
from the fork and the fork finalized. -/
theorem symbols_follow_code_pinned : ∃ s t record,
    pinned.chain.Pristine ∧ Session.load pinned ⟨8, true, true, true⟩ = .ok s
      ∧ [Operation.edit (.insertBefore ⟨1⟩ (.synthetic [0x90] 1 .nop) .inserted), .fork ⟨1, "fork"⟩,
          .edit (.remove ⟨2⟩), .finalize].forM Operation.run s = .ok () t
      ∧ t.program.symbols.get? ⟨1⟩ = some record ∧ (record.reloc.bind (·.target)).isSome
      ∧ ∀ reloc id, record.reloc = some reloc → reloc.target = some id →
        ∃ instr, t.program.chain.get? id = some instr
          ∧ record.value + reloc.addend.toUInt64 + reloc.kind.pcBias.toUInt64 = instr.addr := by
  have hpristine : pinned.chain.Pristine := Chain.pristine_ofList (by decide)
  have hreached : (match Session.load pinned ⟨8, true, true, true⟩ with
      | .ok s =>
        match [Operation.edit (.insertBefore ⟨1⟩ (.synthetic [0x90] 1 .nop) .inserted),
          .fork ⟨1, "fork"⟩, .edit (.remove ⟨2⟩), .finalize].forM Operation.run s with
        | .ok _ t => (t.program.symbols.get? ⟨1⟩).any fun record => (record.reloc.bind (·.target)).isSome
        | .error _ _ => false
      | .error _ => false) = true := by
    decide +kernel
  split at hreached
  next s hload =>
    split at hreached
    next _ t h =>
      obtain ⟨record, hget, htarget⟩ := (Option.any_eq_true _ _).mp hreached
      exact ⟨s, t, record, hpristine, hload, h, hget, htarget,
        (symbols_follow_code hpristine hload h hget).2.1⟩
    next => cases hreached
  next => cases hreached

end Splice
