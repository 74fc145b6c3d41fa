import Splice.Proofs.Program.BackReferences
import Splice.Proofs.Program.Copying
import Splice.Proofs.Program.Ownership

/-!
# Forks

A fork of a verified program passes all checks and is the program under the names that packing
gives to its instructions (`Copied`), if and only if everything that is named in the program is
met by walking over its code (`fork_copies`). `isLinked` answers for that where it is right. It
goes by the link to the instruction in front, which an instruction also has that was spliced in
next to one out of the list; such a one can be the target of a jump without any check failing,
and then the program cannot be forked (`fork_refuses_stray`).

Each check asks for what the names lead to and never for the names, so it is carried over to the
copy by itself.
-/

namespace Splice

namespace Program

/-- `fork` is the program under the names that packing gives to its instructions. -/
structure Copied (program fork : Program) : Prop where
  /-- The chain is the packed one, with the new names that come with it. -/
  compact : program.chain.compact = .ok (fork.chain, program.chain.packedNames)
  names : ∀ id ∈ program.chain.ids,
    program.chain.packedNames.get? id = some (program.chain.packedName id)
  /-- Instructions are numbered in the order of the code. -/
  dense : fork.chain.ids = (List.range program.chain.ids.length).map Handle.mk
  order : fork.chain.ids = program.chain.ids.map program.chain.packedName
  /-- But for its references, each instruction is what it was. -/
  code : program.chain.PacksInto fork.chain
  functions : fork.functions.functions
    = program.functions.functions.map (·.renamed program.chain.packedName)
  symbols : fork.symbols = program.symbols.renamed program.chain.packedName
  /-- What is written out of the relocations is the same. -/
  resolved : fork.symbols.resolved = program.symbols.resolved
  redirects : fork.redirects = program.redirects.renamed program.chain.packedName
  /-- Every linked jumper lands where it did for every linked target. -/
  lands : ∀ jumper ∈ program.chain.ids, ∀ logical ∈ program.chain.ids,
    fork.redirects.resolve (program.chain.packedName jumper) (program.chain.packedName logical)
      = program.chain.packedName (program.redirects.resolve jumper logical)
  arch : fork.arch = program.arch
  bases : fork.bases = program.bases
  config : fork.config = program.config
  warnings : fork.warnings = program.warnings
  unbuilt : fork.graph = none

variable {program fork : Program} {version : VersionInfo} {id : InstrId} {ids : List InstrId}
  {sec : SectionId}

/-- Packing copies: names change, and nothing else that is read through names. -/
theorem packed_copied (hthreaded : program.chain.Threaded)
    (hwithin : program.Within (· ∈ program.chain.ids)) (hclosed : program.chain.Closed)
    (version : VersionInfo) : program.Copied (program.packed version) := by
  have hcode : program.chain.PacksInto (program.packed version).chain := hthreaded.packsInto
  refine ⟨hthreaded.compact_ok_iff.mpr ⟨hclosed, rfl, rfl⟩, fun id hid => ?_, ?_, hcode.spells.ids_eq, hcode, rfl,
    rfl, SymbolTable.resolved_renamed .., rfl, fun jumper hjumper logical hlogical => ?_, rfl, rfl, rfl, rfl, rfl⟩
  · rw [Chain.packedNames_get?, if_pos hid]
  · rw [hcode.spells.ids_eq, Chain.map_packedName hthreaded.nodup]
  · exact hwithin.redirects.resolve_renamed (fun _ _ => Chain.packedName_inj) hjumper hlogical

/-- The check of the records asks for their names and for whom they belong to. -/
theorem checkRecords_map {f : Symbol → Symbol}
    (hf : ∀ symbol, (f symbol).base = symbol.base ∧ (f symbol).duplicate = symbol.duplicate
      ∧ (f symbol).name = symbol.name) {finished : List SymbolId} {current : Option SymbolId}
    {entries : List (SymbolId × Symbol)} :
    checkRecords finished current (entries.map fun entry => (entry.1, f entry.2))
      = checkRecords finished current entries := by
  induction entries generalizing finished current with
  | nil => rfl
  | cons entry entries ih =>
    obtain ⟨id, symbol⟩ := entry
    obtain ⟨hbase, hduplicate, hname⟩ := hf symbol
    rw [List.map_cons, checkRecords, checkRecords]
    simp only [hbase, hduplicate, hname, ih]

namespace Copied

/-- An instruction has in the fork the size that it has. -/
theorem sizeOf (h : program.Copied fork) (hid : id ∈ program.chain.ids) :
    fork.chain.sizeOf (program.chain.packedName id) = program.chain.sizeOf id := by
  obtain ⟨instr, hinstr, hpacked⟩ := h.code.instr id hid
  rw [Chain.sizeOf_eq hinstr, Chain.sizeOf_eq hpacked]
  rfl

/-- As many bytes stand in the fork as in the program. -/
theorem extent (h : program.Copied fork) (hids : ids ⊆ program.chain.ids) :
    fork.chain.extent sec (ids.map program.chain.packedName) = program.chain.extent sec ids := by
  rw [Chain.extent, Chain.extent, List.map_map]
  congr 1
  refine List.map_congr_left fun id hid => ?_
  obtain ⟨instr, hinstr, hpacked⟩ := h.code.instr id (hids hid)
  have hsection : fork.chain.inSection sec (program.chain.packedName id) = program.chain.inSection sec id := by
    rw [Chain.inSection, Chain.inSection, hinstr, hpacked]
    rfl
  rw [Function.comp_apply, hsection, h.sizeOf (hids hid)]

/-- The fork is laid out if the program is, since the same bytes stand in front of each instruction. -/
theorem laidOut (h : program.Copied fork) (hlaid : program.LaidOut program.chain.ids) :
    fork.LaidOut fork.chain.ids := by
  intro front new rest instr hsplit hinstr
  rw [h.order, List.map_eq_append_iff] at hsplit
  obtain ⟨xs, zs, hids, rfl, hzs⟩ := hsplit
  obtain ⟨id, ys, rfl, rfl, rfl⟩ := List.map_eq_cons_iff.mp hzs
  have hmem : id ∈ program.chain.ids := hids ▸ List.mem_append_right _ (List.mem_cons_self ..)
  obtain ⟨found, hfound, hpacked⟩ := h.code.instr id hmem
  obtain rfl := Option.some.inj (hinstr.symm.trans hpacked)
  have hplace := hlaid xs id ys found hids hfound
  rw [place] at hplace ⊢
  rw [h.bases, h.extent (hids ▸ List.subset_append_left ..)]
  exact hplace

theorem instructions (h : program.Copied fork) (hthreaded : program.chain.Threaded) {function : Function}
    (hfirst : ∀ first ∈ function.first, first ∈ program.chain.ids) :
    (function.renamed program.chain.packedName).instructions fork.chain
      = (function.instructions program.chain).map program.chain.packedName :=
  h.code.run hthreaded hfirst

/-- The fork passes the check of functions if the program does: their runs are the same under new
names. -/
theorem verifyFunctions (h : program.Copied fork) (hthreaded : program.chain.Threaded)
    (hwithin : program.functions.Within (· ∈ program.chain.ids))
    (hverify : program.verifyFunctions = .ok ()) : fork.verifyFunctions = .ok () := by
  refine verifyFunctions_ok.mpr fun id function hfunction => ?_
  rw [FunctionTable.get?, h.functions, Array.getElem?_map, Option.map_eq_some_iff] at hfunction
  obtain ⟨old, hold, rfl⟩ := hfunction
  have hfirst := (hwithin old (Array.mem_of_getElem? hold)).1
  have hcheck := verifyFunction_ok.mp (verifyFunctions_ok.mp hverify id old hold)
  refine verifyFunction_ok.mpr fun first' last' hfirst' hlast' => ?_
  obtain ⟨first, hof, rfl⟩ := Option.map_eq_some_iff.mp hfirst'
  obtain ⟨last, hto, rfl⟩ := Option.map_eq_some_iff.mp hlast'
  obtain ⟨howned, hreached, ⟨instr, hinstr, haddr⟩, hsize⟩ := hcheck first last hof hto
  have hsub := hthreaded.run_subset hfirst old.last
  rw [h.instructions hthreaded hfirst]
  refine ⟨fun x hx => ?_, List.mem_map_of_mem hreached, ?_, ?_⟩
  · obtain ⟨y, hy, rfl⟩ := List.mem_map.mp hx
    obtain ⟨found, hfound, hfunc⟩ := howned y hy
    exact ⟨_, h.code.get? (hsub hy) hfound, hfunc⟩
  · exact ⟨_, h.code.get? (hfirst first hof) hinstr, haddr⟩
  · rw [List.map_map]
    refine hsize.trans (congrArg List.sum (List.map_congr_left fun y hy => ?_))
    exact (h.sizeOf (hsub hy)).symm

/-- A target that lists its jumper does so in the fork. -/
theorem checkTarget (h : program.Copied fork) {target : InstrId} (hid : id ∈ program.chain.ids)
    (htarget : target ∈ program.chain.ids) (hcheck : Program.checkTarget program.chain id target = .ok ()) :
    Program.checkTarget fork.chain (program.chain.packedName id) (program.chain.packedName target) = .ok () := by
  obtain ⟨-, found, hfound, hlisted⟩ := checkTarget_ok.mp hcheck
  exact checkTarget_ok.mpr ⟨h.code.spells.isLinked_iff.mpr (List.mem_map_of_mem htarget), _,
    h.code.get? htarget hfound, Chain.mem_targetedBy_packed.mpr ⟨id, hlisted, hid, rfl⟩⟩

/-- The fork passes the check of references if the program does. -/
theorem verifyReferences (h : program.Copied fork) (hclosed : program.chain.Closed)
    (hverify : program.verifyReferences = .ok ()) : fork.verifyReferences = .ok () := by
  refine verifyReferences_iff.mpr fun new hnew packed hpacked => ?_
  obtain ⟨id, hid, instr, hinstr, rfl, rfl⟩ := h.code.get?_of hnew hpacked
  obtain ⟨htargets, hjumpers, hrelocs, hpointers⟩ :=
    verifyReference_ok.mp (verifyReferences_iff.mp hverify id hid instr hinstr)
  refine verifyReference_ok.mpr ⟨fun x hx => ?_, fun x hx => ?_, fun symbol hsymbol => ?_, fun symbol hsymbol => ?_⟩
  · obtain ⟨target, htarget, rfl⟩ : ∃ target ∈ instr.references, program.chain.packedName target = x := by
      rwa [Chain.references_packed, List.mem_map] at hx
    exact h.checkTarget hid (hclosed id hid instr hinstr target htarget) (htargets target htarget)
  · obtain ⟨jumper, hjumper, hlinked, rfl⟩ := Chain.mem_targetedBy_packed.mp hx
    obtain ⟨source, hsource, hrefers⟩ := hjumpers jumper hjumper
    refine ⟨_, h.code.get? hlinked hsource, ?_⟩
    rw [Chain.references_packed]
    exact List.mem_map_of_mem hrefers
  · obtain ⟨record, hrecord, hpatches⟩ := hrelocs symbol hsymbol
    exact ⟨_, by rw [h.symbols, SymbolTable.get?_renamed, hrecord]; rfl, hpatches.renamed rfl⟩
  · obtain ⟨record, hrecord, hpoints⟩ := hpointers symbol hsymbol
    exact ⟨_, by rw [h.symbols, SymbolTable.get?_renamed, hrecord]; rfl, hpoints.renamed rfl⟩

/-- A displacement of the fork is right if that of the program is: both ends have the same addresses. -/
theorem encodes (h : program.Copied fork) (hclosed : program.chain.Closed)
    (hwithin : program.redirects.Within (· ∈ program.chain.ids)) (hid : id ∈ program.chain.ids)
    (hencodes : program.Encodes id) : fork.Encodes (program.chain.packedName id) := by
  intro packed target hpacked htarget hdirect
  obtain ⟨instr, hinstr, hget⟩ := h.code.instr id hid
  obtain rfl := Option.some.inj (hpacked.symm.trans hget)
  obtain ⟨logical, hlogical, rfl⟩ := Option.map_eq_some_iff.mp htarget
  have hlinked : logical ∈ program.chain.ids :=
    hclosed id hid instr hinstr logical (List.mem_append_left _ (Option.mem_toList.mpr hlogical))
  have hdirect' : instr.isDirectTransfer = true := by
    rw [← hdirect, Instruction.isDirectTransfer, Instruction.isDirectTransfer, htarget, hlogical]
    rfl
  obtain ⟨physical, hphysical, hencoded⟩ := hencodes instr logical hinstr hlogical hdirect'
  rw [h.lands id hid logical hlinked]
  exact ⟨_, h.code.get? (hwithin.resolve hlinked id) hphysical, hencoded⟩

/-- The fork passes the check of symbols, which names no instructions. -/
theorem verifySymbols (h : program.Copied fork) (hverify : program.verifySymbols = .ok ()) :
    fork.verifySymbols = .ok () := by
  rw [Program.verifySymbols, h.symbols, SymbolTable.entries_renamed, checkRecords_map]
  · exact hverify
  · intro symbol
    exact ⟨rfl, rfl, rfl⟩

/-- What passes all checks passes them under other names. -/
theorem verify (h : program.Copied fork) (hthreaded : program.chain.Threaded)
    (hwithin : program.Within (· ∈ program.chain.ids)) (hclosed : program.chain.Closed)
    (hverify : program.verify = .ok ()) : fork.verify = .ok () := by
  obtain ⟨-, haddresses, hfunctions, hreferences, hdisplacements⟩ := verify_parts hverify
  refine verify_of_parts (verifyChain_ok h.code.spells)
    (verifyAddresses_ok.mpr (h.laidOut (verifyAddresses_ok.mp haddresses)))
    (h.verifyFunctions hthreaded hwithin.functions hfunctions) (h.verifyReferences hclosed hreferences)
    (verifyDisplacements_ok.mpr fun new hnew => ?_) (h.verifySymbols ?_) fun hgraph => ?_
  · rw [h.order] at hnew
    obtain ⟨id, hid, rfl⟩ := List.mem_map.mp hnew
    exact h.encodes hclosed hwithin.redirects hid (verifyDisplacements_ok.mp hdisplacements id hid)
  · exact verifySymbols_of_verify hverify
  · rw [h.unbuilt] at hgraph
    cases hgraph

end Copied

/-- If whatever counts as linked is met by walking, then so is what a verified program refers to. -/
theorem closed_of_verify (hverify : program.verify = .ok ())
    (hmet : ∀ id, program.chain.isLinked id = true → id ∈ program.chain.ids) : program.chain.Closed := by
  obtain ⟨-, -, -, hreferences, -⟩ := verify_parts hverify
  intro id hid instr hinstr target htarget
  obtain ⟨htargets, -⟩ := verifyReference_ok.mp (verifyReferences_iff.mp hreferences id hid instr hinstr)
  exact hmet target (checkTarget_ok.mp (htargets target htarget)).1

/-- A verified program has a fork that is a copy of it and verified too, if and only if function bounds,
redirects, records and references name nothing but instructions that are met by walking. Given that
they name only what counts as linked, that is so wherever this means to be met by walking. -/
theorem fork_copies (hverify : program.verify = .ok ())
    (hlinked : program.Within fun id => program.chain.isLinked id = true) :
    ((∃ fork, program.fork version = .ok fork ∧ program.Copied fork ∧ fork.version = version
        ∧ fork.verify = .ok ())
      ↔ program.Within (· ∈ program.chain.ids) ∧ program.chain.Closed)
      ∧ ((∀ id, program.chain.isLinked id = true → id ∈ program.chain.ids) →
        program.Within (· ∈ program.chain.ids) ∧ program.chain.Closed) := by
  have hthreaded := (verifyChain_threaded (verify_parts hverify).1).1
  refine ⟨⟨fun h => ?_, fun h => ?_⟩, fun hmet => ⟨hlinked.imp hmet, closed_of_verify hverify hmet⟩⟩
  · obtain ⟨fork, hfork, hcopied, -⟩ := h
    obtain ⟨hclosed, hbounds, rfl⟩ := (fork_ok_iff hthreaded).mp hfork
    exact ⟨⟨hbounds, SymbolTable.rename_eq_iff.mp hcopied.symbols,
      Redirects.rename_eq_iff.mp hcopied.redirects⟩, hclosed⟩
  · obtain ⟨hwithin, hclosed⟩ := h
    have hcopied := packed_copied hthreaded hwithin hclosed version
    exact ⟨_, fork_packed hthreaded hwithin hclosed, hcopied, rfl,
      hcopied.verify hthreaded hwithin hclosed hverify⟩

/-- The code of `pinned` with an instruction in front of the target of its call and without the one
behind the call. -/
def reworked : Program :=
  match Session.load pinned ⟨8, true, true, true⟩ with
  | .ok s =>
    (outcome ([Operation.edit (.insertBefore ⟨2⟩ (.synthetic [0x90] 1 .nop) .inserted),
      .edit (.remove ⟨1⟩), .finalize].forM Operation.run) s).program
  | .error _ => default

/-- The reworked code is forked, with its names packed and its redirect renamed. -/
theorem fork_copies_reworked : reworked.verify = .ok ()
    ∧ (reworked.Within fun id => reworked.chain.isLinked id = true)
    ∧ reworked.chain.ids = [⟨0⟩, ⟨3⟩, ⟨2⟩] ∧ reworked.redirects.targets = [(⟨2⟩, ⟨3⟩)]
    ∧ ∃ fork, reworked.fork ⟨1, "fork"⟩ = .ok fork ∧ reworked.Copied fork ∧ fork.version = ⟨1, "fork"⟩
      ∧ fork.verify = .ok () := by
  have hverify : reworked.verify = .ok () := isOk_iff.mp (by decide +kernel)
  have hlinked : reworked.Within fun id => reworked.chain.isLinked id = true := by decide +kernel
  have hnamed : reworked.Within (· ∈ reworked.chain.ids) ∧ reworked.chain.Closed := by decide +kernel
  exact ⟨hverify, hlinked, by decide +kernel, by decide +kernel, (fork_copies hverify hlinked).1.mpr hnamed⟩

/-- Takes both instructions out of the list, puts one behind the second of them and then two around
the first, and has the one in front jump to the one behind the second. -/
def spliceStray : ChainM Unit := do
  let plain := Instruction.decoded 0 [0x90] 1 .nop
  ChainM.unlink ⟨0⟩
  ChainM.unlink ⟨1⟩
  let stray ← ChainM.insertAfter ⟨1⟩ { plain with sec := 2 }
  let jumper ← ChainM.insertBefore ⟨0⟩ { Instruction.decoded 0 [0xEB, 0] 1 .jump with sec := 1 }
  let _ ← ChainM.insertAfter ⟨0⟩ { plain with sec := 1 }
  ChainM.linkTarget jumper stray

/-- Two instructions after that, laid out anew. -/
def straying : Program :=
  let code : Chain := .ofList
    [{ Instruction.decoded 0 [0x90] 1 .nop with sec := 1 },
      { Instruction.decoded 1 [0x90] 1 .nop with sec := 1 }]
  match Session.load ⟨.x86_64, code, .empty, [], []⟩ ⟨8, true, true, true⟩ with
  | .ok s => (outcome (do EngineM.onChain spliceStray; discard EngineM.updateAddresses) s).program
  | .error _ => default

/-- The target of the jump counts as linked, but walking does not come by it. -/
theorem fork_refuses_stray : straying.verify = .ok ()
    ∧ straying.Within (fun id => straying.chain.isLinked id = true)
    ∧ straying.chain.isLinked ⟨2⟩ = true ∧ straying.chain.ids = [⟨3⟩, ⟨0⟩, ⟨4⟩]
    ∧ straying.fork ⟨1, "fork"⟩ = .error (.chain (.missingInstruction ⟨2⟩)) := by
  exact ⟨isOk_iff.mp (by decide +kernel), by decide +kernel, by decide +kernel, by decide +kernel,
    by decide +kernel⟩

end Program

end Splice
