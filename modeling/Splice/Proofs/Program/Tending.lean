import Splice.Proofs.Program.BlockWork
import Splice.Proofs.Program.Rebuilding

/-!
# Programs that are looked after

Every instruction keeps the function and the section that it was given, and what is put in is
given those of its neighbour (`Chain.Inherits`). So where the functions lie within a section
each, together have all of the code, and the blocks lie within a function each, that is so after
any work on the program (`tasks_tended`): edits, with or without blocks, building blocks and
dropping them, and whatever is done to blocks in between.

Most conditions of `Program.Editable` are checks that pass. What the checks do not say is added:
no instruction is detached or empty, each section is in one piece, each function lies in one
section and has an end, and together the functions have all of the code. Edits keep all of that,
and so does work on blocks; only there has to be room (`Program.Roomy`).
-/

namespace Splice

/-! ## Functions and sections -/

/-- Each instruction is stamped with a function of the program, and the instructions of a function are in
one section. -/
structure Program.Allotted (program : Program) (l : List InstrId) : Prop where
  stamped : ∀ id ∈ l, ∃ instr owner, program.chain.get? id = some instr ∧ instr.func = some owner
    ∧ (program.functions.get? owner).isSome
  single : ∀ x ∈ l, ∀ y ∈ l, ∀ a b, program.chain.get? x = some a → program.chain.get? y = some b →
    a.func = b.func → a.sec = b.sec

/-- The instructions of each part are stamped alike. -/
def Chain.Housed (chain : Chain) (parts : List Part) : Prop :=
  ∀ part ∈ parts, ∃ owner, ∀ x ∈ part.run, ∀ instr, chain.get? x = some instr → instr.func = owner

/-- Parts that come of housed parts are housed. -/
theorem Chain.Descends.housed {chain after : Chain} {parts parts' : List Part}
    (h : chain.Descends after parts parts') (hhoused : chain.Housed parts) : after.Housed parts' := by
  intro part hpart
  obtain ⟨old, hold, hinherits⟩ := h part hpart
  obtain ⟨owner, howner⟩ := hhoused old hold
  refine ⟨owner, fun x hx instr hinstr => ?_⟩
  obtain ⟨y, hy, a, b, ha, hb, -, hfunc⟩ := hinherits x hx
  obtain rfl := Option.some.inj (hinstr.symm.trans hb)
  exact hfunc.trans (howner y hy a ha)

namespace Program

variable {program after : Program} {l l' : List InstrId} {parts : List Part}

/-- What comes of allotted instructions is allotted, as long as functions stay. -/
theorem Allotted.inherit (h : program.Allotted l) (hinherits : program.chain.Inherits after.chain l l')
    (hfunctions : ∀ owner, (program.functions.get? owner).isSome → (after.functions.get? owner).isSome) :
    after.Allotted l' := by
  refine ⟨fun id hid => ?_, fun x hx y hy a b ha hb hsame => ?_⟩
  · obtain ⟨y, hy, a, b, ha, hb, -, hfunc⟩ := hinherits id hid
    obtain ⟨a', owner, ha', howner, hsome⟩ := h.stamped y hy
    obtain rfl := Option.some.inj (ha.symm.trans ha')
    exact ⟨b, owner, hb, hfunc.trans howner, hfunctions owner hsome⟩
  · obtain ⟨x', hx', a', a₀, ha', ha₀, hsec, hfunc⟩ := hinherits x hx
    obtain ⟨y', hy', b', b₀, hb', hb₀, hsec', hfunc'⟩ := hinherits y hy
    obtain rfl := Option.some.inj (ha.symm.trans ha₀)
    obtain rfl := Option.some.inj (hb.symm.trans hb₀)
    rw [hsec, hsec']
    exact h.single x' hx' y' hy' a' b' ha' hb' (hfunc.symm.trans (hsame.trans hfunc'))

/-- Functions that own their runs have all of the code, and lie within a section each. -/
theorem Allotted.covered (h : program.Allotted l) (hs : program.Orderly l) : program.Covered where
  single owner function hfunction _ := by
    obtain ⟨run, hspans, hstamped⟩ := hs.owned owner function hfunction
    rw [hspans.instructions hs.spells]
    cases hrun : run with
    | nil => exact ⟨0, fun x hx => absurd hx List.not_mem_nil⟩
    | cons head rest =>
      -- the run consists of the instructions of its owner, which are in one section
      have hget : ∀ x ∈ run, ∃ instr, program.chain.get? x = some instr ∧ instr.func = some owner := by
        intro x hx
        obtain ⟨instr, hinstr⟩ := hs.spells.get?_isSome (hspans.subset hx)
        exact ⟨instr, hinstr, (hstamped x (hspans.subset hx) instr hinstr).mpr hx⟩
      have hhead : head ∈ run := hrun ▸ List.mem_cons_self ..
      obtain ⟨first, hfirst, howner⟩ := hget head hhead
      refine ⟨first.sec, fun x hx => ?_⟩
      obtain ⟨instr, hinstr, hsame⟩ := hget x (hrun ▸ hx)
      exact (Chain.inSection_iff hinstr).mpr (h.single x (hspans.subset (hrun ▸ hx)) head (hspans.subset hhead)
        instr first hinstr hfirst (hsame.trans howner.symm))
  covers id hid := by
    rw [hs.spells.ids_eq] at hid
    obtain ⟨instr, owner, hinstr, howner, hsome⟩ := h.stamped id hid
    obtain ⟨function, hfunction⟩ := Option.isSome_iff_exists.mp hsome
    obtain ⟨run, hspans, hstamped⟩ := hs.owned owner function hfunction
    have hmem := (hstamped id hid instr hinstr).mp howner
    rw [← hspans.instructions hs.spells] at hmem
    obtain ⟨us, vs, -, hfirst, hlast⟩ := hspans
    have hne : run ≠ [] := by
      rintro rfl
      have hspans : function.Spans l [] := ⟨[], l, rfl, hfirst, fun hne => absurd rfl hne⟩
      rw [hspans.instructions hs.spells] at hmem
      cases hmem
    exact ⟨owner, function, hfunction, by rw [hfirst]; exact List.isSome_head?.mpr hne,
      by rw [hlast hne]; exact List.getLast?_isSome.mpr hne, hmem⟩

end Program

/-! ## Programs between edits -/

/-- The code of a program is in place, its functions have all of it and lie within a section each, and its
blocks, if there are any, lie within a function each. -/
structure Program.Tended (program : Program) : Prop where
  inPlace : program.InPlace program.chain.ids []
  filled : program.chain.Filled program.chain.ids
  allotted : program.Allotted program.chain.ids
  housed : ∀ graph, program.graph = some graph →
    ∃ parts, program.Sectioned graph parts [] ∧ program.chain.Housed parts

theorem Program.Tended.spells {program : Program} (h : program.Tended) : program.chain.Spells program.chain.ids :=
  h.inPlace.orderly.spells

/-- A change of the blocks leaves everything else as it is. -/
theorem Program.Tended.regraph {program : Program} {graph : Option BlockGraph} (h : program.Tended)
    (hhoused : ∀ after, graph = some after →
      ∃ parts, { program with graph := graph }.Sectioned after parts [] ∧ program.chain.Housed parts) :
    { program with graph := graph }.Tended where
  inPlace := ⟨⟨⟨h.spells, h.inPlace.orderly.consecutive⟩, h.inPlace.orderly.owned⟩, h.inPlace.attached,
    h.inPlace.listed, ⟨⟨h.inPlace.pending.place⟩, h.inPlace.pending.size, h.inPlace.pending.anchored⟩⟩
  filled := h.filled
  allotted := ⟨h.allotted.stamped, h.allotted.single⟩
  housed := hhoused

namespace EngineM

variable {s t : Session} {anchor old new id : InstrId} {given : Instruction} {shift : Shift} {edit : Edit}
  {l : List InstrId} {parts : List Part} {graph : BlockGraph} {u : Unit}

/-! ## Edits -/

/-- What is put in takes over function and section from the instruction at the site. -/
theorem SpliceRun.inherits (h : SpliceRun s edit shift t) (hkind : edit.resizes = false)
    (hs : s.program.Sited l []) :
    ∃ l', t.program.chain.Spells l' ∧ s.program.chain.Inherits t.program.chain l l'
      ∧ ∀ owner, (s.program.functions.get? owner).isSome → (t.program.functions.get? owner).isSome := by
  obtain ⟨xs, site, ys, rfl, hrun⟩ := h.site hkind hs.gapless.spells hs.attached
  have hfits : ∃ mid found gone placed rest f,
      Program.Fits s.program t.program xs ys mid site found gone placed rest shift
        ∧ t.program.functions = (withOwner s found.func f).program.functions := by
    rcases hrun with ⟨_, _, _, -, run⟩ | ⟨_, _, -, run⟩ | ⟨_, run⟩ | ⟨-, _, run⟩
    · obtain ⟨_, hfits, hfunctions, -⟩ := spliceBefore_fits hs run
      exact ⟨_, _, _, _, _, _, hfits, hfunctions⟩
    · obtain ⟨_, hfits, hfunctions, -⟩ := appendAfter_fits hs run
      exact ⟨_, _, _, _, _, _, hfits, hfunctions⟩
    · obtain ⟨_, _, _, hfits, -, -, hfunctions, -⟩ := spliceInstead_fits hs run
      exact ⟨_, _, _, _, _, _, hfits, hfunctions⟩
    · obtain ⟨_, _, -, hfits, -, hfunctions, -⟩ := excise_fits hs run
      exact ⟨_, _, _, _, _, _, hfits, hfunctions⟩
  obtain ⟨mid, found, gone, placed, rest, f, hfits, hfunctions⟩ := hfits
  refine ⟨_, hfits.spells, hfits.inherits fun x hx => ?_, fun owner howner => ?_⟩
  · rcases mem_mid_iff.mp hx with hmid | hkept
    · exact .inl ⟨hmid, List.mem_append_right _ (List.mem_cons_self ..)⟩
    · exact .inr ⟨hkept, mem_site_iff.mpr (.inr hkept)⟩
  · rw [hfunctions, get?_withOwner]
    split
    · rwa [Option.isSome_map]
    · exact howner

/-- Settling leaves stamps and sections. -/
theorem settle_allotted {summary : UpdateSummary} (hl : s.program.chain.Spells l) (hs : s.program.Allotted l)
    (h : settle shift s = .ok summary t) : t.program.Allotted l := by
  have hcarries := Session.Carries.updateRelation.settle h
  refine hs.inherit (.of_evolves hcarries.chain (fun _ _ _ hab => ⟨hab.sec, hab.func⟩) fun x hx => ?_) fun owner howner => ?_
  · exact Option.isSome_iff_exists.mpr (hl.get?_isSome hx)
  · obtain ⟨function, hfunction⟩ := Option.isSome_iff_exists.mp howner
    obtain ⟨after, hafter, -⟩ := FunctionTable.Carries.get? hcarries.functions hfunction
    rw [hafter]
    rfl

/-- Where there are no blocks, a splice makes none. -/
theorem SpliceRun.unbuilt (h : SpliceRun s edit shift t) (hkind : edit.resizes = false)
    (hgraph : s.program.graph = none) : t.program.graph = none := by
  have hbefore : ∀ {anchor new given retarget}, spliceBefore anchor given retarget s = .ok (new, shift) t →
      t.program.graph = none := by
    intro anchor new given retarget run
    obtain ⟨found, block, c, s₂, s₄, entering, s₅, -, hblock, -, hlink, hextend, henter, ht, -⟩ :=
      spliceBefore_run run
    obtain rfl := blockOf_none hgraph hblock
    obtain ⟨-, rfl⟩ := pure_ok.mp hextend
    have hlinked : s₂.program.graph = s.program.graph := (linkInserted_sameBlocks hlink).trans rfl
    rw [ht, enteringJumpers_sameBlocks henter, graph_withOwner, hlinked, hgraph]
  -- without a graph no instruction is in a block, so every update of blocks is the empty one
  cases h with
  | before run => exact hbefore run
  | after run => exact hbefore run
  | behind run =>
    obtain ⟨found, block, c, s₂, s₄, -, hblock, -, hlink, hextend, ht, -⟩ := appendAfter_run run
    obtain rfl := blockOf_none hgraph hblock
    obtain ⟨-, rfl⟩ := pure_ok.mp hextend
    have hlinked : s₂.program.graph = s.program.graph := (linkInserted_sameBlocks hlink).trans rfl
    rw [ht, graph_withOwner, hlinked, hgraph]
  | «instead» run =>
    obtain ⟨found, block, freed, c, first, last, s₂, head, s₃, s₄, s₆, -, hblock, -, -, -, hplace, -, hrepoint,
      hrehome, hblocks, ht, -⟩ := spliceInstead_run run
    obtain rfl := blockOf_none hgraph hblock
    obtain ⟨-, rfl⟩ := pure_ok.mp hblocks
    have hrehomed : s₄.program.graph = s.program.graph := (rehomeRelocations_sameBlocks hrehome).trans
      ((repointSymbols_sameBlocks hrepoint).trans ((placeInserted_sameBlocks hplace).trans rfl))
    rw [ht, graph_withOwner]
    exact hrehomed.trans hgraph
  | out run =>
    obtain ⟨found, block, heir, s₂, s₃, s₄, c, edited, -, hblock, hcheck, -, hpass, hblocks, -, rfl, -⟩ :=
      excise_run run
    obtain rfl := blockOf_none hgraph hblock
    obtain ⟨-, rfl⟩ := pure_ok.mp hcheck
    obtain ⟨-, rfl⟩ := pure_ok.mp hblocks
    exact graph_withOwner.trans ((passOn_sameBlocks hpass).trans hgraph)
  | resized => cases hkind

/-- An edit leaves a program that is looked after. -/
theorem edit_tended (hkind : edit.resizes = false) (hgiven : ∀ instr ∈ edit.given, instr.bytes ≠ [])
    (hroom : s.program.Roomy) (hs : s.program.Tended) (h : edit.run s = .ok u t) : t.program.Tended := by
  obtain ⟨l, hplace⟩ := edit_inPlace hkind ⟨_, hs.inPlace⟩ h
  obtain rfl := hplace.orderly.spells.ids_eq
  obtain ⟨l', hsited, hfilled⟩ := edit_filled hkind hgiven ⟨_, hs.inPlace.sited, hs.filled⟩ h
  obtain rfl := hsited.gapless.spells.ids_eq
  obtain ⟨shift, m, summary, hsplice, hsettle⟩ := edit_ok h
  obtain ⟨l, hl, hinherits, hfunctions⟩ := hsplice.inherits hkind hs.inPlace.sited
  have hallotted := settle_allotted hl (hs.allotted.inherit hinherits hfunctions) hsettle
  have hcarries := Session.Carries.updateRelation.settle hsettle
  rw [← hl.ids_eq, ← hcarries.chain.ids] at hallotted
  refine ⟨hplace, hfilled, hallotted, fun graph hgraph => ?_⟩
  have hsame : t.program.graph = m.program.graph := (Session.Sustains.updateRelation.settle hsettle).blocks
  cases hbuilt : s.program.graph with
  | none =>
    rw [hsame, hsplice.unbuilt hkind hbuilt] at hgraph
    cases hgraph
  | some before =>
    obtain ⟨parts, hsectioned, hhoused⟩ := hs.housed before hbuilt
    obtain ⟨after, parts', ht, hdescends⟩ := edit_sectioned hkind hgiven hroom hsectioned h
    obtain rfl := Option.some.inj (hgraph.symm.trans ht.built)
    exact ⟨parts', ht, hdescends.housed hhoused⟩

/-! ## Blocks -/

/-- Instructions of a function that passes its check are stamped with it. -/
theorem housed_of_lodged (hl : s.program.chain.Spells l) (hattached : s.program.chain.Attached l)
    (hverified : s.program.verifyFunctions = .ok ()) (h : s.program.Lodged parts) :
    s.program.chain.Housed parts := by
  intro part hpart
  obtain ⟨owner, function, hfunction, hfirst, hlast, hsub⟩ := h part hpart
  obtain ⟨first, hfirst⟩ := Option.isSome_iff_exists.mp hfirst
  obtain ⟨last, hlast⟩ := Option.isSome_iff_exists.mp hlast
  obtain ⟨-, howned⟩ := Program.run_of_verified hl hattached hverified hfunction hfirst hlast
  refine ⟨some owner, fun x hx instr hinstr => ?_⟩
  obtain ⟨instr', hinstr', howner⟩ := howned x (hsub hx)
  obtain rfl := Option.some.inj (hinstr.symm.trans hinstr')
  exact howner

/-- Building blocks cuts the code along its functions, or is refused and leaves the blocks there were. -/
theorem buildBlocks_tended (hroom : s.program.Roomy) (hs : s.program.Tended) :
    (outcome buildBlocks s).program.Tended := by
  cases hrun : buildBlocks s with
  | ok graph t =>
    obtain ⟨-, ht⟩ := buildBlocks_ok hrun
    have hfunctions := hs.inPlace.verifyFunctions
    obtain ⟨parts, hsectioned, -, hlodged, -⟩ := buildBlocks_sectioned hs.inPlace.sited hs.filled hfunctions
      (hs.allotted.covered hs.inPlace.orderly) (fun _ => Nat.le_trans Program.bytesIn_le_sum hroom) hrun
    rw [ht] at hsectioned
    rw [outcome_ok hrun, ht]
    refine hs.regraph fun after hafter => ?_
    obtain rfl := Option.some.inj hafter
    exact ⟨parts, hsectioned, housed_of_lodged hs.spells hs.inPlace.attached hfunctions hlodged⟩
  | error cause t =>
    have hread : program s = .ok s.program s := rfl
    rw [buildBlocks, bind_run hread] at hrun
    cases hbuild : BlockGraph.build s.program.chain s.program.functions with
    | ok graph =>
      rw [hbuild] at hrun
      cases hrun
    | error cause =>
      rw [buildBlocks, outcome, bind_run hread, hbuild]
      exact hs

theorem dropBlocks_tended (hs : s.program.Tended) : (outcome dropBlocks s).program.Tended :=
  hs.regraph fun _ hafter => nomatch hafter

/-- What is done to blocks changes them, and nothing where there are none. -/
theorem outcome_onGraph_regraphed {α : Type} {action : GraphM α} :
    ∃ graph, (outcome (onGraph action) s).program = { s.program with graph := graph }
      ∧ (s.program.graph = none → graph = none) := by
  cases hgraph : s.program.graph with
  | none =>
    have hread : program s = .ok s.program s := rfl
    have hrun : onGraph action s = .error (.graphNotBuilt .editing) s := by
      rw [onGraph, bind_run hread, hgraph]
      rfl
    rw [outcome_error hrun]
    exact ⟨none, by rw [← hgraph], fun _ => rfl⟩
  | some graph =>
    rw [outcome_onGraph hgraph]
    exact ⟨_, rfl, fun hnone => by cases hnone⟩

/-- Work on blocks that is no edit changes the graph alone. -/
theorem work_regraphed (work : BlockWork) : (∃ change, work = .edit change)
    ∨ ∃ graph, (outcome work.run s).program = { s.program with graph := graph }
      ∧ (s.program.graph = none → graph = none) := by
  cases work with
  | split block instr mode =>
    right
    show ∃ graph, (outcome (do discard (onGraph (GraphM.split (← program).chain block instr mode))) s).program = _ ∧ _
    rw [outcome_reads fun current => discard (onGraph (GraphM.split current.chain block instr mode)),
      outcome_discard]
    exact outcome_onGraph_regraphed
  | splitAt instr mode =>
    right
    show ∃ graph, (outcome (do discard (onGraph (GraphM.splitAt (← program).chain instr mode))) s).program = _ ∧ _
    rw [outcome_reads fun current => discard (onGraph (GraphM.splitAt current.chain instr mode)),
      outcome_discard]
    exact outcome_onGraph_regraphed
  | addEdge source target kind =>
    right
    rw [BlockWork.run, outcome_discard]
    exact outcome_onGraph_regraphed
  | retargetEdge edge target => exact .inr outcome_onGraph_regraphed
  | discoverLoops =>
    right
    rw [BlockWork.run, outcome_discard]
    exact outcome_onGraph_regraphed
  | edit change => exact .inl ⟨change, rfl⟩

/-- Work on blocks that may be done leaves a program tended. -/
theorem work_tended {work : BlockWork} (hroom : s.program.Roomy) (hallowed : work.Allowed s)
    (hs : s.program.Tended) : (outcome work.run s).program.Tended := by
  rcases work_regraphed (s := s) work with ⟨change, rfl⟩ | ⟨graph, hprogram, hnone⟩
  · obtain ⟨hkind, hgiven, hsucceeds⟩ := hallowed
    obtain ⟨_, h⟩ := Succeeds.ok hsucceeds
    exact edit_tended hkind hgiven hroom hs h
  · rw [hprogram]
    refine hs.regraph fun after hafter => ?_
    cases hbuilt : s.program.graph with
    | none =>
      rw [hnone hbuilt] at hafter
      cases hafter
    | some before =>
      obtain ⟨parts, hsectioned, hhoused⟩ := hs.housed before hbuilt
      obtain ⟨after', parts', ht, hdescends⟩ := work_sectioned hroom hallowed hsectioned
      rw [hprogram] at ht hdescends
      obtain rfl := Option.some.inj (hafter.symm.trans ht.built)
      exact ⟨parts', ht, hdescends.housed hhoused⟩

end EngineM

/-! ## Tasks -/

/-- What may be done to a program, with blocks or without. -/
inductive Task where
  | buildBlocks
  | dropBlocks
  | work (work : BlockWork)
deriving DecidableEq

namespace Task

def run : Task → EngineM Unit
  | buildBlocks => discard EngineM.buildBlocks
  | dropBlocks => discard EngineM.dropBlocks
  | work job => job.run

/-- Blocks may be built, dropped and worked on, and edits that succeed may be made. -/
def Allowed (s : Session) : Task → Prop
  | buildBlocks | dropBlocks => True
  | work job => job.Allowed s

instance (s : Session) : (task : Task) → Decidable (task.Allowed s)
  | buildBlocks | dropBlocks => .isTrue trivial
  | work job => inferInstanceAs (Decidable (job.Allowed s))

/-- One task after the other leads from `s` to `t`, and there is room for the code all along. -/
def Leads : (s : Session) → List Task → (t : Session) → Prop
  | s, [], t => s.program.Roomy ∧ t = s
  | s, task :: rest, t => s.program.Roomy ∧ task.Allowed s ∧ Leads (outcome task.run s) rest t

end Task

namespace EngineM

variable {s t : Session} {tasks : List Task}

/-- A task that may be done leaves a program tended. -/
theorem task_tended {task : Task} (hroom : s.program.Roomy) (hallowed : task.Allowed s)
    (hs : s.program.Tended) : (outcome task.run s).program.Tended := by
  cases task with
  | buildBlocks =>
    rw [Task.run, outcome_discard]
    exact buildBlocks_tended hroom hs
  | dropBlocks =>
    rw [Task.run, outcome_discard]
    exact dropBlocks_tended hs
  | work job => exact work_tended hroom hallowed hs

/-- Tasks one after the other leave a program tended. -/
theorem tasks_tended (h : Task.Leads s tasks t) (hs : s.program.Tended) :
    t.program.Roomy ∧ t.program.Tended := by
  induction tasks generalizing s with
  | nil =>
    obtain ⟨hroom, rfl⟩ := h
    exact ⟨hroom, hs⟩
  | cons task tasks ih =>
    obtain ⟨hroom, hallowed, hrest⟩ := h
    exact ih hrest (task_tended hroom hallowed hs)

end EngineM

/-! ## Where to begin -/

/-- A program that passes all checks, without detached or empty instructions and with each section in one
piece, the functions of which lie in one section each, have an end and together have all of the code.
Its blocks, if there are any, lie within a function each. -/
structure Program.Editable (program : Program) : Prop extends Program.Ready program where
  covered : program.Covered
  bounded : ∀ owner function, program.functions.get? owner = some function →
    function.isDefined = true → function.last.isSome = true
  lodged : ∀ graph, program.graph = some graph →
    ∃ parts, graph.Cuts parts ∧ graph.Wired ∧ Part.code parts = program.chain.ids ∧ program.Lodged parts

namespace Program.Editable

variable {program : Program}

/-- In an editable program the instructions of a function are stamped with it. -/
theorem stamped (h : program.Editable) {id : InstrId} {owner : FuncId} {function : Function}
    (hfunction : program.functions.get? owner = some function) (hid : id ∈ function.instructions program.chain) :
    ∃ instr, program.chain.get? id = some instr ∧ instr.func = some owner := by
  cases hfirst : function.first with
  | none =>
    rw [Function.instructions, hfirst] at hid
    cases hid
  | some first =>
    have hdefined : function.isDefined = true := by rw [Function.isDefined, hfirst]; rfl
    obtain ⟨last, hlast⟩ := Option.isSome_iff_exists.mp (h.bounded owner function hfunction hdefined)
    exact (run_of_verified h.sited.gapless.spells h.attached h.functions hfunction hfirst hlast).2 id hid

/-- An editable program has its functions as a regular one has: all code belongs to one of them, so what
is stamped with a function lies in its run. -/
theorem regular (h : program.Editable) : program.Regular where
  wellFormed := h.sited.gapless.spells.wellFormed
  attached := h.attached
  addresses := (verify_parts h.verified).2.1
  functions := h.functions
  references := (verify_parts h.verified).2.2.2.1
  consecutive := h.consecutive
  stamped id hid instr owner hinstr := by
    constructor
    · intro howner
      obtain ⟨other, function, hfunction, -, -, hin⟩ := h.covered.covers id hid
      obtain ⟨instr', hinstr', hsame⟩ := h.stamped hfunction hin
      obtain rfl := Option.some.inj (hinstr.symm.trans hinstr')
      obtain rfl := Option.some.inj (howner.symm.trans hsame)
      exact ⟨function, hfunction, hin⟩
    · rintro ⟨function, hfunction, hin⟩
      obtain ⟨instr', hinstr', howner⟩ := h.stamped hfunction hin
      obtain rfl := Option.some.inj (hinstr.symm.trans hinstr')
      exact howner
  bounded := h.bounded

/-- In an editable program every instruction has its function and that lies in a section. -/
theorem allotted (h : program.Editable) : program.Allotted program.chain.ids where
  stamped id hid := by
    obtain ⟨owner, function, hfunction, -, -, hin⟩ := h.covered.covers id hid
    obtain ⟨instr, hinstr, howner⟩ := h.stamped hfunction hin
    exact ⟨instr, owner, hinstr, howner, by rw [hfunction]; rfl⟩
  single x hx y hy a b ha hb hsame := by
    obtain ⟨owner, function, hfunction, -, hlast, hin⟩ := h.covered.covers x hx
    obtain ⟨a', ha', howner⟩ := h.stamped hfunction hin
    obtain rfl := Option.some.inj (ha.symm.trans ha')
    obtain ⟨function', hfunction', hin'⟩ := (h.regular.stamped y hy b owner hb).mp (hsame.symm.trans howner)
    obtain rfl := Option.some.inj (hfunction.symm.trans hfunction')
    obtain ⟨sec, hsec⟩ := h.covered.single owner function hfunction hlast
    rw [(Chain.inSection_iff ha).mp (hsec x hin), (Chain.inSection_iff hb).mp (hsec y hin')]

/-- An editable program is tended. -/
theorem tended (h : program.Editable) : program.Tended where
  inPlace := h.regular.inPlace
  filled := h.filled
  allotted := h.allotted
  housed graph hgraph := by
    obtain ⟨parts, hcuts, hwired, hcode, hlodged⟩ := h.lodged graph hgraph
    refine ⟨parts, ⟨⟨hcode ▸ h.sited, hcode ▸ h.filled, hgraph, hcuts, hwired⟩, hlodged.uniform h.covered⟩, ?_⟩
    exact EngineM.housed_of_lodged (s := ⟨program, .empty⟩) h.sited.gapless.spells h.attached h.functions hlodged

end Program.Editable

end Splice
