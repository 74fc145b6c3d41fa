import Splice.Proofs.Program.Agreement
import Splice.Proofs.Program.BlockSplices
import Splice.Proofs.Program.Update

/-!
# Work on a program with blocks

Blocks that were built stay blocks of the code, whatever is done to them and to the code:
splits, new edges, edges that are led elsewhere, the search for loops, and edits
(`verifyBlocks_of_works`). What is relied on is that the block of an instruction is found by
its address. An edit looks for it before it touches anything, and leaves the code laid out
when it is done (`edit_sectioned`), so the next one finds its block again.

The invariant is `Program.Sectioned`: the blocks cut the code, and each lies within a section.
Besides that there has to be room: the code has no more bytes than there are addresses, before
each work (`Program.Roomy`). Works may be refused and leave things half done, edits excepted; an
edit may put in nothing empty.
-/

namespace Splice

/-- A program with blocks, each of which lies within a section. -/
structure Program.Sectioned (program : Program) (graph : BlockGraph) (parts : List Part)
    (shifts : List Shift) : Prop extends Program.Blocked program graph parts shifts where
  uniform : program.chain.Uniform parts

theorem Program.Sectioned.finds {program : Program} {graph : BlockGraph} {parts : List Part}
    (h : program.Sectioned graph parts []) (hroom : program.Roomy) : graph.Finds program.chain parts :=
  (h.addressed hroom).finds h.cuts h.uniform

/-! ## Updates -/

/-- The sessions have the same blocks, and no instruction has lost all its bytes. -/
structure Session.Sustains (s t : Session) : Prop where
  blocks : Session.SameBlocks s t
  filled : s.program.chain.Evolves (fun _ a b => a.bytes ≠ [] → b.bytes ≠ []) t.program.chain

theorem Session.Sustains.of_chain {s : Session} {f : InstrId → Instruction → Instruction}
    (h : ∀ id (instr : Instruction), instr.bytes ≠ [] → (f id instr).bytes ≠ []) :
    Session.Sustains s (s.withChain (s.program.chain.adjust f)) :=
  ⟨rfl, .of_adjust fun id instr _ => h id instr⟩

/-- Each change that the passes make keeps the blocks and takes no instruction all its bytes. -/
theorem Session.Sustains.updateRelation : EngineM.UpdateRelation Session.Sustains where
  refl _ := ⟨rfl, .refl (fun _ _ h => h) _⟩
  trans h k := ⟨k.blocks.trans h.blocks, h.filled.trans (fun _ _ _ _ hab hbc h => hbc (hab h)) k.filled⟩
  move id addr := by
    intro s moved t h
    obtain ⟨_, -, -, -, hsame⟩ := EngineM.moveInstruction_ok h
    refine ⟨EngineM.moveInstruction_sameBlocks h, ?_⟩
    rw [hsame.chain]
    refine .of_adjust fun x instr _ hne => ?_
    unfold Chain.only
    split <;> exact hne
  recode s id f hf := .of_chain fun x instr h => by
    unfold Chain.only
    split
    · exact (hf instr).filled
    · exact h
  measure s functions _ := ⟨rfl, .refl (fun _ _ h => h) _⟩
  same := by
    intro s t h
    refine ⟨?_, ?_⟩
    · rw [Session.SameBlocks, h]
    · rw [h]
      exact .refl (fun _ _ h => h) _

namespace EngineM

variable {s t : Session} {graph : BlockGraph} {parts : List Part} {shift : Shift} {edit : Edit}

/-! ## Edits -/

/-- Each splice leaves the program with blocks, but for what its shift is about to move, and its sections
in their order. -/
theorem SpliceRun.sectioned (h : SpliceRun s edit shift t) (hkind : edit.resizes = false)
    (hs : s.program.Sectioned graph parts []) (hfinds : graph.Finds s.program.chain parts)
    (hgiven : ∀ instr ∈ edit.given, instr.bytes ≠ []) :
    ∃ after parts', t.program.Sectioned after parts' [shift]
      ∧ s.program.chain.Descends t.program.chain parts parts'
      ∧ (graph.Ranks s.program.chain (Part.code parts) → after.Ranks t.program.chain (Part.code parts')) := by
  obtain ⟨xs, site, ys, -, hrun⟩ := h.site hkind hs.spells hs.sited.attached
  rcases hrun with ⟨given, _, _, heq, run⟩ | ⟨given, _, heq, run⟩ | ⟨_, run⟩ | ⟨-, _, run⟩
  · obtain ⟨_, _, _, _, _, after, parts, -, hblocked, -, hdescends, hranks⟩ :=
      spliceBefore_blocked hs.toBlocked hfinds (hgiven given (by simp [heq])) run
    exact ⟨after, parts, ⟨hblocked, hdescends.uniform hs.uniform⟩, hdescends, hranks⟩
  · obtain ⟨_, _, _, _, _, after, -, hblocked, -, hdescends, hranks⟩ :=
      appendAfter_blocked hs.toBlocked hfinds (hgiven given (by simp [heq])) run
    exact ⟨after, _, ⟨hblocked, hdescends.uniform hs.uniform⟩, hdescends, hranks⟩
  · obtain ⟨_, _, _, _, _, after, -, hblocked, hdescends, hranks⟩ :=
      spliceInstead_blocked hs.toBlocked hfinds hgiven run
    exact ⟨after, _, ⟨hblocked, hdescends.uniform hs.uniform⟩, hdescends, hranks⟩
  · obtain ⟨_, _, _, _, _, after, -, hblocked, hdescends, hranks⟩ := excise_blocked hs.toBlocked hfinds run
    exact ⟨after, _, ⟨hblocked, hdescends.uniform hs.uniform⟩, hdescends, hranks hs.uniform⟩

/-- Settling a shift leaves the blocks alone and brings the code in place. -/
theorem settle_blocked {summary : UpdateSummary} (hs : s.program.Blocked graph parts [shift])
    (h : settle shift s = .ok summary t) : t.program.Blocked graph parts [] := by
  have hsustains := Session.Sustains.updateRelation.settle h
  have hcarries := Session.Carries.updateRelation.settle h
  refine ⟨hs.sited.carry hcarries (settle_owing hs.sited.gapless h hs.sited.owing), fun id hid => ?_,
    hsustains.blocks.trans hs.built, hs.cuts, hs.wired⟩
  obtain ⟨before, hbefore, hne⟩ := hs.filled id hid
  obtain ⟨instr, hinstr, hkept⟩ := hsustains.filled.get? hbefore
  exact ⟨instr, hinstr, hkept hne⟩

/-- Carrying out what is left to shift keeps the blocks and each part in its section. -/
theorem settle_sectioned {summary : UpdateSummary} (hs : s.program.Sectioned graph parts [shift])
    (h : settle shift s = .ok summary t) :
    t.program.Sectioned graph parts [] ∧ s.program.chain.Descends t.program.chain parts parts := by
  have hdescends := Chain.Descends.of_evolves hs.spells (Session.Carries.updateRelation.settle h).chain
    fun _ _ _ hab => ⟨hab.sec, hab.func⟩
  exact ⟨⟨settle_blocked hs.toBlocked h, hdescends.uniform hs.uniform⟩, hdescends⟩

/-- An edit that puts in no empty instruction leaves blocks within sections, each of which comes of one
before. -/
theorem edit_sectioned {u : Unit} (hkind : edit.resizes = false)
    (hgiven : ∀ instr ∈ edit.given, instr.bytes ≠ []) (hroom : s.program.Roomy)
    (hs : s.program.Sectioned graph parts []) (h : edit.run s = .ok u t) :
    ∃ after parts', t.program.Sectioned after parts' []
      ∧ s.program.chain.Descends t.program.chain parts parts' := by
  obtain ⟨shift, m, summary, hsplice, hsettle⟩ := edit_ok h
  obtain ⟨after, parts', hm, hdescends, -⟩ := hsplice.sectioned hkind hs (hs.finds hroom) hgiven
  obtain ⟨ht, hkept⟩ := settle_sectioned hm hsettle
  exact ⟨after, parts', ht, hdescends.trans hkept⟩

end EngineM

/-! ## Work -/

/-- What may be done to a program with blocks. -/
inductive BlockWork where
  | split (block : BlockId) (instr : InstrId) (mode : SplitMode)
  | splitAt (instr : InstrId) (mode : SplitMode)
  | addEdge (source target : BlockId) (kind : EdgeKind)
  | retargetEdge (edge : EdgeId) (target : BlockId)
  | discoverLoops
  | edit (change : Edit)
deriving DecidableEq

namespace BlockWork

open EngineM

def run : BlockWork → EngineM Unit
  | split block instr mode => do
    discard (onGraph (GraphM.split (← program).chain block instr mode))
  | splitAt instr mode => do discard (onGraph (GraphM.splitAt (← program).chain instr mode))
  | addEdge source target kind => discard (onGraph (GraphM.addEdge source target kind))
  | retargetEdge edge target => onGraph (GraphM.retargetEdge edge target)
  | discoverLoops => discard (onGraph GraphM.discoverLoops)
  | edit change => change.run

/-- A block is split at one of its instructions, and an edit puts in no empty instruction and is not
refused. Whatever else is done may be refused. -/
def Allowed (s : Session) : BlockWork → Prop
  | split block instr _ => ∀ graph ∈ s.program.graph,
    ∀ run ∈ (graph.instructions s.program.chain block).toOption, instr ∈ run
  | edit change => change.resizes = false ∧ (∀ instr ∈ change.given, instr.bytes ≠ [])
    ∧ Succeeds change.run s = true
  | _ => True

instance (s : Session) : (work : BlockWork) → Decidable (work.Allowed s)
  | split block instr _ => inferInstanceAs (Decidable (∀ graph ∈ s.program.graph,
      ∀ run ∈ (graph.instructions s.program.chain block).toOption, instr ∈ run))
  | edit change => inferInstanceAs (Decidable (change.resizes = false
      ∧ (∀ instr ∈ change.given, instr.bytes ≠ []) ∧ Succeeds change.run s = true))
  | splitAt _ _ | addEdge _ _ _ | retargetEdge _ _ | discoverLoops => .isTrue trivial

/-- Doing one thing after the other leads from `s` to `t`, and there is room for the code all along. -/
def Leads : (s : Session) → List BlockWork → (t : Session) → Prop
  | s, [], t => t = s
  | s, work :: rest, t => s.program.Roomy ∧ work.Allowed s ∧ Leads (outcome work.run s) rest t

end BlockWork

namespace EngineM

variable {α : Type} {s t : Session} {graph after : BlockGraph} {parts parts' : List Part}

/-- What an action on the graph leaves, whether it succeeds or not, is the session with the graph that it
leaves. -/
theorem outcome_onGraph {action : GraphM α} (hgraph : s.program.graph = some graph) :
    outcome (onGraph action) s = s.withGraph (outcome action graph) := by
  have hread : program s = .ok s.program s := rfl
  have hrun : onGraph action s = focus (fun _ => graph) (fun session graph => session.withGraph graph)
      Error.graph action s := by
    unfold onGraph
    rw [bind_run hread, hgraph]
    rfl
  unfold outcome
  rw [hrun, focus]
  cases action graph <;> rfl

/-- Reading the program first changes nothing. -/
theorem outcome_reads (action : Program → EngineM Unit) :
    outcome (do action (← program)) s = outcome (action s.program) s := by
  have hread : program s = .ok s.program s := rfl
  unfold outcome
  rw [bind_run hread]

/-- The layout says nothing about blocks. -/
theorem sited_withGraph {l : List InstrId} (hs : s.program.Sited l []) : (s.withGraph graph).program.Sited l [] := by
  have hsame : Session.Regraphed s (s.withGraph graph) := ⟨some graph, rfl⟩
  have hlaid := Program.owing_nil.mp hs.owing
  have hlaid' : (s.withGraph graph).program.LaidOut l := hlaid
  exact hs.carry hsame.sameCode.carries (Program.owing_nil.mpr hlaid')

/-- The session has blocks within its sections, each of which comes from one of the blocks before. -/
def Succession (s : Session) (parts : List Part) (t : Session) : Prop :=
  ∃ after parts', t.program.Sectioned after parts' [] ∧ s.program.chain.Descends t.program.chain parts parts'

/-- Other blocks for the same code, each within one of the old ones. -/
theorem sectioned_withGraph (hs : s.program.Sectioned graph parts []) (hcuts : after.Cuts parts')
    (hwired : after.Wired) (hcode : Part.code parts' = Part.code parts)
    (hpieces : ∀ part ∈ parts', ∃ old ∈ parts, part.run ⊆ old.run) : Succession s parts (s.withGraph after) := by
  have hdescends : s.program.chain.Descends (s.withGraph after).program.chain parts parts' :=
    .of_pieces hs.spells hpieces
  exact ⟨after, parts', {
    sited := hcode ▸ sited_withGraph hs.sited
    filled := hcode ▸ hs.filled
    built := rfl
    cuts := hcuts
    wired := hwired
    uniform := hdescends.uniform hs.uniform }, hdescends⟩

/-- Rewiring edges leaves the parts, whether it succeeds or not. -/
theorem sectioned_of_leaves {action : GraphM α} (hs : s.program.Sectioned graph parts [])
    (h : Leaves BlockGraph.Rewired action) : Succession s parts (outcome (onGraph action) s) := by
  obtain ⟨hcut, hwired⟩ := h graph hs.wired
  rw [outcome_onGraph hs.built]
  exact sectioned_withGraph hs (hs.cuts.congr hcut) hwired rfl fun part hpart =>
    ⟨part, hpart, List.Subset.refl _⟩

theorem sectioned_of_divided {action : GraphM BlockId} {start : Option InstrId} {kept : BlockId}
    (hs : s.program.Sectioned graph parts []) (hrun : action graph = .ok kept after)
    (hdivided : Divided graph parts start after parts') : Succession s parts (outcome (onGraph action) s) := by
  rw [outcome_onGraph hs.built, outcome_ok hrun]
  exact sectioned_withGraph hs hdivided.cuts hdivided.wired hdivided.code hdivided.pieces

theorem sectioned_of_refused {action : GraphM α} {cause : GraphError}
    (hs : s.program.Sectioned graph parts []) (hrun : action graph = .error cause graph) :
    Succession s parts (outcome (onGraph action) s) := by
  rw [outcome_onGraph hs.built, outcome_error hrun, Session.withGraph_self hs.built]
  exact ⟨graph, parts, hs, .of_pieces hs.spells fun part hpart => ⟨part, hpart, List.Subset.refl _⟩⟩

/-- Whatever is done leaves the program with blocks. -/
theorem work_sectioned {work : BlockWork} (hroom : s.program.Roomy) (hallowed : work.Allowed s)
    (hs : s.program.Sectioned graph parts []) : Succession s parts (outcome work.run s) := by
  -- work on the graph alone divides a block or leaves the code in its blocks; an edit moves both along
  cases work with
  | split block instr mode =>
    show Succession s parts (outcome (do discard (onGraph (GraphM.split (← program).chain block instr mode))) s)
    rw [outcome_reads fun current => discard (onGraph (GraphM.split current.chain block instr mode)),
      outcome_discard]
    by_cases hblock : (graph.block? block).isSome
    · obtain ⟨ps, run, qs, rfl⟩ := hs.cuts.part_of hblock
      have hinstrs : graph.instructions s.program.chain block = .ok run :=
        GraphM.instructions_of_cuts hs.spells hs.cuts (List.mem_append_right _ (List.mem_cons_self ..))
      obtain ⟨_, _, _, hrun, hdivided⟩ :=
        GraphM.split_run hs.spells hs.cuts hs.wired (hallowed graph hs.built run (by rw [hinstrs]; rfl)) mode
      exact sectioned_of_divided hs hrun hdivided
    · exact sectioned_of_refused hs
        (bind_error (GraphM.block_error (Option.not_isSome_iff_eq_none.mp hblock)))
  | splitAt instr mode =>
    show Succession s parts (outcome (do discard (onGraph (GraphM.splitAt (← program).chain instr mode))) s)
    rw [outcome_reads fun current => discard (onGraph (GraphM.splitAt current.chain instr mode)),
      outcome_discard]
    have hfind : ∀ part ∈ parts, graph.find s.program.chain instr = .ok (some part.id) →
        instr ∈ part.run ∨ (mode = .last → s.program.chain.next? instr ≠ part.run.head?) := by
      exact fun part hpart hfind => .inl (hs.finds hroom part hpart instr hfind)
    rcases GraphM.splitAt_divides hs.spells hs.cuts hs.wired hfind with ⟨_, hrun⟩ | ⟨_, _, _, hrun, hdivided⟩
    · exact sectioned_of_refused hs hrun
    · exact sectioned_of_divided hs hrun hdivided
  | addEdge source target kind =>
    show Succession s parts (outcome (discard (onGraph (GraphM.addEdge source target kind))) s)
    rw [outcome_discard]
    exact sectioned_of_leaves hs GraphM.addEdge_leaves
  | retargetEdge edge target => exact sectioned_of_leaves hs GraphM.retargetEdge_leaves
  | discoverLoops =>
    show Succession s parts (outcome (discard (onGraph GraphM.discoverLoops)) s)
    rw [outcome_discard]
    exact sectioned_of_leaves hs GraphM.discoverLoops_leaves
  | edit change =>
    obtain ⟨hkind, hgiven, hsucceeds⟩ := hallowed
    obtain ⟨_, h⟩ := Succeeds.ok hsucceeds
    exact edit_sectioned hkind hgiven hroom hs h

/-- Whatever is done one after the other, blocks stay within sections. The induction is on the list of
works; room for the code is asked for at each step, since an edit may add bytes. -/
theorem works_sectioned {works : List BlockWork} (h : BlockWork.Leads s works t)
    (hs : ∃ graph parts, s.program.Sectioned graph parts []) :
    ∃ graph parts, t.program.Sectioned graph parts [] := by
  induction works generalizing s with
  | nil =>
    obtain rfl : t = s := h
    exact hs
  | cons work works ih =>
    obtain ⟨hroom, hallowed, hrest⟩ := h
    obtain ⟨_, _, hs⟩ := hs
    obtain ⟨after, parts, hm, -⟩ := work_sectioned hroom hallowed hs
    exact ih hrest ⟨after, parts, hm⟩

end EngineM

/-! ## From the first blocks on -/

/-- A program that passes all checks, without detached or empty instructions, with each section in one
piece. -/
structure Program.Ready (program : Program) : Prop where
  verified : program.verify = .ok ()
  attached : program.chain.Attached program.chain.ids
  consecutive : program.chain.Consecutive program.chain.ids
  filled : program.chain.Filled program.chain.ids

/-- A program that is ready has each address as the layout has it, with nothing left to shift. -/
theorem Program.Ready.sited {program : Program} (h : program.Ready) : program.Sited program.chain.ids [] := by
  obtain ⟨hchain, haddresses, -, hreferences, -⟩ := verify_parts h.verified
  have hl := (verifyChain_wellFormed hchain h.attached).spells
  exact ⟨⟨hl, h.consecutive⟩, h.attached, verifyReferences_listed hl hreferences,
    owing_nil.mpr (verifyAddresses_ok.mp haddresses)⟩

theorem Program.Ready.functions {program : Program} (h : program.Ready) : program.verifyFunctions = .ok () :=
  (verify_parts h.verified).2.2.1

/-- A program that is ready to be cut into blocks within its sections: each instruction is in a function
that lies within a section. -/
structure Program.Divisible (program : Program) : Prop extends Program.Ready program where
  covered : program.Covered
  roomy : program.Roomy

namespace EngineM

variable {s t m : Session} {graph : BlockGraph} {works : List BlockWork}

/-- Building blocks succeeds exactly as it does on the code and the functions, and puts the graph into the
program. -/
theorem buildBlocks_ok (h : buildBlocks s = .ok graph t) :
    BlockGraph.build s.program.chain s.program.functions = .ok graph
      ∧ t.program = (s.withGraph graph).program := by
  simp only [buildBlocks, bind_ok, program_ok, liftResult_ok, updateProgram_ok, pure_ok] at h
  obtain ⟨_, _, ⟨rfl, rfl⟩, found, _, ⟨hbuild, rfl⟩, _, m, hcount, _, _, rfl, rfl, rfl⟩ := h
  refine ⟨?_, ?_⟩
  · cases hrun : BlockGraph.build s.program.chain s.program.functions with
    | error cause =>
      rw [hrun] at hbuild
      cases hbuild
    | ok built =>
      rw [hrun] at hbuild
      exact hbuild
  · show { m.program with graph := some found } = _
    rw [count_program hcount]
    rfl

/-- The code of a program does not change when its blocks are built. -/
theorem buildBlocks_blocked {parts : List Part} {l : List InstrId} (hs : s.program.Sited l [])
    (hfilled : s.program.chain.Filled l)
    (h : buildBlocks s = .ok graph t) (hcuts : graph.Cuts parts) (hwired : graph.Wired)
    (hcode : Part.code parts = l) : t.program.Blocked graph parts [] := by
  subst hcode
  rw [(buildBlocks_ok h).2]
  exact ⟨sited_withGraph hs, hfilled, rfl, hcuts, hwired⟩

/-- The blocks that are built are blocks of the code, each within a function and a section, and the sections
are ranked in the order in which they come. -/
theorem buildBlocks_sectioned {l : List InstrId} (hs : s.program.Sited l []) (hfilled : s.program.chain.Filled l)
    (hfunctions : s.program.verifyFunctions = .ok ()) (hcovered : s.program.Covered)
    (hroom : ∀ sec, s.program.bytesIn sec s.program.lengths l ≤ 2 ^ 64) (h : buildBlocks s = .ok graph t) :
    ∃ parts, t.program.Sectioned graph parts [] ∧ Part.code parts = l ∧ s.program.Lodged parts
      ∧ graph.Ranks s.program.chain l := by
  obtain ⟨parts, hcuts, hwired, hcode, hlodged, hranks⟩ := Program.build_cuts
    (hs.addressed hfilled hroom) hfunctions hcovered (buildBlocks_ok h).1
  refine ⟨parts, ⟨buildBlocks_blocked hs hfilled h hcuts hwired hcode, ?_⟩, hcode, hlodged, hranks⟩
  rw [(buildBlocks_ok h).2]
  exact hlodged.uniform hcovered

/-- Whatever is done to a program after its blocks were built, the blocks pass their check: they cut
the code into runs, in the order in which the tree lists them. Every edge is listed once by the
block that it leaves, once by the block that it enters, and nowhere else. -/
theorem verifyBlocks_of_works (hs : s.program.Divisible) (hbuild : buildBlocks s = .ok graph m)
    (hworks : BlockWork.Leads m works t) :
    t.program.verifyBlocks = .ok ()
      ∧ ∃ graph parts, t.program.graph = some graph ∧ graph.Cuts parts
        ∧ Part.code parts = t.program.chain.ids ∧ graph.Wired := by
  obtain ⟨parts, hm, -⟩ := buildBlocks_sectioned hs.sited hs.filled hs.functions hs.covered
    (fun _ => Nat.le_trans Program.bytesIn_le_sum hs.roomy) hbuild
  obtain ⟨after, parts, ht⟩ := works_sectioned hworks ⟨graph, parts, hm⟩
  exact ⟨ht.verifyBlocks, after, parts, ht.built, ht.cuts, ht.spells.ids_eq.symm, ht.wired⟩

/-- The jump over an instruction can be cut into blocks. -/
theorem hop_divisible : hop.program.Divisible where
  verified := hop_checked.verified
  attached := hop_checked.attached
  consecutive := hop_checked.consecutive
  filled := by decide
  covered := Program.covered_of_whole 1 rfl (by decide) (by decide)
  roomy := by
    unfold Program.Roomy
    decide

/-- Ten things are done to the blocks of the jump, edits and splits in turn, two of them where another
block begins. -/
theorem verifyBlocks_of_works_hop : ∃ graph m t,
    hop.program.Divisible ∧ buildBlocks hop = .ok graph m
      ∧ BlockWork.Leads m
        [.split ⟨0⟩ ⟨0⟩ .last,
          .addEdge ⟨0⟩ ⟨0⟩ .goto,
          .edit (.insertBefore ⟨0⟩ (.synthetic [0x90] 1 .nop) .keep),
          .edit (.insertBefore ⟨2⟩ (.synthetic [0x90] 1 .nop) .inserted),
          .edit (.insertAfter ⟨2⟩ (.synthetic [0x90] 1 .nop)),
          .splitAt ⟨2⟩ .first,
          .edit (.substitute ⟨1⟩ [.synthetic [0x90] 1 .nop, .synthetic [0x90] 1 .nop]),
          .edit (.remove ⟨5⟩),
          .retargetEdge ⟨0⟩ ⟨1⟩,
          .discoverLoops] t
      ∧ t.program.verifyBlocks = .ok () := by
  have hbuilds : Succeeds buildBlocks hop = true := by decide +kernel
  obtain ⟨graph, h⟩ := Succeeds.ok hbuilds
  have hleads : ∃ t, BlockWork.Leads (outcome buildBlocks hop)
      [.split ⟨0⟩ ⟨0⟩ .last,
        .addEdge ⟨0⟩ ⟨0⟩ .goto,
        .edit (.insertBefore ⟨0⟩ (.synthetic [0x90] 1 .nop) .keep),
        .edit (.insertBefore ⟨2⟩ (.synthetic [0x90] 1 .nop) .inserted),
        .edit (.insertAfter ⟨2⟩ (.synthetic [0x90] 1 .nop)),
        .splitAt ⟨2⟩ .first,
        .edit (.substitute ⟨1⟩ [.synthetic [0x90] 1 .nop, .synthetic [0x90] 1 .nop]),
        .edit (.remove ⟨5⟩),
        .retargetEdge ⟨0⟩ ⟨1⟩,
        .discoverLoops] t := by
    refine ⟨_, ?_, ?_, ?_, ?_, ?_, ?_, ?_, ?_, ?_, ?_, ?_, ?_, ?_, ?_, ?_, ?_, ?_, ?_, ?_, ?_, rfl⟩ <;>
      decide +kernel
  obtain ⟨t, hleads⟩ := hleads
  exact ⟨graph, _, t, hop_divisible, h, hleads, (verifyBlocks_of_works hop_divisible h hleads).1⟩

end EngineM

end Splice
