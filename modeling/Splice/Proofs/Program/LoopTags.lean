import Splice.Proofs.Block.LoopTags
import Splice.Proofs.Program.BlockWork

/-!
# Loop tags under edits

Edits do not look for loops anew, so whatever they do to blocks and edges has to keep the tags
right. All but one do: they touch neither tags nor edges (`Session.SameTags`). The exception is
an instruction that is put in front of the first one of a block for jumpers to pass by, as each is
that goes behind the last one of the block in front. It gets a block of its own, to which the edges
of transfers no longer lead, and the tag of the header goes along with them as a whole. Where a
loop is closed at the block by some other edge too, that edge then leads to a block that is no
header (`Session.CutsMixed`). This is the only way in which edits break the tags
(`loopsTagged_of_edits`).

The statement speaks of all first parts of a sequence of edits, and is exact: if no edit cuts a
mixed block, the tags are right all along, and if one does, they are wrong after it. Edits
between the search for loops and the next one may be any that succeed.
-/

namespace Splice

namespace Session

variable {s t : Session}

/-- The sessions have graphs with the same tags and edges, or none. -/
def SameTags (s t : Session) : Prop :=
  ∀ graph, s.program.graph = some graph → ∃ after, t.program.graph = some after ∧ graph.SameLinks after

/-- Changes of anything but the graph leave its tags. -/
theorem SameTags.stepRelation : StepRelation SameTags where
  refl _ graph hgraph := ⟨graph, hgraph, BlockGraph.SameLinks.stepRelation.refl graph⟩
  trans h k graph hgraph := by
    obtain ⟨m, hm, hsame⟩ := h graph hgraph
    obtain ⟨after, hafter, hsame'⟩ := k m hm
    exact ⟨after, hafter, BlockGraph.SameLinks.stepRelation.trans hsame hsame'⟩

theorem SameBlocks.sameTags (h : SameBlocks s t) : SameTags s t := fun graph hgraph =>
  ⟨graph, Eq.trans h hgraph, BlockGraph.SameLinks.stepRelation.refl graph⟩

/-- The instruction that jumpers are to pass by what an edit puts in. -/
def passed? (s : Session) : Edit → Option InstrId
  | .insertBefore anchor _ .keep => some anchor
  | .insertAfter anchor _ => EngineM.follower? s.program.chain anchor
  | _ => none

/-- The block that begins with the instruction, if that is the one that is found for it. -/
def entered? (s : Session) (anchor : InstrId) : Option BlockId := do
  let graph ← s.program.graph
  let id ← (graph.find s.program.chain anchor).toOption.join
  let block ← graph.block? id
  if block.first = anchor then some id else none

/-- The edit cuts a block at which loops are closed both by transfers and by other edges. -/
def CutsMixed (s : Session) (edit : Edit) : Prop :=
  ∃ graph ∈ s.program.graph, ∃ id ∈ (s.passed? edit).bind s.entered?, graph.Mixed id

instance (s : Session) (edit : Edit) : Decidable (s.CutsMixed edit) :=
  inferInstanceAs (Decidable (∃ graph ∈ s.program.graph, ∃ id ∈ (s.passed? edit).bind s.entered?, graph.Mixed id))

/-- The blocks are built, and every edge that closes a loop leads from a footer to a header. -/
def LoopsTagged (s : Session) : Prop := ∃ graph, s.program.graph = some graph ∧ graph.LoopsTagged

end Session

namespace EngineM

variable {s t : Session} {u : Unit} {anchor new old id : InstrId} {given : Instruction} {shift : Shift}
  {graph : BlockGraph} {block : Option BlockId} {ids : List InstrId}

/-! ## What touches neither tags nor edges -/

/-- A change of a block that leaves its kind and its edges leaves the tags. -/
theorem updateBlock_sameTags {f : Block → Block} (hf : ∀ block, (f block).kind = block.kind
    ∧ (f block).outEdges = block.outEdges ∧ (f block).inEdges = block.inEdges) :
    Keeps Session.SameTags (updateBlock block f) := by
  intro s u t h graph hgraph
  cases block with
  | none =>
    rw [← (pure_ok.mp h).2]
    exact Session.SameTags.stepRelation.refl s graph hgraph
  | some id =>
    obtain ⟨_, hgraph', -, rfl⟩ := onGraph_updateBlock_ok.mp h
    obtain rfl := Option.some.inj (hgraph.symm.trans hgraph')
    exact ⟨_, rfl, BlockGraph.withBlock_sameLinks hf⟩

/-- An insertion behind an instruction leaves the tags. -/
theorem appendAfter_sameTags (h : appendAfter anchor given s = .ok (new, shift) t) : Session.SameTags s t := by
  obtain ⟨_, _, c₁, s₂, s₄, -, -, -, hlink, hextend, ht, -⟩ := appendAfter_run h
  have hrest : Session.SameBlocks s₄ t := congrArg Program.graph ht
  have hlinked : Session.SameBlocks s s₂ := (linkInserted_sameBlocks hlink).trans rfl
  have howner : ∀ owner f, Session.SameBlocks s (withOwner s₂ owner f) := fun _ _ => graph_withOwner.trans hlinked
  have hblock := updateBlock_sameTags (f := extendedBehind anchor new) (fun _ => ⟨rfl, rfl, rfl⟩) hextend
  exact Session.SameTags.stepRelation.trans (howner _ _).sameTags
    (Session.SameTags.stepRelation.trans hblock hrest.sameTags)

/-- A substitution leaves the tags. -/
theorem spliceInstead_sameTags {given : List Instruction} (h : spliceInstead old given s = .ok (ids, shift) t) :
    Session.SameTags s t := by
  obtain ⟨_, _, _, c₁, first, last, s₂, _, s₃, s₄, s₆, -, -, -, -, -, hplace, -, hrepoint, hrehome, hblocks, ht,
    -⟩ := spliceInstead_run h
  have hrest : Session.SameBlocks s₆ t := congrArg Program.graph ht
  have hplaced : Session.SameBlocks s s₂ := (placeInserted_sameBlocks hplace).trans rfl
  have hrehomed : Session.SameBlocks s s₄ :=
    (rehomeRelocations_sameBlocks hrehome).trans ((repointSymbols_sameBlocks hrepoint).trans hplaced)
  have howner : ∀ owner f, Session.SameBlocks s
      (withOwner { s₄ with program.redirects := s₄.program.redirects.replace old first } owner f) := fun _ _ =>
    graph_withOwner.trans hrehomed
  have hblock := updateBlock_sameTags (f := replacingEnds old first last ids.length) (fun _ => ⟨rfl, rfl, rfl⟩)
    hblocks
  exact Session.SameTags.stepRelation.trans (howner _ _).sameTags
    (Session.SameTags.stepRelation.trans hblock hrest.sameTags)

/-- Taking an instruction out of a block leaves the tags. -/
theorem shrinkBlock_sameTags {addr : UInt64} {behind before : Option InstrId} :
    Keeps Session.SameTags (block.forM (shrinkBlock · id addr behind before)) := by
  intro s u t h graph hgraph
  cases block with
  | none =>
    rw [← (pure_ok.mp h).2]
    exact Session.SameTags.stepRelation.refl s graph hgraph
  | some id =>
    obtain ⟨_, -, -, -, rfl⟩ := shrinkBlock_ok hgraph h
    exact ⟨_, rfl, BlockGraph.withBlock_sameLinks fun _ => ⟨rfl, rfl, rfl⟩⟩

/-- A removal leaves the tags. -/
theorem excise_sameTags {freed : Instruction} (h : excise id s = .ok (freed, shift) t) : Session.SameTags s t := by
  obtain ⟨_, block, heir, s₂, s₃, s₄, c, _, -, -, hcheck, -, hpass, hblocks, -, rfl, -⟩ := excise_run h
  obtain rfl := checkRemovable_same hcheck
  have howner : ∀ owner f, Session.SameBlocks s₂ (withOwner s₃ owner f) := fun _ _ =>
    graph_withOwner.trans (passOn_sameBlocks hpass)
  have hfreed : Session.SameBlocks s₄ (s₄.withChain c) := rfl
  exact Session.SameTags.stepRelation.trans (howner _ _).sameTags
    (Session.SameTags.stepRelation.trans (shrinkBlock_sameTags hblocks) hfreed.sameTags)

/-! ## Edits one by one -/

/-- An anchor is entered at the block found for it if that begins there. -/
theorem entered?_eq {name : BlockId} {block : Block} (hgraph : s.program.graph = some graph)
    (hfind : graph.find s.program.chain anchor = .ok (some name)) (hblock : graph.block? name = some block) :
    s.entered? anchor = if block.first = anchor then some name else none := by
  rw [Session.entered?, hgraph]
  show (graph.find s.program.chain anchor).toOption.join.bind _ = _
  rw [hfind]
  show (graph.block? name).bind _ = _
  rw [hblock]
  rfl

/-- An insertion in front of an instruction keeps the tags right unless jumpers are to pass by it and it
cuts a block at which loops are closed in both ways. -/
theorem spliceBefore_loopsTagged {retarget : Retarget} (hgraph : s.program.graph = some graph) (hwired : graph.Wired)
    (htagged : graph.LoopsTagged) (h : spliceBefore anchor given retarget s = .ok (new, shift) t) :
    ∃ after, t.program.graph = some after ∧ after.Wired
      ∧ (after.LoopsTagged
        ↔ ¬(retarget = .keep ∧ ∃ id, s.entered? anchor = some id ∧ graph.Mixed id)) := by
  obtain ⟨found, block, c₁, s₂, s₄, entering, s₅, hfound, hblock, hinsert, hlink, hextend, henter, ht, -⟩ :=
    spliceBefore_run h
  obtain ⟨name, rfl, hfind⟩ := blockOf_built hgraph hblock
  have hlinked : Session.SameBlocks s s₂ := (linkInserted_sameBlocks hlink).trans rfl
  have howner : ∀ owner f, (withOwner s₂ owner f).program.graph = some graph := fun _ _ =>
    graph_withOwner.trans (Eq.trans hlinked hgraph)
  have hne : new ≠ anchor := by
    rintro rfl
    rw [ChainM.insertBefore_name hinsert, Chain.get?_size] at hfound
    cases hfound
  have hlast : t.program.graph = s₄.program.graph := 
    (congrArg Program.graph ht).trans (enteringJumpers_sameBlocks henter)
  -- with the new instruction in its block, before that is cut
  have hgrown : graph.SameLinks (graph.withBlock name (extendedBefore anchor new)) :=
    BlockGraph.withBlock_sameLinks fun _ => ⟨rfl, rfl, rfl⟩
  have hwired' := hwired.congr hgrown.sameWires
  have htagged' := hgrown.loopsTagged.mpr htagged
  obtain ⟨old, hold, hcase⟩ := extendBlockBefore_run (howner _ _) hextend
  have hentered := entered?_eq hgraph hfind hold
  rcases hcase with ⟨hfirst, rfl, after, hsplit, hs₄⟩ | ⟨hstays, rfl⟩
  · have hblock' : (graph.withBlock name (extendedBefore anchor new)).block? name
        = some (extendedBefore anchor new old) := by
      rw [BlockGraph.block?_withBlock, if_pos rfl, hold, Option.map_some]
    have hentry : anchor ≠ (extendedBefore anchor new old).first := by
      rw [show (extendedBefore anchor new old).first = new from if_pos hfirst]
      exact hne.symm
    have hsplit' := GraphM.splitEntry_ok hwired' hblock' hentry hsplit
    refine ⟨after, by rw [hlast, hs₄]; rfl, hsplit'.wired, ?_⟩
    rw [hsplit'.loopsTagged_iff htagged' (by rw [BlockGraph.isSome_kind?, hblock']; rfl)
      (by rw [BlockGraph.kind?, BlockGraph.block?_fresh]; rfl), hgrown.mixed, hentered, if_pos hfirst]
    simp
  · refine ⟨_, by rw [hlast]; rfl, hwired', iff_of_true htagged' ?_⟩
    rintro ⟨rfl, id, hid, -⟩
    rw [hentered, if_neg (hstays.resolve_right (by simp))] at hid
    cases hid

/-- One edit. -/
theorem edit_loopsTagged {edit : Edit} (hgraph : s.program.graph = some graph) (hwired : graph.Wired)
    (htagged : graph.LoopsTagged) (h : edit.run s = .ok u t) :
    ∃ after, t.program.graph = some after ∧ after.Wired ∧ (after.LoopsTagged ↔ ¬s.CutsMixed edit) := by
  obtain ⟨shift, m, summary, hsplice, hsettle⟩ := edit_splice h
  have hsettled : Session.SameBlocks m t := (Session.Sustains.updateRelation.settle hsettle).blocks
  -- what touches neither tags nor edges keeps them right, and cuts no block
  have hsame : s.passed? edit = none → Session.SameTags s m →
      ∃ after, t.program.graph = some after ∧ after.Wired ∧ (after.LoopsTagged ↔ ¬s.CutsMixed edit) := by
    intro hpassed hsame
    obtain ⟨after, hafter, hlinks⟩ := hsame graph hgraph
    refine ⟨after, Eq.trans hsettled hafter, hwired.congr hlinks.sameWires,
      iff_of_true (hlinks.loopsTagged.mpr htagged) ?_⟩
    rintro ⟨_, -, id, hid, -⟩
    rw [hpassed] at hid
    cases hid
  have hcut : ∀ {anchor new given retarget}, s.passed? edit = (if retarget = .keep then some anchor else none) →
      spliceBefore anchor given retarget s = .ok (new, shift) m →
      ∃ after, t.program.graph = some after ∧ after.Wired ∧ (after.LoopsTagged ↔ ¬s.CutsMixed edit) := by
    intro anchor new given retarget hpassed hbefore
    obtain ⟨after, hafter, hwired', hiff⟩ := spliceBefore_loopsTagged hgraph hwired htagged hbefore
    refine ⟨after, Eq.trans hsettled hafter, hwired', hiff.trans (not_congr ?_)⟩
    rw [Session.CutsMixed, hpassed, hgraph]
    cases retarget <;> simp
  cases edit with
  | insertBefore anchor given retarget =>
    simp only [Edit.splice, bind_ok, pure_ok] at hsplice
    obtain ⟨⟨new, shift⟩, _, hbefore, rfl, rfl⟩ := hsplice
    refine hcut ?_ hbefore
    cases retarget <;> rfl
  | insertAfter anchor given =>
    simp only [Edit.splice, bind_ok, pure_ok] at hsplice
    obtain ⟨⟨new, shift⟩, _, hafter, rfl, rfl⟩ := hsplice
    rcases spliceAfter_ok hafter with ⟨next, hnext, hbefore⟩ | ⟨hnone, happend⟩
    · exact @hcut _ _ _ .keep (hnext.trans (if_pos rfl).symm) hbefore
    · exact hsame hnone (appendAfter_sameTags happend)
  | substitute old given =>
    simp only [Edit.splice, bind_ok, pure_ok] at hsplice
    obtain ⟨⟨ids, shift⟩, _, hinstead, rfl, rfl⟩ := hsplice
    exact hsame rfl (spliceInstead_sameTags hinstead)
  | remove id =>
    simp only [Edit.splice, bind_ok, pure_ok] at hsplice
    obtain ⟨⟨freed, shift⟩, _, hexcise, rfl, rfl⟩ := hsplice
    exact hsame rfl (excise_sameTags hexcise)
  | resize id bytes opcodeSize delta =>
    simp only [Edit.splice, bind_ok, updateInstr_ok] at hsplice
    obtain ⟨_, _, ⟨-, rfl⟩, hshift⟩ := hsplice
    obtain ⟨_, -, -, rfl⟩ := shiftBehind_ok hshift
    exact hsame rfl (Session.SameBlocks.sameTags rfl)

/-! ## Runs of edits -/

/-- The outcome of edits is that of the first and then of the others. -/
theorem outcome_edits {edit : Edit} {done : List Edit} (h : edit.run s = .ok u t) :
    outcome ((edit :: done).forM Edit.run) s = outcome (done.forM Edit.run) t := by
  have hstep : (edit :: done).forM Edit.run s = done.forM Edit.run t := bind_run h
  unfold outcome
  rw [hstep]

/-- Along a run the tags stay right up to the first edit that cuts a block at which loops are closed in
both ways. -/
theorem edits_loopsTagged {edits : List Edit} (hgraph : s.program.graph = some graph) (hwired : graph.Wired)
    (htagged : graph.LoopsTagged) (h : edits.forM Edit.run s = .ok u t) :
    (∀ done, done <+: edits → (outcome (done.forM Edit.run) s).LoopsTagged)
      ↔ ∀ done edit, done ++ [edit] <+: edits → ¬(outcome (done.forM Edit.run) s).CutsMixed edit := by
  -- by the first edit: a prefix is empty or begins with it
  induction edits generalizing s graph with
  | nil =>
    refine iff_of_true (fun done hdone => ?_) fun done edit hdone => ?_
    · rw [List.prefix_nil.mp hdone]
      exact ⟨graph, hgraph, htagged⟩
    · exact absurd (List.prefix_nil.mp hdone) (List.append_ne_nil_of_right_ne_nil _ (List.cons_ne_nil _ _))
  | cons first edits ih =>
    obtain ⟨m, hfirst, hrest⟩ := forM_cons_ok.mp h
    obtain ⟨after, hafter, hwired', hiff⟩ := edit_loopsTagged hgraph hwired htagged hfirst
    constructor
    · intro hall
      have hfirst' := hall [first] (List.cons_prefix_cons.mpr ⟨rfl, List.nil_prefix⟩)
      rw [outcome_edits hfirst] at hfirst'
      obtain ⟨_, hsome, htagged'⟩ := hfirst'
      obtain rfl := Option.some.inj (hafter.symm.trans hsome)
      intro done edit hdone
      cases done with
      | nil =>
        obtain rfl := (List.cons_prefix_cons.mp hdone).1
        exact hiff.mp htagged'
      | cons start done =>
        obtain ⟨rfl, hrun⟩ := List.cons_prefix_cons.mp hdone
        rw [outcome_edits hfirst]
        refine (ih hafter hwired' htagged' hrest).mp (fun more hmore => ?_) done edit hrun
        rw [← outcome_edits hfirst]
        exact hall _ (List.cons_prefix_cons.mpr ⟨rfl, hmore⟩)
    · intro hnone done hdone
      have htagged' := hiff.mpr (hnone [] first (List.cons_prefix_cons.mpr ⟨rfl, List.nil_prefix⟩))
      cases done with
      | nil => exact ⟨graph, hgraph, htagged⟩
      | cons start done =>
        obtain ⟨rfl, hrun⟩ := List.cons_prefix_cons.mp hdone
        rw [outcome_edits hfirst]
        refine (ih hafter hwired' htagged' hrest).mpr (fun more edit hmore => ?_) done hrun
        rw [← outcome_edits hfirst]
        exact hnone _ edit (List.cons_prefix_cons.mpr ⟨rfl, hmore⟩)

end EngineM

open EngineM

/-- After blocks are built, whatever edits follow and however often, every edge that closes a loop leads
from a footer to a header, up to the first edit that cuts a block at which loops are closed both by
transfers and by other edges. From there on it does not. -/
theorem loopsTagged_of_edits {s b : Session} {graph : BlockGraph} {edits : List Edit}
    (hbuild : buildBlocks s = .ok graph b) (hruns : Succeeds (edits.forM Edit.run) b = true) :
    (∀ done, done <+: edits → (outcome (done.forM Edit.run) b).LoopsTagged)
      ↔ ∀ done edit, done ++ [edit] <+: edits → ¬(outcome (done.forM Edit.run) b).CutsMixed edit := by
  obtain ⟨hbuilt, hprogram⟩ := buildBlocks_ok hbuild
  obtain ⟨htagged, hwired⟩ := BlockGraph.build_loopsTagged hbuilt
  obtain ⟨_, hrun⟩ := Succeeds.ok hruns
  exact edits_loopsTagged (by rw [hprogram]; rfl) hwired htagged hrun

/-- Two loops share their header: one is closed by falling through from the instruction in front, the
other by a jump from behind. -/
def whirl : Session where
  program :=
    { hop.program with
      chain := .ofList
        [{ Instruction.decoded 0 [0xEB, 0x01] 1 .jump with
            sec := 1, target := some ⟨2⟩, func := some ⟨0⟩ },
          { Instruction.decoded 2 [0x90] 1 .nop with sec := 1, targetedBy := [⟨2⟩], func := some ⟨0⟩ },
          { Instruction.decoded 3 [0x74, 0xFD] 1 (.jump ∪ .conditional) with
            sec := 1, target := some ⟨1⟩, targetedBy := [⟨0⟩, ⟨3⟩], func := some ⟨0⟩ },
          { Instruction.decoded 5 [0xEB, 0xFC] 1 .jump with
            sec := 1, target := some ⟨2⟩, func := some ⟨0⟩ }]
      functions := ⟨#[{ Function.declared "spin" 1 (some (⟨0⟩, ⟨3⟩)) 0 with size := 7 }]⟩ }
  recorder := .empty

/-- What jumpers enter in front of the header joins its block. What is put in front of the instruction
before it, to be passed by, cuts a block at which no loop is closed. -/
theorem loopsTagged_of_edits_whirl : ∃ graph b,
    whirl.program.verify = .ok () ∧ buildBlocks whirl = .ok graph b
      ∧ ∀ done, done <+: [.insertBefore ⟨2⟩ (.synthetic [0x90] 1 .nop) .inserted,
          .insertBefore ⟨1⟩ (.synthetic [0x90] 1 .nop) .keep] →
        (outcome (done.forM Edit.run) b).LoopsTagged := by
  obtain ⟨graph, hbuild⟩ := Succeeds.ok (show Succeeds buildBlocks whirl = true by decide +kernel)
  have hruns : Succeeds (List.forM [.insertBefore ⟨2⟩ (.synthetic [0x90] 1 .nop) .inserted,
      .insertBefore ⟨1⟩ (.synthetic [0x90] 1 .nop) .keep] Edit.run) (outcome buildBlocks whirl) = true := by
    decide +kernel
  refine ⟨graph, _, isOk_iff.mp (by decide +kernel), hbuild, (loopsTagged_of_edits hbuild hruns).mpr ?_⟩
  intro done edit hdone
  -- one edit after the other
  match done, hdone with
  | [], hdone =>
    obtain rfl := (List.cons_prefix_cons.mp hdone).1
    decide +kernel
  | [first], hdone =>
    obtain ⟨rfl, hrest⟩ := List.cons_prefix_cons.mp hdone
    obtain rfl := (List.cons_prefix_cons.mp hrest).1
    decide +kernel
  | first :: second :: done, hdone =>
    have hlength := hdone.length_le
    simp at hlength

/-- An instruction that jumpers of the header are to pass by is put in front of it. The edge that falls
through from the instruction in front still closes a loop, and it leads to a block that is no
header any more. -/
theorem whirl_header_lost : ∃ graph b t,
    whirl.program.verify = .ok () ∧ buildBlocks whirl = .ok graph b
      ∧ (Edit.insertBefore ⟨2⟩ (.synthetic [0x90] 1 .nop) .keep).run b = .ok () t
      ∧ t.program.verify = .ok () ∧ ¬t.LoopsTagged := by
  obtain ⟨graph, hbuild⟩ := Succeeds.ok (show Succeeds buildBlocks whirl = true by decide +kernel)
  obtain ⟨_, hrun⟩ := Succeeds.ok (show Succeeds (Edit.insertBefore ⟨2⟩ (.synthetic [0x90] 1 .nop) .keep).run
    (outcome buildBlocks whirl) = true by decide +kernel)
  refine ⟨graph, _, _, isOk_iff.mp (by decide +kernel), hbuild, hrun, isOk_iff.mp (by decide +kernel), ?_⟩
  rintro ⟨after, hafter, htagged⟩
  have hedge : ((outcome (Edit.insertBefore ⟨2⟩ (.synthetic [0x90] 1 .nop) .keep).run
      (outcome buildBlocks whirl)).program.graph.bind (·.edge? ⟨1⟩)) = some ⟨⟨1⟩, ⟨2⟩, .fallthrough, .back⟩ := by
    decide +kernel
  have hkind : ((outcome (Edit.insertBefore ⟨2⟩ (.synthetic [0x90] 1 .nop) .keep).run
      (outcome buildBlocks whirl)).program.graph.bind (·.kind? ⟨2⟩)) = some .generic := by
    decide +kernel
  rw [hafter, Option.bind_some] at hedge hkind
  obtain ⟨-, kind, hheader, his⟩ := htagged ⟨1⟩ _ hedge rfl
  rw [hkind] at hheader
  obtain rfl := Option.some.inj hheader
  cases his

end Splice
