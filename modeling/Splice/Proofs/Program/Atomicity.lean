import Splice.Proofs.Chain.Acceptance
import Splice.Proofs.Program.Refusals
import Splice.Proofs.Program.Tending

/-!
# Refused removals

A removal looks for what forbids it before it changes anything, but for the ends of the block,
which it takes off last: where the neighbour to which an end would pass is missing, it is
refused with the jumpers and the bounds of the function already moved. That does not happen
where blocks lie within a function each (`excise_refused`). The block has another instruction,
which then is akin to the one that is removed, so the end has where to pass. For the same
reason a removal that succeeds leaves something of every block and of every function
(`remove_atomic`).

`Error.OfRemoval` lists the causes for which a removal is refused because of what it would
leave; other causes, such as a target that is missing, lie in a program that is not verified.
That blocks lie within functions is part of what is supposed and is needed: with a block that
reaches over two functions a removal is refused when half of it is done, as `divided` shows.
-/

namespace Splice

/-- The cause is one for which a removal is refused, because of what would be left. -/
def Error.OfRemoval : Error → Prop
  | .emptyBlock _ | .blockEndingTransfer _ => True
  | _ => False

theorem Error.OfPart.not_ofRemoval {cause : Error} (h : cause.OfPart) : ¬ cause.OfRemoval := by
  cases cause <;> simp_all [OfPart, OfRemoval]

namespace EngineM

variable {s t u : Session} {id removed : InstrId} {cause : Error} {shift : Shift} {graph : BlockGraph}
  {ps qs : List Part} {name : BlockId} {front back xs ys l : List InstrId}

/-! ## What updates and checks are refused for -/

/-- Rounds of shifts do not fail for what a removal would leave. -/
theorem settleRounds_refuses {steps : Nat} {summary : UpdateSummary} {round : List Shift} :
    Refuses (fun cause => ¬ cause.OfRemoval) (settleRounds summary steps round) := by
  induction steps generalizing summary round with
  | zero =>
    cases round with
    | nil => exact .pure _
    | cons shift round => exact .bind program_refuses fun _ => .throw fun h => h
  | succ steps ih =>
    cases round with
    | nil => exact .pure _
    | cons shift round => exact .bind (settleRound_refuses.mono fun _ h => h.not_ofRemoval) fun _ => ih

theorem settle_refuses : Refuses (fun cause => ¬ cause.OfRemoval) (settle shift) := by
  refine .bind program_refuses fun _ => .bind settleRounds_refuses fun summary => ?_
  exact .ite (.bind count_refuses fun _ => .pure _) (.pure _)

/-- The check is made before anything is changed. -/
theorem checkRemovable_refused {block : Option BlockId} {instr : Instruction}
    (h : checkRemovable block instr s = .error cause t) (hcause : cause.OfRemoval) : t = s := by
  cases block with
  | none => cases h
  | some name =>
    rcases bind_eq_error.mp h with hblock | ⟨block, m, hblock, hrest⟩
    · exact absurd hcause (onGraph_refuses hblock).not_ofRemoval
    · obtain ⟨_, -, -, rfl⟩ := onGraph_block_ok.mp hblock
      by_cases hcount : block.count = 1
      · rw [if_pos hcount] at hrest
        cases hrest
        rfl
      · rw [if_neg hcount] at hrest
        by_cases hends : instr.flags.endsBlock = true
        · simp only [if_pos hends] at hrest
          cases hrest
          rfl
        · simp only [if_neg hends] at hrest
          cases hrest

/-- Taking an instruction off the ends of its block is not refused where there is a neighbour for each end
that it is. -/
theorem moveEnd_ofPart {addr : UInt64} {taken : Prop} [Decidable taken] {heir : Option InstrId}
    {put : InstrId → Block → Block} (hheir : taken → heir.isSome) :
    Refuses Error.OfPart (moveEnd name addr taken heir put) := by
  by_cases htaken : taken
  · obtain ⟨heir, rfl⟩ := Option.isSome_iff_exists.mp (hheir htaken)
    exact .ite onGraph_refuses (.pure ())
  · unfold moveEnd
    rw [if_neg htaken]
    exact .pure ()

/-- With neighbours to take over its ends, a block refuses to lose an instruction only because of the
other records. -/
theorem shrinkBlock_refused {block : Block} {addr : UInt64} {after before : Option InstrId}
    (hgraph : s.program.graph = some graph) (hblock : graph.block? name = some block)
    (hafter : block.first = removed → after.isSome) (hbefore : block.last = removed → before.isSome)
    (h : shrinkBlock name removed addr after before s = .error cause t) : cause.OfPart := by
  rw [shrinkBlock_eq] at h
  rcases bind_eq_error.mp h with hread | ⟨found, m, hread, hrest⟩
  · exact onGraph_refuses hread
  obtain ⟨_, hgraph', hblock', rfl⟩ := onGraph_block_ok.mp hread
  obtain rfl := Option.some.inj (hgraph.symm.trans hgraph')
  obtain rfl := Option.some.inj (hblock.symm.trans hblock')
  rcases bind_eq_error.mp hrest with hcount | ⟨_, _, -, hends⟩
  · exact onGraph_refuses hcount
  rcases bind_eq_error.mp hends with hfirst | ⟨_, _, -, hlast⟩
  · exact moveEnd_ofPart hafter hfirst
  · exact moveEnd_ofPart hbefore hlast

/-! ## Removals -/

/-- Where the blocks lie within a function each, the neighbours of an instruction in its block are akin to
it. -/
theorem kin_of_block {node : Node} (hs : s.program.Sectioned graph (ps ++ ⟨name, front ++ id :: back⟩ :: qs) [])
    (hhoused : s.program.chain.Housed (ps ++ ⟨name, front ++ id :: back⟩ :: qs))
    (hnode : s.program.chain.node? id = some node) :
    (back ≠ [] → (kin s.program.chain node).1.isSome) ∧ (front ≠ [] → (kin s.program.chain node).2.isSome) := by
  have hl := hs.spells
  rw [code_at] at hl
  have hget : s.program.chain.get? id = some node.instr := by rw [Chain.get?, hnode]; rfl
  have hpart : (⟨name, front ++ id :: back⟩ : Part) ∈ ps ++ ⟨name, front ++ id :: back⟩ :: qs := by simp
  obtain ⟨owner, howner⟩ := hhoused _ hpart
  obtain ⟨sec, hsec⟩ := hs.uniform _ hpart
  have hakin : ∀ x ∈ front ++ id :: back, s.program.chain.akin node.instr x = true := by
    intro x hx
    obtain ⟨instr, hinstr⟩ := hs.spells.get?_isSome (Part.mem_code.mpr ⟨_, hpart, hx⟩)
    have hid : id ∈ front ++ id :: back := by simp
    exact Chain.akin_iff.mpr ⟨instr, hinstr, (howner x hx instr hinstr).trans (howner id hid _ hget).symm,
      ((Chain.inSection_iff hinstr).mp (hsec x hx)).trans ((Chain.inSection_iff hget).mp (hsec id hid)).symm⟩
  rw [kin_eq hl hnode]
  constructor
  · intro hne
    obtain ⟨next, back, rfl⟩ := List.exists_cons_of_ne_nil hne
    exact Option.isSome_iff_exists.mpr ⟨next, Option.filter_eq_some_iff.mpr ⟨rfl, hakin next (by simp)⟩⟩
  · intro hne
    obtain ⟨prev, hprev⟩ := Option.isSome_iff_exists.mp (List.getLast?_isSome.mpr hne)
    refine Option.isSome_iff_exists.mpr ⟨prev, Option.filter_eq_some_iff.mpr ⟨?_, hakin prev ?_⟩⟩
    · rw [List.getLast?_append, hprev]
      rfl
    · exact List.mem_append_left _ (List.mem_of_getLast? hprev)

/-- The ends of its block are taken off an instruction without refusal: the block has another one, in the
same function. -/
theorem shrink_refused {node : Node} {addr : UInt64} {block : Option BlockId} (hs : s.program.Tended)
    (hroom : s.program.Roomy) (hnode : s.program.chain.node? id = some node)
    (hblock : blockOf id s = .ok block s) (hcheck : checkRemovable block node.instr s = .ok () s)
    (hgraph : t.program.graph = s.program.graph)
    (h : block.forM (shrinkBlock · id addr (kin s.program.chain node).1 (kin s.program.chain node).2) t
      = .error cause u) : cause.OfPart := by
  cases hbuilt : s.program.graph with
  | none =>
    obtain rfl := blockOf_none hbuilt hblock
    cases h
  | some graph =>
    obtain ⟨parts, hsectioned, hhoused⟩ := hs.housed graph hbuilt
    obtain ⟨ps, name, front, back, qs, rfl, rfl⟩ :=
      blockOf_found hbuilt hsectioned.cuts (hsectioned.finds hroom) hblock
    obtain ⟨-, _, found, hgraph', hfound, hcount, -⟩ := checkRemovable_ok hcheck
    obtain rfl := Option.some.inj (hbuilt.symm.trans hgraph')
    obtain ⟨block, hblock', hends⟩ := hsectioned.cuts.bounds
    obtain rfl := Option.some.inj (hfound.symm.trans hblock')
    obtain ⟨hafter, hbefore⟩ := kin_of_block hsectioned hhoused hnode
    have hnodup := run_nodup hsectioned.spells
    refine shrinkBlock_refused (hgraph.trans hbuilt) hfound (fun hfirst => hafter ?_) (fun hlast => hbefore ?_) h
    · rintro rfl
      obtain rfl := (first_iff hends hnodup).mp hfirst
      exact hcount hends.count
    · rintro rfl
      obtain rfl := (last_iff hends hnodup).mp hlast
      exact hcount hends.count

/-- A removal that is refused because of what would be left has changed nothing. -/
theorem excise_refused (hs : s.program.Tended) (hroom : s.program.Roomy) (h : excise id s = .error cause u)
    (hcause : cause.OfRemoval) : u = s := by
  have hpart : ¬ cause.OfPart := fun hpart => hpart.not_ofRemoval hcause
  rcases bind_eq_error.mp h with hread | ⟨node, _, hread, hrun⟩
  · exact absurd (onChain_refuses hread) hpart
  obtain ⟨hnode, rfl⟩ := node_ok.mp hread
  rcases bind_eq_error.mp hrun with hread | ⟨block, _, hblock, hchecks⟩
  · exact absurd (blockOf_refuses hread) hpart
  obtain rfl := blockOf_ok hblock
  rcases bind_eq_error.mp hchecks with hcheck | ⟨_, m, hcheck, hpasses⟩
  · exact checkRemovable_refused hcheck hcause
  obtain rfl : m = s := checkRemovable_same hcheck
  have hread : program m = .ok m.program m := rfl
  rw [bind_run hread] at hpasses
  cases hheir : ((kin m.program.chain node).1 <|> (kin m.program.chain node).2) with
  | none =>
    simp only [hheir] at hpasses
    cases hpasses
    rfl
  | some heir =>
    simp only [hheir] at hpasses
    rcases bind_eq_error.mp hpasses with hpass | ⟨_, s₁, hpass, howns⟩
    · exact absurd (passOn_refuses hpass) hpart
    rcases bind_eq_error.mp howns with howner | ⟨_, s₂, howner, hshrinks⟩
    · exact absurd (updateOwner_refuses howner) hpart
    obtain rfl := updateOwner_ok howner
    rcases bind_eq_error.mp hshrinks with hshrink | ⟨_, s₃, -, hrest⟩
    · refine absurd (shrink_refused hs hroom hnode hblock hcheck ?_ hshrink) hpart
      rw [graph_withOwner]
      exact passOn_sameBlocks hpass
    -- what is left is to free the instruction and to look up jumpers
    have hfree : Refuses Error.OfPart (do
        let freed ← onChain (ChainM.free id)
        let edited ← liftResult .chain ((← program).jumpersInto [heir])
        return (freed, (⟨node.next, node.instr.sec, node.instr.func, (-node.instr.size).toInt64, edited⟩ : Shift))) :=
      .bind onChain_refuses fun _ => .bind program_refuses fun _ => .bind (.liftResult fun _ => trivial) fun _ =>
        .pure _
    exact absurd (hfree hrest) hpart

/-- A removal that is refused because of what it would leave has changed nothing: the check comes first,
and nothing that follows it fails for such a cause. -/
theorem remove_refused (hs : s.program.Tended) (hroom : s.program.Roomy) (h : remove id s = .error cause u)
    (hcause : cause.OfRemoval) : u = s := by
  rcases bind_eq_error.mp h with hexcise | ⟨⟨freed, shift⟩, m, hexcise, hrun⟩
  · exact excise_refused hs hroom hexcise hcause
  · have hsettles : Refuses (fun cause => ¬ cause.OfRemoval) (do
        discard (settle shift)
        return freed : EngineM Instruction) := .bind (.discard settle_refuses) fun _ => .pure _
    exact absurd hcause (hsettles hrun)

/-- Looking up the block changes nothing, also where there is none. -/
theorem blockOf_refused (h : blockOf id s = .error cause t) : t = s := by
  have hread : program s = .ok s.program s := rfl
  rw [blockOf, bind_run hread] at h
  cases hgraph : s.program.graph with
  | none =>
    rw [hgraph] at h
    cases h
  | some graph =>
    rw [hgraph] at h
    cases hfind : graph.find s.program.chain id with
    | error other =>
      simp only [hfind] at h
      cases h
      rfl
    | ok found =>
      simp only [hfind] at h
      cases found <;> cases h
      rfl

/-- Nothing in the place of an instruction is refused, and changes nothing. -/
theorem substitute_nil : ∃ cause, substitute id [] s = .error cause s := by
  suffices hsplice : ∃ cause, spliceInstead id [] s = .error cause s by
    obtain ⟨cause, h⟩ := hsplice
    exact ⟨cause, bind_error h⟩
  cases hfound : s.program.chain.get? id with
  | none =>
    have hinstr : instr id s = .error (.chain (.missingInstruction id)) s := by
      rw [instr, onChain, focus, ChainM.instr_refused (by rw [Chain.contains_eq_isSome_get?, hfound]; rfl)]
    exact ⟨_, bind_error hinstr⟩
  | some found =>
    have hinstr : instr id s = .ok found s := instr_ok.mpr ⟨hfound, rfl⟩
    rw [spliceInstead, bind_run hinstr]
    cases hblock : blockOf id s with
    | error cause t =>
      obtain rfl := blockOf_refused hblock
      exact ⟨cause, bind_error hblock⟩
    | ok block t =>
      obtain rfl := blockOf_ok hblock
      exact ⟨_, (bind_run hblock).trans (bind_error rfl)⟩

/-! ## What a removal leaves -/

/-- An instruction and its heir are in the same function and section. -/
theorem heir?_akin {found : Instruction} {heir : InstrId} (hl : s.program.chain.Spells (xs ++ id :: ys))
    (hfound : s.program.chain.get? id = some found) (hheir : heir? s.program.chain id = some heir) :
    s.program.chain.akin found heir = true := by
  rw [heir?_eq hl hfound] at hheir
  cases hafter : ys.head?.filter (s.program.chain.akin found) with
  | some next =>
    rw [hafter] at hheir
    obtain rfl := Option.some.inj hheir
    exact (Option.filter_eq_some_iff.mp hafter).2
  | none =>
    rw [hafter] at hheir
    exact (Option.filter_eq_some_iff.mp hheir).2

/-- A function is not removed with one of its instructions: the heir is another one. -/
theorem excise_defined {freed : Instruction} {owner : FuncId} {function : Function}
    (hs : s.program.InPlace (xs ++ id :: ys) []) (h : excise id s = .ok (freed, shift) t)
    (hfunction : s.program.functions.get? owner = some function) (hdefined : function.first.isSome) :
    ∃ after, t.program.functions.get? owner = some after ∧ after.first.isSome := by
  obtain ⟨found, heir, hheir, hfits, -, hfunctions, -⟩ := excise_fits hs.sited h
  have hl := hs.orderly.spells
  rw [hfunctions, get?_withOwner]
  by_cases howner : found.func = some owner
  · rw [if_pos howner, hfunction]
    refine ⟨_, rfl, ?_⟩
    show (if function.first = some id then _ else function.first).isSome
    by_cases hid : function.first = some id
    · rw [if_pos hid]
      obtain ⟨run, hspans, hstamped⟩ := hs.orderly.owned owner function hfunction
      have hmem := (hstamped id (List.mem_append_right _ (List.mem_cons_self ..)) found hfits.get?).mp howner
      obtain ⟨front, behind, rfl⟩ := List.append_of_mem hmem
      obtain rfl := (hspans.first_iff hl.nodup).mp hid
      obtain ⟨hhead, -⟩ := akin_bounds hs.orderly hfits.get? hheir howner hfunction hspans
      rw [← hhead hid, List.isSome_head?]
      rcases mem_run_of_akin hs.orderly howner hfunction hspans (heir?_mem hl hheir)
        (heir?_akin hl hfits.get? hheir) with hin | hin
      · cases hin
      · exact List.ne_nil_of_mem hin
    · rwa [if_neg hid]
  · rw [if_neg howner]
    exact ⟨function, hfunction, hdefined⟩

/-- Where functions own their runs, the bounds of a function that is defined are linked. -/
theorem bounds_linked {owner : FuncId} {function : Function} (hs : s.program.Orderly l)
    (hfunction : s.program.functions.get? owner = some function) (hdefined : function.first.isSome) :
    ∃ first last, function.first = some first ∧ function.last = some last
      ∧ s.program.chain.isLinked first = true ∧ s.program.chain.isLinked last = true := by
  obtain ⟨run, hspans, -⟩ := hs.owned owner function hfunction
  have hsub : ∀ x ∈ run, x ∈ l := fun x hx => hspans.subset hx
  obtain ⟨_, _, -, hfirst, hlast⟩ := hspans
  rw [hfirst, List.isSome_head?] at hdefined
  obtain ⟨first, hhead⟩ := Option.isSome_iff_exists.mp (List.isSome_head?.mpr hdefined)
  obtain ⟨last, hend⟩ := Option.isSome_iff_exists.mp (List.getLast?_isSome.mpr hdefined)
  exact ⟨first, last, hfirst.trans hhead, (hlast hdefined).trans hend,
    hs.spells.isLinked_iff.mpr (hsub first (List.mem_of_head? hhead)),
    hs.spells.isLinked_iff.mpr (hsub last (List.mem_of_getLast? hend))⟩

/-- Each block of a program that is looked after is a run of linked instructions, and not empty. -/
theorem block_filled {block : Block} (hs : s.program.Tended) (hgraph : s.program.graph = some graph)
    (hblock : graph.block? name = some block) :
    ∃ run, graph.instructions s.program.chain name = .ok run ∧ run ≠ [] ∧ block.count = run.length
      ∧ ∀ x ∈ run, s.program.chain.isLinked x = true := by
  obtain ⟨parts, hsectioned, -⟩ := hs.housed graph hgraph
  obtain ⟨ps, run, qs, rfl⟩ := hsectioned.cuts.part_of (by rw [hblock]; rfl)
  have hpart : (⟨name, run⟩ : Part) ∈ ps ++ ⟨name, run⟩ :: qs := by simp
  obtain ⟨found, hfound, hends⟩ := hsectioned.cuts.bounds
  obtain rfl := Option.some.inj (hblock.symm.trans hfound)
  exact ⟨run, GraphM.instructions_of_cuts hsectioned.spells hsectioned.cuts hpart,
    hsectioned.cuts.run_ne_nil hpart, hends.count, fun x hx =>
      hsectioned.spells.isLinked_iff.mpr (Part.mem_code.mpr ⟨_, hpart, hx⟩)⟩

/-- No function loses its run by a removal: one whose only instruction is removed refuses it. -/
theorem remove_defined {freed : Instruction} {owner : FuncId} {function : Function} (hs : s.program.Tended)
    (h : remove id s = .ok freed u) (hfunction : s.program.functions.get? owner = some function)
    (hdefined : function.first.isSome) :
    ∃ after, u.program.functions.get? owner = some after ∧ after.first.isSome := by
  simp only [remove, bind_ok, discard_ok, pure_ok] at h
  obtain ⟨⟨freed, shift⟩, m, hexcise, _, _, ⟨summary, hsettle⟩, -, rfl⟩ := h
  obtain ⟨heir, hheir⟩ := excise_heir hexcise
  obtain ⟨xs, ys, hcut⟩ := List.append_of_mem (heir?_linked hs.spells hheir)
  obtain ⟨middle, hmiddle, hfirst⟩ := excise_defined (hcut ▸ hs.inPlace) hexcise hfunction hdefined
  obtain ⟨after, hafter, hcarried⟩ := FunctionTable.Carries.get?
    (Session.Carries.updateRelation.settle hsettle).functions hmiddle
  exact ⟨after, hafter, by rwa [hcarried.first]⟩

/-- Whatever edits were made and however blocks were built, dropped and worked on in between, a removal
that is refused because of what would be left has changed nothing, nor has a substitution by nothing.
After a removal that succeeds each block is a run of linked instructions that is not empty, and each
function that was defined is so still, with bounds that are linked. -/
theorem remove_atomic {tasks : List Task} (hs : s.program.Editable) (htasks : Task.Leads s tasks t) (id : InstrId) :
    (∀ cause u, remove id t = .error cause u → cause.OfRemoval → u = t)
      ∧ (∃ cause, substitute id [] t = .error cause t)
      ∧ ∀ freed u, remove id t = .ok freed u →
        (∀ graph name block, u.program.graph = some graph → graph.block? name = some block →
          ∃ run, graph.instructions u.program.chain name = .ok run ∧ run ≠ [] ∧ block.count = run.length
            ∧ ∀ x ∈ run, u.program.chain.isLinked x = true)
        ∧ ∀ owner function, t.program.functions.get? owner = some function → function.isDefined = true →
          ∃ after first last, u.program.functions.get? owner = some after ∧ after.first = some first
            ∧ after.last = some last ∧ u.program.chain.isLinked first = true
            ∧ u.program.chain.isLinked last = true := by
  obtain ⟨hroom, ht⟩ := tasks_tended htasks hs.tended
  refine ⟨fun cause u h hcause => remove_refused ht hroom h hcause, substitute_nil, fun freed u h => ?_⟩
  have hrun : (Edit.remove id).run t = .ok () u := discard_ok.mpr ⟨freed, h⟩
  have hu : u.program.Tended := edit_tended rfl (fun _ hnone => absurd hnone List.not_mem_nil) hroom ht hrun
  refine ⟨fun graph name block hgraph hblock => block_filled hu hgraph hblock,
    fun owner function hfunction hdefined => ?_⟩
  obtain ⟨after, hafter, hsome⟩ := remove_defined ht h hfunction hdefined
  obtain ⟨first, last, hbounds⟩ := bounds_linked hu.inPlace.orderly hafter hsome
  exact ⟨after, first, last, hafter, hbounds⟩

/-- The jump over an instruction satisfies what the edits need. -/
theorem hop_editable : hop.program.Editable where
  toReady := hop_divisible.toReady
  covered := hop_divisible.covered
  bounded := hop_regular.bounded
  lodged := fun _ hnone => nomatch hnone

/-- A block with one instruction, after an edit inside and one outside of it, refuses to lose that
instruction. -/
theorem remove_atomic_hop : ∃ t,
    hop.program.Editable
      ∧ Task.Leads hop
        [.work (.edit (.insertBefore ⟨2⟩ (.synthetic [0x90] 1 .nop) .inserted)),
          .buildBlocks,
          .work (.edit (.substitute ⟨1⟩ [.synthetic [0x90] 1 .nop, .synthetic [0x90] 1 .nop]))] t
      ∧ remove ⟨0⟩ t = .error (.emptyBlock 0) t := by
  have hleads : ∃ t, Task.Leads hop
      [.work (.edit (.insertBefore ⟨2⟩ (.synthetic [0x90] 1 .nop) .inserted)),
        .buildBlocks,
        .work (.edit (.substitute ⟨1⟩ [.synthetic [0x90] 1 .nop, .synthetic [0x90] 1 .nop]))] t
      ∧ Fails (remove ⟨0⟩) t (.emptyBlock 0) = true := by
    refine ⟨_, ⟨?_, ?_, ?_, ?_, ?_, ?_, ?_, rfl⟩, ?_⟩ <;> decide +kernel
  obtain ⟨t, hleads, hfails⟩ := hleads
  have hrefused := Fails.error hfails
  have hsame := (remove_atomic hop_editable hleads ⟨0⟩).1 _ _ hrefused trivial
  exact ⟨t, hop_editable, hleads, hrefused.trans (by rw [hsame])⟩

/-! A function that is divided after the blocks were built leaves a block that lies in both halves. -/

/-- Three instructions and a jump back to the second of them. The last two may belong to another function
than the first two. -/
def turn (owner : FuncId) (functions : List Function) : Session where
  program :=
    { hop.program with
      chain := .ofList
        [{ Instruction.decoded 0 [0x90] 1 .nop with sec := 1, func := some ⟨0⟩ },
          { Instruction.decoded 1 [0x90] 1 .nop with sec := 1, targetedBy := [⟨3⟩], func := some ⟨0⟩ },
          { Instruction.decoded 2 [0x90] 1 .nop with sec := 1, func := some owner },
          { Instruction.decoded 3 [0xEB, 0xFC] 1 .jump with
            sec := 1, target := some ⟨1⟩, func := some owner }]
      functions := ⟨functions.toArray⟩ }
  recorder := .empty

/-- The blocks of one function, of which the second half is a function of its own by now. -/
def divided : Session :=
  let whole := turn ⟨0⟩ [{ Function.declared "f" 1 (some (⟨0⟩, ⟨3⟩)) 0 with size := 5 }]
  let halves := turn ⟨1⟩ [{ Function.declared "f" 1 (some (⟨0⟩, ⟨1⟩)) 0 with size := 2 },
    { Function.declared "g" 1 (some (⟨2⟩, ⟨3⟩)) 2 with size := 3 }]
  { halves with program := { halves.program with graph := (outcome buildBlocks whole).program.graph } }

/-- The halved function passes the checks and has a block graph that does too. -/
theorem divided_ready : divided.program.Ready where
  verified := isOk_iff.mp (by decide +kernel)
  attached := Chain.attached_ofList _
  consecutive := .of_section 1 (by decide)
  filled := by decide

/-- Each instruction of the halved function has a block. -/
theorem divided_covered : divided.program.Covered where
  single := by
    intro owner function hfunction _
    refine ⟨1, ?_⟩
    obtain ⟨index⟩ := owner
    match index with
    | 0 | 1 =>
      obtain rfl := Option.some.inj hfunction
      unfold Chain.Within
      decide
    | index + 2 => cases hfunction
  covers := by
    intro id hid
    have hid' : (id = ⟨0⟩ ∨ id = ⟨1⟩) ∨ id = ⟨2⟩ ∨ id = ⟨3⟩ := by
      revert id
      decide
    rcases hid' with hid' | hid'
    · refine ⟨⟨0⟩, _, rfl, rfl, rfl, ?_⟩
      rcases hid' with rfl | rfl <;> decide
    · refine ⟨⟨1⟩, _, rfl, rfl, rfl, ?_⟩
      rcases hid' with rfl | rfl <;> decide

/-- The removal of the first of three instructions of a block is refused for leaving the block empty, with the
jump moved already. -/
theorem divided_half_moved : ∃ t,
    divided.program.Ready ∧ divided.program.Covered
      ∧ (∀ owner function, divided.program.functions.get? owner = some function → function.last.isSome = true)
      ∧ (divided.program.graph.bind (·.block? ⟨1⟩)).map (fun block => (block.first, block.count)) = some (⟨1⟩, 3)
      ∧ remove ⟨1⟩ divided = .error (.emptyBlock 1) t
      ∧ t ≠ divided ∧ t.program.verify ≠ .ok () := by
  have hfails : Fails (remove ⟨1⟩) divided (.emptyBlock 1) = true := by decide +kernel
  have hrefused : (outcome (remove ⟨1⟩) divided).program.verify.isOk = false := by decide +kernel
  have hverify : (outcome (remove ⟨1⟩) divided).program.verify ≠ .ok () := by
    intro hok
    rw [hok] at hrefused
    cases hrefused
  refine ⟨_, divided_ready, divided_covered, fun owner function hfunction => ?_, by decide +kernel,
    Fails.error hfails, fun hsame => ?_, hverify⟩
  · obtain ⟨index⟩ := owner
    match index with
    | 0 | 1 =>
      obtain rfl := Option.some.inj hfunction
      rfl
    | index + 2 => cases hfunction
  · rw [hsame] at hverify
    exact hverify divided_ready.verified

end EngineM

end Splice
