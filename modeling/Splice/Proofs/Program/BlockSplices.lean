import Splice.Proofs.Block.Entry
import Splice.Proofs.Block.Ordered
import Splice.Proofs.Program.Blocks
import Splice.Proofs.Program.Building

/-!
# Splices inside of blocks

What each splice makes of the block that its site lies in, given that this block is found
(`blockOf_found`): the run of the block grows, is replaced in part or shrinks, and no edge is
touched. There is one exception. An instruction that is put in front of a block and that
jumpers are to pass by gets a block of its own (`extendBlockBefore_ok`).

The state between a splice and its shift is `Program.Blocked`: code that is laid out but for the
shifts to come, cut into parts, none of it empty. `Joins` is the one place where the two ways of
inserting in front of a block differ, and each later property of blocks is proved by its two
cases. Which part an instruction comes from is kept by `Chain.Descends`.
-/

namespace Splice

namespace BlockGraph

variable {graph : BlockGraph} {id : BlockId} {block : Block} {f g : Block → Block}

/-- Two changes that do the same to the block do the same to the graph. -/
theorem withBlock_congr (hblock : graph.block? id = some block) (h : f block = g block) :
    graph.withBlock id f = graph.withBlock id g := by
  unfold withBlock
  congr 1
  refine Array.ext_getElem? fun index => ?_
  rw [Array.getElem?_modify, Array.getElem?_modify]
  split
  next he =>
    rw [← he, show graph.blocks[id.index]? = some block from hblock, Option.map_some, Option.map_some, h]
  next => rfl

/-- A change that does nothing to the block does nothing to the graph. -/
theorem withBlock_self : graph.withBlock id (fun block => block) = graph := by
  unfold withBlock
  congr 1
  refine Array.ext_getElem? fun index => ?_
  rw [Array.getElem?_modify]
  split <;> simp

/-- Two changes of one block after each other are one. -/
theorem withBlock_withBlock : (graph.withBlock id f).withBlock id g = graph.withBlock id (g ∘ f) := by
  unfold withBlock
  congr 1
  refine Array.ext_getElem? fun index => ?_
  rw [Array.getElem?_modify, Array.getElem?_modify, Array.getElem?_modify]
  split
  next => rw [Option.map_map]
  next => rfl

end BlockGraph

namespace Session

/-- The session with another block graph. -/
def withGraph (s : Session) (graph : BlockGraph) : Session := { s with program.graph := some graph }

theorem withGraph_self {s : Session} {graph : BlockGraph} (h : s.program.graph = some graph) :
    s.withGraph graph = s := by
  rw [withGraph, ← h]

/-- The sessions have the same blocks. -/
def SameBlocks (s t : Session) : Prop := t.program.graph = s.program.graph

theorem SameBlocks.stepRelation : StepRelation SameBlocks where
  refl _ := rfl
  trans h k := Eq.trans k h

end Session

namespace EngineM

variable {α : Type} {s t : Session} {u : Unit} {anchor new old removed first last : InstrId}

/-! ## Operations that leave the blocks alone -/

/-- Changes of an instruction leave the blocks. -/
theorem updateInstr_sameBlocks {id : InstrId} {f : Instruction → Instruction} :
    Keeps Session.SameBlocks (updateInstr id f) := by
  intro s u t h
  rw [(updateInstr_ok.mp h).2]
  rfl

/-- Changes of a symbol leave the blocks. -/
theorem updateSymbol_sameBlocks {symbol : SymbolId} {f : Symbol → Symbol} :
    Keeps Session.SameBlocks (updateSymbol symbol f) := by
  intro s u t h
  simp only [updateSymbol, bind_ok, program_ok, liftResult_ok, updateProgram_ok] at h
  obtain ⟨_, _, ⟨rfl, rfl⟩, _, _, ⟨-, rfl⟩, rfl⟩ := h
  rfl

theorem repointSymbols_sameBlocks {symbols : List SymbolId} {source dest : InstrId} {delta : Int64} :
    Keeps Session.SameBlocks (repointSymbols symbols source dest delta) :=
  Keeps.forM Session.SameBlocks.stepRelation fun _ _ => updateSymbol_sameBlocks

/-- Handing jumpers on leaves the blocks. -/
theorem moveReferences_sameBlocks {source dest : InstrId} :
    Keeps Session.SameBlocks (moveReferences source dest) := by
  have hr := Session.SameBlocks.stepRelation
  have hread : ∀ id, Keeps Session.SameBlocks (instr id) := fun id =>
    Keeps.of_state_eq hr fun h => (instr_ok.mp h).2.symm
  refine Keeps.bind hr (hread dest) fun _ => Keeps.bind hr (hread source) fun _ => ?_
  refine Keeps.bind hr (hread source) fun _ => Keeps.bind hr updateInstr_sameBlocks fun _ => ?_
  exact Keeps.bind hr repointSymbols_sameBlocks fun _ => updateInstr_sameBlocks

/-- Moving an instruction leaves the blocks. -/
theorem moveInstruction_sameBlocks {id : InstrId} {addr : UInt64} :
    Keeps Session.SameBlocks (moveInstruction id addr) := by
  have hr := Session.SameBlocks.stepRelation
  refine Keeps.bind hr (Keeps.of_state_eq hr fun h => (instr_ok.mp h).2.symm) fun found => ?_
  by_cases haddr : found.addr = addr
  · simp only [haddr, if_true]
    exact Keeps.pure hr false
  · simp only [haddr, if_false]
    refine Keeps.bind hr updateInstr_sameBlocks fun _ => ?_
    refine Keeps.bind hr (Keeps.forM hr fun _ _ => updateSymbol_sameBlocks) fun _ => ?_
    exact Keeps.bind hr (Keeps.forM hr fun _ _ => updateSymbol_sameBlocks) fun _ => Keeps.pure hr true

/-- Taking relocations over leaves the blocks. -/
theorem rehomeRelocations_sameBlocks {relocs : List SymbolId} :
    Keeps Session.SameBlocks (rehomeRelocations relocs old first) :=
  Keeps.bind Session.SameBlocks.stepRelation
    (Keeps.forM Session.SameBlocks.stepRelation fun _ _ => updateSymbol_sameBlocks) fun _ =>
    updateInstr_sameBlocks

theorem graph_withOwner {owner : Option FuncId} {f : Function → Function} :
    (withOwner s owner f).program.graph = s.program.graph := by
  cases owner <;> rfl

/-- Choosing which jumpers enter leaves the blocks. -/
theorem enteringJumpers_sameBlocks {retarget : Retarget} :
    Keeps Session.SameBlocks (enteringJumpers anchor new retarget) := by
  intro s entering t h
  rcases enteringJumpers_run h with ⟨-, rfl⟩ | ⟨-, -, redirects, -, hmove⟩
  · rfl
  · exact (moveReferences_sameBlocks hmove).trans rfl

/-- Passing on what points at an instruction leaves the blocks. -/
theorem passOn_sameBlocks {id heir : InstrId} : Keeps Session.SameBlocks (passOn id heir) := by
  intro s u t h
  simp only [passOn, bind_ok, onChain_ok, updateProgram_ok, instr_ok] at h
  obtain ⟨_, _, ⟨c, -, rfl⟩, _, s₂, hmove, _, _, rfl, _, _, ⟨-, rfl⟩, _, s₃, hrelocs, hrecords⟩ := h
  have hdrop := Keeps.forM Session.SameBlocks.stepRelation (fun _ _ => updateSymbol_sameBlocks) hrecords
  have hmoved : s₂.program.graph = s.program.graph := (moveReferences_sameBlocks hmove).trans rfl
  exact hdrop.trans ((updateInstr_sameBlocks hrelocs).trans hmoved)

/-- Linking an instruction leaves the blocks: they are extended by a step of its own. -/
theorem linkInserted_sameBlocks {given : Instruction} : Keeps Session.SameBlocks (linkInserted new given) := by
  intro s u t h
  obtain ⟨_, rfl, -⟩ := linkInserted_ok h
  rfl

/-- Placing instructions leaves the blocks. -/
theorem placeInserted_sameBlocks {placed : List (InstrId × Instruction)} {addr : UInt64} :
    Keeps Session.SameBlocks (placeInserted addr placed) := by
  have hr := Session.SameBlocks.stepRelation
  induction placed generalizing addr with
  | nil => exact Keeps.pure hr _
  | cons entry placed ih =>
    exact Keeps.bind hr updateInstr_sameBlocks fun _ => Keeps.bind hr linkInserted_sameBlocks fun _ => ih

/-! ## Operations on the blocks -/

/-- An action on the graph succeeds exactly if there is a graph and the action succeeds on it; nothing
else changes. -/
theorem onGraph_ok {action : GraphM α} {a : α} : onGraph action s = .ok a t
    ↔ ∃ graph after, s.program.graph = some graph ∧ action graph = .ok a after
      ∧ t = s.withGraph after := by
  simp only [onGraph, bind_ok, program_ok]
  constructor
  · rintro ⟨_, _, ⟨rfl, rfl⟩, h⟩
    cases hgraph : s.program.graph with
    | none =>
      rw [hgraph] at h
      exact (throw_ok.mp h).elim
    | some graph =>
      rw [hgraph] at h
      obtain ⟨after, hrun, rfl⟩ := focus_ok.mp h
      exact ⟨graph, after, rfl, hrun, rfl⟩
  · rintro ⟨graph, after, hgraph, hrun, rfl⟩
    refine ⟨_, _, ⟨rfl, rfl⟩, ?_⟩
    rw [hgraph]
    exact focus_ok.mpr ⟨after, hrun, rfl⟩

/-- Looking up a block changes nothing. -/
theorem onGraph_block_ok {id : BlockId} {block : Block} : onGraph (GraphM.block id) s = .ok block t
    ↔ ∃ graph, s.program.graph = some graph ∧ graph.block? id = some block ∧ t = s := by
  rw [onGraph_ok]
  constructor
  · rintro ⟨graph, after, hgraph, hrun, rfl⟩
    obtain ⟨hblock, rfl⟩ := GraphM.block_ok.mp hrun
    exact ⟨after, hgraph, hblock, Session.withGraph_self hgraph⟩
  · rintro ⟨graph, hgraph, hblock, rfl⟩
    exact ⟨graph, graph, hgraph, GraphM.block_ok.mpr ⟨hblock, rfl⟩, (Session.withGraph_self hgraph).symm⟩

/-- A block is changed exactly if it is there. -/
theorem onGraph_updateBlock_ok {id : BlockId} {f : Block → Block} :
    onGraph (GraphM.updateBlock id f) s = .ok u t
      ↔ ∃ graph, s.program.graph = some graph ∧ (graph.block? id).isSome
        ∧ t = s.withGraph (graph.withBlock id f) := by
  rw [onGraph_ok]
  constructor
  · rintro ⟨graph, after, hgraph, hrun, rfl⟩
    obtain ⟨hblock, rfl⟩ := GraphM.updateBlock_ok.mp hrun
    exact ⟨graph, hgraph, hblock, rfl⟩
  · rintro ⟨graph, hgraph, hblock, rfl⟩
    exact ⟨graph, _, hgraph, GraphM.updateBlock_ok.mpr ⟨hblock, rfl⟩, rfl⟩

/-! ## The block of an instruction -/

section Found

variable {graph : BlockGraph} {parts : List Part} {id : InstrId} {block : Option BlockId}

/-- The block that an edit works on, where there are blocks. -/
theorem blockOf_built (hgraph : s.program.graph = some graph) (h : blockOf id s = .ok block t) :
    ∃ name, block = some name ∧ graph.find s.program.chain id = .ok (some name) := by
  simp only [blockOf, bind_ok, program_ok] at h
  obtain ⟨_, _, ⟨rfl, rfl⟩, h⟩ := h
  rw [hgraph] at h
  simp only [bind_ok, liftResult_ok] at h
  obtain ⟨found, _, ⟨hfind, rfl⟩, h⟩ := h
  cases found with
  | none => exact (throw_ok.mp h).elim
  | some name =>
    obtain ⟨rfl, -⟩ := pure_ok.mp h
    refine ⟨name, rfl, ?_⟩
    cases hrun : graph.find s.program.chain id with
    | error cause =>
      rw [hrun] at hfind
      cases hfind
    | ok found =>
      rw [hrun] at hfind
      exact hfind

/-- The block that is found for an edit holds the instruction. -/
theorem blockOf_found (hgraph : s.program.graph = some graph) (hcuts : graph.Cuts parts)
    (hfinds : graph.Finds s.program.chain parts) (h : blockOf id s = .ok block t) :
    ∃ ps name front back qs, block = some name ∧ parts = ps ++ ⟨name, front ++ id :: back⟩ :: qs := by
  obtain ⟨name, rfl, hfind⟩ := blockOf_built hgraph h
  obtain ⟨part, hpart, rfl⟩ := List.mem_map.mp (BlockGraph.find_ok hcuts hfind).1
  obtain ⟨front, back, hrun⟩ := List.append_of_mem (hfinds part hpart id hfind)
  obtain ⟨ps, qs, rfl⟩ := List.append_of_mem hpart
  exact ⟨ps, part.id, front, back, qs, rfl, by rw [← hrun]⟩

end Found

/-! ## Runs that are replaced in part -/

/-- The block with one instruction more in front of `anchor`. -/
def extendedBefore (anchor new : InstrId) (block : Block) : Block :=
  { block with
    count := block.count + 1
    first := if block.first = anchor then new else block.first }

/-- The block without `removed`, in the place of which come its neighbours. -/
def shrunk (removed : InstrId) (after before : Option InstrId) (block : Block) : Block :=
  { block with
    count := block.count - 1
    first := if block.first = removed then after.getD block.first else block.first
    last := if block.last = removed then before.getD block.last else block.last }

section Runs

variable {graph after : BlockGraph} {ps qs : List Part} {id : BlockId} {front back mid : List InstrId}
  {site : InstrId} {prev next : Option BlockId} {retarget : Retarget}

/-- The first instruction of a block is the site exactly if nothing of the run is in front of it. -/
theorem first_iff {bounds : Bounds} (h : bounds.Fits (front ++ site :: back) prev next)
    (hnodup : (front ++ site :: back).Nodup) : bounds.first = site ↔ front = [] := by
  have hfirst := h.first
  cases front with
  | nil => simpa [eq_comm] using hfirst
  | cons x front =>
    obtain rfl : x = bounds.first := Option.some.inj hfirst
    rw [List.cons_append, List.nodup_cons] at hnodup
    refine iff_of_false (fun he => hnodup.1 ?_) (List.cons_ne_nil _ _)
    rw [he]
    exact List.mem_append_right _ (List.mem_cons_self ..)

/-- The last instruction of a block is the site exactly if nothing of the run is behind it. -/
theorem last_iff {bounds : Bounds} (h : bounds.Fits (front ++ site :: back) prev next)
    (hnodup : (front ++ site :: back).Nodup) : bounds.last = site ↔ back = [] := by
  have hlast := h.last
  rw [List.getLast?_append, List.getLast?_cons, Option.some_or, Option.some.injEq] at hlast
  have hnot : site ∉ back := (List.nodup_cons.mp (List.nodup_append.mp hnodup).2.1).1
  cases hback : back.getLast? with
  | none => simp [← hlast, List.getLast?_eq_none_iff.mp hback]
  | some x =>
    have hx := List.mem_of_getLast? hback
    rw [← hlast, hback, Option.getD_some]
    exact iff_of_false (fun he => hnot (he ▸ hx)) (List.ne_nil_of_mem hx)

/-- Other instructions in the place of one of a run. -/
theorem fits_replace (mid : List InstrId) (other : Bounds) {bounds : Bounds}
    (h : bounds.Fits (front ++ site :: back) prev next)
    (hnodup : (front ++ site :: back).Nodup)
    (hfirst : if bounds.first = site then (mid ++ back).head? = some other.first
      else other.first = bounds.first)
    (hlast : if bounds.last = site then (front ++ mid).getLast? = some other.last
      else other.last = bounds.last)
    (hcount : other.count + 1 = bounds.count + mid.length) (hprev : other.prev = bounds.prev)
    (hnext : other.next = bounds.next) : other.Fits (front ++ mid ++ back) prev next := by
  refine ⟨?_, ?_, ?_, hprev.trans h.prev, hnext.trans h.next⟩
  · by_cases hfront : front = []
    · rw [if_pos ((first_iff h hnodup).mpr hfront)] at hfirst
      rw [hfront]
      exact hfirst
    · rw [if_neg (mt (first_iff h hnodup).mp hfront)] at hfirst
      have hhead : front.head? = some bounds.first := by
        rw [← h.first, List.head?_append, Option.or_of_isSome (List.isSome_head?.mpr hfront)]
      rw [List.append_assoc, List.head?_append, hhead, hfirst]
      rfl
  · by_cases hback : back = []
    · rw [if_pos ((last_iff h hnodup).mpr hback)] at hlast
      rw [hback, List.append_nil]
      exact hlast
    · rw [if_neg (mt (last_iff h hnodup).mp hback)] at hlast
      obtain ⟨x, hx⟩ := Option.isSome_iff_exists.mp (List.getLast?_isSome.mpr hback)
      have hend := h.last
      rw [List.getLast?_append, List.getLast?_cons, hx] at hend
      rw [List.getLast?_append, hx, hlast]
      exact hend
  · have hold := h.count
    simp only [List.length_append, List.length_cons] at hold ⊢
    omega

/-- The extended block fits the run with the new instruction in front of the anchor; it is the new first
if the anchor was. -/
theorem fits_extendedBefore {block : Block} (h : block.bounds.Fits (front ++ anchor :: back) prev next)
    (hnodup : (front ++ anchor :: back).Nodup) :
    (extendedBefore anchor new block).bounds.Fits (front ++ new :: anchor :: back) prev next := by
  have hfits := fits_replace [new, anchor] (extendedBefore anchor new block).bounds h hnodup
    (by
      unfold extendedBefore Block.bounds
      split <;> simp)
    (by
      unfold extendedBefore Block.bounds
      split
      next he => simpa using he.symm
      next => rfl)
    (by simp [extendedBefore, Block.bounds]) rfl rfl
  simpa using hfits

/-- The block extended behind the anchor fits the run with the new instruction there. -/
theorem fits_extendedBehind {block : Block} (h : block.bounds.Fits (front ++ anchor :: back) prev next)
    (hnodup : (front ++ anchor :: back).Nodup) :
    (extendedBehind anchor new block).bounds.Fits (front ++ anchor :: new :: back) prev next := by
  have hfits := fits_replace [anchor, new] (extendedBehind anchor new block).bounds h hnodup
    (by
      unfold extendedBehind Block.bounds
      split
      next he => simpa using he.symm
      next => rfl)
    (by
      unfold extendedBehind Block.bounds
      split <;> simp)
    (by simp [extendedBehind, Block.bounds]) rfl rfl
  simpa using hfits

/-- The ends of a block follow a substitution, and its count grows by what comes in. -/
theorem fits_replacingEnds {block : Block} {ids : List InstrId}
    (h : block.bounds.Fits (front ++ old :: back) prev next) (hnodup : (front ++ old :: back).Nodup)
    (hfirst : ids.head? = some first) (hlast : ids.getLast? = some last) :
    (replacingEnds old first last ids.length block).bounds.Fits (front ++ ids ++ back) prev next := by
  have hlength : 0 < ids.length := List.length_pos_of_mem (List.mem_of_head? hfirst)
  refine fits_replace ids _ h hnodup ?_ ?_ ?_ rfl rfl
  · unfold replacingEnds Block.bounds
    split <;> simp [hfirst]
  · unfold replacingEnds Block.bounds
    split <;> simp [hlast]
  · show block.count + (ids.length - 1) + 1 = block.count + ids.length
    omega

/-- Where an end is taken off, a neighbour is in the block to take its place. -/
theorem fits_shrunk {block : Block} {behind before : Option InstrId}
    (h : block.bounds.Fits (front ++ removed :: back) prev next)
    (hnodup : (front ++ removed :: back).Nodup)
    (hbehind : front = [] → back.head? = behind ∧ behind.isSome)
    (hbefore : back = [] → front.getLast? = before ∧ before.isSome) :
    (shrunk removed behind before block).bounds.Fits (front ++ back) prev next := by
  have hcount : block.count = (front ++ removed :: back).length := h.count
  have hpos : 0 < block.count := by
    rw [hcount, List.length_append, List.length_cons]
    omega
  have hfits := fits_replace [] (shrunk removed behind before block).bounds h hnodup
    (by
      show if block.first = removed then _ else _
      split
      next he =>
        obtain ⟨hhead, hsome⟩ := hbehind ((first_iff h hnodup).mp he)
        obtain ⟨y, rfl⟩ := Option.isSome_iff_exists.mp hsome
        simpa [shrunk, Block.bounds, he] using hhead
      next he => simp [shrunk, Block.bounds, he])
    (by
      show if block.last = removed then _ else _
      split
      next he =>
        obtain ⟨hlast, hsome⟩ := hbefore ((last_iff h hnodup).mp he)
        obtain ⟨y, rfl⟩ := Option.isSome_iff_exists.mp hsome
        simpa [shrunk, Block.bounds, he] using hlast
      next he => simp [shrunk, Block.bounds, he])
    (by
      show block.count - 1 + 1 = block.count + 0
      omega) rfl rfl
  simpa using hfits

/-! ## Changes of one block -/

/-- What an insertion in front of `anchor` makes of the runs and edges: the new instruction joins the
block, or it gets a block of its own, which jumpers of the old one pass by. -/
inductive Joins (graph after : BlockGraph) (ps : List Part) (id : BlockId) (anchor new : InstrId)
    (retarget : Retarget) (front back : List InstrId) (qs : List Part) : List Part → Prop where
  | inside (enters : front ≠ [] ∨ retarget = .inserted)
      (edges : ∀ edge, after.edge? edge = graph.edge? edge) :
      Joins graph after ps id anchor new retarget front back qs
        (ps ++ ⟨id, front ++ new :: anchor :: back⟩ :: qs)
  | apart (entry : front = []) (passes : retarget = .keep)
      (edges : ∀ edge found, graph.edge? edge = some found → after.edge? edge
        = some ((found.leaving id ⟨graph.blocks.size⟩).entering id ⟨graph.blocks.size⟩)) :
      Joins graph after ps id anchor new retarget front back qs
        (ps ++ ⟨id, [new]⟩ :: ⟨⟨graph.blocks.size⟩, anchor :: back⟩ :: qs)

/-- A run of linked code holds no instruction twice. -/
theorem run_nodup {chain : Chain} {run : List InstrId}
    (hl : chain.Spells (Part.code (ps ++ ⟨id, run⟩ :: qs))) : run.Nodup := by
  have hnodup := hl.nodup
  rw [GraphM.code_around] at hnodup
  exact (List.nodup_append.mp (List.nodup_append.mp hnodup).2.1).1

/-- The new instruction joins the block. If it is its first and jumpers are to pass it by, the block is
cut behind it. -/
theorem extendBlockBefore_run (hgraph : s.program.graph = some graph)
    (h : extendBlockBefore id anchor new retarget s = .ok u t) :
    ∃ block, graph.block? id = some block
      ∧ (block.first = anchor ∧ retarget = .keep
          ∧ (∃ after, splitEntry s.program.chain id anchor (graph.withBlock id (extendedBefore anchor new))
              = .ok () after ∧ t.program = (s.withGraph after).program)
        ∨ (block.first ≠ anchor ∨ retarget = .inserted)
          ∧ t = s.withGraph (graph.withBlock id (extendedBefore anchor new))) := by
  simp only [extendBlockBefore, bind_ok, onGraph_block_ok, onGraph_updateBlock_ok] at h
  obtain ⟨block, _, ⟨_, hgraph', hblock, rfl⟩, _, _, ⟨_, hgraph'', -, rfl⟩, h⟩ := h
  rw [hgraph, Option.some.injEq] at hgraph' hgraph''
  subst hgraph' hgraph''
  refine ⟨block, hblock, ?_⟩
  by_cases hfirst : block.first = anchor
  · simp only [hfirst, if_true, bind_ok, onGraph_updateBlock_ok] at h
    obtain ⟨_, _, ⟨_, hgraph', -, rfl⟩, h⟩ := h
    replace hgraph' := Option.some.inj hgraph'
    -- the two updates of the block are one
    have hboth : (graph.withBlock id fun block => { block with count := block.count + 1 }).withBlock id
        (fun block => { block with first := new }) = graph.withBlock id (extendedBefore anchor new) := by
      rw [BlockGraph.withBlock_withBlock]
      refine BlockGraph.withBlock_congr hblock ?_
      simp [extendedBefore, hfirst]
    rw [← hgraph', hboth] at h
    cases retarget with
    | inserted =>
      obtain ⟨-, rfl⟩ := pure_ok.mp h
      exact .inr ⟨.inr rfl, rfl⟩
    | keep =>
      simp only [if_true, bind_ok, program_ok, onGraph_ok] at h
      obtain ⟨_, _, ⟨rfl, rfl⟩, _, m, ⟨_, after, hgraph'', hsplit, rfl⟩, hcount⟩ := h
      obtain rfl := Option.some.inj hgraph''
      exact .inl ⟨hfirst, rfl, after, hsplit, (count_program hcount).trans rfl⟩
  · simp only [hfirst, if_false] at h
    obtain ⟨-, rfl⟩ := pure_ok.mp h
    refine .inr ⟨.inl hfirst, congrArg (Session.withGraph _) (BlockGraph.withBlock_congr hblock ?_)⟩
    simp [extendedBefore, hfirst]

/-- Extending a block leaves a graph that cuts the new order. Jumpers that stay on the anchor need it to
head a block of its own, so then the new instruction gets one in front; else it joins the run. -/
theorem extendBlockBefore_ok (hgraph : s.program.graph = some graph)
    (hcuts : graph.Cuts (ps ++ ⟨id, front ++ anchor :: back⟩ :: qs)) (hwired : graph.Wired)
    (hl : s.program.chain.Spells (Part.code (ps ++ ⟨id, front ++ new :: anchor :: back⟩ :: qs)))
    (h : extendBlockBefore id anchor new retarget s = .ok u t) :
    ∃ after parts, t.program = (s.withGraph after).program ∧ after.Cuts parts ∧ after.Wired
      ∧ after.sections = graph.sections
      ∧ Joins graph after ps id anchor new retarget front back qs parts := by
  obtain ⟨found, hfound, hfits⟩ := hcuts.bounds
  have hnodup' : (front ++ anchor :: back).Nodup :=
    (run_nodup hl).sublist (List.Sublist.append_left (List.sublist_cons_self ..) front)
  have hentry : found.first = anchor ↔ front = [] := first_iff hfits hnodup'
  -- with the new instruction in the block, if that is where it stays
  have hgrown : (graph.withBlock id (extendedBefore anchor new)).Cuts
      (ps ++ ⟨id, front ++ new :: anchor :: back⟩ :: qs) :=
    hcuts.update fun block hblock => fits_extendedBefore hblock hnodup'
  have hwired' : (graph.withBlock id (extendedBefore anchor new)).Wired :=
    hwired.congr (BlockGraph.withBlock_sameWires fun _ => ⟨rfl, rfl⟩)
  obtain ⟨_, hfound', hcase⟩ := extendBlockBefore_run hgraph h
  obtain rfl := Option.some.inj (hfound.symm.trans hfound')
  rcases hcase with ⟨hfirst, rfl, after, hsplit, ht⟩ | ⟨hstays, rfl⟩
  · obtain rfl := hentry.mp hfirst
    obtain ⟨after', hrun, hcuts', hwired'', hsections, hedges⟩ :=
      GraphM.splitEntry_run [new] hl hgrown hwired' (List.cons_ne_nil _ _) rfl
    have hsize : (graph.withBlock id (extendedBefore anchor new)).blocks.size = graph.blocks.size :=
      Array.size_modify ..
    rw [hsize] at hcuts' hedges
    obtain rfl : after' = after := by
      have hsame := hrun.symm.trans hsplit
      rw [EStateM.Result.ok.injEq] at hsame
      exact hsame.2
    exact ⟨after', _, ht, hcuts', hwired'', hsections, .apart rfl rfl hedges⟩
  · exact ⟨_, _, rfl, hgrown, hwired', rfl, .inside (hstays.imp_left (mt hentry.mpr)) fun _ => rfl⟩

/-- Another run in the place of the one of a block. -/
theorem updateBlock_rerun {f : Block → Block} {run : List InstrId} {name : BlockId}
    (hgraph : s.program.graph = some graph) (hcuts : graph.Cuts (ps ++ ⟨name, front⟩ :: qs))
    (hwired : graph.Wired)
    (hf : ∀ block : Block, block.bounds.Fits front (ps.getLast?.map (·.id)) (qs.head?.map (·.id)) →
      (f block).bounds.Fits run (ps.getLast?.map (·.id)) (qs.head?.map (·.id)))
    (hlists : ∀ block : Block, (f block).outEdges = block.outEdges ∧ (f block).inEdges = block.inEdges)
    (h : updateBlock (some name) f s = .ok u t) :
    ∃ after, t.program = (s.withGraph after).program ∧ after.Cuts (ps ++ ⟨name, run⟩ :: qs)
      ∧ after.Wired ∧ after.sections = graph.sections ∧ ∀ edge, after.edge? edge = graph.edge? edge := by
  obtain ⟨_, hgraph', -, rfl⟩ := onGraph_updateBlock_ok.mp h
  rw [hgraph, Option.some.injEq] at hgraph'
  subst hgraph'
  exact ⟨_, rfl, hcuts.update hf, hwired.congr (BlockGraph.withBlock_sameWires hlists), rfl, fun _ => rfl⟩

/-- The check of a removal passes only for a block with more than one instruction, and for one that does
not end it. -/
theorem checkRemovable_ok {name : BlockId} {instr : Instruction}
    (h : checkRemovable (some name) instr s = .ok u t) :
    t = s ∧ ∃ graph block, s.program.graph = some graph ∧ graph.block? name = some block
      ∧ block.count ≠ 1 ∧ instr.flags.endsBlock = false := by
  simp only [checkRemovable, bind_ok, onGraph_block_ok] at h
  obtain ⟨block, _, ⟨graph, hgraph, hblock, rfl⟩, h⟩ := h
  by_cases hcount : block.count = 1
  · simp only [hcount, if_true, bind_ok, throw_ok] at h
    obtain ⟨_, _, h, -⟩ := h
    exact h.elim
  · by_cases hends : instr.flags.endsBlock = true
    · simp only [hcount, hends, if_false, if_true, throw_ok] at h
    · simp only [hcount, hends, if_false, Bool.false_eq_true, pure_ok] at h
      exact ⟨h.2.symm, graph, block, hgraph, hblock, hcount, Bool.eq_false_iff.mpr hends⟩

/-- The check of a removal changes nothing, when it passes. -/
theorem checkRemovable_same {block : Option BlockId} {instr : Instruction}
    (h : checkRemovable block instr s = .ok u t) : t = s := by
  cases block with
  | none => exact (pure_ok.mp h).2.symm
  | some name => exact (checkRemovable_ok h).1

/-- An end that is taken away needs an heir, and the heir is put in its place; an end that stays stays. -/
theorem moveEnd_ok {name : BlockId} {addr : UInt64} {taken : Prop} [Decidable taken]
    {heir : Option InstrId} {put : InstrId → Block → Block} (hgraph : s.program.graph = some graph)
    (h : moveEnd name addr taken heir put s = .ok u t) :
    (taken → heir.isSome)
      ∧ t = s.withGraph (graph.withBlock name fun block => if taken then heir.elim block (put · block) else block) := by
  by_cases htaken : taken
  · cases heir with
    | none =>
      simp only [moveEnd, htaken, if_true] at h
      exact (throw_ok.mp h).elim
    | some heir =>
      simp only [moveEnd, htaken, if_true, onGraph_updateBlock_ok] at h
      obtain ⟨_, hgraph', -, rfl⟩ := h
      obtain rfl := Option.some.inj (hgraph.symm.trans hgraph')
      simp only [htaken, if_true]
      exact ⟨fun _ => rfl, rfl⟩
  · unfold moveEnd at h
    rw [if_neg htaken] at h
    obtain ⟨-, rfl⟩ := pure_ok.mp h
    refine ⟨fun he => absurd he htaken, ?_⟩
    simp only [htaken, if_false]
    rw [BlockGraph.withBlock_self, Session.withGraph_self hgraph]

/-- Where an end is taken off a block there is a neighbour to take its place. -/
theorem shrinkBlock_ok {name : BlockId} {addr : UInt64} {behind before : Option InstrId}
    (hgraph : s.program.graph = some graph) (h : shrinkBlock name removed addr behind before s = .ok u t) :
    ∃ block, graph.block? name = some block ∧ (block.first = removed → behind.isSome)
      ∧ (block.last = removed → before.isSome)
      ∧ t = s.withGraph (graph.withBlock name (shrunk removed behind before)) := by
  simp only [shrinkBlock_eq, bind_ok, onGraph_block_ok, onGraph_updateBlock_ok] at h
  obtain ⟨block, s, ⟨_, hgraph', hblock, rfl⟩, _, _, ⟨_, hgraph'', -, rfl⟩, _, _, hfirst, hlast⟩ := h
  obtain rfl := Option.some.inj (hgraph.symm.trans hgraph')
  obtain rfl := Option.some.inj (hgraph.symm.trans hgraph'')
  obtain ⟨hbehind, rfl⟩ := moveEnd_ok rfl hfirst
  obtain ⟨hbefore, rfl⟩ := moveEnd_ok rfl hlast
  refine ⟨block, hblock, hbehind, hbefore, ?_⟩
  rw [BlockGraph.withBlock_withBlock, BlockGraph.withBlock_withBlock]
  refine congrArg s.withGraph (BlockGraph.withBlock_congr hblock ?_)
  by_cases hf : block.first = removed <;> by_cases hl : block.last = removed <;>
    cases behind <;> cases before <;> simp_all [shrunk]

end Runs

end EngineM

/-! ## Programs with blocks -/

/-- No instruction of the run is empty. -/
def Chain.Filled (chain : Chain) (run : List InstrId) : Prop :=
  ∀ id ∈ run, ∃ instr, chain.get? id = some instr ∧ instr.bytes ≠ []

instance (chain : Chain) (run : List InstrId) : Decidable (chain.Filled run) :=
  decidable_of_iff (∀ id ∈ run, (chain.get? id).any (fun instr => decide (instr.bytes ≠ [])) = true) <| by
    simp only [Chain.Filled, Option.any_eq_true, decide_eq_true_eq]

/-- A program whose code is laid out, but for what the shifts are about to do, and cut into the blocks
`parts`. No instruction is empty. -/
structure Program.Blocked (program : Program) (graph : BlockGraph) (parts : List Part)
    (shifts : List Shift) : Prop where
  sited : program.Sited (Part.code parts) shifts
  filled : program.chain.Filled (Part.code parts)
  built : program.graph = some graph
  cuts : graph.Cuts parts
  wired : graph.Wired

/-- The code has no more bytes than there are addresses. -/
def Program.Roomy (program : Program) : Prop :=
  (program.chain.ids.map program.lengths).sum ≤ 2 ^ 64

instance (program : Program) : Decidable program.Roomy := inferInstanceAs (Decidable (_ ≤ _))

/-- Code that is laid out is found by its addresses, if there are enough of them. -/
theorem Program.Sited.addressed {program : Program} {l : List InstrId} (h : program.Sited l [])
    (hfilled : program.chain.Filled l) (hroom : ∀ sec, program.bytesIn sec program.lengths l ≤ 2 ^ 64) :
    program.Addressed l where
  spells := h.gapless.spells
  attached := h.attached
  laidOut := Program.owing_nil.mp h.owing
  filled id hid := by
    obtain ⟨instr, hinstr, hne⟩ := hfilled id hid
    rw [lengths_eq hinstr]
    exact List.length_pos_iff.mpr hne
  room := hroom

namespace Program.Blocked

variable {program : Program} {graph : BlockGraph} {parts : List Part} {shifts : List Shift}

theorem spells (h : program.Blocked graph parts shifts) : program.chain.Spells (Part.code parts) :=
  h.sited.gapless.spells

theorem addressed (h : program.Blocked graph parts []) (hroom : program.Roomy) :
    program.Addressed (Part.code parts) :=
  h.sited.addressed h.filled fun _ => Nat.le_trans bytesIn_le_sum (h.spells.ids_eq ▸ hroom)

theorem verifyBlocks (h : program.Blocked graph parts shifts) : program.verifyBlocks = .ok () :=
  verifyBlocks_of_cuts h.built h.cuts h.wired h.spells

end Program.Blocked

/-- Each part comes from an old one, in the section and the function of which its instructions are. -/
def Chain.Descends (chain after : Chain) (parts parts' : List Part) : Prop :=
  ∀ part ∈ parts', ∃ old ∈ parts, chain.Inherits after old.run part.run

/-- What comes of instructions of a section is in that section. -/
theorem Chain.Inherits.within {chain after : Chain} {old ids : List InstrId} {sec : SectionId}
    (h : chain.Inherits after old ids) (hold : chain.Within sec old) : after.Within sec ids := by
  intro x hx
  obtain ⟨y, hy, a, b, ha, hb, hsec, -⟩ := h x hx
  exact (Chain.inSection_iff hb).mpr (hsec.trans ((Chain.inSection_iff ha).mp (hold y hy)))

/-- Parts that come of uniform parts are uniform. -/
theorem Chain.Descends.uniform {chain after : Chain} {parts parts' : List Part}
    (h : chain.Descends after parts parts') (huniform : chain.Uniform parts) : after.Uniform parts' := by
  intro part hpart
  obtain ⟨old, hold, hinherits⟩ := h part hpart
  obtain ⟨sec, hsec⟩ := huniform old hold
  exact ⟨sec, hinherits.within hsec⟩

/-- Parts that come of parts that come of others come of those. -/
theorem Chain.Descends.trans {chain after last : Chain} {parts parts' parts'' : List Part}
    (h : chain.Descends after parts parts') (k : after.Descends last parts' parts'') :
    chain.Descends last parts parts'' := by
  intro part hpart
  obtain ⟨middle, hmiddle, hlater⟩ := k part hpart
  obtain ⟨old, hold, hfirst⟩ := h middle hmiddle
  exact ⟨old, hold, hfirst.trans hlater⟩

/-- Parts whose instructions all lie in one old part come of it. -/
theorem Chain.Descends.of_pieces {chain : Chain} {parts parts' : List Part}
    (hl : chain.Spells (Part.code parts)) (hpieces : ∀ part ∈ parts', ∃ old ∈ parts, part.run ⊆ old.run) :
    chain.Descends chain parts parts' := by
  intro part hpart
  obtain ⟨old, hold, hsub⟩ := hpieces part hpart
  refine ⟨old, hold, .of_subset (fun x hx => ?_) hsub⟩
  exact Option.isSome_iff_exists.mpr (hl.get?_isSome (Part.mem_code.mpr ⟨old, hold, hsub hx⟩))

/-- Parts whose instructions keep section and function come of themselves. -/
theorem Chain.Descends.of_evolves {chain after : Chain} {parts : List Part}
    {r : InstrId → Instruction → Instruction → Prop} (hl : chain.Spells (Part.code parts))
    (h : chain.Evolves r after) (hr : ∀ id a b, r id a b → b.sec = a.sec ∧ b.func = a.func) :
    chain.Descends after parts parts := by
  intro part hpart
  refine ⟨part, hpart, .of_evolves h hr fun x hx => ?_⟩
  exact Option.isSome_iff_exists.mpr (hl.get?_isSome (Part.mem_code.mpr ⟨part, hpart, hx⟩))

namespace EngineM

variable {s t : Session} {anchor new old site id : InstrId} {given found : Instruction} {shift : Shift}
  {graph after : BlockGraph} {ps qs parts : List Part} {name : BlockId}
  {front back mid gone placed rest xs ys ids : List InstrId}

/-- Each block after a splice comes from one before it, whichever new blocks it makes of the one that it
takes place in. -/
theorem descends_of_fits
    (hfits : Program.Fits s.program t.program xs ys mid site found gone placed rest shift)
    (hxs : xs = Part.code ps ++ front) (hys : ys = back ++ Part.code qs)
    (hparts : ∀ part ∈ parts, part ∈ ps ∨ part ∈ qs ∨ part.run ⊆ front ++ mid ++ back) :
    s.program.chain.Descends t.program.chain (ps ++ ⟨name, front ++ site :: back⟩ :: qs) parts := by
  have hside : ∀ part, part ∈ ps ∨ part ∈ qs → ∀ x ∈ part.run, x ∈ xs ++ ys := by
    intro part hpart x hx
    rw [hxs, hys]
    simp only [List.mem_append, Part.mem_code]
    grind
  intro part hpart
  rcases hparts part hpart with hin | hin | hsub
  · exact ⟨part, List.mem_append_left _ hin, hfits.inherits fun x hx => .inr ⟨hside part (.inl hin) x hx, hx⟩⟩
  · exact ⟨part, List.mem_append_right _ (List.mem_cons_of_mem _ hin), hfits.inherits fun x hx =>
      .inr ⟨hside part (.inr hin) x hx, hx⟩⟩
  · refine ⟨⟨name, front ++ site :: back⟩, by simp, hfits.inherits fun x hx => ?_⟩
    rcases mem_mid_iff.mp (hsub hx) with hmid | hout
    · exact .inl ⟨hmid, by simp⟩
    · refine .inr ⟨?_, mem_site_iff.mpr (.inr hout)⟩
      rw [hxs, hys]
      simp only [List.mem_append] at hout ⊢
      grind

/-- A splice that leaves something in the place of its site leaves the sections in their order. -/
theorem ranks_of_fits
    (hfits : Program.Fits s.program t.program xs ys mid site found gone placed rest shift)
    (hne : mid ≠ []) (hsections : after.sections = graph.sections)
    (hranks : graph.Ranks s.program.chain (xs ++ site :: ys)) :
    after.Ranks t.program.chain (xs ++ mid ++ ys) := by
  refine hranks.splice hne hsections (fun x hx => ?_) fun x hx => ?_
  · exact hfits.kept_ys.sec? (fun _ _ _ hab => hab.sec) hx
  · obtain ⟨instr, hinstr, hsame, -⟩ := hfits.inside hx
    rw [Chain.sec?, Chain.sec?, hinstr, hfits.get?, Option.map_some, Option.map_some, hsame]

/-- A splice leaves no instruction empty if it puts none in that is. -/
theorem filled_of_spliced {gone : List InstrId} {rename : InstrId → InstrId}
    (hsplice : Session.Spliced s t xs gone ys mid rename)
    (hs : s.program.chain.Filled (xs ++ ys))
    (hmid : t.program.chain.Filled mid) :
    t.program.chain.Filled (xs ++ mid ++ ys) := by
  intro id hid
  rcases mem_mid_iff.mp hid with hnew | hold
  · exact hmid id hnew
  · obtain ⟨before, hbefore, hne⟩ := hs id hold
    obtain ⟨instr, hinstr, halike, -⟩ := hsplice.kept.get? hold hbefore
    exact ⟨instr, hinstr, halike.bytes ▸ hne⟩

/-- An insertion in front of an instruction leaves none that is empty. -/
theorem spliceBefore_filled {retarget : Retarget} (hs : s.program.Sited (xs ++ anchor :: ys) [])
    (hfilled : s.program.chain.Filled (xs ++ anchor :: ys))
    (hgiven : given.bytes ≠ []) (h : spliceBefore anchor given retarget s = .ok (new, shift) t) :
    t.program.chain.Filled (xs ++ [new, anchor] ++ ys) := by
  obtain ⟨_, -, hplaced, -⟩ := spliceBefore_ok hs.gapless.spells hs.attached hs.listed h
  obtain ⟨instr, hinstr, halike⟩ := hplaced.placed
  have hall := filled_of_spliced hplaced.toSpliced hfilled fun id hid => by
    rw [List.mem_singleton.mp hid]
    exact ⟨instr, hinstr, halike.bytes ▸ hgiven⟩
  simpa using hall

/-- An insertion behind an instruction leaves none that is empty. -/
theorem appendAfter_filled (hs : s.program.Sited (xs ++ anchor :: ys) [])
    (hfilled : s.program.chain.Filled (xs ++ anchor :: ys))
    (hgiven : given.bytes ≠ []) (h : appendAfter anchor given s = .ok (new, shift) t) :
    t.program.chain.Filled (xs ++ [anchor, new] ++ ys) := by
  obtain ⟨_, -, hplaced, -⟩ := appendAfter_ok hs.gapless.spells hs.attached hs.listed h
  obtain ⟨instr, hinstr, halike⟩ := hplaced.placed
  have hall := filled_of_spliced hplaced.toSpliced (by simpa using hfilled) fun id hid => by
    rw [List.mem_singleton.mp hid]
    exact ⟨instr, hinstr, halike.bytes ▸ hgiven⟩
  simpa using hall

/-- A substitution leaves none that is empty. -/
theorem spliceInstead_filled {given : List Instruction} (hs : s.program.Sited (xs ++ old :: ys) [])
    (hfilled : s.program.chain.Filled (xs ++ old :: ys))
    (hgiven : ∀ instr ∈ given, instr.bytes ≠ []) (h : spliceInstead old given s = .ok (ids, shift) t) :
    t.program.chain.Filled (xs ++ ids ++ ys) := by
  obtain ⟨_, _, _, -, -, -, hsplice, -⟩ := spliceInstead_ok hs.gapless.spells hs.attached hs.listed h
  refine filled_of_spliced hsplice (fun id hid => hfilled id (mem_site_iff.mpr (.inr hid))) fun id hid => ?_
  obtain ⟨instr, hinstr, source, hsource, hbytes⟩ := spliceInstead_bytes hs.gapless.spells h id hid
  exact ⟨instr, hinstr, hbytes ▸ hgiven source hsource⟩

/-- A removal leaves none that is empty. -/
theorem excise_filled {freed : Instruction} (hs : s.program.Sited (xs ++ id :: ys) [])
    (hfilled : s.program.chain.Filled (xs ++ id :: ys))
    (h : excise id s = .ok (freed, shift) t) :
    t.program.chain.Filled (xs ++ [] ++ ys) := by
  obtain ⟨_, _, -, -, hsplice, -⟩ := excise_ok hs.gapless.spells hs.listed h
  exact filled_of_spliced hsplice (fun x hx => hfilled x (mem_site_iff.mpr (.inr hx))) fun _ hnone =>
    (List.not_mem_nil hnone).elim

/-- The code around an instruction of a part. -/
theorem code_at : Part.code (ps ++ ⟨name, front ++ site :: back⟩ :: qs)
    = (Part.code ps ++ front) ++ site :: (back ++ Part.code qs) := by
  rw [GraphM.code_around]
  simp

/-- Of parts one of which is a run, each is one of the others or lies in that run. -/
theorem pieces_single {run : List InstrId} :
    ∀ part ∈ ps ++ ⟨name, run⟩ :: qs, part ∈ ps ∨ part ∈ qs ∨ part.run ⊆ run := by
  intro part hpart
  simp only [List.mem_append, List.mem_cons] at hpart
  rcases hpart with hin | rfl | hin
  · exact .inl hin
  · exact .inr (.inr (List.Subset.refl _))
  · exact .inr (.inl hin)

/-- Whether the new instruction joins or gets a block of its own, the code in order is the same. -/
theorem Joins.code {retarget : Retarget}
    (h : Joins graph after ps name anchor new retarget front back qs parts) :
    Part.code parts = (Part.code ps ++ front) ++ [new, anchor] ++ (back ++ Part.code qs) := by
  cases h with
  | inside => simp [Part.code]
  | apart entry => simp [Part.code, entry]

/-- Each part is one of the others or lies in the run with the new instruction. -/
theorem Joins.pieces {retarget : Retarget}
    (h : Joins graph after ps name anchor new retarget front back qs parts) :
    ∀ part ∈ parts, part ∈ ps ∨ part ∈ qs ∨ part.run ⊆ front ++ [new, anchor] ++ back := by
  intro part hpart
  cases h with
  | inside => simpa using pieces_single part hpart
  | apart entry =>
    simp only [List.mem_append, List.mem_cons] at hpart
    rcases hpart with hin | rfl | rfl | hin
    · exact .inl hin
    · exact .inr (.inr (by simp))
    · exact .inr (.inr (by simp [entry]))
    · exact .inr (.inl hin)

/-- An insertion in front of an instruction. -/
theorem spliceBefore_blocked {retarget : Retarget} (hs : s.program.Blocked graph parts [])
    (hfinds : graph.Finds s.program.chain parts) (hgiven : given.bytes ≠ [])
    (h : spliceBefore anchor given retarget s = .ok (new, shift) t) :
    ∃ ps name front back qs after parts', parts = ps ++ ⟨name, front ++ anchor :: back⟩ :: qs
      ∧ t.program.Blocked after parts' [shift]
      ∧ Joins graph after ps name anchor new retarget front back qs parts'
      ∧ s.program.chain.Descends t.program.chain parts parts'
      ∧ (graph.Ranks s.program.chain (Part.code parts) → after.Ranks t.program.chain (Part.code parts')) := by
  obtain ⟨found, block, c₁, s₂, s₄, entering, s₅, hfound, hblock, hinsert, hlink, hextend, henter, ht, -⟩ :=
    spliceBefore_run h
  obtain ⟨ps, name, front, back, qs, rfl, rfl⟩ :=
    blockOf_found hs.built hs.cuts hfinds hblock
  have hl := hs.spells
  have hsited := hs.sited
  rw [code_at] at hl hsited
  obtain ⟨c₂, rfl, haimed⟩ := linkInserted_ok hlink
  have hspells := haimed.evolves.spells ((ChainM.insertBefore_inserted hl hinsert).spells hl)
  -- the block is extended in a session that has the chain with the new instruction already
  obtain ⟨m, hm⟩ : ∃ m, m = withOwner ((s.withChain c₁).withChain c₂) found.func (beginningAt anchor new) :=
    ⟨_, rfl⟩
  rw [← hm] at hextend
  have hgraph : m.program.graph = some graph := by
    rw [hm, graph_withOwner]
    exact hs.built
  have hchain : m.program.chain = c₂ := by
    rw [hm, chain_withOwner]
    rfl
  obtain ⟨after, parts', hs₄, hcuts, hwired, hsections, hjoins⟩ := extendBlockBefore_ok hgraph hs.cuts hs.wired (by
    rw [hchain]
    simpa [Part.code] using hspells) hextend
  obtain ⟨found', hfits, -, -, hattached, hlisted⟩ := spliceBefore_fits hsited h
  refine ⟨ps, name, front, back, qs, after, parts', rfl, ⟨?_, ?_, ?_, hcuts, hwired⟩, hjoins,
    descends_of_fits hfits rfl rfl hjoins.pieces, fun hranks => ?_⟩
  · rw [hjoins.code]
    exact sited_of_fits hsited hfits hattached hlisted
  · rw [hjoins.code]
    exact spliceBefore_filled hsited (code_at ▸ hs.filled) hgiven h
  · rw [ht]
    exact (enteringJumpers_sameBlocks henter).trans (by rw [hs₄]; rfl)
  · rw [hjoins.code]
    exact ranks_of_fits hfits (List.cons_ne_nil _ _) hsections (code_at ▸ hranks)

/-- An insertion behind an instruction, at the end of what it belongs to. -/
theorem appendAfter_blocked (hs : s.program.Blocked graph parts [])
    (hfinds : graph.Finds s.program.chain parts) (hgiven : given.bytes ≠ [])
    (h : appendAfter anchor given s = .ok (new, shift) t) :
    ∃ ps name front back qs after, parts = ps ++ ⟨name, front ++ anchor :: back⟩ :: qs
      ∧ t.program.Blocked after (ps ++ ⟨name, front ++ anchor :: new :: back⟩ :: qs) [shift]
      ∧ (∀ edge, after.edge? edge = graph.edge? edge)
      ∧ s.program.chain.Descends t.program.chain parts (ps ++ ⟨name, front ++ anchor :: new :: back⟩ :: qs)
      ∧ (graph.Ranks s.program.chain (Part.code parts) →
        after.Ranks t.program.chain (Part.code (ps ++ ⟨name, front ++ anchor :: new :: back⟩ :: qs))) := by
  obtain ⟨found, block, c₁, s₂, s₄, hfound, hblock, hinsert, hlink, hextend, ht, -⟩ := appendAfter_run h
  obtain ⟨ps, name, front, back, qs, rfl, rfl⟩ :=
    blockOf_found hs.built hs.cuts hfinds hblock
  have hl := hs.spells
  have hsited := hs.sited
  rw [code_at] at hl hsited
  obtain ⟨c₂, rfl, haimed⟩ := linkInserted_ok hlink
  have hgraph : (withOwner ((s.withChain c₁).withChain c₂) found.instr.func
      (endingAt anchor new)).program.graph = some graph := graph_withOwner.trans hs.built
  obtain ⟨after, hs₄, hcuts, hwired, hsections, hedges⟩ := updateBlock_rerun hgraph hs.cuts hs.wired
    (fun _ hfits => fits_extendedBehind hfits (run_nodup hs.spells)) (fun _ => ⟨rfl, rfl⟩) hextend
  obtain ⟨found', hfits, -, -, hattached, hlisted⟩ := appendAfter_fits hsited h
  have hcode : Part.code (ps ++ ⟨name, front ++ anchor :: new :: back⟩ :: qs)
      = (Part.code ps ++ front) ++ [anchor, new] ++ (back ++ Part.code qs) := by simp [Part.code]
  refine ⟨ps, name, front, back, qs, after, rfl, ⟨?_, ?_, ?_, hcuts, hwired⟩, hedges, ?_, fun hranks => ?_⟩
  · rw [hcode]
    exact sited_of_fits hsited hfits hattached hlisted
  · rw [hcode]
    exact appendAfter_filled hsited (code_at ▸ hs.filled) hgiven h
  · rw [ht, hs₄]
    rfl
  · exact descends_of_fits hfits rfl rfl fun part hpart => by simpa using pieces_single part hpart
  · rw [hcode]
    exact ranks_of_fits hfits (List.cons_ne_nil _ _) hsections (code_at ▸ hranks)

/-- A sequence in the place of an instruction. -/
theorem spliceInstead_blocked {given : List Instruction} (hs : s.program.Blocked graph parts [])
    (hfinds : graph.Finds s.program.chain parts) (hgiven : ∀ instr ∈ given, instr.bytes ≠ [])
    (h : spliceInstead old given s = .ok (ids, shift) t) :
    ∃ ps name front back qs after, parts = ps ++ ⟨name, front ++ old :: back⟩ :: qs
      ∧ t.program.Blocked after (ps ++ ⟨name, front ++ ids ++ back⟩ :: qs) [shift]
      ∧ s.program.chain.Descends t.program.chain parts (ps ++ ⟨name, front ++ ids ++ back⟩ :: qs)
      ∧ (graph.Ranks s.program.chain (Part.code parts) →
        after.Ranks t.program.chain (Part.code (ps ++ ⟨name, front ++ ids ++ back⟩ :: qs))) := by
  obtain ⟨found, block, freed, c₁, first, last, s₂, head, s₃, s₄, s₆, hfound, hblock, hreplace, hfirst, hlast,
    hplace, -, hrepoint, hrehome, hblocks, ht, -⟩ := spliceInstead_run h
  obtain ⟨ps, name, front, back, qs, rfl, rfl⟩ :=
    blockOf_found hs.built hs.cuts hfinds hblock
  have hl := hs.spells
  have hsited := hs.sited
  rw [code_at] at hl hsited
  obtain ⟨c₂, rfl, -⟩ := placeInserted_arranged (ChainM.replace_ok hl hreplace).1 hplace
  have hs₄ : s₄.program.graph = some graph := (rehomeRelocations_sameBlocks hrehome).trans
    ((repointSymbols_sameBlocks hrepoint).trans hs.built)
  have hgraph : (withOwner { s₄ with program.redirects := s₄.program.redirects.replace old first } found.func
      (replacingBounds old first last)).program.graph = some graph := graph_withOwner.trans hs₄
  obtain ⟨after, hs₆, hcuts, hwired, hsections, -⟩ := updateBlock_rerun hgraph hs.cuts hs.wired
    (fun _ hfits => fits_replacingEnds hfits (run_nodup hs.spells) hfirst hlast) (fun _ => ⟨rfl, rfl⟩) hblocks
  obtain ⟨found', first', last', hfits, -, -, -, hattached, hlisted⟩ := spliceInstead_fits hsited h
  have hcode : Part.code (ps ++ ⟨name, front ++ ids ++ back⟩ :: qs)
      = (Part.code ps ++ front) ++ ids ++ (back ++ Part.code qs) := by simp [Part.code]
  refine ⟨ps, name, front, back, qs, after, rfl, ⟨?_, ?_, ?_, hcuts, hwired⟩,
    descends_of_fits hfits rfl rfl pieces_single, fun hranks => ?_⟩
  · rw [hcode]
    exact sited_of_fits hsited hfits hattached hlisted
  · rw [hcode]
    exact spliceInstead_filled hsited (code_at ▸ hs.filled) hgiven h
  · rw [ht, hs₆]
    rfl
  · rw [hcode]
    exact ranks_of_fits hfits (List.ne_nil_of_mem (List.mem_of_head? hfirst)) hsections (code_at ▸ hranks)

/-- What a run begins with, if whatever comes first in it and behind it passes a test. -/
theorem head?_eq_filter {kin : InstrId → Bool} {rest : List InstrId} (hne : front ≠ [])
    (hsome : ((front ++ rest).head?.filter kin).isSome) :
    front.head? = (front ++ rest).head?.filter kin := by
  obtain ⟨first, hfirst⟩ := Option.isSome_iff_exists.mp hsome
  have hhead := (Option.filter_eq_some_iff.mp hfirst).1
  rw [List.head?_append, Option.or_of_isSome (List.isSome_head?.mpr hne)] at hhead
  exact hhead.trans hfirst.symm

/-- If the last neighbour that is kin exists, it is the last of the instructions left. -/
theorem getLast?_eq_filter {kin : InstrId → Bool} {rest : List InstrId} (hne : back ≠ [])
    (hsome : ((rest ++ back).getLast?.filter kin).isSome) :
    back.getLast? = (rest ++ back).getLast?.filter kin := by
  obtain ⟨last, hlast⟩ := Option.isSome_iff_exists.mp hsome
  have hend := (Option.filter_eq_some_iff.mp hlast).1
  rw [List.getLast?_append, Option.or_of_isSome (List.getLast?_isSome.mpr hne)] at hend
  exact hend.trans hlast.symm

/-- A removal. The block keeps another instruction, and where an end was taken off it, the heir is
the new end. -/
theorem excise_blocked {freed : Instruction} (hs : s.program.Blocked graph parts [])
    (hfinds : graph.Finds s.program.chain parts) (h : excise id s = .ok (freed, shift) t) :
    ∃ ps name front back qs after, parts = ps ++ ⟨name, front ++ id :: back⟩ :: qs
      ∧ t.program.Blocked after (ps ++ ⟨name, front ++ back⟩ :: qs) [shift]
      ∧ s.program.chain.Descends t.program.chain parts (ps ++ ⟨name, front ++ back⟩ :: qs)
      ∧ (s.program.chain.Uniform parts → graph.Ranks s.program.chain (Part.code parts) →
        after.Ranks t.program.chain (Part.code (ps ++ ⟨name, front ++ back⟩ :: qs))) := by
  obtain ⟨node, block, heir, s₂, s₃, s₄, c, edited, hnode, hblock, hcheck, -, hpass, hblocks, -, rfl, -⟩ :=
    excise_run h
  obtain ⟨ps, name, front, back, qs, rfl, rfl⟩ :=
    blockOf_found hs.built hs.cuts hfinds hblock
  have hl := hs.spells
  have hsited := hs.sited
  rw [code_at] at hl hsited
  obtain ⟨rfl, _, found, hgraph, hfound, hcount, -⟩ := checkRemovable_ok hcheck
  obtain rfl := Option.some.inj (hs.built.symm.trans hgraph)
  have hgraph' : (withOwner s₃ node.instr.func (boundedBy id (kin s₂.program.chain node).1
      (kin s₂.program.chain node).2)).program.graph = some graph :=
    graph_withOwner.trans ((passOn_sameBlocks hpass).trans hgraph)
  obtain ⟨_, hfound', hbehind, hbefore, rfl⟩ := shrinkBlock_ok hgraph' hblocks
  obtain rfl := Option.some.inj (hfound.symm.trans hfound')
  obtain ⟨block, hblock', hends⟩ := hs.cuts.bounds
  obtain rfl := Option.some.inj (hfound.symm.trans hblock')
  have hnodup := run_nodup hs.spells
  rw [kin_eq hl hnode] at hbehind hbefore
  have hmore : front = [] → back ≠ [] := by
    rintro rfl rfl
    exact hcount hends.count
  -- the neighbours to which the ends pass are those in the block
  have hnext : front = [] → back.head? = (back ++ Part.code qs).head?.filter (s₂.program.chain.akin node.instr)
      ∧ ((back ++ Part.code qs).head?.filter (s₂.program.chain.akin node.instr)).isSome := by
    intro hfront
    have hsome := hbehind ((first_iff hends hnodup).mpr hfront)
    exact ⟨head?_eq_filter (hmore hfront) hsome, hsome⟩
  have hprev : back = [] → front.getLast? = (Part.code ps ++ front).getLast?.filter
        (s₂.program.chain.akin node.instr)
      ∧ ((Part.code ps ++ front).getLast?.filter (s₂.program.chain.akin node.instr)).isSome := by
    intro hback
    have hsome := hbefore ((last_iff hends hnodup).mpr hback)
    exact ⟨getLast?_eq_filter (fun hfront => hmore hfront hback) hsome, hsome⟩
  obtain ⟨_, _, -, hfits, -, -, hattached, hlisted⟩ := excise_fits hsited h
  have hcode : Part.code (ps ++ ⟨name, front ++ back⟩ :: qs)
      = (Part.code ps ++ front) ++ [] ++ (back ++ Part.code qs) := by simp [Part.code]
  refine ⟨ps, name, front, back, qs, _, rfl, ⟨?_, ?_, rfl, hs.cuts.update fun block hblock => ?_, ?_⟩,
    descends_of_fits hfits rfl rfl fun part hpart => by simpa using pieces_single part hpart,
    fun huniform hranks => ?_⟩
  · rw [hcode]
    exact sited_of_fits hsited hfits hattached hlisted
  · rw [hcode]
    exact excise_filled hsited (code_at ▸ hs.filled) h
  · rw [kin_eq hl hnode]
    exact fits_shrunk hblock hnodup hnext hprev
  · exact hs.wired.congr (BlockGraph.withBlock_sameWires fun _ => ⟨rfl, rfl⟩)
  · -- the block keeps another instruction of its section
    obtain ⟨sec, hsec⟩ := huniform ⟨name, front ++ id :: back⟩ (by simp)
    have hkept := fun {x} (hx : x ∈ (Part.code ps ++ front) ++ (back ++ Part.code qs)) =>
      hfits.kept_ys.sec? (fun _ _ _ hab => hab.sec) hx
    rw [GraphM.code_around, ← List.append_assoc] at hranks ⊢
    refine hranks.exchange rfl (fun x hx => hkept ?_) (by simp) (fun x hx => Chain.sec?_of_inSection (hsec x hx))
      (fun hnil => ?_) fun x hx => (hkept ?_).trans (Chain.sec?_of_inSection (hsec x (mem_site_iff.mpr (.inr hx))))
    · simp only [List.mem_append] at hx ⊢
      exact hx.imp .inl .inr
    · obtain ⟨hfront, hback⟩ := List.append_eq_nil_iff.mp hnil
      exact hmore hfront hback
    · simp only [List.mem_append] at hx ⊢
      exact hx.imp .inr .inl

end EngineM

end Splice
