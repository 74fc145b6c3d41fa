import Splice.Proofs.Block.Upkeep
import Splice.Proofs.Program.Searching

/-!
# Programs with blocks

The check of the blocks goes through them in their order, steps through the code of each, and
asks that the edges in its lists have it for an end. What is known of a graph that `Cuts` the
code and is `Wired` is enough for each of these steps:

> `verifyBlocks_of_cuts`: a graph the parts of which are the code, in this order, and the edges
> of which stand in the lists of both ends, passes the check.

The converse is not stated. The check compares the ends and the counts of blocks and does not
ask how a block came by them, so nothing more would follow for the code.
-/

namespace Splice

namespace Program

variable {program : Program} {graph : BlockGraph} {chain : Chain} {parts : List Part} {part : Part}
  {block : BlockId} {rest : List InstrId}

open BlockGraph

/-- Stepping through a run comes out behind it. -/
theorem stepAlong_append (block : BlockId) (run rest : List InstrId) :
    stepAlong block (run ++ rest) run = .ok rest := by
  induction run with
  | nil => cases rest <;> rfl
  | cons id run ih =>
    rw [List.cons_append, stepAlong, if_pos rfl, ih]

/-- The run of a block comes next in the code that is left. -/
theorem verifyBlock_run (hl : chain.Spells (Part.code parts)) (hcuts : graph.Cuts parts)
    (hwired : graph.Wired) (hpart : part ∈ parts) :
    verifyBlock graph chain (part.run ++ rest) part.id = .ok rest := by
  have hrun := GraphM.instructions_of_cuts hl hcuts hpart
  obtain ⟨id, run⟩ := part
  obtain ⟨ps, qs, rfl⟩ := List.append_of_mem hpart
  obtain ⟨block, hblock, hfits⟩ := hcuts.bounds
  have hout : ∀ edge ∈ block.outEdges, graph.sourceOf edge = some id := fun edge hedge =>
    hwired.mem_out (by rw [outOf, hblock]; exact hedge)
  have hinto : ∀ edge ∈ block.inEdges, graph.targetOf edge = some id := fun edge hedge =>
    hwired.mem_into (by rw [intoOf, hblock]; exact hedge)
  have hcount : (run.length == block.count) = true := beq_iff_eq.mpr hfits.count.symm
  have hlast : (run.getLast? == some block.last) = true := beq_iff_eq.mpr hfits.last
  simp only [verifyBlock, bind_eq_ok, mapError_eq_ok, ensure_ok, pure_eq_ok]
  refine ⟨block, block_eq hblock, run, hrun, (), hcount, (), hlast, rest,
    stepAlong_append _ _ _, (), forM_eq_ok.mpr fun edge hedge => ?_,
    (), forM_eq_ok.mpr fun edge hedge => ?_, rfl⟩
  · obtain ⟨found, hfound, hsource⟩ := Option.map_eq_some_iff.mp (hout edge hedge)
    exact bind_eq_ok.mpr ⟨found, mapError_eq_ok.mpr (edge_eq hfound),
      ensure_ok.mpr (beq_iff_eq.mpr hsource)⟩
  · obtain ⟨found, hfound, htarget⟩ := Option.map_eq_some_iff.mp (hinto edge hedge)
    exact bind_eq_ok.mpr ⟨found, mapError_eq_ok.mpr (edge_eq hfound),
      ensure_ok.mpr (beq_iff_eq.mpr htarget)⟩

/-- A graph whose parts in order are the code, with edges noted at both ends, passes the check: each part
is stepped through from where the one before ended. -/
theorem verifyBlocks_of_cuts (hgraph : program.graph = some graph) (hcuts : graph.Cuts parts)
    (hwired : graph.Wired) (hl : program.chain.Spells (Part.code parts)) :
    program.verifyBlocks = .ok () := by
  have hfold : ∀ ps ⊆ parts, (ps.map (·.id)).foldlM (verifyBlock graph program.chain) (Part.code ps)
      = .ok [] := by
    intro ps hps
    induction ps with
    | nil => rfl
    | cons part ps ih =>
      rw [List.map_cons, List.foldlM_cons, bind_eq_ok]
      exact ⟨Part.code ps, verifyBlock_run hl hcuts hwired (hps (List.mem_cons_self ..)),
        ih fun x hx => hps (List.mem_cons_of_mem _ hx)⟩
  have hread : program.blockGraph = .ok graph := by
    rw [blockGraph, hgraph]
  simp only [verifyBlocks, bind_eq_ok, ensure_ok]
  refine ⟨graph, hread, [], ?_, (), rfl, ?_⟩
  · rw [hcuts.ids, hl.ids_eq]
    exact hfold parts (List.Subset.refl _)
  · rw [hcuts.tree.firstUnbalanced?]
    exact ensure_ok.mpr (beq_iff_eq.mpr (hcuts.tree.inOrder.trans hcuts.ids.symm))

end Program

end Splice
