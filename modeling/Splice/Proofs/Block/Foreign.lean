import Splice.Proofs.Block.Halving
import Splice.Proofs.Chain.Backing

/-!
# Splits at instructions of other blocks

Whether an instruction lies in a block is not asked when the block is split: it comes out
on the way from the beginning of the block to where the second half is to begin. That
way leads past the end of the block for every instruction outside of it, with one exception.
What a block is to begin with behind the instruction in front of it is the first
instruction of the block itself, and so there is nothing to go past: the block is cut in front
of its first instruction and is left without instructions, with an end that lies in front of its
beginning (`split_foreign`).

Nothing is supposed of what lies aside of the code but that links lead back, which holds
after any calls (`Chain.Backed.along_calls`).

The mode decides: to make an instruction the first of the second half, the way to it has to lead
through the block; to make it the last of the first half, the way has to lead to the instruction
behind it, which may be the block's own first one. The statement covers both, with the exact
condition.
-/

namespace Splice

namespace GraphM

open BlockGraph

variable {graph : BlockGraph} {chain : Chain} {parts ps qs : List Part} {id : BlockId}
  {run : List InstrId} {block : Block} {instr : InstrId}

/-- Nothing is in front of a cut at the beginning of a block. -/
theorem headCount_first {behind : List InstrId} (hwalk : chain.walk (some block.first) = block.first :: behind) :
    headCount chain block block.first instr graph = .ok 0 graph := by
  have htake : (block.first :: behind).takeWhile (· != block.first) = [] := by simp
  simp only [headCount, hwalk, htake, List.contains_nil, List.length_nil, List.length_cons,
    Nat.zero_ne_add_one, Bool.false_eq_true, if_false]
  rfl

/-- A block that is to be ended by the instruction in front of it gives its whole run to a new block. -/
theorem split_empties (hchain : chain.Threaded) (hbacked : chain.Backed)
    (hcode : chain.ids = Part.code (ps ++ ⟨id, run⟩ :: qs)) (hcuts : graph.Cuts (ps ++ ⟨id, run⟩ :: qs))
    (hwired : graph.Wired) (hblock : graph.block? id = some block) (hinstr : instr ∉ run)
    (hnext : chain.next? instr = run.head?) :
    ∃ after, split chain id instr .last graph = .ok id after
      ∧ Halved graph after id ⟨graph.blocks.size⟩ block (block.firstHalf 0 instr ⟨graph.blocks.size⟩)
        (block.secondHalf 0 block.first id) := by
  obtain ⟨found, hfound, hfits⟩ := hcuts.bounds
  obtain rfl := Option.some.inj (hfound.symm.trans hblock)
  have hfirst : run.head? = some found.first := hfits.first
  have hlast : run.getLast? = some found.last := hfits.last
  rw [hfirst] at hnext
  obtain ⟨rest, rfl⟩ := List.head?_eq_some_iff.mp hfirst
  have hwalk := walk_block hchain hcode hfirst
  have hpresent : chain.contains found.first = true := by
    have hin : found.first ∈ Part.code (ps ++ ⟨id, found.first :: rest⟩ :: qs) := by simp [code_around]
    obtain ⟨node, hnode⟩ := hchain.links.present (hcode ▸ hin)
    rw [Chain.contains, hnode]
    rfl
  -- the first half is to end where the link back from the first instruction leads, which is `instr`
  have hprev := hbacked.back instr found.first hnext hpresent
  have hne : instr ≠ found.last := fun he => hinstr (he ▸ List.mem_of_getLast? hlast)
  obtain ⟨after, hcut, -, hhalved⟩ := cut_succeeds hcuts hwired hblock 0 instr found.first
  refine ⟨after, (bind_run (block_ok.mpr ⟨hblock, rfl⟩)).trans ?_, hhalved⟩
  refine (congrFun (if_neg hne) graph).trans ?_
  rw [hnext]
  refine (bind_run (a := found.first) rfl).trans ((bind_run (headCount_first hwalk)).trans ?_)
  rw [hprev]
  exact (bind_run (a := ⟨⟩) (discard_ok.mpr ⟨_, hcut⟩)).trans rfl

/-- A split at an instruction that is not in the block is refused and changes nothing, unless the instruction
stands right in front of the block and is to be the last of one. Then the block is left without
instructions and its run goes to a new one. -/
theorem split_foreign (hchain : chain.Threaded) (hbacked : chain.Backed) (hcode : chain.ids = Part.code parts)
    (hcuts : graph.Cuts parts) (hpart : ⟨id, run⟩ ∈ parts) (hinstr : instr ∉ run) (mode : SplitMode) :
    (¬ (mode = .last ∧ chain.next? instr = run.head?) →
        ∃ cause, split chain id instr mode graph = .error cause graph)
      ∧ (graph.Wired → mode = .last → chain.next? instr = run.head? → ∃ block after,
        graph.block? id = some block ∧ split chain id instr mode graph = .ok id after
          ∧ after.size = graph.size + 1
          ∧ after.block? id = some (block.firstHalf 0 instr ⟨graph.blocks.size⟩)
          ∧ after.block? ⟨graph.blocks.size⟩ = some (block.secondHalf 0 block.first id)) := by
  obtain ⟨ps, qs, rfl⟩ := List.append_of_mem hpart
  obtain ⟨block, hblock, hfits⟩ := hcuts.bounds
  refine ⟨fun hmode => ?_, fun hwired hlast hnext => ?_⟩
  · -- a second half that begins in the block has something to go past, unless it is the block itself
    refine split_away hblock (walk_block hchain hcode hfits.first) hfits.first hfits.last hinstr
      fun start hstart hin => ?_
    cases mode with
    | first => exact hinstr (Option.some.inj hstart ▸ hin)
    | last =>
      have hhead := head_of_next? hchain hbacked.back hcode hinstr hstart hin
      exact hmode ⟨rfl, hstart.trans hhead.symm⟩
  · subst hlast
    obtain ⟨after, hrun, hhalved⟩ := split_empties hchain hbacked hcode hcuts hwired hblock hinstr hnext
    have hne : id ≠ ⟨graph.blocks.size⟩ := by
      rintro rfl
      rw [block?_fresh] at hblock
      cases hblock
    refine ⟨block, after, hblock, hrun, hhalved.size hblock, ?_, ?_⟩
    · rw [hhalved.block?, if_neg hne, if_pos rfl]
    · rw [hhalved.block?, if_pos rfl]

/-! ## Two instructions, each a block of its own -/

/-- Two instructions one after the other. -/
def nops : Chain := .ofList (List.replicate 2 (.synthetic [0x90] 1 .nop))

/-- Their blocks. -/
def pair : BlockGraph := outcome (split nops ⟨0⟩ ⟨1⟩ .first) (whole ⟨0⟩ ⟨1⟩ 2 [1])

theorem nops_spells : nops.Spells (Part.code [⟨⟨0⟩, [⟨0⟩]⟩, ⟨⟨1⟩, [⟨1⟩]⟩]) := Chain.spells_ofList _

/-- The two blocks of one instruction each cut up the code, and there are no edges to be wired. -/
theorem pair_cuts : pair.Cuts [⟨⟨0⟩, [⟨0⟩]⟩, ⟨⟨1⟩, [⟨1⟩]⟩] ∧ pair.Wired := by
  have hwhole : nops.Spells (Part.code ([] ++ ⟨⟨0⟩, [⟨0⟩] ++ ⟨1⟩ :: []⟩ :: [])) := nops_spells
  have hmarked : (whole ⟨0⟩ ⟨1⟩ 2 [1]).Marked _ _ _ _ := whole_marked hwhole rfl rfl
  obtain ⟨graph, hrun, hsevered⟩ := split_first_run hwhole hmarked.cuts hmarked.wired (by simp)
  rw [pair, outcome_ok hrun]
  exact ⟨hsevered.cuts, hsevered.wired⟩

/-- The first instruction is not in the second block. To begin a block with it the second block is not split,
to end one with it the second block is emptied. -/
theorem split_foreign_nops : nops.Threaded ∧ nops.Backed ∧ nops.ids = Part.code [⟨⟨0⟩, [⟨0⟩]⟩, ⟨⟨1⟩, [⟨1⟩]⟩]
    ∧ pair.Cuts [⟨⟨0⟩, [⟨0⟩]⟩, ⟨⟨1⟩, [⟨1⟩]⟩] ∧ (⟨0⟩ : InstrId) ∉ [(⟨1⟩ : InstrId)]
    ∧ (∃ cause, split nops ⟨1⟩ ⟨0⟩ .first pair = .error cause pair)
    ∧ ∃ after, split nops ⟨1⟩ ⟨0⟩ .last pair = .ok ⟨1⟩ after ∧ after.size = pair.size + 1 := by
  obtain ⟨hcuts, hwired⟩ := pair_cuts
  have hforeign : (⟨0⟩ : InstrId) ∉ [(⟨1⟩ : InstrId)] := by decide
  have hsplit := split_foreign nops_spells.threaded nops_spells.backed nops_spells.ids_eq hcuts
    (List.mem_cons_of_mem _ (List.mem_cons_self ..)) hforeign
  obtain ⟨_, after, -, hrun, hsize, -⟩ := (hsplit .last).2 hwired rfl (by decide)
  exact ⟨nops_spells.threaded, nops_spells.backed, nops_spells.ids_eq, hcuts, hforeign,
    (hsplit .first).1 nofun, after, hrun, hsize⟩

/-- A split at an instruction that is not in the block may succeed, and leave a block without instructions. -/
theorem foreign_split_succeeds : nops.Threaded ∧ nops.Backed
    ∧ nops.ids = Part.code [⟨⟨0⟩, [⟨0⟩]⟩, ⟨⟨1⟩, [⟨1⟩]⟩] ∧ pair.Cuts [⟨⟨0⟩, [⟨0⟩]⟩, ⟨⟨1⟩, [⟨1⟩]⟩] ∧ pair.Wired
    ∧ (⟨0⟩ : InstrId) ∉ [(⟨1⟩ : InstrId)]
    ∧ ∃ after, split nops ⟨1⟩ ⟨0⟩ .last pair = .ok ⟨1⟩ after ∧ after ≠ pair
      ∧ (after.block? ⟨1⟩).map (fun block => (block.first, block.last, block.count)) = some (⟨1⟩, ⟨0⟩, 0) := by
  obtain ⟨hcuts, hwired⟩ := pair_cuts
  have hrun : Returns (split nops ⟨1⟩ ⟨0⟩ .last) pair ⟨1⟩ = true := by decide +kernel
  exact ⟨nops_spells.threaded, nops_spells.backed, nops_spells.ids_eq, hcuts, hwired, by decide, _, Returns.ok hrun,
    by decide +kernel, by decide +kernel⟩

end GraphM

end Splice
