import Splice.Proofs.Block.Construction

/-!
# The halves of a split block

What a split leaves of the whole graph. If the instruction is not where the split asks for it,
one block is added (`BlockGraph.Extends`): the old one keeps the head of its run, the edges that
enter it and the header tag, and the new one, right behind it, gets the tail, the edges that
leave it and the footer tag. Nothing else changes but that the block behind names the new one in
front of it. The instruction is then where the same split asks for it, so to repeat the split
changes nothing (`split_exact`).

> `split_exact`: a split at an instruction of a block returns the block that begins, or ends,
> with it; if that is the block itself nothing is done, else the block is cut on that side, and
> the same split does nothing more.

Both modes are treated as one with two sides (`SplitMode.side`), so that what is said of the
first half in one mode is said of the second half in the other. It is supposed that the
instruction lies in the block; what a split does elsewhere is in `Splice.Proofs.Block.Foreign`.
-/

namespace Splice

/-- The graph `after` has one block more than `graph`: the block `id` was cut between `headLast` and
`tailFirst`, and `new` is what it has lost. -/
structure BlockGraph.Extends (graph after : BlockGraph) (ps : List Part) (id new : BlockId)
    (front : List InstrId) (headLast tailFirst : InstrId) (back : List InstrId) (qs : List Part) : Prop where
  size : after.size = graph.size + 1
  cuts : after.Cuts (ps ++ ⟨id, front ++ [headLast]⟩ :: ⟨new, tailFirst :: back⟩ :: qs)
  wired : after.Wired
  ids : graph.ids = ps.map (·.id) ++ id :: qs.map (·.id)
    ∧ after.ids = ps.map (·.id) ++ id :: new :: qs.map (·.id)
  inOrder : after.tree.inOrder = after.ids
  halves : ∃ block, graph.block? id = some block
    ∧ (front ++ [headLast]).length + (tailFirst :: back).length = block.count
    ∧ after.block? id = some (block.firstHalf (front ++ [headLast]).length headLast new)
    ∧ after.block? new = some (block.secondHalf (front ++ [headLast]).length tailFirst id)
  others : ∀ other, other ≠ id → other ≠ new → after.block? other
    = if qs.head?.map (·.id) = some other then
        (graph.block? other).map fun block => { block with prev := some new }
      else graph.block? other
  edges : ∀ edge, after.edge? edge = (graph.edge? edge).map (.leaving id new)
  sections : after.sections = graph.sections

namespace GraphM

open BlockGraph

variable {graph after : BlockGraph} {ps qs : List Part} {id new : BlockId} {front back : List InstrId}
  {block first second : Block} {headLast tailFirst : InstrId}

/-- To halve a block adds one block to the graph. -/
theorem Halved.size (h : Halved graph after id ⟨graph.blocks.size⟩ block first second)
    (hblock : graph.block? id = some block) : after.size = graph.size + 1 := by
  have hlt : ∀ index, index < after.blocks.size ↔ index < graph.blocks.size + 1 := by
    intro index
    have hsome : (after.block? ⟨index⟩).isSome
        = (if (⟨index⟩ : BlockId) = ⟨graph.blocks.size⟩ then true else (graph.block? ⟨index⟩).isSome) := by
      rw [h.block?]
      split
      next => rfl
      next =>
        split
        next he => rw [he, hblock]; rfl
        next =>
          split
          next => rw [Option.isSome_map]
          next => rfl
    simp only [BlockGraph.block?, Handle.mk.injEq] at hsome
    grind
  have hin := hlt graph.blocks.size
  have hout := hlt (graph.blocks.size + 1)
  show after.blocks.size = graph.blocks.size + 1
  omega

/-- What a cut inside of a block leaves. -/
theorem extends_of_halved
    (hcuts : graph.Cuts (ps ++ ⟨id, (front ++ [headLast]) ++ tailFirst :: back⟩ :: qs))
    (hblock : graph.block? id = some block)
    (hsevered : graph.Severed after id ⟨graph.blocks.size⟩
      (ps ++ ⟨id, front ++ [headLast]⟩ :: ⟨⟨graph.blocks.size⟩, tailFirst :: back⟩ :: qs))
    (hhalved : Halved graph after id ⟨graph.blocks.size⟩ block
      (block.firstHalf (front ++ [headLast]).length headLast ⟨graph.blocks.size⟩)
      (block.secondHalf (front ++ [headLast]).length tailFirst id)) :
    graph.Extends after ps id ⟨graph.blocks.size⟩ front headLast tailFirst back qs := by
  obtain ⟨found, hfound, hfits⟩ := hcuts.bounds
  obtain rfl := Option.some.inj (hfound.symm.trans hblock)
  have hne : id ≠ ⟨graph.blocks.size⟩ := by
    rintro rfl
    rw [block?_fresh] at hblock
    cases hblock
  have hids : after.ids = ps.map (·.id) ++ id :: ⟨graph.blocks.size⟩ :: qs.map (·.id) := by
    rw [hsevered.cuts.ids]
    simp
  refine ⟨hhalved.size hblock, hsevered.cuts, hsevered.wired, ⟨?_, hids⟩, ?_, ⟨found, hblock, ?_, ?_, ?_⟩,
    fun other hother hnew => ?_, hsevered.edge?, hsevered.sections⟩
  · rw [hcuts.ids]
    simp
  · rw [hsevered.cuts.tree.inOrder, hsevered.cuts.ids]
  · rw [← List.length_append]
    exact hfits.count.symm
  · rw [hhalved.block?, if_neg hne, if_pos rfl]
  · rw [hhalved.block?, if_pos rfl]
  · rw [hhalved.block?, if_neg hnew, if_neg hother, show found.next = _ from hfits.next]

theorem spells_halves {chain : Chain}
    (hl : chain.Spells (Part.code (ps ++ ⟨id, (front ++ [headLast]) ++ tailFirst :: back⟩ :: qs))) :
    chain.Spells (Part.code (ps ++ ⟨id, front ++ [headLast]⟩ :: ⟨new, tailFirst :: back⟩ :: qs)) := by
  simpa [Part.code] using hl

end GraphM

namespace BlockGraph.Extends

open GraphM

variable {graph after : BlockGraph} {chain : Chain} {ps qs : List Part} {id new : BlockId}
  {front back : List InstrId} {headLast tailFirst : InstrId}
  (h : graph.Extends after ps id new front headLast tailFirst back qs)
  (hl : chain.Spells (Part.code (ps ++ ⟨id, (front ++ [headLast]) ++ tailFirst :: back⟩ :: qs)))

include h hl

/-- The split that cut the block there finds nothing left to do. -/
theorem again (mode : SplitMode) :
    split chain (mode.side id new) (mode.side headLast tailFirst) mode after = .ok (mode.side id new) after
      ∧ outcome (split chain id (mode.side headLast tailFirst) mode) after = after := by
  obtain ⟨_, -, -, hfirst, hsecond⟩ := h.halves
  cases mode with
  | first =>
    refine ⟨split_seated hsecond rfl, ?_⟩
    -- the block that was cut has lost the instruction
    have hout : tailFirst ∉ front ++ [headLast] := by
      have hnodup := hl.nodup
      rw [code_around, List.nodup_append, List.nodup_append, List.nodup_append] at hnodup
      obtain ⟨-, ⟨⟨-, -, hdisj⟩, -⟩, -⟩ := hnodup
      exact fun hin => hdisj _ hin _ (List.mem_cons_self ..) rfl
    obtain ⟨_, hrefused⟩ : ∃ cause, split chain id tailFirst .first after = .error cause after :=
      split_refused (spells_halves hl) h.cuts hout nofun
    exact outcome_error hrefused
  | last =>
    have hagain : split chain id headLast .last after = .ok id after := split_seated hfirst rfl
    exact ⟨hagain, outcome_ok hagain⟩

/-- The new block begins with what is behind the cut, the old one ends with what is in front of it. -/
theorem instructions (mode : SplitMode) :
    after.instructions chain (mode.side id new) = .ok (mode.side (front ++ [headLast]) (tailFirst :: back))
      ∧ mode.side (mode.side (front ++ [headLast]) (tailFirst :: back)).getLast?
          (mode.side (front ++ [headLast]) (tailFirst :: back)).head? = some (mode.side headLast tailFirst) := by
  cases mode with
  | first => exact ⟨(instructions_iff (spells_halves hl) h.cuts).mpr (by simp [SplitMode.side]), rfl⟩
  | last =>
    exact ⟨(instructions_iff (spells_halves hl) h.cuts).mpr (by simp [SplitMode.side]), List.getLast?_concat ..⟩

end BlockGraph.Extends

namespace GraphM

open BlockGraph

variable {graph : BlockGraph} {chain : Chain} {ps qs : List Part} {id : BlockId} {run : List InstrId}
  {instr : InstrId}

/-- A split at an instruction of a block returns the block that begins, or ends, with the instruction. If
that is the block itself, nothing is done; else the block is cut in two on that side of the instruction.
The same split does nothing more. -/
theorem split_exact (hl : chain.Spells (Part.code (ps ++ ⟨id, run⟩ :: qs)))
    (hcuts : graph.Cuts (ps ++ ⟨id, run⟩ :: qs)) (hwired : graph.Wired) (hinstr : instr ∈ run)
    (mode : SplitMode) :
    ∃ kept after part, split chain id instr mode graph = .ok kept after
      ∧ after.instructions chain kept = .ok part ∧ mode.side part.getLast? part.head? = some instr
      ∧ (mode.side run.getLast? run.head? = some instr → kept = id ∧ after = graph)
      ∧ (mode.side run.getLast? run.head? ≠ some instr → kept = mode.side id ⟨graph.blocks.size⟩
        ∧ ∃ front headLast tailFirst back, run = (front ++ [headLast]) ++ tailFirst :: back
          ∧ instr = mode.side headLast tailFirst
          ∧ graph.Extends after ps id ⟨graph.blocks.size⟩ front headLast tailFirst back qs)
      ∧ split chain kept instr mode after = .ok kept after
      ∧ outcome (split chain id instr mode) after = after := by
  obtain ⟨block, hblock, hfits⟩ := hcuts.bounds
  have hends : mode.side run.getLast? run.head? = some (mode.side block.last block.first) := by
    cases mode with
    | first => exact hfits.first
    | last => exact hfits.last
  rw [hends]
  by_cases hseat : mode.side block.last block.first = instr
  · have hrun : split chain id instr mode graph = .ok id graph := split_seated hblock hseat
    have hinstrs : graph.instructions chain id = .ok run := (instructions_iff hl hcuts).mpr (by simp)
    exact ⟨id, graph, run, hrun, hinstrs, hends.trans (congrArg some hseat), fun _ => ⟨rfl, rfl⟩,
      fun hne => absurd (congrArg some hseat) hne, hrun, outcome_ok hrun⟩
  · obtain ⟨front, headLast, tailFirst, back, rfl, rfl⟩ := side_of_mem hfits.first hfits.last hinstr hseat
    obtain ⟨after, hrun, hsevered, hhalved⟩ := split_inside hl hcuts hblock hwired mode
    have hextends := extends_of_halved hcuts hblock hsevered hhalved
    obtain ⟨hinstrs, hside⟩ := hextends.instructions hl mode
    obtain ⟨hagain, hsame⟩ := hextends.again hl mode
    exact ⟨_, after, _, hrun, hinstrs, hside, fun he => absurd (Option.some.inj he) hseat,
      fun _ => ⟨rfl, front, headLast, tailFirst, back, rfl, rfl, hextends⟩, hagain, hsame⟩

theorem split_exact_nops : ∃ chain graph, ∃ run : List InstrId,
    chain.Spells (Part.code ([] ++ ⟨⟨0⟩, run⟩ :: [])) ∧ graph.Cuts ([] ++ ⟨⟨0⟩, run⟩ :: [])
      ∧ graph.Wired ∧ ⟨1⟩ ∈ run
      ∧ ∃ kept after, split chain ⟨0⟩ ⟨1⟩ .last graph = .ok kept after ∧ after.size = 2
        ∧ split chain kept ⟨1⟩ .last after = .ok kept after := by
  have hl := Chain.spells_ofList (List.replicate 3 (.synthetic [0x90] 1 .nop))
  have hmarked : (whole ⟨0⟩ ⟨2⟩ _ []).Marked _ [] _ _ := whole_marked hl rfl rfl
  have hcode : Part.code ([] ++ ⟨⟨0⟩, _⟩ :: []) = _ := hmarked.code
  have hmem : (⟨1⟩ : InstrId) ∈ (List.range 3).map (Handle.mk : Nat → InstrId) := by decide
  obtain ⟨kept, after, _, hrun, -, -, -, hcut, hagain, -⟩ :=
    split_exact (hcode ▸ hl) hmarked.cuts hmarked.wired hmem .last
  obtain ⟨-, _, _, _, _, -, -, hextends⟩ := hcut (by decide)
  exact ⟨_, _, _, hcode ▸ hl, hmarked.cuts, hmarked.wired, hmem, kept, after, hrun, hextends.size, hagain⟩

end GraphM

end Splice
