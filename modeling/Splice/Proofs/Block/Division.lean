import Splice.Proofs.Block.Partition
import Splice.Proofs.Chain.Order

/-!
# Splitting blocks

A split at an instruction makes a block begin at an instruction (`SplitMode.start?`): at
the one itself, or at the one behind it. `Divided` says what comes of the blocks: the same
code is cut, in the old places and in this one. A split at an instruction of the block
always succeeds (`split_run`), and one at any other instruction is refused, save for one
place where a block in front of which the instruction stands would be cut off from nothing
(`split_refused`).

A cut comes down to three cases, by where the instruction stands: at the seat that the split
asks for, where nothing is done (`split_seated`), elsewhere in the run, where the block is cut
(`split_inside`), and outside of it (`split_away`). The last case is not told from the others by
a check: it is refused on the way to the cut, which leads past the end of the block. The
exception is what `Splice.Proofs.Block.Foreign` is about.
-/

namespace Splice

/-- The instruction that a block is to begin with after a split. -/
def SplitMode.start? (chain : Chain) (instr : InstrId) : SplitMode → Option InstrId
  | .first => some instr
  | .last => chain.next? instr

/-- What is on the side of a cut that the instruction of a split is on: the tail, which it begins, or the
head, which it ends. -/
def SplitMode.side {α : Type} (head tail : α) : SplitMode → α
  | .first => tail
  | .last => head

/-- A graph of the runs `after` comes from one of the runs `parts` by no more than a cut in front of
`start`. -/
structure Divided (graph : BlockGraph) (parts : List Part) (start : Option InstrId)
    (split : BlockGraph) (after : List Part) : Prop where
  cuts : split.Cuts after
  wired : split.Wired
  sections : split.sections = graph.sections
  code : Part.code after = Part.code parts
  starts : ∀ x, x ∈ Part.starts after ↔ x ∈ Part.starts parts ∨ start = some x
  pieces : ∀ part ∈ after, ∃ old ∈ parts, part.run ⊆ old.run
  edge? : ∀ edge, graph.edge? edge = none → split.edge? edge = none

namespace Divided

variable {graph after : BlockGraph} {parts ps qs : List Part} {id new : BlockId}
  {front back : List InstrId} {tailFirst : InstrId}

/-- A graph that begins a block at the start already has nothing to cut. -/
theorem same {start : Option InstrId} (hcuts : graph.Cuts parts) (hwired : graph.Wired)
    (hstart : ∀ x, start = some x → x ∈ Part.starts parts) :
    Divided graph parts start graph parts where
  cuts := hcuts
  wired := hwired
  sections := rfl
  code := rfl
  starts x := ⟨.inl, fun h => Or.rec (fun h => h) (hstart x) h⟩
  pieces part hpart := ⟨part, hpart, List.Subset.refl _⟩
  edge? _ h := h

/-- Two halves in the place of a part. -/
theorem halves (hfront : front ≠ [])
    (h : graph.Severed after id new (ps ++ ⟨id, front⟩ :: ⟨new, tailFirst :: back⟩ :: qs)) :
    Divided graph (ps ++ ⟨id, front ++ tailFirst :: back⟩ :: qs) (some tailFirst) after
      (ps ++ ⟨id, front⟩ :: ⟨new, tailFirst :: back⟩ :: qs) where
  cuts := h.cuts
  wired := h.wired
  sections := h.sections
  code := by simp [Part.code]
  starts x := by
    obtain ⟨first, front, rfl⟩ := List.exists_cons_of_ne_nil hfront
    simp only [Part.starts, List.filterMap_append, List.filterMap_cons, List.cons_append,
      List.head?_cons, List.mem_append, List.mem_cons, Option.some.injEq]
    grind
  pieces part hpart := by
    simp only [List.mem_append, List.mem_cons] at hpart ⊢
    rcases hpart with hpart | rfl | rfl | hpart
    · exact ⟨part, .inl hpart, List.Subset.refl _⟩
    · exact ⟨_, .inr (.inl rfl), List.subset_append_left ..⟩
    · exact ⟨_, .inr (.inl rfl), List.subset_append_right ..⟩
    · exact ⟨part, .inr (.inr hpart), List.Subset.refl _⟩
  edge? edge hedge := by rw [h.edge?, hedge]; rfl

end Divided

namespace GraphM

open BlockGraph

variable {graph : BlockGraph} {chain : Chain} {parts ps qs : List Part} {part : Part} {id : BlockId}
  {run front back xs ys : List InstrId} {block : Block} {instr tailFirst : InstrId}
  {mode : SplitMode}

/-! ## Where the cut is made -/

/-- Up to an instruction that is not in the front part, the front part is taken whole. -/
theorem takeWhile_ne_of_not_mem (h : tailFirst ∉ front) :
    (front ++ ys).takeWhile (· != tailFirst) = front ++ ys.takeWhile (· != tailFirst) := by
  refine List.takeWhile_append_of_pos fun x hx => ?_
  have hne : x ≠ tailFirst := fun he => h (he ▸ hx)
  simpa using hne

/-- The cut in front of an instruction of the block leaves the instructions before it. -/
theorem headCount_run (hl : chain.Spells (xs ++ ((front ++ tailFirst :: back) ++ ys)))
    (hfirst : (front ++ tailFirst :: back).head? = some block.first)
    (hlast : (front ++ tailFirst :: back).getLast? = some block.last) :
    headCount chain block tailFirst instr graph = .ok front.length graph := by
  have hhead : ((front ++ tailFirst :: back) ++ ys).head? = some block.first := by
    rw [List.head?_append, hfirst]
    rfl
  have hwalk : chain.walk (some block.first) = (front ++ tailFirst :: back) ++ ys :=
    hhead ▸ Chain.Spells.walk_append xs hl
  have hnodup := (List.nodup_append.mp hl.nodup).2.1
  -- names occur once, so the walk meets `tailFirst` right behind the front
  rw [List.append_assoc, List.cons_append, List.nodup_append] at hnodup
  have hnot : tailFirst ∉ front := fun hmem => hnodup.2.2 _ hmem _ (List.mem_cons_self ..) rfl
  have htake : ((front ++ tailFirst :: back) ++ ys).takeWhile (· != tailFirst) = front := by
    rw [List.append_assoc, takeWhile_ne_of_not_mem hnot]
    simp
  have hlast' : block.last ∈ tailFirst :: back := by
    rw [List.getLast?_append, List.getLast?_cons, Option.some_or, ← List.getLast?_cons] at hlast
    exact List.mem_of_getLast? hlast
  have hin : front.contains block.last = false := by
    rw [Bool.eq_false_iff, ne_eq, List.contains_iff_mem]
    intro hmem
    have hbehind : block.last ∈ tailFirst :: (back ++ ys) := by
      rw [← List.cons_append]
      exact List.mem_append_left _ hlast'
    exact hnodup.2.2 _ hmem _ hbehind rfl
  have hlength : front.length ≠ ((front ++ tailFirst :: back) ++ ys).length := by
    simp only [List.length_append, List.length_cons]
    omega
  simp only [headCount, hwalk, htake, hin, if_neg hlength, Bool.false_eq_true, if_false]
  rfl

/-- There is no cut in front of an instruction outside of the block. -/
theorem headCount_refused (hwalk : chain.walk (some block.first) = run ++ ys)
    (hlast : run.getLast? = some block.last) (hout : tailFirst ∉ run) :
    headCount chain block tailFirst instr graph = .error (unmapped chain instr) graph := by
  have hin : (run ++ ys.takeWhile (· != tailFirst)).contains block.last = true :=
    List.contains_iff_mem.mpr (List.mem_append_left _ (List.mem_of_getLast? hlast))
  simp only [headCount, hwalk, takeWhile_ne_of_not_mem hout, hin, if_true]
  rfl

/-- The code in front of a part, the part, and the code behind it. -/
theorem code_around : Part.code (ps ++ ⟨id, run⟩ :: qs)
    = Part.code ps ++ (run ++ Part.code qs) := by
  rw [Part.code_append, Part.code_cons]

/-- The instructions of a block are the run of its part. -/
theorem instructions_of_cuts (hl : chain.Spells (Part.code parts)) (hcuts : graph.Cuts parts)
    (hpart : part ∈ parts) : graph.instructions chain part.id = .ok part.run := by
  obtain ⟨ps, qs, rfl⟩ := List.append_of_mem hpart
  obtain ⟨block, hblock, hfits⟩ := hcuts.bounds
  rw [Part.code_append, Part.code_cons, ← List.append_assoc] at hl
  rw [BlockGraph.instructions, bind_eq_ok]
  exact ⟨block, block_eq hblock, pure_eq_ok.mpr (hl.run_eq hfits.first hfits.last)⟩

/-- Nothing but the runs of the parts are instructions of a block. -/
theorem instructions_iff (hl : chain.Spells (Part.code parts)) (hcuts : graph.Cuts parts) :
    graph.instructions chain id = .ok run ↔ (⟨id, run⟩ : Part) ∈ parts := by
  refine ⟨fun hrun => ?_, fun hpart => instructions_of_cuts hl hcuts hpart⟩
  obtain ⟨block, hblock, -⟩ := bind_eq_ok.mp hrun
  obtain ⟨ps, run', qs, rfl⟩ := hcuts.part_of (by rw [block_of_eq hblock]; rfl)
  have hpart : (⟨id, run'⟩ : Part) ∈ ps ++ ⟨id, run'⟩ :: qs := List.mem_append_right _ (List.mem_cons_self ..)
  obtain rfl := Except.ok.inj ((instructions_of_cuts hl hcuts hpart).symm.trans hrun)
  exact hpart

/-- Where a block already begins or ends with the instruction nothing is done. -/
theorem split_seated (hblock : graph.block? id = some block) (hseat : mode.side block.last block.first = instr) :
    split chain id instr mode graph = .ok id graph := by
  subst hseat
  cases mode <;> exact (bind_run (block_ok.mpr ⟨hblock, rfl⟩)).trans (congrFun (if_pos rfl) graph)

/-- Any other instruction of the block stands on one side of a cut inside of the block. -/
theorem side_of_mem (hfirst : run.head? = some block.first) (hlast : run.getLast? = some block.last)
    (hinstr : instr ∈ run) (hseat : mode.side block.last block.first ≠ instr) :
    ∃ front headLast tailFirst back, run = (front ++ [headLast]) ++ tailFirst :: back
      ∧ instr = mode.side headLast tailFirst := by
  obtain ⟨front, back, rfl⟩ := List.append_of_mem hinstr
  cases mode with
  | first =>
    rcases List.eq_nil_or_concat front with rfl | ⟨front, headLast, rfl⟩
    · exact absurd (Option.some.inj hfirst).symm hseat
    · exact ⟨front, headLast, instr, back, by simp, rfl⟩
  | last =>
    cases back with
    | nil =>
      rw [List.getLast?_concat] at hlast
      exact absurd (Option.some.inj hlast).symm hseat
    | cons tailFirst back => exact ⟨front, instr, tailFirst, back, by simp, rfl⟩

section Inside

variable {headLast : InstrId}
  (hl : chain.Spells (Part.code (ps ++ ⟨id, (front ++ [headLast]) ++ tailFirst :: back⟩ :: qs)))

include hl

/-- In the code, the instruction behind the last one of the head is the first one of the tail. -/
theorem next?_headLast : chain.next? headLast = some tailFirst := by
  have hat : chain.Spells ((Part.code ps ++ front) ++ headLast :: (tailFirst :: back ++ Part.code qs)) := by
    simpa [code_around] using hl
  exact hat.next?_eq

/-- In the code, the instruction in front of the first one of the tail is the last one of the head. -/
theorem prev?_tailFirst : chain.prev? tailFirst = some headLast := by
  have hat : chain.Spells ((Part.code ps ++ front ++ [headLast]) ++ tailFirst :: (back ++ Part.code qs)) := by
    simpa [code_around] using hl
  rw [hat.prev?_eq, List.getLast?_concat]

variable (hcuts : graph.Cuts (ps ++ ⟨id, (front ++ [headLast]) ++ tailFirst :: back⟩ :: qs))
  (hblock : graph.block? id = some block)

include hcuts hblock

/-- A block that is to be cut inside does not begin or end there yet. -/
theorem side_ne (mode : SplitMode) : mode.side headLast tailFirst ≠ mode.side block.last block.first := by
  obtain ⟨found, hfound, hfits⟩ := hcuts.bounds
  obtain rfl := Option.some.inj (hfound.symm.trans hblock)
  have hnodup := hl.nodup
  rw [code_around, List.nodup_append, List.nodup_append, List.nodup_append] at hnodup
  obtain ⟨-, ⟨⟨-, -, hdisj⟩, -⟩, -⟩ := hnodup
  have hfirst : found.first ∈ front ++ [headLast] := by
    have hhead := hfits.first
    rw [List.head?_append, Option.or_of_isSome (by simp)] at hhead
    exact List.mem_of_head? hhead
  have hlast : found.last ∈ tailFirst :: back := by
    have hend := hfits.last
    rw [List.getLast?_append, Option.or_of_isSome (by simp)] at hend
    exact List.mem_of_getLast? hend
  cases mode with
  | first => exact (hdisj _ hfirst _ (List.mem_cons_self ..)).symm
  | last => exact hdisj _ (List.mem_append_right _ (List.mem_singleton_self _)) _ hlast

/-- A split inside of a block cuts it there. -/
theorem split_inside (hwired : graph.Wired) (mode : SplitMode) :
    ∃ after, split chain id (mode.side headLast tailFirst) mode graph
        = .ok (mode.side id ⟨graph.blocks.size⟩) after
      ∧ graph.Severed after id ⟨graph.blocks.size⟩
        (ps ++ ⟨id, front ++ [headLast]⟩ :: ⟨⟨graph.blocks.size⟩, tailFirst :: back⟩ :: qs)
      ∧ Halved graph after id ⟨graph.blocks.size⟩ block
        (block.firstHalf (front ++ [headLast]).length headLast ⟨graph.blocks.size⟩)
        (block.secondHalf (front ++ [headLast]).length tailFirst id) := by
  obtain ⟨found, hfound, hfits⟩ := hcuts.bounds
  obtain rfl := Option.some.inj (hfound.symm.trans hblock)
  have hprev := prev?_tailFirst hl
  have hne := side_ne hl hcuts hblock mode
  have hcount : ∀ instr, headCount chain found tailFirst instr graph = .ok (front ++ [headLast]).length graph :=
    fun instr => headCount_run (code_around ▸ hl) hfits.first hfits.last
  obtain ⟨after, hcut, hsevered, hhalved⟩ := cut_run hcuts hwired hblock (List.getLast?_concat ..) rfl
  refine ⟨after, (bind_run (block_ok.mpr ⟨hblock, rfl⟩)).trans ?_, hsevered, hhalved⟩
  cases mode with
  | first =>
    refine (congrFun (if_neg hne) graph).trans ((bind_run (hcount _)).trans ?_)
    rw [SplitMode.side, hprev]
    exact hcut
  | last =>
    refine (congrFun (if_neg hne) graph).trans ?_
    rw [SplitMode.side, next?_headLast hl]
    refine (bind_run (a := tailFirst) rfl).trans ((bind_run (hcount _)).trans ?_)
    rw [hprev]
    exact (bind_run (a := ⟨⟩) (discard_ok.mpr ⟨_, hcut⟩)).trans rfl

end Inside

/-- A split in front of an instruction inside of the block cuts it there. -/
theorem split_first_run (hl : chain.Spells (Part.code (ps ++ ⟨id, front ++ instr :: back⟩ :: qs)))
    (hcuts : graph.Cuts (ps ++ ⟨id, front ++ instr :: back⟩ :: qs)) (hwired : graph.Wired)
    (hfront : front ≠ []) :
    ∃ after, split chain id instr .first graph = .ok ⟨graph.blocks.size⟩ after
      ∧ graph.Severed after id ⟨graph.blocks.size⟩
        (ps ++ ⟨id, front⟩ :: ⟨⟨graph.blocks.size⟩, instr :: back⟩ :: qs) := by
  obtain ⟨front, headLast, rfl⟩ := (List.eq_nil_or_concat front).resolve_left hfront
  rw [List.concat_eq_append] at *
  obtain ⟨block, hblock, -⟩ := hcuts.bounds
  obtain ⟨after, hrun, hsevered, -⟩ := split_inside hl hcuts hblock hwired .first
  exact ⟨after, hrun, hsevered⟩

/-- The block begins where a split asks for it, and so no new beginning is made. -/
theorem divided_seated (hl : chain.Spells (Part.code (ps ++ ⟨id, run⟩ :: qs)))
    (hcuts : graph.Cuts (ps ++ ⟨id, run⟩ :: qs)) (hwired : graph.Wired) (hblock : graph.block? id = some block)
    (hseat : mode.side block.last block.first = instr) :
    Divided graph (ps ++ ⟨id, run⟩ :: qs) (mode.start? chain instr) graph (ps ++ ⟨id, run⟩ :: qs) := by
  obtain ⟨found, hfound, hfits⟩ := hcuts.bounds
  obtain rfl := Option.some.inj (hfound.symm.trans hblock)
  refine Divided.same hcuts hwired fun x hx => ?_
  cases mode with
  | first =>
    obtain rfl : instr = x := Option.some.inj hx
    exact Part.mem_starts.mpr ⟨⟨id, run⟩, by simp, hfits.first.trans (congrArg some hseat)⟩
  | last =>
    -- the next block begins behind the end of this one
    obtain ⟨front, hrun⟩ := List.getLast?_eq_some_iff.mp (hfits.last.trans (congrArg some hseat))
    have hat : chain.Spells ((Part.code ps ++ front) ++ instr :: Part.code qs) := by
      simpa [code_around, hrun] using hl
    have hnext : (Part.code qs).head? = some x := hat.next?_eq.symm.trans hx
    rw [Part.head?_code fun part hpart => hcuts.run_ne_nil (by simp [hpart])] at hnext
    obtain ⟨part, hpart, hhead⟩ := Part.mem_starts.mp (List.mem_of_head? hnext)
    exact Part.mem_starts.mpr ⟨part, List.mem_append_right _ (List.mem_cons_of_mem _ hpart), hhead⟩

/-- A split at an instruction of the block succeeds. -/
theorem split_run (hl : chain.Spells (Part.code (ps ++ ⟨id, run⟩ :: qs)))
    (hcuts : graph.Cuts (ps ++ ⟨id, run⟩ :: qs)) (hwired : graph.Wired) (hinstr : instr ∈ run)
    (mode : SplitMode) :
    ∃ kept after parts, split chain id instr mode graph = .ok kept after
      ∧ Divided graph (ps ++ ⟨id, run⟩ :: qs) (mode.start? chain instr) after parts := by
  obtain ⟨block, hblock, hfits⟩ := hcuts.bounds
  by_cases hseat : mode.side block.last block.first = instr
  · exact ⟨id, graph, _, split_seated hblock hseat, divided_seated hl hcuts hwired hblock hseat⟩
  · obtain ⟨front, headLast, tailFirst, back, rfl, rfl⟩ := side_of_mem hfits.first hfits.last hinstr hseat
    obtain ⟨after, hrun, hsevered, -⟩ := split_inside hl hcuts hblock hwired mode
    have hstart : mode.start? chain (mode.side headLast tailFirst) = some tailFirst := by
      cases mode with
      | first => rfl
      | last => exact next?_headLast hl
    have hdivided := Divided.halves (by simp) hsevered
    exact ⟨_, after, _, hrun, hstart ▸ hdivided⟩

/-- A split is refused at an instruction outside of the block, if what the second half would begin with is
outside of it, too. -/
theorem split_away (hblock : graph.block? id = some block) (hwalk : chain.walk (some block.first) = run ++ ys)
    (hfirst : run.head? = some block.first) (hlast : run.getLast? = some block.last) (hinstr : instr ∉ run)
    (hstart : ∀ start, mode.start? chain instr = some start → start ∉ run) :
    ∃ cause, split chain id instr mode graph = .error cause graph := by
  cases mode with
  | first =>
    have hne : instr ≠ block.first := fun he => hinstr (he ▸ List.mem_of_head? hfirst)
    refine ⟨unmapped chain instr, (bind_run (block_ok.mpr ⟨hblock, rfl⟩)).trans ?_⟩
    rw [if_neg hne]
    exact bind_error (headCount_refused hwalk hlast hinstr)
  | last =>
    have hne : instr ≠ block.last := fun he => hinstr (he ▸ List.mem_of_getLast? hlast)
    cases hnext : chain.next? instr with
    | none =>
      refine ⟨.chain (.missingInstruction instr), (bind_run (block_ok.mpr ⟨hblock, rfl⟩)).trans ?_⟩
      rw [if_neg hne, hnext]
      rfl
    | some next =>
      refine ⟨unmapped chain instr, (bind_run (block_ok.mpr ⟨hblock, rfl⟩)).trans ?_⟩
      rw [if_neg hne, hnext]
      exact (bind_run (a := next) rfl).trans (bind_error (headCount_refused hwalk hlast (hstart next hnext)))

/-- From the beginning of a block on, the code is its run and what is behind. -/
theorem walk_block (hchain : chain.Threaded) (hcode : chain.ids = Part.code (ps ++ ⟨id, run⟩ :: qs))
    (hfirst : run.head? = some block.first) :
    chain.walk (some block.first) = run ++ Part.code qs := by
  have hhead : (run ++ Part.code qs).head? = some block.first := by
    rw [List.head?_append, hfirst]
    rfl
  exact hhead ▸ hchain.walk_append (hcode.trans code_around)

/-- An instruction outside of a block leads into it at its beginning only. -/
theorem head_of_next? (hchain : chain.Threaded)
    (hback : ∀ id next, chain.next? id = some next → chain.contains next = true → chain.prev? next = some id)
    (hcode : chain.ids = Part.code (ps ++ ⟨id, run⟩ :: qs)) (hinstr : instr ∉ run) {next : InstrId}
    (hnext : chain.next? instr = some next) (hin : next ∈ run) : run.head? = some next := by
  obtain ⟨us, vs, rfl⟩ := List.append_of_mem hin
  rcases List.eq_nil_or_concat us with rfl | ⟨us, last, rfl⟩
  · rfl
  · -- the instruction would be the one in front of the next one
    have hlinks := hchain.links
    rw [hcode, code_around] at hlinks
    have hat : chain.Segment none ((Part.code ps ++ us ++ [last]) ++ next :: (vs ++ Part.code qs)) none := by
      simpa using hlinks
    obtain ⟨found, hnode⟩ := hat.node?
    have hprev := hback instr next hnext (by rw [Chain.contains, hnode]; rfl)
    rw [Chain.prev?, hnode, Option.bind_some, List.getLast?_concat] at hprev
    exact absurd (by simp [← Option.some.inj hprev]) hinstr

/-- A split at an instruction outside of the block is refused, unless the instruction stands right in
front of the block and is to be the last of one. -/
theorem split_refused (hl : chain.Spells (Part.code (ps ++ ⟨id, run⟩ :: qs)))
    (hcuts : graph.Cuts (ps ++ ⟨id, run⟩ :: qs)) (hinstr : instr ∉ run)
    (hmode : mode = .last → chain.next? instr ≠ run.head?) :
    ∃ cause, split chain id instr mode graph = .error cause graph := by
  obtain ⟨block, hblock, hfits⟩ := hcuts.bounds
  refine split_away hblock (walk_block hl.threaded hl.ids_eq hfits.first) hfits.first hfits.last hinstr
    fun start hstart hin => ?_
  cases mode with
  | first => exact hinstr (Option.some.inj hstart ▸ hin)
  | last =>
    have hhead := head_of_next? hl.threaded (fun _ _ hnext _ => hl.prev?_of_next? hnext) hl.ids_eq hinstr hstart hin
    exact hmode rfl (hstart.trans hhead.symm)

/-! ## Splits at the block of an instruction -/

/-- Where no block is found there is no split. -/
theorem splitAt_refused (h : ∀ id, graph.find chain instr ≠ .ok (some id)) :
    ∃ cause, splitAt chain instr mode graph = .error cause graph := by
  unfold splitAt
  cases hfind : graph.find chain instr with
  | error cause => exact ⟨cause, (bind_run (get_ok.mpr ⟨rfl, rfl⟩)).trans (by rw [hfind]; rfl)⟩
  | ok found =>
    cases found with
    | none =>
      exact ⟨unmapped chain instr, (bind_run (get_ok.mpr ⟨rfl, rfl⟩)).trans (by rw [hfind]; rfl)⟩
    | some id => exact absurd hfind (h id)

theorem splitAt_found (h : graph.find chain instr = .ok (some id)) :
    splitAt chain instr mode graph = split chain id instr mode graph :=
  (bind_run (get_ok.mpr ⟨rfl, rfl⟩)).trans (by rw [h])

/-- A split at the block that is found for an instruction divides it or is refused, if the block either
holds the instruction or does not stand right behind it. -/
theorem splitAt_divides (hl : chain.Spells (Part.code parts)) (hcuts : graph.Cuts parts)
    (hwired : graph.Wired)
    (hfind : ∀ part ∈ parts, graph.find chain instr = .ok (some part.id) →
      instr ∈ part.run ∨ (mode = .last → chain.next? instr ≠ part.run.head?)) :
    (∃ cause, splitAt chain instr mode graph = .error cause graph)
      ∨ ∃ kept after parts', splitAt chain instr mode graph = .ok kept after
        ∧ Divided graph parts (mode.start? chain instr) after parts' := by
  by_cases hfound : ∃ id, graph.find chain instr = .ok (some id)
  · obtain ⟨id, hid⟩ := hfound
    rw [splitAt_found hid]
    by_cases hpresent : (graph.block? id).isSome
    · obtain ⟨ps, run, qs, rfl⟩ := hcuts.part_of hpresent
      by_cases hinstr : instr ∈ run
      · obtain ⟨kept, after, parts', hrun, hdivided⟩ := split_run hl hcuts hwired hinstr mode
        exact .inr ⟨kept, after, parts', hrun, hdivided⟩
      · exact .inl (split_refused hl hcuts hinstr ((hfind ⟨id, run⟩ (by simp) hid).resolve_left hinstr))
    · exact .inl ⟨_, bind_error (block_error (Option.not_isSome_iff_eq_none.mp hpresent))⟩
  · exact .inl (splitAt_refused fun id hid => hfound ⟨id, hid⟩)

/-! ## What was not refused -/

section Successful

variable {after : BlockGraph} {new : BlockId} {headLast : InstrId} {count : Nat}

/-- What a cut did that was not refused. -/
theorem cut_parted (hwired : graph.Wired) (hblock : graph.block? id = some block)
    (h : cut id block count headLast tailFirst graph = .ok new after) :
    new = ⟨graph.blocks.size⟩
      ∧ Parted graph after id new block (block.firstHalf count headLast new)
        (block.secondHalf count tailFirst id) := by
  have hedges : ∀ edge ∈ block.outEdges, (graph.edge? edge).isSome := by
    intro edge hedge
    obtain ⟨found, hfound, -⟩ := Option.map_eq_some_iff.mp ((mem_outEdges_iff hwired hblock edge).mp hedge)
    rw [hfound]
    rfl
  simp only [cut, bind_ok, get_ok] at h
  obtain ⟨got, _, ⟨hgot, rfl⟩, _, halved, hhalve, _, moving, hmove, h⟩ := h
  obtain ⟨-, hhalved⟩ := updateBlock_ok.mp hhalve
  obtain ⟨moved, hrun, hmoved⟩ := @moveSources_run halved ⟨got.blocks.size⟩ block.outEdges
    (by rw [hhalved]; exact hedges)
  rw [hrun, EStateM.Result.ok.injEq] at hmove
  obtain ⟨-, rfl⟩ := hmove
  have hsize : halved.blocks.size = got.blocks.size := by
    rw [hhalved, hgot]
    exact Array.size_modify ..
  -- the block behind is told of the new block in front of it, and nothing else
  obtain ⟨joined, hjoined, hedge, hjoin, h⟩ : ∃ joined : BlockGraph, joined.blocks.size = got.blocks.size
      ∧ joined.edges = moved
      ∧ (∀ {β : Type} (k : Block → β), (∀ block prev, k { block with prev := prev } = k block) →
        ∀ other, (joined.block? other).map k = (halved.block? other).map k)
      ∧ (do
        modify fun graph : BlockGraph =>
          { graph with blocks := graph.blocks.push (block.secondHalf count tailFirst id) }
        onTree (TreeM.insertAfter id ⟨got.blocks.size⟩)
        return (⟨got.blocks.size⟩ : BlockId) : GraphM BlockId) joined = .ok new after := by
    cases hnext : block.next with
    | none =>
      rw [hnext] at h
      obtain ⟨_, joined, hjoin, h⟩ := bind_ok.mp h
      obtain rfl := modify_ok.mp hjoin
      refine ⟨{ halved with edges := moved, tail := some ⟨got.blocks.size⟩ }, hsize, rfl,
        fun _ _ _ => rfl, ?_⟩
      rw [Block.secondHalf, hnext]
      exact h
    | some next =>
      rw [hnext] at h
      obtain ⟨_, joined, hjoin, h⟩ := bind_ok.mp h
      obtain ⟨-, rfl⟩ := updateBlock_ok.mp hjoin
      refine ⟨_, (Array.size_modify ..).trans hsize, rfl, fun k hk other => ?_,
        by rw [Block.secondHalf, hnext]; exact h⟩
      rw [block?_withBlock]
      split
      next he =>
        rw [he, Option.map_map]
        exact congrArg (Option.map · _) (funext fun found => hk found _)
      next => rfl
  simp only [bind_ok, modify_ok, onTree_ok, pure_ok] at h
  obtain ⟨_, _, rfl, _, _, ⟨_, -, rfl⟩, rfl, rfl⟩ := h
  refine ⟨by rw [hgot], fun k hk other => ?_, fun edge => ?_⟩
  · refine (congrArg (Option.map k) block?_push).trans ?_
    rw [hjoined]
    split
    next => rfl
    next =>
      rw [hjoin k hk, hhalved, block?_withBlock]
      split
      next he => rw [hblock]; rfl
      next => rfl
  · refine (congrArg (·[edge.index]?) hedge).trans ((hmoved edge).trans ?_)
    rw [hhalved]
    rfl

/-- To ask for a neighbour that is there changes nothing, and one that is not there is refused. -/
theorem neighbour_ok {found : Option InstrId} {other : InstrId} :
    neighbour instr found graph = .ok other after ↔ found = some other ∧ after = graph := by
  unfold neighbour
  cases found with
  | none => simp [throw_ok]
  | some id => simp [pure_ok, eq_comm]

/-- To count the instructions in front of a cut changes nothing. -/
theorem headCount_ok (h : headCount chain block tailFirst instr graph = .ok count after) : after = graph := by
  simp only [headCount] at h
  split at h
  next => exact (throw_ok.mp (bind_ok.mp h).choose_spec.choose_spec.1).elim
  next =>
    split at h
    next => exact (throw_ok.mp (bind_ok.mp h).choose_spec.choose_spec.1).elim
    next => exact (pure_ok.mp h).2.symm

/-- A block is split in front of an instruction that is not its first by cutting it there. -/
theorem split_first_ok (hblock : graph.block? id = some block) (hne : instr ≠ block.first)
    (h : split chain id instr .first graph = .ok new after) :
    ∃ count headLast, cut id block count headLast instr graph = .ok new after := by
  simp only [split, bind_ok, block_ok] at h
  obtain ⟨_, m, ⟨hfound, hm⟩, h⟩ := h
  rw [hm] at h
  obtain rfl := Option.some.inj (hblock.symm.trans hfound)
  simp only [hne, if_false, bind_ok, neighbour_ok] at h
  obtain ⟨count, _, hcount, headLast, _, ⟨-, rfl⟩, hcut⟩ := h
  rw [headCount_ok hcount] at hcut
  exact ⟨count, headLast, hcut⟩

/-- A split cuts the block if it does anything. -/
theorem split_ok (h : split chain id instr mode graph = .ok new after) :
    after = graph ∨ ∃ block count headLast tailFirst made, graph.block? id = some block
      ∧ cut id block count headLast tailFirst graph = .ok made after := by
  obtain ⟨block, hblock⟩ : ∃ block, graph.block? id = some block := by
    simp only [split, bind_ok, block_ok] at h
    obtain ⟨block, _, ⟨hblock, -⟩, -⟩ := h
    exact ⟨block, hblock⟩
  cases mode with
  | first =>
    by_cases he : instr = block.first
    · simp only [split, bind_ok, block_ok, hblock] at h
      obtain ⟨_, _, ⟨hfound, rfl⟩, h⟩ := h
      rw [← Option.some.inj hfound, if_pos he] at h
      exact .inl (pure_ok.mp h).2.symm
    · obtain ⟨count, headLast, hcut⟩ := split_first_ok hblock he h
      exact .inr ⟨block, count, headLast, instr, new, hblock, hcut⟩
  | last =>
    simp only [split, bind_ok, block_ok] at h
    obtain ⟨found, m, ⟨hfound, hm⟩, h⟩ := h
    rw [hm] at h
    split at h
    next => exact .inl (pure_ok.mp h).2.symm
    next =>
      simp only [bind_ok, neighbour_ok, discard_ok, pure_ok] at h
      obtain ⟨tailFirst, _, ⟨-, rfl⟩, count, _, hcount, headLast, _, ⟨-, rfl⟩, _, _, ⟨made, hcut⟩, -, rfl⟩ := h
      rw [headCount_ok hcount] at hcut
      exact .inr ⟨found, count, headLast, tailFirst, made, hfound, hcut⟩

/-- Splits keep the lists of edges right. -/
theorem splitAt_wired : Keeps (fun s t : BlockGraph => s.Wired → t.Wired) (splitAt chain instr mode) := by
  intro graph new after h hwired
  by_cases hfound : ∃ id, graph.find chain instr = .ok (some id)
  · obtain ⟨id, hid⟩ := hfound
    rw [splitAt_found hid] at h
    rcases split_ok h with rfl | ⟨block, count, headLast, tailFirst, made, hblock, hcut⟩
    · exact hwired
    · obtain ⟨rfl, hparted⟩ := cut_parted hwired hblock hcut
      exact hparted.wired hwired hblock block?_fresh ⟨rfl, rfl⟩ ⟨rfl, rfl⟩
  · obtain ⟨cause, hrefused⟩ := splitAt_refused fun id hid => hfound ⟨id, hid⟩
    rw [hrefused] at h
    cases h

end Successful

end GraphM

end Splice
