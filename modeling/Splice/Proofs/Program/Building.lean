import Splice.Proofs.Block.Construction
import Splice.Proofs.Program.Searching

/-!
# Building the blocks of a program

While the functions are cut, a block may reach over several sections, and where addresses
wrap around such a block is found for instructions that it does not hold. No harm comes of
it: a block is cut in a wrong place only if it begins behind the last instruction of the
function at hand, and one that does lies within a section or begins behind a function that
was cut before (`lastCut_locates`). Once all functions are cut, every block lies within one
of them (`lodged_of_covered`), and so within one section, and from then on the block that is
found is the right one.

The order of the functions in the table is arbitrary, and functions may lie in any order in the
code; `Program.Covered` asks that each lies within a section and that together they have all
instructions. Without the second condition a block could be left that no function borders, and
reach from one section into the next for good.
-/

namespace Splice

/-- Each part lies within a section. -/
def Chain.Uniform (chain : Chain) (parts : List Part) : Prop :=
  ∀ part ∈ parts, ∃ sec, chain.Within sec part.run

theorem Chain.Within.subset {chain : Chain} {sec : SectionId} {run sub : List InstrId}
    (h : chain.Within sec run) (hsub : sub ⊆ run) : chain.Within sec sub :=
  fun id hid => h id (hsub hid)

/-- The functions lie in one section each, and each linked instruction lies in one of them. -/
structure Program.Covered (program : Program) : Prop where
  single : ∀ owner function, program.functions.get? owner = some function → function.last.isSome →
    ∃ sec, program.chain.Within sec (function.instructions program.chain)
  covers : ∀ id ∈ program.chain.ids, ∃ owner function, program.functions.get? owner = some function
    ∧ function.first.isSome ∧ function.last.isSome ∧ id ∈ function.instructions program.chain

/-- A program of one function, which is all of the code and lies within a section. -/
theorem Program.covered_of_whole {program : Program} {function : Function} (sec : SectionId)
    (honly : program.functions = ⟨#[function]⟩)
    (hrange : function.first.isSome ∧ function.last.isSome
      ∧ function.instructions program.chain = program.chain.ids)
    (hwithin : program.chain.Within sec program.chain.ids) : program.Covered := by
  obtain ⟨hfirst, hlast, hids⟩ := hrange
  have hget : program.functions.get? ⟨0⟩ = some function := by rw [honly]; rfl
  refine ⟨fun owner other hother _ => ⟨sec, ?_⟩, fun id hid => ⟨⟨0⟩, function, hget, hfirst, hlast, hids ▸ hid⟩⟩
  obtain ⟨index⟩ := owner
  cases index with
  | zero =>
    obtain rfl : function = other := Option.some.inj (hget.symm.trans hother)
    rwa [hids]
  | succ index =>
    rw [honly] at hother
    cases hother

/-- Each part lies within a function. -/
def Program.Lodged (program : Program) (parts : List Part) : Prop :=
  ∀ part ∈ parts, ∃ owner function, program.functions.get? owner = some function ∧ function.first.isSome
    ∧ function.last.isSome ∧ part.run ⊆ function.instructions program.chain

/-- A part cut out of one that lies within a function lies within that function. -/
theorem Program.Lodged.pieces {program : Program} {parts after : List Part} (h : program.Lodged parts)
    (hpieces : ∀ part ∈ after, ∃ old ∈ parts, part.run ⊆ old.run) : program.Lodged after := by
  intro part hpart
  obtain ⟨old, hold, hsub⟩ := hpieces part hpart
  obtain ⟨owner, function, hfunction, hfirst, hlast, hin⟩ := h old hold
  exact ⟨owner, function, hfunction, hfirst, hlast, List.Subset.trans hsub hin⟩

/-- Where functions lie within a section each, so do parts that lie within a function each. -/
theorem Program.Lodged.uniform {program : Program} {parts : List Part} (h : program.Lodged parts)
    (hcovered : program.Covered) : program.chain.Uniform parts := by
  intro part hpart
  obtain ⟨owner, function, hfunction, -, hlast, hin⟩ := h part hpart
  obtain ⟨sec, hsec⟩ := hcovered.single owner function hfunction hlast
  exact ⟨sec, hsec.subset hin⟩

/-- A function in the middle of the table is found under its number, and each of those before it under
another. -/
theorem FunctionTable.get?_of_split {table : FunctionTable} {done rest : List Function}
    {function : Function} (h : table.functions.toList = done ++ function :: rest) :
    table.get? ⟨done.length⟩ = some function
      ∧ ∀ other ∈ done, ∃ owner, owner ≠ ⟨done.length⟩ ∧ table.get? owner = some other := by
  have hget : ∀ index, table.get? ⟨index⟩ = (done ++ function :: rest)[index]? := fun index => by
    rw [get?, ← Array.getElem?_toList, h]
  refine ⟨by rw [hget]; simp, fun other hother => ?_⟩
  obtain ⟨index, hlt, hindex⟩ := List.getElem_of_mem hother
  refine ⟨⟨index⟩, fun he => ?_, ?_⟩
  · rw [Handle.mk.injEq] at he
    omega
  · rw [hget, List.getElem?_append_left hlt, List.getElem?_eq_getElem hlt, hindex]

namespace Program

variable {program : Program} {l : List InstrId} {sections : List SectionId} {graph : BlockGraph}
  {parts : List Part} {done rest : List Function} {function : Function} {owner : FuncId}
  {first last : InstrId}

/-- Blocks within one section each are found for what they hold. -/
theorem Addressed.finds (h : program.Addressed (Part.code parts)) (hcuts : graph.Cuts parts)
    (huniform : program.chain.Uniform parts) : graph.Finds program.chain parts := by
  intro part hpart instr hfind
  obtain ⟨sec, hsec⟩ := huniform part hpart
  exact h.of_find hcuts hpart hsec hfind

/-- A function that passes its check is a piece of the code, all of which it owns. -/
theorem run_of_verified (hl : program.chain.Spells l) (hattached : program.chain.Attached l)
    (hverified : program.verifyFunctions = .ok ()) (hfunction : program.functions.get? owner = some function)
    (hfirst : function.first = some first) (hlast : function.last = some last) :
    (∃ us run vs, l = us ++ run ++ vs ∧ run.head? = some first ∧ run.getLast? = some last
        ∧ function.instructions program.chain = run)
      ∧ ∀ x ∈ function.instructions program.chain, ∃ instr, program.chain.get? x = some instr
        ∧ instr.func = some owner := by
  have hcheck := verifyFunctions_ok.mp hverified owner function hfunction
  obtain ⟨howned, hreached, ⟨instr, hinstr, -⟩, -⟩ := verifyFunction_ok.mp hcheck first last hfirst hlast
  refine ⟨?_, howned⟩
  have hmem := hattached first (by rw [Chain.contains_eq_isSome_get?, hinstr]; rfl)
  obtain ⟨us, rest, rfl⟩ := List.append_of_mem hmem
  rw [Function.instructions, hfirst, hlast] at hreached ⊢
  obtain ⟨run, vs, hcut, hend, hrun⟩ := hl.run_split hreached
  refine ⟨us, run, vs, by rw [hcut, List.append_assoc], ?_, hend, hrun⟩
  cases run with
  | nil => cases hend
  | cons head run => rw [(List.cons.inj hcut).1]; rfl

/-- What comes behind a run in the code is what comes behind its last instruction. -/
theorem next?_of_run {chain : Chain} {us run vs : List InstrId} (hl : chain.Spells (us ++ run ++ vs))
    (hlast : run.getLast? = some last) : chain.next? last = vs.head? := by
  obtain ⟨front, rfl⟩ := List.getLast?_eq_some_iff.mp hlast
  have hat : chain.Spells ((us ++ front) ++ last :: vs) := by simpa using hl
  exact hat.next?_eq

/-- A part that begins in a run ends in it, if another one begins behind the run. -/
theorem part_subset {chain : Chain} {us run vs : List InstrId} {part : Part} {x : InstrId}
    (hl : chain.Spells l) (hcode : Part.code parts = l) (hpart : part ∈ parts)
    (hhead : part.run.head? = some x) (hsplit : l = us ++ run ++ vs) (hx : x ∈ run)
    (hlast : run.getLast? = some last)
    (hnext : ∀ y, chain.next? last = some y → y ∈ Part.starts parts) : part.run ⊆ run := by
  obtain ⟨front, behind, rfl⟩ := List.append_of_mem hx
  rw [next?_of_run (hsplit ▸ hl) hlast] at hnext
  have hcut : Part.code parts = (us ++ front) ++ (x :: behind) ++ vs := by
    rw [hcode, hsplit]
    simp
  have hsub : part.run ⊆ x :: behind :=
    Part.run_subset (by rw [hcode]; exact hl.nodup) hpart hhead hcut hnext
  exact List.Subset.trans hsub (List.subset_append_right ..)

theorem mem_borders {chain : Chain} (hfirst : function.first = some first)
    (hlast : function.last = some last) {x : InstrId} :
    x ∈ function.borders chain ↔ x = first ∨ chain.next? last = some x := by
  simp [Function.borders, hfirst, hlast]

/-- The cut behind the last instruction of a function is made in its block, or not at all. -/
theorem lastCut_locates (h : program.Addressed l) (hverified : program.verifyFunctions = .ok ())
    (hcovered : program.Covered) (hsplit : program.functions.functions.toList = done ++ function :: rest)
    (hfirst : function.first = some first) (hlast : function.last = some last)
    (hmarked : graph.Marked l sections (fun x => Begins program.chain l done [] x ∨ x = first) parts) :
    Locates True program.chain graph parts last .last := by
  refine .inr ⟨trivial, fun part hpart hfind => ?_⟩
  obtain ⟨hfunction, hothers⟩ := FunctionTable.get?_of_split hsplit
  obtain ⟨⟨us, run, vs, hrun, hhead, hend, hinstrs⟩, howned⟩ :=
    run_of_verified h.spells h.attached hverified hfunction hfirst hlast
  by_cases hmem : last ∈ part.run
  · exact .inl hmem
  refine .inr fun _ hnext => hmem ?_
  -- it is enough that the block lies within one section
  suffices hsection : ∃ sec, program.chain.Within sec part.run by
    obtain ⟨sec, hsec⟩ := hsection
    exact Addressed.of_find (hmarked.code.symm ▸ h) hmarked.cuts hpart hsec hfind
  obtain ⟨y, behind, hy⟩ := List.exists_cons_of_ne_nil (hmarked.cuts.run_ne_nil hpart)
  rw [hy, List.head?_cons, next?_of_run (hrun ▸ h.spells) hend] at hnext
  obtain ⟨vs, rfl⟩ := List.head?_eq_some_iff.mp hnext
  have hstart : y ∈ Part.starts parts := Part.mem_starts.mpr ⟨part, hpart, by rw [hy]; rfl⟩
  have hnot : y ∉ (us ++ run) ++ vs := (hrun ▸ h.spells).not_mem_rest
  rcases (hmarked.starts y).mp hstart with (hbegin | ⟨other, hother, hborder⟩ | ⟨_, hnone, _⟩) | rfl
  · -- the head of the code stands behind nothing
    have hin : y ∈ us ++ run := by
      have hsome : (us ++ run).head?.isSome := by
        rw [List.head?_append, Option.isSome_or, hhead]
        simp
      rw [hrun, List.head?_append, Option.or_of_isSome hsome] at hbegin
      exact List.mem_of_head? hbegin
    exact absurd (List.mem_append_left _ hin) hnot
  · obtain ⟨owner', hne, hfunction'⟩ := hothers other hother
    cases hfirst' : other.first with
    | none => simp [Function.borders, hfirst'] at hborder
    | some first' =>
      cases hlast' : other.last with
      | none => simp [Function.borders, hfirst', hlast'] at hborder
      | some last' =>
        obtain ⟨⟨us', run', vs', hrun', hhead', hend', hinstrs'⟩, howned'⟩ :=
          run_of_verified h.spells h.attached hverified hfunction' hfirst' hlast'
        rcases (mem_borders hfirst' hlast').mp hborder with rfl | hnext'
        · -- a function that was cut before, and the block does not reach over its end
          obtain ⟨sec, hsec⟩ := hcovered.single owner' other hfunction' (by rw [hlast']; rfl)
          refine ⟨sec, hsec.subset ?_⟩
          rw [hinstrs']
          refine part_subset h.spells hmarked.code hpart (by rw [hy]; rfl) hrun' (List.mem_of_head? hhead')
            hend' fun z hz => (hmarked.starts z).mpr (.inl (.inr (.inl ⟨other, hother, ?_⟩)))
          exact (mem_borders hfirst' hlast').mpr (.inr hz)
        · -- two functions do not end in the same instruction
          obtain ⟨as, bs, hsplit'⟩ := h.spells.split_of_next? hnext'
          have hprev : program.chain.prev? y = some last := by
            have hat : program.chain.Spells ((us ++ run) ++ y :: vs) := hrun ▸ h.spells
            rw [hat.prev?_eq, List.getLast?_append, hend]
            rfl
          have hprev' : program.chain.prev? y = some last' := by
            have hat : program.chain.Spells ((as ++ [last']) ++ y :: bs) := by
              rw [hsplit'] at h
              simpa using h.spells
            rw [hat.prev?_eq, List.getLast?_concat]
          obtain rfl : last = last' := Option.some.inj (hprev.symm.trans hprev')
          obtain ⟨instr, hinstr, hfunc⟩ := howned last (hinstrs ▸ List.mem_of_getLast? hend)
          obtain ⟨instr', hinstr', hfunc'⟩ := howned' last (hinstrs' ▸ List.mem_of_getLast? hend')
          rw [hinstr, Option.some.injEq] at hinstr'
          rw [← hinstr', hfunc] at hfunc'
          exact absurd (Option.some.inj hfunc').symm hne
  · cases hnone
  · exact absurd (List.mem_append_left _ (List.mem_append_right _ (List.mem_of_head? hhead))) hnot

/-- Once all functions are cut, every block lies within one of them. -/
theorem lodged_of_covered (h : program.Addressed l) (hverified : program.verifyFunctions = .ok ())
    (hcovered : program.Covered)
    (hmarked : graph.Marked l sections (Begins program.chain l program.functions.functions.toList []) parts) :
    program.Lodged parts := by
  intro part hpart
  obtain ⟨x, behind, hx⟩ := List.exists_cons_of_ne_nil (hmarked.cuts.run_ne_nil hpart)
  have hmem : x ∈ l := by
    rw [← hmarked.code]
    exact Part.mem_code.mpr ⟨part, hpart, by rw [hx]; exact List.mem_cons_self ..⟩
  obtain ⟨owner, function, hfunction, hbegins, hends, hin⟩ := hcovered.covers x (h.spells.ids_eq.symm ▸ hmem)
  obtain ⟨first, hfirst⟩ := Option.isSome_iff_exists.mp hbegins
  obtain ⟨last, hlast⟩ := Option.isSome_iff_exists.mp hends
  obtain ⟨⟨us, run, vs, hrun, hhead, hend, hinstrs⟩, -⟩ :=
    run_of_verified h.spells h.attached hverified hfunction hfirst hlast
  refine ⟨owner, function, hfunction, hbegins, hends, ?_⟩
  rw [hinstrs] at hin ⊢
  refine part_subset h.spells hmarked.code hpart (by rw [hx]; rfl) hrun hin hend fun z hz =>
    (hmarked.starts z).mpr (.inr (.inl ⟨function, ?_, (mem_borders hfirst hlast).mpr (.inr hz)⟩))
  rw [FunctionTable.get?, ← Array.getElem?_toList] at hfunction
  exact List.mem_of_getElem? hfunction

/-- The blocks of a graph that was built cut the code within its functions, its edges are listed where they
belong, and its sections are in the order of the code. -/
theorem build_cuts (h : program.Addressed l) (hverified : program.verifyFunctions = .ok ())
    (hcovered : program.Covered) (hbuild : BlockGraph.build program.chain program.functions = .ok graph) :
    ∃ parts, graph.Cuts parts ∧ graph.Wired ∧ Part.code parts = l ∧ program.Lodged parts
      ∧ graph.sections = BlockGraph.sectionOrder (l.filterMap program.chain.get?) := by
  rcases BlockGraph.build_ok h.spells hbuild with ⟨rfl, rfl⟩
    | ⟨head, tail, instrs, u, hhead, htail, hinstrs, hrun⟩
  · exact ⟨[], GraphM.cuts_empty, GraphM.wired_empty, rfl, fun part hpart => (List.not_mem_nil hpart).elim, rfl⟩
  have hids : ∀ entry ∈ instrs, entry.1 ∈ l := fun entry hentry =>
    h.spells.ids_eq ▸ ((BlockGraph.mappedInstructions_ok hinstrs).1 entry hentry).1
  simp only [GraphM.construct, bind_ok, discard_ok] at hrun
  obtain ⟨_, g₁, hfunctions, _, g₂, htransfers, _, g₃, hstamp, _, g₄, hlink, _, hloops⟩ := hrun
  obtain ⟨parts₁, h₁⟩ := (GraphM.splitFunctions_yields h.spells
    ⟨_, GraphM.whole_marked h.spells hhead htail⟩
    (fun done function rest first last graph parts _ _ _ hmarked =>
      .inr ⟨trivial, fun part hpart hfind => .inr fun hmode => by cases hmode⟩)
    (fun done function rest first last graph parts hsplit hfirst hlast hmarked =>
      lastCut_locates h hverified hcovered hsplit hfirst hlast hmarked)).ok hfunctions
  obtain ⟨parts, h₂, hlodged⟩ := (GraphM.splitTransfers_yields program.Lodged h.spells
    (fun parts parts' hpieces hlodged => hlodged.pieces hpieces)
    (fun marks graph parts instr mode hmarked hlodged hinstr =>
      .inr ⟨trivial, fun part hpart hfind => .inl (Addressed.finds (hmarked.code.symm ▸ h) hmarked.cuts
        (hlodged.uniform hcovered) part hpart instr hfind)⟩)
    hids (fun _ _ _ _ => .inl trivial)
    ⟨parts₁, h₁, lodged_of_covered h hverified hcovered h₁⟩).ok htransfers
  have hrewired : BlockGraph.Rewired g₂ graph :=
    BlockGraph.Rewired.stepRelation.trans (GraphM.stampFunctions_leaves.keeps hstamp)
      (BlockGraph.Rewired.stepRelation.trans (GraphM.linkEdges_leaves.keeps hlink)
        (GraphM.discoverLoops_leaves.keeps hloops))
  obtain ⟨hcut, hwired⟩ := hrewired h₂.wired
  refine ⟨parts, h₂.cuts.congr hcut, hwired, h₂.code, hlodged, ?_⟩
  rw [hcut.sections, h₂.sections, BlockGraph.map_mappedInstructions hinstrs, h.spells.ids_eq]

end Program

end Splice
