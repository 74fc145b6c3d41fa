import Splice.Program.Edit
import Splice.Proofs.Block.Division

/-!
# Entering a block behind its first instruction

When an instruction that jumpers are to pass by is put in front of a block, the block is cut
behind it: the block keeps its name for the new instruction, control passes straight on to the
second half, and the transfers that led to the block lead to the second half
(`splitEntry_run`). No edge is lost on the way, and none changes its kind.

Two levels are kept apart. `splitEntry_run` says what the blocks and edges become, for a graph
that cuts the code. `splitEntry_ok` says what becomes of tags and of the ends of edges alone,
and asks no more of the graph than that its lists of edges are right; tags are followed through
edits with it, also on graphs that fit no code.
-/

namespace Splice

/-- The edge into `new`, if it is a transfer into the block `id`. -/
def Edge.entering (id new : BlockId) (edge : Edge) : Edge :=
  if edge.target = id ∧ edge.kind.isTransfer then { edge with target := new } else edge

section Entering

variable {id new : BlockId} {edge : Edge}

@[simp] theorem Edge.entering_source : (edge.entering id new).source = edge.source := by
  unfold entering
  split <;> rfl

@[simp] theorem Edge.entering_direction : (edge.entering id new).direction = edge.direction := by
  unfold entering
  split <;> rfl

theorem Edge.entering_target : (edge.entering id new).target
    = if edge.target = id ∧ edge.kind.isTransfer then new else edge.target := by
  unfold entering
  split <;> rfl

end Entering

namespace BlockGraph

variable {graph : BlockGraph} {id : BlockId}

/-- A loop is closed at the block by a transfer, or by an edge of another kind. -/
def closedBy (graph : BlockGraph) (id : BlockId) (transfer : Bool) : Bool :=
  graph.edges.any fun edge =>
    edge.target == id && edge.direction == .back && edge.kind.isTransfer == transfer

/-- What `closedBy` computes is that some edge that leads back to the block is or is not a transfer. -/
theorem closedBy_iff {transfer : Bool} : graph.closedBy id transfer = true
    ↔ ∃ edge found, graph.edge? edge = some found ∧ found.target = id ∧ found.direction = .back
      ∧ found.kind.isTransfer = transfer := by
  rw [closedBy, Array.any_eq_true']
  constructor
  · rintro ⟨found, hmem, h⟩
    obtain ⟨index, hlt, rfl⟩ := Array.mem_iff_getElem.mp hmem
    rw [Bool.and_eq_true, Bool.and_eq_true, beq_iff_eq, beq_iff_eq, beq_iff_eq] at h
    exact ⟨⟨index⟩, _, Array.getElem?_eq_getElem hlt, h.1.1, h.1.2, h.2⟩
  · rintro ⟨edge, found, hfound, htarget, hback, htransfer⟩
    refine ⟨found, Array.mem_of_getElem? hfound, ?_⟩
    rw [htarget, hback, htransfer]
    simp

end BlockGraph

namespace GraphM

open BlockGraph EngineM

variable {graph after : BlockGraph} {chain : Chain} {ps qs : List Part} {id tail : BlockId}
  {front back : List InstrId} {anchor : InstrId} {edges : List EdgeId} {block : Block} {u : Unit}

/-- Edges that are led to a block one by one all lead there. -/
theorem retargetEdges_run (hwired : graph.Wired) (htail : (graph.block? tail).isSome)
    (hedges : ∀ edge ∈ edges, (graph.edge? edge).isSome) :
    ∃ closing after, (edges.mapM fun id => do
        let direction := (← GraphM.edge id).direction
        retargetEdge id tail
        return direction == Direction.back) graph = .ok closing after
      ∧ closing = edges.map (fun edge => (graph.edge? edge).any (·.direction == .back))
      ∧ graph.SameCut after ∧ after.Wired
      ∧ ∀ edge, after.edge? edge = if edge ∈ edges
        then (graph.edge? edge).map fun edge => { edge with target := tail } else graph.edge? edge := by
  induction edges generalizing graph with
  | nil => exact ⟨[], graph, rfl, rfl, SameCut.stepRelation.refl graph, hwired, fun edge => by simp⟩
  | cons first edges ih =>
    obtain ⟨found, hfound⟩ := Option.isSome_iff_exists.mp (hedges first (List.mem_cons_self ..))
    obtain ⟨m, hrun, hcut, hwired', hedge⟩ := Wired.retargetEdge hwired hfound htail
    have hpresent : ∀ edge ∈ edges, (m.edge? edge).isSome := fun edge hmem => by
      rw [hedge]
      split
      next => rfl
      next => exact hedges edge (List.mem_cons_of_mem _ hmem)
    obtain ⟨closing, after, hruns, hclosing, hcut', hwired'', hafter⟩ :=
      ih hwired' (by rw [hcut.isSome]; exact htail) hpresent
    refine ⟨(found.direction == Direction.back) :: closing, after, ?_, ?_,
      SameCut.stepRelation.trans hcut hcut', hwired'', fun edge => ?_⟩
    · refine mapM_cons_ok.mpr ⟨_, m, closing, ?_, hruns, rfl⟩
      refine (bind_run (edge_ok.mpr ⟨hfound, rfl⟩)).trans ?_
      exact (bind_run (a := ⟨⟩) hrun).trans rfl
    · -- to be led elsewhere changes no direction
      rw [hclosing, List.map_cons, hfound]
      refine congrArg (_ :: ·) (List.map_congr_left fun edge _ => ?_)
      rw [hedge]
      split
      next he => rw [he, hfound]; rfl
      next => rfl
    · have hkept := hafter edge
      rw [hedge] at hkept
      by_cases he : edge = first
      · subst he
        simpa [hfound] using hkept
      · simpa [he] using hkept

/-- The edges that are led elsewhere are the transfers into the block. -/
theorem mem_transfers {block : Block} (hwired : graph.Wired) (hblock : graph.block? id = some block)
    {edge : EdgeId} : edge ∈ block.inEdges.filter (fun id => (graph.edge? id).any (·.kind.isTransfer))
      ↔ ∃ found, graph.edge? edge = some found ∧ found.target = id ∧ found.kind.isTransfer = true := by
  have hlisted : edge ∈ block.inEdges ↔ graph.targetOf edge = some id := by
    have hcount := hwired.into id edge
    rw [intoOf, hblock, Option.map_some, Option.getD_some] at hcount
    rw [← List.count_pos_iff, hcount]
    split <;> simp [*]
  rw [List.mem_filter, hlisted, targetOf, Option.map_eq_some_iff]
  grind

/-- To lead the transfers into a block elsewhere leaves all other edges alone. -/
theorem retargetEdges_entering (hwired : graph.Wired) (hblock : graph.block? id = some block)
    (htail : (graph.block? tail).isSome)
    (hedges : edges = block.inEdges.filter fun id => (graph.edge? id).any (·.kind.isTransfer)) :
    ∃ closing after, (edges.mapM fun id => do
        let direction := (← GraphM.edge id).direction
        retargetEdge id tail
        return direction == Direction.back) graph = .ok closing after
      ∧ closing.contains true = graph.closedBy id true
      ∧ graph.SameCut after ∧ after.Wired ∧ after.kind? = graph.kind?
      ∧ ∀ edge, after.edge? edge = (graph.edge? edge).map (.entering id tail) := by
  have hmem : ∀ edge, edge ∈ edges
      ↔ ∃ found, graph.edge? edge = some found ∧ found.target = id ∧ found.kind.isTransfer = true := fun edge =>
    hedges ▸ mem_transfers hwired hblock
  obtain ⟨closing, after, hrun, hclosing, hcut, hwired', hedge⟩ := retargetEdges_run hwired htail fun edge he => by
    obtain ⟨found, hfound, -⟩ := (hmem edge).mp he
    rw [hfound]
    rfl
  refine ⟨closing, after, hrun, ?_, hcut, hwired', ?_, fun edge => ?_⟩
  · rw [Bool.eq_iff_iff, closedBy_iff, hclosing, List.contains_iff_mem, List.mem_map]
    constructor
    · rintro ⟨edge, he, hback⟩
      obtain ⟨found, hfound, htarget, htransfer⟩ := (hmem edge).mp he
      rw [hfound] at hback
      exact ⟨edge, found, hfound, htarget, eq_of_beq hback, htransfer⟩
    · rintro ⟨edge, found, hfound, htarget, hback, htransfer⟩
      exact ⟨edge, (hmem edge).mpr ⟨found, hfound, htarget, htransfer⟩, by rw [hfound]; exact beq_iff_eq.mpr hback⟩
  · have hr : StepRelation fun s t : BlockGraph => t.kind? = s.kind? := ⟨fun _ => rfl, fun h k => k.trans h⟩
    refine Keeps.mapM hr (fun edge _ => ?_) hrun
    refine Keeps.bind hr (Keeps.of_state_eq hr fun h => (edge_ok.mp h).2) fun _ => ?_
    exact Keeps.bind hr retargetEdge_kind? fun _ => Keeps.pure hr _
  · rw [hedge]
    cases hfound : graph.edge? edge with
    | none => rw [Option.map_none, Option.map_none, ite_self]
    | some found =>
      unfold Edge.entering
      by_cases henters : found.target = id ∧ found.kind.isTransfer = true
      · rw [if_pos ((hmem edge).mpr ⟨found, hfound, henters⟩), Option.map_some, Option.map_some, if_pos henters]
      · rw [if_neg, Option.map_some, if_neg henters]
        intro he
        obtain ⟨other, hother, hboth⟩ := (hmem edge).mp he
        rw [hfound, Option.some.injEq] at hother
        exact henters (hother ▸ hboth)

/-- What comes of the tags and edges where a block `id` is cut behind its first instruction, for jumpers
to enter the second half `tail`. -/
structure Entered (graph after : BlockGraph) (id tail : BlockId) : Prop where
  wired : after.Wired
  edge? : ∀ edge, after.edge? edge = if edge = ⟨graph.edges.size⟩ then some ⟨id, tail, .fallthrough, .next⟩
    else (graph.edge? edge).map fun found => (found.leaving id tail).entering id tail
  kind? : ∀ other, after.kind? other
    = if other = tail then (graph.kind? id).map fun kind => ⟨graph.closedBy id true, kind.isFooter⟩
      else if other = id then
        (graph.kind? id).map fun kind => ⟨kind.isHeader && !graph.closedBy id true, false⟩
      else graph.kind? other

/-- An edge on from the block closes no loop at it, whatever leaves the second half. -/
theorem closedBy_joined (hedge : ∀ edge, after.edge? edge
      = if edge = ⟨graph.edges.size⟩ then some ⟨id, tail, .fallthrough, .next⟩
        else (graph.edge? edge).map (·.leaving id tail)) :
    after.closedBy id true = graph.closedBy id true := by
  rw [Bool.eq_iff_iff, closedBy_iff, closedBy_iff]
  constructor
  · rintro ⟨edge, other, hother, htarget, hback, htransfer⟩
    rw [hedge] at hother
    split at hother
    next =>
      obtain rfl := Option.some.inj hother
      cases hback
    next =>
      obtain ⟨old, hold, rfl⟩ := Option.map_eq_some_iff.mp hother
      exact ⟨edge, old, hold, htarget, hback, htransfer⟩
  · rintro ⟨edge, old, hold, htarget, hback, htransfer⟩
    have hne : edge ≠ ⟨graph.edges.size⟩ := by
      rintro rfl
      rw [edge?_fresh] at hold
      cases hold
    exact ⟨edge, old.leaving id tail, by rw [hedge, if_neg hne, hold, Option.map_some], htarget, hback, htransfer⟩

/-- A loop that was closed at the block is closed at the second half. -/
theorem tagEntry_ok {closes : Bool} (hwired : graph.Wired) (hapart : id ≠ tail)
    (h : (if closes then do
        updateBlock id fun block => { block with kind := ⟨false, block.kind.isFooter⟩ }
        updateBlock tail fun block => { block with kind := block.kind.withHeader }
      else pure () : GraphM Unit) graph = .ok u after) :
    after.Wired ∧ (∀ edge, after.edge? edge = graph.edge? edge) ∧ ∀ other, after.kind? other
      = if other = tail then (graph.kind? tail).map fun kind => if closes then kind.withHeader else kind
        else if other = id then
          (graph.kind? id).map fun kind => if closes then ⟨false, kind.isFooter⟩ else kind
        else graph.kind? other := by
  cases closes with
  | false =>
    rw [if_neg Bool.false_ne_true] at h
    obtain ⟨-, rfl⟩ := pure_ok.mp h
    refine ⟨hwired, fun edge => rfl, fun other => ?_⟩
    split
    next he => rw [he]; simp
    next => split <;> simp [*]
  | true =>
    rw [if_pos rfl] at h
    simp only [bind_ok, updateBlock_ok] at h
    obtain ⟨_, m, ⟨-, hm⟩, -, hafter⟩ := h
    have hm' : m.Wired := hm ▸ hwired.congr (withBlock_sameWires fun _ => ⟨rfl, rfl⟩)
    refine ⟨hafter ▸ hm'.congr (withBlock_sameWires fun _ => ⟨rfl, rfl⟩), fun edge => ?_, fun other => ?_⟩
    · rw [hafter, hm]
      rfl
    · rw [hafter, kind?_withBlock (k := BlockKind.withHeader) fun _ => rfl, hm,
        kind?_withBlock (k := fun kind => ⟨false, kind.isFooter⟩) fun _ => rfl,
        kind?_withBlock (k := fun kind => ⟨false, kind.isFooter⟩) fun _ => rfl, if_neg hapart.symm]
      simp only [if_true]

/-- No more is asked of the graph than that its lists of edges are right. -/
theorem splitEntry_ok (hwired : graph.Wired) (hblock : graph.block? id = some block) (hne : anchor ≠ block.first)
    (h : EngineM.splitEntry chain id anchor graph = .ok u after) : Entered graph after id ⟨graph.blocks.size⟩ := by
  simp only [EngineM.splitEntry, bind_ok, discard_ok, get_ok, block_ok] at h
  obtain ⟨tail, g₁, hsplit, _, g₂, ⟨_, hadd⟩, _, _, ⟨rfl, rfl⟩, found, _, ⟨hfound, rfl⟩, closing, g₃, hlead, htag⟩ := h
  obtain ⟨count, headLast, hcut⟩ := split_first_ok hblock hne hsplit
  obtain ⟨htail, hparted⟩ := cut_parted hwired hblock hcut
  rw [← htail]
  have hfresh : graph.block? tail = none := htail ▸ block?_fresh
  have hapart : id ≠ tail := by
    rintro rfl
    rw [hblock] at hfresh
    cases hfresh
  have hkind₁ : ∀ other, g₁.kind? other = if other = tail then some ⟨false, block.kind.isFooter⟩
      else if other = id then some ⟨block.kind.isHeader, false⟩ else graph.kind? other :=
    hparted.map_block? (·.kind) fun _ _ => rfl
  have hedge₁ := hparted.leaving hwired hblock
  have hid₁ : (g₁.block? id).isSome := by
    rw [← isSome_kind?, hkind₁, if_neg hapart, if_pos rfl]
    rfl
  have htail₁ : (g₁.block? tail).isSome := by
    rw [← isSome_kind?, hkind₁, if_pos rfl]
    rfl
  obtain ⟨m₂, hadd', hcut₂, hwired₂, hedge₂⟩ := Wired.addEdge
    (hparted.wired hwired hblock hfresh ⟨rfl, rfl⟩ ⟨rfl, rfl⟩) .fallthrough hid₁ htail₁
  rw [hadd', EStateM.Result.ok.injEq] at hadd
  obtain ⟨-, rfl⟩ := hadd
  have hkind₂ : m₂.kind? = g₁.kind? := addEdge_kind? hadd'
  have hsize : g₁.edges.size = graph.edges.size := edges_size_eq fun edge => by rw [hedge₁, Option.isSome_map]
  rw [hsize] at hedge₂
  have htail₂ : (m₂.block? tail).isSome := by
    rw [← isSome_kind?, hkind₂, isSome_kind?]
    exact htail₁
  obtain ⟨_, m₃, hlead', hclosing, -, hwired₃, hkind₃, hedge₃⟩ := retargetEdges_entering hwired₂ hfound htail₂ rfl
  rw [hlead', EStateM.Result.ok.injEq] at hlead
  obtain ⟨rfl, rfl⟩ := hlead
  have hclosed : m₂.closedBy id true = graph.closedBy id true :=
    closedBy_joined fun edge => by rw [hedge₂, hedge₁]
  have hkind : graph.kind? id = some block.kind := by rw [kind?, hblock, Option.map_some]
  rw [hclosing, hclosed] at htag
  obtain ⟨hwired₄, hedge₄, hkind₄⟩ := tagEntry_ok hwired₃ hapart htag
  refine ⟨hwired₄, fun edge => ?_, fun other => ?_⟩
  · rw [hedge₄, hedge₃, hedge₂]
    split
    next => rw [Option.map_some, Edge.entering, if_neg fun h => hapart h.1.symm]
    next => rw [hedge₁, Option.map_map]; rfl
  · simp only [hkind₄, hkind₃, hkind₂, hkind₁, hkind, hapart, Ne.symm hapart, if_true, if_false, Option.map_some]
    split
    next => cases graph.closedBy id true <;> rfl
    next => cases graph.closedBy id true <;> split <;> simp [*]

/-- Tagging other blocks as headers or footers leaves the parts alone. -/
theorem tagged_run {other : BlockId} (closes : Bool) (kind kind' : Block → BlockKind)
    (hcuts : graph.Cuts ps) (hid : (graph.block? id).isSome) (hother : (graph.block? other).isSome) :
    ∃ after, (if closes then do
        updateBlock id fun block => { block with kind := kind block }
        updateBlock other fun block => { block with kind := kind' block }
      else pure () : GraphM Unit) graph = .ok () after
      ∧ after.Cuts ps ∧ after.sections = graph.sections := by
  cases closes with
  | false => exact ⟨graph, rfl, hcuts, rfl⟩
  | true =>
    obtain ⟨m, hm⟩ : ∃ m, m = graph.withBlock id fun block => { block with kind := kind block } :=
      ⟨_, rfl⟩
    obtain ⟨after, hafter⟩ : ∃ after, after
      = m.withBlock other fun block => { block with kind := kind' block } := ⟨_, rfl⟩
    refine ⟨after, ?_, ?_, by rw [hafter, hm]; rfl⟩
    · refine (bind_run (updateBlock_ok (u := ⟨⟩) |>.mpr ⟨hid, hm⟩)).trans ?_
      exact updateBlock_ok.mpr ⟨by rwa [hm, isSome_withBlock], hafter⟩
    · have hcuts' : m.Cuts ps := hm ▸ hcuts.congr (withBlock_sameCut fun _ => rfl)
      exact hafter ▸ hcuts'.congr (withBlock_sameCut fun _ => rfl)

/-- A block is cut in front of `anchor`; what left the block leaves the second half, and transfers
into the block enter the second half. -/
theorem splitEntry_run (front : List InstrId)
    (hl : chain.Spells (Part.code (ps ++ ⟨id, front ++ anchor :: back⟩ :: qs)))
    (hcuts : graph.Cuts (ps ++ ⟨id, front ++ anchor :: back⟩ :: qs)) (hwired : graph.Wired)
    (hfront : front ≠ []) (htail : tail = ⟨graph.blocks.size⟩) :
    ∃ after, splitEntry chain id anchor graph = .ok () after
      ∧ after.Cuts (ps ++ ⟨id, front⟩ :: ⟨tail, anchor :: back⟩ :: qs) ∧ after.Wired
      ∧ after.sections = graph.sections ∧ ∀ edge found, graph.edge? edge = some found →
        after.edge? edge = some ((found.leaving id tail).entering id tail) := by
  obtain ⟨g₁, hsplit, hsevered⟩ := split_first_run hl hcuts hwired hfront
  rw [← htail] at hsplit hsevered
  have hid₁ : (g₁.block? id).isSome := hsevered.cuts.isSome (List.mem_append_right _ (List.mem_cons_self ..))
  have htail₁ : (g₁.block? tail).isSome :=
    hsevered.cuts.isSome (List.mem_append_right _ (List.mem_cons_of_mem _ (List.mem_cons_self ..)))
  obtain ⟨g₂, hadd, hcut₂, hwired₂, hedge₂⟩ := Wired.addEdge hsevered.wired .fallthrough hid₁ htail₁
  obtain ⟨block, hblock⟩ := Option.isSome_iff_exists.mp ((hcut₂.isSome id).trans hid₁)
  have htail₂ : (g₂.block? tail).isSome := (hcut₂.isSome tail).trans htail₁
  obtain ⟨closing, g₃, hlead, -, hcut₃, hwired₃, -, -⟩ := retargetEdges_entering hwired₂ hblock htail₂ rfl
  have hsome : ∀ other, (g₃.block? other).isSome = (g₁.block? other).isSome := fun other =>
    (hcut₃.isSome other).trans (hcut₂.isSome other)
  obtain ⟨after, htag, hcuts', hsections⟩ := tagged_run (closing.contains true)
    (fun block => ⟨false, block.kind.isFooter⟩) (fun block => block.kind.withHeader)
    ((hsevered.cuts.congr hcut₂).congr hcut₃) (by rw [hsome]; exact hid₁) (by rw [hsome]; exact htail₁)
  have hrun : splitEntry chain id anchor graph = .ok () after := by
    refine (bind_run hsplit).trans ((bind_run (a := ⟨⟩) (discard_ok.mpr ⟨_, hadd⟩)).trans ?_)
    refine (bind_run (get_ok.mpr ⟨rfl, rfl⟩)).trans ((bind_run (block_ok.mpr ⟨hblock, rfl⟩)).trans ?_)
    exact (bind_run hlead).trans htag
  -- the run of the block begins with another instruction than the anchor
  obtain ⟨first, rest, rfl⟩ := List.exists_cons_of_ne_nil hfront
  obtain ⟨old, hold, hfits⟩ := hcuts.bounds
  have hfirst : first = old.first := Option.some.inj hfits.first
  have hnodup : (first :: rest ++ anchor :: back).Nodup := by
    have hcode := hl.nodup
    rw [code_around] at hcode
    exact (List.nodup_append.mp (List.nodup_append.mp hcode).2.1).1
  have hne : anchor ≠ old.first := by
    rintro rfl
    rw [← hfirst, List.cons_append, List.nodup_cons] at hnodup
    exact hnodup.1 (List.mem_append_right _ (List.mem_cons_self ..))
  have hentered := splitEntry_ok hwired hold hne hrun
  refine ⟨after, hrun, hcuts', hentered.wired, ?_, fun edge found hfound => ?_⟩
  · rw [hsections, hcut₃.sections, hcut₂.sections, hsevered.sections]
  · have hnew : edge ≠ ⟨graph.edges.size⟩ := by
      rintro rfl
      rw [edge?_fresh] at hfound
      cases hfound
    rw [hentered.edge?, if_neg hnew, hfound, htail, Option.map_some]

end GraphM

end Splice
