import Splice.Proofs.Block.Flow
import Splice.Proofs.Digraph.BackEdges
import Splice.Proofs.Digraph.Walks

/-!
# Tagging loops

Blocks and edges of loops are tagged by a walk over the graph. What comes of it is the graph with
the tags of the pairs that the walk found, and nothing else (`discoverLoops_eq`): `withLoops` says
what the tags are, block by block and edge by edge, and one more pair is tagged by one more step
(`tagLoop_withLoops`). Nothing is refused, since the walk meets nothing but blocks of the graph.

Graphs that differ in tags only (`Retagged`) are cut the same, have the same edges, and pass
control on the same way.

The proof follows the pairs one after the other: `withLoops` of the pairs so far is what the
graph has become. A block that is a header of one loop and a footer of another keeps both parts,
and tags do not depend on the order of the pairs.
-/

namespace Splice

def Block.untagged (block : Block) : Block := { block with kind := .generic }

def Edge.untagged (edge : Edge) : Edge := { edge with direction := .next }

/-- The edge with the tag that these pairs give it. -/
def Edge.tagged (pairs : List (BlockId × BlockId)) (edge : Edge) : Edge :=
  { edge with direction :=
      if pairs.contains (edge.source, edge.target) && !edge.kind.isInterprocedural then .back else .next }

namespace BlockGraph

variable {graph after : BlockGraph} {id source target : BlockId} {edge : EdgeId}
  {pairs : List (BlockId × BlockId)}

/-- Graphs are the same if they hold the same under every name. -/
theorem ext_lookup (hblock : ∀ id, after.block? id = graph.block? id)
    (hedge : ∀ id, after.edge? id = graph.edge? id) (hhead : after.head = graph.head)
    (htail : after.tail = graph.tail) (htree : after.tree = graph.tree)
    (hsections : after.sections = graph.sections) : after = graph := by
  have hblocks : after.blocks = graph.blocks := Array.ext_getElem? fun index => hblock ⟨index⟩
  have hedges : after.edges = graph.edges := Array.ext_getElem? fun index => hedge ⟨index⟩
  cases after
  cases graph
  simp_all

/-! ## Graphs that differ in tags only -/

/-- The graphs are the same but for tags of loops. -/
def Retagged (s t : BlockGraph) : Prop := t.withoutLoops = s.withoutLoops

theorem block?_withoutLoops : graph.withoutLoops.block? id = (graph.block? id).map (·.untagged) := block?_map

theorem edge?_withoutLoops : graph.withoutLoops.edge? edge = (graph.edge? edge).map (·.untagged) := edge?_map

theorem edgesOut_withoutLoops : graph.withoutLoops.edgesOut id = (graph.edgesOut id).map (·.untagged) := by
  rw [edgesOut, edgesOut, block?_withoutLoops, Option.map_map, List.map_filterMap]
  exact List.filterMap_congr fun edge _ => edge?_withoutLoops

/-- Where a call returns to does not depend on the tags. -/
theorem returnSite?_withoutLoops : graph.withoutLoops.returnSite? id = graph.returnSite? id := by
  have hcalls : ((graph.withoutLoops.edgesOut id).any fun edge => edge.kind == .call)
      = (graph.edgesOut id).any fun edge => edge.kind == .call := by
    rw [edgesOut_withoutLoops, List.any_map]
    rfl
  simp only [returnSite?, hcalls, block?_withoutLoops, Option.bind_eq_bind, Option.bind_map]
  rfl

/-- Successors inside functions do not depend on the tags. -/
theorem localSuccessors_withoutLoops : graph.withoutLoops.localSuccessors id = graph.localSuccessors id := by
  rw [localSuccessors, localSuccessors, returnSite?_withoutLoops, edgesOut_withoutLoops, List.filter_map,
    List.map_map]
  rfl

namespace Retagged

/-- To take the tags off changes nothing but tags. -/
theorem withoutLoops : graph.Retagged graph.withoutLoops := by
  refine ext_lookup (fun id => ?_) (fun edge => ?_) rfl rfl rfl rfl
  · rw [block?_withoutLoops, block?_withoutLoops, Option.map_map]
    rfl
  · rw [edge?_withoutLoops, edge?_withoutLoops, Option.map_map]
    rfl

/-- What is read of a block but not of its tags stays. -/
theorem map_block? {β : Type} {k : Block → β} (h : graph.Retagged after) (hk : ∀ block, k block.untagged = k block)
    (id : BlockId) : (after.block? id).map k = (graph.block? id).map k := by
  have hsame : ∀ g : BlockGraph, (g.block? id).map k = (g.withoutLoops.block? id).map k := by
    intro g
    rw [block?_withoutLoops, Option.map_map]
    exact congrArg (Option.map · _) (funext fun block => (hk block).symm)
  rw [hsame, h, ← hsame]

/-- What is read of an edge but not of its tag stays. -/
theorem map_edge? {β : Type} {k : Edge → β} (h : graph.Retagged after) (hk : ∀ edge, k edge.untagged = k edge)
    (edge : EdgeId) : (after.edge? edge).map k = (graph.edge? edge).map k := by
  have hsame : ∀ g : BlockGraph, (g.edge? edge).map k = (g.withoutLoops.edge? edge).map k := by
    intro g
    rw [edge?_withoutLoops, Option.map_map]
    exact congrArg (Option.map · _) (funext fun edge => (hk edge).symm)
  rw [hsame, h, ← hsame]

/-- Graphs that differ in tags cut the code in the same places. -/
theorem sameCut (h : graph.Retagged after) : graph.SameCut after where
  bounds id := h.map_block? (fun _ => rfl) id
  size := by
    have hsize := congrArg (fun g => g.blocks.size) h
    rwa [BlockGraph.withoutLoops, BlockGraph.withoutLoops, Array.size_map, Array.size_map] at hsize
  head := congrArg (·.head) h
  tail := congrArg (·.tail) h
  tree := congrArg (·.tree) h
  sections := congrArg (·.sections) h

/-- Graphs that differ in tags have the same wires. -/
theorem sameWires (h : graph.Retagged after) : graph.SameWires after where
  out id := by rw [outOf, outOf, h.map_block? fun _ => rfl]
  into id := by rw [intoOf, intoOf, h.map_block? fun _ => rfl]
  source edge := h.map_edge? (fun _ => rfl) edge
  target edge := h.map_edge? (fun _ => rfl) edge

/-- Graphs that differ in tags have blocks with the same owners. -/
theorem owned {chain : Chain} (h : graph.Retagged after) (howned : graph.Owned chain) : after.Owned chain := by
  intro id block hblock
  have hsame := h.map_block? (k := fun block => (block.first, block.func)) (fun _ => rfl) id
  rw [hblock, Option.map_some, eq_comm, Option.map_eq_some_iff] at hsame
  obtain ⟨found, hfound, he⟩ := hsame
  rw [Prod.mk.injEq] at he
  rw [← he.1, ← he.2]
  exact howned id found hfound

/-- Graphs that differ in tags carry the same passages. -/
theorem carries {passage : Passage} (h : graph.Retagged after) :
    after.Carries passage ↔ graph.Carries passage := by
  have hiff : ∀ g : BlockGraph, g.Carries passage ↔ ∃ edge, (g.edge? edge).map (·.passage) = some passage := fun g =>
    exists_congr fun edge => Option.map_eq_some_iff.symm
  rw [hiff, hiff]
  exact exists_congr fun edge => by rw [h.map_edge? (k := (·.passage)) (fun _ => rfl) edge]

theorem localSuccessors (h : graph.Retagged after) : after.localSuccessors = graph.localSuccessors := by
  funext id
  rw [← localSuccessors_withoutLoops, h, localSuccessors_withoutLoops]

end Retagged

/-! ## The tags of pairs -/

/-- The graph with the tags of the loops that these pairs of source and target close. -/
def withLoops (graph : BlockGraph) (pairs : List (BlockId × BlockId)) : BlockGraph :=
  { graph with
    blocks := graph.blocks.mapIdx fun index block =>
      { block with kind := ⟨pairs.any (·.2 == ⟨index⟩), pairs.any (·.1 == ⟨index⟩)⟩ }
    edges := graph.edges.map (·.tagged pairs) }

theorem block?_withLoops : (graph.withLoops pairs).block? id = (graph.block? id).map fun block =>
    { block with kind := ⟨pairs.any (·.2 == id), pairs.any (·.1 == id)⟩ } :=
  Array.getElem?_mapIdx ..

theorem edge?_withLoops : (graph.withLoops pairs).edge? edge = (graph.edge? edge).map (·.tagged pairs) :=
  edge?_map

/-- The tags of no loops at all are those of a graph without loops. -/
theorem withLoops_nil : graph.withLoops [] = graph.withoutLoops := by
  refine ext_lookup (fun id => ?_) (fun edge => ?_) rfl rfl rfl rfl
  · rw [block?_withLoops, block?_withoutLoops]
    rfl
  · rw [edge?_withLoops, edge?_withoutLoops]
    rfl

/-- To write the tags of loops changes nothing but tags. -/
theorem retagged_withLoops : graph.Retagged (graph.withLoops pairs) := by
  refine ext_lookup (fun id => ?_) (fun edge => ?_) rfl rfl rfl rfl
  · rw [block?_withoutLoops, block?_withoutLoops, block?_withLoops, Option.map_map]
    rfl
  · rw [edge?_withoutLoops, edge?_withoutLoops, edge?_withLoops, Option.map_map]
    rfl

/-- Within functions control passes to blocks of the graph only. -/
theorem Wired.localSuccessors_isSome {next : BlockId} (hwired : graph.Wired)
    (hnext : next ∈ graph.localSuccessors id) : (graph.block? next).isSome := by
  rcases List.mem_append.mp hnext with hedge | hsite
  · obtain ⟨found, hfound, rfl⟩ := List.mem_map.mp hedge
    obtain ⟨edge, -, hedge⟩ := List.mem_filterMap.mp (List.mem_filter.mp hfound).1
    exact hwired.target_isSome (by rw [targetOf, hedge, Option.map_some])
  · simp only [Option.mem_toList, returnSite?, Option.bind_eq_bind, Option.bind_eq_some_iff] at hsite
    obtain ⟨block, -, hsite⟩ := hsite
    split at hsite
    next =>
      obtain ⟨found, -, hsite⟩ := Option.bind_eq_some_iff.mp hsite
      obtain ⟨other, hother, hsite⟩ := Option.bind_eq_some_iff.mp hsite
      split at hsite
      next =>
        obtain rfl := Option.some.inj hsite
        rw [hother]
        rfl
      next => cases hsite
    next => cases hsite

end BlockGraph

namespace GraphM

open BlockGraph

variable {graph after : BlockGraph} {id source target : BlockId} {edges : List EdgeId} {parts : List Part}
  {order : List BlockId} {pairs : List (BlockId × BlockId)} {g : Edge → Edge}

/-! ## The run -/

/-- Edges that are changed one after another are changed each once. -/
theorem updateEdges_run (hnodup : edges.Nodup) (h : ∀ edge ∈ edges, (graph.edge? edge).isSome) :
    ∃ after, edges.forM (fun edge => updateEdge edge g) graph = .ok () after
      ∧ (∀ id, after.block? id = graph.block? id)
      ∧ (∀ edge, after.edge? edge = if edge ∈ edges then (graph.edge? edge).map g else graph.edge? edge)
      ∧ after.head = graph.head ∧ after.tail = graph.tail ∧ after.tree = graph.tree
      ∧ after.sections = graph.sections := by
  induction edges generalizing graph with
  | nil => exact ⟨graph, rfl, fun _ => rfl, fun _ => rfl, rfl, rfl, rfl, rfl⟩
  | cons first edges ih =>
    obtain ⟨hfirst, hnodup⟩ := List.nodup_cons.mp hnodup
    have hsome := h first (List.mem_cons_self ..)
    obtain ⟨after, hrun, hblocks, hedges, hrest⟩ := @ih (graph.withEdge first g) hnodup fun edge hedge => by
      rw [edge?_withEdge]
      split
      next he =>
        rw [Option.isSome_map]
        exact hsome
      next => exact h edge (List.mem_cons_of_mem _ hedge)
    refine ⟨after, forM_cons_ok.mpr ⟨_, updateEdge_ok.mpr ⟨hsome, rfl⟩, hrun⟩, hblocks, fun edge => ?_, hrest⟩
    rw [hedges, edge?_withEdge]
    by_cases he : edge = first
    · rw [if_neg (he ▸ hfirst), if_pos he, if_pos (he ▸ List.mem_cons_self ..), he]
    · simp only [List.mem_cons, he, if_false, false_or]

/-- A change of the kind of one block, where all kinds are given by a function, gives them by that
function with one value changed. -/
theorem block?_kind {kinds : BlockId → BlockKind} {f : BlockKind → BlockKind} {other : BlockId}
    (h : ∀ id, after.block? id = (graph.block? id).map fun block => { block with kind := kinds id }) :
    (after.withBlock id fun block => { block with kind := f block.kind }).block? other
      = (graph.block? other).map fun block =>
        { block with kind := if other = id then f (kinds other) else kinds other } := by
  rw [block?_withBlock, h, h]
  split
  next he => rw [he, Option.map_map]; rfl
  next => rfl

/-- One more pair, as the footer and the header of its loop are tagged. -/
theorem block?_tagged {id : BlockId} :
    (((graph.withLoops pairs).withBlock source fun block => { block with kind := block.kind.withFooter }).withBlock
        target fun block => { block with kind := block.kind.withHeader }).block? id
      = (graph.withLoops (pairs ++ [(source, target)])).block? id := by
  have hfooter : ∀ id, ((graph.withLoops pairs).withBlock source fun block =>
      { block with kind := block.kind.withFooter }).block? id = (graph.block? id).map fun block =>
        { block with kind := ⟨pairs.any (·.2 == id), pairs.any (·.1 == id) || source == id⟩ } := by
    intro id
    rw [block?_kind (f := BlockKind.withFooter) fun _ => block?_withLoops]
    split
    next he => simp [he, BlockKind.withFooter]
    next hne => rw [beq_eq_false_iff_ne.mpr (Ne.symm hne), Bool.or_false]
  rw [block?_kind (f := BlockKind.withHeader) hfooter, block?_withLoops, List.any_append, List.any_append]
  simp only [List.any_cons, List.any_nil, Bool.or_false]
  split
  next he => simp [he, BlockKind.withHeader]
  next hne => rw [beq_eq_false_iff_ne.mpr (Ne.symm hne), Bool.or_false]

/-- One more pair, as an edge of its source is tagged. -/
theorem edge_tagged (found : Edge) :
    (if found.source = source then
      if found.target = target ∧ !found.kind.isInterprocedural then
        { found.tagged pairs with direction := .back }
      else
        found.tagged pairs
    else
      found.tagged pairs) = found.tagged (pairs ++ [(source, target)]) := by
  have hcontains : (pairs ++ [(source, target)]).contains (found.source, found.target)
      = (pairs.contains (found.source, found.target)
        || found.source == source && found.target == target) := by
    rw [List.contains_append, List.contains_cons, List.contains_nil, Bool.or_false]
    rfl
  unfold Edge.tagged
  rw [hcontains]
  cases found.kind.isInterprocedural <;> grind

/-- One more pair is tagged. -/
theorem tagLoop_withLoops (hwired : graph.Wired) (hsource : (graph.block? source).isSome)
    (htarget : (graph.block? target).isSome) :
    tagLoop source target (graph.withLoops pairs) = .ok () (graph.withLoops (pairs ++ [(source, target)])) := by
  obtain ⟨m, hm⟩ : ∃ m, m = (graph.withLoops pairs).withBlock source
      fun block => { block with kind := block.kind.withFooter } := ⟨_, rfl⟩
  obtain ⟨m', hm'⟩ : ∃ m', m' = m.withBlock target fun block => { block with kind := block.kind.withHeader } :=
    ⟨_, rfl⟩
  have hsource' : ((graph.withLoops pairs).block? source).isSome := by
    rwa [block?_withLoops, Option.isSome_map]
  have htarget' : (m.block? target).isSome := by
    rwa [hm, isSome_withBlock, block?_withLoops, Option.isSome_map]
  have hblocks : ∀ id, m'.block? id = (graph.withLoops (pairs ++ [(source, target)])).block? id := by
    intro id
    rw [hm', hm]
    exact block?_tagged
  have hedges : ∀ edge, m'.edge? edge = (graph.edge? edge).map (·.tagged pairs) := by
    intro edge
    rw [hm', hm]
    exact edge?_withLoops
  -- the edges that are gone through are those from `source`, each of them once
  have hlisted : ∀ edge, edge ∈ graph.outOf source ↔ graph.sourceOf edge = some source := by
    intro edge
    rw [← List.count_pos_iff, hwired.out]
    split <;> simp [*]
  have hnodup : (graph.outOf source).Nodup := by
    rw [List.nodup_iff_count]
    intro edge
    rw [hwired.out]
    split <;> omega
  obtain ⟨block, hblock, hout⟩ : ∃ block, m'.block? source = some block
      ∧ block.outEdges = graph.outOf source := by
    obtain ⟨block, hblock⟩ := Option.isSome_iff_exists.mp hsource
    refine ⟨_, (hblocks source).trans (block?_withLoops.trans (by rw [hblock]; rfl)), ?_⟩
    rw [outOf, hblock]
    rfl
  have hpresent : ∀ edge ∈ graph.outOf source, (m'.edge? edge).isSome := by
    intro edge hedge
    obtain ⟨found, hfound, -⟩ := Option.map_eq_some_iff.mp ((hlisted edge).mp hedge)
    rw [hedges, hfound]
    rfl
  obtain ⟨after, hrun, hkept, htags, hhead, htail, htree, hsections⟩ := updateEdges_run (g := fun edge =>
    if edge.target = target ∧ !edge.kind.isInterprocedural then { edge with direction := .back } else edge)
    hnodup hpresent
  -- a graph is known by what can be looked up in it
  have hafter : after = graph.withLoops (pairs ++ [(source, target)]) := by
    refine ext_lookup (fun id => (hkept id).trans (hblocks id)) (fun edge => ?_)
      (hhead.trans ?_) (htail.trans ?_) (htree.trans ?_) (hsections.trans ?_)
    · rw [htags, hedges, edge?_withLoops]
      cases hfound : graph.edge? edge with
      | none => rw [Option.map_none, Option.map_none, Option.map_none, ite_self]
      | some found =>
        have hmem : edge ∈ graph.outOf source ↔ found.source = source := by
          rw [hlisted, sourceOf, hfound, Option.map_some, Option.some_inj]
        simp only [Option.map_some, hmem, ← edge_tagged, apply_ite some]
        rfl
    all_goals
      rw [hm', hm]
      rfl
  rw [← hafter]
  refine (bind_run (a := ⟨⟩) (updateBlock_ok.mpr ⟨hsource', hm⟩)).trans
    ((bind_run (a := ⟨⟩) (updateBlock_ok.mpr ⟨htarget', hm'⟩)).trans ?_)
  rw [bind_run (block_ok.mpr ⟨hblock, rfl⟩), hout]
  exact hrun

/-- The walk that looks for loops meets blocks of the graph only. -/
theorem backPairs_isSome (hsequenced : graph.Sequenced order) (hwired : graph.Wired)
    {pair : BlockId × BlockId} (hpair : pair ∈ graph.backPairs) :
    (graph.block? pair.1).isSome ∧ (graph.block? pair.2).isSome := by
  have hids : ∀ id ∈ graph.ids, (graph.block? id).isSome := fun id hid =>
    hsequenced.neighbours.isSome (hsequenced.ids ▸ hid)
  have hroots : ∀ id ∈ graph.sources ++ graph.functionEntries ++ graph.ids, (graph.block? id).isSome := by
    intro id hid
    rw [List.mem_append, List.mem_append] at hid
    rcases hid with (hid | hid) | hid
    · exact hids id (List.mem_filter.mp hid).1
    · exact hids id (List.mem_filter.mp hid).1
    · exact hids id hid
  have hwithin : Digraph.Walk.Within (fun id => (graph.block? id).isSome)
      (graph.localFlow.walk (graph.sources ++ graph.functionEntries ++ graph.ids) .forward .depthFirst .always) :=
    Digraph.walk_within (fun _ _ _ => hwired.localSuccessors_isSome) hroots
  obtain ⟨event, hevent, hseen⟩ := List.mem_filterMap.mp hpair
  have hnamed := hwithin event hevent
  cases event with
  | pre node | post node => cases hseen
  | seen source target onPath =>
    cases onPath with
    | false => cases hseen
    | true =>
      obtain rfl := Option.some.inj hseen
      exact hnamed

/-- Loops can be tagged in any graph of blocks, and this does nothing else. -/
theorem discoverLoops_eq (hsequenced : graph.Sequenced order) (hwired : graph.Wired) :
    discoverLoops graph = .ok graph.withoutLoops.backPairs.length
      (graph.withLoops graph.withoutLoops.backPairs) := by
  have hcut : graph.SameCut graph.withoutLoops := Retagged.withoutLoops.sameCut
  have hwired' : graph.withoutLoops.Wired := hwired.congr Retagged.withoutLoops.sameWires
  have hpairs := fun pair (hpair : pair ∈ graph.withoutLoops.backPairs) =>
    backPairs_isSome (hsequenced.congr hcut) hwired' hpair
  have htags : Yields False (graph.withoutLoops.backPairs.forM fun pair => tagLoop pair.1 pair.2)
      (graph.withLoops []) fun _ after => after = graph.withLoops graph.withoutLoops.backPairs := by
    refine .forM (p := fun done after => after = graph.withLoops done) rfl ?_
    rintro done ⟨source, target⟩ rest m hsplit rfl
    obtain ⟨hsource, htarget⟩ := hpairs (source, target) (by rw [hsplit]; simp)
    rw [hcut.isSome] at hsource htarget
    exact .of_ok (tagLoop_withLoops hwired hsource htarget) rfl
  obtain ⟨_, after, hrun, rfl⟩ := htags.succeeds
  rw [withLoops_nil] at hrun
  refine (bind_run (a := ⟨⟩) (modify_ok.mpr rfl)).trans ((bind_run (get_ok.mpr ⟨rfl, rfl⟩)).trans ?_)
  exact (bind_run hrun).trans rfl

/-- Loops can be tagged in any graph of blocks. -/
theorem discoverLoops_run (hcuts : graph.Cuts parts) (hwired : graph.Wired) :
    ∃ count after, discoverLoops graph = .ok count after ∧ graph.SameCut after ∧ after.Wired
      ∧ graph.Retagged after := by
  have hretagged : graph.Retagged (graph.withLoops graph.withoutLoops.backPairs) := retagged_withLoops
  exact ⟨_, _, discoverLoops_eq hcuts.sequenced hwired, hretagged.sameCut, hwired.congr hretagged.sameWires, hretagged⟩

end GraphM

end Splice
