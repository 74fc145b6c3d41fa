import Splice.Block.Loop
import Splice.Block.Split
import Splice.Proofs.Run

/-!
# Changes of the block graph

Each operation on the block graph in terms of the blocks and edges that it changes.
`SameCut` is what all operations keep that do not cut: every block keeps its bounds, its
count and its neighbours. `SameWires` is what all operations keep that do not touch edges:
every block keeps its lists and every edge keeps its ends.

The lemmas on single operations are equivalences: `block_ok`, `updateBlock_ok` and their like
say exactly when an operation succeeds and what it leaves, so later proofs never open one.

> `Wired.addEdge`, `Wired.retargetEdge`: an edge that is drawn or led elsewhere stands once in
> the list of each of its ends, and all other edges stay as they were.
-/

namespace Splice

namespace BlockGraph

/-- The graph with a block changed, if it exists. -/
def withBlock (graph : BlockGraph) (id : BlockId) (f : Block → Block) : BlockGraph :=
  { graph with blocks := graph.blocks.modify id.index f }

/-- The graph with an edge changed, if it exists. -/
def withEdge (graph : BlockGraph) (id : EdgeId) (f : Edge → Edge) : BlockGraph :=
  { graph with edges := graph.edges.modify id.index f }

variable {graph after : BlockGraph} {id other : BlockId} {edge : EdgeId} {f : Block → Block}

/-- After a change of one block all others are as they were. -/
theorem block?_withBlock : (graph.withBlock id f).block? other
    = if other = id then (graph.block? id).map f else graph.block? other := by
  by_cases h : other = id
  · subst h
    rw [if_pos rfl]
    simp [block?, withBlock, Array.getElem?_modify]
  · have hne : id.index ≠ other.index := fun he => h (Handle.ext_index he).symm
    rw [if_neg h]
    simp [block?, withBlock, Array.getElem?_modify, hne]

/-- After a change of one edge all others are as they were. -/
theorem edge?_withEdge {g : Edge → Edge} {other : EdgeId} : (graph.withEdge edge g).edge? other
    = if other = edge then (graph.edge? edge).map g else graph.edge? other := by
  by_cases h : other = edge
  · subst h
    rw [if_pos rfl]
    simp [edge?, withEdge, Array.getElem?_modify]
  · have hne : edge.index ≠ other.index := fun he => h (Handle.ext_index he).symm
    rw [if_neg h]
    simp [edge?, withEdge, Array.getElem?_modify, hne]

/-- A block that is pushed gets the next name, and all others keep theirs. -/
theorem block?_push {block : Block} : ({ graph with blocks := graph.blocks.push block } : BlockGraph).block? other
    = if other = ⟨graph.blocks.size⟩ then some block else graph.block? other := by
  by_cases h : other = ⟨graph.blocks.size⟩
  · subst h
    simp [block?]
  · have hne : other.index ≠ graph.blocks.size := fun he => h (Handle.ext_index he)
    rw [if_neg h]
    simp [block?, Array.getElem?_push, hne]

/-- An edge that is pushed gets the next name, and all others keep theirs. -/
theorem edge?_push {new : Edge} {other : EdgeId} :
    ({ graph with edges := graph.edges.push new } : BlockGraph).edge? other
    = if other = ⟨graph.edges.size⟩ then some new else graph.edge? other := by
  by_cases h : other = ⟨graph.edges.size⟩
  · subst h
    simp [edge?]
  · have hne : other.index ≠ graph.edges.size := fun he => h (Handle.ext_index he)
    rw [if_neg h]
    simp [edge?, Array.getElem?_push, hne]

theorem block?_fresh : graph.block? ⟨graph.blocks.size⟩ = none := by simp [block?]

theorem edge?_fresh : graph.edge? ⟨graph.edges.size⟩ = none := by simp [edge?]

theorem edge_eq {found : Edge} (h : graph.edge? edge = some found) : graph.edge edge = .ok found := by
  unfold BlockGraph.edge
  rw [h]

theorem block_eq {found : Block} (h : graph.block? id = some found) : graph.block id = .ok found := by
  unfold BlockGraph.block
  rw [h]

/-- A block that is got without refusal is there. -/
theorem block_of_eq {found : Block} (h : graph.block id = .ok found) : graph.block? id = some found := by
  unfold BlockGraph.block at h
  split at h
  next hblock => rw [hblock, Except.ok.inj h]
  next => cases h

end BlockGraph

namespace GraphM

variable {graph after : BlockGraph} {id source target : BlockId} {edge : EdgeId} {u : Unit}

/-- A block is read exactly if it is there, and the graph stays the same. -/
theorem block_ok {block : Block} :
    GraphM.block id graph = .ok block after ↔ graph.block? id = some block ∧ after = graph := by
  unfold GraphM.block
  rw [bind_ok]
  constructor
  · rintro ⟨found, kept, hget, h⟩
    obtain ⟨rfl, rfl⟩ := get_ok.mp hget
    cases hblock : kept.block? id with
    | none =>
      rw [hblock] at h
      exact (throw_ok.mp h).elim
    | some found =>
      rw [hblock] at h
      obtain ⟨rfl, rfl⟩ := pure_ok.mp h
      exact ⟨rfl, rfl⟩
  · rintro ⟨hblock, rfl⟩
    refine ⟨after, after, rfl, ?_⟩
    rw [hblock]
    rfl

/-- An edge is read exactly if it is there, and the graph stays the same. -/
theorem edge_ok {found : Edge} :
    GraphM.edge edge graph = .ok found after ↔ graph.edge? edge = some found ∧ after = graph := by
  unfold GraphM.edge
  rw [bind_ok]
  constructor
  · rintro ⟨found, kept, hget, h⟩
    obtain ⟨rfl, rfl⟩ := get_ok.mp hget
    cases hedge : kept.edge? edge with
    | none =>
      rw [hedge] at h
      exact (throw_ok.mp h).elim
    | some found =>
      rw [hedge] at h
      obtain ⟨rfl, rfl⟩ := pure_ok.mp h
      exact ⟨rfl, rfl⟩
  · rintro ⟨hedge, rfl⟩
    refine ⟨after, after, rfl, ?_⟩
    rw [hedge]
    rfl

/-- A block that is missing is reported, and the graph stays the same. -/
theorem block_error (h : graph.block? id = none) :
    GraphM.block id graph = .error (.missingBlock id) graph := by
  unfold GraphM.block
  rw [bind_run (get_ok.mpr ⟨rfl, rfl⟩), h]
  rfl

/-- An edge that is missing is reported, and the graph stays the same. -/
theorem edge_error (h : graph.edge? edge = none) :
    GraphM.edge edge graph = .error (.missingEdge edge) graph := by
  unfold GraphM.edge
  rw [bind_run (get_ok.mpr ⟨rfl, rfl⟩), h]
  rfl

/-- A block is changed exactly if it is there, and nothing else changes. -/
theorem updateBlock_ok {f : Block → Block} : updateBlock id f graph = .ok u after
    ↔ (graph.block? id).isSome ∧ after = graph.withBlock id f := by
  simp only [updateBlock, bind_ok, block_ok, modify_ok, Option.isSome_iff_exists]
  constructor
  · rintro ⟨block, _, ⟨hblock, rfl⟩, rfl⟩
    exact ⟨⟨block, hblock⟩, rfl⟩
  · rintro ⟨⟨block, hblock⟩, rfl⟩
    exact ⟨block, graph, ⟨hblock, rfl⟩, rfl⟩

/-- An edge is changed exactly if it is there, and nothing else changes. -/
theorem updateEdge_ok {f : Edge → Edge} : updateEdge edge f graph = .ok u after
    ↔ (graph.edge? edge).isSome ∧ after = graph.withEdge edge f := by
  simp only [updateEdge, bind_ok, edge_ok, modify_ok, Option.isSome_iff_exists]
  constructor
  · rintro ⟨found, _, ⟨hedge, rfl⟩, rfl⟩
    exact ⟨⟨found, hedge⟩, rfl⟩
  · rintro ⟨⟨found, hedge⟩, rfl⟩
    exact ⟨found, graph, ⟨hedge, rfl⟩, rfl⟩

/-- An operation on the tree succeeds exactly if it does so on the tree alone, and nothing else of the
graph changes. -/
theorem onTree_ok {α : Type} {action : TreeM α} {a : α} : onTree action graph = .ok a after
    ↔ ∃ tree, action graph.tree = .ok a tree ∧ after = { graph with tree := tree } := by
  unfold onTree
  cases action graph.tree with
  | ok value tree =>
    simp only [EStateM.Result.ok.injEq]
    constructor
    · rintro ⟨rfl, rfl⟩
      exact ⟨tree, ⟨rfl, rfl⟩, rfl⟩
    · rintro ⟨_, ⟨rfl, rfl⟩, rfl⟩
      exact ⟨rfl, rfl⟩
  | error cause tree => simp

end GraphM

/-! ## What graphs are compared by -/

/-- Where a block begins and ends, how much it holds, and its neighbours. -/
structure Bounds where
  first : InstrId
  last : InstrId
  count : Nat
  prev : Option BlockId
  next : Option BlockId

def Block.bounds (block : Block) : Bounds :=
  ⟨block.first, block.last, block.count, block.prev, block.next⟩

namespace BlockGraph

def bounds? (graph : BlockGraph) (id : BlockId) : Option Bounds := (graph.block? id).map (·.bounds)

/-- The part that a block plays in loops. -/
def kind? (graph : BlockGraph) (id : BlockId) : Option BlockKind := (graph.block? id).map (·.kind)

/-- The edges that a block lists as leaving it. -/
def outOf (graph : BlockGraph) (id : BlockId) : List EdgeId :=
  ((graph.block? id).map (·.outEdges)).getD []

/-- The edges that a block lists as entering it. -/
def intoOf (graph : BlockGraph) (id : BlockId) : List EdgeId :=
  ((graph.block? id).map (·.inEdges)).getD []

def sourceOf (graph : BlockGraph) (edge : EdgeId) : Option BlockId :=
  (graph.edge? edge).map (·.source)

def targetOf (graph : BlockGraph) (edge : EdgeId) : Option BlockId :=
  (graph.edge? edge).map (·.target)

/-- The graphs cut the code in the same places. -/
structure SameCut (s t : BlockGraph) : Prop where
  bounds : ∀ id, t.bounds? id = s.bounds? id
  size : t.blocks.size = s.blocks.size
  head : t.head = s.head
  tail : t.tail = s.tail
  tree : t.tree = s.tree
  sections : t.sections = s.sections

/-- To cut the code in the same places holds of doing nothing and of two steps in a row. -/
theorem SameCut.stepRelation : StepRelation SameCut where
  refl _ := ⟨fun _ => rfl, rfl, rfl, rfl, rfl, rfl⟩
  trans h h' := ⟨fun id => (h'.bounds id).trans (h.bounds id), h'.size.trans h.size,
    h'.head.trans h.head, h'.tail.trans h.tail, h'.tree.trans h.tree,
    h'.sections.trans h.sections⟩

/-- The graphs have the same edges between the same blocks. -/
structure SameWires (s t : BlockGraph) : Prop where
  out : ∀ id, t.outOf id = s.outOf id
  into : ∀ id, t.intoOf id = s.intoOf id
  source : ∀ edge, t.sourceOf edge = s.sourceOf edge
  target : ∀ edge, t.targetOf edge = s.targetOf edge

/-- Every edge stands once in the list of the block that it leaves, once in that of the block that it
enters, and nowhere else. -/
structure Wired (graph : BlockGraph) : Prop where
  out : ∀ id edge, (graph.outOf id).count edge = if graph.sourceOf edge = some id then 1 else 0
  into : ∀ id edge, (graph.intoOf id).count edge = if graph.targetOf edge = some id then 1 else 0

variable {graph after : BlockGraph} {id : BlockId} {edge : EdgeId} {f : Block → Block} {g : Edge → Edge}

theorem Wired.congr (h : graph.Wired) (hsame : graph.SameWires after) : after.Wired where
  out id edge := by rw [hsame.out, hsame.source, h.out]
  into id edge := by rw [hsame.into, hsame.target, h.into]

/-- A change that keeps the bounds of a block keeps the cuts. -/
theorem withBlock_sameCut (hf : ∀ block, (f block).bounds = block.bounds) :
    graph.SameCut (graph.withBlock id f) where
  bounds other := by
    rw [bounds?, bounds?, block?_withBlock]
    split
    next he =>
      rw [he, Option.map_map]
      exact congrArg (Option.map · _) (funext hf)
    next => rfl
  size := Array.size_modify ..
  head := rfl
  tail := rfl
  tree := rfl
  sections := rfl

/-- A change that keeps the edges out of a block keeps all edges out of blocks. -/
theorem outOf_withBlock_kept {other : BlockId} (hf : ∀ block, (f block).outEdges = block.outEdges) :
    (graph.withBlock id f).outOf other = graph.outOf other := by
  rw [outOf, outOf, block?_withBlock]
  split
  next he =>
    rw [he, Option.map_map]
    exact congrArg (fun k => (Option.map k _).getD []) (funext hf)
  next => rfl

/-- A change that keeps the edges into a block keeps all edges into blocks. -/
theorem intoOf_withBlock_kept {other : BlockId} (hf : ∀ block, (f block).inEdges = block.inEdges) :
    (graph.withBlock id f).intoOf other = graph.intoOf other := by
  rw [intoOf, intoOf, block?_withBlock]
  split
  next he =>
    rw [he, Option.map_map]
    exact congrArg (fun k => (Option.map k _).getD []) (funext hf)
  next => rfl

theorem withBlock_sameWires
    (hf : ∀ block, (f block).outEdges = block.outEdges ∧ (f block).inEdges = block.inEdges) :
    graph.SameWires (graph.withBlock id f) :=
  ⟨fun _ => outOf_withBlock_kept fun block => (hf block).1,
    fun _ => intoOf_withBlock_kept fun block => (hf block).2, fun _ => rfl, fun _ => rfl⟩

theorem isSome_kind? : (graph.kind? id).isSome = (graph.block? id).isSome := Option.isSome_map ..

/-- A change that tags a block anew tags no other one. -/
theorem kind?_withBlock {other : BlockId} {k : BlockKind → BlockKind} (hf : ∀ block, (f block).kind = k block.kind) :
    (graph.withBlock id f).kind? other
      = if other = id then (graph.kind? id).map k else graph.kind? other := by
  rw [kind?, block?_withBlock]
  split
  next =>
    rw [kind?, Option.map_map, Option.map_map]
    exact congrArg (Option.map · _) (funext hf)
  next => rfl

/-- A change that keeps the tag of a block keeps all tags. -/
theorem kind?_withBlock_kept (hf : ∀ block, (f block).kind = block.kind) :
    (graph.withBlock id f).kind? = graph.kind? := by
  funext other
  rw [kind?_withBlock (k := fun kind => kind) hf]
  split
  next he => rw [he, Option.map_id']
  next => rfl

theorem withEdge_sameCut : graph.SameCut (graph.withEdge edge g) :=
  ⟨fun _ => rfl, rfl, rfl, rfl, rfl, rfl⟩

/-- To change the kind or direction of an edge keeps the wires. -/
theorem withEdge_sameWires
    (hg : ∀ edge, (g edge).source = edge.source ∧ (g edge).target = edge.target) :
    graph.SameWires (graph.withEdge edge g) where
  out _ := rfl
  into _ := rfl
  source other := by
    rw [sourceOf, sourceOf, edge?_withEdge]
    split
    next he =>
      rw [he, Option.map_map]
      exact congrArg (Option.map · _) (funext fun edge => (hg edge).1)
    next => rfl
  target other := by
    rw [targetOf, targetOf, edge?_withEdge]
    split
    next he =>
      rw [he, Option.map_map]
      exact congrArg (Option.map · _) (funext fun edge => (hg edge).2)
    next => rfl

/-- A change to the edges out of a block changes those of no other one. -/
theorem outOf_withBlock {k : List EdgeId → List EdgeId} {other : BlockId}
    (hid : (graph.block? id).isSome) (hf : ∀ block, (f block).outEdges = k block.outEdges) :
    (graph.withBlock id f).outOf other
      = if other = id then k (graph.outOf other) else graph.outOf other := by
  obtain ⟨block, hblock⟩ := Option.isSome_iff_exists.mp hid
  rw [outOf, outOf, block?_withBlock]
  split
  next he => rw [he, hblock, Option.map_some, Option.map_some, Option.map_some, hf]; rfl
  next => rfl

/-- A change to the edges into a block changes those of no other one. -/
theorem intoOf_withBlock {k : List EdgeId → List EdgeId} {other : BlockId}
    (hid : (graph.block? id).isSome) (hf : ∀ block, (f block).inEdges = k block.inEdges) :
    (graph.withBlock id f).intoOf other
      = if other = id then k (graph.intoOf other) else graph.intoOf other := by
  obtain ⟨block, hblock⟩ := Option.isSome_iff_exists.mp hid
  rw [intoOf, intoOf, block?_withBlock]
  split
  next he => rw [he, hblock, Option.map_some, Option.map_some, Option.map_some, hf]; rfl
  next => rfl

/-- A change to a block makes none come or go. -/
theorem isSome_withBlock {other : BlockId} :
    ((graph.withBlock id f).block? other).isSome = (graph.block? other).isSome := by
  rw [block?_withBlock]
  split
  next he => rw [he, Option.isSome_map]
  next => rfl

/-- Graphs in which the same names stand for edges have equally many of them, since names are
positions. -/
theorem edges_size_eq (h : ∀ edge, (after.edge? edge).isSome = (graph.edge? edge).isSome) :
    after.edges.size = graph.edges.size := by
  have hbound : ∀ (g : BlockGraph) (index : Nat), (g.edge? ⟨index⟩).isSome = decide (index < g.edges.size) := by
    intro g index
    rw [Bool.eq_iff_iff, BlockGraph.edge?, Option.isSome_iff_exists, decide_eq_true_eq]
    exact ⟨fun ⟨_, h⟩ => (Array.getElem?_eq_some_iff.mp h).1, fun h => ⟨_, Array.getElem?_eq_getElem h⟩⟩
  have hsame : ∀ index, index < after.edges.size ↔ index < graph.edges.size := fun index => by
    rw [← decide_eq_decide, ← hbound, ← hbound, h]
  have hle := hsame graph.edges.size
  have hge := hsame after.edges.size
  omega

theorem isSome_bounds? : (graph.bounds? id).isSome = (graph.block? id).isSome := Option.isSome_map ..

theorem SameCut.isSome (h : graph.SameCut after) (id : BlockId) :
    (after.block? id).isSome = (graph.block? id).isSome := by
  rw [← isSome_bounds?, ← isSome_bounds?, h.bounds]

/-- The block that an edge leaves is there: it lists the edge. -/
theorem Wired.source_isSome (h : graph.Wired) (hsource : graph.sourceOf edge = some id) :
    (graph.block? id).isSome := by
  have hcount := h.out id edge
  rw [if_pos hsource, outOf] at hcount
  cases hblock : graph.block? id with
  | none =>
    rw [hblock] at hcount
    cases hcount
  | some block => rfl

/-- The block that an edge enters is there: it lists the edge. -/
theorem Wired.target_isSome (h : graph.Wired) (htarget : graph.targetOf edge = some id) :
    (graph.block? id).isSome := by
  have hcount := h.into id edge
  rw [if_pos htarget, intoOf] at hcount
  cases hblock : graph.block? id with
  | none =>
    rw [hblock] at hcount
    cases hcount
  | some block => rfl

/-- An edge that a block lists exists. -/
theorem Wired.mem_out (h : graph.Wired) (hmem : edge ∈ graph.outOf id) :
    graph.sourceOf edge = some id := by
  have hcount := h.out id edge
  split at hcount
  next hsource => exact hsource
  next => exact absurd (List.count_pos_iff.mpr hmem) (by omega)

/-- An edge that a block lists as entering it does enter it. -/
theorem Wired.mem_into (h : graph.Wired) (hmem : edge ∈ graph.intoOf id) :
    graph.targetOf edge = some id := by
  have hcount := h.into id edge
  split at hcount
  next htarget => exact htarget
  next => exact absurd (List.count_pos_iff.mpr hmem) (by omega)

end BlockGraph

/-! ## Edges -/

namespace GraphM

variable {graph after : BlockGraph} {id source target : BlockId} {edge : EdgeId} {kind : EdgeKind}

open BlockGraph

/-- A new edge is listed last by the blocks that it joins. -/
theorem addEdge_run (kind : EdgeKind) (hsource : (graph.block? source).isSome)
    (htarget : (graph.block? target).isSome) :
    ∃ after, addEdge source target kind graph = .ok ⟨graph.edges.size⟩ after
      ∧ graph.SameCut after
      ∧ (∀ id, after.outOf id
        = if id = source then graph.outOf id ++ [⟨graph.edges.size⟩] else graph.outOf id)
      ∧ (∀ id, after.intoOf id
        = if id = target then graph.intoOf id ++ [⟨graph.edges.size⟩] else graph.intoOf id)
      ∧ ∀ edge, after.edge? edge
        = if edge = ⟨graph.edges.size⟩ then some ⟨source, target, kind, .next⟩ else graph.edge? edge := by
  obtain ⟨_, hfound⟩ := Option.isSome_iff_exists.mp hsource
  obtain ⟨_, hfound'⟩ := Option.isSome_iff_exists.mp htarget
  -- the edge is pushed, and then listed by the blocks that it joins
  obtain ⟨pushed, hpushed⟩ : ∃ pushed : BlockGraph,
      pushed = { graph with edges := graph.edges.push ⟨source, target, kind, .next⟩ } := ⟨_, rfl⟩
  have hblocks : ∀ id, pushed.block? id = graph.block? id := fun id => by rw [hpushed]; rfl
  obtain ⟨linked, hlinked⟩ : ∃ linked, linked = pushed.withBlock source
      fun block => { block with outEdges := block.outEdges ++ [⟨graph.edges.size⟩] } := ⟨_, rfl⟩
  have hsource' : (pushed.block? source).isSome := by rwa [hblocks]
  have htarget' : (linked.block? target).isSome := by
    rw [hlinked, isSome_withBlock, hblocks]
    exact htarget
  obtain ⟨after, hafter⟩ : ∃ after, after = linked.withBlock target
      fun block => { block with inEdges := block.inEdges ++ [⟨graph.edges.size⟩] } := ⟨_, rfl⟩
  refine ⟨after, ?_, ?_, fun id => ?_, fun id => ?_, fun edge => ?_⟩
  · rw [addEdge, bind_run (block_ok.mpr ⟨hfound, rfl⟩), bind_run (block_ok.mpr ⟨hfound', rfl⟩)]
    refine (bind_run (get_ok.mpr ⟨rfl, rfl⟩)).trans
      ((bind_run (modify_ok (a := ⟨⟩) |>.mpr hpushed)).trans ?_)
    exact (bind_run (updateBlock_ok (u := ⟨⟩) |>.mpr ⟨hsource', hlinked⟩)).trans
      (bind_run (updateBlock_ok (u := ⟨⟩) |>.mpr ⟨htarget', hafter⟩))
  · have hpush : graph.SameCut pushed := by
      rw [hpushed]
      exact ⟨fun _ => rfl, rfl, rfl, rfl, rfl, rfl⟩
    have hlink : pushed.SameCut linked := by
      rw [hlinked]
      exact withBlock_sameCut fun _ => rfl
    have hlist : linked.SameCut after := by
      rw [hafter]
      exact withBlock_sameCut fun _ => rfl
    exact SameCut.stepRelation.trans hpush (SameCut.stepRelation.trans hlink hlist)
  · have hkept : after.outOf id = linked.outOf id := by
      rw [hafter]
      exact outOf_withBlock_kept fun _ => rfl
    rw [hkept, hlinked, outOf_withBlock (k := (· ++ [⟨graph.edges.size⟩])) hsource' fun _ => rfl]
    simp only [outOf, hblocks]
  · have hkept : linked.intoOf id = pushed.intoOf id := by
      rw [hlinked]
      exact intoOf_withBlock_kept fun _ => rfl
    rw [hafter, intoOf_withBlock (k := (· ++ [⟨graph.edges.size⟩])) htarget' fun _ => rfl, hkept]
    simp only [intoOf, hblocks]
  · rw [hafter, hlinked]
    show pushed.edge? edge = _
    rw [hpushed, edge?_push]

/-- An edge can be drawn between any two blocks that are there. It is the next one, and all others stay as
they are, so the graph is still wired. -/
theorem Wired.addEdge (h : graph.Wired) (kind : EdgeKind) (hsource : (graph.block? source).isSome)
    (htarget : (graph.block? target).isSome) :
    ∃ after, GraphM.addEdge source target kind graph = .ok ⟨graph.edges.size⟩ after
      ∧ graph.SameCut after ∧ after.Wired
      ∧ ∀ edge, after.edge? edge
        = if edge = ⟨graph.edges.size⟩ then some ⟨source, target, kind, .next⟩ else graph.edge? edge := by
  obtain ⟨after, hrun, hcut, hout, hinto, hedge⟩ := addEdge_run kind hsource htarget
  have hfresh : graph.sourceOf ⟨graph.edges.size⟩ = none ∧ graph.targetOf ⟨graph.edges.size⟩ = none := by
    rw [sourceOf, targetOf, edge?_fresh]
    exact ⟨rfl, rfl⟩
  refine ⟨after, hrun, hcut, ⟨fun id edge => ?_, fun id edge => ?_⟩, hedge⟩
  · have hold := h.out id edge
    rw [hout, sourceOf, hedge]
    grind [sourceOf]
  · have hold := h.into id edge
    rw [hinto, targetOf, hedge]
    grind [targetOf]

/-- An edge that is led elsewhere goes over from one list to another. -/
theorem retargetEdge_run {found : Edge} (hedge : graph.edge? edge = some found)
    (hold : (graph.block? found.target).isSome) (htarget : (graph.block? target).isSome) :
    ∃ after, retargetEdge edge target graph = .ok () after
      ∧ graph.SameCut after
      ∧ (∀ id, after.outOf id = graph.outOf id)
      ∧ (∀ id, after.intoOf id
        = (if id = found.target then (graph.intoOf id).filter (· != edge) else graph.intoOf id)
          ++ if id = target then [edge] else [])
      ∧ ∀ other, after.edge? other
        = if other = edge then some { found with target := target } else graph.edge? other := by
  obtain ⟨_, hblock⟩ := Option.isSome_iff_exists.mp htarget
  -- struck from the list of the old target, put into that of the new one, and only then led there
  obtain ⟨struck, hstruck⟩ : ∃ struck, struck = graph.withBlock found.target
      fun block => { block with inEdges := block.inEdges.filter (· != edge) } := ⟨_, rfl⟩
  obtain ⟨listed, hlisted⟩ : ∃ listed, listed = struck.withBlock target
      fun block => { block with inEdges := block.inEdges ++ [edge] } := ⟨_, rfl⟩
  obtain ⟨after, hafter⟩ : ∃ after, after = listed.withEdge edge
      fun edge => { edge with target := target } := ⟨_, rfl⟩
  have htarget' : (struck.block? target).isSome := by
    rw [hstruck, isSome_withBlock]
    exact htarget
  have hedge' : listed.edge? edge = some found := by
    rw [hlisted, hstruck]
    exact hedge
  refine ⟨after, ?_, ?_, fun id => ?_, fun id => ?_, fun other => ?_⟩
  · rw [retargetEdge, bind_run (block_ok.mpr ⟨hblock, rfl⟩), bind_run (edge_ok.mpr ⟨hedge, rfl⟩)]
    refine (bind_run (updateBlock_ok (u := ⟨⟩) |>.mpr ⟨hold, hstruck⟩)).trans ?_
    refine (bind_run (updateBlock_ok (u := ⟨⟩) |>.mpr ⟨htarget', hlisted⟩)).trans ?_
    exact updateEdge_ok.mpr ⟨by rw [hedge']; rfl, hafter⟩
  · have hstrike : graph.SameCut struck := by
      rw [hstruck]
      exact withBlock_sameCut fun _ => rfl
    have hlist : struck.SameCut listed := by
      rw [hlisted]
      exact withBlock_sameCut fun _ => rfl
    have hlead : listed.SameCut after := by
      rw [hafter]
      exact withEdge_sameCut
    exact SameCut.stepRelation.trans hstrike (SameCut.stepRelation.trans hlist hlead)
  · have hkept : listed.outOf id = struck.outOf id := by
      rw [hlisted]
      exact outOf_withBlock_kept fun _ => rfl
    have hkept' : struck.outOf id = graph.outOf id := by
      rw [hstruck]
      exact outOf_withBlock_kept fun _ => rfl
    rw [hafter]
    exact hkept.trans hkept'
  · have hlead : after.intoOf id = listed.intoOf id := by
      rw [hafter]
      rfl
    rw [hlead, hlisted, intoOf_withBlock (k := (· ++ [edge])) htarget' fun _ => rfl, hstruck,
      intoOf_withBlock (k := (·.filter (· != edge))) hold fun _ => rfl]
    split <;> simp
  · rw [hafter, edge?_withEdge, hedge', hlisted, hstruck]
    rfl

/-- An edge that is there can be made to enter another block that is there. It is struck off the list of
the old block before it is noted at the new one, which matters where the two are the same. -/
theorem Wired.retargetEdge (h : graph.Wired) {found : Edge} (hedge : graph.edge? edge = some found)
    (htarget : (graph.block? target).isSome) :
    ∃ after, GraphM.retargetEdge edge target graph = .ok () after ∧ graph.SameCut after
      ∧ after.Wired
      ∧ ∀ other, after.edge? other
        = if other = edge then some { found with target := target } else graph.edge? other := by
  have htargetOf : graph.targetOf edge = some found.target := by
    rw [targetOf, hedge]
    rfl
  obtain ⟨after, hrun, hcut, hout, hinto, hedges⟩ :=
    retargetEdge_run hedge (h.target_isSome htargetOf) htarget
  refine ⟨after, hrun, hcut, ⟨fun id other => ?_, fun id other => ?_⟩, hedges⟩
  · have hsource : after.sourceOf other = graph.sourceOf other := by
      rw [sourceOf, sourceOf, hedges]
      split
      next he => rw [he, hedge]; rfl
      next => rfl
    rw [hout, hsource, h.out]
  · have hold := h.into id other
    rw [hinto, targetOf, hedges, List.count_append]
    by_cases he : other = edge
    · -- struck from the old list, if that is the list in question, and put into the new one
      subst he
      have hstruck : (if id = found.target then (graph.intoOf id).filter (· != other)
          else graph.intoOf id).count other = 0 := by
        split
        next => exact List.count_eq_zero.mpr (by simp)
        next hne =>
          rw [hold, htargetOf, if_neg]
          rintro ⟨⟩
          exact hne rfl
      rw [hstruck, if_pos rfl]
      grind
    · have hkept : (if id = found.target then (graph.intoOf id).filter (· != edge)
          else graph.intoOf id).count other = (graph.intoOf id).count other := by
        split
        next => exact List.count_filter (by simpa using he)
        next => rfl
      rw [hkept, hold, if_neg he, targetOf]
      grind

/-! ## Tags -/

/-- To change a block without its tag keeps all tags. -/
theorem updateBlock_kind? {f : Block → Block} (hf : ∀ block, (f block).kind = block.kind) :
    Keeps (fun s t : BlockGraph => t.kind? = s.kind?) (updateBlock id f) := by
  intro graph u after h
  rw [(updateBlock_ok.mp h).2]
  exact kind?_withBlock_kept hf

/-- To draw an edge changes no tag. -/
theorem addEdge_kind? {kind : EdgeKind} :
    Keeps (fun s t : BlockGraph => t.kind? = s.kind?) (addEdge source target kind) := by
  have hr : StepRelation fun s t : BlockGraph => t.kind? = s.kind? := ⟨fun _ => rfl, fun h k => k.trans h⟩
  refine Keeps.bind hr (Keeps.of_state_eq hr fun h => (block_ok.mp h).2) fun _ => ?_
  refine Keeps.bind hr (Keeps.of_state_eq hr fun h => (block_ok.mp h).2) fun _ => ?_
  refine Keeps.bind hr (Keeps.get hr) fun _ => Keeps.bind hr (fun s _ t h => ?_) fun _ => ?_
  · rw [modify_ok.mp h]
    rfl
  · refine Keeps.bind hr (updateBlock_kind? fun _ => rfl) fun _ => ?_
    exact Keeps.bind hr (updateBlock_kind? fun _ => rfl) fun _ => Keeps.pure hr _

/-- To retarget an edge changes no tag. -/
theorem retargetEdge_kind? : Keeps (fun s t : BlockGraph => t.kind? = s.kind?) (retargetEdge edge target) := by
  have hr : StepRelation fun s t : BlockGraph => t.kind? = s.kind? := ⟨fun _ => rfl, fun h k => k.trans h⟩
  refine Keeps.bind hr (Keeps.of_state_eq hr fun h => (block_ok.mp h).2) fun _ => ?_
  refine Keeps.bind hr (Keeps.of_state_eq hr fun h => (edge_ok.mp h).2) fun _ => ?_
  refine Keeps.bind hr (updateBlock_kind? fun _ => rfl) fun _ => ?_
  refine Keeps.bind hr (updateBlock_kind? fun _ => rfl) fun _ => fun s _ t h => ?_
  rw [(updateEdge_ok.mp h).2]
  rfl

end GraphM

end Splice
