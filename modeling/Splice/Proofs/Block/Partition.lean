import Splice.Proofs.Block.Sequence
import Splice.Proofs.Block.Tree

/-!
# Blocks as a partition of the code

The blocks of a graph cut the code into runs. `Cuts graph parts` says that the graph is the
one of the runs `parts`, in this order: each block has the bounds and the count of its run
and knows both neighbours, the ends are the head and the tail, and the tree is sound for
the names of the blocks.

To cut a block is to put two parts in the place of one (`Halved.cuts`).

`Cuts` is the invariant that all later modules on blocks go by: a list of parts, each with the
name of a block and its run, in the order of the code. It can be told for a segment of blocks
between two others (`Segment`), so a cut is proved right at one place of the list with the rest
untouched. The edges are followed next to it: those that enter a block enter its first half
afterwards, those that leave it leave its second half (`Parted.wired`).
-/

namespace Splice

/-- The run of instructions that a block stands for. -/
structure Part where
  id : BlockId
  run : List InstrId

namespace Part

/-- The code that is cut into parts. -/
def code (parts : List Part) : List InstrId := parts.flatMap (·.run)

/-- The instructions that parts begin with. -/
def starts (parts : List Part) : List InstrId := parts.filterMap (·.run.head?)

variable {parts ps qs : List Part} {part : Part} {first x : InstrId} {rest front behind us : List InstrId}

theorem code_append : code (ps ++ qs) = code ps ++ code qs := List.flatMap_append

theorem code_cons : code (part :: parts) = part.run ++ code parts := List.flatMap_cons

theorem starts_append : starts (ps ++ qs) = starts ps ++ starts qs := List.filterMap_append

theorem mem_code : x ∈ code parts ↔ ∃ part ∈ parts, x ∈ part.run := List.mem_flatMap

theorem mem_starts : x ∈ starts parts ↔ ∃ part ∈ parts, part.run.head? = some x := List.mem_filterMap

theorem starts_subset (h : x ∈ starts parts) : x ∈ code parts := by
  obtain ⟨part, hpart, hhead⟩ := mem_starts.mp h
  exact mem_code.mpr ⟨part, hpart, List.mem_of_head? hhead⟩

/-- No instruction is in two parts. -/
theorem eq_of_mem {other : Part} (hnodup : (code parts).Nodup) (hpart : part ∈ parts) (hother : other ∈ parts)
    (hx : x ∈ part.run) (hx' : x ∈ other.run) : part = other := by
  obtain ⟨ps, qs, rfl⟩ := List.append_of_mem hpart
  rw [code_append, code_cons, List.nodup_append, List.nodup_append] at hnodup
  obtain ⟨-, ⟨-, -, hbehind⟩, hfront⟩ := hnodup
  rcases List.mem_append.mp hother with hin | hin
  · exact absurd rfl (hfront x (mem_code.mpr ⟨other, hin, hx'⟩) x (List.mem_append_left _ hx))
  · rcases List.mem_cons.mp hin with rfl | hin
    · rfl
    · exact absurd rfl (hbehind x hx x (mem_code.mpr ⟨other, hin, hx'⟩))

/-- Where no part is empty, the code begins with the first part. -/
theorem head?_code (h : ∀ part ∈ parts, part.run ≠ []) : (code parts).head? = (starts parts).head? := by
  cases parts with
  | nil => rfl
  | cons part parts =>
    obtain ⟨first, rest, hrun⟩ := List.exists_cons_of_ne_nil (h part (List.mem_cons_self ..))
    rw [code_cons, starts, List.filterMap_cons, hrun]
    rfl

/-- No part begins inside of another. -/
theorem not_mem_starts (hnodup : (code parts).Nodup) (hpart : part ∈ parts) (hrun : part.run = first :: rest)
    (hx : x ∈ rest) : x ∉ starts parts := by
  obtain ⟨ps, qs, rfl⟩ := List.append_of_mem hpart
  rw [code_append, code_cons, hrun, List.nodup_append, List.cons_append, List.nodup_cons,
    List.nodup_append] at hnodup
  obtain ⟨-, ⟨hfirst, -, -, hrest⟩, hfront⟩ := hnodup
  rw [starts_append, starts, starts, List.filterMap_cons, hrun, List.head?_cons, List.mem_append,
    List.mem_cons]
  rintro (hmem | rfl | hmem)
  · exact hfront x (starts_subset hmem) x
      (List.mem_cons_of_mem _ (List.mem_append_left _ hx)) rfl
  · exact hfirst (List.mem_append_left _ hx)
  · exact hrest x hx x (starts_subset hmem) rfl

/-- A part does not reach over an instruction that another part begins with. -/
theorem run_subset (hnodup : (code parts).Nodup) (hpart : part ∈ parts) (hhead : part.run.head? = some first)
    (hcode : code parts = us ++ (first :: rest) ++ behind)
    (hbehind : ∀ x, behind.head? = some x → x ∈ starts parts) : part.run ⊆ first :: rest := by
  obtain ⟨ps, qs, rfl⟩ := List.append_of_mem hpart
  obtain ⟨inner, hrun⟩ : ∃ inner, part.run = first :: inner := List.head?_eq_some_iff.mp hhead
  have hinner : inner ++ code qs = rest ++ behind := by
    rw [code_append, code_cons, hrun, List.cons_append, List.append_assoc, List.cons_append] at hcode
    exact (cut_inj (by rw [← hcode, ← List.cons_append, ← hrun, ← code_cons, ← code_append]; exact hnodup)
      hcode.symm).2
  rw [hrun]
  refine List.cons_subset_cons _ ?_
  rcases List.append_eq_append_iff.mp hinner with ⟨cut, hrest, -⟩ | ⟨cut, hin, hcut⟩
  · rw [hrest]
    exact List.subset_append_left ..
  · cases cut with
    | nil => rw [hin, List.append_nil]; exact List.Subset.refl _
    | cons y cut =>
      have hstart := hbehind y (by rw [hcut]; rfl)
      exact absurd hstart (not_mem_starts hnodup hpart hrun (by rw [hin]; simp))

end Part

/-- The bounds are those of a run between two blocks. -/
structure Bounds.Fits (bounds : Bounds) (run : List InstrId) (prev next : Option BlockId) : Prop where
  first : run.head? = some bounds.first
  last : run.getLast? = some bounds.last
  count : bounds.count = run.length
  prev : bounds.prev = prev
  next : bounds.next = next

namespace BlockGraph

/-- The blocks of a list have the bounds of their runs and are linked in this order, the first of them
back to `prev` and the last of them on to `next`. -/
def Segment (graph : BlockGraph) : (prev : Option BlockId) → List Part → (next : Option BlockId) → Prop
  | _, [], _ => True
  | prev, part :: rest, next =>
    (∃ bounds, graph.bounds? part.id = some bounds
        ∧ bounds.Fits part.run prev ((rest.head?.map (·.id)).or next))
      ∧ Segment graph (some part.id) rest next

/-- The blocks are the runs of `parts`, in this order. -/
structure Cuts (graph : BlockGraph) (parts : List Part) : Prop where
  blocks : graph.Segment none parts none
  head : graph.head = parts.head?.map (·.id)
  tail : graph.tail = parts.getLast?.map (·.id)
  tree : graph.tree.Sound (parts.map (·.id))
  listed : ∀ id, (graph.block? id).isSome → id ∈ parts.map (·.id)

variable {graph after : BlockGraph} {parts ps qs : List Part} {part : Part} {prev next : Option BlockId}
  {id new : BlockId} {run front back : List InstrId}

/-! ## Segments -/

/-- A segment of blocks can be cut at any place: the last block of the first part leads to the first one
of the second, and back. -/
theorem segment_append : graph.Segment prev (ps ++ qs) next
    ↔ graph.Segment prev ps ((qs.head?.map (·.id)).or next)
      ∧ graph.Segment ((ps.getLast?.map (·.id)).or prev) qs next := by
  induction ps generalizing prev with
  | nil => simp [Segment]
  | cons part ps ih =>
    have hhead : ((ps ++ qs).head?.map (·.id)).or next
        = (ps.head?.map (·.id)).or ((qs.head?.map (·.id)).or next) := by
      cases ps <;> simp
    have hlast : ((part :: ps).getLast?.map (·.id)).or prev
        = (ps.getLast?.map (·.id)).or (some part.id) := by
      cases hps : ps.getLast? <;> simp [List.getLast?_cons, hps]
    simp only [List.cons_append, Segment, ih, hhead, hlast, and_assoc]

/-- Blocks that keep their bounds form the same segment. -/
theorem Segment.congr (h : graph.Segment prev ps next)
    (hsame : ∀ part ∈ ps, after.bounds? part.id = graph.bounds? part.id) :
    after.Segment prev ps next := by
  induction ps generalizing prev with
  | nil => trivial
  | cons part ps ih =>
    obtain ⟨⟨bounds, hbounds, hfits⟩, hrest⟩ := h
    exact ⟨⟨bounds, by rw [hsame part (List.mem_cons_self ..), hbounds], hfits⟩,
      ih hrest fun other hother => hsame other (List.mem_cons_of_mem _ hother)⟩

theorem Segment.bounds (h : graph.Segment prev (ps ++ part :: qs) next) :
    ∃ bounds, graph.bounds? part.id = some bounds ∧ bounds.Fits part.run
      ((ps.getLast?.map (·.id)).or prev) ((qs.head?.map (·.id)).or next) :=
  (segment_append.mp h).2.1

/-- A graph that cuts the code in the same places cuts it into the same runs. -/
theorem Cuts.congr (h : graph.Cuts parts) (hsame : graph.SameCut after) : after.Cuts parts where
  blocks := h.blocks.congr fun part _ => hsame.bounds part.id
  head := hsame.head.trans h.head
  tail := hsame.tail.trans h.tail
  tree := hsame.tree ▸ h.tree
  listed id hid := h.listed id (by rwa [hsame.isSome] at hid)

namespace Cuts

/-- A block of the list has the bounds of its run, between the neighbours in the list. -/
theorem bounds (h : graph.Cuts (ps ++ ⟨id, run⟩ :: qs)) :
    ∃ block, graph.block? id = some block ∧ block.bounds.Fits run (ps.getLast?.map (·.id))
      (qs.head?.map (·.id)) := by
  obtain ⟨bounds, hbounds, hfits⟩ := h.blocks.bounds
  obtain ⟨block, hblock, rfl⟩ := Option.map_eq_some_iff.mp hbounds
  refine ⟨block, hblock, ?_⟩
  simpa using hfits

theorem nodup (h : graph.Cuts parts) : (parts.map (·.id)).Nodup := h.tree.nodup

/-- The blocks of the list are there. -/
theorem isSome (h : graph.Cuts parts) (hpart : part ∈ parts) : (graph.block? part.id).isSome := by
  obtain ⟨id, run⟩ := part
  obtain ⟨ps, qs, rfl⟩ := List.append_of_mem hpart
  obtain ⟨block, hblock, -⟩ := h.bounds
  rw [hblock]
  rfl

/-- Every block has its run. -/
theorem part_of (h : graph.Cuts parts) (hid : (graph.block? id).isSome) :
    ∃ ps run qs, parts = ps ++ ⟨id, run⟩ :: qs := by
  obtain ⟨part, hpart, rfl⟩ := List.mem_map.mp (h.listed id hid)
  obtain ⟨ps, qs, rfl⟩ := List.append_of_mem hpart
  exact ⟨ps, part.run, qs, rfl⟩

/-- The name of the next new block is not taken. -/
theorem fresh (h : graph.Cuts parts) : (⟨graph.blocks.size⟩ : BlockId) ∉ parts.map (·.id) := by
  intro hmem
  obtain ⟨part, hpart, hid⟩ := List.mem_map.mp hmem
  have hsome := h.isSome hpart
  rw [hid, block?_fresh] at hsome
  cases hsome

/-- No block is empty. -/
theorem run_ne_nil (h : graph.Cuts parts) (hpart : part ∈ parts) : part.run ≠ [] := by
  obtain ⟨id, run⟩ := part
  obtain ⟨ps, qs, rfl⟩ := List.append_of_mem hpart
  obtain ⟨block, -, hfits⟩ := h.bounds
  intro hnil
  have hfirst : run.head? = some block.first := hfits.first
  rw [show run = [] from hnil] at hfirst
  cases hfirst

/-- The names of the other parts. -/
theorem ne (h : graph.Cuts (ps ++ ⟨id, run⟩ :: qs)) {other : Part} (hother : other ∈ ps ∨ other ∈ qs) :
    other.id ≠ id := by
  have hnodup := h.nodup
  rw [List.map_append, List.map_cons] at hnodup
  have hnot := not_mem_of_nodup hnodup
  intro he
  rw [← he, List.mem_append] at hnot
  rcases hother with hin | hin
  · exact hnot (.inl (List.mem_map.mpr ⟨other, hin, rfl⟩))
  · exact hnot (.inr (List.mem_map.mpr ⟨other, hin, rfl⟩))

/-- No two parts have one name. -/
theorem eq_of_id {other : Part} (h : graph.Cuts parts) (hpart : part ∈ parts) (hother : other ∈ parts)
    (hid : part.id = other.id) : part = other := by
  obtain ⟨ps, qs, rfl⟩ := List.append_of_mem hpart
  rw [List.mem_append, List.mem_cons] at hother
  rcases hother with hin | rfl | hin
  · exact absurd hid.symm (h.ne (.inl hin))
  · rfl
  · exact absurd hid.symm (h.ne (.inr hin))

/-- The blocks of a segment are neighbours in the order of the list. -/
theorem neighbours {parts : List Part} {prev : Option BlockId} (h : graph.Segment prev parts none) :
    graph.Neighbours prev (parts.map (·.id)) := by
  induction parts generalizing prev with
  | nil => trivial
  | cons part rest ih =>
    obtain ⟨⟨bounds, hbounds, hfits⟩, hrest⟩ := h
    obtain ⟨block, hblock, rfl⟩ := Option.map_eq_some_iff.mp hbounds
    refine ⟨⟨block, hblock, hfits.prev, hfits.next.trans ?_⟩, ih hrest⟩
    rw [Option.or_none, List.head?_map]

/-- The blocks come in the order of the parts. -/
theorem sequenced (h : graph.Cuts parts) : graph.Sequenced (parts.map (·.id)) where
  nodup := h.nodup
  neighbours := neighbours h.blocks
  head := by rw [h.head, List.head?_map]
  tail := by rw [h.tail, List.getLast?_map]
  listed := h.listed

/-- The blocks in the order of the code are those of the parts. -/
theorem ids (h : graph.Cuts parts) : graph.ids = parts.map (·.id) := h.sequenced.ids

/-- A block takes on the run that it is given, between the same neighbours. -/
theorem update {f : Block → Block} {run' : List InstrId} (h : graph.Cuts (ps ++ ⟨id, run⟩ :: qs))
    (hf : ∀ block : Block, block.bounds.Fits run (ps.getLast?.map (·.id)) (qs.head?.map (·.id)) →
      (f block).bounds.Fits run' (ps.getLast?.map (·.id)) (qs.head?.map (·.id))) :
    (graph.withBlock id f).Cuts (ps ++ ⟨id, run'⟩ :: qs) := by
  obtain ⟨block, hblock, hfits⟩ := h.bounds
  obtain ⟨hps, -, hqs⟩ := segment_append.mp h.blocks
  have hother : ∀ part, part ∈ ps ∨ part ∈ qs →
      (graph.withBlock id f).bounds? part.id = graph.bounds? part.id := by
    intro part hpart
    rw [BlockGraph.bounds?, BlockGraph.bounds?, block?_withBlock, if_neg (h.ne hpart)]
  have hnames : (ps ++ ⟨id, run'⟩ :: qs).map (·.id) = (ps ++ ⟨id, run⟩ :: qs).map (·.id) := by simp
  refine ⟨segment_append.mpr ⟨hps.congr fun part hpart => hother part (.inl hpart),
    ⟨(f block).bounds, ?_, by simpa using hf block hfits⟩,
    hqs.congr fun part hpart => hother part (.inr hpart)⟩, ?_, ?_, hnames ▸ h.tree, fun other hsome => ?_⟩
  · rw [BlockGraph.bounds?, block?_withBlock, if_pos rfl, hblock]
    rfl
  · rw [← List.head?_map, hnames, List.head?_map]
    exact h.head
  · rw [← List.getLast?_map, hnames, List.getLast?_map]
    exact h.tail
  · rw [isSome_withBlock] at hsome
    exact hnames ▸ h.listed other hsome

/-- A block that is not there yet is none of the parts. -/
theorem ne_new (h : graph.Cuts parts) (hnew : graph.block? new = none) (hpart : part ∈ parts) :
    part.id ≠ new := by
  rintro rfl
  have hsome := h.isSome hpart
  rw [hnew] at hsome
  cases hsome

end Cuts

end BlockGraph

/-! ## Cutting -/

namespace Block

/-- The block up to where it is cut, in front of the block `new`. -/
def firstHalf (block : Block) (count : Nat) (headLast : InstrId) (new : BlockId) : Block :=
  { block with
    outEdges := []
    last := headLast
    count := count
    kind := ⟨block.kind.isHeader, false⟩
    next := some new }

/-- The block from where it is cut on, behind the block `id`. -/
def secondHalf (block : Block) (count : Nat) (tailFirst : InstrId) (id : BlockId) : Block where
  first := tailFirst
  last := block.last
  count := block.count - count
  kind := ⟨false, block.kind.isFooter⟩
  inEdges := []
  outEdges := block.outEdges
  func := block.func
  prev := some id
  next := block.next

end Block

/-- The edge from `new` on, if it left the block `id`. -/
def Edge.leaving (id new : BlockId) (edge : Edge) : Edge :=
  { edge with source := if edge.source = id then new else edge.source }

/-- A block `id` was cut in two, so that the runs are `parts`, and the second half `new` took its
outgoing edges. -/
structure BlockGraph.Severed (graph after : BlockGraph) (id new : BlockId) (parts : List Part) :
    Prop where
  cuts : after.Cuts parts
  wired : after.Wired
  sections : after.sections = graph.sections
  edge? : ∀ edge, after.edge? edge = (graph.edge? edge).map (.leaving id new)

namespace GraphM

open BlockGraph

variable {graph : BlockGraph} {ps qs : List Part} {id new : BlockId} {front back : List InstrId}

/-- The edges of a list are made to leave another block. -/
theorem moveSources_run {edges : List EdgeId} (h : ∀ edge ∈ edges, (graph.edge? edge).isSome) :
    ∃ moved, edges.forM (fun edge => updateEdge edge fun edge => { edge with source := new }) graph
        = .ok () { graph with edges := moved }
      ∧ ∀ edge, ({ graph with edges := moved } : BlockGraph).edge? edge
        = if edge ∈ edges then (graph.edge? edge).map fun edge => { edge with source := new }
          else graph.edge? edge := by
  induction edges generalizing graph with
  | nil => exact ⟨graph.edges, rfl, fun edge => (if_neg List.not_mem_nil).symm⟩
  | cons first edges ih =>
    have hfirst := h first (List.mem_cons_self ..)
    obtain ⟨moved, hrun, hmoved⟩ := @ih (graph.withEdge first fun edge => { edge with source := new })
      fun edge hedge => by
        rw [edge?_withEdge]
        split
        · rwa [Option.isSome_map]
        · exact h edge (List.mem_cons_of_mem _ hedge)
    refine ⟨moved, forM_cons_ok.mpr ⟨_, updateEdge_ok.mpr ⟨hfirst, rfl⟩, hrun⟩, fun edge => ?_⟩
    have hedge := hmoved edge
    rw [edge?_withEdge] at hedge
    refine Eq.trans hedge ?_
    by_cases he : edge = first
    · subst he
      cases graph.edge? edge <;> simp
    · simp [he]

/-- What cutting a block in two leaves of each block, but for the one in front of it, and of each edge:
`first` and `second` are the halves. -/
structure Parted (graph after : BlockGraph) (id new : BlockId) (block first second : Block) : Prop where
  map_block? : ∀ {β : Type} (k : Block → β), (∀ block prev, k { block with prev := prev } = k block) →
    ∀ other, (after.block? other).map k
      = if other = new then some (k second) else if other = id then some (k first)
        else (graph.block? other).map k
  edge? : ∀ edge, after.edge? edge
    = if edge ∈ block.outEdges then (graph.edge? edge).map fun edge => { edge with source := new }
      else graph.edge? edge

/-- What it leaves of each block with its neighbours. -/
structure Halved (graph after : BlockGraph) (id new : BlockId) (block first second : Block) : Prop where
  block? : ∀ other, after.block? other
    = if other = new then some second else if other = id then some first
      else if block.next = some other then
        (graph.block? other).map fun block => { block with prev := some new }
      else graph.block? other
  edge? : ∀ edge, after.edge? edge
    = if edge ∈ block.outEdges then (graph.edge? edge).map fun edge => { edge with source := new }
      else graph.edge? edge
  head : after.head = graph.head
  tail : after.tail = if block.next.isSome then graph.tail else some new
  sections : after.sections = graph.sections

/-- What halving leaves of each block and edge, without the neighbours: this is all that the edges depend
on. -/
theorem Halved.parted {after : BlockGraph} {block first second : Block}
    (h : Halved graph after id new block first second) : Parted graph after id new block first second where
  map_block? k hk other := by
    rw [h.block?]
    split
    next => rfl
    next =>
      split
      next => rfl
      next =>
        split
        next => rw [Option.map_map]; exact congrArg (Option.map · _) (funext fun block => hk block _)
        next => rfl
  edge? := h.edge?

/-- The edges that a block lists are those that leave it. -/
theorem mem_outEdges_iff {block : Block} (hwired : graph.Wired)
    (hblock : graph.block? id = some block) (edge : EdgeId) :
    edge ∈ block.outEdges ↔ graph.sourceOf edge = some id := by
  have hlist : graph.outOf id = block.outEdges := by
    rw [outOf, hblock]
    rfl
  rw [← hlist, ← List.count_pos_iff, hwired.out]
  split <;> simp [*]

/-- Each edge that left the block leaves its second half now. -/
theorem Parted.leaving {after : BlockGraph} {block first second : Block}
    (h : Parted graph after id new block first second) (hwired : graph.Wired)
    (hblock : graph.block? id = some block) (edge : EdgeId) :
    after.edge? edge = (graph.edge? edge).map (.leaving id new) := by
  rw [h.edge?]
  have hmem := mem_outEdges_iff hwired hblock edge
  unfold sourceOf at hmem
  cases hedge : graph.edge? edge with
  | none => simp
  | some found =>
    rw [hedge, Option.map_some, Option.some.injEq] at hmem
    by_cases hsource : found.source = id
    · simp [hmem.mpr hsource, Edge.leaving, hsource]
    · simp [mt hmem.mp hsource, Edge.leaving, hsource]

/-- When a block is parted, the edges into it enter its first half and those out of it leave its second
half, so every edge is still listed at both of its ends. The cases are those of the block that lists the
edge: a half, or one that was not touched. -/
theorem Parted.wired {after : BlockGraph} {block first second : Block}
    (h : Parted graph after id new block first second) (hwired : graph.Wired)
    (hblock : graph.block? id = some block) (hnew : graph.block? new = none)
    (hfirst : first.outEdges = [] ∧ first.inEdges = block.inEdges)
    (hsecond : second.outEdges = block.outEdges ∧ second.inEdges = []) : after.Wired := by
  have hne : id ≠ new := by
    rintro rfl
    rw [hblock] at hnew
    cases hnew
  have hmem : ∀ edge, edge ∈ block.outEdges ↔ graph.sourceOf edge = some id :=
    mem_outEdges_iff hwired hblock
  have hsource : ∀ edge, after.sourceOf edge
      = if graph.sourceOf edge = some id then some new else graph.sourceOf edge := by
    intro edge
    rw [sourceOf, h.edge?]
    by_cases hedge : edge ∈ block.outEdges
    · have hid := (hmem edge).mp hedge
      rw [if_pos hedge, if_pos hid]
      obtain ⟨found, hfound, -⟩ := Option.map_eq_some_iff.mp hid
      rw [hfound]
      rfl
    · rw [if_neg hedge, if_neg fun hid => hedge ((hmem edge).mpr hid)]
      rfl
  have htarget : ∀ edge, after.targetOf edge = graph.targetOf edge := by
    intro edge
    rw [targetOf, h.edge?]
    split
    next => rw [Option.map_map]; rfl
    next => rfl
  have hout : ∀ other, after.outOf other
      = if other = new then graph.outOf id else if other = id then [] else graph.outOf other := by
    intro other
    rw [outOf, h.map_block? (·.outEdges) fun _ _ => rfl]
    split
    next => simp [hsecond.1, outOf, hblock]
    next =>
      split
      next => simp [hfirst.1]
      next => rfl
  have hinto : ∀ other, after.intoOf other = graph.intoOf other := by
    intro other
    rw [intoOf, h.map_block? (·.inEdges) fun _ _ => rfl]
    split
    next he => rw [he, intoOf, hnew]; simp [hsecond.2]
    next =>
      split
      next he => rw [he, intoOf, hblock]; simp [hfirst.2]
      next => rfl
  -- an edge that left the new block before would be counted twice
  have hnowhere : ∀ edge, graph.sourceOf edge ≠ some new := by
    intro edge hedge
    have hsome := hwired.source_isSome hedge
    rw [hnew] at hsome
    cases hsome
  refine ⟨fun other edge => ?_, fun other edge => ?_⟩
  · have hold := hwired.out other edge
    have hold' := hwired.out id edge
    have hnot := hnowhere edge
    rw [hout, hsource]
    grind
  · rw [hinto, htarget, hwired.into]

theorem Halved.bounds?_of_ne {after : BlockGraph} {block first second : Block} {part : Part}
    (h : Halved graph after id new block first second) (hnew : part.id ≠ new) (hid : part.id ≠ id)
    (hnext : block.next ≠ some part.id) : after.bounds? part.id = graph.bounds? part.id := by
  rw [bounds?, bounds?, h.block?, if_neg hnew, if_neg hid, if_neg hnext]

/-- What comes directly behind is told that the second half is in front of it now. -/
theorem Halved.segment_behind {after : BlockGraph} {block first second : Block} {prev next : Option BlockId}
    (h : Halved graph after id new block first second) (hnext : block.next = qs.head?.map (·.id))
    (hnodup : (qs.map (·.id)).Nodup) (hnew : ∀ part ∈ qs, part.id ≠ new) (hid : ∀ part ∈ qs, part.id ≠ id)
    (hqs : graph.Segment prev qs next) : after.Segment (some new) qs next := by
  cases qs with
  | nil => trivial
  | cons q qs =>
    obtain ⟨⟨bounds, hbounds, hq⟩, hrest⟩ := hqs
    obtain ⟨found, hfound, rfl⟩ := Option.map_eq_some_iff.mp hbounds
    have hqnext : block.next = some q.id := hnext
    refine ⟨⟨{ found.bounds with prev := some new }, ?_, hq.first, hq.last, hq.count, rfl, hq.next⟩,
      hrest.congr fun part hpart => ?_⟩
    · rw [bounds?, h.block?, if_neg (hnew q (List.mem_cons_self ..)), if_neg (hid q (List.mem_cons_self ..)),
        if_pos hqnext, hfound]
      rfl
    · have hmem := List.mem_cons_of_mem q hpart
      have hother : block.next ≠ some part.id := by
        rw [hqnext]
        intro he
        rw [List.map_cons, List.nodup_cons] at hnodup
        exact hnodup.1 (Option.some.inj he ▸ List.mem_map_of_mem hpart)
      exact h.bounds?_of_ne (hnew part hmem) (hid part hmem) hother

/-- Besides the new block, only what was there is. -/
theorem Halved.isSome_of_ne {after : BlockGraph} {block first second : Block} {other : BlockId}
    (h : Halved graph after id new block first second) (hblock : graph.block? id = some block)
    (hother : other ≠ new) (hsome : (after.block? other).isSome) : (graph.block? other).isSome := by
  rw [h.block?, if_neg hother] at hsome
  split at hsome
  next he => rw [he, hblock]; rfl
  next =>
    split at hsome
    next => rwa [Option.isSome_map] at hsome
    next => exact hsome

/-- When a block is halved, the graph cuts the code as before but for one more cut. The blocks in front of
it and behind it are met again with one link changed each, so the segments to both sides are carried over
apart. -/
theorem Halved.cuts {after : BlockGraph} {block first second : Block}
    (h : Halved graph after id new block first second)
    (hcuts : graph.Cuts (ps ++ ⟨id, front ++ back⟩ :: qs)) (hblock : graph.block? id = some block)
    (hnew : graph.block? new = none)
    (hfirst : first.bounds.Fits front (ps.getLast?.map (·.id)) (some new))
    (hsecond : second.bounds.Fits back (some id) (qs.head?.map (·.id)))
    (htree : after.tree.Sound (ps.map (·.id) ++ id :: new :: qs.map (·.id))) :
    after.Cuts (ps ++ ⟨id, front⟩ :: ⟨new, back⟩ :: qs) := by
  obtain ⟨found, hfound, hfits⟩ := hcuts.bounds
  obtain rfl : found = block := Option.some.inj (hfound.symm.trans hblock)
  have hnext : found.next = qs.head?.map (·.id) := hfits.next
  have hne : id ≠ new := by
    rintro rfl
    rw [hblock] at hnew
    cases hnew
  -- the parts around have other names than the two halves
  have hfresh : ∀ part, part ∈ ps ∨ part ∈ qs → part.id ≠ new := by
    intro part hpart
    refine hcuts.ne_new hnew ?_
    rw [List.mem_append, List.mem_cons]
    exact hpart.imp_right .inr
  have hnodup := hcuts.nodup
  rw [List.map_append, List.map_cons, List.nodup_append] at hnodup
  obtain ⟨-, hnodup, hdisj⟩ := hnodup
  obtain ⟨hps, -, hqs⟩ := segment_append.mp hcuts.blocks
  have hfront : after.Segment none ps (some id) := by
    refine hps.congr fun part hpart => ?_
    -- what lies in front of the block does not come behind it, so it keeps its links
    have hnotNext : found.next ≠ some part.id := by
      rw [hnext]
      intro he
      obtain ⟨q, hq, hid⟩ := Option.map_eq_some_iff.mp he
      have hmem : part.id ∈ qs.map (·.id) := List.mem_map.mpr ⟨q, List.mem_of_head? hq, hid⟩
      exact hdisj _ (List.mem_map_of_mem hpart) _ (List.mem_cons_of_mem _ hmem) rfl
    exact h.bounds?_of_ne (hfresh part (.inl hpart)) (hcuts.ne (.inl hpart)) hnotNext
  have hbehind : after.Segment (some new) qs none :=
    h.segment_behind hnext hnodup.of_cons (fun part hpart => hfresh part (.inr hpart))
      (fun part hpart => hcuts.ne (.inr hpart)) hqs
  have hnames : (ps ++ ⟨id, front⟩ :: ⟨new, back⟩ :: qs).map (·.id)
      = ps.map (·.id) ++ id :: new :: qs.map (·.id) := by simp
  exact {
    blocks := by
      refine segment_append.mpr ⟨hfront, ⟨first.bounds, ?_, by simpa using hfirst⟩,
        ⟨second.bounds, ?_, by simpa using hsecond⟩, hbehind⟩
      · rw [bounds?, h.block?, if_neg hne, if_pos rfl]
        rfl
      · rw [bounds?, h.block?, if_pos rfl]
        rfl
    head := by
      rw [h.head, hcuts.head]
      cases ps <;> rfl
    tail := by
      rw [h.tail, hcuts.tail, hnext]
      cases qs with
      | nil => simp
      | cons q qs => simp [List.getLast?_append, List.getLast?_cons]
    tree := hnames ▸ htree
    listed := by
      intro other hother
      rw [hnames]
      by_cases hother' : other = new
      · simp [hother']
      · have hlisted := hcuts.listed other (h.isSome_of_ne hblock hother' hother)
        simp only [List.map_append, List.map_cons, List.mem_append, List.mem_cons] at hlisted ⊢
        grind }

/-- The block behind a new one, or the tail of the graph, is told of it. -/
theorem join_run {next : Option BlockId} (new : BlockId)
    (hnext : ∀ other, next = some other → (graph.block? other).isSome) :
    ∃ joined : BlockGraph,
      (∀ k : Unit → GraphM BlockId, (match next with
        | some next => updateBlock next (fun block => { block with prev := some new }) >>= k
        | none => modify (fun graph : BlockGraph => { graph with tail := some new }) >>= k) graph
          = k () joined)
      ∧ (∀ other, joined.block? other = if next = some other
          then (graph.block? other).map fun block => { block with prev := some new }
          else graph.block? other)
      ∧ joined.edges = graph.edges ∧ joined.head = graph.head
      ∧ joined.tail = (if next.isSome then graph.tail else some new) ∧ joined.tree = graph.tree
      ∧ joined.sections = graph.sections ∧ joined.blocks.size = graph.blocks.size := by
  cases next with
  | none =>
    exact ⟨({ graph with tail := some new } : BlockGraph), fun k => rfl,
      fun other => (if_neg (by simp)).symm, rfl, rfl, rfl, rfl, rfl, rfl⟩
  | some next =>
    refine ⟨graph.withBlock next fun block => { block with prev := some new },
      fun k => bind_run (updateBlock_ok.mpr ⟨hnext next rfl, rfl⟩), fun other => ?_, rfl, rfl, rfl, rfl, rfl,
      Array.size_modify ..⟩
    rw [block?_withBlock]
    by_cases he : other = next
    · rw [if_pos he, if_pos (congrArg some he.symm), he]
    · rw [if_neg he, if_neg fun h => he (Option.some.inj h).symm]

/-- A cut divides the block and its edges, and is done when the new block is in the tree. -/
theorem cut_placed {block : Block} (count : Nat) (headLast tailFirst : InstrId)
    (hblock : graph.block? id = some block) (hnew : new = ⟨graph.blocks.size⟩)
    (hedges : ∀ edge ∈ block.outEdges, (graph.edge? edge).isSome)
    (hnext : ∀ other, block.next = some other → other ≠ id ∧ (graph.block? other).isSome) :
    ∃ pushed, cut id block count headLast tailFirst graph
        = (do onTree (TreeM.insertAfter id new); return new : GraphM BlockId) pushed
      ∧ pushed.tree = graph.tree
      ∧ Halved graph pushed id new block (block.firstHalf count headLast new)
          (block.secondHalf count tailFirst id) := by
  -- the stages: the edges that leave are moved, the next block is told, the second half is added
  obtain ⟨moved, hmove, hmoved⟩ := @moveSources_run
    (graph.withBlock id fun block => block.firstHalf count headLast new) new block.outEdges hedges
  obtain ⟨joined, hjoin, hblocks, hkept, hhead, htail, htreeKept, hsections, hsize⟩ :=
    @join_run { graph.withBlock id fun block => block.firstHalf count headLast new with edges := moved }
      block.next new (by
        intro other hother
        show ((graph.withBlock id _).block? other).isSome
        rw [isSome_withBlock]
        exact (hnext other hother).2)
  obtain ⟨pushed, hpushed⟩ : ∃ pushed : BlockGraph, pushed
      = { joined with blocks := joined.blocks.push (block.secondHalf count tailFirst id) } := ⟨_, rfl⟩
  have hpush : ∀ other, pushed.block? other
      = if other = new then some (block.secondHalf count tailFirst id) else joined.block? other := by
    intro other
    have hsize' : joined.blocks.size = graph.blocks.size := hsize.trans (Array.size_modify ..)
    rw [hpushed, hnew, ← hsize']
    exact block?_push
  refine ⟨pushed, ?_, by rw [hpushed]; exact htreeKept, fun other => ?_, fun edge => ?_,
    hpushed ▸ hhead, hpushed ▸ htail, hpushed ▸ hsections⟩
  · refine (bind_run (get_ok.mpr ⟨rfl, rfl⟩)).trans ?_
    rw [← hnew]
    refine (bind_run (updateBlock_ok (u := ⟨⟩) |>.mpr ⟨by rw [hblock]; rfl, rfl⟩)).trans ?_
    refine (bind_run hmove).trans ((hjoin _).trans ?_)
    exact bind_run (a := ⟨⟩) (modify_ok.mpr hpushed)
  · have hold : ({ graph.withBlock id fun block => block.firstHalf count headLast new with
          edges := moved } : BlockGraph).block? other
        = if other = id then some (block.firstHalf count headLast new) else graph.block? other := by
      have hkept := @block?_withBlock graph id other fun block => block.firstHalf count headLast new
      rwa [hblock] at hkept
    rw [hpush, hblocks, hold]
    congr 1
    by_cases hother : other = id
    · rw [if_pos hother, if_pos hother, hother, if_neg fun he => (hnext id he).1 rfl]
    · rw [if_neg hother, if_neg hother]
  · have hlisted : pushed.edges = moved := by
      rw [hpushed]
      exact hkept
    rw [edge?, hlisted]
    exact hmoved edge

/-- The tree of a graph is no part of what a cut leaves of blocks and edges. -/
theorem Halved.withTree {after : BlockGraph} {block first second : Block} (tree : BlockTree)
    (h : Halved graph after id new block first second) :
    Halved graph { after with tree := tree } id new block first second :=
  ⟨h.block?, h.edge?, h.head, h.tail, h.sections⟩

/-- What cutting does to the graph, given the tree that the new block is put into. -/
theorem cut_halved {block : Block} {tree : BlockTree} (count : Nat) (headLast tailFirst : InstrId)
    (hblock : graph.block? id = some block) (hnew : new = ⟨graph.blocks.size⟩)
    (hedges : ∀ edge ∈ block.outEdges, (graph.edge? edge).isSome)
    (hnext : ∀ other, block.next = some other → other ≠ id ∧ (graph.block? other).isSome)
    (htree : TreeM.insertAfter id new graph.tree = .ok () tree) :
    ∃ after, cut id block count headLast tailFirst graph = .ok new after ∧ after.tree = tree
      ∧ Halved graph after id new block (block.firstHalf count headLast new)
          (block.secondHalf count tailFirst id) := by
  obtain ⟨pushed, hrun, hkept, hhalved⟩ := cut_placed count headLast tailFirst hblock hnew hedges hnext
  have hplaced : onTree (TreeM.insertAfter id new) pushed = .ok () { pushed with tree := tree } := by
    refine onTree_ok.mpr ⟨tree, ?_, rfl⟩
    rw [hkept]
    exact htree
  exact ⟨{ pushed with tree := tree }, hrun.trans ((bind_run (a := ⟨⟩) hplaced).trans rfl), rfl,
    hhalved.withTree tree⟩

/-- A cut of a block goes through, wherever it is said to be. -/
theorem cut_succeeds {run : List InstrId} {block : Block} (hcuts : graph.Cuts (ps ++ ⟨id, run⟩ :: qs))
    (hwired : graph.Wired) (hblock : graph.block? id = some block) (count : Nat) (headLast tailFirst : InstrId) :
    ∃ after, cut id block count headLast tailFirst graph = .ok ⟨graph.blocks.size⟩ after
      ∧ after.tree.Sound (ps.map (·.id) ++ id :: ⟨graph.blocks.size⟩ :: qs.map (·.id))
      ∧ Halved graph after id ⟨graph.blocks.size⟩ block
        (block.firstHalf count headLast ⟨graph.blocks.size⟩) (block.secondHalf count tailFirst id) := by
  obtain ⟨found, hfound, hfits⟩ := hcuts.bounds
  obtain rfl : found = block := Option.some.inj (hfound.symm.trans hblock)
  have hedges : ∀ edge ∈ found.outEdges, (graph.edge? edge).isSome := by
    intro edge hedge
    have hsource : graph.sourceOf edge = some id :=
      hwired.mem_out (by rw [outOf, hblock]; exact hedge)
    obtain ⟨_, hget, -⟩ := Option.map_eq_some_iff.mp hsource
    rw [hget]
    rfl
  have hnext : ∀ other, found.next = some other → other ≠ id ∧ (graph.block? other).isSome := by
    intro other hother
    obtain ⟨q, hq, rfl⟩ := Option.map_eq_some_iff.mp (hfits.next.symm.trans hother)
    exact ⟨hcuts.ne (.inr (List.mem_of_head? hq)),
      hcuts.isSome (List.mem_append_right _ (List.mem_cons_of_mem _ (List.mem_of_head? hq)))⟩
  have hnames : (ps ++ ⟨id, run⟩ :: qs).map (·.id) = ps.map (·.id) ++ id :: qs.map (·.id) := by simp
  obtain ⟨tree, hinsert, htree⟩ :=
    BlockTree.Sound.insertAfter (hnames ▸ hcuts.tree) (hnames ▸ hcuts.fresh)
  obtain ⟨after, hrun, rfl, hhalved⟩ := cut_halved count headLast tailFirst hblock rfl hedges hnext hinsert
  exact ⟨after, hrun, htree, hhalved⟩

/-- A block that is cut keeps its name for its first half and hands its outgoing edges to a new block,
which takes the second half. -/
theorem cut_run {block : Block} {headLast tailFirst : InstrId}
    (hcuts : graph.Cuts (ps ++ ⟨id, front ++ back⟩ :: qs)) (hwired : graph.Wired)
    (hblock : graph.block? id = some block) (hfront : front.getLast? = some headLast)
    (hback : back.head? = some tailFirst) :
    ∃ after, cut id block front.length headLast tailFirst graph = .ok ⟨graph.blocks.size⟩ after
      ∧ graph.Severed after id ⟨graph.blocks.size⟩
        (ps ++ ⟨id, front⟩ :: ⟨⟨graph.blocks.size⟩, back⟩ :: qs)
      ∧ Halved graph after id ⟨graph.blocks.size⟩ block
        (block.firstHalf front.length headLast ⟨graph.blocks.size⟩)
        (block.secondHalf front.length tailFirst id) := by
  obtain ⟨found, hfound, hfits⟩ := hcuts.bounds
  obtain rfl : found = block := Option.some.inj (hfound.symm.trans hblock)
  have hfresh : graph.block? ⟨graph.blocks.size⟩ = none := block?_fresh
  obtain ⟨after, hrun, htree, hhalved⟩ :=
    cut_succeeds hcuts hwired hblock front.length headLast tailFirst
  have hcount := hfits.count
  rw [List.length_append] at hcount
  have hfirst : (found.firstHalf front.length headLast ⟨graph.blocks.size⟩).bounds.Fits front
      (ps.getLast?.map (·.id)) (some ⟨graph.blocks.size⟩) := by
    have hstart := hfits.first
    have hne : front ≠ [] := fun he => by
      rw [he] at hfront
      cases hfront
    rw [List.head?_append, Option.or_of_isSome (List.isSome_head?.mpr hne)] at hstart
    exact ⟨hstart, hfront, rfl, hfits.prev, rfl⟩
  have hsecond : (found.secondHalf front.length tailFirst id).bounds.Fits back (some id)
      (qs.head?.map (·.id)) := by
    have hstop := hfits.last
    have hne : back ≠ [] := fun he => by
      rw [he] at hback
      cases hback
    rw [List.getLast?_append, Option.or_of_isSome (List.getLast?_isSome.mpr hne)] at hstop
    refine ⟨hback, hstop, ?_, rfl, hfits.next⟩
    · show found.bounds.count - front.length = back.length
      omega
  exact ⟨after, hrun, ⟨hhalved.cuts hcuts hblock hfresh hfirst hsecond htree,
    hhalved.parted.wired hwired hblock hfresh ⟨rfl, rfl⟩ ⟨rfl, rfl⟩, hhalved.sections,
    hhalved.parted.leaving hwired hblock⟩, hhalved⟩

end GraphM

end Splice
