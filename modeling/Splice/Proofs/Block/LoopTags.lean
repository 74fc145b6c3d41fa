import Splice.Proofs.Block.Construction
import Splice.Proofs.Block.Entry
import Splice.Proofs.Block.Tagging

/-!
# Loop tags

Once blocks are built, every edge that closes a loop leads from a block tagged as a footer to
one tagged as a header (`LoopsTagged`, `build_loopsTagged`). Where a block is cut behind its
first instruction for jumpers to pass by, the edges that transfers make lead to the second half
and all others to the first. The tag of the header goes along with the transfers as a whole, so
it is right afterwards unless loops were closed at the block in both ways
(`Entered.loopsTagged_iff`).

Nothing is asked of the graph but that its lists of edges are right; it need not cut the code,
nor need the block be the right one.

`Mixed` is the condition on a block at which an edit would break the tags: loops are closed at
it by a transfer and by an edge that is none. It is stated on the graph before, so that it can
be asked for before the edit is made.
-/

namespace Splice

namespace BlockGraph

variable {graph after : BlockGraph} {id new source target : BlockId} {edge : EdgeId} {f : Block → Block}
  {found : Edge}

def IsHeader (graph : BlockGraph) (id : BlockId) : Prop := ∃ kind, graph.kind? id = some kind ∧ kind.isHeader = true

def IsFooter (graph : BlockGraph) (id : BlockId) : Prop := ∃ kind, graph.kind? id = some kind ∧ kind.isFooter = true

/-- Every edge that closes a loop leads from a footer to a header. -/
def LoopsTagged (graph : BlockGraph) : Prop :=
  ∀ edge found, graph.edge? edge = some found → found.direction = .back →
    graph.IsFooter found.source ∧ graph.IsHeader found.target

/-- Loops are closed at the block in both ways. -/
def Mixed (graph : BlockGraph) (id : BlockId) : Prop :=
  graph.closedBy id true = true ∧ graph.closedBy id false = true

instance (graph : BlockGraph) (id : BlockId) : Decidable (graph.Mixed id) :=
  inferInstanceAs (Decidable (_ ∧ _))

/-! ## Changes that touch neither tags nor edges -/

/-- The same edges, and for each block the same tags and the same lists of edges. -/
structure SameLinks (s t : BlockGraph) : Prop where
  edges : t.edges = s.edges
  blocks : ∀ id, (t.block? id).map (fun block => (block.kind, block.outEdges, block.inEdges))
    = (s.block? id).map fun block => (block.kind, block.outEdges, block.inEdges)

theorem SameLinks.stepRelation : StepRelation SameLinks where
  refl _ := ⟨rfl, fun _ => rfl⟩
  trans h k := ⟨k.edges.trans h.edges, fun id => (k.blocks id).trans (h.blocks id)⟩

/-- A change of a block that keeps its tag and its lists of edges keeps the links. -/
theorem withBlock_sameLinks (hf : ∀ block, (f block).kind = block.kind
    ∧ (f block).outEdges = block.outEdges ∧ (f block).inEdges = block.inEdges) :
    graph.SameLinks (graph.withBlock id f) where
  edges := rfl
  blocks other := by
    rw [block?_withBlock]
    split
    next he =>
      rw [he, Option.map_map]
      refine congrArg (Option.map · _) (funext fun block => ?_)
      rw [Function.comp_apply, (hf block).1, (hf block).2.1, (hf block).2.2]
    next => rfl

namespace SameLinks

variable (h : graph.SameLinks after)

include h

theorem kind? (id : BlockId) : after.kind? id = graph.kind? id := by
  have hsame := congrArg (Option.map (·.1)) (h.blocks id)
  rwa [Option.map_map, Option.map_map] at hsame

theorem edge? (edge : EdgeId) : after.edge? edge = graph.edge? edge := by
  rw [BlockGraph.edge?, BlockGraph.edge?, h.edges]

/-- The same links are the same wires. -/
theorem sameWires : graph.SameWires after where
  out id := by
    have hsame := congrArg (Option.map (·.2.1)) (h.blocks id)
    rw [Option.map_map, Option.map_map] at hsame
    exact congrArg (Option.getD · []) hsame
  into id := by
    have hsame := congrArg (Option.map (·.2.2)) (h.blocks id)
    rw [Option.map_map, Option.map_map] at hsame
    exact congrArg (Option.getD · []) hsame
  source edge := by rw [sourceOf, sourceOf, h.edge?]
  target edge := by rw [targetOf, targetOf, h.edge?]

theorem closedBy {transfer : Bool} (id : BlockId) :
    after.closedBy id transfer = graph.closedBy id transfer := by
  rw [BlockGraph.closedBy, BlockGraph.closedBy, h.edges]

theorem mixed (id : BlockId) : after.Mixed id ↔ graph.Mixed id := by
  rw [Mixed, Mixed, h.closedBy, h.closedBy]

theorem loopsTagged : after.LoopsTagged ↔ graph.LoopsTagged := by
  simp only [LoopsTagged, IsHeader, IsFooter, h.edge?, h.kind?]

end SameLinks

/-! ## Tagging -/

/-- Where tags are only added, loops stay tagged. -/
theorem LoopsTagged.withBlock {k : BlockKind → BlockKind} (h : graph.LoopsTagged)
    (hf : ∀ block, (f block).kind = k block.kind)
    (hk : ∀ kind, (kind.isHeader = true → (k kind).isHeader = true) ∧ (kind.isFooter = true → (k kind).isFooter = true)) :
    (graph.withBlock id f).LoopsTagged := by
  have hkept : ∀ {other kind}, graph.kind? other = some kind → ∃ kind',
      (graph.withBlock id f).kind? other = some kind'
        ∧ (kind.isHeader = true → kind'.isHeader = true) ∧ (kind.isFooter = true → kind'.isFooter = true) := by
    intro other kind hkind
    rw [kind?_withBlock hf]
    split
    next he => exact ⟨k kind, by rw [← he, hkind]; rfl, hk kind⟩
    next => exact ⟨kind, hkind, fun h => h, fun h => h⟩
  intro edge found hfound hback
  obtain ⟨⟨footer, hfooter, hfoot⟩, header, hheader, hhead⟩ := h edge found hfound hback
  obtain ⟨kind, hkind, -, hfoot'⟩ := hkept hfooter
  obtain ⟨kind', hkind', hhead', -⟩ := hkept hheader
  exact ⟨⟨kind, hkind, hfoot' hfoot⟩, kind', hkind', hhead' hhead⟩

/-- A change of an edge keeps the loops tagged if an edge that comes to lead back leads from a footer to a
header. -/
theorem LoopsTagged.withEdge {g : Edge → Edge} (h : graph.LoopsTagged)
    (hg : ∀ found, graph.edge? edge = some found →
      (g found).source = found.source ∧ (g found).target = found.target
        ∧ ((g found).direction = .back → found.direction = .back
          ∨ graph.IsFooter found.source ∧ graph.IsHeader found.target)) :
    (graph.withEdge edge g).LoopsTagged := by
  intro other found hfound hback
  show graph.IsFooter found.source ∧ graph.IsHeader found.target
  rw [edge?_withEdge] at hfound
  split at hfound
  next he =>
    obtain ⟨old, hold, rfl⟩ := Option.map_eq_some_iff.mp hfound
    obtain ⟨hsource, htarget, hturn⟩ := hg old hold
    rw [hsource, htarget]
    exact (hturn hback).elim (h edge old hold) fun hends => hends
  next => exact h other found hfound hback

end BlockGraph

namespace GraphM

open BlockGraph

variable {graph after : BlockGraph} {chain : Chain} {id new tail source target : BlockId} {edge : EdgeId}
  {block : Block} {instr anchor headLast tailFirst : InstrId} {count : Nat} {mode : SplitMode}
  {edges : List EdgeId} {u : Unit}

/-- The edges from a footer to a header are tagged one by one. -/
theorem tagEdges_loopsTagged (htagged : graph.LoopsTagged) (hfooter : graph.IsFooter source)
    (hheader : graph.IsHeader target) (hout : ∀ edge ∈ edges, graph.sourceOf edge = some source)
    (h : edges.forM (fun id => updateEdge id fun edge =>
      if edge.target = target ∧ !edge.kind.isInterprocedural then { edge with direction := .back }
      else edge) graph = .ok u after) : after.LoopsTagged := by
  induction edges generalizing graph with
  | nil =>
    rw [forM_nil_ok] at h
    exact h ▸ htagged
  | cons edge edges ih =>
    simp only [forM_cons_ok, updateEdge_ok] at h
    obtain ⟨_, ⟨-, rfl⟩, hrest⟩ := h
    refine ih (htagged.withEdge fun other hother => ?_) hfooter hheader (fun other hother => ?_) hrest
    · have hleaves := hout edge (List.mem_cons_self ..)
      rw [sourceOf, hother, Option.map_some, Option.some.injEq] at hleaves
      split
      next hclose => exact ⟨rfl, rfl, fun _ => .inr ⟨hleaves ▸ hfooter, hclose.1 ▸ hheader⟩⟩
      next => exact ⟨rfl, rfl, .inl⟩
    · rw [(withEdge_sameWires fun found => by split <;> exact ⟨rfl, rfl⟩).source]
      exact hout other (List.mem_cons_of_mem _ hother)

/-- To tag a loop makes its edges lead back and its ends footer and header at once, so the loops are
tagged still. -/
theorem tagLoop_loopsTagged (hwired : graph.Wired) (htagged : graph.LoopsTagged)
    (h : tagLoop source target graph = .ok u after) : after.LoopsTagged := by
  simp only [tagLoop, bind_ok, block_ok, updateBlock_ok] at h
  obtain ⟨_, m₁, ⟨hsource, hm₁⟩, _, _, ⟨htarget, hm₂⟩, found, m₂, ⟨hfound, rfl⟩, h⟩ := h
  have hkind₁ : ∀ other, m₁.kind? other
      = if other = source then (graph.kind? source).map .withFooter else graph.kind? other := fun _ =>
    hm₁ ▸ kind?_withBlock fun _ => rfl
  have hkind₂ : ∀ other, m₂.kind? other
      = if other = target then (m₁.kind? target).map .withHeader else m₁.kind? other := fun _ =>
    hm₂ ▸ kind?_withBlock fun _ => rfl
  have htagged₁ : m₁.LoopsTagged :=
    hm₁ ▸ htagged.withBlock (k := .withFooter) (fun _ => rfl) fun _ => ⟨fun h => h, fun _ => rfl⟩
  have htagged₂ : m₂.LoopsTagged :=
    hm₂ ▸ htagged₁.withBlock (k := .withHeader) (fun _ => rfl) fun _ => ⟨fun _ => rfl, fun h => h⟩
  -- the two blocks may be one, so the second tag must not undo the first
  have hfooter : m₂.IsFooter source := by
    obtain ⟨kind, hkind⟩ := Option.isSome_iff_exists.mp (isSome_kind?.trans hsource)
    have hfoot : m₁.kind? source = some kind.withFooter := by rw [hkind₁, if_pos rfl, hkind]; rfl
    rw [IsFooter, hkind₂]
    split
    next he => exact ⟨_, by rw [← he, hfoot]; rfl, rfl⟩
    next => exact ⟨_, hfoot, rfl⟩
  have hheader : m₂.IsHeader target := by
    obtain ⟨kind, hkind⟩ := Option.isSome_iff_exists.mp (isSome_kind?.trans htarget)
    exact ⟨_, by rw [hkind₂, if_pos rfl, hkind]; rfl, rfl⟩
  refine tagEdges_loopsTagged htagged₂ hfooter hheader (fun edge hedge => ?_) h
  have hwired₁ : m₁.Wired := hm₁ ▸ hwired.congr (withBlock_sameWires fun _ => ⟨rfl, rfl⟩)
  have hwired₂ : m₂.Wired := hm₂ ▸ hwired₁.congr (withBlock_sameWires fun _ => ⟨rfl, rfl⟩)
  exact hwired₂.mem_out (by rw [outOf, hfound]; exact hedge)

/-- Wherever loops are tagged successfully, they are tagged right. -/
theorem discoverLoops_loopsTagged {found : Nat} (hwired : graph.Wired)
    (h : discoverLoops graph = .ok found after) : after.LoopsTagged ∧ after.Wired := by
  simp only [discoverLoops, bind_ok, modify_ok, get_ok, pure_ok] at h
  obtain ⟨_, _, rfl, _, _, ⟨rfl, rfl⟩, _, _, htag, -, rfl⟩ := h
  have hplain : graph.withoutLoops.LoopsTagged := by
    intro edge found hfound hback
    rw [edge?_withoutLoops, Option.map_eq_some_iff] at hfound
    obtain ⟨old, -, rfl⟩ := hfound
    cases hback
  have hwired' : graph.withoutLoops.Wired := hwired.congr Retagged.withoutLoops.sameWires
  generalize graph.withoutLoops = plain at htag hplain hwired'
  generalize plain.backPairs = pairs at htag
  -- no loop is tagged at first, and each pair keeps what is tagged right
  induction pairs generalizing plain with
  | nil =>
    rw [forM_nil_ok] at htag
    exact htag ▸ ⟨hplain, hwired'⟩
  | cons pair pairs ih =>
    obtain ⟨m, hpair, hrest⟩ := forM_cons_ok.mp htag
    have hrewired : plain.Rewired m := tagLoop_leaves.keeps hpair
    exact ih m (tagLoop_loopsTagged hwired' hplain hpair) (hrewired hwired').2 hrest

/-- Loops stay tagged where a block is entered behind its first instruction, unless loops are closed at
it in both ways: its tag goes along with the transfers as a whole. -/
theorem Entered.loopsTagged_iff (h : Entered graph after id tail) (htagged : graph.LoopsTagged)
    (hid : (graph.kind? id).isSome) (htail : graph.kind? tail = none) :
    after.LoopsTagged ↔ ¬graph.Mixed id := by
  obtain ⟨kind, hkind⟩ := Option.isSome_iff_exists.mp hid
  have hother : ∀ {other kind}, graph.kind? other = some kind → other ≠ tail := by
    rintro other kind hkind rfl
    rw [htail] at hkind
    cases hkind
  have hfirst : after.kind? id = some ⟨kind.isHeader && !graph.closedBy id true, false⟩ := by
    rw [h.kind?, if_neg (hother hkind), if_pos rfl, hkind]
    rfl
  have hsecond : after.kind? tail = some ⟨graph.closedBy id true, kind.isFooter⟩ := by
    rw [h.kind?, if_pos rfl, hkind]
    rfl
  have hkept : ∀ {other kind}, other ≠ id → graph.kind? other = some kind → after.kind? other = some kind := by
    intro other kind hne hsome
    rw [h.kind?, if_neg (hother hsome), if_neg hne, hsome]
  have hold : ∀ {edge found}, graph.edge? edge = some found →
      after.edge? edge = some ((found.leaving id tail).entering id tail) := by
    intro edge found hfound
    have hne : edge ≠ ⟨graph.edges.size⟩ := by
      rintro rfl
      rw [edge?_fresh] at hfound
      cases hfound
    rw [h.edge?, if_neg hne, hfound, Option.map_some]
  constructor
  · rintro htagged' ⟨htransfer, hpassage⟩
    -- the edge that is no transfer still leads to the first half, which has lost its tag
    obtain ⟨edge, found, hfound, htarget, hback, hpasses⟩ := closedBy_iff.mp hpassage
    have hstays : ((found.leaving id tail).entering id tail).target = id := by
      rw [Edge.entering_target, if_neg fun h => Bool.eq_false_iff.mp hpasses h.2]
      exact htarget
    obtain ⟨-, kind', hkind', hheader⟩ := htagged' edge _ (hold hfound) (by rw [Edge.entering_direction]; exact hback)
    rw [hstays, hfirst, htransfer, Option.some.injEq] at hkind'
    rw [← hkind', Bool.not_true, Bool.and_false] at hheader
    cases hheader
  · intro hmixed edge found hfound hback
    rw [h.edge?] at hfound
    split at hfound
    next =>
      obtain rfl := Option.some.inj hfound
      cases hback
    next =>
      obtain ⟨old, hedge, rfl⟩ := Option.map_eq_some_iff.mp hfound
      rw [Edge.entering_direction] at hback
      have hback' : old.direction = .back := hback
      obtain ⟨⟨footer, hfooter, hfoot⟩, header, hheader, hhead⟩ := htagged edge old hedge hback'
      refine ⟨?_, ?_⟩
      · rw [Edge.entering_source]
        by_cases he : old.source = id
        · rw [he, hkind, Option.some.injEq] at hfooter
          rw [show (old.leaving id tail).source = tail from if_pos he]
          exact ⟨_, hsecond, by rw [hfooter]; exact hfoot⟩
        · rw [show (old.leaving id tail).source = old.source from if_neg he]
          exact ⟨footer, hkept he hfooter, hfoot⟩
      · have htarget : ((old.leaving id tail).entering id tail).target
            = if old.target = id ∧ old.kind.isTransfer then tail else old.target := Edge.entering_target
        rw [htarget]
        by_cases he : old.target = id
        · rw [he, hkind, Option.some.injEq] at hheader
          by_cases htransfer : old.kind.isTransfer = true
          · rw [if_pos ⟨he, htransfer⟩]
            exact ⟨_, hsecond, closedBy_iff.mpr ⟨edge, old, hedge, he, hback', htransfer⟩⟩
          · have hpassage : graph.closedBy id false = true :=
              closedBy_iff.mpr ⟨edge, old, hedge, he, hback', Bool.eq_false_iff.mpr htransfer⟩
            rw [if_neg fun h => htransfer h.2, he]
            refine ⟨_, hfirst, ?_⟩
            rw [hheader, hhead, Bool.true_and, Bool.not_eq_true', Bool.eq_false_iff]
            exact fun hcloses => hmixed ⟨hcloses, hpassage⟩
        · rw [if_neg fun h => he h.1]
          exact ⟨header, hkept he hheader, hhead⟩

/-! ## What blocks are built -/

/-- Whatever graph is constructed has its loops tagged. -/
theorem construct_loopsTagged {functions : List Function} {instrs : List (InstrId × Instruction)}
    (hwired : graph.Wired) (h : construct chain functions instrs graph = .ok u after) :
    after.LoopsTagged ∧ after.Wired := by
  have hr : StepRelation fun s t : BlockGraph => s.Wired → t.Wired := ⟨fun _ h => h, fun h k w => k (h w)⟩
  have hsplit : ∀ instr mode, Keeps (fun s t : BlockGraph => s.Wired → t.Wired)
      (discard (splitAt chain instr mode)) := fun _ _ => Keeps.discard splitAt_wired
  -- only the last stage tags loops; the ones before have to leave it a graph with right lists of edges
  simp only [construct, bind_ok, discard_ok] at h
  obtain ⟨_, g₁, h₁, _, g₂, h₂, _, g₃, h₃, _, g₄, h₄, found, h₅⟩ := h
  have hwired₁ : g₁.Wired := by
    refine Keeps.forM hr (fun function _ => ?_) h₁ hwired
    unfold splitFunction
    cases function.first with
    | none => exact Keeps.pure hr _
    | some first =>
      cases function.last with
      | none => exact Keeps.pure hr _
      | some last => exact Keeps.bind hr (hsplit _ _) fun _ => hsplit _ _
  have hwired₂ : g₂.Wired := by
    refine Keeps.forM hr (fun entry _ => ?_) h₂ hwired₁
    have htargets : Keeps (fun s t : BlockGraph => s.Wired → t.Wired)
        (entry.2.references.forM fun target => do
          if !chain.isLinked target then
            throw (.brokenTarget entry.1 target)
          discard (splitAt chain target .first)) := by
      refine Keeps.forM hr fun target _ => ?_
      by_cases hlinked : chain.isLinked target
      · simp only [hlinked]
        exact hsplit _ _
      · simp only [hlinked]
        exact Keeps.bind hr (Keeps.throw _) fun _ => hsplit _ _
    unfold splitTransfer
    by_cases hends : entry.2.flags.endsBlock
    · simp only [hends, if_true]
      exact Keeps.bind hr (hsplit _ _) fun _ => htargets
    · simp only [hends]
      exact htargets
  have hrewired₃ : g₂.Rewired g₃ := stampFunctions_leaves.keeps h₃
  have hrewired₄ : g₃.Rewired g₄ := linkEdges_leaves.keeps h₄
  exact discoverLoops_loopsTagged (hrewired₄ (hrewired₃ hwired₂).2).2 h₅

end GraphM

namespace BlockGraph

variable {graph after : BlockGraph} {id tail : BlockId} {chain : Chain} {functions : FunctionTable}

/-- In every graph that is built, loops are tagged. -/
theorem build_loopsTagged (h : build chain functions = .ok graph) : graph.LoopsTagged ∧ graph.Wired := by
  have hempty : BlockGraph.empty.LoopsTagged ∧ BlockGraph.empty.Wired :=
    ⟨fun edge found hfound => by simp [empty, edge?] at hfound, GraphM.wired_empty⟩
  cases hhead : chain.head with
  | none =>
    unfold build at h
    rw [hhead] at h
    exact Except.ok.inj h ▸ hempty
  | some head =>
    cases htail : chain.tail with
    | none =>
      unfold build at h
      rw [hhead, htail] at h
      exact Except.ok.inj h ▸ hempty
    | some tail =>
      cases hinstrs : mappedInstructions chain with
      | error cause =>
        unfold build at h
        rw [hhead, htail, hinstrs] at h
        cases h
      | ok instrs =>
        rw [build_eq hhead htail hinstrs] at h
        split at h
        next u built hrun =>
          rw [← Except.ok.inj h]
          exact GraphM.construct_loopsTagged GraphM.whole_wired hrun
        next => cases h

end BlockGraph

end Splice
