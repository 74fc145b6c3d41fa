import Splice.Block.Flow
import Splice.Proofs.Block.TwoWay
import Splice.Proofs.Digraph.Reversal

/-!
# Control flow backwards

Where blocks and edges are known from both sides, the blocks that control comes from are those from
which it goes on, each as often (`TwoWay.flow_transposed`, `TwoWay.localFlow_transposed`).

An edge counts at its source by the list of the edges that leave, and at its target by the list
of those that enter; either list has it once (`TwoWay.count_edges`). Within functions the way on
from a call to the block behind it is seen from in front through the next block and from behind
through the block in front, which name each other (`TwoWay.callSite_iff`).

The two graphs of control are those of `Splice.Block.Flow`, one with all edges and one that
stays inside functions. For the second, the way behind a call is no edge: it is computed from
the calls on one side and from the call site on the other, and the lemma says that the two
computations agree.
-/

namespace Splice.BlockGraph

variable {graph : BlockGraph} {u v : BlockId} {p : Edge → Bool}

/-- An edge of the kind `p` from one block to another. -/
def joins (graph : BlockGraph) (p : Edge → Bool) (source target : BlockId) (id : EdgeId) : Bool :=
  (graph.edge? id).any fun edge => edge.source == source && edge.target == target && p edge

/-- An edge that joins two blocks leaves the one and enters the other. -/
theorem sourceOf_of_joins {id : EdgeId} (h : graph.joins p u v id = true) :
    graph.sourceOf id = some u ∧ graph.targetOf id = some v := by
  rw [joins, Option.any_eq_true] at h
  obtain ⟨edge, hedge, h⟩ := h
  simp only [Bool.and_eq_true, beq_iff_eq] at h
  rw [sourceOf, targetOf, hedge, Option.map_some, Option.map_some, h.1.1, h.1.2]
  exact ⟨rfl, rfl⟩

/-- Among the edges that leave a block, those into another one are found by their target. -/
theorem count_targets (h : graph.TwoWay) :
    (((graph.edgesOut u).filter p).map (·.target)).count v = (graph.outOf u).countP (graph.joins p u v) := by
  have hlist : graph.edgesOut u = (graph.outOf u).filterMap graph.edge? := rfl
  rw [hlist, List.count, List.countP_map, List.countP_filter, List.countP_filterMap]
  apply List.countP_congr
  intro id hid
  have hsource := h.wired.mem_out hid
  unfold joins
  cases hedge : graph.edge? id with
  | none => simp
  | some edge =>
    rw [sourceOf, hedge, Option.map_some, Option.some.injEq] at hsource
    simp [hsource]

/-- Among the edges that enter a block, those from another one are found by their source. -/
theorem count_sources (h : graph.TwoWay) :
    (((graph.edgesIn v).filter p).map (·.source)).count u = (graph.intoOf v).countP (graph.joins p u v) := by
  have hlist : graph.edgesIn v = (graph.intoOf v).filterMap graph.edge? := rfl
  rw [hlist, List.count, List.countP_map, List.countP_filter, List.countP_filterMap]
  apply List.countP_congr
  intro id hid
  have htarget := h.wired.mem_into hid
  unfold joins
  cases hedge : graph.edge? id with
  | none => simp
  | some edge =>
    rw [targetOf, hedge, Option.map_some, Option.some.injEq] at htarget
    simp [htarget]

/-- The lists at both ends have the same edges between two blocks. -/
theorem joins_perm (h : graph.TwoWay) :
    ((graph.outOf u).filter (graph.joins p u v)).Perm ((graph.intoOf v).filter (graph.joins p u v)) := by
  rw [List.perm_iff_count]
  intro id
  by_cases hjoins : graph.joins p u v id = true
  · obtain ⟨hsource, htarget⟩ := sourceOf_of_joins hjoins
    rw [List.count_filter hjoins, List.count_filter hjoins, h.wired.out, h.wired.into, if_pos hsource,
      if_pos htarget]
  · have hnot : ∀ l : List EdgeId, (l.filter (graph.joins p u v)).count id = 0 := by
      intro l
      apply List.count_eq_zero.mpr
      intro hmem
      exact hjoins (List.mem_filter.mp hmem).2
    rw [hnot, hnot]

/-- Control returns to the next block, if to any. -/
theorem nextOf_of_returnSite? (h : graph.returnSite? u = some v) : graph.nextOf u = some v := by
  simp only [returnSite?, Option.bind_eq_bind, Option.bind_eq_some_iff] at h
  obtain ⟨block, hblock, h⟩ := h
  split at h
  next =>
    simp only [Option.bind_eq_some_iff] at h
    obtain ⟨next, hnext, _, _, h⟩ := h
    split at h
    next =>
      cases h
      rw [nextOf, hblock]
      exact hnext
    next => cases h
  next => cases h

namespace TwoWay

/-- There are as many edges to a block as the block has from there. -/
theorem count_edges (h : graph.TwoWay) :
    (((graph.edgesOut u).filter p).map (·.target)).count v
      = (((graph.edgesIn v).filter p).map (·.source)).count u := by
  rw [count_targets h, count_sources h, List.countP_eq_length_filter, List.countP_eq_length_filter]
  exact (joins_perm h).length_eq

/-- In the graph of all edges, a block is listed as a predecessor as often as it lists a successor. -/
theorem flow_transposed (h : graph.TwoWay) : graph.flow.Transposed := by
  intro u v
  have hedges := h.count_edges (u := u) (v := v) (p := fun _ => true)
  rw [List.filter_eq_self.mpr fun _ _ => rfl, List.filter_eq_self.mpr fun _ _ => rfl] at hedges
  exact hedges

/-- A block is called from the block that it is the return site of. -/
theorem callSite_iff (h : graph.TwoWay) : graph.callSite? v = some u ↔ graph.returnSite? u = some v := by
  constructor
  · intro hcall
    simp only [callSite?, Option.bind_eq_bind, Option.bind_eq_some_iff] at hcall
    obtain ⟨block, hblock, prev, hprev, hcall⟩ := hcall
    split at hcall
    next hreturn =>
      obtain rfl := Option.some.inj hcall
      exact beq_iff_eq.mp hreturn
    next => cases hcall
  · intro hreturn
    have hnext := nextOf_of_returnSite? hreturn
    obtain ⟨block, hblock, hprev⟩ := Option.bind_eq_some_iff.mp (h.neighbours u v hnext).2
    rw [callSite?, hblock, Option.bind_eq_bind, Option.bind_some, hprev]
    simp [hreturn]

/-- Inside functions too, a block is listed as a predecessor as often as it lists a successor. The edges
that stay inside are turned round as they are; a return site and its call site name each other. -/
theorem localFlow_transposed (h : graph.TwoWay) : graph.localFlow.Transposed := by
  intro u v
  have hsites : (graph.returnSite? u).toList.count v = (graph.callSite? v).toList.count u := by
    have hone : ∀ {x : Option BlockId} {id : BlockId}, x.toList.count id = if x = some id then 1 else 0 := by
      intro x id
      cases x with
      | none => rfl
      | some other => simp [List.count_singleton]
    rw [hone, hone]
    simp only [h.callSite_iff]
  show (List.map _ _ ++ _).count v = (List.map _ _ ++ _).count u
  rw [List.count_append, List.count_append, h.count_edges, hsites]

end TwoWay

end Splice.BlockGraph
