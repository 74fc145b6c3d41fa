import Splice.Proofs.Digraph.Stopping
import Splice.Proofs.Digraph.Walks

/-!
# What a visitor gets to see

A walk that is not stopped reaches the nodes that its roots lead to over nodes at which the
visitor goes on (`Found`), each once, and leaves each of them once. All children of the nodes at
which the visitor goes on are accounted for: each of them is either reached there or met
again. This is what `Visits` says; a walk that is stopped is such a walk up to
the event at which it is stopped (`walk_visits`).

> `walk_visits`: a walk shows the visitor every node that its roots lead to once, and every edge
> that it follows from there once, in brackets if it goes depth first; a visitor that stops it
> sees a first part of this.

The fields of `Visits` are the promises of a walk one by one: which nodes are reached, that none
is reached twice, that each is left, which edges are met again and when they lead back. For
walks that are not stopped they come from `Excursion` (`Splice.Proofs.Digraph.Tours`), for the
others from `walk_cut`.
-/

namespace Splice.Digraph

variable {α : Type}

/-- The roots lead to the node over nodes at which the visitor goes on. -/
inductive Found (graph : Digraph α) (flow : Flow) (visitor : Visitor α) (roots : List α) : α → Prop
  | root {node : α} (hroot : node ∈ roots) : Found graph flow visitor roots node
  | child {node child : α} (hnode : Found graph flow visitor roots node)
      (hverdict : visitor.pre node = .proceed) (hchild : child ∈ graph.children flow node) :
      Found graph flow visitor roots child

/-- The events of a walk that is not stopped. -/
structure Visits [BEq α] (graph : Digraph α) (roots : List α) (flow : Flow) (order : Order)
    (visitor : Visitor α) (walk : Walk α) : Prop where
  completed : walk.stopped = false
  /-- Just the nodes that the roots lead to are reached. -/
  reached : ∀ node, node ∈ walk.preNodes ↔ Found graph flow visitor roots node
  /-- No node is reached twice. -/
  preOnce : walk.preNodes.Nodup
  /-- The nodes that are reached are left, each of them once. -/
  postOnce : walk.postNodes.Perm walk.preNodes
  /-- Each node is reached as a root or over one edge of a `tree`, which comes from a node that was reached
  earlier. The edges of the tree and the edges that are met again are all edges that the visitor follows, each
  as often as the node that it comes from lists the child. -/
  accounts : ∃ starts tree, starts.Sublist roots
    ∧ walk.preNodes.Perm (starts ++ tree.map Prod.snd)
    ∧ (tree ++ meets walk.events).Perm (edges (graph.followed flow visitor) walk.preNodes)
    ∧ ∀ pair ∈ tree, ∃ front back, walk.events = front ++ .pre pair.2 :: back ∧ .pre pair.1 ∈ front
  /-- Depth first, nodes are reached and left like brackets. -/
  nested : order = .depthFirst → replay [] walk.events = some []
  /-- An edge that is met again is marked exactly when it leads to an open node of a depth-first walk. -/
  marked : ∀ front source target onPath back, walk.events = front ++ .seen source target onPath :: back →
    (onPath = true ↔ order = .depthFirst ∧ .pre target ∈ front ∧ .post target ∉ front)

section

variable [BEq α] [LawfulBEq α] {graph : Digraph α} {flow : Flow} {order : Order} {visitor : Visitor α}
  {roots starts after : List α} {tree : List (α × α)} {events : List (Event α)} {node : α}

omit [LawfulBEq α] in
/-- The roots and everything that they lead to are reached. -/
theorem Excursion.found (h : Excursion (graph.followed flow visitor) order [] starts tree events after)
    (hroots : roots ⊆ after) (hfound : Found graph flow visitor roots node) : node ∈ pres events := by
  have hafter : ∀ {node}, node ∈ after ↔ node ∈ pres events := by
    intro node
    rw [h.accounts.known.mem_iff, List.append_nil]
  -- a followed child is an edge of the tree, or its target was reached before
  induction hfound with
  | root hroot => exact hafter.mp (hroots hroot)
  | @child node child _ hverdict hchild ih =>
    have hfollowed : child ∈ graph.followed flow visitor node := by
      rw [followed, hverdict]
      exact hchild
    have hedge : (node, child) ∈ edges (graph.followed flow visitor) (pres events) :=
      mem_edges.mpr ⟨ih, hfollowed⟩
    rcases List.mem_append.mp (h.accounts.followed.mem_iff.mpr hedge) with htree | hmet
    · exact h.accounts.reached.mem_iff.mpr (List.mem_append_right _ (List.mem_map_of_mem htree))
    · exact hafter.mp (h.accounts.met _ hmet)

/-- In a depth-first walk an edge is marked exactly if it leads to a node that is open; breadth first no
edge is. -/
theorem Excursion.marked (h : Excursion (graph.followed flow visitor) order [] starts tree events after)
    {front back : List (Event α)} {source target : α} {onPath : Bool}
    (hsplit : events = front ++ .seen source target onPath :: back) :
    onPath = true ↔ order = .depthFirst ∧ .pre target ∈ front ∧ .post target ∉ front := by
  cases order with
  | breadthFirst =>
    have hfalse : onPath = false :=
      h.shaped source target onPath (hsplit ▸ List.mem_append_right _ (List.mem_cons_self ..))
    simp [hfalse]
  | depthFirst =>
    have hreplay : replay [] events = some [] := h.shaped
    rw [hsplit, replay_append, Option.bind_eq_some_iff] at hreplay
    obtain ⟨path, hpath, hrest⟩ := hreplay
    simp only [replay, Option.ite_none_right_eq_some, Bool.and_eq_true, beq_iff_eq] at hrest
    have hnodup : (pres front ++ []).Nodup := by
      have hall : (pres events).Nodup := by
        have hknown := h.accounts.known
        rw [List.append_nil] at hknown
        exact hknown.nodup_iff.mp h.nodup
      rw [hsplit, pres_append] at hall
      rw [List.append_nil]
      exact (List.nodup_append.mp hall).1
    have hopen : target ∈ path ↔ (target ∈ [] ∨ .pre target ∈ front) ∧ .post target ∉ front :=
      mem_of_replay hpath hnodup
    rw [← hrest.1.2, List.contains_iff_mem, hopen]
    simp

/-- A walk whose visitor never stops it. -/
theorem walk_tireless (hvisitor : visitor.Tireless) :
    Visits graph roots flow order visitor (graph.walk roots flow order visitor) := by
  have hrunning : (Walk.start : Walk α).stopped = false := rfl
  -- the excursion accounts for all events; what remains is which nodes it gets to
  obtain ⟨starts, events, tree, after, hwalk, hstarts, hroots, hexcursion⟩ :=
    walkRoots_excursion graph flow order hvisitor hrunning List.nodup_nil roots
  have hwithin : (graph.walk roots flow order visitor).Within (Found graph flow visitor roots) := by
    refine walk_within_followed (fun node hnode child hchild => ?_) fun root hroot => .root hroot
    cases hverdict : visitor.pre node with
    | proceed =>
      rw [hverdict] at hchild
      exact .child hnode hverdict hchild
    | skip | stop =>
      rw [hverdict] at hchild
      cases hchild
  have hevents : (graph.walk roots flow order visitor).events = events := congrArg Walk.events hwalk
  have hpres : (graph.walk roots flow order visitor).preNodes = pres events := congrArg pres hevents
  have hposts : (graph.walk roots flow order visitor).postNodes = posts events := congrArg posts hevents
  have hknown := hexcursion.accounts.known
  have hstart : (Walk.start : Walk α).reached = [] := rfl
  rw [hstart, List.append_nil] at hknown
  refine ⟨congrArg Walk.stopped hwalk, fun node => ?_, ?_, ?_, ?_, ?_, ?_⟩
  · rw [hpres]
    refine ⟨fun hnode => ?_, hexcursion.found hroots⟩
    exact hwithin _ (hevents ▸ mem_pres.mp hnode)
  · rw [hpres]
    exact hknown.nodup_iff.mp hexcursion.nodup
  · rw [hpres, hposts]
    exact hexcursion.accounts.left
  · rw [hpres, hevents]
    refine ⟨starts, tree, hstarts, hexcursion.accounts.reached, hexcursion.accounts.followed, ?_⟩
    intro pair hpair
    exact (hexcursion.accounts.order pair hpair).resolve_left List.not_mem_nil
  · intro horder
    subst horder
    rw [hevents]
    exact hexcursion.shaped
  · rw [hevents]
    exact fun front source target onPath back hsplit => hexcursion.marked hsplit

/-- A walk shows the visitor every node that its roots lead to once, and every edge that it follows from
there once, in brackets if it goes depth first. A visitor that stops is shown the events up to the one at
which it stops, of the walk in which it goes on instead. -/
theorem walk_visits (graph : Digraph α) (roots : List α) (flow : Flow) (order : Order) (visitor : Visitor α) :
    (visitor.Tireless → Visits graph roots flow order visitor (graph.walk roots flow order visitor))
    ∧ Visits graph roots flow order visitor.resumed (graph.walk roots flow order visitor.resumed)
    ∧ (graph.walk roots flow order visitor).events
      = upTo visitor.ends (graph.walk roots flow order visitor.resumed).events
    ∧ (graph.walk roots flow order visitor).stopped
      = (graph.walk roots flow order visitor.resumed).events.any visitor.ends := by
  have hcut := walk_cut graph roots flow order visitor
  exact ⟨walk_tireless, walk_tireless visitor.resumed_tireless, hcut.events, hcut.stopped⟩

end

/-- A visitor that leaves the edges out that lead on from 2, and stops when 3 is left. -/
def hastyVisitor : Visitor Nat where
  pre node := if node = 2 then .skip else .proceed
  post node := if node = 3 then .stop else .proceed

theorem walk_visits_hasty : hastyVisitor.resumed.Tireless
    ∧ Visits (ofEdges [(0, 1), (1, 0), (1, 2), (2, 4), (0, 3), (3, 2), (0, 2)]) [0, 1] .forward .depthFirst
        hastyVisitor.resumed
        ((ofEdges [(0, 1), (1, 0), (1, 2), (2, 4), (0, 3), (3, 2), (0, 2)]).walk [0, 1] .forward .depthFirst
          hastyVisitor.resumed)
    ∧ ((ofEdges [(0, 1), (1, 0), (1, 2), (2, 4), (0, 3), (3, 2), (0, 2)]).walk [0, 1] .forward .depthFirst
          hastyVisitor).events
      = [.pre 0, .pre 1, .seen 1 0 true, .pre 2, .post 2, .post 1, .pre 3, .seen 3 2 false, .post 3] := by
  have htireless := hastyVisitor.resumed_tireless
  refine ⟨htireless, (walk_visits _ _ _ _ hastyVisitor.resumed).1 htireless, ?_⟩
  rw [(walk_visits _ _ _ _ hastyVisitor).2.2.1]
  decide

end Splice.Digraph
