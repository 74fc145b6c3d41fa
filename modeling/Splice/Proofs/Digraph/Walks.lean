import Splice.Digraph.Traversal

/-!
# Where walks go

A walk names no other nodes than its roots, the nodes that their edges lead to, and so on:
whatever holds of the roots and passes along the edges that the visitor follows holds of every
node of every event (`walk_within_followed`), in either order. A visitor can only leave edges
out, so what passes along all edges holds of every event whatever the visitor wants
(`walk_within`).

The property `p` is arbitrary, so the lemma is an induction principle for what walks meet. It is
used with "is reached from the roots" for what a visitor gets to see, and with "is a block of
the graph" for what is tagged as a loop.
-/

namespace Splice.Digraph

variable {α : Type} {p : α → Prop}

/-- All nodes of the event are of the kind `p`. -/
def Event.Within (p : α → Prop) : Event α → Prop
  | .pre node | .post node => p node
  | .seen source target _ => p source ∧ p target

namespace Walk

variable {walk : Walk α} {event : Event α} {next : Walk α → Walk α}

/-- All events of the walk are about nodes of the kind `p`. -/
def Within (p : α → Prop) (walk : Walk α) : Prop := ∀ event ∈ walk.events, event.Within p

/-- One more event about nodes of the kind keeps the walk within it. -/
theorem Within.emit (h : walk.Within p) (hevent : event.Within p) : (walk.emit event).Within p := by
  intro other hother
  rcases List.mem_append.mp hother with hin | hnew
  · exact h other hin
  · obtain rfl := List.mem_singleton.mp hnew
    exact hevent

/-- To go on from a walk keeps it within the kind, if what follows does. -/
theorem Within.andThen (h : walk.Within p) (hnext : walk.Within p → (next walk).Within p) :
    (walk.andThen next).Within p := by
  unfold Walk.andThen
  split
  · exact h
  · exact hnext h

end Walk

variable {graph : Digraph α} {flow : Flow} {order : Order} {visitor : Visitor α}
  {node root : α} {walk : Walk α} {path queue roots : List α} {depth steps : Nat}

/-- Under any verdict, a walk goes on to children only. -/
theorem expanded_subset {verdict : Verdict} {child : α} (h : child ∈ graph.expanded flow node verdict) :
    child ∈ graph.children flow node := by
  cases verdict with
  | proceed => exact h
  | skip | stop => exact absurd h List.not_mem_nil

/-- To queue children that are of the kind keeps the walk and the queue within it. -/
theorem queueChildren_within [BEq α] {children : List α} (hnode : p node) (hchildren : ∀ child ∈ children, p child)
    (h : walk.Within p) (hqueue : ∀ other ∈ queue, p other) :
    (children.foldl (queueChild node) (walk, queue)).1.Within p
      ∧ ∀ other ∈ (children.foldl (queueChild node) (walk, queue)).2, p other := by
  induction children generalizing walk queue with
  | nil => exact ⟨h, hqueue⟩
  | cons child children ih =>
    have hown : p child := hchildren child (List.mem_cons_self ..)
    have hrest : ∀ child ∈ children, p child := fun other hother =>
      hchildren other (List.mem_cons_of_mem _ hother)
    rw [List.foldl_cons, queueChild]
    split
    · exact ih hrest (h.emit ⟨hnode, hown⟩) hqueue
    · refine ih hrest h fun other hother => ?_
      rcases List.mem_append.mp hother with hin | hnew
      · exact hqueue other hin
      · obtain rfl := List.mem_singleton.mp hnew
        exact hown

section

variable [BEq α]
  (hchildren : ∀ node, p node → ∀ child ∈ graph.expanded flow node (visitor.pre node), p child)

include hchildren

/-- Where children of nodes of the kind are of the kind, so is all that is reached below one of them. -/
theorem descend_within (hnode : p node) (h : walk.Within p) :
    (descend graph flow visitor depth path node walk).Within p := by
  induction depth generalizing path node walk with
  | zero => exact h
  | succ depth ih =>
    unfold descend
    refine Walk.Within.andThen (List.foldlRecOn _ _ (h.emit hnode) fun walk hwalk child hchild => ?_)
      fun hbelow => hbelow.emit hnode
    have hown : p child := hchildren node hnode child hchild
    refine hwalk.andThen fun hwalk => ?_
    split
    · exact hwalk.emit ⟨hnode, hown⟩
    · exact ih hown hwalk

/-- Where children of nodes of the kind are of the kind, so is all that a queue of them leads to. -/
theorem spread_within (hqueue : ∀ node ∈ queue, p node) (h : walk.Within p) :
    (spread graph flow visitor steps queue walk).Within p := by
  induction steps generalizing queue walk with
  | zero => exact h
  | succ steps ih =>
    cases queue with
    | nil => exact h
    | cons node queue =>
      have hnode : p node := hqueue node (List.mem_cons_self ..)
      unfold spread
      refine Walk.Within.andThen (h.emit hnode) fun hwalk => ?_
      obtain ⟨hqueued, hnodes⟩ := queueChildren_within hnode (hchildren node hnode) hwalk
        fun other hother => hqueue other (List.mem_cons_of_mem _ hother)
      exact Walk.Within.andThen (hqueued.emit hnode) fun hleft => ih hnodes hleft

/-- Where children of nodes of the kind are of the kind, so is all that is reached from a root of the
kind. -/
theorem walkRoot_within (hroot : p root) (h : walk.Within p) :
    (walkRoot graph flow order visitor walk root).Within p := by
  refine h.andThen fun h => ?_
  split
  · exact h
  · cases order with
    | depthFirst => exact descend_within hchildren hroot h
    | breadthFirst =>
      refine spread_within hchildren (fun other hother => ?_) h
      obtain rfl := List.mem_singleton.mp hother
      exact hroot

/-- A walk stays among nodes of a kind that holds all its roots and that no edge leads out of which the
visitor follows. -/
theorem walk_within_followed (hroots : ∀ root ∈ roots, p root) :
    (graph.walk roots flow order visitor).Within p :=
  List.foldlRecOn _ _ (fun _ hevent => absurd hevent List.not_mem_nil) fun _ hwalk root hroot =>
    walkRoot_within hchildren (hroots root hroot) hwalk

end

/-- A walk stays among nodes of a kind that holds all its roots and that no edge leads out of. -/
theorem walk_within [BEq α] (hchildren : ∀ node, p node → ∀ child ∈ graph.children flow node, p child)
    (hroots : ∀ root ∈ roots, p root) : (graph.walk roots flow order visitor).Within p :=
  walk_within_followed (fun node hnode child hchild => hchildren node hnode child (expanded_subset hchild))
    hroots

end Splice.Digraph
