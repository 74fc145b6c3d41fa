import Mathlib.Algebra.BigOperators.Group.List.Lemmas
import Mathlib.Data.List.Chain
import Mathlib.Logic.Relation
import Splice.Arithmetic
import Splice.Digraph.Traversal

/-!
# Edges that lead back

A depth-first walk meets an edge that leads back when the edge ends in a node that is still
open. What the walk knows of a node when it leaves it is `Settled`: the edges of the node
that lead back are those to the nodes that were open, all of which lead to the node, and
every other child was left before. `DepthFirst` says this of all nodes that were left; each
edge that is met and each node that is walked keep it (`DepthFirst.meet`,
`descend_depthFirst`), and so it holds of a walk from any roots (`walk_depthFirst`).

Two things follow. The order in which nodes are left goes down along every edge that does
not lead back, so every closed path has an edge that does (`DepthFirst.cycle_back`), and an
edge that leads back closes a path (`DepthFirst.of_backPairs`).

The visitor is one that always goes on, as in the search for loops. The pairs are read off the
events of the kind `seen` that name an open node; a node that leads to itself is such a pair,
and an edge that is listed twice is met twice.
-/

namespace Splice.Digraph

variable {α : Type} {graph : Digraph α} {flow : Flow}

/-- The graph has a path from `source` to `target`, which may be empty. -/
def Leads (graph : Digraph α) (flow : Flow) (source target : α) : Prop :=
  Relation.ReflTransGen (fun node child => child ∈ graph.children flow node) source target

/-- The ends of an edge to a node that was still open. -/
def Event.backPair? : Event α → Option (α × α)
  | .seen source target true => some (source, target)
  | _ => none

namespace Walk

variable {walk : Walk α} {node source target : α} {onPath : Bool}

/-- The edges to nodes that were still open, in the order in which they were met. -/
def backPairs (walk : Walk α) : List (α × α) := walk.events.filterMap Event.backPair?

@[simp]
theorem heed_proceed : walk.heed .proceed = walk := by
  cases walk
  simp [heed]

theorem andThen_running {next : Walk α → Walk α} (h : walk.stopped = false) :
    walk.andThen next = next walk := by
  simp [andThen, h]

@[simp]
theorem postNodes_reach : (walk.reach node).postNodes = walk.postNodes := rfl

@[simp]
theorem backPairs_reach : (walk.reach node).backPairs = walk.backPairs := rfl

@[simp]
theorem postNodes_pre : (walk.emit (.pre node)).postNodes = walk.postNodes := by
  simp [postNodes, emit]

@[simp]
theorem backPairs_pre : (walk.emit (.pre node)).backPairs = walk.backPairs := by
  simp [backPairs, emit, Event.backPair?]

@[simp]
theorem postNodes_post : (walk.emit (.post node)).postNodes = walk.postNodes ++ [node] := by
  simp [postNodes, emit]

@[simp]
theorem backPairs_post : (walk.emit (.post node)).backPairs = walk.backPairs := by
  simp [backPairs, emit, Event.backPair?]

@[simp]
theorem postNodes_seen : (walk.emit (.seen source target onPath)).postNodes = walk.postNodes := by
  simp [postNodes, emit]

@[simp]
theorem backPairs_seen : (walk.emit (.seen source target onPath)).backPairs
    = walk.backPairs ++ if onPath then [(source, target)] else [] := by
  cases onPath <;> simp [backPairs, emit, Event.backPair?]

variable [BEq α]

/-- The children that a node was found to lead back to. -/
def backFrom (walk : Walk α) (node : α) : List α :=
  (walk.backPairs.filter fun pair => pair.1 == node).map (·.2)

theorem backFrom_congr {other : Walk α} (h : other.backPairs = walk.backPairs) :
    other.backFrom node = walk.backFrom node := by
  rw [backFrom, h, backFrom]

variable [LawfulBEq α]

/-- A node was found to lead back to another exactly if the edge was met while that was open. -/
theorem mem_backFrom : target ∈ walk.backFrom node ↔ (node, target) ∈ walk.backPairs := by
  rw [backFrom, List.mem_map]
  constructor
  · intro h
    obtain ⟨⟨source, other⟩, hpair, rfl⟩ := h
    obtain ⟨hpair, hsource⟩ := List.mem_filter.mp hpair
    rw [← eq_of_beq hsource]
    exact hpair
  · intro h
    exact ⟨(node, target), List.mem_filter.mpr ⟨h, beq_self_eq_true node⟩, rfl⟩

theorem backFrom_seen_self : (walk.emit (.seen node target onPath)).backFrom node
    = walk.backFrom node ++ if onPath then [target] else [] := by
  rw [backFrom, backPairs_seen, List.filter_append, List.map_append]
  cases onPath <;> simp [backFrom]

theorem backFrom_seen_ne (h : source ≠ node) :
    (walk.emit (.seen source target onPath)).backFrom node = walk.backFrom node := by
  rw [backFrom, backPairs_seen, List.filter_append, List.map_append]
  cases onPath <;> simp [backFrom, h]

end Walk

/-! ## What is known of the nodes that were left -/

variable [BEq α]

/-- Of the children of a node, those lead back that are among the nodes `above`, from which the node is
reached; all others are in `front`. -/
def Settled (graph : Digraph α) (flow : Flow) (walk : Walk α) (front : List α) (node : α) : Prop :=
  ∃ above : List α, (∀ other ∈ above, graph.Leads flow other node)
    ∧ walk.backFrom node = (graph.children flow node).filter above.contains
    ∧ ∀ child ∈ graph.children flow node, child ∉ above → child ∈ front

/-- The walk has reached the nodes of `path`, which are open, and those that it has left, each of them
once and settled. -/
structure DepthFirst (graph : Digraph α) (flow : Flow) (path : List α) (walk : Walk α) : Prop where
  running : walk.stopped = false
  reached : ∀ node, node ∈ walk.reached ↔ node ∈ walk.postNodes ∨ node ∈ path
  apart : ∀ node ∈ path, node ∉ walk.postNodes
  nodup : walk.postNodes.Nodup
  sources : ∀ pair ∈ walk.backPairs, pair.1 ∈ walk.reached
  settled : ∀ front node back, walk.postNodes = front ++ node :: back →
    graph.Settled flow walk front node

namespace DepthFirst

variable {path roots : List α} {walk : Walk α} {node child : α}

/-- At the start nothing is reached, so nothing is open and nothing is settled. -/
theorem start : graph.DepthFirst flow [] .start where
  running := rfl
  reached node := by
    show node ∈ [] ↔ node ∈ [] ∨ node ∈ []
    simp
  apart _ h := absurd h List.not_mem_nil
  nodup := List.nodup_nil
  sources _ h := absurd h List.not_mem_nil
  settled front node back h := by simp [Walk.postNodes, Walk.start] at h

/-- What is reached is open until it is left. -/
theorem reach (h : graph.DepthFirst flow path walk) (hnew : node ∉ walk.reached) :
    graph.DepthFirst flow (node :: path) (walk.reach node) where
  running := h.running
  reached other := by
    show other ∈ node :: walk.reached ↔ other ∈ walk.postNodes ∨ other ∈ node :: path
    rw [List.mem_cons, List.mem_cons, h.reached]
    exact or_left_comm
  apart other hother := by
    rw [Walk.postNodes_reach]
    rcases List.mem_cons.mp hother with rfl | hin
    · exact fun hleft => hnew ((h.reached other).mpr (.inl hleft))
    · exact h.apart other hin
  nodup := h.nodup
  sources pair hpair := List.mem_cons_of_mem _ (h.sources pair hpair)
  settled := h.settled

/-- To reach one more node opens it and leaves what was noted as it is. -/
theorem pre (h : graph.DepthFirst flow path walk) :
    graph.DepthFirst flow path (walk.emit (.pre node)) where
  running := h.running
  reached other := by
    rw [Walk.postNodes_pre]
    exact h.reached other
  apart other hother := by
    rw [Walk.postNodes_pre]
    exact h.apart other hother
  nodup := by
    rw [Walk.postNodes_pre]
    exact h.nodup
  sources pair hpair := by
    rw [Walk.backPairs_pre] at hpair
    exact h.sources pair hpair
  settled front other back hsplit := by
    rw [Walk.postNodes_pre] at hsplit
    obtain ⟨above, habove, hback, hfront⟩ := h.settled front other back hsplit
    exact ⟨above, habove, (Walk.backFrom_congr Walk.backPairs_pre).trans hback, hfront⟩

/-- An open node is left once its children are known. -/
theorem leave (h : graph.DepthFirst flow (node :: path) walk) (hnode : node ∉ path)
    (hsettled : graph.Settled flow walk walk.postNodes node) :
    graph.DepthFirst flow path (walk.emit (.post node)) where
  running := h.running
  reached other := by
    show other ∈ walk.reached ↔ _
    rw [Walk.postNodes_post, h.reached, List.mem_append, List.mem_singleton, List.mem_cons, or_assoc]
  apart other hother := by
    rw [Walk.postNodes_post, List.mem_append, List.mem_singleton, not_or]
    refine ⟨h.apart other (List.mem_cons_of_mem _ hother), ?_⟩
    rintro rfl
    exact hnode hother
  nodup := by
    rw [Walk.postNodes_post]
    refine List.nodup_append.mpr ⟨h.nodup, List.pairwise_singleton .., ?_⟩
    intro other hother last hlast he
    obtain rfl := List.mem_singleton.mp hlast
    exact h.apart last (List.mem_cons_self ..) (he ▸ hother)
  sources pair hpair := by
    rw [Walk.backPairs_post] at hpair
    exact h.sources pair hpair
  settled front other back hsplit := by
    rw [Walk.postNodes_post] at hsplit
    have hat : graph.Settled flow walk front other := by
      -- the node that was split at is the one that is left now, or one that was left before
      rcases List.eq_nil_or_concat back with rfl | ⟨back, last, rfl⟩
      · obtain ⟨rfl, hlast⟩ := List.append_inj' hsplit rfl
        obtain rfl := List.singleton_inj.mp hlast
        exact hsettled
      · rw [List.concat_eq_append, ← List.cons_append, ← List.append_assoc] at hsplit
        exact h.settled front other back (List.append_inj' hsplit rfl).1
    obtain ⟨above, habove, hback, hfront⟩ := hat
    exact ⟨above, habove, (Walk.backFrom_congr Walk.backPairs_post).trans hback, hfront⟩

/-- The order in which nodes were left, around one of them. -/
theorem settled_of_mem (h : graph.DepthFirst flow path walk) (hleft : node ∈ walk.postNodes) :
    ∃ front back, walk.postNodes = front ++ node :: back ∧ node ∉ front
      ∧ graph.Settled flow walk front node := by
  obtain ⟨front, back, hsplit, hnot⟩ := List.eq_append_cons_of_mem hleft
  exact ⟨front, back, hsplit, hnot, h.settled front node back hsplit⟩

theorem left (h : graph.DepthFirst flow [] walk) (hreached : node ∈ walk.reached) :
    node ∈ walk.postNodes :=
  ((h.reached node).mp hreached).resolve_right List.not_mem_nil

variable [LawfulBEq α]

/-- A node that is not reached has not been found to lead back anywhere. -/
theorem backFrom_eq_nil (h : graph.DepthFirst flow path walk) (hnew : node ∉ walk.reached) :
    walk.backFrom node = [] := by
  rw [List.eq_nil_iff_forall_not_mem]
  intro target htarget
  exact hnew (h.sources _ (Walk.mem_backFrom.mp htarget))

/-- An edge of an open node to a node that was reached before says nothing new of the nodes that were
left. -/
theorem meet {onPath : Bool} (h : graph.DepthFirst flow path walk) (hnode : node ∈ path) :
    graph.DepthFirst flow path (walk.emit (.seen node child onPath)) where
  running := h.running
  reached other := by
    rw [Walk.postNodes_seen]
    exact h.reached other
  apart other hother := by
    rw [Walk.postNodes_seen]
    exact h.apart other hother
  nodup := by
    rw [Walk.postNodes_seen]
    exact h.nodup
  sources pair hpair := by
    rw [Walk.backPairs_seen, List.mem_append] at hpair
    rcases hpair with hold | hnew
    · exact h.sources pair hold
    · cases onPath with
      | false => cases hnew
      | true =>
        obtain rfl := List.mem_singleton.mp hnew
        exact (h.reached node).mpr (.inr hnode)
  settled front other back hsplit := by
    rw [Walk.postNodes_seen] at hsplit
    obtain ⟨above, habove, hback, hfront⟩ := h.settled front other back hsplit
    have hne : node ≠ other := by
      rintro rfl
      apply h.apart node hnode
      rw [hsplit]
      exact List.mem_append_right _ (List.mem_cons_self ..)
    exact ⟨above, habove, (Walk.backFrom_seen_ne hne).trans hback, hfront⟩

end DepthFirst

/-! ## The walk -/

/-- How many nodes at an end of an edge the walk has not reached. -/
def unreached (graph : Digraph α) (walk : Walk α) : Nat :=
  graph.nodes.countP fun node => !walk.reached.contains node

section

variable {walk after : Walk α} {node child root : α} {path roots : List α} {depth : Nat}

/-- What a depth-first walk does with a child of the last of the open nodes; `below` is the walk below
a child that was not reached before. -/
def visitChild (open_ : List α) (node : α) (below : α → Walk α → Walk α) (walk : Walk α)
    (child : α) : Walk α :=
  walk.andThen fun walk =>
    if walk.reached.contains child then
      walk.emit (.seen node child (open_.contains child))
    else
      below child (walk.reach child)

/-- Below a node, the walk reaches the node, goes through its children, and leaves it. -/
theorem descend_succ : descend graph flow .always (depth + 1) path node walk
    = ((graph.children flow node).foldl
        (visitChild (node :: path) node (descend graph flow .always depth (node :: path)))
        (walk.emit (.pre node))).andThen fun walk => walk.emit (.post node) := by
  rw [descend]
  simp only [Visitor.always, Walk.heed_proceed, expanded]
  rfl

variable [LawfulBEq α]

theorem not_contains_reached : (!walk.reached.contains node) = true ↔ node ∉ walk.reached := by
  simp

/-- The more a walk has reached, the less is left unreached. -/
theorem countP_unreached_mono (h : ∀ node ∈ walk.reached, node ∈ after.reached) (nodes : List α) :
    nodes.countP (fun node => !after.reached.contains node)
      ≤ nodes.countP fun node => !walk.reached.contains node := by
  apply List.countP_mono_left
  intro node _ hnode
  rw [not_contains_reached] at hnode ⊢
  exact fun hin => hnode (h node hin)

theorem unreached_mono (h : ∀ node ∈ walk.reached, node ∈ after.reached) :
    graph.unreached after ≤ graph.unreached walk :=
  countP_unreached_mono h graph.nodes

/-- A node that is reached is one node less to reach. -/
theorem unreached_reach (hnode : node ∈ graph.nodes) (hnew : node ∉ walk.reached) :
    graph.unreached (walk.reach node) < graph.unreached walk := by
  obtain ⟨front, back, hsplit⟩ := List.append_of_mem hnode
  have hmore : ∀ other ∈ walk.reached, other ∈ (walk.reach node).reached :=
    fun other hother => List.mem_cons_of_mem _ hother
  have hfront := countP_unreached_mono hmore front
  have hback := countP_unreached_mono hmore back
  have hwas : (!walk.reached.contains node) = true := not_contains_reached.mpr hnew
  have his : ¬ (!(walk.reach node).reached.contains node) = true := by
    intro hnot
    exact not_contains_reached.mp hnot (List.mem_cons_self ..)
  simp only [unreached, hsplit, List.countP_append, List.countP_cons, if_pos hwas, if_neg his]
  omega

/-- What the walk below a node does: the node is left, what was reached stays so, and nothing new is
noted of the nodes that are open above it. -/
structure Descended (graph : Digraph α) (flow : Flow) (path : List α) (node : α)
    (walk after : Walk α) : Prop where
  depthFirst : graph.DepthFirst flow path after
  reached : ∀ other ∈ walk.reached, other ∈ after.reached
  left : node ∈ after.postNodes
  open_ : ∀ other ∈ path, after.backFrom other = walk.backFrom other

/-- What holds of the walk when the children `done` of the open node `node` were met. -/
structure Visited (graph : Digraph α) (flow : Flow) (path : List α) (node : α) (done : List α)
    (walk after : Walk α) : Prop where
  depthFirst : graph.DepthFirst flow (node :: path) after
  reached : ∀ other ∈ walk.reached, other ∈ after.reached
  back : after.backFrom node = done.filter (node :: path).contains
  left : ∀ child ∈ done, child ∉ node :: path → child ∈ after.postNodes
  open_ : ∀ other ∈ path, after.backFrom other = walk.backFrom other

/-- One more child is met. `hdescend` says what the walk below it does if it is new. -/
theorem Visited.step {done : List α} {below : α → Walk α → Walk α}
    (h : graph.Visited flow path node done walk after) (hnode : node ∉ path)
    (hdescend : child ∉ after.reached →
      graph.Descended flow (node :: path) child (after.reach child) (below child (after.reach child))) :
    graph.Visited flow path node (done ++ [child]) walk
      (visitChild (node :: path) node below after child) := by
  unfold visitChild
  rw [Walk.andThen_running h.depthFirst.running]
  -- a child met again closes a loop if it is on the path; a new one is on no path, and is walked first
  by_cases hreached : child ∈ after.reached
  · rw [if_pos (List.contains_iff_mem.mpr hreached)]
    refine ⟨h.depthFirst.meet (List.mem_cons_self ..), h.reached, ?_, ?_, ?_⟩
    · rw [Walk.backFrom_seen_self, h.back, List.filter_append]
      congr 1
      cases hopen : (node :: path).contains child <;> simp only [List.filter, hopen] <;> rfl
    · intro other hother hnot
      rw [Walk.postNodes_seen]
      rcases List.mem_append.mp hother with hin | hlast
      · exact h.left other hin hnot
      · obtain rfl := List.mem_singleton.mp hlast
        exact ((h.depthFirst.reached other).mp hreached).resolve_right hnot
    · intro other hother
      refine (Walk.backFrom_seen_ne ?_).trans (h.open_ other hother)
      rintro rfl
      exact hnode hother
  · rw [if_neg fun hin => hreached (List.contains_iff_mem.mp hin)]
    have hbelow := hdescend hreached
    have hnew : child ∉ node :: path :=
      fun hin => hreached ((h.depthFirst.reached child).mpr (.inr hin))
    refine ⟨hbelow.depthFirst, fun other hother => ?_, ?_, ?_, ?_⟩
    · exact hbelow.reached other (List.mem_cons_of_mem _ (h.reached other hother))
    · rw [hbelow.open_ node (List.mem_cons_self ..), List.filter_append]
      have hnone : [child].filter (node :: path).contains = [] := by
        rw [List.filter_eq_nil_iff]
        intro other hother hopen
        obtain rfl := List.mem_singleton.mp hother
        exact hnew (List.contains_iff_mem.mp hopen)
      rw [hnone, List.append_nil]
      exact h.back
    · intro other hother hnot
      rcases List.mem_append.mp hother with hin | hlast
      · have hstill := hbelow.reached other
          (List.mem_cons_of_mem _ ((h.depthFirst.reached other).mpr (.inl (h.left other hin hnot))))
        exact ((hbelow.depthFirst.reached other).mp hstill).resolve_right hnot
      · obtain rfl := List.mem_singleton.mp hlast
        exact hbelow.left
    · intro other hother
      exact (hbelow.open_ other (List.mem_cons_of_mem _ hother)).trans (h.open_ other hother)

/-- All children are met. -/
theorem Visited.run {done rest : List α} {below : α → Walk α → Walk α}
    (h : graph.Visited flow path node done walk after) (hnode : node ∉ path)
    (hdescend : ∀ child ∈ rest, ∀ m : Walk α, (∀ other ∈ walk.reached, other ∈ m.reached) →
      graph.DepthFirst flow (node :: path) m → child ∉ m.reached →
      graph.Descended flow (node :: path) child (m.reach child) (below child (m.reach child))) :
    graph.Visited flow path node (done ++ rest) walk
      (rest.foldl (visitChild (node :: path) node below) after) := by
  induction rest generalizing done after with
  | nil =>
    rw [List.append_nil]
    exact h
  | cons child rest ih =>
    have hnext := h.step hnode (hdescend child (List.mem_cons_self ..) after h.reached h.depthFirst)
    rw [List.append_cons]
    exact ih hnext fun other hother => hdescend other (List.mem_cons_of_mem _ hother)

/-- The walk below a node that was just reached. The induction is on the depth that is left, of which
there is more than there are nodes to reach. -/
theorem descend_depthFirst (h : graph.DepthFirst flow (node :: path) walk) (hnode : node ∉ path)
    (hfresh : walk.backFrom node = []) (hleads : ∀ other ∈ path, graph.Leads flow other node)
    (hdepth : graph.unreached walk < depth) :
    graph.Descended flow path node walk (descend graph flow .always depth path node walk) := by
  induction depth generalizing path node walk with
  | zero => omega
  | succ depth ih =>
    have habove : ∀ other ∈ node :: path, graph.Leads flow other node := by
      intro other hother
      rcases List.mem_cons.mp hother with rfl | hin
      · exact .refl
      · exact hleads other hin
    have hstart : graph.Visited flow path node [] walk (walk.emit (.pre node)) := by
      refine ⟨h.pre, fun other hother => hother, ?_, ?_, fun other _ => ?_⟩
      · exact (Walk.backFrom_congr Walk.backPairs_pre).trans hfresh
      · intro child hchild
        exact absurd hchild List.not_mem_nil
      · exact Walk.backFrom_congr Walk.backPairs_pre
    -- the children in turn, each with one level less; what was reached before leaves less to reach below
    -- it
    have hvisited : graph.Visited flow path node ([] ++ graph.children flow node) walk
        ((graph.children flow node).foldl
          (visitChild (node :: path) node (descend graph flow .always depth (node :: path)))
          (walk.emit (.pre node))) := by
      refine hstart.run hnode fun child hchild m hmore hm hnew => ?_
      have hnot : child ∉ node :: path := fun hin => hnew ((hm.reached child).mpr (.inr hin))
      refine ih (hm.reach hnew) hnot (hm.backFrom_eq_nil hnew) (fun other hother => ?_) ?_
      · exact (habove other hother).tail hchild
      · have hless := unreached_reach (graph.children_mem flow node child hchild) hnew
        have hmono : graph.unreached m ≤ graph.unreached walk := unreached_mono hmore
        omega
    rw [List.nil_append] at hvisited
    rw [descend_succ, Walk.andThen_running hvisited.depthFirst.running]
    refine ⟨hvisited.depthFirst.leave hnode ⟨node :: path, habove, hvisited.back, hvisited.left⟩,
      hvisited.reached, ?_, fun other hother => ?_⟩
    · rw [Walk.postNodes_post]
      exact List.mem_append_right _ (List.mem_singleton_self node)
    · exact (Walk.backFrom_congr Walk.backPairs_post).trans (hvisited.open_ other hother)

/-- From a root, a depth-first walk reaches what was not reached before and is left with nothing open. -/
theorem walkRoot_depthFirst (h : graph.DepthFirst flow [] walk) (root : α) :
    graph.DepthFirst flow [] (walkRoot graph flow .depthFirst .always walk root)
      ∧ root ∈ (walkRoot graph flow .depthFirst .always walk root).postNodes
      ∧ ∀ other ∈ walk.reached, other ∈ (walkRoot graph flow .depthFirst .always walk root).reached := by
  rw [walkRoot, Walk.andThen_running h.running]
  by_cases hreached : root ∈ walk.reached
  · rw [if_pos (List.contains_iff_mem.mpr hreached)]
    exact ⟨h, h.left hreached, fun other hother => hother⟩
  · rw [if_neg fun hin => hreached (List.contains_iff_mem.mp hin)]
    have hbound : graph.unreached (walk.reach root) < graph.nodes.length + 1 :=
      Nat.lt_succ_of_le List.countP_le_length
    have hdescended := descend_depthFirst (h.reach hreached) List.not_mem_nil
      (h.backFrom_eq_nil hreached) (fun other hother => absurd hother List.not_mem_nil) hbound
    exact ⟨hdescended.depthFirst, hdescended.left,
      fun other hother => hdescended.reached other (List.mem_cons_of_mem _ hother)⟩

/-- From one root after the other, a depth-first walk reaches all of them and is left with nothing open.
The induction is on the roots. -/
theorem walkRoots_depthFirst (h : graph.DepthFirst flow [] walk) (roots : List α) :
    graph.DepthFirst flow [] (roots.foldl (walkRoot graph flow .depthFirst .always) walk)
      ∧ (∀ root ∈ roots, root ∈ (roots.foldl (walkRoot graph flow .depthFirst .always) walk).postNodes)
      ∧ ∀ other ∈ walk.reached,
        other ∈ (roots.foldl (walkRoot graph flow .depthFirst .always) walk).reached := by
  induction roots generalizing walk with
  | nil => exact ⟨h, fun root hroot => absurd hroot List.not_mem_nil, fun other hother => hother⟩
  | cons root roots ih =>
    obtain ⟨hroot, hleft, hkept⟩ := walkRoot_depthFirst h root
    obtain ⟨hwalk, hroots, hmore⟩ := ih hroot
    refine ⟨hwalk, fun other hother => ?_, fun other hother => hmore other (hkept other hother)⟩
    rcases List.mem_cons.mp hother with rfl | hin
    · exact hwalk.left (hmore other ((hroot.reached other).mpr (.inl hleft)))
    · exact hroots other hin

/-- A walk from any roots leaves them all. -/
theorem walk_depthFirst (graph : Digraph α) (flow : Flow) (roots : List α) :
    graph.DepthFirst flow [] (graph.walk roots flow .depthFirst .always)
      ∧ ∀ root ∈ roots, root ∈ (graph.walk roots flow .depthFirst .always).postNodes := by
  have hstart : graph.DepthFirst flow [] .start := .start
  obtain ⟨hwalk, hroots, -⟩ := walkRoots_depthFirst hstart roots
  exact ⟨hwalk, hroots⟩

end

/-! ## What edges that lead back say of the graph -/

section

variable [LawfulBEq α]

/-- The number of times that a node is in a list, as a sum over the list. -/
theorem sum_indicator {nodes : List α} (node : α) :
    (nodes.map fun other => if node == other then 1 else 0).sum = nodes.count node := by
  induction nodes with
  | nil => rfl
  | cons first nodes ih =>
    rw [List.map_cons, List.sum_cons, ih, List.count_cons, Nat.add_comm, BEq.comm]

/-- Pairs are counted by their sources. -/
theorem sum_length_filter {nodes : List α} (hnodup : nodes.Nodup) {pairs : List (α × α)}
    (hsources : ∀ pair ∈ pairs, pair.1 ∈ nodes) :
    (nodes.map fun node => (pairs.filter fun pair => pair.1 == node).length).sum = pairs.length := by
  induction pairs with
  | nil => simp
  | cons pair pairs ih =>
    have hfirst : nodes.count pair.1 = 1 :=
      List.count_eq_one_of_mem hnodup (hsources pair (List.mem_cons_self ..))
    have hcons : ∀ node, ((pair :: pairs).filter fun pair => pair.1 == node).length
        = (pairs.filter fun pair => pair.1 == node).length + if pair.1 == node then 1 else 0 := by
      intro node
      rw [List.filter_cons]
      split <;> rfl
    simp only [hcons]
    rw [List.sum_map_add, sum_indicator, hfirst,
      ih fun other hother => hsources other (List.mem_cons_of_mem _ hother), List.length_cons]

end

namespace DepthFirst

section

variable [LawfulBEq α] {walk : Walk α} {node child : α}

/-- An edge that leads back closes a path. -/
theorem of_backPairs (h : graph.DepthFirst flow [] walk) (hpair : (node, child) ∈ walk.backPairs) :
    child ∈ graph.children flow node ∧ graph.Leads flow child node := by
  have hleft : node ∈ walk.postNodes := h.left (h.sources _ hpair)
  obtain ⟨front, back, -, -, above, habove, hback, -⟩ := h.settled_of_mem hleft
  have hchild := Walk.mem_backFrom.mpr hpair
  rw [hback, List.mem_filter] at hchild
  exact ⟨hchild.1, habove child (List.contains_iff_mem.mp hchild.2)⟩

/-- A child that an edge does not lead back to was left before the node. -/
theorem left_before (h : graph.DepthFirst flow [] walk) (hleft : node ∈ walk.postNodes)
    (hchild : child ∈ graph.children flow node) (hpair : (node, child) ∉ walk.backPairs) :
    walk.postNodes.idxOf child < walk.postNodes.idxOf node := by
  obtain ⟨front, back, hsplit, hnode, above, -, hback, hfront⟩ := h.settled_of_mem hleft
  have hnot : child ∉ above := by
    intro hin
    apply hpair
    rw [← Walk.mem_backFrom, hback, List.mem_filter]
    exact ⟨hchild, List.contains_iff_mem.mpr hin⟩
  have hbefore := hfront child hchild hnot
  rw [hsplit, List.idxOf_append_of_mem hbefore, List.idxOf_append_of_notMem hnode]
  have hlt := List.idxOf_lt_length_of_mem hbefore
  omega

/-- Every closed path has an edge that leads back, if no edge comes from a node that the walk has not
left. -/
theorem cycle_back (h : graph.DepthFirst flow [] walk)
    (hleft : ∀ node child, child ∈ graph.children flow node → node ∈ walk.postNodes) {first : α}
    {rest : List α}
    (hcycle : List.IsChain (fun node child => child ∈ graph.children flow node) (first :: rest ++ [first])) :
    ∃ node child, [node, child] <:+: first :: rest ++ [first] ∧ (node, child) ∈ walk.backPairs := by
  by_contra hnone
  have hdown : List.IsChain (fun node child => walk.postNodes.idxOf child < walk.postNodes.idxOf node)
      (first :: rest ++ [first]) := by
    rw [List.isChain_iff_forall_rel_of_append_cons_cons] at hcycle ⊢
    intro node child front back hsplit
    have hchild := hcycle hsplit
    refine h.left_before (hleft node child hchild) hchild fun hpair => hnone ⟨node, child, ?_, hpair⟩
    exact ⟨front, back, by rw [hsplit]; simp⟩
  have : IsTrans α fun node child => walk.postNodes.idxOf child < walk.postNodes.idxOf node :=
    ⟨fun _ _ _ h h' => Nat.lt_trans h' h⟩
  rw [List.isChain_iff_pairwise, List.cons_append, List.pairwise_cons] at hdown
  exact Nat.lt_irrefl _ (hdown.1 first (List.mem_append_right _ (List.mem_singleton_self first)))

/-- As often as an edge of a node leads back, so often the node lists a child that it leads back to. -/
theorem length_backFrom (h : graph.DepthFirst flow [] walk) (hleft : node ∈ walk.postNodes) :
    (walk.backFrom node).length
      = (graph.children flow node).countP fun child => walk.backPairs.contains (node, child) := by
  obtain ⟨front, back, -, -, above, -, hback, -⟩ := h.settled_of_mem hleft
  rw [hback, ← List.countP_eq_length_filter]
  refine List.countP_congr fun child hchild => ?_
  rw [List.contains_iff_mem, List.contains_iff_mem, ← Walk.mem_backFrom, hback, List.mem_filter,
    List.contains_iff_mem]
  exact (and_iff_right hchild).symm

/-- There are as many edges that lead back as children that are led back to. -/
theorem length_backPairs (h : graph.DepthFirst flow [] walk) {nodes : List α} (hnodup : nodes.Nodup)
    (hleft : ∀ node ∈ nodes, node ∈ walk.postNodes) (hsources : ∀ pair ∈ walk.backPairs, pair.1 ∈ nodes) :
    walk.backPairs.length = (nodes.map fun node =>
      (graph.children flow node).countP fun child => walk.backPairs.contains (node, child)).sum := by
  rw [← sum_length_filter hnodup hsources]
  congr 1
  refine List.map_congr_left fun node hnode => ?_
  rw [← h.length_backFrom (hleft node hnode), Walk.backFrom, List.length_map]

end

end DepthFirst

end Splice.Digraph
