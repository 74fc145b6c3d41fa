import Splice.Proofs.Digraph.Accounts
import Splice.Proofs.Digraph.BackEdges

/-!
# What a walk does from one root

A walk whose visitor never stops it goes on until nothing is left to reach: the bounds on its
depth and its number of steps are never met. Depth first its events are those of a `Tour`, which
goes to each child in turn and comes back before it goes to the next one; so the nodes that are
reached and left form brackets, and an edge leads back exactly when the bracket of its target is
open (`replay`). Breadth first it goes through a queue. Either way the events account for all
children of the nodes that it goes on from (`Excursion`).

The verdict to skip the children of a node is part of it: such a node is reached and left, and
nothing is accounted for below it (`followed`). The bounds are discharged here once and for all.
Depth first, each call reaches a node that was not reached before, so there are never more
nested calls than nodes; breadth first, a node enters the queue when it is reached, so there are
never more steps than nodes.
-/

namespace Splice.Digraph

variable {α : Type} {graph : Digraph α} {flow : Flow} {visitor : Visitor α}

/-- The children that a walk goes on to. -/
def followed (graph : Digraph α) (flow : Flow) (visitor : Visitor α) (node : α) : List α :=
  graph.expanded flow node (visitor.pre node)

/-- The visitor never ends the walk. -/
structure Visitor.Tireless (visitor : Visitor α) : Prop where
  pre : ∀ node, visitor.pre node ≠ .stop
  post : ∀ node, visitor.post node ≠ .stop

/-- A walk goes on to nodes of the graph only. -/
theorem followed_mem {node child : α} (h : child ∈ graph.followed flow visitor node) :
    child ∈ graph.nodes := by
  unfold followed at h
  cases hverdict : visitor.pre node with
  | proceed =>
    rw [hverdict] at h
    exact graph.children_mem flow node child h
  | skip | stop =>
    rw [hverdict] at h
    cases h

/-- A verdict that is not to stop is heeded by going on. -/
theorem Walk.heed_of_ne_stop {walk : Walk α} {verdict : Verdict} (h : verdict ≠ .stop) :
    walk.heed verdict = walk := by
  cases walk
  cases verdict with
  | proceed | skip => simp [heed]
  | stop => exact absurd rfl h

variable [BEq α]

/-! ## Brackets -/

/-- Goes through the events of a depth-first walk, given the nodes that are open, innermost first. A node
that is reached is opened, and only the innermost one can be left; an edge comes from the innermost node
and is marked exactly when it leads to an open one. -/
def replay : List α → List (Event α) → Option (List α)
  | path, [] => some path
  | path, .pre node :: events => replay (node :: path) events
  | [], .post _ :: _ => none
  | inner :: path, .post node :: events => if node == inner then replay path events else none
  | path, .seen source target onPath :: events =>
    if path.head? == some source && path.contains target == onPath then replay path events else none

/-- To replay events and then more is to replay the second part with what the first leaves open. -/
theorem replay_append (path : List α) (events more : List (Event α)) :
    replay path (events ++ more) = (replay path events).bind fun path => replay path more := by
  -- event for event, as they are replayed
  induction path, events using replay.induct with
  | case1 path => rfl
  | case2 path node events ih => exact ih
  | case3 => rfl
  | case4 inner path node events heq ih =>
    simp only [List.cons_append, replay, heq, if_true]
    exact ih
  | case5 inner path node events heq =>
    simp only [List.cons_append, replay]
    rw [if_neg heq, if_neg heq]
    rfl
  | case6 path source target onPath events heq ih =>
    simp only [List.cons_append, replay]
    rw [if_pos heq, if_pos heq]
    exact ih
  | case7 path source target onPath events heq =>
    simp only [List.cons_append, replay]
    rw [if_neg heq, if_neg heq]
    rfl

variable [LawfulBEq α]

/-- The nodes that are open are those that were reached and not yet left. -/
theorem mem_of_replay {path after : List α} {events : List (Event α)} {node : α}
    (h : replay path events = some after) (hnodup : (pres events ++ path).Nodup) :
    node ∈ after ↔ (node ∈ path ∨ .pre node ∈ events) ∧ .post node ∉ events := by
  induction path, events using replay.induct with
  | case1 path =>
    obtain rfl := Option.some.inj h
    simp
  | case2 path other events ih =>
    rw [pres_pre, List.cons_append] at hnodup
    rw [ih h (List.perm_middle.nodup_iff.mpr hnodup)]
    simp only [List.mem_cons, Event.pre.injEq, reduceCtorEq, false_or]
    rw [or_assoc, or_left_comm]
  | case3 => cases h
  | case4 inner path other events heq ih =>
    obtain rfl := eq_of_beq heq
    simp only [replay, beq_self_eq_true, if_true] at h
    rw [pres_post] at hnodup
    have hparts := List.nodup_append.mp hnodup
    rw [ih h (hnodup.sublist ((List.Sublist.refl _).append (List.sublist_cons_self ..)))]
    simp only [List.mem_cons, Event.post.injEq, reduceCtorEq, false_or, not_or]
    -- the node that was left is not among the others, which are reached once
    have hleft : node = other → ¬ (node ∈ path ∨ .pre node ∈ events) := by
      rintro rfl hin
      rcases hin with hin | hin
      · exact (List.nodup_cons.mp hparts.2.1).1 hin
      · exact hparts.2.2 node (mem_pres.mpr hin) node (List.mem_cons_self ..) rfl
    constructor
    · intro hin
      refine ⟨hin.1.imp .inr id, fun he => hleft he hin.1, hin.2⟩
    · intro hin
      obtain ⟨hsome, hne, hnot⟩ := hin
      exact ⟨hsome.imp (fun h => h.resolve_left hne) id, hnot⟩
  | case5 inner path other events heq =>
    rw [replay, if_neg heq] at h
    cases h
  | case6 path source target onPath events heq ih =>
    simp only [replay, heq, if_true] at h
    rw [ih h hnodup]
    simp
  | case7 path source target onPath events heq =>
    rw [replay, if_neg heq] at h
    cases h

/-! ## Depth first -/

omit [LawfulBEq α] in
/-- The events of a depth-first walk that goes to the `children` of `node`, which is open below the nodes
`above`; the walk has reached the nodes `before` and then the nodes `after`. -/
inductive Tour (next : α → List α) : (above : List α) → (node : α) → (children before : List α) →
    List (Event α) → (after : List α) → Prop
  | done {above node before} : Tour next above node [] before [] before
  | again {above node child children before events after} (hin : child ∈ before)
      (rest : Tour next above node children before events after) :
      Tour next above node (child :: children) before
        (.seen node child ((node :: above).contains child) :: events) after
  | enter {above node child children before inner mid events after} (hnew : child ∉ before)
      (below : Tour next (node :: above) child (next child) (child :: before) inner mid)
      (rest : Tour next above node children mid events after) :
      Tour next above node (child :: children) before
        ((.pre child :: (inner ++ [.post child])) ++ events) after

namespace Tour

variable {next : α → List α} {above children before after : List α} {node : α} {events : List (Event α)}

omit [LawfulBEq α] in
/-- A tour forgets no node that was reached before it. -/
theorem subset (h : Tour next above node children before events after) : before ⊆ after := by
  induction h with
  | done => exact List.Subset.refl _
  | again _ _ ih => exact ih
  | enter _ _ _ ihbelow ihrest =>
    exact fun other hother => ihrest (ihbelow (List.mem_cons_of_mem _ hother))

omit [LawfulBEq α] in
/-- A tour reaches each node once. -/
theorem nodup (h : Tour next above node children before events after) (hbefore : before.Nodup) :
    after.Nodup := by
  induction h with
  | done => exact hbefore
  | again _ _ ih => exact ih hbefore
  | enter hnew _ _ ihbelow ihrest => exact ihrest (ihbelow (List.nodup_cons.mpr ⟨hnew, hbefore⟩))

/-- A tour leaves the same nodes open as it finds open, so it can be replayed between any others. -/
theorem replay_eq (h : Tour next above node children before events after) :
    replay (node :: above) events = some (node :: above) := by
  induction h with
  | done => rfl
  | again _ _ ih =>
    rw [replay, if_pos (by simp)]
    exact ih
  | @enter above node child children before inner mid events after _ _ _ ihbelow ihrest =>
    have hclosed : replay (node :: above) (.pre child :: (inner ++ [.post child])) = some (node :: above) := by
      rw [replay, replay_append, ihbelow, Option.bind_some, replay, if_pos (beq_self_eq_true child)]
      rfl
    rw [replay_append, hclosed]
    exact ihrest

omit [LawfulBEq α] in
/-- A tour accounts for the children of its node, and for all edges of the nodes that it reaches below. -/
theorem accounts (h : Tour next above node children before events after) :
    ∃ tree, Accounts next before [] (children.map fun child => (node, child)) tree events after := by
  induction h with
  | done => exact ⟨[], .nil (.refl _)⟩
  | again hin _ ih =>
    obtain ⟨tree, htree⟩ := ih
    exact ⟨_, (Accounts.seen hin).append htree⟩
  | enter _ _ _ ihbelow ihrest =>
    obtain ⟨inner, hinner⟩ := ihbelow
    obtain ⟨tree, htree⟩ := ihrest
    exact ⟨_, hinner.enclose.discover.append htree⟩

end Tour

section

variable {walk : Walk α} {path : List α} {node root : α} {depth steps : Nat}

omit [LawfulBEq α] in
theorem descend_eq : descend graph flow visitor (depth + 1) path node walk
    = ((graph.followed flow visitor node).foldl
        (visitChild (node :: path) node (descend graph flow visitor depth (node :: path)))
        ((walk.emit (.pre node)).heed (visitor.pre node))).andThen fun walk =>
          (walk.emit (.post node)).heed (visitor.post node) := rfl

/-- A walk goes to children one after the other; `hbelow` says what it does below one that it had not
reached. -/
theorem visitChildren_tour {next : α → List α} {below : α → Walk α → Walk α} {children : List α}
    (hrunning : walk.stopped = false)
    (hbelow : ∀ child ∈ children, ∀ m : Walk α, m.stopped = false → walk.reached ⊆ m.reached →
      child ∉ m.reached → ∃ events after,
        below child (m.reach child) = ⟨m.events ++ (.pre child :: (events ++ [.post child])), after, false⟩
          ∧ Tour next (node :: path) child (next child) (child :: m.reached) events after) :
    ∃ events after, children.foldl (visitChild (node :: path) node below) walk
        = ⟨walk.events ++ events, after, false⟩
      ∧ Tour next path node children walk.reached events after := by
  -- a child that was reached is only met, below a new one `hbelow` says what happens
  induction children generalizing walk with
  | nil =>
    refine ⟨[], walk.reached, ?_, .done⟩
    rw [List.append_nil, ← hrunning]
    rfl
  | cons child children ih =>
    rw [List.foldl_cons]
    have hrest : ∀ other ∈ children, other ∈ child :: children := fun other hother =>
      List.mem_cons_of_mem _ hother
    by_cases hin : child ∈ walk.reached
    · have hseen : visitChild (node :: path) node below walk child
          = walk.emit (.seen node child ((node :: path).contains child)) := by
        rw [visitChild, Walk.andThen_running hrunning, if_pos (List.contains_iff_mem.mpr hin)]
      obtain ⟨events, after, hfold, htour⟩ := @ih (walk.emit _) hrunning
        fun other hother => hbelow other (hrest other hother)
      refine ⟨_, after, ?_, .again hin htour⟩
      rw [hseen, hfold]
      simp [Walk.emit]
    · obtain ⟨inner, mid, hdescend, htour⟩ := hbelow child (List.mem_cons_self ..) walk hrunning
        (List.Subset.refl _) hin
      have hvisit : visitChild (node :: path) node below walk child
          = ⟨walk.events ++ (.pre child :: (inner ++ [.post child])), mid, false⟩ := by
        rw [visitChild, Walk.andThen_running hrunning,
          if_neg fun hmem => hin (List.contains_iff_mem.mp hmem), hdescend]
      have hmore : walk.reached ⊆ mid := fun other hother => htour.subset (List.mem_cons_of_mem _ hother)
      obtain ⟨events, after, hfold, hrest'⟩ := @ih ⟨_, mid, false⟩ rfl
        fun other hother m hm hsub => hbelow other (hrest other hother) m hm (List.Subset.trans hmore hsub)
      refine ⟨_, after, ?_, .enter hin htour hrest'⟩
      rw [hvisit, hfold]
      simp

/-- A depth-first walk from a node that was just reached is a tour of its children. The induction is on
the depth that is left, of which there is more than there are nodes to reach. -/
theorem descend_tour (path : List α) (node : α) (hvisitor : visitor.Tireless) (hrunning : walk.stopped = false)
    (hdepth : graph.unreached walk < depth) : ∃ events after,
      descend graph flow visitor depth path node walk
        = ⟨walk.events ++ (.pre node :: (events ++ [.post node])), after, false⟩
      ∧ Tour (graph.followed flow visitor) path node (graph.followed flow visitor node) walk.reached
          events after := by
  induction depth generalizing path node walk with
  | zero => omega
  | succ depth ih =>
    have hbelow : ∀ child ∈ graph.followed flow visitor node, ∀ m : Walk α, m.stopped = false →
        (walk.emit (.pre node)).reached ⊆ m.reached → child ∉ m.reached → ∃ events after,
          descend graph flow visitor depth (node :: path) child (m.reach child)
            = ⟨m.events ++ (.pre child :: (events ++ [.post child])), after, false⟩
          ∧ Tour (graph.followed flow visitor) (node :: path) child (graph.followed flow visitor child)
              (child :: m.reached) events after := by
      -- by the time a child is gone to, its siblings have only taken nodes from what is left to be
      -- reached
      intro child hchild m hm hmore hnew
      refine @ih (m.reach child) _ child hm ?_
      have hless := unreached_reach (followed_mem hchild) hnew
      have hmono : graph.unreached m ≤ graph.unreached walk := unreached_mono hmore
      omega
    have hpre : (walk.emit (.pre node)).stopped = false := hrunning
    obtain ⟨events, after, hfold, htour⟩ := visitChildren_tour hpre hbelow
    refine ⟨events, after, ?_, htour⟩
    rw [descend_eq, Walk.heed_of_ne_stop (hvisitor.pre node), hfold, Walk.andThen_running rfl,
      Walk.heed_of_ne_stop (hvisitor.post node)]
    simp [Walk.emit]

/-! ## Breadth first -/

/-- The children of a node that is walked breadth first: `new` ones are queued and `old` ones are met
again. -/
theorem queueChildren_eq (node : α) {children : List α} (queue : List α) (hnodup : walk.reached.Nodup)
    (hchildren : ∀ child ∈ children, child ∈ graph.nodes) : ∃ old new : List α, ∃ after : Walk α,
      children.foldl (queueChild node) (walk, queue) = (after, queue ++ new)
      ∧ after.events = walk.events ++ old.map (fun child => .seen node child false)
      ∧ after.stopped = walk.stopped
      ∧ after.reached.Perm (new ++ walk.reached) ∧ after.reached.Nodup
      ∧ (new ++ old).Perm children ∧ (∀ child ∈ old, child ∈ after.reached)
      ∧ graph.unreached after + new.length ≤ graph.unreached walk := by
  -- a child that was reached is only met, a new one goes to the end of the queue
  induction children generalizing walk queue with
  | nil =>
    refine ⟨[], [], walk, ?_, ?_, rfl, .refl _, hnodup, .nil, ?_, Nat.le_refl _⟩
    · rw [List.append_nil]
      rfl
    · rw [List.map_nil, List.append_nil]
    · intro child hchild
      cases hchild
  | cons child children ih =>
    have hrest : ∀ other ∈ children, other ∈ graph.nodes := fun other hother =>
      hchildren other (List.mem_cons_of_mem _ hother)
    rw [List.foldl_cons]
    by_cases hin : child ∈ walk.reached
    · have hstep : queueChild node (walk, queue) child = (walk.emit (.seen node child false), queue) := by
        rw [queueChild, if_pos (List.contains_iff_mem.mpr hin)]
      obtain ⟨old, new, after, hfold, hevents, hstopped, hreached, hdistinct, hperm, hold, hless⟩ :=
        @ih (walk.emit (.seen node child false)) queue hnodup hrest
      refine ⟨child :: old, new, after, ?_, ?_, hstopped, hreached, hdistinct, ?_, ?_, hless⟩
      · rw [hstep, hfold]
      · rw [hevents]
        simp [Walk.emit]
      · exact List.perm_middle.trans (hperm.cons child)
      · intro other hother
        rcases List.mem_cons.mp hother with rfl | hother
        · exact hreached.mem_iff.mpr (List.mem_append_right _ hin)
        · exact hold other hother
    · have hstep : queueChild node (walk, queue) child = (walk.reach child, queue ++ [child]) := by
        rw [queueChild, if_neg fun hmem => hin (List.contains_iff_mem.mp hmem)]
      obtain ⟨old, new, after, hfold, hevents, hstopped, hreached, hdistinct, hperm, hold, hless⟩ :=
        @ih (walk.reach child) (queue ++ [child]) (List.nodup_cons.mpr ⟨hin, hnodup⟩) hrest
      refine ⟨old, child :: new, after, ?_, hevents, hstopped, ?_, hdistinct, hperm.cons child, hold, ?_⟩
      · rw [hstep, hfold, List.append_assoc, List.singleton_append]
      · exact hreached.trans List.perm_middle
      · have hone := unreached_reach (hchildren child (List.mem_cons_self ..)) hin
        rw [List.length_cons]
        omega

omit [LawfulBEq α] in
theorem spread_succ {queue : List α} : spread graph flow visitor (steps + 1) (node :: queue) walk
    = ((walk.emit (.pre node)).heed (visitor.pre node)).andThen fun walk =>
        ((((graph.followed flow visitor node).foldl (queueChild node) (walk, queue)).1.emit
            (.post node)).heed (visitor.post node)).andThen
          (spread graph flow visitor steps
            ((graph.followed flow visitor node).foldl (queueChild node) (walk, queue)).2) := rfl

omit [LawfulBEq α] in
theorem spread_nil (hrunning : walk.stopped = false) :
    spread graph flow visitor steps [] walk = ⟨walk.events ++ [], walk.reached, false⟩ := by
  rw [List.append_nil, ← hrunning]
  cases steps <;> rfl

/-- A breadth-first walk goes through its queue and through what it puts there, of which there is no more
than there are nodes to reach. -/
theorem spread_accounts {queue behind : List α} (hvisitor : visitor.Tireless)
    (hrunning : walk.stopped = false) (hnodup : walk.reached.Nodup)
    (hqueue : walk.reached.Perm (queue ++ behind))
    (hsteps : queue.length + graph.unreached walk ≤ steps) : ∃ events tree after,
      spread graph flow visitor steps queue walk = ⟨walk.events ++ events, after, false⟩
      ∧ Accounts (graph.followed flow visitor) behind queue [] tree events after ∧ after.Nodup
      ∧ ∀ source target onPath, .seen source target onPath ∈ events → onPath = false := by
  -- on the steps that are left: each takes a node from the queue, and what it puts there was not reached
  induction steps generalizing queue behind walk with
  | zero =>
    obtain rfl : queue = [] := List.eq_nil_of_length_eq_zero (by omega)
    exact ⟨[], [], walk.reached, spread_nil hrunning, .nil hqueue, hnodup,
      fun _ _ _ h => absurd h List.not_mem_nil⟩
  | succ steps ih =>
    cases queue with
    | nil => exact ⟨[], [], walk.reached, spread_nil hrunning, .nil hqueue, hnodup,
        fun _ _ _ h => absurd h List.not_mem_nil⟩
    | cons node queue =>
      obtain ⟨old, new, mid, hfold, hevents, hstopped, hreached, hdistinct, hperm, hold, hless⟩ :=
        queueChildren_eq node queue (show (walk.emit (.pre node)).reached.Nodup from hnodup)
          fun child (hchild : child ∈ graph.followed flow visitor node) => followed_mem hchild
      have hnext : (mid.emit (.post node)).reached.Perm (queue ++ new ++ node :: behind) := by
        rw [List.cons_append] at hqueue
        refine hreached.trans ((hqueue.append_left new).trans (List.perm_middle.trans ?_))
        rw [← List.append_assoc]
        exact ((List.perm_append_comm.append_right behind).cons node).trans List.perm_middle.symm
      have hbound : (queue ++ new).length + graph.unreached (mid.emit (.post node)) ≤ steps := by
        have : graph.unreached (walk.emit (.pre node)) = graph.unreached walk := rfl
        have : graph.unreached (mid.emit (.post node)) = graph.unreached mid := rfl
        rw [List.length_cons] at hsteps
        rw [List.length_append]
        omega
      obtain ⟨events, tree, after, hspread, haccounts, hafter, hflags⟩ :=
        @ih (mid.emit (.post node)) _ _ (hstopped.trans hrunning) hdistinct hnext hbound
      refine ⟨_, _, after, ?_, haccounts.queue hperm ?_, hafter, ?_⟩
      · have hpre : (walk.emit (.pre node)).stopped = false := hrunning
        have hpost : (mid.emit (.post node)).stopped = false := hstopped.trans hrunning
        rw [spread_succ, Walk.heed_of_ne_stop (hvisitor.pre node), Walk.andThen_running hpre, hfold,
          Walk.heed_of_ne_stop (hvisitor.post node), Walk.andThen_running hpost, hspread]
        simp [Walk.emit, hevents]
      · intro child hchild
        exact haccounts.subset (hnext.mem_iff.mp (hold child hchild))
      · intro source target onPath hin
        rcases List.mem_cons.mp hin with he | hin
        · cases he
        rcases List.mem_append.mp hin with hin | hin
        · obtain ⟨_, _, he⟩ := List.mem_map.mp hin
          cases he
          rfl
        rcases List.mem_cons.mp hin with he | hin
        · cases he
        exact hflags source target onPath hin

/-! ## From all roots -/

/-- What tells the events of a walk of one order from those of the other: brackets depth first, and breadth
first no edge that leads back. -/
def Shaped (order : Order) (events : List (Event α)) : Prop :=
  match order with
  | .depthFirst => replay [] events = some []
  | .breadthFirst => ∀ source target onPath, .seen source target onPath ∈ events → onPath = false

omit [LawfulBEq α] in
/-- Without events there is nothing to tell of the order. -/
theorem Shaped.nil (order : Order) : Shaped order ([] : List (Event α)) := by
  cases order with
  | depthFirst => rfl
  | breadthFirst => exact fun _ _ _ h => absurd h List.not_mem_nil

omit [LawfulBEq α] in
/-- Two stretches of the same order make up one. -/
theorem Shaped.append {order : Order} {events more : List (Event α)} (h : Shaped order events)
    (k : Shaped order more) : Shaped order (events ++ more) := by
  cases order with
  | depthFirst =>
    show replay [] (events ++ more) = some []
    rw [replay_append, show replay [] events = some [] from h]
    exact k
  | breadthFirst =>
    intro source target onPath hin
    rcases List.mem_append.mp hin with hin | hin
    · exact h source target onPath hin
    · exact k source target onPath hin

/-- What a stretch of a walk does that takes the nodes reached from `before` to `after`. -/
structure Excursion (next : α → List α) (order : Order) (before starts : List α)
    (tree : List (α × α)) (events : List (Event α)) (after : List α) : Prop where
  accounts : Accounts next before starts [] tree events after
  nodup : after.Nodup
  shaped : Shaped order events

/-- A walk from one more root is an excursion from what was reached before it. The root starts it, unless
that was reached already. -/
theorem walkRoot_excursion (graph : Digraph α) (flow : Flow) (order : Order)
    (hvisitor : visitor.Tireless) (hrunning : walk.stopped = false) (hnodup : walk.reached.Nodup)
    (root : α) : ∃ starts events tree after,
      walkRoot graph flow order visitor walk root = ⟨walk.events ++ events, after, false⟩
      ∧ starts.Sublist [root] ∧ root ∈ after
      ∧ Excursion (graph.followed flow visitor) order walk.reached starts tree events after := by
  rw [walkRoot, Walk.andThen_running hrunning]
  -- a root that was reached before is passed over
  by_cases hin : root ∈ walk.reached
  · rw [if_pos (List.contains_iff_mem.mpr hin)]
    refine ⟨[], [], [], walk.reached, ?_, List.nil_sublist _, hin, .nil (.refl _), hnodup, .nil order⟩
    rw [List.append_nil, ← hrunning]
  · rw [if_neg fun hmem => hin (List.contains_iff_mem.mp hmem)]
    have hdistinct : (root :: walk.reached).Nodup := List.nodup_cons.mpr ⟨hin, hnodup⟩
    have hstart : (walk.reach root).stopped = false := hrunning
    have hbound : graph.unreached (walk.reach root) < graph.nodes.length + 1 :=
      Nat.lt_succ_of_le List.countP_le_length
    cases order with
    | depthFirst =>
      obtain ⟨events, after, hdescend, htour⟩ := descend_tour [] root hvisitor hstart hbound
      obtain ⟨tree, haccounts⟩ := htour.accounts
      refine ⟨[root], _, tree, after, hdescend, .refl _, htour.subset (List.mem_cons_self ..),
        haccounts.enclose, htour.nodup hdistinct, ?_⟩
      show replay [root] (events ++ [.post root]) = some []
      rw [replay_append, htour.replay_eq, Option.bind_some, replay, if_pos (beq_self_eq_true root)]
      rfl
    | breadthFirst =>
      have hsteps : [root].length + graph.unreached (walk.reach root) ≤ graph.nodes.length + 1 := by
        rw [List.length_singleton]
        omega
      have hqueue : (walk.reach root).reached.Perm ([root] ++ walk.reached) := .refl _
      obtain ⟨events, tree, after, hspread, haccounts, hafter, hflags⟩ :=
        spread_accounts hvisitor hstart hdistinct hqueue hsteps
      exact ⟨[root], events, tree, after, hspread, .refl _, haccounts.subset (List.mem_cons_self ..),
        haccounts, hafter, hflags⟩

/-- A walk from one root after the other is an excursion, which starts at those of the roots that were not
reached from the ones before. The induction is on the roots. -/
theorem walkRoots_excursion (graph : Digraph α) (flow : Flow) (order : Order)
    (hvisitor : visitor.Tireless) (hrunning : walk.stopped = false) (hnodup : walk.reached.Nodup)
    (roots : List α) : ∃ starts events tree after,
      roots.foldl (walkRoot graph flow order visitor) walk = ⟨walk.events ++ events, after, false⟩
      ∧ starts.Sublist roots ∧ roots ⊆ after
      ∧ Excursion (graph.followed flow visitor) order walk.reached starts tree events after := by
  -- the walks from the roots are put behind each other
  induction roots generalizing walk with
  | nil =>
    refine ⟨[], [], [], walk.reached, ?_, .refl _, List.nil_subset _, .nil (.refl _), hnodup, .nil order⟩
    rw [List.append_nil, ← hrunning]
    rfl
  | cons root roots ih =>
    obtain ⟨starts, events, tree, mid, hroot, hstarts, hmem, hfirst⟩ :=
      walkRoot_excursion graph flow order hvisitor hrunning hnodup root
    obtain ⟨starts', events', tree', after, hwalk, hstarts', hroots, hrest⟩ :=
      @ih ⟨walk.events ++ events, mid, false⟩ rfl hfirst.nodup
    refine ⟨starts ++ starts', events ++ events', tree ++ tree', after, ?_, hstarts.append hstarts', ?_,
      hfirst.accounts.append hrest.accounts, hrest.nodup, hfirst.shaped.append hrest.shaped⟩
    · rw [List.foldl_cons, hroot, hwalk, List.append_assoc]
    · intro other hother
      rcases List.mem_cons.mp hother with rfl | hother
      · exact hrest.accounts.subset (List.mem_append_right _ hmem)
      · exact hroots hother

end

end Splice.Digraph
