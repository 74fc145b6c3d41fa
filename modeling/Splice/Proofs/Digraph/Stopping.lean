import Splice.Proofs.Digraph.Tours

/-!
# Walks that are stopped

A visitor that stops a walk cuts it short and does nothing else: up to the event at which it
stops, the walk is the one of the visitor that goes on there (`Visitor.resumed`), and nothing
comes behind that event (`walk_cut`). This is kept by every step (`Cut`): as long as no event has
ended the walk, both walks are the same, and from then on the one stays as it is while the
other one only gets longer (`Grows`).

Both walks are run side by side with the same bounds on depth and steps. Depth first a walk may
be stopped on the way down or on the way back up, and breadth first in front of the children of
a node or behind them; the bounds are not used up earlier for it, as `Cut` speaks of events and
not of steps. What was reached by the whole walk and not by the one that is cut short is of no
concern: it is known from the events.
-/

namespace Splice.Digraph

variable {α : Type}

/-- The verdict to stop, read as the verdict to go on. -/
def Verdict.resumed : Verdict → Verdict
  | .stop => .proceed
  | verdict => verdict

/-- The visitor that goes on where this one stops. -/
def Visitor.resumed (visitor : Visitor α) : Visitor α where
  pre node := (visitor.pre node).resumed
  post node := (visitor.post node).resumed

/-- The visitor ends the walk at the event. -/
def Visitor.ends (visitor : Visitor α) : Event α → Bool
  | .pre node => visitor.pre node == .stop
  | .post node => visitor.post node == .stop
  | .seen .. => false

/-- The list up to its first element with the property, that element included. -/
def upTo {β : Type} (p : β → Bool) : List β → List β
  | [] => []
  | first :: rest => first :: if p first then [] else upTo p rest

section

variable {β : Type} {p : β → Bool} {front : List β}

/-- The first element with a property is in the front part if that has one, else it is in the back
part. -/
theorem upTo_append (front back : List β) :
    upTo p (front ++ back) = if front.any p then upTo p front else front ++ upTo p back := by
  induction front with
  | nil => rfl
  | cons first front ih =>
    rw [List.cons_append, upTo, upTo, ih, List.any_cons]
    by_cases hfirst : p first = true
    · simp [hfirst]
    · rw [if_neg hfirst, if_neg hfirst]
      simp only [Bool.not_eq_true] at hfirst
      rw [hfirst, Bool.false_or]
      split <;> rfl

theorem upTo_of_any (back : List β) (h : front.any p = true) : upTo p (front ++ back) = upTo p front := by
  rw [upTo_append, if_pos h]

/-- A list without an element with the property is not cut short. -/
theorem upTo_of_none (h : front.any p = false) : upTo p front = front := by
  have happend := upTo_append (p := p) front []
  rw [List.append_nil, h] at happend
  simpa [upTo] using happend

end

theorem Verdict.resumed_ne_stop (verdict : Verdict) : verdict.resumed ≠ .stop := by
  cases verdict <;> exact Verdict.noConfusion

/-- A verdict that is not to stop is not changed. -/
theorem Verdict.resumed_of_ne_stop {verdict : Verdict} (h : verdict ≠ .stop) : verdict.resumed = verdict := by
  cases verdict with
  | proceed | skip => rfl
  | stop => exact absurd rfl h

theorem Visitor.resumed_tireless (visitor : Visitor α) : visitor.resumed.Tireless where
  pre _ := Verdict.resumed_ne_stop _
  post _ := Verdict.resumed_ne_stop _

variable {graph : Digraph α} {flow : Flow} {order : Order} {visitor : Visitor α}
  {walk after last : Walk α} {node : α} {path queue roots : List α} {depth steps : Nat}

/-! ## Walks get longer -/

/-- The walk goes on, with more events. -/
structure Grows (walk after : Walk α) : Prop where
  events : walk.events <+: after.events
  running : after.stopped = false

theorem Grows.refl (h : walk.stopped = false) : Grows walk walk := ⟨List.prefix_rfl, h⟩

theorem Grows.trans (h : Grows walk after) (k : Grows after last) : Grows walk last :=
  ⟨h.events.trans k.events, k.running⟩

theorem Grows.emit (h : Grows walk after) (event : Event α) : Grows walk (after.emit event) :=
  ⟨h.events.trans (List.prefix_append ..), h.running⟩

theorem Grows.foldl {β : Type} {f : Walk α → β → Walk α} {items : List β} (h : Grows walk after)
    (hstep : ∀ m : Walk α, m.stopped = false → ∀ item ∈ items, Grows m (f m item)) :
    Grows walk (items.foldl f after) :=
  List.foldlRecOn items f h fun m hm item hitem => hm.trans (hstep m hm.running item hitem)

variable [BEq α]

/-- To visit a child makes the walk go on, if the walk below it does. -/
theorem visitChild_grows {below : α → Walk α → Walk α} {child : α} (hrunning : walk.stopped = false)
    (hbelow : ∀ m : Walk α, m.stopped = false → Grows m (below child m)) :
    Grows walk (visitChild path node below walk child) := by
  rw [visitChild, Walk.andThen_running hrunning]
  split
  · exact (Grows.refl hrunning).emit _
  · obtain ⟨hevents, hafter⟩ := hbelow (walk.reach child) hrunning
    exact ⟨hevents, hafter⟩

/-- A walk below a node goes on with more events, if the visitor never ends it. -/
theorem descend_grows (hvisitor : visitor.Tireless) (hrunning : walk.stopped = false) :
    Grows walk (descend graph flow visitor depth path node walk) := by
  induction depth generalizing path node walk with
  | zero => exact .refl hrunning
  | succ depth ih =>
    rw [descend_eq, Walk.heed_of_ne_stop (hvisitor.pre node)]
    have hbelow : Grows walk ((graph.followed flow visitor node).foldl
        (visitChild (node :: path) node (descend graph flow visitor depth (node :: path)))
        (walk.emit (.pre node))) :=
      ((Grows.refl hrunning).emit _).foldl fun m hm child _ => visitChild_grows hm fun _ hreach => ih hreach
    rw [Walk.andThen_running hbelow.running, Walk.heed_of_ne_stop (hvisitor.post node)]
    exact hbelow.emit _

/-- To queue children makes the walk go on. -/
theorem queueChildren_grows (node : α) (children queue : List α) (hrunning : walk.stopped = false) :
    Grows walk (children.foldl (queueChild node) (walk, queue)).1 := by
  refine List.foldlRecOn (motive := fun state : Walk α × List α => Grows walk state.1) children
    (queueChild node) (Grows.refl hrunning) fun state hstate child _ => ?_
  rw [queueChild]
  split
  · exact hstate.emit _
  · exact ⟨hstate.events, hstate.running⟩

/-- A walk that spreads goes on with more events, if the visitor never ends it. -/
theorem spread_grows (hvisitor : visitor.Tireless) (hrunning : walk.stopped = false) :
    Grows walk (spread graph flow visitor steps queue walk) := by
  induction steps generalizing queue walk with
  | zero => exact .refl hrunning
  | succ steps ih =>
    cases queue with
    | nil => exact .refl hrunning
    | cons node queue =>
      have hpre : (walk.emit (.pre node)).stopped = false := hrunning
      have hqueued := queueChildren_grows node (graph.followed flow visitor node) queue hpre
      have hpost := ((Grows.refl hrunning).emit (.pre node)).trans (hqueued.emit (.post node))
      rw [spread_succ, Walk.heed_of_ne_stop (hvisitor.pre node), Walk.andThen_running hpre,
        Walk.heed_of_ne_stop (hvisitor.post node), Walk.andThen_running hpost.running]
      exact hpost.trans (ih hpost.running)

/-- A walk from one more root goes on with more events, if the visitor never ends it. -/
theorem walkRoot_grows (hvisitor : visitor.Tireless) (hrunning : walk.stopped = false) (root : α) :
    Grows walk (walkRoot graph flow order visitor walk root) := by
  rw [walkRoot, Walk.andThen_running hrunning]
  have hreach : (walk.reach root).stopped = false := hrunning
  split
  · exact .refl hrunning
  · cases order with
    | depthFirst =>
      have hbelow : Grows (walk.reach root)
          (descend graph flow visitor (graph.nodes.length + 1) [] root (walk.reach root)) :=
        descend_grows hvisitor hreach
      exact ⟨hbelow.events, hbelow.running⟩
    | breadthFirst =>
      have hbelow : Grows (walk.reach root)
          (spread graph flow visitor (graph.nodes.length + 1) [root] (walk.reach root)) :=
        spread_grows hvisitor hreach
      exact ⟨hbelow.events, hbelow.running⟩

/-! ## Walks that are cut short -/

omit [BEq α] in
/-- The one walk is the other one, cut short at the first event that ends it. -/
structure Cut (visitor : Visitor α) (walk whole : Walk α) : Prop where
  events : walk.events = upTo visitor.ends whole.events
  stopped : walk.stopped = whole.events.any visitor.ends
  reached : walk.stopped = false → walk.reached = whole.reached
  running : whole.stopped = false

/-- Nothing has ended the walk. -/
structure Clean (visitor : Visitor α) (walk : Walk α) : Prop where
  running : walk.stopped = false
  none : walk.events.any visitor.ends = false

variable {whole : Walk α}

omit [BEq α] in
/-- A walk that nothing has ended is itself, cut short nowhere. -/
theorem Clean.cut (h : Clean visitor walk) : Cut visitor walk walk where
  events := (upTo_of_none h.none).symm
  stopped := h.running.trans h.none.symm
  reached _ := rfl
  running := h.running

omit [BEq α] in
/-- A walk that was not stopped is whole. -/
theorem Cut.eq (h : Cut visitor walk whole) (hrunning : walk.stopped = false) :
    walk = whole ∧ Clean visitor whole := by
  have hnone : whole.events.any visitor.ends = false := h.stopped.symm.trans hrunning
  have hevents := h.events
  rw [upTo_of_none hnone] at hevents
  refine ⟨?_, h.running, hnone⟩
  cases walk
  cases whole
  obtain rfl := hevents
  obtain rfl := h.reached hrunning
  obtain rfl := hrunning.trans h.running.symm
  rfl

omit [BEq α] in
/-- A walk that was stopped stays as it is, whatever comes behind. -/
theorem Cut.grow (h : Cut visitor walk whole) (hstopped : walk.stopped = true) (hgrows : Grows whole after) :
    Cut visitor walk after where
  events := by
    obtain ⟨more, hmore⟩ := hgrows.events
    rw [← hmore, upTo_of_any _ (h.stopped.symm.trans hstopped)]
    exact h.events
  stopped := by
    obtain ⟨more, hmore⟩ := hgrows.events
    rw [← hmore, List.any_append, ← h.stopped, hstopped]
    rfl
  reached hrunning := by
    rw [hstopped] at hrunning
    cases hrunning
  running := hgrows.running

omit [BEq α] in
/-- To go on from a walk that is cut short keeps it cut short: if it was ended before, the rest of the
whole walk only adds events behind that. -/
theorem Cut.andThen {next next' : Walk α → Walk α} (h : Cut visitor walk whole)
    (hnext : Clean visitor whole → Cut visitor (next whole) (next' whole))
    (hgrows : whole.stopped = false → Grows whole (next' whole)) :
    Cut visitor (walk.andThen next) (whole.andThen next') := by
  rw [Walk.andThen_running h.running]
  cases hstopped : walk.stopped with
  | true =>
    rw [Walk.andThen, if_pos hstopped]
    exact h.grow hstopped (hgrows h.running)
  | false =>
    obtain ⟨rfl, hclean⟩ := h.eq hstopped
    rw [Walk.andThen_running hstopped]
    exact hnext hclean

omit [BEq α] in
/-- A loop keeps one walk cut short of the other, if its rounds do. -/
theorem Cut.foldl {β : Type} {f f' : Walk α → β → Walk α} {items : List β} (h : Cut visitor walk whole)
    (hstep : ∀ (walk whole : Walk α) (item : β), Cut visitor walk whole →
      Cut visitor (f walk item) (f' whole item)) :
    Cut visitor (items.foldl f walk) (items.foldl f' whole) := by
  induction items generalizing walk whole with
  | nil => exact h
  | cons item items ih => exact ih (hstep walk whole item h)

omit [BEq α] in
theorem Clean.reach (h : Clean visitor walk) : Clean visitor (walk.reach node) := ⟨h.running, h.none⟩

omit [BEq α] in
/-- An edge to a node that was reached before ends no walk. -/
theorem Clean.seen (h : Clean visitor walk) {source target : α} {onPath : Bool} :
    Clean visitor (walk.emit (.seen source target onPath)) := by
  refine ⟨h.running, ?_⟩
  show (walk.events ++ [Event.seen source target onPath]).any visitor.ends = false
  rw [List.any_append, h.none]
  rfl

omit [BEq α] in
/-- The event on which a verdict is given. -/
theorem Clean.report (h : Clean visitor walk) {event : Event α} {verdict : Verdict}
    (hends : visitor.ends event = (verdict == .stop)) :
    Cut visitor ((walk.emit event).heed verdict) ((walk.emit event).heed verdict.resumed) := by
  rw [Walk.heed_of_ne_stop (Verdict.resumed_ne_stop verdict)]
  refine ⟨?_, ?_, fun _ => rfl, h.running⟩
  · show walk.events ++ [event] = upTo visitor.ends (walk.events ++ [event])
    rw [upTo_append, h.none]
    simp [upTo]
  · show (walk.stopped || verdict == .stop) = (walk.events ++ [event]).any visitor.ends
    rw [List.any_append, h.none, h.running, List.any_cons, hends, List.any_nil, Bool.or_false]

omit [BEq α] in
theorem followed_resumed (h : visitor.pre node ≠ .stop) :
    graph.followed flow visitor.resumed node = graph.followed flow visitor node := by
  show graph.expanded flow node (visitor.pre node).resumed = graph.expanded flow node (visitor.pre node)
  rw [Verdict.resumed_of_ne_stop h]

/-- The walk below a node is cut short at the first event that ends it. The induction is on the depth,
which both walks have in common. -/
theorem descend_cut (h : Clean visitor walk) :
    Cut visitor (descend graph flow visitor depth path node walk)
      (descend graph flow visitor.resumed depth path node walk) := by
  induction depth generalizing path node walk with
  | zero => exact h.cut
  | succ depth ih =>
    have hstart : Cut visitor ((walk.emit (.pre node)).heed (visitor.pre node))
        ((walk.emit (.pre node)).heed (visitor.resumed.pre node)) := h.report rfl
    have hchildren : Cut visitor
        ((graph.followed flow visitor node).foldl
          (visitChild (node :: path) node (descend graph flow visitor depth (node :: path)))
          ((walk.emit (.pre node)).heed (visitor.pre node)))
        ((graph.followed flow visitor.resumed node).foldl
          (visitChild (node :: path) node (descend graph flow visitor.resumed depth (node :: path)))
          ((walk.emit (.pre node)).heed (visitor.resumed.pre node))) := by
      have hvisit : ∀ m : Walk α, m.stopped = false → ∀ child, Grows m
          (visitChild (node :: path) node (descend graph flow visitor.resumed depth (node :: path)) m child) :=
        fun m hm child => visitChild_grows hm fun _ hreach => descend_grows visitor.resumed_tireless hreach
      by_cases hstop : visitor.pre node = .stop
      · -- the walk is stopped here, and the children of the node are only gone to by the other one
        have hnone : graph.followed flow visitor node = [] := by
          rw [followed, hstop]
          rfl
        rw [hnone]
        refine hstart.grow ?_ (Grows.foldl (.refl hstart.running) fun m hm child _ => hvisit m hm child)
        rw [hstop]
        simp [Walk.heed]
      · rw [followed_resumed hstop]
        refine hstart.foldl fun m whole child hm => hm.andThen (fun hclean => ?_) fun hrunning => ?_
        · split
          · exact hclean.seen.cut
          · exact ih hclean.reach
        · have hgrows := hvisit whole hrunning child
          rw [visitChild, Walk.andThen_running hrunning] at hgrows
          exact hgrows
    -- the walks differ in the verdicts only, so what is left is how they leave the node
    rw [descend_eq, descend_eq]
    refine hchildren.andThen (fun hclean => hclean.report rfl) fun hrunning => ?_
    rw [Walk.heed_of_ne_stop (visitor.resumed_tireless.post node)]
    exact (Grows.refl hrunning).emit _

/-- To queue children ends no walk. -/
theorem queueChildren_clean (node : α) (children queue : List α) (h : Clean visitor walk) :
    Clean visitor (children.foldl (queueChild node) (walk, queue)).1 := by
  refine List.foldlRecOn (motive := fun state : Walk α × List α => Clean visitor state.1) children
    (queueChild node) h fun state hstate child _ => ?_
  rw [queueChild]
  split
  · exact hstate.seen
  · exact hstate.reach

/-- Where the visitor stops, a spreading walk is cut short; it makes the same steps up to there. The
induction is on the number of steps. -/
theorem spread_cut (h : Clean visitor walk) :
    Cut visitor (spread graph flow visitor steps queue walk)
      (spread graph flow visitor.resumed steps queue walk) := by
  -- up to the answer that stops the one walk both are the same; behind it the other one only grows
  induction steps generalizing queue walk with
  | zero => exact h.cut
  | succ steps ih =>
    cases queue with
    | nil => exact h.cut
    | cons node queue =>
      have hstart : Cut visitor ((walk.emit (.pre node)).heed (visitor.pre node))
          ((walk.emit (.pre node)).heed (visitor.resumed.pre node)) := h.report rfl
      have htireless := visitor.resumed_tireless
      rw [spread_succ, spread_succ]
      refine hstart.andThen (fun hclean => ?_) fun hrunning => ?_
      · have hgoes : visitor.pre node ≠ .stop := by
          intro hstop
          have hends : visitor.ends (.pre node) = true := beq_iff_eq.mpr hstop
          have hnone := hclean.none
          rw [Walk.heed_of_ne_stop (htireless.pre node)] at hnone
          simp [Walk.emit, hends] at hnone
        rw [followed_resumed hgoes]
        have hqueued := queueChildren_clean node (graph.followed flow visitor node) queue hclean
        refine (hqueued.report rfl).andThen (fun hleft => ih hleft) fun hrunning => ?_
        exact spread_grows htireless hrunning
      · have hqueued := queueChildren_grows node (graph.followed flow visitor.resumed node) queue hrunning
        have hpost := hqueued.emit (.post node)
        rw [Walk.heed_of_ne_stop (htireless.post node), Walk.andThen_running hpost.running]
        exact hpost.trans (spread_grows htireless hpost.running)

/-- From one more root, the walk that is stopped is the one that is not, cut short. -/
theorem walkRoot_cut (h : Cut visitor walk whole) (root : α) :
    Cut visitor (walkRoot graph flow order visitor walk root)
      (walkRoot graph flow order visitor.resumed whole root) := by
  refine h.andThen (fun hclean => ?_) fun hrunning => ?_
  · split
    · exact hclean.cut
    · cases order with
      | depthFirst => exact descend_cut hclean.reach
      | breadthFirst => exact spread_cut hclean.reach
  · have hgrows : Grows whole (walkRoot graph flow order visitor.resumed whole root) :=
      walkRoot_grows visitor.resumed_tireless hrunning root
    rw [walkRoot, Walk.andThen_running hrunning] at hgrows
    exact hgrows

/-- A walk is the walk of the visitor that never stops, up to the event at which it is stopped. -/
theorem walk_cut (graph : Digraph α) (roots : List α) (flow : Flow) (order : Order) (visitor : Visitor α) :
    Cut visitor (graph.walk roots flow order visitor) (graph.walk roots flow order visitor.resumed) := by
  have hclean : Clean visitor (.start : Walk α) := ⟨rfl, rfl⟩
  exact hclean.cut.foldl fun _ _ root hcut => walkRoot_cut hcut root

end Splice.Digraph
