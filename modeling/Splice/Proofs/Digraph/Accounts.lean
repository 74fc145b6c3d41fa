import Mathlib.Data.List.Perm.Basic
import Splice.Digraph.Traversal

/-!
# What the events of a walk account for

Every child of a node that is gone on from is either reached for the first time or met again.
`Accounts` says so of a stretch of a walk: the first meetings are the pairs of a `tree`, the
others are the events of the kind `seen`, and together they are the children of all nodes
that were gone on from. Stretches that follow one another are put together
(`Accounts.append`), so that both orders of walking are accounted for child by child.

`Accounts` has the nodes that were reached in front of the stretch and those that are reached
behind it as arguments, so the same statement serves depth first, where a stretch is what
happens between reaching a node and leaving it (`Accounts.enclose`), and breadth first, where it
is what one step of the queue does (`Accounts.queue`). The nodes that the stretch reaches on its
own account, and not over an edge, are its `starts`.
-/

namespace Splice.Digraph

variable {α : Type}

namespace Event

/-- The node that is reached. -/
def pre? : Event α → Option α
  | .pre node => some node
  | _ => none

/-- The node that is left. -/
def post? : Event α → Option α
  | .post node => some node
  | _ => none

/-- The ends of an edge to a node that was reached before. -/
def met? : Event α → Option (α × α)
  | .seen source target _ => some (source, target)
  | _ => none

end Event

section

variable {events more : List (Event α)} {node source target : α} {onPath : Bool}

/-- The nodes that are reached, in order. -/
def pres (events : List (Event α)) : List α := events.filterMap Event.pre?

/-- The nodes that are left, in order. -/
def posts (events : List (Event α)) : List α := events.filterMap Event.post?

/-- The edges to nodes that were reached before, in order. -/
def meets (events : List (Event α)) : List (α × α) := events.filterMap Event.met?

@[simp] theorem pres_nil : pres ([] : List (Event α)) = [] := rfl

@[simp] theorem posts_nil : posts ([] : List (Event α)) = [] := rfl

@[simp] theorem meets_nil : meets ([] : List (Event α)) = [] := rfl

@[simp] theorem pres_pre : pres (.pre node :: events) = node :: pres events := rfl

@[simp] theorem posts_pre : posts (.pre node :: events) = posts events := rfl

@[simp] theorem meets_pre : meets (.pre node :: events) = meets events := rfl

@[simp] theorem pres_post : pres (.post node :: events) = pres events := rfl

@[simp] theorem posts_post : posts (.post node :: events) = node :: posts events := rfl

@[simp] theorem meets_post : meets (.post node :: events) = meets events := rfl

@[simp] theorem pres_seen : pres (.seen source target onPath :: events) = pres events := rfl

@[simp] theorem posts_seen : posts (.seen source target onPath :: events) = posts events := rfl

@[simp]
theorem meets_seen : meets (.seen source target onPath :: events) = (source, target) :: meets events :=
  rfl

@[simp]
theorem pres_append : pres (events ++ more) = pres events ++ pres more := List.filterMap_append

@[simp]
theorem posts_append : posts (events ++ more) = posts events ++ posts more := List.filterMap_append

@[simp]
theorem meets_append : meets (events ++ more) = meets events ++ meets more := List.filterMap_append

/-- To meet nodes that were reached before reaches none. -/
theorem pres_met (node : α) (old : List α) :
    pres (old.map fun child => Event.seen node child false) = [] := by
  induction old with
  | nil => rfl
  | cons _ _ ih => exact ih

/-- To meet nodes that were reached before leaves none. -/
theorem posts_met (node : α) (old : List α) :
    posts (old.map fun child => Event.seen node child false) = [] := by
  induction old with
  | nil => rfl
  | cons _ _ ih => exact ih

/-- To meet nodes that were reached before follows one edge to each of them. -/
theorem meets_met (node : α) (old : List α) :
    meets (old.map fun child => Event.seen node child false) = old.map fun child => (node, child) := by
  induction old with
  | nil => rfl
  | cons _ _ ih => exact congrArg _ ih

/-- A node is reached exactly if the event of reaching it is there. -/
theorem mem_pres : node ∈ pres events ↔ .pre node ∈ events := by
  rw [pres, List.mem_filterMap]
  constructor
  · intro h
    obtain ⟨event, hevent, he⟩ := h
    cases event with
    | pre other =>
      obtain rfl := Option.some.inj he
      exact hevent
    | post | seen => cases he
  · intro h
    exact ⟨_, h, rfl⟩

end

/-! ## Accounts -/

/-- The edges that are followed from the nodes of a list. -/
def edges (next : α → List α) (nodes : List α) : List (α × α) :=
  nodes.flatMap fun node => (next node).map fun child => (node, child)

theorem edges_append (next : α → List α) (nodes more : List α) :
    edges next (nodes ++ more) = edges next nodes ++ edges next more := List.flatMap_append

theorem mem_edges {next : α → List α} {nodes : List α} {node child : α} :
    (node, child) ∈ edges next nodes ↔ node ∈ nodes ∧ child ∈ next node := by
  simp [edges]

theorem append_exchange {β : Type} (a b c d : List β) : (a ++ b ++ (c ++ d)).Perm (a ++ c ++ (b ++ d)) := by
  rw [List.append_assoc, List.append_assoc, ← List.append_assoc b, ← List.append_assoc c]
  exact (List.perm_append_comm.append_right d).append_left a

/-- The `events` of a stretch of a walk, which has reached the nodes `before` in front of it and
`after` behind it. The stretch reaches the nodes `starts` on its own account and the others over the edges
of the `tree`; it follows the edges `given`, which come from nodes in front of it, and those of the nodes that it
reaches. -/
structure Accounts (next : α → List α) (before starts : List α) (given tree : List (α × α))
    (events : List (Event α)) (after : List α) : Prop where
  reached : (pres events).Perm (starts ++ tree.map Prod.snd)
  left : (posts events).Perm (pres events)
  followed : (tree ++ meets events).Perm (given ++ edges next (pres events))
  known : after.Perm (pres events ++ before)
  /-- An edge that is met leads to a node that was reached. -/
  met : ∀ pair ∈ meets events, pair.2 ∈ after
  /-- A node is reached over an edge only once the other end was reached. -/
  order : ∀ pair ∈ tree, pair.1 ∈ given.map Prod.fst
    ∨ ∃ front back, events = front ++ .pre pair.2 :: back ∧ .pre pair.1 ∈ front

namespace Accounts

variable {next : α → List α} {before starts starts' mid after : List α} {given given' tree tree' : List (α × α)}
  {events events' : List (Event α)} {node child : α} {onPath : Bool}

/-- A stretch without events accounts for nothing. -/
theorem nil (h : after.Perm before) : Accounts next before [] [] [] [] after where
  reached := .nil
  left := .nil
  followed := .nil
  known := h
  met _ h := absurd h List.not_mem_nil
  order _ h := absurd h List.not_mem_nil

/-- What was reached in front of a stretch, and what it reaches on its own account, is reached behind
it. -/
theorem subset (h : Accounts next before starts given tree events after) : starts ++ before ⊆ after := by
  intro node hnode
  rw [h.known.mem_iff]
  rcases List.mem_append.mp hnode with hin | hin
  · exact List.mem_append_left _ (h.reached.mem_iff.mpr (List.mem_append_left _ hin))
  · exact List.mem_append_right _ hin

/-- Two stretches, one behind the other. -/
theorem append (h : Accounts next before starts given tree events mid)
    (k : Accounts next mid starts' given' tree' events' after) :
    Accounts next before (starts ++ starts') (given ++ given') (tree ++ tree') (events ++ events')
      after where
  reached := by
    rw [pres_append, List.map_append]
    exact (h.reached.append k.reached).trans (append_exchange ..)
  left := by
    rw [pres_append, posts_append]
    exact h.left.append k.left
  followed := by
    rw [pres_append, meets_append, edges_append]
    exact (append_exchange ..).trans ((h.followed.append k.followed).trans (append_exchange ..))
  known := by
    rw [pres_append, List.append_assoc]
    refine k.known.trans ((h.known.append_left _).trans ?_)
    rw [← List.append_assoc, ← List.append_assoc]
    exact List.perm_append_comm.append_right _
  met := by
    intro pair hpair
    rw [meets_append] at hpair
    rcases List.mem_append.mp hpair with hin | hin
    · exact k.known.mem_iff.mpr (List.mem_append_right _ (h.met pair hin))
    · exact k.met pair hin
  order := by
    intro pair hpair
    rw [List.map_append]
    rcases List.mem_append.mp hpair with hin | hin
    -- an edge of the first stretch is followed as before, and what was reached in front of it still is
    · rcases h.order pair hin with hgiven | ⟨front, back, hsplit, hfront⟩
      · exact .inl (List.mem_append_left _ hgiven)
      · exact .inr ⟨front, back ++ events', by rw [hsplit]; simp, hfront⟩
    · rcases k.order pair hin with hgiven | ⟨front, back, hsplit, hfront⟩
      · exact .inl (List.mem_append_right _ hgiven)
      · exact .inr ⟨events ++ front, back, by rw [hsplit]; simp, List.mem_append_right _ hfront⟩

/-- An edge to a node that was reached before. -/
theorem seen (h : child ∈ before) :
    Accounts next before [] [(node, child)] [] [.seen node child onPath] before where
  reached := .nil
  left := .nil
  followed := .refl _
  known := .refl _
  met pair hpair := by
    obtain rfl := List.mem_singleton.mp hpair
    exact h
  order _ h := absurd h List.not_mem_nil

theorem exists_split (h : node ∈ pres events) : ∃ front back, events = front ++ .pre node :: back :=
  List.append_of_mem (mem_pres.mp h)

/-- A node is reached, its children are gone to, and it is left. -/
theorem enclose (h : Accounts next (node :: before) [] ((next node).map fun child => (node, child)) tree
    events after) : Accounts next before [node] [] tree (.pre node :: (events ++ [.post node])) after where
  -- each of the lists takes one kind of event and passes over the others
  reached := by
    simp only [pres_pre, pres_append, pres_post, pres_nil, List.append_nil]
    exact h.reached.cons _
  left := by
    simp only [pres_pre, pres_append, pres_post, pres_nil, List.append_nil, posts_pre, posts_append,
      posts_post, posts_nil]
    exact (List.perm_append_singleton ..).trans (h.left.cons _)
  followed := by
    simp only [pres_pre, pres_append, pres_post, pres_nil, List.append_nil, meets_pre, meets_append,
      meets_post, meets_nil]
    exact h.followed
  known := by
    simp only [pres_pre, pres_append, pres_post, pres_nil, List.append_nil]
    exact h.known.trans List.perm_middle
  met := by
    intro pair hpair
    simp only [meets_pre, meets_append, meets_post, meets_nil, List.append_nil] at hpair
    exact h.met pair hpair
  order := by
    intro pair hpair
    refine .inr ?_
    rcases h.order pair hpair with hgiven | ⟨front, back, hsplit, hfront⟩
    · -- an edge from the node itself, which is reached in front of everything else
      have hsource : pair.1 = node := by
        rw [List.map_map] at hgiven
        obtain ⟨child, -, he⟩ := List.mem_map.mp hgiven
        exact he.symm
      have htarget : pair.2 ∈ pres events :=
        h.reached.mem_iff.mpr (List.mem_map_of_mem hpair)
      obtain ⟨front, back, hsplit⟩ := exists_split htarget
      exact ⟨.pre node :: front, back ++ [.post node], by rw [hsplit]; simp,
        hsource ▸ List.mem_cons_self ..⟩
    · exact ⟨.pre node :: front, back ++ [.post node], by rw [hsplit]; simp,
        List.mem_cons_of_mem _ hfront⟩

/-- What was reached on its own account is reached over an edge. -/
theorem discover (h : Accounts next before [child] [] tree events after) :
    Accounts next before [] [(node, child)] ((node, child) :: tree) events after where
  reached := h.reached
  left := h.left
  followed := h.followed.cons _
  known := h.known
  met := h.met
  order := by
    intro pair hpair
    rcases List.mem_cons.mp hpair with rfl | hin
    · exact .inl (List.mem_singleton_self _)
    · rcases h.order pair hin with hgiven | hsplit
      · cases hgiven
      · exact .inr hsplit

/-- A node is reached, its children are met or put behind the nodes that are reached next, and it is
left. -/
theorem queue {old new : List α}
    (h : Accounts next (node :: before) (starts ++ new) [] tree events after)
    (hchildren : (new ++ old).Perm (next node)) (hold : ∀ child ∈ old, child ∈ after) :
    Accounts next before (node :: starts) [] (new.map (fun child => (node, child)) ++ tree)
      (.pre node :: (old.map (fun child => .seen node child false) ++ .post node :: events)) after where
  reached := by
    simp only [pres_pre, pres_append, pres_met, pres_post, List.nil_append, List.map_append, List.map_map]
    rw [List.cons_append, ← List.append_assoc]
    refine List.Perm.cons _ (h.reached.trans ?_)
    simp [Function.comp_def]
  left := by
    simp only [pres_pre, pres_append, pres_met, pres_post, posts_pre, posts_append, posts_met, posts_post,
      List.nil_append]
    exact h.left.cons _
  followed := by
    -- the children that are met come before those that are put behind, in whichever order
    simp only [pres_pre, pres_append, pres_met, pres_post, meets_pre, meets_append, meets_met, meets_post,
      List.nil_append]
    refine (append_exchange ..).trans ?_
    rw [← List.map_append]
    exact (hchildren.map _).append h.followed
  known := by
    simp only [pres_pre, pres_append, pres_met, pres_post, List.nil_append]
    exact h.known.trans List.perm_middle
  met := by
    intro pair hpair
    simp only [meets_pre, meets_append, meets_met, meets_post] at hpair
    rcases List.mem_append.mp hpair with hin | hin
    · obtain ⟨child, hchild, rfl⟩ := List.mem_map.mp hin
      exact hold child hchild
    · exact h.met pair hin
  order := by
    intro pair hpair
    refine .inr ?_
    rcases List.mem_append.mp hpair with hin | hin
    · -- a child that was put behind is reached later
      obtain ⟨child, hchild, rfl⟩ := List.mem_map.mp hin
      have htarget : child ∈ pres events :=
        h.reached.mem_iff.mpr (List.mem_append_left _ (List.mem_append_right _ hchild))
      obtain ⟨front, back, hsplit⟩ := exists_split htarget
      exact ⟨.pre node :: (old.map (fun child => .seen node child false) ++ .post node :: front), back,
        by rw [hsplit]; simp, List.mem_cons_self ..⟩
    · rcases h.order pair hin with hgiven | ⟨front, back, hsplit, hfront⟩
      · cases hgiven
      · exact ⟨.pre node :: (old.map (fun child => .seen node child false) ++ .post node :: front), back,
          by rw [hsplit]; simp,
          List.mem_cons_of_mem _ (List.mem_append_right _ (List.mem_cons_of_mem _ hfront))⟩

end Accounts

end Splice.Digraph
