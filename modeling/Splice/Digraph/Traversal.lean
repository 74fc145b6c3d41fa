import Splice.Digraph.Basic

/-!
# Walking a graph

A walk starts at each of a list of roots in turn and reaches every node once, depth
first or breadth first. A visitor gives a verdict on each node when it is reached
(`pre`) and when it is left (`post`): go on, do not go to its children, or stop the
whole walk.

The result of a walk is the list of its events. A node gives the event `pre` when it
is reached and `post` when it is left: depth first when all its children are done,
breadth first as soon as its children are queued. An edge to a node that was reached
before gives the event `seen`; it says whether the node is still open, which never
holds breadth first.

Notes on the model:
* a visitor is a pair of verdicts and has no state, so what a visitor would gather is read off
  the events;
* depth first is a recursion bounded by the number of nodes that have not been reached, where
  the engine keeps a stack;
* breadth first is a recursion over a queue;
* both end without such bounds showing in the result (`walk_visits`).
-/

namespace Splice.Digraph

inductive Order where
  | depthFirst
  | breadthFirst
deriving DecidableEq

/-- What a visitor wants of the walk. -/
inductive Verdict where
  | proceed
  /-- Do not go to the children of the node. -/
  | skip
  /-- End the walk. -/
  | stop
deriving DecidableEq

/-- A verdict for each node, on reaching it and on leaving it. -/
structure Visitor (α : Type) where
  pre : α → Verdict
  post : α → Verdict

/-- The visitor that always goes on. -/
def Visitor.always {α : Type} : Visitor α := ⟨fun _ => .proceed, fun _ => .proceed⟩

/-- A step of a walk. -/
inductive Event (α : Type) where
  | pre (node : α)
  | post (node : α)
  /-- An edge to a node that was reached before. -/
  | seen (source target : α) (onPath : Bool)
deriving DecidableEq

/-- What has been walked so far. -/
structure Walk (α : Type) where
  events : List (Event α)
  /-- The nodes that were reached or queued. -/
  reached : List α
  stopped : Bool
deriving DecidableEq

namespace Walk

variable {α : Type}

def start : Walk α := ⟨[], [], false⟩

def emit (walk : Walk α) (event : Event α) : Walk α :=
  { walk with events := walk.events ++ [event] }

def reach (walk : Walk α) (node : α) : Walk α :=
  { walk with reached := node :: walk.reached }

/-- Ends the walk if the verdict is to stop. -/
def heed (walk : Walk α) (verdict : Verdict) : Walk α :=
  { walk with stopped := walk.stopped || verdict == .stop }

/-- Goes on with the walk unless it was stopped. -/
def andThen (walk : Walk α) (next : Walk α → Walk α) : Walk α :=
  if walk.stopped then walk else next walk

/-- The nodes in the order in which they were reached. -/
def preNodes (walk : Walk α) : List α :=
  walk.events.filterMap fun
    | .pre node => some node
    | _ => none

/-- The nodes in the order in which they were left. -/
def postNodes (walk : Walk α) : List α :=
  walk.events.filterMap fun
    | .post node => some node
    | _ => none

end Walk

variable {α : Type} [BEq α]

/-- The children that the walk goes on to from a node with the given verdict. -/
def expanded (graph : Digraph α) (flow : Flow) (node : α) : Verdict → List α
  | .proceed => graph.children flow node
  | _ => []

/-- Walks depth first from `node`, which has just been reached, over paths of at most `depth` further
nodes. `path` holds the open nodes above it. -/
def descend (graph : Digraph α) (flow : Flow) (visitor : Visitor α) :
    (depth : Nat) → (path : List α) → (node : α) → Walk α → Walk α
  | 0, _, _, walk => walk
  | depth + 1, path, node, walk =>
    let verdict := visitor.pre node
    let open_ := node :: path
    let visitChild (walk : Walk α) (child : α) : Walk α :=
      walk.andThen fun walk =>
        if walk.reached.contains child then
          walk.emit (.seen node child (open_.contains child))
        else
          descend graph flow visitor depth open_ child (walk.reach child)
    let below :=
      (expanded graph flow node verdict).foldl visitChild ((walk.emit (.pre node)).heed verdict)
    below.andThen fun walk => (walk.emit (.post node)).heed (visitor.post node)

/-- A child of a node that is walked breadth first is queued the first time it is met. -/
def queueChild (node : α) (state : Walk α × List α) (child : α) : Walk α × List α :=
  if state.1.reached.contains child then
    (state.1.emit (.seen node child false), state.2)
  else
    (state.1.reach child, state.2 ++ [child])

/-- Walks breadth first over the queue, at most `steps` nodes. -/
def spread (graph : Digraph α) (flow : Flow) (visitor : Visitor α) :
    (steps : Nat) → (queue : List α) → Walk α → Walk α
  | 0, _, walk => walk
  | _, [], walk => walk
  | steps + 1, node :: queue, walk =>
    let verdict := visitor.pre node
    ((walk.emit (.pre node)).heed verdict).andThen fun walk =>
      let (walk, queue) :=
        (expanded graph flow node verdict).foldl (queueChild node) (walk, queue)
      ((walk.emit (.post node)).heed (visitor.post node)).andThen
        (spread graph flow visitor steps queue)

/-- Walks from one root, unless it was reached before. Beside the root only nodes at the end of an
edge are reached, each of them once, which bounds depth and number of steps. -/
def walkRoot (graph : Digraph α) (flow : Flow) (order : Order) (visitor : Visitor α)
    (walk : Walk α) (root : α) : Walk α :=
  walk.andThen fun walk =>
    if walk.reached.contains root then
      walk
    else
      let bound := graph.nodes.length + 1
      match order with
      | .depthFirst => descend graph flow visitor bound [] root (walk.reach root)
      | .breadthFirst => spread graph flow visitor bound [root] (walk.reach root)

/-- Walks from each of the roots in turn. -/
def walk (graph : Digraph α) (roots : List α) (flow : Flow) (order : Order)
    (visitor : Visitor α) : Walk α :=
  roots.foldl (walkRoot graph flow order visitor) .start

end Splice.Digraph
