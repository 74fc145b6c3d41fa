import Splice.Block.Error

/-!
# The tree of blocks

A balanced binary tree whose in-order sequence is the sequence of the blocks, so that
the block of an address is found by a short search. The tree holds no blocks, only a
node for each, at the position of the block's handle; nodes refer to each other by
handles. New blocks are put right behind an existing one, and on the way back to the
root every node with children of too different heights is rotated.

`inOrder` is the sequence of the blocks, the view through which insertion is
described, and `firstUnbalanced?` checks every link, height and balance.

The operations are: `singleton` and `insertAfter`, with the retracing towards the root and the
two rotations; `find?`, the search by a comparison; `inOrder`; and `firstUnbalanced?`, the
check.

Notes on the model:
* every descent and every climb is bounded by the number of nodes, so none can run on through
  links that go in a circle; `depthBound` and `climbBound` say that the bound is not met in a
  tree;
* a step that meets a node which is not there is refused, where the engine would stop;
* nodes are kept in one list, in the order of the blocks' handles.
-/

namespace Splice

/-- The place of one block in the tree. -/
structure TreeNode where
  left : Option BlockId
  right : Option BlockId
  parent : Option BlockId
  /-- Height of the subtree below and including the node; a leaf has height 1. -/
  height : Nat
  /-- Height of the left subtree less that of the right one. -/
  balance : Int
deriving DecidableEq, Inhabited

/-- A balanced tree over blocks. -/
structure BlockTree where
  nodes : Array (Option TreeNode)
  root : Option BlockId
  size : Nat
deriving DecidableEq

namespace BlockTree

def empty : BlockTree := ⟨#[], none, 0⟩

instance : Inhabited BlockTree := ⟨empty⟩

def isEmpty (tree : BlockTree) : Bool := tree.size == 0

def node? (tree : BlockTree) (block : BlockId) : Option TreeNode :=
  (tree.nodes[block.index]?).join

def contains (tree : BlockTree) (block : BlockId) : Bool := (tree.node? block).isSome

/-- The height of the subtree at `block`; zero where there is none. -/
def heightOf (tree : BlockTree) (block : Option BlockId) : Nat :=
  ((block.bind tree.node?).map (·.height)).getD 0

def height (tree : BlockTree) : Nat := tree.heightOf tree.root

/-- A bound on the length of a path from the root, which meets no node twice. -/
def depthBound (tree : BlockTree) : Nat := tree.nodes.size + 1

/-- A bound on the number of nodes that are rebalanced on the way to the root. In a proper tree the
way is a path; where a block has two places in the tree, the rotations on it may lead over a node
more than once. -/
def climbBound (tree : BlockTree) : Nat := 4 * tree.depthBound

/-- The tree with the node of `block` set, filled up with empty places as needed. -/
def setNode (tree : BlockTree) (block : BlockId) (node : TreeNode) : BlockTree :=
  let missing := block.index + 1 - tree.nodes.size
  { tree with
    nodes := (tree.nodes ++ Array.replicate missing none).setIfInBounds block.index (some node) }

theorem node?_setNode (tree : BlockTree) (block other : BlockId) (node : TreeNode) :
    (tree.setNode block node).node? other
      = if other = block then some node else tree.node? other := by
  by_cases h : other = block
  · subst h
    have hsize : other.index
        < (tree.nodes ++ Array.replicate (other.index + 1 - tree.nodes.size) none).size := by
      simp only [Array.size_append, Array.size_replicate]
      omega
    simp only [node?, setNode, Array.getElem?_setIfInBounds_self_of_lt hsize, if_true]
    rfl
  · have hne : block.index ≠ other.index := fun he => h (Handle.ext_index he).symm
    simp only [node?, setNode, Array.getElem?_setIfInBounds_ne hne, Array.getElem?_append, h,
      if_false]
    split
    · rfl
    · next hlt =>
      rw [Array.getElem?_eq_none (by omega : tree.nodes.size ≤ other.index),
        Array.getElem?_replicate]
      split <;> rfl

/-- The tree with a new leaf for `block` below `parent`, which does not yet know of it. -/
def place (tree : BlockTree) (block : BlockId) (parent : Option BlockId) : BlockTree :=
  { tree.setNode block ⟨none, none, parent, 1, 0⟩ with size := tree.size + 1 }

/-- The tree of a single block. -/
def singleton (block : BlockId) : BlockTree :=
  { empty.place block none with root := some block }

/-- The in-order sequence of the subtree at `block`, down to the given depth. -/
def inOrderFrom (tree : BlockTree) : (depth : Nat) → (block : Option BlockId) → List BlockId
  | 0, _ => []
  | _, none => []
  | depth + 1, some block =>
    inOrderFrom tree depth ((tree.node? block).bind (·.left))
      ++ block :: inOrderFrom tree depth ((tree.node? block).bind (·.right))

/-- The blocks in the order of the tree. -/
def inOrder (tree : BlockTree) : List BlockId := tree.inOrderFrom tree.depthBound tree.root

/-- The blocks met by a search below `block`, down to the given depth. -/
def searchFrom (tree : BlockTree) (position : BlockId → Ordering) :
    (depth : Nat) → (block : Option BlockId) → List BlockId
  | 0, _ => []
  | _, none => []
  | depth + 1, some block =>
    match tree.node? block with
    | none => []
    | some node =>
      match position block with
      | .gt => block :: searchFrom tree position depth node.left
      | .lt => block :: searchFrom tree position depth node.right
      | .eq => [block]

/-- The blocks met by a search from the root. `position` says where a block lies relative to what is
searched: behind it (`gt`), in front of it (`lt`), or over it (`eq`). -/
def search (tree : BlockTree) (position : BlockId → Ordering) : List BlockId :=
  tree.searchFrom position tree.depthBound tree.root

/-- The block over what is searched, if the search ends at one. -/
def find? (tree : BlockTree) (position : BlockId → Ordering) : Option BlockId :=
  (tree.search position).getLast?.filter fun block => position block == .eq

/-- The height of the subtree at `block`, down to the given depth, or the first block in post-order
whose links, height or balance are wrong. -/
def checkFrom (tree : BlockTree) :
    (depth : Nat) → (block parent : Option BlockId) → Except BlockId Nat
  | _, none, _ => .ok 0
  | 0, some block, _ => .error block
  | depth + 1, some block, parent =>
    match tree.node? block with
    | none => .error block
    | some node =>
      if node.parent ≠ parent then
        .error block
      else do
        let left ← checkFrom tree depth node.left (some block)
        let right ← checkFrom tree depth node.right (some block)
        let balance := (left : Int) - right
        if balance < -1 ∨ 1 < balance ∨ node.balance ≠ balance
            ∨ node.height ≠ 1 + max left right then
          .error block
        else
          .ok node.height

/-- The first block in post-order whose links, height or balance are wrong. -/
def firstUnbalanced? (tree : BlockTree) : Option BlockId :=
  match tree.checkFrom tree.depthBound tree.root none with
  | .ok _ => none
  | .error block => some block

end BlockTree

/-- A computation that changes the tree and may be refused. -/
abbrev TreeM := EStateM GraphError BlockTree

namespace TreeM

/-- The node of `block`, which has to be in the tree. -/
def node (block : BlockId) : TreeM TreeNode := do
  match (← get).node? block with
  | some node => return node
  | none => throw (.missingBlock block)

/-- Changes the node of `block`, which has to be in the tree. -/
def update (block : BlockId) (f : TreeNode → TreeNode) : TreeM Unit := do
  let found ← node block
  modify fun tree => tree.setNode block (f found)

/-- Recomputes height and balance of a node from its children. -/
def updateBalance (block : BlockId) : TreeM Unit := do
  let found ← node block
  let tree ← get
  let left := tree.heightOf found.left
  let right := tree.heightOf found.right
  update block fun node =>
    { node with height := 1 + max left right, balance := (left : Int) - right }

/-- Makes the parent of `old`, or the root, point at `new` instead. -/
def replaceChild (parent : Option BlockId) (old new : BlockId) : TreeM Unit :=
  match parent with
  | none => modify fun tree => { tree with root := some new }
  | some parent => update parent fun node =>
    if node.left = some old then { node with left := some new } else { node with right := some new }

/-- Makes `parent` the parent of `child`, if there is a child. -/
def adopt (child : Option BlockId) (parent : BlockId) : TreeM Unit :=
  match child with
  | some child => update child fun node => { node with parent := some parent }
  | none => pure ()

/-- The child of `of` that a rotation raises, which has to be there. -/
def raised (child : Option BlockId) (of : BlockId) : TreeM BlockId :=
  match child with
  | some child => pure child
  | none => throw (.missingBlock of)

/-- Raises the right child of `x` above `x` and returns it. -/
def rotateLeft (x : BlockId) : TreeM BlockId := do
  let y ← raised (← node x).right x
  let inner := (← node y).left
  let parent := (← node x).parent
  update x fun node => { node with right := inner }
  adopt inner x
  update y fun node => { node with parent := parent }
  replaceChild parent x y
  update y fun node => { node with left := some x }
  update x fun node => { node with parent := some y }
  updateBalance x
  updateBalance y
  return y

/-- Raises the left child of `x` above `x` and returns it. -/
def rotateRight (x : BlockId) : TreeM BlockId := do
  let y ← raised (← node x).left x
  let inner := (← node y).right
  let parent := (← node x).parent
  update x fun node => { node with left := inner }
  adopt inner x
  update y fun node => { node with parent := parent }
  replaceChild parent x y
  update y fun node => { node with right := some x }
  update x fun node => { node with parent := some y }
  updateBalance x
  updateBalance y
  return y

/-- Rotates a node whose children differ in height by more than one, after rotating the higher child
if that leans inwards. Returns the root of the subtree. -/
def rebalance (block : BlockId) : TreeM BlockId := do
  let found ← node block
  if found.balance > 1 then
    let left ← raised found.left block
    -- what leans inwards would only change sides by a single rotation
    if (← node left).balance < 0 then
      discard (rotateLeft left)
    rotateRight block
  else if found.balance < -1 then
    let right ← raised found.right block
    if (← node right).balance > 0 then
      discard (rotateRight right)
    rotateLeft block
  else
    return block

/-- Rebalances from `block` up to the root, at most `steps` nodes. -/
def retrace : (steps : Nat) → (block : Option BlockId) → TreeM Unit
  | 0, _ => pure ()
  | _, none => pure ()
  | steps + 1, some block => do
    updateBalance block
    let top ← rebalance block
    retrace steps (← node top).parent

/-- The leftmost node of the subtree at `block`, at most `steps` nodes further down. -/
def leftmost : (steps : Nat) → (block : BlockId) → TreeM BlockId
  | 0, block => pure block
  | steps + 1, block => do
    match (← node block).left with
    | some left => leftmost steps left
    | none => return block

/-- Puts `new` right behind `existing` in the order of the tree. -/
def insertAfter (existing new : BlockId) : TreeM Unit := do
  let parent ←
    match (← node existing).right with
    | none =>
      update existing fun node => { node with right := some new }
      pure existing
    | some right =>
      let parent ← leftmost (← get).depthBound right
      update parent fun node => { node with left := some new }
      pure parent
  modify fun tree => tree.place new (some parent)
  retrace (← get).climbBound (some parent)

end TreeM

end Splice
