import Splice.Block.Tree

/-!
# Shapes of the tree of blocks

The tree of blocks is stored as nodes that refer to each other by handles. A `Shape` is
the tree that such nodes stand for, and a `Path` the part of a tree that is left when a
subtree is taken out of it, seen from the gap. What is said of rotations here needs no
nodes: they keep the order of the blocks (`rebalanced_blocks`), and where a balanced
subtree has grown by one level they balance the tree that it grows in
(`rebalanced_grown`), which has then grown by one level itself at most.

Rotations, and the choice between a single and a double one, are functions on shapes. Insertion
in a tree is proved right on shapes first and carried over to nodes after that
(`Splice.Proofs.Block.Rotation`), so no proof about heights and order meets a handle.
-/

namespace Splice

/-- A binary tree with a block in each node. -/
inductive Shape where
  | leaf
  | node (left : Shape) (block : BlockId) (right : Shape)

namespace Shape

def root? : Shape → Option BlockId
  | leaf => none
  | node _ block _ => some block

/-- The blocks of the tree in its order. -/
def blocks : Shape → List BlockId
  | leaf => []
  | node left block right => left.blocks ++ block :: right.blocks

def height : Shape → Nat
  | leaf => 0
  | node left _ right => 1 + max left.height right.height

/-- Nowhere in the tree do two siblings differ in height by more than one. -/
def Balanced : Shape → Prop
  | leaf => True
  | node left _ right =>
    left.Balanced ∧ right.Balanced ∧ left.height ≤ right.height + 1
      ∧ right.height ≤ left.height + 1

/-- The tree is balanced, and at most one level higher than `height`. -/
structure Grown (shape : Shape) (height : Nat) : Prop where
  balanced : shape.Balanced
  atLeast : height ≤ shape.height
  atMost : shape.height ≤ height + 1

theorem Balanced.grown {shape : Shape} (h : shape.Balanced) : shape.Grown shape.height :=
  ⟨h, Nat.le_refl _, Nat.le_succ _⟩

/-- No tree is higher than it has blocks. -/
theorem height_le_length (shape : Shape) : shape.height ≤ shape.blocks.length := by
  induction shape with
  | leaf => exact Nat.le_refl 0
  | node left block right ihl ihr =>
    rw [height, blocks, List.length_append, List.length_cons]
    omega

/-- The root of a tree is one of its blocks. -/
theorem mem_blocks_of_root {shape : Shape} {block : BlockId} (h : shape.root? = some block) :
    block ∈ shape.blocks := by
  cases shape with
  | leaf => cases h
  | node left b right =>
    obtain rfl := Option.some.inj h
    exact List.mem_append_right _ (List.mem_cons_self ..)

/-! ## Rotations -/

/-- The tree with its right child on top. -/
def rotatedLeft : Shape → Shape
  | node a x (node b y c) => node (node a x b) y c
  | shape => shape

/-- The tree with its left child on top. -/
def rotatedRight : Shape → Shape
  | node (node a y b) x c => node a y (node b x c)
  | shape => shape

/-- A rotation to the left keeps the order of the blocks. -/
theorem rotatedLeft_blocks (shape : Shape) : shape.rotatedLeft.blocks = shape.blocks := by
  unfold rotatedLeft
  split
  · simp [blocks]
  · rfl

/-- A rotation to the right keeps the order of the blocks. -/
theorem rotatedRight_blocks (shape : Shape) : shape.rotatedRight.blocks = shape.blocks := by
  unfold rotatedRight
  split
  · simp [blocks]
  · rfl

/-- The child that is to be raised, rotated before if it leans inwards. -/
def leaningLeft : Shape → Shape
  | node a x b => if a.height < b.height then (node a x b).rotatedLeft else node a x b
  | leaf => leaf

def leaningRight : Shape → Shape
  | node a x b => if b.height < a.height then (node a x b).rotatedRight else node a x b
  | leaf => leaf

/-- To raise a child, rotated or not, keeps the order of the blocks. -/
theorem leaningLeft_blocks (shape : Shape) : shape.leaningLeft.blocks = shape.blocks := by
  unfold leaningLeft
  split
  · split
    · exact rotatedLeft_blocks _
    · rfl
  · rfl

/-- To raise a child on the other side keeps the order of the blocks. -/
theorem leaningRight_blocks (shape : Shape) : shape.leaningRight.blocks = shape.blocks := by
  unfold leaningRight
  split
  · split
    · exact rotatedRight_blocks _
    · rfl
  · rfl

/-- The tree with the given root and subtrees, after the rotations that they call for. -/
def rebalanced (left : Shape) (block : BlockId) (right : Shape) : Shape :=
  if right.height + 1 < left.height then (node left.leaningLeft block right).rotatedRight
  else if left.height + 1 < right.height then (node left block right.leaningRight).rotatedLeft
  else node left block right

/-- Whichever rotations are called for, the order of the blocks is kept. -/
theorem rebalanced_blocks (left : Shape) (block : BlockId) (right : Shape) :
    (rebalanced left block right).blocks = left.blocks ++ block :: right.blocks := by
  unfold rebalanced
  split
  · rw [rotatedRight_blocks, blocks, leaningLeft_blocks]
  · split
    · rw [rotatedLeft_blocks, blocks, leaningRight_blocks]
    · rfl

/-- A left subtree that is too high by one level is balanced by a rotation to the right. -/
theorem raisedLeft_grown {left right : Shape} (block : BlockId) (hl : left.Balanced)
    (hr : right.Balanced) (h : left.height = right.height + 2) :
    ((node left.leaningLeft block right).rotatedRight).Grown (right.height + 2) := by
  cases left with
  | leaf => simp [height] at h
  | node a x b =>
    obtain ⟨ha, hb, hab, hba⟩ := hl
    rw [height] at h
    by_cases hlean : a.height < b.height
    · -- the inner subtree is the higher one, and its root comes out on top
      rw [leaningLeft, if_pos hlean]
      cases b with
      | leaf => simp [height] at hlean
      | node c y d =>
        obtain ⟨hc, hd, hcd, hdc⟩ := hb
        show (node (node a x c) y (node d block right)).Grown _
        have hinner : (node c y d).height = 1 + max c.height d.height := rfl
        have hfront : (node a x c).height = 1 + max a.height c.height := rfl
        have hback : (node d block right).height = 1 + max d.height right.height := rfl
        exact ⟨⟨⟨ha, hc, by omega, by omega⟩, ⟨hd, hr, by omega, by omega⟩, by omega, by omega⟩,
          by rw [height]; omega, by rw [height]; omega⟩
    · rw [leaningLeft, if_neg hlean]
      show (node a x (node b block right)).Grown _
      have hback : (node b block right).height = 1 + max b.height right.height := rfl
      exact ⟨⟨ha, ⟨hb, hr, by omega, by omega⟩, by omega, by omega⟩, by rw [height]; omega,
        by rw [height]; omega⟩

/-- Where the right subtree is higher by two, raising it leaves a balanced tree that is at most one level
higher than the two were allowed to be. The cases are those of the inner and the outer grandchild. -/
theorem raisedRight_grown {left right : Shape} (block : BlockId) (hl : left.Balanced)
    (hr : right.Balanced) (h : right.height = left.height + 2) :
    ((node left block right.leaningRight).rotatedLeft).Grown (left.height + 2) := by
  cases right with
  | leaf => simp [height] at h
  | node a x b =>
    obtain ⟨ha, hb, hab, hba⟩ := hr
    rw [height] at h
    by_cases hlean : b.height < a.height
    · rw [leaningRight, if_pos hlean]
      cases a with
      | leaf => simp [height] at hlean
      | node c y d =>
        obtain ⟨hc, hd, hcd, hdc⟩ := ha
        show (node (node left block c) y (node d x b)).Grown _
        have hinner : (node c y d).height = 1 + max c.height d.height := rfl
        have hfront : (node left block c).height = 1 + max left.height c.height := rfl
        have hback : (node d x b).height = 1 + max d.height b.height := rfl
        exact ⟨⟨⟨hl, hc, by omega, by omega⟩, ⟨hd, hb, by omega, by omega⟩, by omega, by omega⟩,
          by rw [height]; omega, by rw [height]; omega⟩
    · rw [leaningRight, if_neg hlean]
      show (node (node left block a) x b).Grown _
      have hfront : (node left block a).height = 1 + max left.height a.height := rfl
      exact ⟨⟨⟨hl, ha, by omega, by omega⟩, hb, by omega, by omega⟩, by rw [height]; omega,
        by rw [height]; omega⟩

/-- Where subtrees whose heights fitted have grown, the tree is balanced by `rebalanced` and has grown
no more than they have. -/
theorem rebalanced_grown {left right : Shape} {block : BlockId} {m n : Nat} (hl : left.Grown m)
    (hr : right.Grown n) (hmn : m ≤ n + 1) (hnm : n ≤ m + 1) :
    (rebalanced left block right).Grown (1 + max m n) := by
  obtain ⟨hl, hml, hlm⟩ := hl
  obtain ⟨hr, hnr, hrn⟩ := hr
  unfold rebalanced
  split
  next hhigh =>
    obtain ⟨hbalanced, hleast, hmost⟩ :=
      raisedLeft_grown block hl hr (by omega)
    exact ⟨hbalanced, by omega, by omega⟩
  next =>
    split
    next hhigh =>
      obtain ⟨hbalanced, hleast, hmost⟩ :=
        raisedRight_grown block hl hr (by omega)
      exact ⟨hbalanced, by omega, by omega⟩
    next => exact ⟨⟨hl, hr, by omega, by omega⟩, by rw [height]; omega, by rw [height]; omega⟩

end Shape

/-! ## Paths -/

/-- What is left of a tree when a subtree is taken out of it, from the gap up to the root. -/
inductive Path where
  | top
  /-- The gap is the left child of `block`. -/
  | leftOf (block : BlockId) (right : Shape) (up : Path)
  /-- The gap is the right child of `block`. -/
  | rightOf (left : Shape) (block : BlockId) (up : Path)

namespace Path

/-- The block right above the gap. -/
def parent? : Path → Option BlockId
  | top => none
  | leftOf block _ _ => some block
  | rightOf _ block _ => some block

/-- The tree with `shape` in the gap. -/
def fill : Path → Shape → Shape
  | top, shape => shape
  | leftOf block right up, shape => up.fill (.node shape block right)
  | rightOf left block up, shape => up.fill (.node left block shape)

/-- The blocks in front of the gap. -/
def front : Path → List BlockId
  | top => []
  | leftOf _ _ up => up.front
  | rightOf left block up => up.front ++ left.blocks ++ [block]

/-- The blocks behind the gap. -/
def back : Path → List BlockId
  | top => []
  | leftOf block right up => block :: right.blocks ++ up.back
  | rightOf _ _ up => up.back

/-- The blocks of the path and of the subtrees beside it. -/
def blocks (path : Path) : List BlockId := path.front ++ path.back

/-- A tree put into a gap has its blocks between those in front of the gap and those behind it. -/
theorem fill_blocks (path : Path) (shape : Shape) :
    (path.fill shape).blocks = path.front ++ shape.blocks ++ path.back := by
  induction path generalizing shape with
  | top => simp [fill, front, back]
  | leftOf block right up ih => simp [fill, ih, Shape.blocks, front, back]
  | rightOf left block up ih => simp [fill, ih, Shape.blocks, front, back]

/-- The tree is balanced around a gap for a subtree of the given height. -/
def Balanced : Path → Nat → Prop
  | top, _ => True
  | leftOf _ right up, height =>
    right.Balanced ∧ height ≤ right.height + 1 ∧ right.height ≤ height + 1
      ∧ up.Balanced (1 + max height right.height)
  | rightOf left _ up, height =>
    left.Balanced ∧ left.height ≤ height + 1 ∧ height ≤ left.height + 1
      ∧ up.Balanced (1 + max left.height height)

/-- A tree in a gap is balanced exactly if it is and the path is balanced around a gap of its height. -/
theorem fill_balanced {path : Path} {shape : Shape} :
    (path.fill shape).Balanced ↔ shape.Balanced ∧ path.Balanced shape.height := by
  induction path generalizing shape with
  | top => simp [fill, Balanced]
  | leftOf block right up ih =>
    rw [fill, ih]
    simp only [Shape.Balanced, Shape.height, Balanced]
    grind
  | rightOf left block up ih =>
    rw [fill, ih]
    simp only [Shape.Balanced, Shape.height, Balanced]
    grind

/-- Number of blocks between the gap and the root. -/
def length : Path → Nat
  | top => 0
  | leftOf _ _ up => up.length + 1
  | rightOf _ _ up => up.length + 1

/-- No path is longer than it has blocks. -/
theorem length_le (path : Path) : path.length ≤ path.blocks.length := by
  rw [blocks, List.length_append]
  induction path with
  | top => exact Nat.zero_le _
  | leftOf block right up ih =>
    simp only [length, front, back, List.length_append, List.length_cons]
    omega
  | rightOf left block up ih =>
    simp only [length, front, back, List.length_append, List.length_singleton]
    omega

/-- Each block of a tree has a place in it. -/
theorem exists_fill {shape : Shape} {block : BlockId} (h : block ∈ shape.blocks) (up : Path) :
    ∃ (path : Path) (left right : Shape), up.fill shape = path.fill (.node left block right) := by
  induction shape generalizing up with
  | leaf => cases h
  | node left b right ihl ihr =>
    rw [Shape.blocks, List.mem_append, List.mem_cons] at h
    rcases h with h | rfl | h
    · exact ihl h (.leftOf b right up)
    · exact ⟨up, left, right, rfl⟩
    · exact ihr h (.rightOf left b up)

end Path

end Splice
