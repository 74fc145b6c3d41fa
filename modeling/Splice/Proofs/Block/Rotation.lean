import Splice.Proofs.Block.Shape
import Splice.Proofs.Chain.Order

/-!
# Rotations of the tree of blocks

What the nodes of a tree stand for is a `Shape`: `Shape.Stands` says that the nodes below
a parent are linked as the shape and know their heights and balances, and `Path.Hangs`
that the nodes above a gap are linked as the path; these need not know their heights, for
they are on the way up of a rebalancing that has not reached them. A rotation at the gap
turns what stands there and leaves what hangs above it (`rotateLeft_run`,
`rotateRight_run`), and on the way up to the root every level is balanced
(`retrace_run`).

`Rebalances` says what rebalancing a level leaves, whichever rotations it makes: the rotated
shape stands where the old one stood, under the same path, and the nodes are those of the same
blocks. Each of the two lemmas for it, left and right too high, covers a single and a double
rotation. Nodes apart from the ones that are turned stand for what they stood for (`Apart`).
-/

namespace Splice

/-! ## Nodes and what they stand for -/

namespace Shape

/-- Height of the left subtree less that of the right one. -/
def balance : Shape → Int
  | leaf => 0
  | node left _ right => (left.height : Int) - right.height

/-- The nodes below `parent` are linked as the shape, and know their heights and balances. -/
def Stands (nodes : BlockId → Option TreeNode) : (parent : Option BlockId) → Shape → Prop
  | _, leaf => True
  | parent, node left block right =>
    nodes block = some ⟨left.root?, right.root?, parent, (node left block right).height,
        (node left block right).balance⟩
      ∧ left.Stands nodes (some block) ∧ right.Stands nodes (some block)

variable {nodes nodes' : BlockId → Option TreeNode} {parent : Option BlockId} {shape : Shape}

/-- A subtree stands where its own nodes are the same. -/
theorem Stands.congr (h : shape.Stands nodes parent)
    (hsame : ∀ block ∈ shape.blocks, nodes' block = nodes block) : shape.Stands nodes' parent := by
  induction shape generalizing parent with
  | leaf => trivial
  | node left block right ihl ihr =>
    obtain ⟨hnode, hl, hr⟩ := h
    refine ⟨?_, ihl hl fun b hb => ?_, ihr hr fun b hb => ?_⟩
    · rw [hsame block (by simp [blocks]), hnode]
    · exact hsame b (by simp [blocks, hb])
    · exact hsame b (by simp [blocks, hb])

/-- The nodes of a subtree that stands are there. -/
theorem Stands.present (h : shape.Stands nodes parent) {block : BlockId} (hblock : block ∈ shape.blocks) :
    (nodes block).isSome := by
  induction shape generalizing parent with
  | leaf => cases hblock
  | node left b right ihl ihr =>
    obtain ⟨hnode, hl, hr⟩ := h
    rw [blocks, List.mem_append, List.mem_cons] at hblock
    rcases hblock with hin | rfl | hin
    · exact ihl hl hin
    · rw [hnode]
      rfl
    · exact ihr hr hin

end Shape

namespace Path

/-- The nodes above the gap are linked as the path, with `child` in the gap. -/
def Hangs (nodes : BlockId → Option TreeNode) (root : Option BlockId) :
    (child : Option BlockId) → Path → Prop
  | child, top => root = child
  | child, leftOf block right up =>
    (∃ height balance, nodes block = some ⟨child, right.root?, up.parent?, height, balance⟩)
      ∧ right.Stands nodes (some block) ∧ up.Hangs nodes root (some block)
  | child, rightOf left block up =>
    (∃ height balance, nodes block = some ⟨left.root?, child, up.parent?, height, balance⟩)
      ∧ left.Stands nodes (some block) ∧ up.Hangs nodes root (some block)

/-- What is above a gap hangs where its own nodes are the same. -/
theorem Hangs.congr {path : Path} {nodes nodes' : BlockId → Option TreeNode}
    {root child : Option BlockId} (h : path.Hangs nodes root child)
    (hsame : ∀ block ∈ path.blocks, nodes' block = nodes block) : path.Hangs nodes' root child := by
  induction path generalizing child with
  | top => exact h
  | leftOf block right up ih =>
    obtain ⟨⟨height, balance, hnode⟩, hright, hup⟩ := h
    refine ⟨⟨height, balance, ?_⟩, hright.congr fun b hb => ?_, ih hup fun b hb => ?_⟩
    · rw [hsame block (by simp [blocks, back]), hnode]
    · exact hsame b (by simp [blocks, back, hb])
    · exact hsame b (by grind [blocks, front, back])
  | rightOf left block up ih =>
    obtain ⟨⟨height, balance, hnode⟩, hleft, hup⟩ := h
    refine ⟨⟨height, balance, ?_⟩, hleft.congr fun b hb => ?_, ih hup fun b hb => ?_⟩
    · rw [hsame block (by simp [blocks, front]), hnode]
    · exact hsame b (by simp [blocks, front, hb])
    · exact hsame b (by grind [blocks, front, back])

/-- The nodes above a gap are there. -/
theorem Hangs.present {path : Path} {nodes : BlockId → Option TreeNode} {root child : Option BlockId}
    (h : path.Hangs nodes root child) {block : BlockId} (hblock : block ∈ path.blocks) :
    (nodes block).isSome := by
  induction path generalizing child with
  | top => cases hblock
  | leftOf b right up ih =>
    obtain ⟨⟨height, balance, hnode⟩, hright, hup⟩ := h
    have hcases : block = b ∨ block ∈ right.blocks ∨ block ∈ up.blocks := by
      grind [blocks, front, back]
    rcases hcases with rfl | hin | hin
    · rw [hnode]
      rfl
    · exact hright.present hin
    · exact ih hup hin
  | rightOf left b up ih =>
    obtain ⟨⟨height, balance, hnode⟩, hleft, hup⟩ := h
    have hcases : block = b ∨ block ∈ left.blocks ∨ block ∈ up.blocks := by
      grind [blocks, front, back]
    rcases hcases with rfl | hin | hin
    · rw [hnode]
      rfl
    · exact hleft.present hin
    · exact ih hup hin

/-- A tree stands if what is in the gap does and the rest hangs above it. -/
theorem hangs_of_stands {path : Path} {nodes : BlockId → Option TreeNode} {shape : Shape}
    (h : (path.fill shape).Stands nodes none) :
    path.Hangs nodes (path.fill shape).root? shape.root? ∧ shape.Stands nodes path.parent? := by
  induction path generalizing shape with
  | top => exact ⟨rfl, h⟩
  | leftOf block right up ih =>
    obtain ⟨hup, hnode, hleft, hright⟩ := ih h
    exact ⟨⟨⟨_, _, hnode⟩, hright, hup⟩, hleft⟩
  | rightOf left block up ih =>
    obtain ⟨hup, hnode, hleft, hright⟩ := ih h
    exact ⟨⟨⟨_, _, hnode⟩, hleft, hup⟩, hright⟩

/-- The block right above the gap is one of the path. -/
theorem mem_of_parent? {path : Path} {block : BlockId} (h : path.parent? = some block) :
    block ∈ path.blocks := by
  cases path with
  | top => cases h
  | leftOf b right up =>
    obtain rfl := Option.some.inj h
    simp [blocks, back]
  | rightOf left b up =>
    obtain rfl := Option.some.inj h
    simp [blocks, front]

end Path

/-! ## Changes of nodes -/

namespace BlockTree

/-- The trees have nodes for the same blocks. -/
structure SameBlocks (s t : BlockTree) : Prop where
  present : ∀ block, (t.node? block).isSome = (s.node? block).isSome
  room : t.nodes.size = s.nodes.size
  size : t.size = s.size

theorem SameBlocks.refl (s : BlockTree) : SameBlocks s s := ⟨fun _ => rfl, rfl, rfl⟩

theorem SameBlocks.trans {s t u : BlockTree} (h : SameBlocks s t) (h' : SameBlocks t u) :
    SameBlocks s u :=
  ⟨fun block => (h'.present block).trans (h.present block), h'.room.trans h.room,
    h'.size.trans h.size⟩

/-- The trees have nodes for the same blocks, and only those of `touched` have changed. -/
structure Touched (touched : List BlockId) (s t : BlockTree) : Prop extends SameBlocks s t where
  node? : ∀ block, block ∉ touched → t.node? block = s.node? block

theorem Touched.ne {touched block : BlockId} {s t : BlockTree} (h : Touched [touched] s t)
    (hne : block ≠ touched) : t.node? block = s.node? block :=
  h.node? block fun hin => hne (List.mem_singleton.mp hin)

theorem Touched.mono {few many : List BlockId} {s t : BlockTree} (h : Touched few s t)
    (hsub : ∀ block ∈ few, block ∈ many) : Touched many s t :=
  { h with node? := fun block hblock => h.node? block fun hin => hblock (hsub block hin) }

theorem index_lt_of_node? {tree : BlockTree} {block : BlockId} {node : TreeNode}
    (h : tree.node? block = some node) : block.index < tree.nodes.size := by
  rw [node?, Option.join_eq_some_iff] at h
  exact (Array.getElem?_eq_some_iff.mp h).1

/-- To set the node of a block touches that node alone. -/
theorem touched_setNode {tree : BlockTree} {block : BlockId} {node new : TreeNode}
    (h : tree.node? block = some node) : Touched [block] tree (tree.setNode block new) where
  node? other hother := by
    rw [node?_setNode, if_neg (fun he => hother (List.mem_singleton.mpr he))]
  present other := by
    rw [node?_setNode]
    split
    next he => rw [he, h]; rfl
    next => rfl
  room := by
    have hlt := index_lt_of_node? h
    simp only [setNode, Array.size_setIfInBounds, Array.size_append, Array.size_replicate]
    omega
  size := rfl

end BlockTree

namespace TreeM

variable {tree after : BlockTree} {block x y : BlockId}

/-- A node is read exactly if it is there, and the tree stays the same. -/
theorem node_ok {node : TreeNode} :
    TreeM.node block tree = .ok node after ↔ tree.node? block = some node ∧ after = tree := by
  unfold TreeM.node
  rw [bind_ok]
  constructor
  · rintro ⟨found, kept, hget, h⟩
    obtain ⟨rfl, rfl⟩ := get_ok.mp hget
    cases hnode : kept.node? block with
    | none =>
      rw [hnode] at h
      exact (throw_ok.mp h).elim
    | some found =>
      rw [hnode] at h
      obtain ⟨rfl, rfl⟩ := pure_ok.mp h
      exact ⟨rfl, rfl⟩
  · rintro ⟨hnode, rfl⟩
    refine ⟨after, after, rfl, ?_⟩
    rw [hnode]
    rfl

/-- Changing a node touches nothing else. -/
theorem update_run {node : TreeNode} (f : TreeNode → TreeNode) (h : tree.node? block = some node) :
    ∃ after, update block f tree = .ok () after ∧ after.node? block = some (f node)
      ∧ after.root = tree.root ∧ BlockTree.Touched [block] tree after := by
  refine ⟨tree.setNode block (f node), ?_, ?_, rfl, BlockTree.touched_setNode h⟩
  · simp only [update, bind_ok, modify_ok]
    exact ⟨node, tree, node_ok.mpr ⟨h, rfl⟩, rfl⟩
  · rw [BlockTree.node?_setNode, if_pos rfl]

/-- The height that is read at the root of a subtree is its height. -/
theorem heightOf_stands {shape : Shape} {parent : Option BlockId}
    (h : shape.Stands tree.node? parent) : tree.heightOf shape.root? = shape.height := by
  cases shape with
  | leaf => rfl
  | node left block right => simp [BlockTree.heightOf, Shape.root?, h.1]

/-- Once height and balance of a node are computed, it stands with what is below it. -/
theorem updateBalance_run {left right : Shape} {parent : Option BlockId} {height : Nat}
    {balance : Int} (hnode : tree.node? block = some ⟨left.root?, right.root?, parent, height, balance⟩)
    (hleft : left.Stands tree.node? (some block)) (hright : right.Stands tree.node? (some block))
    (hnotl : block ∉ left.blocks) (hnotr : block ∉ right.blocks) :
    ∃ after, updateBalance block tree = .ok () after
      ∧ (Shape.node left block right).Stands after.node? parent
      ∧ after.root = tree.root ∧ BlockTree.Touched [block] tree after := by
  obtain ⟨after, hrun, hafter, hroot, htouched⟩ :=
    update_run (fun node => { node with
      height := 1 + max (tree.heightOf left.root?) (tree.heightOf right.root?)
      balance := (tree.heightOf left.root? : Int) - tree.heightOf right.root? }) hnode
  refine ⟨after, ?_, ⟨?_, ?_, ?_⟩, hroot, htouched⟩
  · simp only [updateBalance, bind_ok, node_ok, get_ok]
    exact ⟨_, _, ⟨hnode, rfl⟩, _, _, ⟨rfl, rfl⟩, hrun⟩
  · rw [hafter, heightOf_stands hleft, heightOf_stands hright]
    rfl
  · exact hleft.congr fun b hb => htouched.ne fun he => hnotl (he ▸ hb)
  · exact hright.congr fun b hb => htouched.ne fun he => hnotr (he ▸ hb)

/-- A subtree is given another parent. -/
theorem adopt_run (block : BlockId) {shape : Shape} {parent : Option BlockId} (h : shape.Stands tree.node? parent)
    (hnodup : shape.blocks.Nodup) : ∃ after, adopt shape.root? block tree = .ok () after
      ∧ shape.Stands after.node? (some block) ∧ after.root = tree.root
      ∧ BlockTree.Touched shape.blocks tree after := by
  cases shape with
  | leaf => exact ⟨tree, rfl, trivial, rfl, .refl tree, fun _ _ => rfl⟩
  | node left top right =>
    obtain ⟨hnode, hleft, hright⟩ := h
    obtain ⟨after, hrun, hafter, hroot, htouched⟩ :=
      update_run (fun node => { node with parent := some block }) hnode
    rw [Shape.blocks, List.nodup_append] at hnodup
    obtain ⟨-, hnodup, hdisj⟩ := hnodup
    refine ⟨after, hrun, ⟨hafter, hleft.congr fun b hb => ?_, hright.congr fun b hb => ?_⟩, hroot,
      htouched.mono fun b hb => ?_⟩
    · exact htouched.ne (hdisj b hb top (List.mem_cons_self ..))
    · exact htouched.ne fun he => (List.nodup_cons.mp hnodup).1 (he ▸ hb)
    · rw [List.mem_singleton.mp hb]
      exact Shape.mem_blocks_of_root rfl

/-- The gap is filled by another subtree. -/
theorem replaceChild_run {path : Path} (h : path.Hangs tree.node? tree.root (some x))
    (hnodup : path.blocks.Nodup) (hx : x ∉ path.blocks) :
    ∃ after, replaceChild path.parent? x y tree = .ok () after
      ∧ path.Hangs after.node? after.root (some y)
      ∧ BlockTree.Touched path.blocks tree after := by
  -- the link that is written is the one on whose side the gap is
  cases path with
  | top => exact ⟨{ tree with root := some y }, rfl, rfl, ⟨fun _ => rfl, rfl, rfl⟩, fun _ _ => rfl⟩
  | leftOf block right up =>
    obtain ⟨⟨height, balance, hnode⟩, hright, hup⟩ := h
    obtain ⟨after, hrun, hafter, hroot, htouched⟩ := update_run
      (fun node => if node.left = some x then { node with left := some y }
        else { node with right := some y }) hnode
    simp only [Path.blocks, Path.front, Path.back, List.cons_append, List.nodup_append,
      List.nodup_cons, List.mem_cons, List.mem_append, not_or] at hnodup
    obtain ⟨-, ⟨⟨hnotr, hnotb⟩, -⟩, hdisj⟩ := hnodup
    refine ⟨after, hrun, ⟨⟨height, balance, ?_⟩, hright.congr fun b hb => ?_,
      hroot ▸ hup.congr fun b hb => htouched.ne ?_⟩, htouched.mono fun b hb => ?_⟩
    · rw [hafter, if_pos rfl]
    · exact htouched.ne fun he => hnotr (he ▸ hb)
    · rcases List.mem_append.mp hb with hb | hb
      · exact hdisj b hb block (.inl rfl)
      · exact fun he => hnotb (he ▸ hb)
    · rw [List.mem_singleton.mp hb]
      exact Path.mem_of_parent? rfl
  | rightOf left block up =>
    obtain ⟨⟨height, balance, hnode⟩, hleft, hup⟩ := h
    obtain ⟨after, hrun, hafter, hroot, htouched⟩ := update_run
      (fun node => if node.left = some x then { node with left := some y }
        else { node with right := some y }) hnode
    simp only [Path.blocks, Path.front, Path.back, List.mem_append, List.mem_singleton, not_or] at hx
    simp only [Path.blocks, Path.front, Path.back, List.nodup_append, List.mem_append,
      List.mem_singleton] at hnodup
    obtain ⟨⟨-, -, hfront⟩, -, hback⟩ := hnodup
    refine ⟨after, hrun, ⟨⟨height, balance, ?_⟩, hleft.congr fun b hb => ?_,
      hroot ▸ hup.congr fun b hb => htouched.ne ?_⟩, htouched.mono fun b hb => ?_⟩
    · rw [hafter, if_neg fun he => hx.1.1.2 (Shape.mem_blocks_of_root he)]
    · exact htouched.ne (hfront b (.inr hb) block rfl)
    · rcases List.mem_append.mp hb with hb | hb
      · exact hfront b (.inl hb) block rfl
      · exact (hback block (.inr rfl) b hb).symm
    · rw [List.mem_singleton.mp hb]
      exact Path.mem_of_parent? rfl

/-! ## Rotations -/

/-- What the two rotations have in common: `y` takes the place of its parent `x`, and `x` takes over
the inner child of `y`. `f` and `g` link `x` to that child and `y` to `x`. -/
def raise (x y : BlockId) (inner parent : Option BlockId) (f g : TreeNode → TreeNode) :
    TreeM BlockId := do
  update x f
  adopt inner x
  update y fun node => { node with parent := parent }
  replaceChild parent x y
  update y g
  update x fun node => { node with parent := some y }
  updateBalance x
  updateBalance y
  return y

/-- The places that a rotation links anew have no block in common. -/
structure Apart (path : Path) (x y : BlockId) (inner outer other : Shape) : Prop where
  ne : x ≠ y
  pathNodup : path.blocks.Nodup
  innerNodup : inner.blocks.Nodup
  above : ∀ z ∈ path.blocks, z ≠ x ∧ z ≠ y ∧ z ∉ inner.blocks
  moved : ∀ z ∈ inner.blocks, z ≠ x ∧ z ≠ y
  kept : ∀ z, z ∈ outer.blocks ∨ z ∈ other.blocks →
    z ≠ x ∧ z ≠ y ∧ z ∉ inner.blocks ∧ z ∉ path.blocks

/-- In a tree that names each block once, a rotation links anew what has no block in common. -/
theorem Apart.of_nodup {path : Path} {inner outer other : Shape}
    (h : (path.blocks ++ x :: y :: (inner.blocks ++ (outer.blocks ++ other.blocks))).Nodup) :
    Apart path x y inner outer other := by
  simp only [List.nodup_append, List.nodup_cons, List.mem_append, List.mem_cons, not_or] at h
  obtain ⟨hpath, ⟨⟨hxy, hxi, hxo⟩, ⟨hyi, hyo⟩, hinner, -, hinnerFar⟩, hpathFar⟩ := h
  refine ⟨hxy, hpath, hinner, fun z hz => ⟨?_, ?_, ?_⟩, fun z hz => ⟨?_, ?_⟩, fun z hz => ⟨?_, ?_, ?_, ?_⟩⟩
  · exact hpathFar z hz x (.inl rfl)
  · exact hpathFar z hz y (.inr (.inl rfl))
  · exact fun hin => hpathFar z hz z (.inr (.inr (.inl hin))) rfl
  · exact fun he => hxi (he ▸ hz)
  · exact fun he => hyi (he ▸ hz)
  · rintro rfl
    exact hz.elim hxo.1 hxo.2
  · rintro rfl
    exact hz.elim hyo.1 hyo.2
  · exact fun hin => hinnerFar z hin z hz rfl
  · exact fun hin => hpathFar z hin z (.inr (.inr (.inr hz))) rfl

/-- Before heights and balances are computed, `x` hangs below `y` with `inner` below itself, and all
else stands as it did. -/
theorem relink_run {path : Path} {inner outer other : Shape} {nx ny : TreeNode} {f g : TreeNode → TreeNode}
    (hx : tree.node? x = some nx) (hy : tree.node? y = some ny)
    (houter : outer.Stands tree.node? (some x)) (hinner : inner.Stands tree.node? (some y))
    (hother : other.Stands tree.node? (some y)) (hpath : path.Hangs tree.node? tree.root (some x))
    (hapart : Apart path x y inner outer other) :
    ∃ t, (∀ rest : TreeM BlockId, (do
          update x f
          adopt inner.root? x
          update y fun node => { node with parent := path.parent? }
          replaceChild path.parent? x y
          update y g
          update x fun node => { node with parent := some y }
          rest) tree = rest t)
      ∧ t.node? x = some { f nx with parent := some y }
      ∧ t.node? y = some (g { ny with parent := path.parent? })
      ∧ path.Hangs t.node? t.root (some y) ∧ outer.Stands t.node? (some x)
      ∧ inner.Stands t.node? (some x) ∧ other.Stands t.node? (some y) ∧ tree.SameBlocks t := by
  -- the six updates one by one; that none of them undoes another is what `hapart` is for
  obtain ⟨t₁, h₁, hx₁, hr₁, ht₁⟩ := update_run f hx
  obtain ⟨t₂, h₂, hinner₂, hr₂, ht₂⟩ :=
    adopt_run x (hinner.congr fun z hz => ht₁.ne (hapart.moved z hz).1) hapart.innerNodup
  have hyi : y ∉ inner.blocks := fun hin => (hapart.moved y hin).2 rfl
  have hxi : x ∉ inner.blocks := fun hin => (hapart.moved x hin).1 rfl
  have hy₂ : t₂.node? y = some ny := by
    rw [ht₂.node? y hyi, ht₁.ne hapart.ne.symm, hy]
  obtain ⟨t₃, h₃, hy₃, hr₃, ht₃⟩ := update_run (fun node => { node with parent := path.parent? }) hy₂
  have hpath₃ : path.Hangs t₃.node? t₃.root (some x) := by
    rw [hr₃, hr₂, hr₁]
    refine hpath.congr fun z hz => ?_
    obtain ⟨hzx, hzy, hzi⟩ := hapart.above z hz
    rw [ht₃.ne hzy, ht₂.node? z hzi, ht₁.ne hzx]
  have hxp : x ∉ path.blocks := fun hin => (hapart.above x hin).1 rfl
  have hyp : y ∉ path.blocks := fun hin => (hapart.above y hin).2.1 rfl
  obtain ⟨t₄, h₄, hpath₄, ht₄⟩ := replaceChild_run (y := y) hpath₃ hapart.pathNodup hxp
  have hy₄ : t₄.node? y = some { ny with parent := path.parent? } := by
    rw [ht₄.node? y hyp, hy₃]
  obtain ⟨t₅, h₅, hy₅, hr₅, ht₅⟩ := update_run g hy₄
  have hx₅ : t₅.node? x = some (f nx) := by
    rw [ht₅.ne hapart.ne, ht₄.node? x hxp, ht₃.ne hapart.ne, ht₂.node? x hxi, hx₁]
  obtain ⟨t₆, h₆, hx₆, hr₆, ht₆⟩ := update_run (fun node => { node with parent := some y }) hx₅
  have hkept : ∀ z, z ∈ outer.blocks ∨ z ∈ other.blocks → t₆.node? z = tree.node? z := by
    intro z hz
    obtain ⟨hzx, hzy, hzi, hzp⟩ := hapart.kept z hz
    rw [ht₆.ne hzx, ht₅.ne hzy, ht₄.node? z hzp, ht₃.ne hzy, ht₂.node? z hzi, ht₁.ne hzx]
  refine ⟨t₆, fun rest => ?_, hx₆, ?_, ?_, houter.congr fun z hz => hkept z (.inl hz), ?_,
    hother.congr fun z hz => hkept z (.inr hz), ?_⟩
  · rw [bind_run h₁, bind_run h₂, bind_run h₃, bind_run h₄, bind_run h₅, bind_run h₆]
  · rw [ht₆.ne hapart.ne.symm, hy₅]
  · rw [hr₆, hr₅]
    refine hpath₄.congr fun z hz => ?_
    obtain ⟨hzx, hzy, -⟩ := hapart.above z hz
    rw [ht₆.ne hzx, ht₅.ne hzy]
  · refine hinner₂.congr fun z hz => ?_
    obtain ⟨hzx, hzy⟩ := hapart.moved z hz
    rw [ht₆.ne hzx, ht₅.ne hzy, ht₄.node? z fun hin => (hapart.above z hin).2.2 hz, ht₃.ne hzy]
  · exact ((((ht₁.trans ht₂.1).trans ht₃.1).trans ht₄.1).trans ht₅.1).trans ht₆.1

/-- `outer` and `inner` become the children of `x`, and `x` and `other` those of `y`. -/
theorem raise_run {path : Path} {outer inner other l r l' r' : Shape} {nx ny : TreeNode}
    {f g : TreeNode → TreeNode}
    (hx : tree.node? x = some nx) (hy : tree.node? y = some ny)
    (houter : outer.Stands tree.node? (some x)) (hinner : inner.Stands tree.node? (some y))
    (hother : other.Stands tree.node? (some y))
    (hpath : path.Hangs tree.node? tree.root (some x))
    (hnodup : (path.blocks ++ x :: y :: (inner.blocks ++ (outer.blocks ++ other.blocks))).Nodup)
    (hlr : l = outer ∧ r = inner ∨ l = inner ∧ r = outer)
    (hlr' : l' = .node l x r ∧ r' = other ∨ l' = other ∧ r' = .node l x r)
    (hf : f nx = ⟨l.root?, r.root?, nx.parent, nx.height, nx.balance⟩)
    (hg : g { ny with parent := path.parent? }
      = ⟨l'.root?, r'.root?, path.parent?, ny.height, ny.balance⟩) :
    ∃ after, raise x y inner.root? path.parent? f g tree = .ok y after
      ∧ path.Hangs after.node? after.root (some y)
      ∧ (Shape.node l' y r').Stands after.node? path.parent?
      ∧ tree.SameBlocks after := by
  have hapart := Apart.of_nodup hnodup
  obtain ⟨t, hrun, hxt, hyt, hpatht, houtert, hinnert, hothert, ht⟩ :=
    relink_run (f := f) (g := g) hx hy houter hinner hother hpath hapart
  rw [hf] at hxt
  rw [hg] at hyt
  have hxo : x ∉ outer.blocks := fun hin => (hapart.kept x (.inl hin)).1 rfl
  have hxi : x ∉ inner.blocks := fun hin => (hapart.moved x hin).1 rfl
  have hyo : y ∉ outer.blocks := fun hin => (hapart.kept y (.inl hin)).2.1 rfl
  have hyi : y ∉ inner.blocks := fun hin => (hapart.moved y hin).2 rfl
  have hyo' : y ∉ other.blocks := fun hin => (hapart.kept y (.inr hin)).2.1 rfl
  -- heights are computed from below: that of `x` first, since `y` stands above it
  obtain ⟨t', hrun', hxt', hr', ht'⟩ : ∃ t', updateBalance x t = .ok () t'
      ∧ (Shape.node l x r).Stands t'.node? (some y) ∧ t'.root = t.root
      ∧ BlockTree.Touched [x] t t' := by
    rcases hlr with ⟨rfl, rfl⟩ | ⟨rfl, rfl⟩
    · exact updateBalance_run hxt houtert hinnert hxo hxi
    · exact updateBalance_run hxt hinnert houtert hxi hxo
  have hothert' : other.Stands t'.node? (some y) :=
    hothert.congr fun z hz => ht'.ne (hapart.kept z (.inr hz)).1
  have hyt' : t'.node? y = some ⟨l'.root?, r'.root?, path.parent?, ny.height, ny.balance⟩ := by
    rw [ht'.ne hapart.ne.symm, hyt]
  have hynot : y ∉ (Shape.node l x r).blocks := by
    rw [Shape.blocks, List.mem_append, List.mem_cons]
    rcases hlr with ⟨rfl, rfl⟩ | ⟨rfl, rfl⟩
    · exact fun h => h.elim hyo fun h => h.elim hapart.ne.symm hyi
    · exact fun h => h.elim hyi fun h => h.elim hapart.ne.symm hyo
  obtain ⟨after, hrun'', hyafter, hr'', hafter⟩ : ∃ after, updateBalance y t' = .ok () after
      ∧ (Shape.node l' y r').Stands after.node? path.parent? ∧ after.root = t'.root
      ∧ BlockTree.Touched [y] t' after := by
    rcases hlr' with ⟨rfl, rfl⟩ | ⟨rfl, rfl⟩
    · exact updateBalance_run hyt' hxt' hothert' hynot hyo'
    · exact updateBalance_run hyt' hothert' hxt' hyo' hynot
  refine ⟨after, ?_, ?_, hyafter, (ht.trans ht'.1).trans hafter.1⟩
  · rw [raise, hrun, bind_run hrun', bind_run hrun'']
    rfl
  · rw [hr'', hr']
    refine hpatht.congr fun z hz => ?_
    obtain ⟨hzx, hzy, -⟩ := hapart.above z hz
    rw [hafter.ne hzy, ht'.ne hzx]

/-- The right child of the subtree in the gap comes out on top of it. -/
theorem rotateLeft_run {path : Path} {a b c : Shape} {height : Nat} {balance : Int}
    (hx : tree.node? x = some ⟨a.root?, some y, path.parent?, height, balance⟩)
    (ha : a.Stands tree.node? (some x)) (hy : (Shape.node b y c).Stands tree.node? (some x))
    (hpath : path.Hangs tree.node? tree.root (some x))
    (hnodup : (path.fill (.node a x (.node b y c))).blocks.Nodup) :
    ∃ after, rotateLeft x tree = .ok y after ∧ path.Hangs after.node? after.root (some y)
      ∧ (Shape.node (.node a x b) y c).Stands after.node? path.parent?
      ∧ tree.SameBlocks after := by
  obtain ⟨hynode, hb, hc⟩ := hy
  have hperm : (path.fill (.node a x (.node b y c))).blocks.Perm
      (path.blocks ++ x :: y :: (b.blocks ++ (a.blocks ++ c.blocks))) := by
    rw [Path.fill_blocks, Path.blocks, List.perm_iff_count]
    intro z
    simp only [Shape.blocks, List.count_append, List.count_cons]
    omega
  obtain ⟨after, hrun, hafter⟩ := raise_run
    (f := fun node => { node with right := b.root? }) (g := fun node => { node with left := some x })
    hx hynode ha hb hc hpath (hperm.nodup_iff.mp hnodup) (.inl ⟨rfl, rfl⟩) (.inl ⟨rfl, rfl⟩) rfl rfl
  refine ⟨after, ?_, hafter⟩
  exact bind_ok.mpr ⟨_, tree, node_ok.mpr ⟨hx, rfl⟩, bind_ok.mpr ⟨y, tree, rfl,
    bind_ok.mpr ⟨_, tree, node_ok.mpr ⟨hynode, rfl⟩,
      bind_ok.mpr ⟨_, tree, node_ok.mpr ⟨hx, rfl⟩, hrun⟩⟩⟩⟩

/-- The left child of the subtree in the gap comes out on top of it. -/
theorem rotateRight_run {path : Path} {a b c : Shape} {height : Nat} {balance : Int}
    (hx : tree.node? x = some ⟨some y, c.root?, path.parent?, height, balance⟩)
    (hy : (Shape.node a y b).Stands tree.node? (some x)) (hc : c.Stands tree.node? (some x))
    (hpath : path.Hangs tree.node? tree.root (some x))
    (hnodup : (path.fill (.node (.node a y b) x c)).blocks.Nodup) :
    ∃ after, rotateRight x tree = .ok y after ∧ path.Hangs after.node? after.root (some y)
      ∧ (Shape.node a y (.node b x c)).Stands after.node? path.parent?
      ∧ tree.SameBlocks after := by
  obtain ⟨hynode, ha, hb⟩ := hy
  have hperm : (path.fill (.node (.node a y b) x c)).blocks.Perm
      (path.blocks ++ x :: y :: (b.blocks ++ (c.blocks ++ a.blocks))) := by
    rw [Path.fill_blocks, Path.blocks, List.perm_iff_count]
    intro z
    simp only [Shape.blocks, List.count_append, List.count_cons]
    omega
  obtain ⟨after, hrun, hafter⟩ := raise_run
    (f := fun node => { node with left := b.root? }) (g := fun node => { node with right := some x })
    hx hynode hc hb ha hpath (hperm.nodup_iff.mp hnodup) (.inr ⟨rfl, rfl⟩) (.inr ⟨rfl, rfl⟩) rfl rfl
  refine ⟨after, ?_, hafter⟩
  exact bind_ok.mpr ⟨_, tree, node_ok.mpr ⟨hx, rfl⟩, bind_ok.mpr ⟨y, tree, rfl,
    bind_ok.mpr ⟨_, tree, node_ok.mpr ⟨hynode, rfl⟩,
      bind_ok.mpr ⟨_, tree, node_ok.mpr ⟨hx, rfl⟩, hrun⟩⟩⟩⟩

/-- A subtree that leans to the right is rotated before it is raised to the right. -/
theorem leaningLeft_run (path : Path) {a b : Shape}
    (h : (Shape.node a x b).Stands tree.node? path.parent?)
    (hpath : path.Hangs tree.node? tree.root (some x))
    (hnodup : (path.fill (.node a x b)).blocks.Nodup) :
    ∃ l y r after, (if (Shape.node a x b).balance < 0 then discard (rotateLeft x) else pure ()) tree
        = .ok () after
      ∧ (Shape.node a x b).leaningLeft = .node l y r
      ∧ path.Hangs after.node? after.root (some y)
      ∧ (Shape.node l y r).Stands after.node? path.parent?
      ∧ tree.SameBlocks after := by
  obtain ⟨hnode, ha, hb⟩ := h
  have hbalance : (Shape.node a x b).balance = (a.height : Int) - b.height := rfl
  by_cases hlean : a.height < b.height
  · rw [Shape.leaningLeft, if_pos hlean, if_pos (by omega)]
    cases b with
    | leaf => simp [Shape.height] at hlean
    | node b y c =>
      obtain ⟨after, hrun, hhangs, hstands, hsame⟩ := rotateLeft_run hnode ha hb hpath hnodup
      refine ⟨.node a x b, y, c, after, discard_ok.mpr ⟨y, hrun⟩, rfl, hhangs, hstands,
        hsame⟩
  · rw [Shape.leaningLeft, if_neg hlean, if_neg (by omega)]
    exact ⟨a, x, b, tree, rfl, rfl, hpath, ⟨hnode, ha, hb⟩, .refl tree⟩

/-- A subtree that leans to the left is rotated before it is raised to the left. -/
theorem leaningRight_run (path : Path) {a b : Shape}
    (h : (Shape.node a x b).Stands tree.node? path.parent?)
    (hpath : path.Hangs tree.node? tree.root (some x))
    (hnodup : (path.fill (.node a x b)).blocks.Nodup) :
    ∃ l y r after, (if (Shape.node a x b).balance > 0 then discard (rotateRight x) else pure ()) tree
        = .ok () after
      ∧ (Shape.node a x b).leaningRight = .node l y r
      ∧ path.Hangs after.node? after.root (some y)
      ∧ (Shape.node l y r).Stands after.node? path.parent?
      ∧ tree.SameBlocks after := by
  obtain ⟨hnode, ha, hb⟩ := h
  have hbalance : (Shape.node a x b).balance = (a.height : Int) - b.height := rfl
  by_cases hlean : b.height < a.height
  · rw [Shape.leaningRight, if_pos hlean, if_pos (by omega)]
    cases a with
    | leaf => simp [Shape.height] at hlean
    | node a y c =>
      obtain ⟨after, hrun, hhangs, hstands, hsame⟩ := rotateRight_run hnode ha hb hpath hnodup
      refine ⟨a, y, .node c x b, after, discard_ok.mpr ⟨y, hrun⟩, rfl, hhangs, hstands,
        hsame⟩
  · rw [Shape.leaningRight, if_neg hlean, if_neg (by omega)]
    exact ⟨a, x, b, tree, rfl, rfl, hpath, ⟨hnode, ha, hb⟩, .refl tree⟩

/-- Rebalancing the subtree in the gap leaves the tree with `Shape.rebalanced` there. -/
def Rebalances (tree : BlockTree) (path : Path) (left : Shape) (block : BlockId) (right : Shape) : Prop :=
  ∃ top after, rebalance block tree = .ok top after
    ∧ (Shape.rebalanced left block right).root? = some top
    ∧ path.Hangs after.node? after.root (some top)
    ∧ (Shape.rebalanced left block right).Stands after.node? path.parent?
    ∧ tree.SameBlocks after

/-- Of a subtree that is too high on the left, the left child comes out on top. -/
theorem rebalances_left {path : Path} {left right : Shape}
    (h : (Shape.node left block right).Stands tree.node? path.parent?)
    (hpath : path.Hangs tree.node? tree.root (some block))
    (hnodup : (path.fill (.node left block right)).blocks.Nodup)
    (hhigh : right.height + 1 < left.height) : Rebalances tree path left block right := by
  obtain ⟨hnode, hleft, hright⟩ := h
  unfold Rebalances
  rw [Shape.rebalanced, if_pos hhigh]
  cases left with
  | leaf => simp [Shape.height] at hhigh
  | node a x b =>
    obtain ⟨l, y, r, t, hlean, hshape, hhangs, hy, ht⟩ := leaningLeft_run
      (.leftOf block right path) hleft ⟨⟨_, _, hnode⟩, hright, hpath⟩ hnodup
    obtain ⟨⟨height, balance, hblock⟩, hright', hpath'⟩ := hhangs
    have hblocks : (Shape.node l y r).blocks = (Shape.node a x b).blocks := by
      rw [← hshape, Shape.leaningLeft_blocks]
    have hnodup' : (path.fill (.node (.node l y r) block right)).blocks.Nodup := by
      rw [Path.fill_blocks, Shape.blocks] at hnodup ⊢
      rwa [hblocks]
    obtain ⟨after, hrun, hafter, hstands, hsame⟩ :=
      rotateRight_run hblock hy hright' hpath' hnodup'
    rw [hshape]
    refine ⟨y, after, ?_, rfl, hafter, hstands, ht.trans hsame⟩
    have hbalance : (Shape.node (.node a x b) block right).balance
        = ((Shape.node a x b).height : Int) - right.height := rfl
    have hleans : (Shape.node (.node a x b) block right).balance > 1 := by omega
    refine bind_ok.mpr ⟨_, tree, node_ok.mpr ⟨hnode, rfl⟩, ?_⟩
    rw [if_pos hleans]
    refine bind_ok.mpr ⟨x, tree, rfl, bind_ok.mpr ⟨_, tree, node_ok.mpr ⟨hleft.1, rfl⟩, ?_⟩⟩
    -- only a child that leans inwards is rotated itself before
    by_cases hinward : (Shape.node a x b).balance < 0
    · rw [if_pos hinward] at hlean ⊢
      exact bind_ok.mpr ⟨_, t, hlean, hrun⟩
    · rw [if_neg hinward] at hlean ⊢
      obtain ⟨-, rfl⟩ := pure_ok.mp hlean
      exact hrun

/-- Of a subtree that is too high on the right, the right child comes out on top. -/
theorem rebalances_right {path : Path} {left right : Shape}
    (h : (Shape.node left block right).Stands tree.node? path.parent?)
    (hpath : path.Hangs tree.node? tree.root (some block))
    (hnodup : (path.fill (.node left block right)).blocks.Nodup)
    (hhigh : left.height + 1 < right.height) : Rebalances tree path left block right := by
  obtain ⟨hnode, hleft, hright⟩ := h
  unfold Rebalances
  rw [Shape.rebalanced, if_neg (show ¬ right.height + 1 < left.height by omega), if_pos hhigh]
  cases right with
  | leaf => simp [Shape.height] at hhigh
  | node a x b =>
    obtain ⟨l, y, r, t, hlean, hshape, hhangs, hy, ht⟩ := leaningRight_run
      (.rightOf left block path) hright ⟨⟨_, _, hnode⟩, hleft, hpath⟩ hnodup
    obtain ⟨⟨height, balance, hblock⟩, hleft', hpath'⟩ := hhangs
    have hblocks : (Shape.node l y r).blocks = (Shape.node a x b).blocks := by
      rw [← hshape, Shape.leaningRight_blocks]
    have hnodup' : (path.fill (.node left block (.node l y r))).blocks.Nodup := by
      rw [Path.fill_blocks, Shape.blocks] at hnodup ⊢
      rwa [hblocks]
    obtain ⟨after, hrun, hafter, hstands, hsame⟩ :=
      rotateLeft_run hblock hleft' hy hpath' hnodup'
    rw [hshape]
    refine ⟨y, after, ?_, rfl, hafter, hstands, ht.trans hsame⟩
    have hbalance : (Shape.node left block (.node a x b)).balance
        = (left.height : Int) - (Shape.node a x b).height := rfl
    have hnot : ¬ (Shape.node left block (.node a x b)).balance > 1 := by omega
    have hleans : (Shape.node left block (.node a x b)).balance < -1 := by omega
    refine bind_ok.mpr ⟨_, tree, node_ok.mpr ⟨hnode, rfl⟩, ?_⟩
    rw [if_neg hnot, if_pos hleans]
    refine bind_ok.mpr ⟨x, tree, rfl, bind_ok.mpr ⟨_, tree, node_ok.mpr ⟨hright.1, rfl⟩, ?_⟩⟩
    by_cases hinward : (Shape.node a x b).balance > 0
    · rw [if_pos hinward] at hlean ⊢
      exact bind_ok.mpr ⟨_, t, hlean, hrun⟩
    · rw [if_neg hinward] at hlean ⊢
      obtain ⟨-, rfl⟩ := pure_ok.mp hlean
      exact hrun

/-- The subtree in the gap is balanced by the rotations that it calls for. -/
theorem rebalance_run {path : Path} {left right : Shape}
    (h : (Shape.node left block right).Stands tree.node? path.parent?)
    (hpath : path.Hangs tree.node? tree.root (some block))
    (hnodup : (path.fill (.node left block right)).blocks.Nodup) :
    Rebalances tree path left block right := by
  by_cases hleft : right.height + 1 < left.height
  · exact rebalances_left h hpath hnodup hleft
  by_cases hright : left.height + 1 < right.height
  · exact rebalances_right h hpath hnodup hright
  -- a tree that leans to neither side is left alone
  have hbalance : (Shape.node left block right).balance = (left.height : Int) - right.height := rfl
  have hnot : ¬ (Shape.node left block right).balance > 1 := by omega
  have hnot' : ¬ (Shape.node left block right).balance < -1 := by omega
  unfold Rebalances
  rw [Shape.rebalanced, if_neg hleft, if_neg hright]
  refine ⟨block, tree, ?_, rfl, hpath, h, .refl tree⟩
  refine bind_ok.mpr ⟨_, tree, node_ok.mpr ⟨h.1, rfl⟩, ?_⟩
  rw [if_neg hnot, if_neg hnot']
  rfl

theorem retrace_none {steps : Nat} : retrace steps none tree = .ok () tree := by
  cases steps <;> rfl

/-- One level of the way up. -/
theorem retrace_step {path : Path} {left right : Shape} {height : Nat} {balance : Int}
    (hnode : tree.node? block = some ⟨left.root?, right.root?, path.parent?, height, balance⟩)
    (hleft : left.Stands tree.node? (some block)) (hright : right.Stands tree.node? (some block))
    (hpath : path.Hangs tree.node? tree.root (some block))
    (hnodup : (path.fill (.node left block right)).blocks.Nodup) :
    ∃ after, (∀ steps, retrace (steps + 1) (some block) tree = retrace steps path.parent? after)
      ∧ path.Hangs after.node? after.root (Shape.rebalanced left block right).root?
      ∧ (Shape.rebalanced left block right).Stands after.node? path.parent?
      ∧ tree.SameBlocks after := by
  have hblocks := hnodup
  simp only [Path.fill_blocks, Shape.blocks, List.nodup_append, List.mem_append, List.mem_cons,
    List.nodup_cons] at hblocks
  obtain ⟨⟨-, ⟨-, ⟨hnotr, -⟩, hnotl⟩, hfront⟩, -, hback⟩ := hblocks
  obtain ⟨t, hupdate, hstands, hroot, htouched⟩ := updateBalance_run hnode hleft hright
    (fun hin => hnotl block hin block (.inl rfl) rfl) hnotr
  have hpath' : path.Hangs t.node? t.root (some block) := by
    rw [hroot]
    refine hpath.congr fun z hz => htouched.ne ?_
    rcases List.mem_append.mp hz with hz | hz
    · exact hfront z hz block (.inr (.inl rfl))
    · exact (hback block (.inr (.inr (.inl rfl))) z hz).symm
  obtain ⟨top, after, hrun, htop, hhangs, hafter, hsame⟩ := rebalance_run hstands hpath' hnodup
  have hparent : ∃ node, after.node? top = some node ∧ node.parent = path.parent? := by
    cases hshape : Shape.rebalanced left block right with
    | leaf =>
      rw [hshape] at htop
      cases htop
    | node l b r =>
      rw [hshape] at htop hafter
      obtain rfl := Option.some.inj htop
      exact ⟨_, hafter.1, rfl⟩
  obtain ⟨node, hnode', hparent⟩ := hparent
  refine ⟨after, fun steps => ?_, htop ▸ hhangs, hafter, htouched.1.trans hsame⟩
  rw [retrace, bind_run hupdate, bind_run hrun, bind_run (node_ok.mpr ⟨hnode', rfl⟩), hparent]

/-- All the way up from a node below which the tree has grown, the tree is balanced again. -/
theorem retrace_run {path : Path} {left right : Shape} {m n steps height : Nat} {balance : Int}
    (hnode : tree.node? block = some ⟨left.root?, right.root?, path.parent?, height, balance⟩)
    (hleft : left.Stands tree.node? (some block)) (hright : right.Stands tree.node? (some block))
    (hpath : path.Hangs tree.node? tree.root (some block))
    (hnodup : (path.fill (.node left block right)).blocks.Nodup)
    (hl : left.Grown m) (hr : right.Grown n) (hmn : m ≤ n + 1) (hnm : n ≤ m + 1)
    (hbalanced : path.Balanced (1 + max m n)) (hsteps : path.length < steps) :
    ∃ (shape : Shape) (after : BlockTree), retrace steps (some block) tree = .ok () after
      ∧ shape.Stands after.node? none ∧ after.root = shape.root? ∧ shape.Balanced
      ∧ shape.blocks = (path.fill (.node left block right)).blocks ∧ tree.SameBlocks after := by
  -- along the path: a step hands up a subtree that has grown by one level at most, as the next step
  -- needs
  induction path generalizing left right block tree m n steps height balance with
  | top =>
    obtain ⟨steps, rfl⟩ := Nat.exists_eq_add_of_lt hsteps
    obtain ⟨after, hrun, hroot, hstands, hsame⟩ := retrace_step hnode hleft hright hpath hnodup
    refine ⟨_, after, ?_, hstands, hroot, (Shape.rebalanced_grown hl hr hmn hnm).balanced,
      Shape.rebalanced_blocks .., hsame⟩
    rw [hrun]
    exact retrace_none
  | leftOf b r up ih =>
    obtain ⟨after, hrun, ⟨⟨height', balance', hnode'⟩, hright', hpath'⟩, hstands, hsame⟩ :=
      retrace_step hnode hleft hright hpath hnodup
    have hblocks : (up.fill (.node (Shape.rebalanced left block right) b r)).blocks
        = ((Path.leftOf b r up).fill (.node left block right)).blocks := by
      rw [Path.fill, Path.fill_blocks, Path.fill_blocks, Shape.blocks, Shape.blocks,
        Shape.rebalanced_blocks, Shape.blocks]
    obtain ⟨hr', hhigh, hlow, hup⟩ := hbalanced
    obtain ⟨steps, rfl⟩ : ∃ k, steps = k + 1 := ⟨steps - 1, by omega⟩
    obtain ⟨shape, last, hrest, hlast, hroot, hbal, hsame', hsame''⟩ :=
      ih hnode' hstands hright' hpath' (hblocks ▸ hnodup) (Shape.rebalanced_grown hl hr hmn hnm)
        hr'.grown hhigh hlow hup (Nat.lt_of_succ_lt_succ hsteps)
    exact ⟨shape, last, (hrun steps).trans hrest, hlast, hroot, hbal, hsame'.trans hblocks,
      hsame.trans hsame''⟩
  | rightOf l b up ih =>
    obtain ⟨after, hrun, ⟨⟨height', balance', hnode'⟩, hleft', hpath'⟩, hstands, hsame⟩ :=
      retrace_step hnode hleft hright hpath hnodup
    have hblocks : (up.fill (.node l b (Shape.rebalanced left block right))).blocks
        = ((Path.rightOf l b up).fill (.node left block right)).blocks := by
      rw [Path.fill, Path.fill_blocks, Path.fill_blocks, Shape.blocks, Shape.blocks,
        Shape.rebalanced_blocks, Shape.blocks]
    obtain ⟨hl', hhigh, hlow, hup⟩ := hbalanced
    obtain ⟨steps, rfl⟩ : ∃ k, steps = k + 1 := ⟨steps - 1, by omega⟩
    obtain ⟨shape, last, hrest, hlast, hroot, hbal, hsame', hsame''⟩ :=
      ih hnode' hleft' hstands hpath' (hblocks ▸ hnodup) hl'.grown
        (Shape.rebalanced_grown hl hr hmn hnm) hhigh hlow hup (Nat.lt_of_succ_lt_succ hsteps)
    exact ⟨shape, last, (hrun steps).trans hrest, hlast, hroot, hbal, hsame'.trans hblocks,
      hsame.trans hsame''⟩

end TreeM

end Splice
