import Splice.Proofs.Block.Rotation

/-!
# The tree of blocks

A tree is `Sound` for a list of blocks if its nodes stand for a balanced shape with these
blocks in this order. Insertion puts the new block behind the one that it is told
(`Sound.insertAfter`), and a sound tree passes its check, has the list as its order and
finds the block over what is searched (`Sound.find?_eq`).

> `Sound.find?_eq`: over anything that is ordered along the blocks, the search in the tree finds
> what a search through all blocks finds.

Soundness is stated for the list of the blocks, so the operations are described as operations on
lists: `singleton` is the list with one block, `insertAfter` puts a name behind another. The
bounds on how deep a search goes and how far a rebalancing climbs are never met in a sound tree.
-/

namespace Splice

/-! ## Sound trees -/

namespace BlockTree

/-- The tree is balanced and holds the blocks of `l` in this order. -/
structure Sound (tree : BlockTree) (l : List BlockId) : Prop where
  stands : ∃ shape : Shape, shape.Stands tree.node? none ∧ tree.root = shape.root? ∧ shape.Balanced
    ∧ shape.blocks = l
  nodup : l.Nodup
  listed : ∀ block, (tree.node? block).isSome → block ∈ l
  size : tree.size = l.length

variable {tree : BlockTree} {l : List BlockId}

/-- A tree of one block is sound. -/
theorem sound_singleton (block : BlockId) : (singleton block).Sound [block] where
  stands := by
    refine ⟨.node .leaf block .leaf, ⟨?_, trivial, trivial⟩, rfl, ⟨trivial, trivial, by omega, by omega⟩,
      rfl⟩
    exact (node?_setNode empty block block _).trans (if_pos rfl)
  nodup := by simp
  listed other hother := by
    rw [show (singleton block).node? other = _ from node?_setNode empty block other _] at hother
    by_cases he : other = block
    · exact List.mem_singleton.mpr he
    · rw [if_neg he] at hother
      cases hother
  size := rfl

theorem Sound.mem_iff (h : tree.Sound l) {block : BlockId} :
    (tree.node? block).isSome ↔ block ∈ l := by
  obtain ⟨shape, hstands, -, -, rfl⟩ := h.stands
  exact ⟨h.listed block, hstands.present⟩

end BlockTree

namespace TreeM

variable {tree : BlockTree} {block new : BlockId}

/-! ## Insertion -/

/-- From a subtree in the gap down to its first block. -/
theorem leftmost_run (path : Path) {left right : Shape} {steps : Nat}
    (h : (Shape.node left block right).Stands tree.node? path.parent?)
    (hpath : path.Hangs tree.node? tree.root (some block)) (hsteps : left.height ≤ steps) :
    ∃ (down : Path) (b : BlockId) (r : Shape), leftmost steps block tree = .ok b tree
      ∧ down.Hangs tree.node? tree.root (some b)
      ∧ (Shape.node .leaf b r).Stands tree.node? down.parent?
      ∧ down.front = path.front
      ∧ down.fill (.node .leaf b r) = path.fill (.node left block right) := by
  induction left generalizing path block right steps with
  | leaf =>
    refine ⟨path, block, right, ?_, hpath, h, rfl, rfl⟩
    cases steps with
    | zero => rfl
    | succ steps => exact bind_run (node_ok.mpr ⟨h.1, rfl⟩)
  | node l b r ih _ =>
    obtain ⟨hnode, hleft, hright⟩ := h
    rw [Shape.height] at hsteps
    obtain ⟨steps, rfl⟩ : ∃ k, steps = k + 1 := ⟨steps - 1, by omega⟩
    obtain ⟨down, b', r', hrun, hdown⟩ :=
      ih (.leftOf block right path) hleft ⟨⟨_, _, hnode⟩, hright, hpath⟩ (by omega : l.height ≤ steps)
    exact ⟨down, b', r', (bind_run (node_ok.mpr ⟨hnode, rfl⟩)).trans hrun, hdown⟩

/-- The part of an insertion that is the same wherever the new block is put. -/
def attach (new parent : BlockId) : TreeM Unit := do
  modify fun tree => tree.place new (some parent)
  retrace (← get).climbBound (some parent)

/-- The way up to the root is no longer than the bound on the number of nodes that are rebalanced. -/
theorem length_lt_climbBound {path : Path} {root child : Option BlockId}
    (hpath : path.Hangs tree.node? root child) (hnodup : path.blocks.Nodup) :
    path.length < tree.climbBound := by
  have hle : path.blocks.length ≤ tree.nodes.size := by
    refine length_le_of_index_lt hnodup fun z hz => ?_
    obtain ⟨node, hz⟩ := Option.isSome_iff_exists.mp (hpath.present hz)
    exact BlockTree.index_lt_of_node? hz
  have hlength := path.length_le
  unfold BlockTree.climbBound BlockTree.depthBound
  omega

/-- The tree with a new leaf, before anything is rotated. -/
theorem place_run {path : Path} {l r l' r' : Shape} {f : TreeNode → TreeNode}
    (hat : (Shape.node l block r).Stands tree.node? path.parent?)
    (hpath : path.Hangs tree.node? tree.root (some block))
    (hnodup : (path.fill (.node l block r)).blocks.Nodup)
    (hnew : ∀ z, (tree.node? z).isSome → z ≠ new)
    (hgrown : l = .leaf ∧ l' = .node .leaf new .leaf ∧ r' = r
      ∨ r = .leaf ∧ l' = l ∧ r' = .node .leaf new .leaf)
    (hf : ∀ parent height balance, f ⟨l.root?, r.root?, parent, height, balance⟩
      = ⟨l'.root?, r'.root?, parent, height, balance⟩) :
    ∃ t grown, update block f tree = .ok () t ∧ grown = t.place new (some block)
      ∧ grown.node? block = some ⟨l'.root?, r'.root?, path.parent?,
          (Shape.node l block r).height, (Shape.node l block r).balance⟩
      ∧ path.Hangs grown.node? grown.root (some block)
      ∧ l'.Stands grown.node? (some block) ∧ r'.Stands grown.node? (some block)
      ∧ (∀ z, (grown.node? z).isSome → z = new ∨ (tree.node? z).isSome)
      ∧ grown.size = tree.size + 1 := by
  obtain ⟨hnode, hl, hr⟩ := hat
  obtain ⟨t, hupdate, hblock, hroot, ht⟩ := update_run f hnode
  rw [hf] at hblock
  simp only [Path.fill_blocks, Shape.blocks, List.nodup_append, List.mem_append, List.mem_cons,
    List.nodup_cons] at hnodup
  obtain ⟨⟨-, ⟨-, ⟨hnotr, -⟩, hnotl⟩, hfront⟩, -, hback⟩ := hnodup
  -- only two nodes are written, the new one and the one above it
  have hplaced : ∀ z, (t.place new (some block)).node? z
      = if z = new then some ⟨none, none, some block, 1, 0⟩ else t.node? z :=
    fun z => BlockTree.node?_setNode t new z _
  have hother : ∀ z, z ≠ block → (tree.node? z).isSome →
      (t.place new (some block)).node? z = tree.node? z := by
    intro z hz hin
    rw [hplaced, if_neg (hnew z hin), ht.ne hz]
  have hl' : l.Stands (t.place new (some block)).node? (some block) :=
    hl.congr fun z hz => hother z (hnotl z hz block (.inl rfl)) (hl.present hz)
  have hr' : r.Stands (t.place new (some block)).node? (some block) :=
    hr.congr fun z hz => hother z (fun he => hnotr (he ▸ hz)) (hr.present hz)
  have hsingle : (Shape.node .leaf new .leaf).Stands (t.place new (some block)).node? (some block) :=
    ⟨(hplaced new).trans (if_pos rfl), trivial, trivial⟩
  have hboth : l'.Stands (t.place new (some block)).node? (some block)
      ∧ r'.Stands (t.place new (some block)).node? (some block) := by
    rcases hgrown with ⟨rfl, rfl, rfl⟩ | ⟨rfl, rfl, rfl⟩
    · exact ⟨hsingle, hr'⟩
    · exact ⟨hl', hsingle⟩
  refine ⟨t, _, hupdate, rfl, ?_, ?_, hboth.1, hboth.2, fun z hz => ?_, congrArg (· + 1) ht.size⟩
  · rw [hplaced, if_neg (hnew block (by rw [hnode]; rfl)), hblock]
  · show path.Hangs _ t.root _
    rw [hroot]
    refine hpath.congr fun z hz => hother z ?_ (hpath.present hz)
    rcases List.mem_append.mp hz with hz | hz
    · exact hfront z hz block (.inr (.inl rfl))
    · exact (hback block (.inr (.inr (.inl rfl))) z hz).symm
  · rw [hplaced] at hz
    by_cases hzn : z = new
    · exact .inl hzn
    · rw [if_neg hzn, ht.present] at hz
      exact .inr hz

/-- A block is put below one that has room for it. -/
theorem attach_run {path : Path} {l r l' r' : Shape} {f : TreeNode → TreeNode}
    (h : tree.Sound (path.fill (.node l block r)).blocks)
    (hat : (Shape.node l block r).Stands tree.node? path.parent?)
    (hpath : path.Hangs tree.node? tree.root (some block))
    (hbalanced : (path.fill (.node l block r)).Balanced)
    (hnew : new ∉ (path.fill (.node l block r)).blocks)
    (hgrown : l = .leaf ∧ l' = .node .leaf new .leaf ∧ r' = r
      ∨ r = .leaf ∧ l' = l ∧ r' = .node .leaf new .leaf)
    (hf : ∀ parent height balance, f ⟨l.root?, r.root?, parent, height, balance⟩
      = ⟨l'.root?, r'.root?, parent, height, balance⟩) :
    ∃ t after, update block f tree = .ok () t ∧ attach new block t = .ok () after
      ∧ after.Sound (path.fill (.node l' block r')).blocks := by
  have hfresh : ∀ z, (tree.node? z).isSome → z ≠ new := by
    rintro z hz rfl
    exact hnew (h.listed z hz)
  obtain ⟨t, grown, hupdate, hplace, hblock, hpath', hl, hr, hpresent, hsize⟩ :=
    place_run hat hpath h.nodup hfresh hgrown hf
  rw [Path.fill_balanced] at hbalanced
  obtain ⟨⟨hlbal, hrbal, hlr, hrl⟩, hup⟩ := hbalanced
  have hgraft : (Shape.node .leaf new .leaf).Grown 0 :=
    ⟨⟨trivial, trivial, by omega, by omega⟩, Nat.zero_le _, Nat.le_refl _⟩
  obtain ⟨hlgrown, hrgrown, hperm⟩ : l'.Grown l.height ∧ r'.Grown r.height
      ∧ (l'.blocks ++ r'.blocks).Perm (new :: (l.blocks ++ r.blocks)) := by
    rcases hgrown with ⟨rfl, rfl, rfl⟩ | ⟨rfl, rfl, rfl⟩
    · exact ⟨hgraft, hrbal.grown, .refl _⟩
    · exact ⟨hlbal.grown, hgraft, by simp [Shape.blocks]⟩
  have hall : (path.fill (.node l' block r')).blocks.Perm
      (new :: (path.fill (.node l block r)).blocks) := by
    rw [List.perm_iff_count] at hperm ⊢
    intro z
    have hz := hperm z
    simp only [Path.fill_blocks, Shape.blocks, List.count_append, List.count_cons] at hz ⊢
    omega
  have hnodup : (path.fill (.node l' block r')).blocks.Nodup :=
    hall.nodup_iff.mpr (List.nodup_cons.mpr ⟨hnew, h.nodup⟩)
  -- the climb has steps enough, because the path is one of the nodes of the tree
  have hroom : path.length < grown.climbBound := by
    refine length_lt_climbBound hpath' ?_
    have hfill := h.nodup
    rw [Path.fill_blocks] at hfill
    exact hfill.sublist ((List.sublist_append_left ..).append_right _)
  obtain ⟨shape, after, hrun, hafter, hrootEq, hbal, hshape, hsame⟩ :=
    retrace_run hblock hl hr hpath' hnodup hlgrown hrgrown hlr hrl hup hroom
  refine ⟨t, after, hupdate, ?_, ⟨shape, hafter, hrootEq, hbal, hshape⟩, hnodup, fun z hz => ?_, ?_⟩
  · rw [hplace] at hrun
    exact hrun
  · rw [hsame.present] at hz
    rw [hall.mem_iff, List.mem_cons]
    exact (hpresent z hz).imp_right (h.listed z)
  · rw [hsame.size, hsize, hall.length_eq, h.size, List.length_cons]

end TreeM

/-- No path of a sound tree is longer than the bound on its depth. -/
theorem BlockTree.Sound.length_le {tree : BlockTree} {l : List BlockId} (h : tree.Sound l) :
    l.length ≤ tree.nodes.size := by
  refine length_le_of_index_lt h.nodup fun block hblock => ?_
  obtain ⟨node, hnode⟩ := Option.isSome_iff_exists.mp (h.mem_iff.mpr hblock)
  exact index_lt_of_node? hnode

/-- A new block is put right behind the one that it is told. -/
theorem BlockTree.Sound.insertAfter {tree : BlockTree} {xs ys : List BlockId} {existing new : BlockId}
    (h : tree.Sound (xs ++ existing :: ys)) (hnew : new ∉ xs ++ existing :: ys) :
    ∃ after, TreeM.insertAfter existing new tree = .ok () after
      ∧ after.Sound (xs ++ existing :: new :: ys) := by
  obtain ⟨shape, hstands, hroot, hbalanced, hblocks⟩ := h.stands
  have hmem : existing ∈ shape.blocks := by
    rw [hblocks]
    exact List.mem_append_right _ (List.mem_cons_self ..)
  -- the place of the block is a path from the root, and its code position follows from that of its parts
  obtain ⟨path, l, r, hfill⟩ := Path.exists_fill hmem .top
  obtain rfl : shape = path.fill (.node l existing r) := hfill
  have hcut : path.front ++ l.blocks ++ existing :: (r.blocks ++ path.back)
      = xs ++ existing :: ys := by
    rw [← hblocks, Path.fill_blocks, Shape.blocks]
    simp
  obtain ⟨rfl, rfl⟩ := cut_inj (hcut ▸ h.nodup) hcut
  obtain ⟨hhangs, hat⟩ := Path.hangs_of_stands hstands
  rw [← hroot] at hhangs
  rw [← hblocks] at h hnew
  -- behind a block without a right child there is room at its own; else at the leftmost place of that
  -- child
  cases r with
  | leaf =>
    obtain ⟨t, after, hupdate, hattach, hafter⟩ := TreeM.attach_run
      (f := fun node => { node with right := some new })
      h hat hhangs hbalanced hnew (.inr ⟨rfl, rfl, rfl⟩) fun _ _ _ => rfl
    refine ⟨after, ?_, ?_⟩
    · unfold TreeM.insertAfter
      rw [bind_run (TreeM.node_ok.mpr ⟨hat.1, rfl⟩)]
      exact (bind_run hupdate).trans hattach
    · rw [Path.fill_blocks] at hafter
      simpa [Shape.blocks] using hafter
  | node a b c =>
    obtain ⟨hnode, hleft, hright⟩ := hat
    have hdepth : a.height ≤ tree.depthBound := by
      have hle := h.length_le
      have ha := a.height_le_length
      simp only [Path.fill_blocks, Shape.blocks, List.length_append, List.length_cons] at hle
      unfold BlockTree.depthBound
      omega
    obtain ⟨down, m, r', hdown, hhangs', hat', hfront, hfill⟩ := TreeM.leftmost_run
      (.rightOf l existing path) hright ⟨⟨_, _, hnode⟩, hleft, hhangs⟩ hdepth
    rw [Path.fill] at hfill
    rw [← hfill] at h hbalanced hnew
    obtain ⟨t, after, hupdate, hattach, hafter⟩ := TreeM.attach_run
      (f := fun node => { node with left := some new })
      h hat' hhangs' hbalanced hnew (.inl ⟨rfl, rfl, rfl⟩) fun _ _ _ => rfl
    refine ⟨after, ?_, ?_⟩
    · unfold TreeM.insertAfter
      rw [bind_run (TreeM.node_ok.mpr ⟨hnode, rfl⟩)]
      exact (bind_run hdown).trans ((bind_run hupdate).trans hattach)
    · -- nothing in front of the leftmost place is changed
      have hback : m :: r'.blocks ++ down.back = (Shape.node a b c).blocks ++ path.back := by
        have hsame := congrArg Shape.blocks hfill
        rw [Path.fill_blocks, Path.fill_blocks, hfront] at hsame
        simpa [Shape.blocks, Path.front] using hsame
      rw [Path.fill_blocks, hfront] at hafter
      have hlist : path.front ++ l.blocks ++ existing :: new :: ((Shape.node a b c).blocks ++ path.back)
          = (Path.rightOf l existing path).front ++ (Shape.node (.node .leaf new .leaf) m r').blocks
            ++ down.back := by
        rw [← hback]
        simp [Shape.blocks, Path.front]
      rwa [hlist]

/-! ## What a sound tree answers -/

namespace Shape

variable {tree : BlockTree} {parent : Option BlockId} {shape : Shape} {depth : Nat}
  {position : BlockId → Ordering}

/-- To read a tree that stands as a shape in order gives the blocks of the shape. -/
theorem Stands.inOrderFrom (h : shape.Stands tree.node? parent) (hdepth : shape.height ≤ depth) :
    tree.inOrderFrom depth shape.root? = shape.blocks := by
  induction shape generalizing parent depth with
  | leaf => cases depth <;> rfl
  | node left block right ihl ihr =>
    obtain ⟨hnode, hl, hr⟩ := h
    rw [height] at hdepth
    obtain ⟨depth, rfl⟩ : ∃ k, depth = k + 1 := ⟨depth - 1, by omega⟩
    rw [root?, BlockTree.inOrderFrom, hnode, Option.bind_some, Option.bind_some,
      ihl hl (by omega), ihr hr (by omega), blocks]

/-- The check of a tree that stands as a balanced shape passes and finds its height. -/
theorem Stands.checkFrom (h : shape.Stands tree.node? parent) (hbalanced : shape.Balanced)
    (hdepth : shape.height ≤ depth) :
    tree.checkFrom depth shape.root? parent = .ok shape.height := by
  -- along the shape, which says how deep the check has to go
  induction shape generalizing parent depth with
  | leaf => cases depth <;> rfl
  | node left block right ihl ihr =>
    obtain ⟨hnode, hl, hr⟩ := h
    obtain ⟨hlbal, hrbal, hlr, hrl⟩ := hbalanced
    rw [height] at hdepth
    obtain ⟨depth, rfl⟩ : ∃ k, depth = k + 1 := ⟨depth - 1, by omega⟩
    have hfits : ¬ ((left.height : Int) - right.height < -1 ∨ 1 < (left.height : Int) - right.height
        ∨ (node left block right).balance ≠ left.height - right.height
        ∨ (node left block right).height ≠ 1 + max left.height right.height) := by
      have hbalance : (node left block right).balance = (left.height : Int) - right.height := rfl
      have hheight : (node left block right).height = 1 + max left.height right.height := rfl
      omega
    rw [root?, BlockTree.checkFrom, hnode]
    simp only [ne_eq, not_true_eq_false, if_false]
    exact bind_eq_ok.mpr ⟨_, ihl hl hlbal (by omega),
      bind_eq_ok.mpr ⟨_, ihr hr hrbal (by omega), if_neg hfits⟩⟩

/-- The blocks met by a search. -/
def search (position : BlockId → Ordering) : Shape → List BlockId
  | leaf => []
  | node left block right =>
    match position block with
    | .gt => block :: left.search position
    | .lt => block :: right.search position
    | .eq => [block]

/-- To search a tree that stands as a shape is to search the shape. -/
theorem Stands.searchFrom (h : shape.Stands tree.node? parent) (hdepth : shape.height ≤ depth) :
    tree.searchFrom position depth shape.root? = shape.search position := by
  induction shape generalizing parent depth with
  | leaf => cases depth <;> rfl
  | node left block right ihl ihr =>
    obtain ⟨hnode, hl, hr⟩ := h
    rw [height] at hdepth
    obtain ⟨depth, rfl⟩ : ∃ k, depth = k + 1 := ⟨depth - 1, by omega⟩
    rw [root?, BlockTree.searchFrom, hnode, search]
    cases position block with
    | gt => exact congrArg _ (ihl hl (by omega))
    | lt => exact congrArg _ (ihr hr (by omega))
    | eq => rfl

/-- A search meets blocks of the tree only. -/
theorem search_subset {block : BlockId} (h : block ∈ shape.search position) :
    block ∈ shape.blocks := by
  induction shape with
  | leaf => cases h
  | node left b right ihl ihr =>
    rw [search] at h
    rw [blocks, List.mem_append, List.mem_cons]
    cases hb : position b with
    | gt =>
      rw [hb] at h
      exact (List.mem_cons.mp h).elim (fun he => .inr (.inl he)) fun hin => .inl (ihl hin)
    | lt =>
      rw [hb] at h
      exact .inr ((List.mem_cons.mp h).imp_right ihr)
    | eq =>
      rw [hb] at h
      exact .inr (.inl (List.mem_singleton.mp h))

/-- The search ends at the block over what is searched, if there is one and the others lie in order
around it. -/
theorem search_getLast? {xs ys : List BlockId} {block : BlockId} (h : shape.blocks = xs ++ block :: ys)
    (hxs : ∀ b ∈ xs, position b = .lt) (hblock : position block = .eq)
    (hys : ∀ b ∈ ys, position b = .gt) : (shape.search position).getLast? = some block := by
  induction shape generalizing xs ys with
  | leaf => simp [blocks] at h
  | node left b right ihl ihr =>
    rw [blocks] at h
    rw [search]
    -- the block is in the left subtree, at the root, or in the right subtree
    rcases List.append_eq_append_iff.mp h with ⟨mid, rfl, hmid⟩ | ⟨mid, hleft, hmid⟩
    · cases mid with
      | nil =>
        obtain ⟨rfl, -⟩ := List.cons.inj hmid
        rw [hblock]
        rfl
      | cons c mid =>
        obtain ⟨rfl, hright⟩ := List.cons.inj hmid
        rw [hxs b (by simp)]
        have hlast := ihr hright (fun z hz => hxs z (by simp [hz])) hys
        simp [List.getLast?_cons, hlast]
    · cases mid with
      | nil =>
        obtain ⟨rfl, -⟩ := List.cons.inj hmid
        rw [hblock]
        rfl
      | cons c mid =>
        obtain ⟨rfl, rfl⟩ := List.cons.inj hmid
        rw [hys b (by simp)]
        have hlast := ihl hleft hxs fun z hz => hys z (by simp [hz])
        simp [List.getLast?_cons, hlast]

end Shape

namespace BlockTree.Sound

variable {tree : BlockTree} {l : List BlockId} {position : BlockId → Ordering} {block : BlockId}

/-- A sound tree is not deeper than the bound of a descent. -/
theorem height_le {shape : Shape} (h : tree.Sound l) (hblocks : shape.blocks = l) :
    shape.height ≤ tree.depthBound := by
  have hlength := h.length_le
  have hheight := shape.height_le_length
  rw [hblocks] at hheight
  unfold depthBound
  omega

theorem inOrder (h : tree.Sound l) : tree.inOrder = l := by
  obtain ⟨shape, hstands, hroot, -, hblocks⟩ := h.stands
  rw [BlockTree.inOrder, hroot, hstands.inOrderFrom (h.height_le hblocks), hblocks]

theorem firstUnbalanced? (h : tree.Sound l) : tree.firstUnbalanced? = none := by
  obtain ⟨shape, hstands, hroot, hbalanced, hblocks⟩ := h.stands
  rw [BlockTree.firstUnbalanced?, hroot, hstands.checkFrom hbalanced (h.height_le hblocks)]

/-- What is found lies over what is searched. -/
theorem of_find? (h : tree.Sound l) (hfind : tree.find? position = some block) :
    block ∈ l ∧ position block = .eq := by
  obtain ⟨shape, hstands, hroot, -, hblocks⟩ := h.stands
  rw [find?, BlockTree.search, hroot, hstands.searchFrom (h.height_le hblocks),
    Option.filter_eq_some_iff] at hfind
  obtain ⟨hlast, hover⟩ := hfind
  exact ⟨hblocks ▸ Shape.search_subset (List.mem_of_getLast? hlast), eq_of_beq hover⟩

/-- The block over what is searched is found if the others lie in order around it. -/
theorem find?_eq {xs ys : List BlockId} (h : tree.Sound (xs ++ block :: ys))
    (hxs : ∀ b ∈ xs, position b = .lt) (hblock : position block = .eq)
    (hys : ∀ b ∈ ys, position b = .gt) : tree.find? position = some block := by
  obtain ⟨shape, hstands, hroot, -, hblocks⟩ := h.stands
  rw [find?, BlockTree.search, hroot, hstands.searchFrom (h.height_le hblocks),
    Shape.search_getLast? hblocks hxs hblock hys, Option.filter_some, hblock]
  rfl

end BlockTree.Sound

end Splice
