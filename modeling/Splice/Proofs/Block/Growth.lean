import Mathlib.Data.Nat.Fib.Basic
import Splice.Proofs.Block.Tree

/-!
# Growing the tree of blocks

A tree of blocks begins with one block and grows by insertions, each of which puts a new
block right behind one that the tree holds already. One insertion keeps the tree `Sound`
and does to its blocks what it does to a list (`Sound.insertion`), and so does every
sequence of them (`Sound.insertions`). What is known of sound trees then holds of every
tree that has grown (`grown_by_insertions`): its order is that of the list, its links,
heights and balances are right, searches in it are exact, and it is as low as a balanced
tree has to be, for a balanced tree of height `h` holds at least `fib (h + 2) - 1` blocks
(`Shape.Balanced.fib_le`).

Searches are stated over anything that is ordered along the blocks, so they are about the shape
of the tree and not about addresses. The Fibonacci bound is the usual one: a balanced tree of
height `h + 2` has subtrees of height at least `h + 1` and `h`.
-/

namespace Splice

/-- A new block, and the block that it is put right behind. -/
structure Insertion where
  existing : BlockId
  new : BlockId
deriving DecidableEq

namespace Insertion

variable {insertion : Insertion} {xs ys : List BlockId}

def run (insertion : Insertion) : TreeM Unit :=
  TreeM.insertAfter insertion.existing insertion.new

/-- The list with the new block right behind the existing one. -/
def behind (insertion : Insertion) : List BlockId → List BlockId
  | [] => []
  | block :: rest =>
    if block = insertion.existing then block :: insertion.new :: rest
    else block :: insertion.behind rest

/-- In a list that names the existing block once, the new one comes right behind it. -/
theorem behind_append (h : insertion.existing ∉ xs) :
    insertion.behind (xs ++ insertion.existing :: ys)
      = xs ++ insertion.existing :: insertion.new :: ys := by
  induction xs with
  | nil => exact if_pos rfl
  | cons x xs ih =>
    rw [List.mem_cons, not_or] at h
    rw [List.cons_append, behind, if_neg (Ne.symm h.1), ih h.2, List.cons_append]

end Insertion

/-- Each insertion puts a block that the tree does not hold behind one that it holds. -/
def BlockTree.Accepts : BlockTree → List Insertion → Prop
  | _, [] => True
  | tree, insertion :: rest =>
    tree.contains insertion.existing = true ∧ tree.contains insertion.new = false
      ∧ (outcome insertion.run tree).Accepts rest

instance BlockTree.decidableAccepts (tree : BlockTree) :
    (insertions : List Insertion) → Decidable (tree.Accepts insertions)
  | [] => .isTrue trivial
  | insertion :: rest =>
    have := (outcome insertion.run tree).decidableAccepts rest
    inferInstanceAs (Decidable (_ ∧ _ ∧ _))

/-! ## How low a balanced tree is -/

/-- Of two siblings in a balanced tree the lower one is at most one level below the other, so the
least numbers of blocks add up as the Fibonacci numbers do. -/
theorem Shape.Balanced.fib_le {shape : Shape} (h : shape.Balanced) :
    Nat.fib (shape.height + 2) ≤ shape.blocks.length + 1 := by
  induction shape with
  | leaf => decide
  | node left block right ihl ihr =>
    obtain ⟨hl, hr, hlr, hrl⟩ := h
    have hleft := ihl hl
    have hright := ihr hr
    have hlength : (node left block right).blocks.length
        = left.blocks.length + right.blocks.length + 1 := by
      rw [blocks, List.length_append, List.length_cons]
      omega
    have hheight : (node left block right).height = 1 + max left.height right.height := rfl
    rw [hlength, hheight]
    rcases Nat.le_total left.height right.height with hle | hle
    · have hlow : Nat.fib (right.height + 1) ≤ Nat.fib (left.height + 2) :=
        Nat.fib_mono (by omega)
      have hsum : Nat.fib (right.height + 3)
          = Nat.fib (right.height + 1) + Nat.fib (right.height + 2) := Nat.fib_add_two
      rw [Nat.max_eq_right hle, show 1 + right.height + 2 = right.height + 3 by omega, hsum]
      omega
    · have hlow : Nat.fib (left.height + 1) ≤ Nat.fib (right.height + 2) :=
        Nat.fib_mono (by omega)
      have hsum : Nat.fib (left.height + 3)
          = Nat.fib (left.height + 1) + Nat.fib (left.height + 2) := Nat.fib_add_two
      rw [Nat.max_eq_left hle, show 1 + left.height + 2 = left.height + 3 by omega, hsum]
      omega

namespace BlockTree

variable {tree : BlockTree} {l : List BlockId} {position : BlockId → Ordering}

/-- A sound tree has at least as many blocks as the smallest balanced tree of its height, which is a
Fibonacci number less one. -/
theorem Sound.fib_le (h : tree.Sound l) : Nat.fib (tree.height + 2) - 1 ≤ tree.size := by
  obtain ⟨shape, hstands, hroot, hbalanced, hblocks⟩ := h.stands
  have hheight : tree.height = shape.height := by
    rw [height, hroot]
    exact TreeM.heightOf_stands hstands
  have hleast := hbalanced.fib_le
  rw [hheight, h.size, ← hblocks]
  omega

/-! ## Searches -/

/-- Nothing is found where no block lies over what is searched. -/
theorem Sound.find?_eq_none (h : tree.Sound l) (hnone : ∀ block ∈ l, position block ≠ .eq) :
    tree.find? position = none := by
  rw [Option.eq_none_iff_forall_ne_some]
  intro block hfind
  obtain ⟨hmem, hover⟩ := h.of_find? hfind
  exact hnone block hmem hover

/-- Where the blocks lie in order around what is searched, the block over it is found, and nothing
is found if there is none. -/
theorem Sound.find?_around {front back : List BlockId} {hit : Option BlockId}
    (h : tree.Sound (front ++ hit.toList ++ back)) (hfront : ∀ block ∈ front, position block = .lt)
    (hover : ∀ block ∈ hit, position block = .eq) (hback : ∀ block ∈ back, position block = .gt) :
    tree.find? position = hit := by
  cases hit with
  | none =>
    apply h.find?_eq_none
    intro block hblock hequal
    rw [Option.toList_none, List.append_nil, List.mem_append] at hblock
    rcases hblock with hin | hin
    · rw [hfront block hin] at hequal
      cases hequal
    · rw [hback block hin] at hequal
      cases hequal
  | some block =>
    rw [Option.toList_some, List.append_assoc, List.singleton_append] at h
    exact h.find?_eq hfront (hover block rfl) hback

/-! ## Insertions -/

theorem Sound.contains_iff (h : tree.Sound l) {block : BlockId} :
    tree.contains block = true ↔ block ∈ l :=
  h.mem_iff

/-- An insertion does to the blocks of a sound tree what it does to a list. -/
theorem Sound.insertion (h : tree.Sound l) {insertion : Insertion}
    (hexisting : tree.contains insertion.existing = true)
    (hnew : tree.contains insertion.new = false) :
    ∃ after, insertion.run tree = .ok () after ∧ after.Sound (insertion.behind l) := by
  obtain ⟨xs, ys, rfl, hfirst⟩ := List.eq_append_cons_of_mem (h.contains_iff.mp hexisting)
  have hfresh : insertion.new ∉ xs ++ insertion.existing :: ys := by
    intro hmem
    rw [h.contains_iff.mpr hmem] at hnew
    cases hnew
  obtain ⟨after, hrun, hafter⟩ := h.insertAfter hfresh
  refine ⟨after, hrun, ?_⟩
  rw [Insertion.behind_append hfirst]
  exact hafter

/-- Insertions that are accepted one after the other keep the tree sound, and its order is that of the
list that grows along with it. -/
theorem Sound.insertions (h : tree.Sound l) {insertions : List Insertion}
    (haccepts : tree.Accepts insertions) :
    ∃ after, insertions.forM Insertion.run tree = .ok () after
      ∧ after.Sound (insertions.foldl (fun list insertion => insertion.behind list) l) := by
  induction insertions generalizing tree l with
  | nil => exact ⟨tree, rfl, h⟩
  | cons insertion rest ih =>
    obtain ⟨hexisting, hnew, haccepts⟩ := haccepts
    obtain ⟨next, hrun, hnext⟩ := h.insertion hexisting hnew
    rw [outcome_ok hrun] at haccepts
    obtain ⟨after, hrest, hafter⟩ := ih hnext haccepts
    exact ⟨after, forM_cons_ok.mpr ⟨next, hrun, hrest⟩, hafter⟩

/-- Nothing can be put behind a block that the tree does not hold. -/
theorem insertAfter_absent {existing new : BlockId} (h : tree.contains existing = false) :
    TreeM.insertAfter existing new tree = .error (.missingBlock existing) tree := by
  have hnode : tree.node? existing = none := by
    rw [contains, Option.isSome_eq_false_iff] at h
    exact Option.isNone_iff_eq_none.mp h
  have hmissing : TreeM.node existing tree = .error (.missingBlock existing) tree := by
    unfold TreeM.node
    rw [bind_run (get_ok.mpr ⟨rfl, rfl⟩), hnode]
    rfl
  exact bind_error hmissing

/-- Every tree that has grown from one block by insertions has its blocks in the order in which the
insertions put them and counts them right; its links, heights and balances are those of a balanced
tree, which is as low as such a tree has to be; a search finds the block over what is searched, if
there is one; and an insertion behind a block that the tree does not hold is refused and leaves
the tree as it is. -/
theorem grown_by_insertions {root : BlockId} {insertions : List Insertion}
    (h : (singleton root).Accepts insertions) :
    ∃ tree, insertions.forM Insertion.run (singleton root) = .ok () tree
      ∧ tree.inOrder = insertions.foldl (fun list insertion => insertion.behind list) [root]
      ∧ tree.size = tree.inOrder.length
      ∧ tree.firstUnbalanced? = none
      ∧ (∃ shape : Shape, shape.Stands tree.node? none ∧ tree.root = shape.root?
        ∧ shape.Balanced ∧ shape.blocks = tree.inOrder)
      ∧ Nat.fib (tree.height + 2) - 1 ≤ tree.size
      ∧ (∀ (position : BlockId → Ordering) (front back : List BlockId) (hit : Option BlockId),
        tree.inOrder = front ++ hit.toList ++ back → (∀ block ∈ front, position block = .lt) →
        (∀ block ∈ hit, position block = .eq) → (∀ block ∈ back, position block = .gt) →
        tree.find? position = hit)
      ∧ ∀ existing new, tree.contains existing = false →
        TreeM.insertAfter existing new tree = .error (.missingBlock existing) tree := by
  obtain ⟨tree, hrun, htree⟩ := (sound_singleton root).insertions h
  have horder := htree.inOrder
  refine ⟨tree, hrun, horder, ?_, htree.firstUnbalanced?, ?_, htree.fib_le, ?_, ?_⟩
  · rw [horder]
    exact htree.size
  · rw [horder]
    exact htree.stands
  · intro position front back hit hsplit hfront hover hback
    rw [← horder, hsplit] at htree
    exact htree.find?_around hfront hover hback
  · intro existing new habsent
    exact insertAfter_absent habsent

/-- Insertions at the front and in the middle, with rotations at the root and below it. -/
def zigzag : List Insertion :=
  [⟨⟨0⟩, ⟨1⟩⟩, ⟨⟨0⟩, ⟨2⟩⟩, ⟨⟨0⟩, ⟨3⟩⟩, ⟨⟨0⟩, ⟨4⟩⟩, ⟨⟨1⟩, ⟨5⟩⟩, ⟨⟨1⟩, ⟨6⟩⟩, ⟨⟨4⟩, ⟨7⟩⟩]

theorem grown_by_insertions_zigzag : (singleton ⟨0⟩).Accepts zigzag
    ∧ ∃ tree, zigzag.forM Insertion.run (singleton ⟨0⟩) = .ok () tree
      ∧ tree.inOrder = [⟨0⟩, ⟨4⟩, ⟨7⟩, ⟨3⟩, ⟨2⟩, ⟨1⟩, ⟨6⟩, ⟨5⟩] ∧ tree.firstUnbalanced? = none := by
  have h : (singleton ⟨0⟩).Accepts zigzag := by decide +kernel
  obtain ⟨tree, hrun, horder, -, hbalanced, -⟩ := grown_by_insertions h
  exact ⟨h, tree, hrun, horder, hbalanced⟩

end BlockTree

end Splice
