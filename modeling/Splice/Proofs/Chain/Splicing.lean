import Splice.Chain.Edit
import Splice.Proofs.Chain.Order

/-!
# Splicing and the order of the code

What the splicing operations do to the list that a chain spells out: `insertBefore` and
`insertAfter` put a new name next to the anchor, `unlink` takes a name out. Each changes
the two links that face the gap, so the code in front of the gap keeps its links up to the
last `next`, and the code behind it keeps them from the first `prev` on
(`Segment.relinkNext`, `Segment.relinkPrev`). No instruction changes.

Each operation has two lemmas. The first says what becomes of the nodes, without asking whether
the chain is a list (`insertBefore_inserted`, `insertAfter_inserted`, `push_inserted`,
`unlink_stages`); modules on detached instructions go on from it. The second reads it off a
chain that spells out a list:

> `insertBefore_spells`, `insertAfter_spells`, `unlink_spells`: the list afterwards is the one
> before with the name put in or taken out.
-/

namespace Splice

namespace Chain

variable {chain after : Chain} {l : List InstrId} {prev next prev' next' : Option InstrId}

/-- A segment whose last instruction is linked on to another place. -/
theorem Segment.relinkNext (h : chain.Segment prev l next) (hl : l.Nodup)
    (hnode : ∀ id ∈ l, ∀ node, chain.node? id = some node →
      ∃ instr, after.node? id
        = some ⟨instr, node.prev, if l.getLast? = some id then next' else node.next⟩) :
    after.Segment prev l next' := by
  induction l generalizing prev with
  | nil => exact trivial
  | cons id rest ih =>
    obtain ⟨⟨instr, hid⟩, hrest⟩ := h
    obtain ⟨hnot, hnodup⟩ := List.nodup_cons.mp hl
    obtain ⟨instr', hid'⟩ := hnode id (List.mem_cons_self ..) _ hid
    refine ⟨⟨instr', ?_⟩, ih hrest hnodup fun other hother node hold => ?_⟩
    · rw [hid']
      cases rest with
      | nil => simp
      | cons y ys =>
        have hne : (id :: y :: ys).getLast? ≠ some id := by
          rw [List.getLast?_cons_cons]
          exact fun hlast => hnot (List.mem_of_getLast? hlast)
        rw [if_neg hne]
        rfl
    · obtain ⟨i, hi⟩ := hnode other (List.mem_cons_of_mem _ hother) node hold
      refine ⟨i, ?_⟩
      rw [hi]
      cases rest with
      | nil => cases hother
      | cons y ys => rw [List.getLast?_cons_cons]

/-- A segment whose first instruction is linked back to another place. -/
theorem Segment.relinkPrev (h : chain.Segment prev l next) (hl : l.Nodup)
    (hnode : ∀ id ∈ l, ∀ node, chain.node? id = some node →
      ∃ instr, after.node? id
        = some ⟨instr, if l.head? = some id then prev' else node.prev, node.next⟩) :
    after.Segment prev' l next := by
  cases l with
  | nil => exact trivial
  | cons id rest =>
    obtain ⟨⟨instr, hid⟩, hrest⟩ := h
    obtain ⟨hnot, -⟩ := List.nodup_cons.mp hl
    obtain ⟨instr', hid'⟩ := hnode id (List.mem_cons_self ..) _ hid
    refine ⟨⟨instr', by rw [hid']; simp⟩, hrest.congr fun other hother node hold => ?_⟩
    obtain ⟨i, hi⟩ := hnode other (List.mem_cons_of_mem _ hother) node hold
    have hne : (id :: rest).head? ≠ some other := by
      intro hhead
      rw [List.head?_cons, Option.some.injEq] at hhead
      exact hnot (hhead ▸ hother)
    rw [if_neg hne] at hi
    exact ⟨i, hi⟩

/-- A name that was never given out is not in the list. -/
theorem Spells.fresh (h : chain.Spells l) : (⟨chain.slots.size⟩ : InstrId) ∉ l := by
  intro hmem
  obtain ⟨node, hnode⟩ := h.present hmem
  exact Nat.lt_irrefl _ (index_lt_of_node? hnode)

end Chain

namespace ChainM

variable {chain after : Chain} {l xs ys : List InstrId} {id anchor new : InstrId}

/-! ## Steps -/

/-- To link an instruction on changes the node in front, where there is one, else the head. -/
theorem linkNext_ok {before id : Option InstrId} {u : Unit}
    (h : linkNext before id chain = .ok u after) :
    (∀ x, after.node? x = (chain.node? x).map fun node =>
        if before = some x then { node with next := id } else node)
      ∧ after.head = (if before = none then id else chain.head) ∧ after.tail = chain.tail
      ∧ after.length = chain.length ∧ after.slots.size = chain.slots.size := by
  cases before with
  | none =>
    rw [linkNext, modify_ok] at h
    subst h
    exact ⟨fun x => by simp [Chain.node?], rfl, rfl, rfl, rfl⟩
  | some before =>
    rw [linkNext, updateNode_ok] at h
    obtain ⟨-, rfl⟩ := h
    refine ⟨fun x => ?_, by simp [Chain.update], rfl, rfl, by simp [Chain.update]⟩
    rw [Chain.node?_update]
    by_cases hx : x = before
    · subst hx
      simp
    · have hne : some before ≠ some x := fun he => hx (Option.some.inj he).symm
      simp [hx, hne]

/-- To link an instruction back changes the node behind, where there is one, else the tail. -/
theorem linkPrev_ok {behind id : Option InstrId} {u : Unit}
    (h : linkPrev behind id chain = .ok u after) :
    (∀ x, after.node? x = (chain.node? x).map fun node =>
        if behind = some x then { node with prev := id } else node)
      ∧ after.head = chain.head ∧ after.tail = (if behind = none then id else chain.tail)
      ∧ after.length = chain.length ∧ after.slots.size = chain.slots.size := by
  cases behind with
  | none =>
    rw [linkPrev, modify_ok] at h
    subst h
    exact ⟨fun x => by simp [Chain.node?], rfl, rfl, rfl, rfl⟩
  | some behind =>
    rw [linkPrev, updateNode_ok] at h
    obtain ⟨-, rfl⟩ := h
    refine ⟨fun x => ?_, rfl, by simp [Chain.update], rfl, by simp [Chain.update]⟩
    rw [Chain.node?_update]
    by_cases hx : x = behind
    · subst hx
      simp
    · have hne : some behind ≠ some x := fun he => hx (Option.some.inj he).symm
      simp [hx, hne]

/-- A new slot has the next name and holds the instruction with its neighbours; all other nodes stay. -/
theorem allocate_ok {instr : Instruction} {prev next : Option InstrId}
    (h : allocate instr prev next chain = .ok id after) :
    id = ⟨chain.slots.size⟩
      ∧ (∀ x, after.node? x = if x = id then some ⟨instr, prev, next⟩ else chain.node? x)
      ∧ after.head = chain.head ∧ after.tail = chain.tail ∧ after.length = chain.length
      ∧ after.slots.size = chain.slots.size + 1 := by
  rw [allocate, modifyGet_ok] at h
  obtain ⟨rfl, rfl⟩ := h
  refine ⟨rfl, fun x => ?_, rfl, rfl, rfl, by simp⟩
  by_cases hx : x = ⟨chain.slots.size⟩
  · subst hx
    simp [Chain.node?]
  · have hne : x.index ≠ chain.slots.size := fun he => hx (Handle.ext_index he)
    simp [Chain.node?, Array.getElem?_push, hx, hne]

/-- What the nodes of a chain are after `before` was linked on to `next` and `behind` back to `prev`. -/
structure Bridged (chain after : Chain) (before behind next prev : Option InstrId) : Prop where
  node : ∀ x, after.node? x = (chain.node? x).map fun node => ⟨node.instr,
    if behind = some x then prev else node.prev,
    if before = some x then next else node.next⟩
  head : after.head = if before = none then next else chain.head
  tail : after.tail = if behind = none then prev else chain.tail
  length : after.length = chain.length

/-- Two instructions are bridged, the link on first. -/
theorem bridged_of_linkNext {c₁ : Chain} {before behind next prev : Option InstrId} {u v : Unit}
    (hnext : linkNext before next chain = .ok u c₁) (hprev : linkPrev behind prev c₁ = .ok v after) :
    Bridged chain after before behind next prev := by
  obtain ⟨hnode₁, hhead₁, htail₁, hlen₁, -⟩ := linkNext_ok hnext
  obtain ⟨hnode₂, hhead₂, htail₂, hlen₂, -⟩ := linkPrev_ok hprev
  refine ⟨fun x => ?_, by rw [hhead₂, hhead₁], by rw [htail₂, htail₁], by rw [hlen₂, hlen₁]⟩
  rw [hnode₂, hnode₁, Option.map_map]
  congr 1
  funext node
  by_cases hp : before = some x <;> by_cases hn : behind = some x <;> simp [hp, hn]

/-- Two instructions are bridged, the link back first. The order makes no difference, as the two links are
in different fields. -/
theorem bridged_of_linkPrev {c₁ : Chain} {before behind next prev : Option InstrId} {u v : Unit}
    (hprev : linkPrev behind prev chain = .ok v c₁) (hnext : linkNext before next c₁ = .ok u after) :
    Bridged chain after before behind next prev := by
  obtain ⟨hnode₁, hhead₁, htail₁, hlen₁, -⟩ := linkPrev_ok hprev
  obtain ⟨hnode₂, hhead₂, htail₂, hlen₂, -⟩ := linkNext_ok hnext
  refine ⟨fun x => ?_, by rw [hhead₂, hhead₁], by rw [htail₂, htail₁], by rw [hlen₂, hlen₁]⟩
  rw [hnode₂, hnode₁, Option.map_map]
  congr 1
  funext node
  by_cases hp : before = some x <;> by_cases hn : behind = some x <;> simp [hp, hn]

/-! ## Insertion -/

/-- An instruction that goes in front of another one is put into a new slot, and then its neighbours are
linked with it. -/
theorem insertBefore_stages {instr : Instruction} (h : insertBefore anchor instr chain = .ok new after) :
    ∃ node c₁ c₂, chain.node? anchor = some node
      ∧ allocate instr node.prev (some anchor) chain = .ok new c₁
      ∧ Bridged c₁ c₂ node.prev (some anchor) (some new) (some new) ∧ c₂.slots.size = c₁.slots.size
      ∧ after = { c₂ with length := c₂.length + 1 } := by
  simp only [insertBefore, bind_ok, node_ok, modify_ok, pure_ok] at h
  obtain ⟨node, _, ⟨hnode, rfl⟩, id, c₁, halloc, _, c₂, hprev, _, c₃, hnext, _, _, rfl, rfl, rfl⟩ := h
  have hsize : c₃.slots.size = c₁.slots.size :=
    (linkNext_ok hnext).2.2.2.2.trans (linkPrev_ok hprev).2.2.2.2
  exact ⟨node, c₁, c₃, hnode, halloc, bridged_of_linkPrev hprev hnext, hsize, rfl⟩

/-- So is one that goes behind another one. -/
theorem insertAfter_stages {instr : Instruction} (h : insertAfter anchor instr chain = .ok new after) :
    ∃ node c₁ c₂, chain.node? anchor = some node
      ∧ allocate instr (some anchor) node.next chain = .ok new c₁
      ∧ Bridged c₁ c₂ (some anchor) node.next (some new) (some new) ∧ c₂.slots.size = c₁.slots.size
      ∧ after = { c₂ with length := c₂.length + 1 } := by
  simp only [insertAfter, bind_ok, node_ok, modify_ok, pure_ok] at h
  obtain ⟨node, _, ⟨hnode, rfl⟩, id, c₁, halloc, _, c₂, hnext, _, c₃, hprev, _, _, rfl, rfl, rfl⟩ := h
  have hsize : c₃.slots.size = c₁.slots.size :=
    (linkPrev_ok hprev).2.2.2.2.trans (linkNext_ok hnext).2.2.2.2
  exact ⟨node, c₁, c₃, hnode, halloc, bridged_of_linkNext hnext hprev, hsize, rfl⟩

/-- What the nodes of a chain are after an instruction was put between two neighbours. -/
structure Inserted (chain after : Chain) (prev next : Option InstrId) (instr : Instruction)
    (new : InstrId) : Prop where
  name : new = ⟨chain.slots.size⟩
  node : ∀ x, after.node? x = if x = new then some ⟨instr, prev, next⟩ else
    (chain.node? x).map fun node => ⟨node.instr,
      if next = some x then some new else node.prev,
      if prev = some x then some new else node.next⟩
  head : after.head = if prev = none then some new else chain.head
  tail : after.tail = if next = none then some new else chain.tail
  length : after.length = chain.length + 1

/-- A new slot between two instructions that are bridged over it is an insertion. It differs from both,
since its name is new. -/
theorem inserted_of_bridged {c₁ : Chain} {prev next : Option InstrId} {instr : Instruction}
    (halloc : allocate instr prev next chain = .ok new c₁)
    (hbridged : Bridged c₁ after prev next (some new) (some new)) (hne : prev ≠ some new)
    (hne' : next ≠ some new) :
    Inserted chain { after with length := after.length + 1 } prev next instr new := by
  obtain ⟨hid, hnode₁, hhead₁, htail₁, hlen₁, -⟩ := allocate_ok halloc
  refine ⟨hid, fun x => ?_, by rw [hbridged.head, hhead₁], by rw [hbridged.tail, htail₁],
    by rw [hbridged.length, hlen₁]⟩
  show after.node? x = _
  rw [hbridged.node, hnode₁]
  by_cases hx : x = new
  · subst hx
    simp [hne, hne']
  · rw [if_neg hx, if_neg hx]

namespace Inserted

variable {instr : Instruction} {prev next : Option InstrId}

/-- After an insertion the new name has the new instruction, and all others have what they had. -/
theorem get? (h : Inserted chain after prev next instr new) (x : InstrId) :
    after.get? x = if x = new then some instr else chain.get? x := by
  rw [Chain.get?, h.node]
  by_cases hx : x = new
  · simp [hx]
  · rw [if_neg hx, if_neg hx, Option.map_map, Chain.get?]
    rfl

/-- A segment that the new name was put into. -/
theorem segment (h : Inserted chain after xs.getLast? ys.head? instr new)
    (hlinks : chain.Segment none (xs ++ ys) none) (hnodup : (xs ++ ys).Nodup) (hfresh : new ∉ xs ++ ys) :
    after.Segment none (xs ++ new :: ys) none ∧ (xs ++ new :: ys).Nodup := by
  obtain ⟨hxs, hys, hdisj⟩ := List.nodup_append.mp hnodup
  have hnotx : new ∉ xs := fun hm => hfresh (List.mem_append_left _ hm)
  have hnoty : new ∉ ys := fun hm => hfresh (List.mem_append_right _ hm)
  obtain ⟨hfront, hback⟩ := Chain.segment_append.mp hlinks
  refine ⟨?_, ?_⟩
  · rw [Chain.segment_append]
    refine ⟨hfront.relinkNext hxs fun id hid node hnode => ?_, ⟨instr, ?_⟩,
      hback.relinkPrev hys fun id hid node hnode => ?_⟩
    · have hne : id ≠ new := fun he => hnotx (he ▸ hid)
      have hnext : ys.head? ≠ some id := fun he =>
        hdisj id hid id (List.mem_of_head? he) rfl
      refine ⟨node.instr, ?_⟩
      rw [h.node, if_neg hne, hnode, Option.map_some, if_neg hnext]
      simp
    · rw [h.node, if_pos rfl]
      simp
    · have hne : id ≠ new := fun he => hnoty (he ▸ hid)
      have hprev : xs.getLast? ≠ some id := fun he =>
        hdisj id (List.mem_of_getLast? he) id hid rfl
      refine ⟨node.instr, ?_⟩
      rw [h.node, if_neg hne, hnode, Option.map_some, if_neg hprev]
  · rw [List.nodup_append, List.nodup_cons]
    refine ⟨hxs, ⟨hnoty, hys⟩, fun a ha b hb => ?_⟩
    rcases List.mem_cons.mp hb with rfl | hb
    · exact fun he => hnotx (he ▸ ha)
    · exact hdisj a ha b hb

/-- The new name stands between the two parts of the list that it was put between. -/
theorem spells (h : Inserted chain after xs.getLast? ys.head? instr new)
    (hl : chain.Spells (xs ++ ys)) : after.Spells (xs ++ new :: ys) := by
  have hfresh : new ∉ xs ++ ys := h.name ▸ hl.fresh
  obtain ⟨hlinks, hnodup⟩ := h.segment hl.links hl.nodup hfresh
  refine ⟨hnodup, hlinks, ?_, ?_, ?_, ?_⟩
  · rw [h.head, hl.head]
    cases xs <;> simp
  · rw [h.tail, hl.tail]
    cases ys <;> simp [List.getLast?_cons]
  · rw [h.length, hl.length]
    simp
    omega
  · intro id node hid hnode
    have hne : id ≠ new := fun he => hid (by simp [he])
    have hold : id ∉ xs ++ ys := fun hm => hid (by
      rcases List.mem_append.mp hm with hm | hm
      · exact List.mem_append_left _ hm
      · exact List.mem_append_right _ (List.mem_cons_of_mem _ hm))
    rw [h.node, if_neg hne, Option.map_eq_some_iff] at hnode
    obtain ⟨old, hget, rfl⟩ := hnode
    have hnext : ys.head? ≠ some id := fun he =>
      hold (List.mem_append_right _ (List.mem_of_head? he))
    have hprev : xs.getLast? ≠ some id := fun he =>
      hold (List.mem_append_left _ (List.mem_of_getLast? he))
    rw [if_neg hnext, if_neg hprev]
    exact hl.detached id old hold hget

end Inserted

/-- Appending is inserting behind the last instruction. -/
theorem push_inserted_tail {instr : Instruction}
    (htail : ∀ last, chain.tail = some last → last.index < chain.slots.size)
    (h : push instr chain = .ok new after) : Inserted chain after chain.tail none instr new := by
  simp only [push, bind_ok, get_ok, modify_ok, pure_ok] at h
  obtain ⟨_, _, ⟨hread, hkept⟩, id, c₁, halloc, _, c₂, hlink, _, c₃, hprev, _, _, rfl, rfl, rfl⟩ := h
  rw [hkept] at halloc
  rw [hread] at hlink hprev
  obtain ⟨hname, hnode₁, hhead₁, htail₁, hlen₁, -⟩ := allocate_ok halloc
  obtain ⟨hnode₂, hhead₂, htail₂, hlen₂, -⟩ := linkNext_ok hlink
  obtain ⟨-, rfl⟩ := updateNode_ok.mp hprev
  -- the new name is none that was given out, so it is not its own neighbour
  have hne : chain.tail ≠ some id := by
    intro he
    have hlt := htail id he
    rw [hname] at hlt
    exact Nat.lt_irrefl _ hlt
  refine ⟨hname, fun x => ?_, ?_, rfl, ?_⟩
  · show (c₂.update id fun node => { node with prev := chain.tail }).node? x = _
    rw [Chain.node?_update, hnode₂, hnode₂, hnode₁, hnode₁]
    by_cases hx : x = id
    · rw [if_pos hx, if_pos hx, if_pos rfl]
      simp [hne]
    · rw [if_neg hx, if_neg hx, if_neg hx]
      cases chain.node? x with
      | none => rfl
      | some node =>
        simp only [Option.map_some, reduceCtorEq, if_false]
        split <;> rfl
  · show c₂.head = _
    rw [hhead₂, hhead₁]
  · show c₂.length + 1 = _
    rw [hlen₂, hlen₁]

/-- To push an instruction is to insert it between the last one and nothing. -/
theorem push_inserted {instr : Instruction} (hl : chain.Spells xs)
    (h : push instr chain = .ok new after) : Inserted chain after xs.getLast? none instr new := by
  rw [← hl.tail]
  refine push_inserted_tail (fun last hlast => ?_) h
  rw [hl.tail] at hlast
  obtain ⟨node, hnode⟩ := hl.present (List.mem_of_getLast? hlast)
  exact Chain.index_lt_of_node? hnode

/-- An insertion behind an anchor is one between the anchor and what comes behind it. -/
theorem insertAfter_inserted {instr : Instruction} (hl : chain.Spells (xs ++ anchor :: ys))
    (h : insertAfter anchor instr chain = .ok new after) :
    Inserted chain after (xs ++ [anchor]).getLast? ys.head? instr new := by
  obtain ⟨node, c₁, c₂, hnode, halloc, hbridged, -, rfl⟩ := insertAfter_stages h
  have hfresh := hl.fresh
  rw [← (allocate_ok halloc).1] at hfresh
  obtain ⟨instr', hnode'⟩ := hl.links.node?
  have hnodeNext : node.next = ys.head? := by
    rw [hnode, Option.some.injEq] at hnode'
    simp [hnode']
  rw [hnodeNext] at halloc hbridged
  rw [List.getLast?_concat]
  refine inserted_of_bridged halloc hbridged (fun he => ?_) (fun he => ?_)
  · rw [Option.some.injEq] at he
    exact hfresh (by simp [← he])
  · exact hfresh (by simp [List.mem_of_head? he])

theorem insertBefore_name {instr : Instruction} (h : insertBefore anchor instr chain = .ok id after) :
    id = ⟨chain.slots.size⟩ := by
  obtain ⟨_, _, _, -, halloc, -⟩ := insertBefore_stages h
  exact (allocate_ok halloc).1

/-- An insertion in front of an anchor is one between what comes in front of the anchor and the anchor. -/
theorem insertBefore_inserted {instr : Instruction} (hl : chain.Spells (xs ++ anchor :: ys))
    (h : insertBefore anchor instr chain = .ok new after) :
    Inserted chain after xs.getLast? (anchor :: ys).head? instr new := by
  obtain ⟨node, c₁, c₂, hnode, halloc, hbridged, -, rfl⟩ := insertBefore_stages h
  have hfresh := hl.fresh
  rw [← (allocate_ok halloc).1] at hfresh
  obtain ⟨instr', hnode'⟩ := hl.links.node?
  have hnodePrev : node.prev = xs.getLast? := by
    rw [hnode, Option.some.injEq] at hnode'
    simp [hnode']
  rw [hnodePrev] at halloc hbridged
  rw [List.head?_cons]
  refine inserted_of_bridged halloc hbridged (fun he => ?_) (fun he => ?_)
  · exact hfresh (by simp [List.mem_of_getLast? he])
  · rw [Option.some.injEq] at he
    exact hfresh (by simp [← he])

/-- Inserting behind an instruction. -/
theorem insertAfter_spells {instr : Instruction} (hl : chain.Spells (xs ++ anchor :: ys))
    (h : insertAfter anchor instr chain = .ok new after) :
    after.Spells (xs ++ anchor :: new :: ys)
      ∧ ∀ x, after.get? x = if x = new then some instr else chain.get? x := by
  have hins := insertAfter_inserted hl h
  refine ⟨?_, hins.get?⟩
  have hspells := hins.spells (by simpa using hl)
  simpa using hspells

/-- Inserting in front of an instruction. -/
theorem insertBefore_spells {instr : Instruction} (hl : chain.Spells (xs ++ anchor :: ys))
    (h : insertBefore anchor instr chain = .ok new after) :
    after.Spells (xs ++ new :: anchor :: ys)
      ∧ ∀ x, after.get? x = if x = new then some instr else chain.get? x := by
  have hins := insertBefore_inserted hl h
  exact ⟨hins.spells hl, hins.get?⟩

/-! ## Removal -/

/-- The neighbours of a linked instruction are linked with each other, and then it loses its links. One
that is not linked is left alone. -/
theorem unlink_stages {u : Unit} (h : unlink id chain = .ok u after) : ∃ node, chain.node? id = some node
    ∧ if chain.isLinked id = true then ∃ c, Bridged chain c node.prev node.next node.next node.prev
        ∧ c.slots.size = chain.slots.size
        ∧ after = { c.update id fun node => { node with prev := none, next := none } with
          length := c.length - 1 }
      else after = chain := by
  simp only [unlink, bind_ok, node_ok, get_ok] at h
  obtain ⟨node, _, ⟨hnode, rfl⟩, _, _, ⟨rfl, rfl⟩, h⟩ := h
  refine ⟨node, hnode, ?_⟩
  split at h
  next hlinked =>
    rw [if_pos hlinked]
    simp only [bind_ok, updateNode_ok, modify_ok] at h
    obtain ⟨_, c₁, hnext, _, c₂, hprev, _, _, ⟨-, rfl⟩, rfl⟩ := h
    have hsize : c₂.slots.size = _ := (linkPrev_ok hprev).2.2.2.2.trans (linkNext_ok hnext).2.2.2.2
    exact ⟨c₂, bridged_of_linkNext hnext hprev, hsize, rfl⟩
  next hlinked =>
    rw [if_neg hlinked]
    exact (pure_ok.mp h).2.symm

/-- What an instruction that was linked leaves behind when it is taken out of a segment. -/
theorem unlink_segment (hlinks : chain.Segment none (xs ++ id :: ys) none)
    (hnodup : (xs ++ id :: ys).Nodup) (hlinked : chain.isLinked id = true) {u : Unit}
    (h : unlink id chain = .ok u after) :
    after.Segment none (xs ++ ys) none
      ∧ (∀ x, after.node? x = if x = id then (chain.node? id).map fun node => ⟨node.instr, none, none⟩ else
        (chain.node? x).map fun node => ⟨node.instr,
          if ys.head? = some x then xs.getLast? else node.prev,
          if xs.getLast? = some x then ys.head? else node.next⟩)
      ∧ after.head = (if xs.getLast? = none then ys.head? else chain.head)
      ∧ after.tail = (if ys.head? = none then xs.getLast? else chain.tail)
      ∧ after.length = chain.length - 1 := by
  obtain ⟨node, hnode, hstages⟩ := unlink_stages h
  rw [if_pos hlinked] at hstages
  obtain ⟨c₂, hbridged, -, rfl⟩ := hstages
  obtain ⟨instr', hnode'⟩ := hlinks.node?
  rw [hnode, Option.some.injEq] at hnode'
  subst hnode'
  simp only [Option.or_none] at hbridged
  -- the two ends at the gap are different instructions, so that each is relinked on one side only
  obtain ⟨hxs, hrest, hdisj⟩ := List.nodup_append.mp hnodup
  obtain ⟨hnoty, hys⟩ := List.nodup_cons.mp hrest
  have hnotx : id ∉ xs := fun hm => hdisj id hm id (List.mem_cons_self ..) rfl
  have hdisj' : ∀ a ∈ xs, a ∉ ys := fun a ha hb =>
    hdisj a ha a (List.mem_cons_of_mem _ hb) rfl
  have hcut : ∀ x, (c₂.update id fun node => { node with prev := none, next := none }).node? x
      = if x = id then (chain.node? id).map fun node => ⟨node.instr, none, none⟩ else
        (chain.node? x).map fun node => ⟨node.instr,
          if ys.head? = some x then xs.getLast? else node.prev,
          if xs.getLast? = some x then ys.head? else node.next⟩ := by
    intro x
    rw [Chain.node?_update]
    by_cases hx : x = id
    · rw [if_pos hx, if_pos hx, hbridged.node, hnode]
      rfl
    · rw [if_neg hx, if_neg hx, hbridged.node]
  refine ⟨?_, hcut, hbridged.head, hbridged.tail, congrArg (· - 1) hbridged.length⟩
  obtain ⟨hfront, hback⟩ := Chain.segment_append.mp hlinks
  rw [Chain.segment_append, Option.or_none, Option.or_none]
  refine ⟨hfront.relinkNext hxs fun x hx node hnode => ?_,
    hback.2.relinkPrev hys fun x hx node hnode => ?_⟩
  · have hne : x ≠ id := fun he => hnotx (he ▸ hx)
    have hhead : ys.head? ≠ some x := fun he => hdisj' x hx (List.mem_of_head? he)
    refine ⟨node.instr, ?_⟩
    show Chain.node? (c₂.update id _) x = _
    rw [hcut, if_neg hne, hnode, Option.map_some, if_neg hhead]
  · have hne : x ≠ id := fun he => hnoty (he ▸ hx)
    have hlast : xs.getLast? ≠ some x := fun he => hdisj' x (List.mem_of_getLast? he) hx
    refine ⟨node.instr, ?_⟩
    show Chain.node? (c₂.update id _) x = _
    rw [hcut, if_neg hne, hnode, Option.map_some, if_neg hlast]

/-- Taking an instruction out of the list. -/
theorem unlink_spells (hl : chain.Spells (xs ++ id :: ys)) {u : Unit}
    (h : unlink id chain = .ok u after) :
    after.Spells (xs ++ ys) ∧ ∀ x, after.get? x = chain.get? x := by
  have hmem : id ∈ xs ++ id :: ys := by simp
  obtain ⟨hlinks, hnode, hhead, htail, hlength⟩ :=
    unlink_segment hl.links hl.nodup (hl.isLinked_iff.mpr hmem) h
  refine ⟨⟨?_, hlinks, ?_, ?_, ?_, ?_⟩, fun x => ?_⟩
  · exact hl.nodup.sublist ((List.sublist_cons_self id ys).append_left xs)
  · rw [hhead, hl.head]
    cases xs <;> simp [List.getLast?_cons]
  · rw [htail, hl.tail]
    cases ys <;> simp [List.getLast?_cons]
  · rw [hlength, hl.length]
    simp
  -- what was outside of the list is still, and the instruction has joined it
  · intro x node hx hold
    rw [hnode] at hold
    by_cases he : x = id
    · rw [if_pos he, Option.map_eq_some_iff] at hold
      obtain ⟨_, -, rfl⟩ := hold
      exact ⟨rfl, rfl⟩
    · have hout : x ∉ xs ++ id :: ys := fun hm => (mem_site_iff.mp hm).elim he hx
      rw [if_neg he, Option.map_eq_some_iff] at hold
      obtain ⟨old, hget, rfl⟩ := hold
      have hhead : ys.head? ≠ some x := fun he =>
        hx (List.mem_append_right _ (List.mem_of_head? he))
      have hlast : xs.getLast? ≠ some x := fun he =>
        hx (List.mem_append_left _ (List.mem_of_getLast? he))
      rw [if_neg hhead, if_neg hlast]
      exact hl.detached x old hout hget
  · rw [Chain.get?, hnode, Chain.get?]
    by_cases hx : x = id
    · rw [if_pos hx, hx, Option.map_map]
      rfl
    · rw [if_neg hx, Option.map_map]
      rfl

/-- After a slot is emptied its name has nothing, and all others have what they had. -/
theorem node?_without (x : InstrId) :
    ({ chain with slots := chain.slots.setIfInBounds id.index none } : Chain).node? x
      = if x = id then none else chain.node? x := by
  simp only [Chain.node?, Array.getElem?_setIfInBounds]
  by_cases hx : x = id
  · subst hx
    by_cases hlt : x.index < chain.slots.size <;> simp [hlt]
  · have hne : id.index ≠ x.index := fun he => hx (Handle.ext_index he).symm
    simp [hx, hne]

/-- Emptying the slot of an instruction that is not in a segment. -/
theorem segment_without {prev next : Option InstrId} (h : chain.Segment prev l next) (hid : id ∉ l) :
    ({ chain with slots := chain.slots.setIfInBounds id.index none } : Chain).Segment prev l next := by
  refine h.congr fun x hx node hnode => ⟨node.instr, ?_⟩
  have hne : x ≠ id := fun he => hid (he ▸ hx)
  rw [node?_without, if_neg hne, hnode]

/-- Emptying the slot of an instruction that is not in the list. -/
theorem spells_without (hl : chain.Spells l) (hid : id ∉ l) :
    ({ chain with slots := chain.slots.setIfInBounds id.index none } : Chain).Spells l
      ∧ ∀ x, ({ chain with slots := chain.slots.setIfInBounds id.index none } : Chain).get? x
          = if x = id then none else chain.get? x := by
  refine ⟨⟨hl.nodup, segment_without hl.links hid, hl.head, hl.tail, hl.length, ?_⟩, fun x => ?_⟩
  · intro x node hx hnode
    rw [node?_without] at hnode
    by_cases he : x = id
    · rw [if_pos he] at hnode
      cases hnode
    · rw [if_neg he] at hnode
      exact hl.detached x node hx hnode
  · rw [Chain.get?, node?_without]
    by_cases hx : x = id
    · rw [if_pos hx, if_pos hx]
      rfl
    · rw [if_neg hx, if_neg hx]
      rfl

end ChainM

end Splice
