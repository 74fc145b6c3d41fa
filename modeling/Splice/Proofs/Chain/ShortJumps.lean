import Splice.Proofs.Chain.Replacement
import Splice.Proofs.Instruction.Promotion

/-!
# Short jumps

`shortJumps` lists the linked short jumps. An update makes the list shorter by one for each jump
that it widens (`length_shortJumps_of_widened`), and leaves it alone otherwise.

Splicing may make it longer: by what is put in, and by what gets linked on the way. The bound on
that is a list that holds every short jump that is met in any direction (`Shorts`). It is asked
for without asking for a well-formed chain: the links of an instruction that was detached, or
that was spliced in next to one, need not be part of the list that the head leads to.

`Met` is being reachable over links in either direction, and `Registers` says that a list has
all short jumps that are met from an instruction. An insertion in front of a detached
instruction makes a chain of which the head leads to other instructions than before; what is met
from there was registered.
-/

namespace Splice

namespace Instruction

variable {a b : Instruction}

theorem Alike.rewritten (h : Alike a b) : Rewritten a b :=
  ⟨h.flags, by rw [h.bytes], h.opcodeSize, by rw [h.bytes]⟩

theorem Relinked.rewritten (h : Relinked a b) : Rewritten a b := h.alike.rewritten

end Instruction

namespace Chain

/-- A short jump that is linked has this name. -/
def isShortAt (chain : Chain) (id : InstrId) : Bool :=
  chain.isLinked id && (chain.get? id).any (·.isShortJump)

/-- The linked short jumps, each of them once. -/
def shortJumps (chain : Chain) : List InstrId :=
  ((List.range chain.slots.size).map fun index => (⟨index⟩ : InstrId)).filter chain.isShortAt

/-- What comes behind an instruction is linked. -/
def Onward (chain : Chain) : Prop :=
  ∀ id next, chain.next? id = some next → chain.contains next = true → chain.isLinked next = true

/-- The instruction is met from somewhere: it is the head, it comes behind another one, or another one
comes in front of it. -/
def Met (chain : Chain) (id : InstrId) : Prop :=
  (chain.prev? id).isSome ∨ chain.head = some id ∨ ∃ other, chain.next? other = some id

/-- The instruction is in the list if it is a short jump. -/
def Registers (chain : Chain) (l : List InstrId) (id : InstrId) : Prop :=
  ∀ instr, chain.get? id = some instr → instr.isShortJump = true → id ∈ l

/-- All short jumps that are met are in the list. -/
def Shorts (chain : Chain) (l : List InstrId) : Prop := ∀ id, chain.Met id → chain.Registers l id

variable {chain after : Chain} {l l' : List InstrId} {id jumper : InstrId} {instr : Instruction}

/-! ## The list -/

/-- To be linked is to be there and to have something in front or to be the head. -/
theorem isLinked_iff : chain.isLinked id = true
    ↔ chain.contains id = true ∧ ((chain.prev? id).isSome ∨ chain.head = some id) := by
  unfold isLinked contains prev?
  cases chain.node? id with
  | none => simp
  | some node => simp

/-- The short jumps are those instructions that are linked and short. -/
theorem mem_shortJumps : id ∈ chain.shortJumps
    ↔ chain.isLinked id = true ∧ ∃ instr, chain.get? id = some instr ∧ instr.isShortJump = true := by
  unfold shortJumps isShortAt
  rw [List.mem_filter, Bool.and_eq_true, Option.any_eq_true]
  constructor
  · rintro ⟨-, hlinked, hshort⟩
    exact ⟨hlinked, hshort⟩
  · rintro ⟨hlinked, instr, hget, hshort⟩
    refine ⟨List.mem_map.mpr ⟨id.index, List.mem_range.mpr ?_, rfl⟩, hlinked, instr, hget, hshort⟩
    rw [get?, Option.map_eq_some_iff] at hget
    obtain ⟨node, hnode, -⟩ := hget
    exact index_lt_of_node? hnode

theorem nodup_shortJumps (chain : Chain) : chain.shortJumps.Nodup := by
  refine List.Nodup.sublist List.filter_sublist ?_
  exact List.pairwise_map.mpr (List.nodup_range.imp fun hne he => hne (congrArg Handle.index he))

/-- Where instructions stay short or not, the short jumps are the same. -/
theorem Evolves.shortJumps (h : chain.Evolves (fun _ a b => b.isShortJump = a.isShortJump) after) :
    after.shortJumps = chain.shortJumps := by
  obtain ⟨f, rfl, hf⟩ := h
  rw [Chain.shortJumps, Chain.shortJumps, size_slots_adjust]
  refine List.filter_congr fun id _ => ?_
  rw [isShortAt, isShortAt, isLinked_adjust, get?_adjust]
  cases hget : chain.get? id with
  | none => rfl
  | some instr => rw [Option.map_some, Option.any_some, Option.any_some, hf id instr hget]

/-- A short jump that is widened is one short jump less. -/
theorem length_shortJumps_of_widened {f : Instruction → Instruction} (hjumper : jumper ∈ chain.shortJumps)
    (hlong : ∀ instr, chain.get? jumper = some instr → (f instr).isShortJump = false) :
    (chain.adjust (only jumper f)).shortJumps.length + 1 = chain.shortJumps.length := by
  have hrest : (chain.adjust (only jumper f)).shortJumps = chain.shortJumps.erase jumper := by
    rw [chain.nodup_shortJumps.erase_eq_filter, shortJumps, shortJumps, size_slots_adjust, List.filter_filter]
    refine List.filter_congr fun id _ => ?_
    rw [isShortAt, isShortAt, isLinked_adjust, get?_adjust]
    by_cases hid : id = jumper
    · subst hid
      have hgone : ((chain.get? id).map (only id f id)).any (·.isShortJump) = false := by
        cases hget : chain.get? id with
        | none => rfl
        | some instr => rw [Option.map_some, Option.any_some, only_self, hlong instr hget]
      rw [hgone]
      simp
    · have hsame : (chain.get? id).map (only jumper f id) = chain.get? id := by
        cases chain.get? id with
        | none => rfl
        | some instr => rw [Option.map_some, only_ne hid]
      rw [hsame]
      simp [hid]
  rw [hrest, List.length_erase_of_mem hjumper]
  exact Nat.sub_add_cancel (List.length_pos_of_mem hjumper)

/-! ## What is met -/

/-- A change of instructions in place keeps what comes behind linked. -/
theorem Onward.evolve {r : InstrId → Instruction → Instruction → Prop} (h : chain.Onward)
    (hr : chain.Evolves r after) : after.Onward := by
  intro id next hnext hpresent
  rw [hr.next?] at hnext
  rw [contains_eq_isSome_get?, hr.isSome_get?, ← contains_eq_isSome_get?] at hpresent
  rw [hr.isLinked]
  exact h id next hnext hpresent

/-- Where what comes behind is linked, walking along the chain meets linked instructions only. -/
theorem Onward.isLinked_of_mem_ids (h : chain.Onward) (hid : id ∈ chain.ids)
    (hpresent : chain.contains id = true) : chain.isLinked id = true := by
  -- only what was linked to is walked to, so being linked passes on along the walk
  have hfollow : ∀ (steps : Nat) (start : Option InstrId),
      (∀ x, start = some x → chain.contains x = true → chain.isLinked x = true) →
      id ∈ chain.follow steps start → chain.isLinked id = true := by
    intro steps
    induction steps with
    | zero =>
      intro start _ hmem
      cases hmem
    | succ steps ih =>
      intro start hstart hmem
      cases start with
      | none => cases hmem
      | some x =>
        rcases List.mem_cons.mp hmem with rfl | hrest
        · exact hstart id rfl hpresent
        · exact ih _ (h x) hrest
  refine hfollow _ _ (fun x hx hx' => ?_) hid
  exact isLinked_iff.mpr ⟨hx', .inr hx⟩

/-- In a chain in which whatever comes behind is linked, every short jump that is met is among the short
jumps. -/
theorem Onward.shorts (h : chain.Onward) : chain.Shorts chain.shortJumps := by
  intro id hmet instr hget hshort
  have hpresent : chain.contains id = true := by rw [contains_eq_isSome_get?, hget]; rfl
  refine mem_shortJumps.mpr ⟨?_, instr, hget, hshort⟩
  rcases hmet with hprev | hhead | ⟨other, hother⟩
  · exact isLinked_iff.mpr ⟨hpresent, .inl hprev⟩
  · exact isLinked_iff.mpr ⟨hpresent, .inr hhead⟩
  · exact h other id hother hpresent

/-- A chain has no more short jumps than a list that has all that are met. -/
theorem Shorts.length_le (h : chain.Shorts l) : chain.shortJumps.length ≤ l.length := by
  refine chain.nodup_shortJumps.length_le_of_subset fun id hid => ?_
  obtain ⟨hlinked, instr, hget, hshort⟩ := mem_shortJumps.mp hid
  obtain ⟨-, hprev | hhead⟩ := isLinked_iff.mp hlinked
  · exact h id (.inl hprev) instr hget hshort
  · exact h id (.inr (.inl hhead)) instr hget hshort

theorem Shorts.subset (h : chain.Shorts l) (hsub : l ⊆ l') : chain.Shorts l' :=
  fun id hmet instr hget hshort => hsub (h id hmet instr hget hshort)

/-- What is not there need not be in the list. -/
theorem Shorts.strike (h : chain.Shorts (id :: l)) (hid : chain.get? id = none) : chain.Shorts l := by
  intro x hmet instr hget hshort
  rcases List.mem_cons.mp (h x hmet instr hget hshort) with rfl | hmem
  · rw [hid] at hget
    cases hget
  · exact hmem

/-- Instructions are changed where they stand, and none becomes a short jump. -/
theorem Shorts.evolve (h : chain.Shorts l)
    (hr : chain.Evolves (fun _ a b => b.isShortJump = a.isShortJump) after) : after.Shorts l := by
  intro id hmet instr hget hshort
  obtain ⟨before, hbefore, hsame⟩ := hr.get?_of hget
  refine h id ?_ before hbefore (hsame ▸ hshort)
  obtain ⟨f, rfl, -⟩ := hr
  rcases hmet with hprev | hhead | ⟨other, hother⟩
  · exact .inl (by rwa [prev?_adjust] at hprev)
  · exact .inr (.inl hhead)
  · exact .inr (.inr ⟨other, by rwa [next?_adjust] at hother⟩)

end Chain

namespace ChainM

variable {chain after : Chain} {l ids : List InstrId} {id anchor new old : InstrId}
  {instr freed : Instruction} {instrs : List Instruction} {u : Unit}

/-! ## Steps of splicing -/

/-- To bridge two instructions keeps all short jumps that are met in a list, if those that come to be met
are in it. -/
theorem Bridged.shorts {before behind next prev : Option InstrId} (h : Bridged chain after before behind next prev)
    (hs : chain.Shorts l) (hbehind : ∀ x, behind = some x → chain.Registers l x)
    (hnext : ∀ x, next = some x → chain.Registers l x) : after.Shorts l := by
  have hget : ∀ x, after.get? x = chain.get? x := by
    intro x
    rw [Chain.get?, Chain.get?, h.node, Option.map_map]
    rfl
  intro id hmet instr hinstr hshort
  rw [hget] at hinstr
  suffices chain.Registers l id from this instr hinstr hshort
  -- an instruction is met by the one behind it, as the head, or by the one in front of it
  rcases hmet with hprev | hhead | ⟨other, hother⟩
  · by_cases hid : behind = some id
    · exact hbehind id hid
    · refine hs id (.inl ?_)
      rw [Chain.prev?, h.node] at hprev
      rw [Chain.prev?]
      cases hnode : chain.node? id with
      | none =>
        rw [hnode] at hprev
        cases hprev
      | some node =>
        rw [hnode, Option.map_some, Option.bind_some, if_neg hid] at hprev
        exact hprev
  · rw [h.head] at hhead
    by_cases hbefore : before = none
    · rw [if_pos hbefore] at hhead
      exact hnext id hhead
    · rw [if_neg hbefore] at hhead
      exact hs id (.inr (.inl hhead))
  · rw [Chain.next?, h.node] at hother
    cases hnode : chain.node? other with
    | none =>
      rw [hnode] at hother
      cases hother
    | some node =>
      rw [hnode, Option.map_some, Option.bind_some] at hother
      by_cases hbefore : before = some other
      · rw [if_pos hbefore] at hother
        exact hnext id hother
      · rw [if_neg hbefore] at hother
        exact hs id (.inr (.inr ⟨other, by rw [Chain.next?, hnode]; exact hother⟩))

theorem allocate_get? {prev next : Option InstrId} (h : allocate instr prev next chain = .ok new after) (x : InstrId) :
    after.get? x = if x = new then some instr else chain.get? x := by
  rw [Chain.get?, (allocate_ok h).2.1]
  split <;> rfl

/-- A new slot keeps all short jumps that are met in a list, if the new instruction and what it leads to
are in it. -/
theorem allocate_shorts {prev next : Option InstrId} (h : allocate instr prev next chain = .ok new after)
    (hs : chain.Shorts l) (hnew : instr.isShortJump = true → new ∈ l)
    (hnext : ∀ x, next = some x → chain.Registers l x) : after.Shorts l := by
  obtain ⟨-, hnode, hhead, -⟩ := allocate_ok h
  intro id hmet found hfound hshort
  rw [allocate_get? h] at hfound
  by_cases hid : id = new
  · rw [if_pos hid, Option.some.injEq] at hfound
    exact hid ▸ hnew (hfound ▸ hshort)
  rw [if_neg hid] at hfound
  suffices chain.Registers l id from this found hfound hshort
  rcases hmet with hprev | hhead' | ⟨other, hother⟩
  · rw [Chain.prev?, hnode, if_neg hid] at hprev
    exact hs id (.inl hprev)
  · exact hs id (.inr (.inl (hhead ▸ hhead')))
  · rw [Chain.next?, hnode] at hother
    by_cases hother' : other = new
    · rw [if_pos hother'] at hother
      exact hnext id hother
    · rw [if_neg hother'] at hother
      exact hs id (.inr (.inr ⟨other, hother⟩))

/-- What is registered stays so when an instruction is put into a new slot. -/
theorem allocate_registers {prev next : Option InstrId} (h : allocate instr prev next chain = .ok new after)
    (hnew : instr.isShortJump = true → new ∈ l) (hid : id = new ∨ chain.Registers l id) : after.Registers l id := by
  intro found hfound hshort
  rw [allocate_get? h] at hfound
  by_cases he : id = new
  · rw [if_pos he, Option.some.injEq] at hfound
    exact he ▸ hnew (hfound ▸ hshort)
  · rw [if_neg he] at hfound
    exact hid.resolve_left he found hfound hshort

/-! ## Insertions -/

/-- An insertion in front of an instruction may link that, and it links what is put in. -/
theorem insertBefore_shorts (h : insertBefore anchor instr chain = .ok new after) (hs : chain.Shorts l)
    (hanchor : chain.Registers l anchor) (hnew : instr.isShortJump = true → new ∈ l) : after.Shorts l := by
  obtain ⟨node, c₁, c₂, -, halloc, hbridged, -, rfl⟩ := insertBefore_stages h
  refine hbridged.shorts (allocate_shorts halloc hs hnew ?_) ?_ ?_
  · rintro x ⟨⟩
    exact hanchor
  · rintro x ⟨⟩
    exact allocate_registers halloc hnew (.inr hanchor)
  · rintro x ⟨⟩
    exact allocate_registers halloc hnew (.inl rfl)

/-- An insertion behind an instruction links what is put in. -/
theorem insertAfter_shorts (h : insertAfter anchor instr chain = .ok new after) (hs : chain.Shorts l)
    (hnew : instr.isShortJump = true → new ∈ l) : after.Shorts l := by
  obtain ⟨node, c₁, c₂, hnode, halloc, hbridged, -, rfl⟩ := insertAfter_stages h
  have hbehind : ∀ x, node.next = some x → chain.Registers l x := by
    intro x hx
    exact hs x (.inr (.inr ⟨anchor, by rw [Chain.next?, hnode]; exact hx⟩))
  refine hbridged.shorts (allocate_shorts halloc hs hnew hbehind) ?_ ?_
  · intro x hx
    exact allocate_registers halloc hnew (.inr (hbehind x hx))
  · rintro x ⟨⟩
    exact allocate_registers halloc hnew (.inl rfl)

/-- Insertions in front of an anchor keep all short jumps that are met in a list, if those that are put in
are in it. -/
theorem insertAll_shorts (h : instrs.mapM (insertBefore anchor) chain = .ok ids after) (hs : chain.Shorts l)
    (hanchor : anchor ∈ l) (hnew : ∀ placed ∈ ids.zip instrs, placed.2.isShortJump = true → placed.1 ∈ l) :
    after.Shorts l := by
  induction instrs generalizing chain ids with
  | nil =>
    obtain ⟨-, rfl⟩ := mapM_nil_ok.mp h
    exact hs
  | cons instr instrs ih =>
    obtain ⟨new, c, ids, hfirst, hrest, rfl⟩ := mapM_cons_ok.mp h
    rw [List.zip_cons_cons] at hnew
    have hc := insertBefore_shorts hfirst hs (fun _ _ _ => hanchor)
      (hnew (new, instr) (List.mem_cons_self ..))
    exact ih hrest hc fun placed hplaced => hnew placed (List.mem_cons_of_mem _ hplaced)

/-! ## Removals -/

/-- An instruction that loses its links leads nowhere any more, and the others are met as before. -/
theorem cleared_shorts (hs : chain.Shorts l) :
    (chain.update id fun node => { node with prev := none, next := none }).Shorts l := by
  have hnodes := fun x => chain.node?_update id x fun node => { node with prev := none, next := none }
  intro x hmet found hfound hshort
  have hfound' : chain.get? x = some found := by
    rw [Chain.get?, hnodes] at hfound
    by_cases hx : x = id
    · rwa [if_pos hx, Option.map_map, ← hx] at hfound
    · rwa [if_neg hx] at hfound
  refine hs x ?_ found hfound' hshort
  rcases hmet with hprev | hhead | ⟨other, hother⟩
  · rw [Chain.prev?, hnodes] at hprev
    by_cases hx : x = id
    · rw [if_pos hx] at hprev
      cases hid : chain.node? id <;> rw [hid] at hprev <;> cases hprev
    · rw [if_neg hx] at hprev
      exact .inl hprev
  · exact .inr (.inl hhead)
  · rw [Chain.next?, hnodes] at hother
    by_cases hx : other = id
    · rw [if_pos hx] at hother
      cases hid : chain.node? id <;> rw [hid] at hother <;> cases hother
    · rw [if_neg hx] at hother
      exact .inr (.inr ⟨other, hother⟩)

/-- To take an instruction out makes no short jump met that was not. -/
theorem unlink_shorts (h : unlink id chain = .ok u after) (hs : chain.Shorts l) : after.Shorts l := by
  obtain ⟨node, hnode, hstages⟩ := unlink_stages h
  split at hstages
  · obtain ⟨c, hbridged, -, rfl⟩ := hstages
    have hbehind : ∀ x, node.next = some x → chain.Registers l x := by
      intro x hx
      exact hs x (.inr (.inr ⟨id, by rw [Chain.next?, hnode]; exact hx⟩))
    exact cleared_shorts (hbridged.shorts hs hbehind hbehind)
  · obtain rfl := hstages
    exact hs

/-- Emptying a slot takes an instruction away. -/
theorem without_shorts (hs : chain.Shorts l) :
    ({ chain with slots := chain.slots.setIfInBounds id.index none } : Chain).Shorts l
      ∧ ({ chain with slots := chain.slots.setIfInBounds id.index none } : Chain).get? id = none := by
  have hnodes : ∀ x, ({ chain with slots := chain.slots.setIfInBounds id.index none } : Chain).node? x
      = if x = id then none else chain.node? x := node?_without
  refine ⟨fun x hmet found hfound hshort => ?_, by rw [Chain.get?, hnodes, if_pos rfl]; rfl⟩
  have hne : x ≠ id := by
    intro he
    rw [Chain.get?, hnodes, if_pos he] at hfound
    cases hfound
  rw [Chain.get?, hnodes, if_neg hne] at hfound
  refine hs x ?_ found hfound hshort
  rcases hmet with hprev | hhead | ⟨other, hother⟩
  · rw [Chain.prev?, hnodes, if_neg hne] at hprev
    exact .inl hprev
  · exact .inr (.inl hhead)
  · rw [Chain.next?, hnodes] at hother
    by_cases hx : other = id
    · rw [if_pos hx] at hother
      cases hother
    · rw [if_neg hx] at hother
      exact .inr (.inr ⟨other, hother⟩)

/-- An instruction that is freed leaves, and nothing comes. -/
theorem free_shorts (h : free id chain = .ok freed after) (hs : chain.Shorts l) :
    after.Shorts l ∧ after.get? id = none := by
  obtain ⟨c₁, c₂, c₃, old, hunlink, htarget, htable, -, rfl⟩ := free_stages h
  obtain ⟨found, -, -, rfl⟩ := unlinkTarget_ok htarget
  obtain ⟨found', -, -, rfl⟩ := setJumpTable_ok htable
  have hs₂ : (c₁.adjust (untargeted id found)).Shorts l :=
    (unlink_shorts hunlink hs).evolve (.of_adjust fun _ _ _ => untargeted_relinked.1.rewritten.isShortJump)
  exact without_shorts (hs₂.evolve (.of_adjust fun _ _ _ => tabled_relinked.1.rewritten.isShortJump))

/-- A replacement links the replaced instruction, if that was detached, and then takes it out. -/
theorem replace_shorts (h : replace old instrs chain = .ok (ids, freed) after) (hs : chain.Shorts l)
    (hnew : ∀ placed ∈ ids.zip instrs, placed.2.isShortJump = true → placed.1 ∈ l) : after.Shorts l := by
  obtain ⟨first, others, c₂, c₃, held, rfl, hinsert, hretarget, -, hfree⟩ := replace_run h
  have hne : old ≠ first := replace_ne h
  have hs₂ : c₂.Shorts (old :: l) := by
    refine insertAll_shorts hinsert (hs.subset (List.subset_cons_self ..)) (List.mem_cons_self ..) ?_
    exact fun placed hplaced hshort => List.mem_cons_of_mem _ (hnew placed hplaced hshort)
  have hs₃ := hs₂.evolve ((retargetAll_relinked hne hretarget).mono fun _ _ _ hab =>
    hab.rewritten.isShortJump)
  have hs₄ : (c₃.adjust (takingOver old first held.referencedBy)).Shorts (old :: l) :=
    hs₃.evolve (.of_adjust fun _ _ _ => takingOver_retied.alike.rewritten.isShortJump)
  obtain ⟨hs₅, hgone⟩ := free_shorts hfree hs₄
  exact hs₅.strike hgone

end ChainM

end Splice
