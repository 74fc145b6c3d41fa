import Splice.Proofs.Chain.Calls
import Splice.Proofs.Chain.ShortJumps

/-!
# What comes behind leads back

Splicing next to a detached instruction leaves a chain that is not a list any more: there may be a
second line of instructions, or one that two others come behind. Even so, what comes behind an
instruction has this instruction in front (`Chain.Backed`), and so it is linked. Every call keeps
that, wherever it splices (`onward_along_calls`).

> `onward_along_calls`: after any calls on a chain that is a list, what comes behind an
> instruction is linked, also where a detached one was spliced next to.

Nothing is asked of the calls but that they are made on handles that were handed out, linked or
not. Bounds on how many jumps an edit can bring in rest on this, since they have to hold in
every state that edits can reach and not in well-formed ones alone
(`Splice.Proofs.Program.Convergence`). The step lemmas go by what an insertion and a removal do
to links, `Inserted` and `Cleared`, and never look at the list.
-/

namespace Splice

namespace Chain

/-- What comes behind an instruction has it in front, and links name instructions that were handed out. -/
structure Backed (chain : Chain) : Prop where
  back : ∀ id next, chain.next? id = some next → chain.contains next = true → chain.prev? next = some id
  ahead : ∀ id next, chain.next? id = some next → next.index < chain.slots.size
  behind : ∀ id prev, chain.prev? id = some prev → prev.index < chain.slots.size
  last : ∀ last, chain.tail = some last → last.index < chain.slots.size

variable {chain after : Chain} {l : List InstrId} {f : InstrId → Instruction → Instruction}

/-- Where links are backed, following them leads to instructions that are there. -/
theorem Backed.onward (h : chain.Backed) : chain.Onward := by
  intro id next hnext hpresent
  refine isLinked_iff.mpr ⟨hpresent, .inl ?_⟩
  rw [h.back id next hnext hpresent]
  rfl

/-- The links of a chain that spells out a list are backed, as neighbours in the list name each other. -/
theorem Spells.backed (h : chain.Spells l) : chain.Backed where
  back id next hnext _ := h.prev?_of_next? hnext
  ahead id next hnext := by
    obtain ⟨xs, ys, rfl⟩ := h.split_of_next? hnext
    obtain ⟨node, hnode⟩ := h.present (by simp : next ∈ xs ++ id :: next :: ys)
    exact index_lt_of_node? hnode
  behind id prev hprev := by
    obtain ⟨xs, ys, rfl⟩ := h.split_of_prev? hprev
    obtain ⟨node, hnode⟩ := h.present (by simp : prev ∈ xs ++ prev :: id :: ys)
    exact index_lt_of_node? hnode
  last last hlast := by
    rw [h.tail] at hlast
    obtain ⟨node, hnode⟩ := h.present (List.mem_of_getLast? hlast)
    exact index_lt_of_node? hnode

/-- An adjustment does not touch the links, so they stay backed. -/
theorem Backed.adjust (h : chain.Backed) : (chain.adjust f).Backed where
  back id next hnext hpresent := by
    rw [next?_adjust] at hnext
    rw [contains_adjust] at hpresent
    rw [prev?_adjust]
    exact h.back id next hnext hpresent
  ahead id next hnext := by
    rw [next?_adjust] at hnext
    rw [size_slots_adjust]
    exact h.ahead id next hnext
  behind id prev hprev := by
    rw [prev?_adjust] at hprev
    rw [size_slots_adjust]
    exact h.behind id prev hprev
  last last hlast := by
    rw [size_slots_adjust]
    exact h.last last hlast

end Chain

namespace ChainM

variable {chain after : Chain} {id anchor new old : InstrId} {ids : List InstrId} {instr freed : Instruction}
  {instrs : List Instruction} {prev next : Option InstrId} {u : Unit}

/-! ## Insertions -/

/-- A name that was handed out differs from the next one to be handed out. -/
theorem ne_of_index_lt {x : InstrId} (hname : new = ⟨chain.slots.size⟩) (hlt : x.index < chain.slots.size) :
    x ≠ new := by
  rintro rfl
  rw [hname] at hlt
  exact Nat.lt_irrefl _ hlt

namespace Inserted

variable {x : InstrId}

/-- What is there after an insertion, other than the new instruction, was there before. -/
theorem contains_of (h : Inserted chain after prev next instr new) (hpresent : after.contains x = true)
    (hx : x ≠ new) : chain.contains x = true := by
  rw [Chain.contains, h.node, if_neg hx] at hpresent
  rw [Chain.contains]
  cases hnode : chain.node? x with
  | none =>
    rw [hnode] at hpresent
    cases hpresent
  | some node => rfl

/-- What comes behind an instruction came behind it before, or one of the two is new. -/
theorem next?_cases (h : Inserted chain after prev next instr new) (hx : after.next? id = some x) :
    id = new ∧ next = some x ∨ prev = some id ∧ x = new ∨ prev ≠ some id ∧ chain.next? id = some x := by
  rw [Chain.next?, h.node] at hx
  by_cases hid : id = new
  · rw [if_pos hid] at hx
    exact .inl ⟨hid, hx⟩
  · rw [if_neg hid] at hx
    cases hnode : chain.node? id with
    | none =>
      rw [hnode] at hx
      cases hx
    | some node =>
      rw [hnode, Option.map_some, Option.bind_some] at hx
      by_cases hfront : prev = some id
      · rw [if_pos hfront, Option.some.injEq] at hx
        exact .inr (.inl ⟨hfront, hx.symm⟩)
      · rw [if_neg hfront] at hx
        exact .inr (.inr ⟨hfront, by rw [Chain.next?, hnode]; exact hx⟩)

/-- After an insertion, what is in front of an instruction is what was there before, unless the new one
was put there. -/
theorem prev?_of_contains (h : Inserted chain after prev next instr new)
    (hpresent : after.contains x = true) (hx : x ≠ new) :
    after.prev? x = if next = some x then some new else chain.prev? x := by
  rw [Chain.contains, h.node, if_neg hx] at hpresent
  rw [Chain.prev?, h.node, if_neg hx, Chain.prev?]
  cases hnode : chain.node? x with
  | none =>
    rw [hnode] at hpresent
    cases hpresent
  | some node => rfl

/-- Where a link to the front leads after an insertion, told from before: to the new instruction, from it,
or where it led. -/
theorem prev?_cases (h : Inserted chain after prev next instr new) (hx : after.prev? id = some x) :
    prev = some x ∨ x = new ∨ chain.prev? id = some x := by
  by_cases hid : id = new
  · rw [Chain.prev?, h.node, if_pos hid] at hx
    exact .inl hx
  · have hpresent : after.contains id = true := by
      rw [Chain.contains]
      cases hnode : after.node? id with
      | none =>
        rw [Chain.prev?, hnode] at hx
        cases hx
      | some node => rfl
    rw [h.prev?_of_contains hpresent hid] at hx
    split at hx
    · exact .inr (.inl (Option.some.inj hx).symm)
    · exact .inr (.inr hx)

/-- An instruction is put between `prev` and `next`, where only `prev` leads on to `next`. -/
theorem backed (h : Inserted chain after prev next instr new) (hb : chain.Backed)
    (hsize : after.slots.size = chain.slots.size + 1) (hprev : ∀ x, prev = some x → x.index < chain.slots.size)
    (hnext : ∀ x, next = some x → x.index < chain.slots.size)
    (hgap : ∀ id x, next = some x → chain.contains x = true → chain.next? id = some x → prev = some id) :
    after.Backed := by
  have hnewSize : new.index < after.slots.size := by
    rw [h.name, hsize]
    exact Nat.lt_succ_self _
  have hold : ∀ x : InstrId, x.index < chain.slots.size → x.index < after.slots.size := fun x hlt => by
    rw [hsize]
    exact Nat.lt_succ_of_lt hlt
  -- a link is one of the two new ones or was there before
  refine ⟨fun id x hx hpresent => ?_, fun id x hx => ?_, fun id x hx => ?_, fun x hx => ?_⟩
  · rcases h.next?_cases hx with ⟨rfl, hx⟩ | ⟨hfront, rfl⟩ | ⟨hfront, hx⟩
    · rw [h.prev?_of_contains hpresent (ne_of_index_lt h.name (hnext x hx)), if_pos hx]
    · rw [Chain.prev?, h.node, if_pos rfl]
      exact hfront
    · -- the two were there before, and nothing was put between them
      have hne := ne_of_index_lt h.name (hb.ahead id x hx)
      have hpresent' := h.contains_of hpresent hne
      rw [h.prev?_of_contains hpresent hne, if_neg fun he => hfront (hgap id x he hpresent' hx)]
      exact hb.back id x hx hpresent'
  · rcases h.next?_cases hx with ⟨-, hx⟩ | ⟨-, rfl⟩ | ⟨-, hx⟩
    · exact hold x (hnext x hx)
    · exact hnewSize
    · exact hold x (hb.ahead id x hx)
  · rcases h.prev?_cases hx with hx | rfl | hx
    · exact hold x (hprev x hx)
    · exact hnewSize
    · exact hold x (hb.behind id x hx)
  · rw [h.tail] at hx
    split at hx
    · cases hx
      exact hnewSize
    · exact hold x (hb.last x hx)

end Inserted

/-- An insertion in front of an anchor keeps the links backed, also where the anchor is detached. -/
theorem insertBefore_backed (h : insertBefore anchor instr chain = .ok new after) (hb : chain.Backed) :
    after.Backed := by
  have hsize := insertBefore_size h
  obtain ⟨node, c₁, c₂, hnode, halloc, hbridged, -, rfl⟩ := insertBefore_stages h
  have hprev : chain.prev? anchor = node.prev := by rw [Chain.prev?, hnode]; rfl
  have hfront : ∀ x, node.prev = some x → x.index < chain.slots.size := fun x hx =>
    hb.behind anchor x (hprev.trans hx)
  have hanchor := Chain.index_lt_of_node? hnode
  have hname := (allocate_ok halloc).1
  have hins := inserted_of_bridged halloc hbridged (fun he => ne_of_index_lt hname (hfront new he) rfl)
    (fun he => ne_of_index_lt hname hanchor (Option.some.inj he))
  refine hins.backed hb hsize hfront ?_ ?_
  · rintro x ⟨⟩
    exact hanchor
  · rintro other x ⟨⟩ hpresent hnext
    exact hprev.symm.trans (hb.back other anchor hnext hpresent)

/-- An insertion behind an anchor keeps the links backed, also where the anchor is detached. -/
theorem insertAfter_backed (h : insertAfter anchor instr chain = .ok new after) (hb : chain.Backed) :
    after.Backed := by
  have hsize := insertAfter_size h
  obtain ⟨node, c₁, c₂, hnode, halloc, hbridged, -, rfl⟩ := insertAfter_stages h
  have hnext : chain.next? anchor = node.next := by rw [Chain.next?, hnode]; rfl
  have hback : ∀ x, node.next = some x → x.index < chain.slots.size := fun x hx =>
    hb.ahead anchor x (hnext.trans hx)
  have hanchor := Chain.index_lt_of_node? hnode
  have hname := (allocate_ok halloc).1
  have hins := inserted_of_bridged halloc hbridged (fun he => ne_of_index_lt hname hanchor (Option.some.inj he))
    (fun he => ne_of_index_lt hname (hback new he) rfl)
  refine hins.backed hb hsize ?_ hback fun other x hx hpresent hother => ?_
  · rintro x ⟨⟩
    exact hanchor
  · exact (hb.back anchor x (hnext.trans hx) hpresent).symm.trans (hb.back other x hother hpresent)

/-- To put an instruction at the end keeps the links backed. -/
theorem push_backed (h : push instr chain = .ok new after) (hb : chain.Backed) : after.Backed := by
  refine (push_inserted_tail hb.last h).backed hb (push_size h) hb.last ?_ ?_
  · intro x hx
    cases hx
  · intro id x hx
    cases hx

/-- Insertions one after the other keep the links backed. -/
theorem insertAll_backed (h : instrs.mapM (insertBefore anchor) chain = .ok ids after) (hb : chain.Backed) :
    after.Backed := by
  induction instrs generalizing chain ids with
  | nil =>
    obtain ⟨-, rfl⟩ := mapM_nil_ok.mp h
    exact hb
  | cons instr instrs ih =>
    obtain ⟨new, c, ids, hfirst, hrest, rfl⟩ := mapM_cons_ok.mp h
    exact ih hrest (insertBefore_backed hfirst hb)

/-! ## Removals -/

/-- The neighbours of an instruction are linked with each other, and the instruction loses its links. -/
structure Cleared (chain after : Chain) (id : InstrId) : Prop where
  node : ∀ x, after.node? x = (chain.node? x).map fun found =>
    if x = id then ⟨found.instr, none, none⟩ else ⟨found.instr,
      if chain.next? id = some x then chain.prev? id else found.prev,
      if chain.prev? id = some x then chain.next? id else found.next⟩
  tail : after.tail = if chain.next? id = none then chain.prev? id else chain.tail
  size : after.slots.size = chain.slots.size

/-- Once its neighbours are bridged, the instruction that loses its links is cleared. -/
theorem Bridged.cleared {node : Node} (h : Bridged chain after node.prev node.next node.next node.prev)
    (hnode : chain.node? id = some node) (hsize : after.slots.size = chain.slots.size) :
    Cleared chain (after.update id fun node => { node with prev := none, next := none }) id := by
  have hprev : chain.prev? id = node.prev := by rw [Chain.prev?, hnode]; rfl
  have hnext : chain.next? id = node.next := by rw [Chain.next?, hnode]; rfl
  refine ⟨fun x => ?_, ?_, ?_⟩
  · rw [Chain.node?_update, hprev, hnext]
    by_cases hx : x = id
    · rw [if_pos hx, h.node, Option.map_map, hx]
      simp only [if_true]
      rfl
    · rw [if_neg hx, h.node]
      simp only [hx, if_false]
  · rw [hprev, hnext]
    exact h.tail
  · rw [← hsize]
    simp [Chain.update]

namespace Cleared

variable {x y : InstrId}

theorem contains_eq (h : Cleared chain after id) : after.contains x = chain.contains x := by
  rw [Chain.contains, h.node, Chain.contains, Option.isSome_map]

/-- What comes behind an instruction came behind it before, unless the two were apart by `id`. -/
theorem next?_cases (h : Cleared chain after id) (hy : after.next? x = some y) :
    x ≠ id ∧ (chain.prev? id = some x ∧ chain.next? id = some y
      ∨ chain.prev? id ≠ some x ∧ chain.next? x = some y) := by
  rw [Chain.next?, h.node] at hy
  cases hfound : chain.node? x with
  | none =>
    rw [hfound] at hy
    cases hy
  | some found =>
    rw [hfound, Option.map_some, Option.bind_some] at hy
    by_cases hx : x = id
    · rw [if_pos hx] at hy
      cases hy
    · rw [if_neg hx] at hy
      refine ⟨hx, ?_⟩
      by_cases hfront : chain.prev? id = some x
      · rw [if_pos hfront] at hy
        exact .inl ⟨hfront, hy⟩
      · rw [if_neg hfront] at hy
        exact .inr ⟨hfront, by rw [Chain.next?, hfound]; exact hy⟩

/-- A cleared instruction has nothing in front of it. -/
theorem prev?_eq_none (h : Cleared chain after id) : after.prev? id = none := by
  rw [Chain.prev?, h.node]
  cases chain.node? id with
  | none => rfl
  | some found => simp

/-- Where an instruction is cleared, the one behind it has what the cleared one had in front, and all
others have what they had. -/
theorem prev?_of_ne (h : Cleared chain after id) (hx : x ≠ id) : after.prev? x
    = if chain.next? id = some x ∧ chain.contains x = true then chain.prev? id else chain.prev? x := by
  have hprev : chain.prev? x = (chain.node? x).bind (·.prev) := rfl
  rw [Chain.prev?, h.node, hprev, Chain.contains]
  cases chain.node? x with
  | none => simp
  | some found => simp [hx]

/-- To clear an instruction keeps the links backed. The links to the front that led to it lead past it
now, and so do those to the back. -/
theorem backed (h : Cleared chain after id) (hpresent : chain.contains id = true) (hb : chain.Backed) :
    after.Backed := by
  refine ⟨fun x y hy hthere => ?_, fun x y hy => ?_, fun x y hy => ?_, fun x hx => ?_⟩
  · rw [h.contains_eq] at hthere
    -- a link that leads over the cleared place is new, and its way back is set along with it
    obtain ⟨hx, ⟨hfront, hbehind⟩ | ⟨hfront, hy⟩⟩ := h.next?_cases hy
    · have hne : y ≠ id := by
        rintro rfl
        exact hx (Option.some.inj (hfront.symm.trans (hb.back y y hbehind hpresent)))
      rw [h.prev?_of_ne hne, if_pos ⟨hbehind, hthere⟩]
      exact hfront
    · have hback := hb.back x y hy hthere
      have hne : y ≠ id := by
        rintro rfl
        exact hfront hback
      rw [h.prev?_of_ne hne, if_neg]
      · exact hback
      · rintro ⟨hbehind, -⟩
        exact hx (Option.some.inj (hback.symm.trans (hb.back id y hbehind hthere)))
  · rw [h.size]
    obtain ⟨-, ⟨-, hbehind⟩ | ⟨-, hy⟩⟩ := h.next?_cases hy
    · exact hb.ahead id y hbehind
    · exact hb.ahead x y hy
  · rw [h.size]
    by_cases hx : x = id
    · rw [hx, h.prev?_eq_none] at hy
      cases hy
    · rw [h.prev?_of_ne hx] at hy
      split at hy
      · exact hb.behind id y hy
      · exact hb.behind x y hy
  · rw [h.size]
    rw [h.tail] at hx
    split at hx
    · exact hb.behind id x hx
    · exact hb.last x hx

end Cleared

/-- To take an instruction out keeps the links backed. -/
theorem unlink_backed (h : unlink id chain = .ok u after) (hb : chain.Backed) : after.Backed := by
  obtain ⟨node, hnode, hstages⟩ := unlink_stages h
  split at hstages
  · obtain ⟨c, hbridged, hsize, rfl⟩ := hstages
    have hcleared := (hbridged.cleared hnode hsize).backed (by rw [Chain.contains, hnode]; rfl) hb
    exact ⟨hcleared.back, hcleared.ahead, hcleared.behind, hcleared.last⟩
  · obtain rfl := hstages
    exact hb

/-- To empty a slot keeps the links backed if no link leads there: links name instructions that were
handed out, be they there or not. -/
theorem without_backed (hb : chain.Backed) :
    ({ chain with slots := chain.slots.setIfInBounds id.index none } : Chain).Backed := by
  have hnodes : ∀ x, ({ chain with slots := chain.slots.setIfInBounds id.index none } : Chain).node? x
      = if x = id then none else chain.node? x := node?_without
  have hsize : ({ chain with slots := chain.slots.setIfInBounds id.index none } : Chain).slots.size
      = chain.slots.size := Array.size_setIfInBounds
  have hnexts : ∀ x y, ({ chain with slots := chain.slots.setIfInBounds id.index none } : Chain).next? x = some y →
      chain.next? x = some y := by
    intro x y hy
    rw [Chain.next?, hnodes] at hy
    split at hy
    · cases hy
    · exact hy
  refine ⟨fun x y hy hthere => ?_, fun x y hy => ?_, fun x y hy => ?_, fun x hx => ?_⟩
  · rw [Chain.contains, hnodes] at hthere
    rw [Chain.prev?, hnodes]
    split at hthere
    · cases hthere
    next hne =>
      rw [if_neg hne]
      exact hb.back x y (hnexts x y hy) hthere
  · rw [hsize]
    exact hb.ahead x y (hnexts x y hy)
  · rw [Chain.prev?, hnodes] at hy
    rw [hsize]
    split at hy
    · cases hy
    · exact hb.behind x y hy
  · rw [hsize]
    exact hb.last x hx

/-- To free an instruction keeps the links backed. -/
theorem free_backed (h : free id chain = .ok freed after) (hb : chain.Backed) : after.Backed := by
  obtain ⟨c₁, c₂, c₃, old, hunlink, htarget, htable, -, rfl⟩ := free_stages h
  obtain ⟨found, -, -, rfl⟩ := unlinkTarget_ok htarget
  obtain ⟨found', -, -, rfl⟩ := setJumpTable_ok htable
  exact without_backed (unlink_backed hunlink hb).adjust.adjust

/-- To pass jumpers on adjusts instructions only, which keeps the links backed. -/
theorem retargetAll_backed {source dest : InstrId} (h : retargetAll source dest chain = .ok u after)
    (hb : chain.Backed) : after.Backed := by
  by_cases hne : source = dest
  · rw [retargetAll, if_pos hne] at h
    obtain ⟨-, rfl⟩ := pure_ok.mp h
    exact hb
  · obtain ⟨_, -, -, rfl⟩ := retargetAll_ok hne h
    exact hb.adjust

end ChainM

namespace Chain

variable {chain after : Chain}

/-- Each call keeps what comes behind an instruction linked back to it. -/
theorem Backed.run {made : ChainCall} {names : List InstrId} (hb : chain.Backed)
    (h : made.run chain = .ok names after) : after.Backed := by
  -- one call after the other; those that link no instructions elsewhere adjust the chain in place
  cases made <;> simp only [ChainCall.run, bind_ok, pure_ok] at h
  case push instr =>
    obtain ⟨_, _, hpush, -, rfl⟩ := h
    exact ChainM.push_backed hpush hb
  case insertBefore anchor instr =>
    obtain ⟨_, _, hinsert, -, rfl⟩ := h
    exact ChainM.insertBefore_backed hinsert hb
  case insertAfter anchor instr =>
    obtain ⟨_, _, hinsert, -, rfl⟩ := h
    exact ChainM.insertAfter_backed hinsert hb
  case unlink id =>
    obtain ⟨_, _, hunlink, -, rfl⟩ := h
    exact ChainM.unlink_backed hunlink hb
  case free id =>
    obtain ⟨_, _, hfree, -, rfl⟩ := h
    exact ChainM.free_backed hfree hb
  case replace old instrs =>
    obtain ⟨⟨ids, freed⟩, _, hreplace, -, rfl⟩ := h
    obtain ⟨first, others, c₂, c₃, held, rfl, hinsert, hretarget, -, hfree⟩ := ChainM.replace_run hreplace
    have hturned := ChainM.retargetAll_backed hretarget (ChainM.insertAll_backed hinsert hb)
    exact ChainM.free_backed hfree hturned.adjust
  case linkTarget jumper target =>
    obtain ⟨_, _, hlink, -, rfl⟩ := h
    obtain ⟨_, -, -, rfl⟩ := ChainM.linkTarget_ok hlink
    exact hb.adjust
  case unlinkTarget jumper =>
    obtain ⟨_, _, hunlink, -, rfl⟩ := h
    obtain ⟨_, -, -, rfl⟩ := ChainM.unlinkTarget_ok hunlink
    exact hb.adjust
  case setJumpTable jumper entries =>
    obtain ⟨_, _, htable, -, rfl⟩ := h
    obtain ⟨_, -, -, rfl⟩ := ChainM.setJumpTable_ok htable
    exact hb.adjust
  case retargetAll source dest =>
    obtain ⟨_, _, hretarget, -, rfl⟩ := h
    exact ChainM.retargetAll_backed hretarget hb

/-- Any calls keep the links backed, whatever handles they use. The induction is on the calls. -/
theorem Backed.along_calls {calls : List ChainCall} {names : List (List InstrId)} (hb : chain.Backed)
    (h : calls.mapM ChainCall.run chain = .ok names after) : after.Backed := by
  induction calls generalizing chain names with
  | nil =>
    obtain ⟨-, rfl⟩ := mapM_nil_ok.mp h
    exact hb
  | cons made calls ih =>
    obtain ⟨_, c, _, hfirst, hrest, -⟩ := mapM_cons_ok.mp h
    exact ih (hb.run hfirst) hrest

/-- After any calls on a chain that is a list, what comes behind an instruction is linked, also where
detached instructions were spliced next to. -/
theorem onward_along_calls {calls : List ChainCall} {names : List (List InstrId)} (hwell : chain.WellFormed)
    (h : calls.mapM ChainCall.run chain = .ok names after) : after.Onward :=
  (hwell.spells.backed.along_calls h).onward

end Chain

end Splice
