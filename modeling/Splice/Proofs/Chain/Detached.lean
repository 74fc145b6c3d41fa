import Splice.Proofs.Chain.Acceptance

/-!
# Splicing next to a detached instruction

A detached instruction has no neighbours, and neither has the only instruction of a chain; an
insertion goes by the neighbours of its anchor and takes the one for the other. Behind a detached
anchor the new instruction becomes the tail and is counted, but is never visited
(`insertAfter_detached`). In front of it the new instruction becomes the head, and what was linked
is not visited any more (`insertBefore_detached`). A replacement goes on from there and ends with
the sequence as the only instructions visited (`replace_detached`).

A chain is `Intact` if it still visits what it did, with a tail and a length that fit. So an
insertion leaves a well-formed chain intact if and only if its anchor is linked, and a replacement
of a detached instruction only where there is nothing to put in its place
(`intact_iff_linked`). `unlink` asks whether its instruction is linked; these operations do not.
-/

namespace Splice

namespace Chain

/-- The walk from the head visits the instructions of a list in this order; nothing is said of the tail
and the length. -/
structure Visits (chain : Chain) (l : List InstrId) : Prop where
  nodup : l.Nodup
  links : chain.Segment none l none
  head : chain.head = l.head?

/-- The instructions of a list are visited in this order, head and tail are the ends of what is visited,
and the length is the number of it. -/
structure Intact (chain : Chain) (l : List InstrId) : Prop where
  visited : l.Sublist chain.ids
  head : chain.head = chain.ids.head?
  tail : chain.tail = chain.ids.getLast?
  length : chain.length = chain.ids.length

variable {chain after : Chain} {l news visited xs ys : List InstrId} {id anchor : InstrId}
  {instrs : List Instruction} {freed : Instruction}

/-- What the walk from the head visits is what the chain gives as its instructions. -/
theorem Visits.ids_eq (h : chain.Visits l) : chain.ids = l := by
  have hlinks : chain.Segment none ([] ++ l) none := h.links
  have hwalk : chain.walk l.head? = l := hlinks.walk_append h.nodup
  rw [ids, h.head, hwalk]

/-- A chain that visits a list is intact for another one exactly if that is a part of it and head, tail
and length fit what is visited. -/
theorem Visits.intact_iff (h : chain.Visits visited) : chain.Intact l
    ↔ l.Sublist visited ∧ chain.tail = visited.getLast? ∧ chain.length = visited.length := by
  constructor
  · intro hi
    rw [← h.ids_eq]
    exact ⟨hi.visited, hi.tail, hi.length⟩
  · intro hi
    rw [← h.ids_eq] at hi
    exact ⟨hi.1, by rw [h.ids_eq, h.head], hi.2.1, hi.2.2⟩

theorem Spells.visits (h : chain.Spells l) : chain.Visits l := ⟨h.nodup, h.links, h.head⟩

theorem Spells.intact (h : chain.Spells visited) (hl : l.Sublist visited) : chain.Intact l :=
  h.visits.intact_iff.mpr ⟨hl, h.tail, h.length⟩

/-- While something is linked, a chain that visits none of it is not intact. -/
theorem Visits.not_intact (h : chain.Visits visited) (hapart : ∀ x ∈ visited, x ∉ l)
    (hend : l = [] → chain.tail = visited.getLast? → chain.length ≠ visited.length) : ¬ chain.Intact l := by
  intro hi
  obtain ⟨hsub, htail, hlength⟩ := h.intact_iff.mp hi
  cases l with
  | nil => exact hend rfl htail hlength
  | cons x l =>
    have hx := hsub.subset (List.mem_cons_self ..)
    exact hapart x hx (List.mem_cons_self ..)

/-! ## A line beside the chain -/

/-- The instructions `news` were put in front of a detached `anchor`, one after the other, beside what is
linked, `l`: head and links are theirs, the tail and the count are those of `l`. -/
structure Aside (chain : Chain) (l news : List InstrId) (anchor : InstrId) : Prop where
  nodup : (news ++ [anchor]).Nodup
  links : chain.Segment none (news ++ [anchor]) none
  head : chain.head = news.head?.or l.head?
  tail : chain.tail = l.getLast?
  length : chain.length = l.length + news.length
  apart : ∀ x ∈ news ++ [anchor], x ∉ l
  present : ∀ x ∈ l, chain.contains x = true

namespace Aside

/-- In the beginning there is the anchor alone. -/
theorem start (hl : chain.Spells l) (hanchor : chain.contains anchor = true) (hdetached : anchor ∉ l) :
    chain.Aside l [] anchor where
  nodup := List.nodup_cons.mpr ⟨List.not_mem_nil, List.nodup_nil⟩
  links := by
    obtain ⟨node, hnode⟩ := Option.isSome_iff_exists.mp hanchor
    obtain ⟨hprev, hnext⟩ := hl.detached anchor node hdetached hnode
    refine ⟨⟨node.instr, ?_⟩, trivial⟩
    rw [hnode]
    cases node
    cases hprev
    cases hnext
    rfl
  head := by simpa using hl.head
  tail := hl.tail
  length := by simpa using hl.length
  apart x hx := by
    rw [List.nil_append, List.mem_singleton] at hx
    rw [hx]
    exact hdetached
  present x hx := Option.isSome_iff_exists.mpr (hl.present hx)

/-- Once something was put in front of the detached anchor, the walk visits that and the anchor, and
nothing of what is linked. -/
theorem visits (h : chain.Aside l news anchor) (hne : news ≠ []) : chain.Visits (news ++ [anchor]) where
  nodup := h.nodup
  links := h.links
  head := by
    obtain ⟨x, xs, rfl⟩ := List.exists_cons_of_ne_nil hne
    exact h.head

theorem anchor_mem : anchor ∈ news ++ [anchor] := List.mem_append_right _ (List.mem_singleton_self anchor)

theorem contains_of_mem (h : chain.Aside l news anchor) (hid : id ∈ news ++ [anchor]) :
    chain.contains id = true :=
  Option.isSome_iff_exists.mpr (h.links.present hid)

theorem adjust (h : chain.Aside l news anchor) (f : InstrId → Instruction → Instruction) :
    (chain.adjust f).Aside l news anchor :=
  ⟨h.nodup, h.links.adjust f, h.head, h.tail, h.length, h.apart, fun x hx =>
    contains_adjust.trans (h.present x hx)⟩

theorem update (h : chain.Aside l news anchor) (hid : id ∈ news ++ [anchor]) (f : Instruction → Instruction) :
    ∃ after, ChainM.update id f chain = .ok () after ∧ after.Aside l news anchor :=
  ⟨_, ChainM.update_succeeds (h.contains_of_mem hid) f, h.adjust _⟩

/-- One more instruction goes between the others and the anchor. -/
theorem insertBefore (h : chain.Aside l news anchor) (instr : Instruction) :
    ∃ new after, ChainM.insertBefore anchor instr chain = .ok new after
      ∧ after.Aside l (news ++ [new]) anchor := by
  obtain ⟨found, hnode⟩ := h.links.node?
  rw [Option.or_none] at hnode
  obtain ⟨new, after, hrun⟩ := ChainM.insertBefore_accepts hnode (fun x hx =>
    h.contains_of_mem (List.mem_append_left _ (List.mem_of_getLast? hx))) instr
  obtain ⟨node, c₁, c₂, hnode', halloc, hbridged, -, rfl⟩ := ChainM.insertBefore_stages hrun
  rw [hnode, Option.some.injEq] at hnode'
  subst hnode'
  -- the new name is none of those that are present
  have hfresh : ∀ x, chain.contains x = true → x ≠ new := by
    intro x hx he
    obtain ⟨node, hnode⟩ := Option.isSome_iff_exists.mp hx
    have hlt := index_lt_of_node? hnode
    rw [he, (ChainM.allocate_ok halloc).1] at hlt
    exact Nat.lt_irrefl _ hlt
  have hne : ∀ x ∈ news ++ [anchor], x ≠ new := fun x hx => hfresh x (h.contains_of_mem hx)
  have hins : ChainM.Inserted chain _ news.getLast? [anchor].head? instr new :=
    ChainM.inserted_of_bridged halloc hbridged
      (fun he => hne new (List.mem_append_left _ (List.mem_of_getLast? he)) rfl)
      (fun he => hne anchor anchor_mem (Option.some.inj he))
  obtain ⟨hlinks, hnodup⟩ := hins.segment h.links h.nodup fun hmem => hne new hmem rfl
  have hmem : ∀ x ∈ (news ++ [new]) ++ [anchor], x ∉ l := by
    intro x hx hxl
    rw [List.append_assoc, List.mem_append, List.singleton_append, List.mem_cons] at hx
    rcases hx with hx | rfl | hx
    · exact h.apart x (List.mem_append_left _ hx) hxl
    · exact hfresh x (h.present x hxl) rfl
    · exact h.apart x (List.mem_append_right _ hx) hxl
  refine ⟨new, _, hrun, by simpa using hnodup, by simpa using hlinks, ?_, ?_, ?_, hmem, fun x hx => ?_⟩
  · rw [hins.head, h.head]
    cases news <;> simp [List.getLast?_cons]
  · rw [hins.tail, if_neg (by simp), h.tail]
  · rw [hins.length, h.length, List.length_append, List.length_singleton, Nat.add_assoc]
  · rw [contains, hins.node, if_neg (hfresh x (h.present x hx)), Option.isSome_map]
    exact h.present x hx

/-- Further instructions in front of the anchor are visited as well, behind those that were put there
before. -/
theorem insertAll (h : chain.Aside l news anchor) (instrs : List Instruction) :
    ∃ ids after, instrs.mapM (ChainM.insertBefore anchor) chain = .ok ids after
      ∧ ids.length = instrs.length ∧ after.Aside l (news ++ ids) anchor := by
  induction instrs generalizing chain news with
  | nil => exact ⟨[], chain, mapM_nil_ok.mpr ⟨rfl, rfl⟩, rfl, by simpa using h⟩
  | cons instr instrs ih =>
    obtain ⟨new, c, hnew, hc⟩ := h.insertBefore instr
    obtain ⟨ids, after, hrest, hlen, hafter⟩ := ih hc
    exact ⟨new :: ids, after, mapM_cons_ok.mpr ⟨new, c, ids, hnew, hrest, rfl⟩, by simp [hlen],
      by simpa using hafter⟩

/-- Freeing the anchor leaves the others as the whole of what is visited. -/
theorem free (h : chain.Aside l news anchor) (hne : news ≠ []) :
    ∃ freed after, ChainM.free anchor chain = .ok freed after ∧ after.Visits news
      ∧ after.tail = news.getLast? ∧ after.length + 1 = l.length + news.length := by
  obtain ⟨last, hlast⟩ := Option.isSome_iff_exists.mp (List.getLast?_isSome.mpr hne)
  obtain ⟨hnodup, -, hdisj⟩ := List.nodup_append.mp h.nodup
  obtain ⟨found, hnode⟩ := h.links.node?
  rw [Option.or_none] at hnode
  have hlinked : chain.isLinked anchor = true := by
    rw [isLinked, hnode, hlast]
    rfl
  -- freeing unlinks first, and the slot is still filled then
  obtain ⟨c₁, hunlink⟩ := ChainM.unlink_accepts hnode
    (fun x hx => h.contains_of_mem (List.mem_append_left _ (List.mem_of_getLast? hx)))
    (fun x hx => by cases hx)
  obtain ⟨hlinks, hnode₁, hhead, htail, hlength⟩ := ChainM.unlink_segment h.links h.nodup hlinked hunlink
  have hkept : c₁.contains anchor = true := by
    rw [contains, hnode₁, if_pos rfl, hnode]
    rfl
  obtain ⟨freed, after, hfree⟩ := ChainM.free_accepts hunlink hkept
  obtain ⟨c₁', c₂, c₃, old, hunlink', htarget, htable, -, rfl⟩ := ChainM.free_stages hfree
  rw [hunlink] at hunlink'
  cases hunlink'
  obtain ⟨_, -, -, rfl⟩ := ChainM.unlinkTarget_ok htarget
  obtain ⟨_, -, -, rfl⟩ := ChainM.setJumpTable_ok htable
  refine ⟨freed, _, hfree, ⟨hnodup, ?_, ?_⟩, htail, ?_⟩
  · rw [List.append_nil] at hlinks
    exact ChainM.segment_without ((hlinks.adjust _).adjust _) fun hmem =>
      hdisj anchor hmem anchor (List.mem_singleton_self anchor) rfl
  · show c₁.head = _
    rw [hhead, hlast, if_neg (by simp), h.head]
    obtain ⟨x, xs, rfl⟩ := List.exists_cons_of_ne_nil hne
    rfl
  · show c₁.length + 1 = _
    have hpos := List.length_pos_iff.mpr hne
    rw [hlength, h.length]
    omega

end Aside

end Chain

namespace ChainM

variable {chain after : Chain} {l : List InstrId} {anchor source dest : InstrId} {instrs : List Instruction}

/-! ## Moving jumpers over, accepted or not -/

theorem evolves_stepRelation : StepRelation (Chain.Evolves fun _ _ _ => True) :=
  Chain.Evolves.stepRelation (fun _ _ => trivial) fun _ _ _ _ _ _ => trivial

/-- To read a node leaves all links as they are, also if there is none. -/
theorem node_leaves (id : InstrId) : Leaves (Chain.Evolves fun _ _ _ => True) (node id) := by
  intro s
  have hs : outcome (node id) s = s := by
    cases hnode : s.node? id with
    | none => exact outcome_error (node_refused (by rw [Chain.contains, hnode]; rfl))
    | some found => exact outcome_ok (node_ok.mpr ⟨hnode, rfl⟩)
  rw [hs]
  exact evolves_stepRelation.refl s

theorem instr_leaves (id : InstrId) : Leaves (Chain.Evolves fun _ _ _ => True) (instr id) :=
  .bind evolves_stepRelation (node_leaves id) fun _ => .pure evolves_stepRelation _

/-- To change an instruction leaves all links as they are, also if it is not there. -/
theorem update_leaves (id : InstrId) (f : Instruction → Instruction) :
    Leaves (Chain.Evolves fun _ _ _ => True) (update id f) := by
  intro s
  by_cases hid : s.contains id = true
  · rw [outcome_ok (update_succeeds hid f)]
    exact .of_adjust fun _ _ _ => trivial
  · rw [Bool.not_eq_true] at hid
    have hrefused : update id f s = .error (.missingInstruction id) s := bind_error (node_refused hid)
    rw [outcome_error hrefused]
    exact evolves_stepRelation.refl s

/-- Also where it is refused, moving jumpers over has changed instructions in place and nothing else. -/
theorem retargetAll_leaves (source dest : InstrId) :
    Leaves (Chain.Evolves fun _ _ _ => True) (retargetAll source dest) := by
  unfold retargetAll
  split
  · exact .pure evolves_stepRelation _
  · exact .bind evolves_stepRelation (node_leaves dest) fun _ =>
      .bind evolves_stepRelation (instr_leaves source) fun _ =>
        .bind evolves_stepRelation (update_leaves source _) fun _ =>
          .forM evolves_stepRelation fun jumper _ =>
            .bind evolves_stepRelation (update_leaves jumper _) fun _ => update_leaves dest _

/-! ## What becomes of the chain -/

/-- An insertion behind a detached instruction leaves what is visited as it is, and is counted. -/
theorem insertAfter_detached (hl : chain.Spells l) (hanchor : chain.contains anchor = true)
    (hdetached : anchor ∉ l) (instr : Instruction) :
    ∃ new after, insertAfter anchor instr chain = .ok new after ∧ new ∉ l ∧ after.Visits l
      ∧ after.tail = some new ∧ after.length = l.length + 1 := by
  obtain ⟨node, hnode⟩ := Option.isSome_iff_exists.mp hanchor
  obtain ⟨-, hnext⟩ := hl.detached anchor node hdetached hnode
  obtain ⟨new, after, hrun⟩ := insertAfter_accepts hnode (fun x hx => by rw [hnext] at hx; cases hx) instr
  obtain ⟨node', c₁, c₂, hnode', halloc, hbridged, -, rfl⟩ := insertAfter_stages hrun
  rw [hnode, Option.some.injEq] at hnode'
  subst hnode'
  rw [hnext] at halloc hbridged
  have hname := (allocate_ok halloc).1
  have hfresh : new ∉ l := hname ▸ hl.fresh
  have hne : some anchor ≠ some new := by
    intro he
    have hlt := Chain.index_lt_of_node? hnode
    rw [Option.some.inj he, hname] at hlt
    exact Nat.lt_irrefl _ hlt
  have hins := inserted_of_bridged halloc hbridged hne (by simp)
  refine ⟨new, _, hrun, hfresh, ⟨hl.nodup, ?_, ?_⟩, ?_, ?_⟩
  · refine hl.links.congr fun x hx node hnode => ⟨node.instr, ?_⟩
    have hxnew : x ≠ new := fun he => hfresh (he ▸ hx)
    have hxanchor : anchor ≠ x := fun he => hdetached (he ▸ hx)
    rw [hins.node, if_neg hxnew, hnode]
    simp [hxanchor]
  · rw [hins.head, if_neg (by simp), hl.head]
  · rw [hins.tail, if_pos rfl]
  · rw [hins.length, hl.length]

/-- An insertion in front of a detached instruction leaves these two as all that is visited. -/
theorem insertBefore_detached (hl : chain.Spells l) (hanchor : chain.contains anchor = true)
    (hdetached : anchor ∉ l) (instr : Instruction) :
    ∃ new after, insertBefore anchor instr chain = .ok new after ∧ new ∉ l
      ∧ after.Visits [new, anchor] ∧ after.tail = l.getLast? ∧ after.length = l.length + 1 := by
  obtain ⟨new, after, hrun, haside⟩ := (Chain.Aside.start hl hanchor hdetached).insertBefore instr
  exact ⟨new, after, hrun, haside.apart new (by simp), haside.visits (by simp), haside.tail, haside.length⟩

/-- A replacement of a detached instruction leaves the sequence as all that is visited, and it is counted
once too little. Where a jumper that is to be moved over is missing, it stops halfway, and the
instruction is visited behind the sequence. -/
theorem replace_detached (hl : chain.Spells l) (hanchor : chain.contains anchor = true)
    (hdetached : anchor ∉ l) (hne : instrs ≠ []) :
    ∃ news, news.length = instrs.length ∧ (∀ x ∈ news, x ∉ l)
      ∧ ((∃ freed after, replace anchor instrs chain = .ok (news, freed) after ∧ after.Visits news
          ∧ after.tail = news.getLast? ∧ after.length + 1 = l.length + news.length)
        ∨ ∃ cause after, replace anchor instrs chain = .error cause after
          ∧ after.Visits (news ++ [anchor]) ∧ after.tail = l.getLast?
          ∧ after.length = l.length + news.length) := by
  obtain ⟨instr, rest, rfl⟩ := List.exists_cons_of_ne_nil hne
  obtain ⟨news, c₂, hinsert, hlen, haside⟩ := (Chain.Aside.start hl hanchor hdetached).insertAll (instr :: rest)
  rw [List.nil_append] at haside
  obtain ⟨first, c₁, others, hfirst, hothers, rfl⟩ := mapM_cons_ok.mp hinsert
  refine ⟨first :: others, hlen, fun x hx => haside.apart x (List.mem_append_left _ hx), ?_⟩
  obtain ⟨moves, hmoved, -⟩ := retargetAll_leaves anchor first c₂
  have haside₃ := haside.adjust moves
  rw [← hmoved] at haside₃
  cases hretarget : retargetAll anchor first c₂ with
  | error cause c₃ =>
    rw [outcome_error hretarget] at haside₃
    refine .inr ⟨cause, c₃, ?_, haside₃.visits (by simp), haside₃.tail, haside₃.length⟩
    unfold replace
    dsimp only
    rw [bind_run hfirst, bind_run hothers, bind_error hretarget]
  | ok u c₃ =>
    rw [outcome_ok hretarget] at haside₃
    obtain ⟨held, hheld⟩ := instr_succeeds (haside₃.contains_of_mem Chain.Aside.anchor_mem)
    obtain ⟨c₄, hcleared, haside₄⟩ := haside₃.update Chain.Aside.anchor_mem
      fun instr => { instr with referencedBy := [] }
    obtain ⟨c₅, hfilled, haside₅⟩ := haside₄.update (List.mem_cons_self ..)
      fun instr => { instr with referencedBy := instr.referencedBy ++ held.referencedBy }
    obtain ⟨freed, after, hfree, hafter⟩ := haside₅.free (by simp)
    refine .inl ⟨freed, after, ?_, hafter⟩
    unfold replace
    dsimp only
    rw [bind_run hfirst, bind_run hothers, bind_run hretarget, bind_run hheld, bind_run hcleared,
      bind_run hfilled, bind_run hfree]
    rfl

/-- An insertion leaves a well-formed chain intact if and only if its anchor is linked, and a replacement of
a detached instruction if and only if there is nothing to put in its place. -/
theorem intact_iff_linked (h : chain.WellFormed) (hanchor : chain.contains anchor = true) :
    (∀ instr, (outcome (insertAfter anchor instr) chain).Intact chain.ids ↔ chain.isLinked anchor = true)
    ∧ (∀ instr, (outcome (insertBefore anchor instr) chain).Intact chain.ids
      ↔ chain.isLinked anchor = true)
    ∧ (chain.isLinked anchor = false → ∀ instrs,
      (outcome (replace anchor instrs) chain).Intact chain.ids ↔ instrs = []) := by
  have hl := h.spells
  rw [hl.isLinked_iff]
  refine ⟨fun instr => ?_, fun instr => ?_, fun hdetached instrs => ?_⟩
  · by_cases hmem : anchor ∈ chain.ids
    · obtain ⟨xs, ys, hids⟩ := List.append_of_mem hmem
      rw [hids] at hl
      obtain ⟨new, after, hrun⟩ := insertAfter_succeeds hl instr
      rw [outcome_ok hrun, hids]
      exact iff_of_true ((insertAfter_spells hl hrun).1.intact
        (((List.sublist_cons_self new ys).cons_cons anchor).append_left xs)) (by simp)
    · obtain ⟨new, after, hrun, hnew, hvisits, htail, -⟩ := insertAfter_detached hl hanchor hmem instr
      rw [outcome_ok hrun]
      refine iff_of_false (fun hintact => hnew ?_) hmem
      -- the tail is the new instruction, which is not visited
      have hlast := (hvisits.intact_iff.mp hintact).2.1
      rw [htail] at hlast
      exact List.mem_of_getLast? hlast.symm
  · by_cases hmem : anchor ∈ chain.ids
    · obtain ⟨xs, ys, hids⟩ := List.append_of_mem hmem
      rw [hids] at hl
      obtain ⟨new, after, hrun⟩ := insertBefore_succeeds hl instr
      rw [outcome_ok hrun, hids]
      exact iff_of_true ((insertBefore_spells hl hrun).1.intact
        ((List.sublist_cons_self new (anchor :: ys)).append_left xs)) (by simp)
    · obtain ⟨new, after, hrun, hnew, hvisits, htail, hlength⟩ :=
        insertBefore_detached hl hanchor hmem instr
      rw [outcome_ok hrun]
      refine iff_of_false (hvisits.not_intact (fun x hx => ?_) fun hempty hlast => ?_) hmem
      · rcases List.mem_cons.mp hx with rfl | hx
        · exact hnew
        · rw [List.mem_singleton.mp hx]
          exact hmem
      · rw [htail, hempty] at hlast
        cases hlast
  · have hmem : anchor ∉ chain.ids := fun hmem => by
      rw [hl.isLinked_iff.mpr hmem] at hdetached
      cases hdetached
    cases instrs with
    | nil => exact iff_of_true (hl.intact (List.Sublist.refl _)) rfl
    | cons instr instrs =>
      obtain ⟨news, -, hnews, hrun⟩ := replace_detached hl hanchor hmem (List.cons_ne_nil instr instrs)
      refine iff_of_false ?_ (List.cons_ne_nil instr instrs)
      rcases hrun with ⟨freed, after, hrun, hvisits, -, hlength⟩ | ⟨cause, after, hrun, hvisits, htail, -⟩
      · rw [outcome_ok hrun]
        refine hvisits.not_intact hnews fun hempty _ => ?_
        rw [hempty, List.length_nil] at hlength
        omega
      · rw [outcome_error hrun]
        refine hvisits.not_intact (fun x hx => ?_) fun hempty hlast => ?_
        · rcases List.mem_append.mp hx with hx | hx
          · exact hnews x hx
          · rw [List.mem_singleton.mp hx]
            exact hmem
        · rw [htail, hempty, List.getLast?_concat] at hlast
          cases hlast

/-- Three instructions, of which the one in the middle was detached. -/
def parted : Chain :=
  outcome (unlink ⟨1⟩) (.ofList (List.replicate 3 (Instruction.decoded 0 [0x90] 1 .nop)))

/-- The walk leads past the instruction that was detached. -/
theorem parted_spells : parted.Spells [⟨0⟩, ⟨2⟩] := by
  have hwhole : (Chain.ofList (List.replicate 3 (Instruction.decoded 0 [0x90] 1 .nop))).Spells
      ([⟨0⟩] ++ ⟨1⟩ :: [⟨2⟩]) := Chain.spells_ofList _
  obtain ⟨_, hunlink⟩ := Succeeds.ok (show Succeeds (unlink ⟨1⟩)
    (.ofList (List.replicate 3 (Instruction.decoded 0 [0x90] 1 .nop))) = true by decide)
  exact (unlink_spells hwhole hunlink).1

theorem intact_iff_linked_parted :
    parted.WellFormed ∧ parted.contains ⟨1⟩ = true ∧ parted.isLinked ⟨1⟩ = false
      ∧ (outcome (insertAfter ⟨2⟩ default) parted).Intact parted.ids
      ∧ ¬ (outcome (insertBefore ⟨1⟩ default) parted).Intact parted.ids
      ∧ ¬ (outcome (replace ⟨1⟩ [default]) parted).Intact parted.ids := by
  have hwell := parted_spells.wellFormed
  obtain ⟨-, hbefore, hreplace⟩ := intact_iff_linked hwell (show parted.contains ⟨1⟩ = true by decide)
  obtain ⟨hafter, -⟩ := intact_iff_linked hwell (show parted.contains ⟨2⟩ = true by decide)
  exact ⟨hwell, by decide, by decide, (hafter default).mpr (by decide),
    not_congr (hbefore default) |>.mpr (by decide),
    not_congr (hreplace (by decide) _) |>.mpr (by decide)⟩

/-- The new instruction behind the detached one is counted and is the tail, but two instructions are
visited as before; in front of it, head and walk are beside the chain. -/
theorem detached_anchors_damage : parted.WellFormed ∧ parted.contains ⟨1⟩ = true
    ∧ parted.isLinked ⟨1⟩ = false ∧ parted.ids = [⟨0⟩, ⟨2⟩]
    ∧ (let behind := outcome (insertAfter ⟨1⟩ default) parted
      behind.ids = [⟨0⟩, ⟨2⟩] ∧ behind.tail = some ⟨3⟩ ∧ behind.length = 3)
    ∧ (let inFront := outcome (insertBefore ⟨1⟩ default) parted
      inFront.ids = [⟨3⟩, ⟨1⟩] ∧ inFront.tail = some ⟨2⟩ ∧ inFront.length = 3)
    ∧ let replaced := outcome (replace ⟨1⟩ [default, default]) parted
      replaced.ids = [⟨3⟩, ⟨4⟩] ∧ replaced.tail = some ⟨4⟩ ∧ replaced.length = 3 :=
  ⟨parted_spells.wellFormed, by decide, by decide, by decide, by decide, by decide, by decide⟩

end ChainM

end Splice
