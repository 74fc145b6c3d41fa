import Splice.Proofs.Chain.CrossReferences

/-!
# When calls are accepted

An operation on the chain asks for the handles it is given before it changes anything. If one
of them names no instruction that is present it is refused, and the chain is left as it is
(`node_refused`, `nodes_refused`). If all of them do it is accepted: what it asks for later
on, neighbours in the list and jumpers that are listed, is present in a chain that spells out
a list and in which back references are answered.

The operations are those of `Splice.Chain.Edit` and `Splice.Chain.Reference`, one after the
other:

> `push_succeeds`, `insertBefore_succeeds`, `insertAfter_succeeds`, `unlink_succeeds`,
> `free_succeeds`, `replace_succeeds`: what each of them needs to be accepted, on a chain the
> links of which are right.

A program would also be refused where no handle is left; here there is always another one. So
`replace` needs nothing but a linked instruction to replace and others that refer to nothing
yet, and what is proved of successful calls elsewhere is not empty.
-/

namespace Splice.ChainM

variable {chain after : Chain} {l xs ys : List InstrId} {id anchor jumper target source dest old : InstrId}
  {entries : List InstrId} {instrs : List Instruction}

/-! ## Handles that are asked for -/

/-- A handle that names nothing is refused, and the chain stays as it is. -/
theorem node_refused (h : chain.contains id = false) :
    node id chain = .error (.missingInstruction id) chain := by
  have hnode : chain.node? id = none := by simpa [Chain.contains] using h
  have hread : (get : ChainM Chain) chain = .ok chain chain := rfl
  rw [node, bind_run hread, hnode]
  rfl

theorem instr_refused (h : chain.contains id = false) :
    instr id chain = .error (.missingInstruction id) chain :=
  bind_error (node_refused h)

theorem node_succeeds (h : chain.contains id = true) : ∃ found, node id chain = .ok found chain := by
  obtain ⟨found, hfound⟩ := Option.isSome_iff_exists.mp h
  exact ⟨found, node_ok.mpr ⟨hfound, rfl⟩⟩

theorem instr_succeeds (h : chain.contains id = true) : ∃ found, instr id chain = .ok found chain := by
  obtain ⟨found, hfound⟩ := Chain.contains_iff_get?.mp h
  exact ⟨found, instr_ok.mpr ⟨hfound, rfl⟩⟩

theorem update_succeeds (h : chain.contains id = true) (f : Instruction → Instruction) :
    update id f chain = .ok () (chain.adjust (Chain.only id f)) :=
  update_ok.mpr ⟨h, rfl⟩

/-- That all entries of a table are there is found out without a change to the chain. -/
theorem nodes_succeed (h : ∀ entry ∈ entries, chain.contains entry = true) :
    entries.forM (fun entry => discard (node entry)) chain = .ok () chain := by
  induction entries with
  | nil => exact forM_nil_ok.mpr rfl
  | cons entry entries ih =>
    obtain ⟨found, hfound⟩ := node_succeeds (h entry (List.mem_cons_self ..))
    refine forM_cons_ok.mpr ⟨chain, discard_ok.mpr ⟨found, hfound⟩, ?_⟩
    exact ih fun other hother => h other (List.mem_cons_of_mem _ hother)

/-- Of several handles the first one that names nothing is reported. -/
theorem nodes_refused (h : entries.find? (fun entry => !chain.contains entry) = some id) :
    entries.forM (fun entry => discard (node entry)) chain
      = .error (.missingInstruction id) chain := by
  induction entries with
  | nil => cases h
  | cons entry entries ih =>
    show (discard (node entry) >>= fun _ => entries.forM fun entry => discard (node entry)) chain = _
    by_cases hentry : chain.contains entry = true
    · rw [List.find?_cons_of_neg (by simp [hentry])] at h
      obtain ⟨found, hfound⟩ := node_succeeds hentry
      have hasked : discard (node entry) chain = .ok () chain := discard_ok.mpr ⟨found, hfound⟩
      rw [bind_run hasked, ih h]
    · rw [Bool.not_eq_true] at hentry
      rw [List.find?_cons_of_pos (by simp [hentry]), Option.some.injEq] at h
      subst h
      exact bind_error (discard_error (node_refused hentry))

/-! ## Splices -/

/-- A link to the next instruction is set if the instruction in front, where there is one, is there. No
instruction comes or goes. -/
theorem linkNext_succeeds (before id : Option InstrId)
    (h : ∀ x, before = some x → chain.contains x = true) :
    ∃ after, linkNext before id chain = .ok () after ∧ ∀ x, after.contains x = chain.contains x := by
  have hrun : ∃ after, linkNext before id chain = .ok () after := by
    cases before with
    | none => exact ⟨_, rfl⟩
    | some before => exact ⟨_, updateNode_ok.mpr ⟨h before rfl, rfl⟩⟩
  obtain ⟨after, hafter⟩ := hrun
  exact ⟨after, hafter, fun x => by simp [Chain.contains, (linkNext_ok hafter).1]⟩

/-- A link to the instruction in front is set if the one behind, where there is one, is there. No
instruction comes or goes. -/
theorem linkPrev_succeeds (behind id : Option InstrId)
    (h : ∀ x, behind = some x → chain.contains x = true) :
    ∃ after, linkPrev behind id chain = .ok () after ∧ ∀ x, after.contains x = chain.contains x := by
  have hrun : ∃ after, linkPrev behind id chain = .ok () after := by
    cases behind with
    | none => exact ⟨_, rfl⟩
    | some behind => exact ⟨_, updateNode_ok.mpr ⟨h behind rfl, rfl⟩⟩
  obtain ⟨after, hafter⟩ := hrun
  exact ⟨after, hafter, fun x => by simp [Chain.contains, (linkPrev_ok hafter).1]⟩

/-- A new slot is always granted, and all instructions keep theirs. -/
theorem allocate_succeeds (chain : Chain) (instr : Instruction) (prev next : Option InstrId) :
    ∃ new after, allocate instr prev next chain = .ok new after ∧ after.contains new = true
      ∧ ∀ x, chain.contains x = true → after.contains x = true := by
  have hrun : allocate instr prev next chain = .ok ⟨chain.slots.size⟩
      { chain with slots := chain.slots.push (some ⟨instr, prev, next⟩) } := rfl
  obtain ⟨-, hnode, -⟩ := allocate_ok hrun
  refine ⟨_, _, hrun, by rw [Chain.contains, hnode, if_pos rfl]; rfl, fun x hx => ?_⟩
  rw [Chain.contains, hnode]
  split
  · rfl
  · exact hx

theorem contains_of_mem (hl : chain.Spells l) (hid : id ∈ l) : chain.contains id = true :=
  Option.isSome_iff_exists.mpr (hl.present hid)

/-- An instruction can be put at the end of every chain whose links are right. -/
theorem push_succeeds (hl : chain.Spells l) (instr : Instruction) :
    ∃ new after, push instr chain = .ok new after := by
  obtain ⟨new, c₁, halloc, hnew, hold⟩ := allocate_succeeds chain instr none none
  obtain ⟨c₂, hnext, hkept⟩ := linkNext_succeeds chain.tail (some new) fun x hx =>
    hold x (contains_of_mem hl (List.mem_of_getLast? (hl.tail ▸ hx)))
  have hprev : updateNode new (fun node => { node with prev := chain.tail }) c₂
      = .ok () (c₂.update new fun node => { node with prev := chain.tail }) :=
    updateNode_ok.mpr ⟨(hkept new).trans hnew, rfl⟩
  unfold push
  rw [bind_run (get_ok.mpr ⟨rfl, rfl⟩), bind_run halloc, bind_run hnext, bind_run hprev]
  exact ⟨_, _, rfl⟩

/-- An insertion next to a present instruction is accepted where the neighbour on the other side is
present too. -/
theorem insertAfter_accepts {node : Node} (hnode : chain.node? anchor = some node)
    (hneighbour : ∀ x, node.next = some x → chain.contains x = true) (instr : Instruction) :
    ∃ new after, insertAfter anchor instr chain = .ok new after := by
  obtain ⟨new, c₁, halloc, -, hold⟩ := allocate_succeeds chain instr (some anchor) node.next
  obtain ⟨c₂, hnext, hkept⟩ := linkNext_succeeds (some anchor) (some new) fun x hx =>
    hold x (Option.some.inj hx ▸ Option.isSome_iff_exists.mpr ⟨node, hnode⟩)
  obtain ⟨c₃, hprev, -⟩ := linkPrev_succeeds node.next (some new) fun x hx =>
    (hkept x).trans (hold x (hneighbour x hx))
  unfold insertAfter
  rw [bind_run (node_ok.mpr ⟨hnode, rfl⟩), bind_run halloc, bind_run hnext, bind_run hprev]
  exact ⟨_, _, rfl⟩

/-- An instruction can be put in front of an anchor that is there, if what the anchor has in front of it
is there too. -/
theorem insertBefore_accepts {node : Node} (hnode : chain.node? anchor = some node)
    (hneighbour : ∀ x, node.prev = some x → chain.contains x = true) (instr : Instruction) :
    ∃ new after, insertBefore anchor instr chain = .ok new after := by
  obtain ⟨new, c₁, halloc, -, hold⟩ := allocate_succeeds chain instr node.prev (some anchor)
  obtain ⟨c₂, hprev, hkept⟩ := linkPrev_succeeds (some anchor) (some new) fun x hx =>
    hold x (Option.some.inj hx ▸ Option.isSome_iff_exists.mpr ⟨node, hnode⟩)
  obtain ⟨c₃, hnext, -⟩ := linkNext_succeeds node.prev (some new) fun x hx =>
    (hkept x).trans (hold x (hneighbour x hx))
  unfold insertBefore
  rw [bind_run (node_ok.mpr ⟨hnode, rfl⟩), bind_run halloc, bind_run hprev, bind_run hnext]
  exact ⟨_, _, rfl⟩

/-- An instruction can be put behind every linked one. -/
theorem insertAfter_succeeds (hl : chain.Spells (xs ++ anchor :: ys)) (instr : Instruction) :
    ∃ new after, insertAfter anchor instr chain = .ok new after := by
  obtain ⟨found, hnode⟩ := hl.links.node?
  rw [Option.or_none, Option.or_none] at hnode
  refine insertAfter_accepts hnode (fun x hx => ?_) instr
  exact contains_of_mem hl (by simp [List.mem_of_head? hx])

/-- An instruction can be put in front of every linked one. -/
theorem insertBefore_succeeds (hl : chain.Spells (xs ++ anchor :: ys)) (instr : Instruction) :
    ∃ new after, insertBefore anchor instr chain = .ok new after := by
  obtain ⟨found, hnode⟩ := hl.links.node?
  rw [Option.or_none, Option.or_none] at hnode
  refine insertBefore_accepts hnode (fun x hx => ?_) instr
  exact contains_of_mem hl (by simp [List.mem_of_getLast? hx])

/-- Any number of instructions can be put in front of a linked one, since it stays linked all the way. -/
theorem insertAll_succeeds (hl : chain.Spells (xs ++ anchor :: ys)) (instrs : List Instruction) :
    ∃ ids after, instrs.mapM (insertBefore anchor) chain = .ok ids after := by
  induction instrs generalizing chain xs with
  | nil => exact ⟨[], chain, mapM_nil_ok.mpr ⟨rfl, rfl⟩⟩
  | cons instr instrs ih =>
    obtain ⟨new, c, hnew⟩ := insertBefore_succeeds hl instr
    have hbehind : c.Spells ((xs ++ [new]) ++ anchor :: ys) := by
      simpa using (insertBefore_spells hl hnew).1
    obtain ⟨ids, after, hrest⟩ := ih hbehind
    exact ⟨_, after, mapM_cons_ok.mpr ⟨new, c, ids, hnew, hrest, rfl⟩⟩

/-- An instruction can be taken out if its two neighbours, where it has them, are there. -/
theorem unlink_accepts {node : Node} (hnode : chain.node? id = some node)
    (hprev : ∀ x, node.prev = some x → chain.contains x = true)
    (hnext : ∀ x, node.next = some x → chain.contains x = true) :
    ∃ after, unlink id chain = .ok () after := by
  unfold unlink
  rw [bind_run (node_ok.mpr ⟨hnode, rfl⟩), bind_run (get_ok.mpr ⟨rfl, rfl⟩)]
  split
  · obtain ⟨c₁, hlink, hkept₁⟩ := linkNext_succeeds node.prev node.next hprev
    obtain ⟨c₂, hback, hkept₂⟩ := linkPrev_succeeds node.next node.prev fun x hx =>
      (hkept₁ x).trans (hnext x hx)
    have hcut : updateNode id (fun node => { node with prev := none, next := none }) c₂
        = .ok () (c₂.update id fun node => { node with prev := none, next := none }) :=
      updateNode_ok.mpr ⟨by rw [hkept₂, hkept₁, Chain.contains, hnode]; rfl, rfl⟩
    rw [bind_run hlink, bind_run hback, bind_run hcut]
    exact ⟨_, rfl⟩
  · exact ⟨chain, rfl⟩

/-- An instruction that is there can be taken out of a chain whose links are right. If it is not linked it
has no neighbours to ask for. -/
theorem unlink_succeeds (hl : chain.Spells l) (hid : chain.contains id = true) :
    ∃ after, unlink id chain = .ok () after := by
  obtain ⟨node, hnode⟩ := Option.isSome_iff_exists.mp hid
  by_cases hmem : id ∈ l
  · obtain ⟨xs, ys, rfl⟩ := List.append_of_mem hmem
    obtain ⟨found, hfound⟩ := hl.links.node?
    rw [hnode, Option.some.injEq, Option.or_none, Option.or_none] at hfound
    subst hfound
    exact unlink_accepts hnode
      (fun x hx => contains_of_mem hl (by simp [List.mem_of_getLast? hx]))
      fun x hx => contains_of_mem hl (by simp [List.mem_of_head? hx])
  · obtain ⟨hprev, hnext⟩ := hl.detached id node hmem hnode
    refine unlink_accepts hnode (fun x hx => ?_) fun x hx => ?_
    · rw [hprev] at hx
      cases hx
    · rw [hnext] at hx
      cases hx

/-! ## References -/

/-- A jumper can be crossed off the list of a target, also where the target is gone. -/
theorem dropReferrer_succeeds (target : InstrId) (hjumper : chain.contains jumper = true) :
    ∃ after, dropReferrer target jumper chain = .ok () after
      ∧ ∀ x, after.contains x = chain.contains x := by
  obtain ⟨found, hfound⟩ := instr_succeeds hjumper
  have hrun : ∃ after, dropReferrer target jumper chain = .ok () after := by
    unfold dropReferrer
    rw [bind_run hfound]
    split
    · exact ⟨_, rfl⟩
    · exact ⟨_, rfl⟩
  obtain ⟨after, hafter⟩ := hrun
  refine ⟨after, hafter, fun x => ?_⟩
  obtain ⟨_, -, rfl⟩ := dropReferrer_ok hafter
  exact Chain.contains_adjust

theorem noteReferrer_succeeds (jumper : InstrId) (htarget : chain.contains target = true) :
    ∃ after, noteReferrer target jumper chain = .ok () after
      ∧ ∀ x, after.contains x = chain.contains x :=
  ⟨_, noteReferrer_ok.mpr ⟨htarget, rfl⟩, fun _ => Chain.contains_adjust⟩

/-- A loop over operations that change no presence is accepted if each of them is. -/
theorem forM_succeeds {α : Type} (f : α → ChainM Unit) (rounds : List α) (chain : Chain)
    (h : ∀ x ∈ rounds, ∀ c : Chain, (∀ id, c.contains id = chain.contains id) →
      ∃ after, f x c = .ok () after ∧ ∀ id, after.contains id = c.contains id) :
    ∃ after, rounds.forM f chain = .ok () after ∧ ∀ id, after.contains id = chain.contains id := by
  have hyields : Yields False (rounds.forM f) chain fun _ after =>
      ∀ id, after.contains id = chain.contains id := by
    refine Yields.forM (p := fun _ (after : Chain) => ∀ id, after.contains id = chain.contains id)
      (fun _ => rfl) fun done x rest c hrounds hc => ?_
    obtain ⟨after, hafter, hkept⟩ := h x (by simp [hrounds]) c hc
    exact .of_ok hafter fun id => (hkept id).trans (hc id)
  obtain ⟨_, after, hafter, hkept⟩ := hyields.succeeds
  exact ⟨after, hafter, hkept⟩

/-- The target of a jumper that is there can be taken from it, and no instruction comes or goes. -/
theorem unlinkTarget_succeeds (hjumper : chain.contains jumper = true) :
    ∃ was after, unlinkTarget jumper chain = .ok was after
      ∧ ∀ x, after.contains x = chain.contains x := by
  obtain ⟨found, hfound⟩ := instr_succeeds hjumper
  have hcleared := update_succeeds hjumper fun instr => { instr with target := none }
  have hrun : ∃ was after, unlinkTarget jumper chain = .ok was after := by
    unfold unlinkTarget
    rw [bind_run hfound, bind_run hcleared]
    cases found.target with
    | none => exact ⟨_, _, rfl⟩
    | some target =>
      obtain ⟨after, hafter, -⟩ := dropReferrer_succeeds target (Chain.contains_adjust.trans hjumper)
      exact ⟨_, after, bind_run hafter⟩
  obtain ⟨was, after, hafter⟩ := hrun
  refine ⟨was, after, hafter, fun x => ?_⟩
  obtain ⟨_, -, -, rfl⟩ := unlinkTarget_ok hafter
  exact Chain.contains_adjust

/-- A jumper can be given a target if both are there. -/
theorem linkTarget_succeeds (hjumper : chain.contains jumper = true)
    (htarget : chain.contains target = true) : ∃ after, linkTarget jumper target chain = .ok () after := by
  obtain ⟨node, hnode⟩ := node_succeeds htarget
  obtain ⟨was, c, hunlink, hkept⟩ := unlinkTarget_succeeds hjumper
  let pointed := c.adjust (Chain.only jumper fun instr => { instr with target := some target })
  have hpointed := update_succeeds ((hkept jumper).trans hjumper) fun instr =>
    { instr with target := some target }
  have htarget' : pointed.contains target = true :=
    Chain.contains_adjust.trans ((hkept target).trans htarget)
  obtain ⟨after, hafter, -⟩ := noteReferrer_succeeds jumper htarget'
  refine ⟨after, ?_⟩
  unfold linkTarget
  rw [bind_run hnode, bind_run hunlink, bind_run hpointed, hafter]

/-- A jumper can be given a table if it is there and all entries are. -/
theorem setJumpTable_succeeds (entries : List InstrId) (hjumper : chain.contains jumper = true)
    (hentries : ∀ entry ∈ entries, chain.contains entry = true) :
    ∃ after, setJumpTable jumper entries chain = .ok () after := by
  obtain ⟨found, hfound⟩ := instr_succeeds hjumper
  have hcleared := update_succeeds hjumper fun instr => { instr with jumpTable := [] }
  obtain ⟨c₂, hdrop, hkept₂⟩ := forM_succeeds (dropReferrer · jumper) found.jumpTable
    (chain.adjust (Chain.only jumper fun instr => { instr with jumpTable := [] })) fun entry _ c hc =>
      dropReferrer_succeeds entry ((hc jumper).trans (Chain.contains_adjust.trans hjumper))
  have hpresent : ∀ x, c₂.contains x = chain.contains x := fun x =>
    (hkept₂ x).trans Chain.contains_adjust
  obtain ⟨c₃, hnote, hkept₃⟩ := forM_succeeds (noteReferrer · jumper) entries c₂ fun entry hentry c hc =>
    noteReferrer_succeeds jumper ((hc entry).trans ((hpresent entry).trans (hentries entry hentry)))
  have hfilled := update_succeeds ((hkept₃ jumper).trans ((hpresent jumper).trans hjumper))
    fun instr => { instr with jumpTable := entries }
  unfold setJumpTable
  rw [bind_run (nodes_succeed hentries), bind_run hfound, bind_run hcleared, bind_run hdrop, bind_run hnote]
  exact ⟨_, hfilled⟩

/-- All jumpers of one instruction can be passed on to another if both are there: each jumper that is
listed does refer to the first, so it is there to be changed. -/
theorem retargetAll_succeeds (ha : chain.Answered) (hsource : chain.contains source = true)
    (hdest : chain.contains dest = true) : ∃ after, retargetAll source dest chain = .ok () after := by
  unfold retargetAll
  split
  · exact ⟨chain, rfl⟩
  · obtain ⟨node, hnode⟩ := node_succeeds hdest
    obtain ⟨found, hfound⟩ := instr_succeeds hsource
    have hcleared := update_succeeds hsource fun instr => { instr with targetedBy := [] }
    -- whatever is listed at the source answers, so each of the updates finds its jumper
    have hjumpers : ∀ jumper ∈ found.targetedBy, chain.contains jumper = true := by
      intro jumper hjumper
      obtain ⟨jumping, hjumping, -⟩ := ha source found jumper (instr_ok.mp hfound).1 hjumper
      exact Chain.contains_iff_get?.mpr ⟨jumping, hjumping⟩
    obtain ⟨after, hafter, -⟩ := forM_succeeds
      (fun jumper => do
        update jumper (·.redirectedTo source dest)
        noteReferrer dest jumper) found.targetedBy
      (chain.adjust (Chain.only source fun instr => { instr with targetedBy := [] }))
      fun jumper hjumper c hc => by
        have hpresent : ∀ x, c.contains x = chain.contains x := fun x =>
          (hc x).trans Chain.contains_adjust
        have hmoved := update_succeeds ((hpresent jumper).trans (hjumpers jumper hjumper))
          (·.redirectedTo source dest)
        have hdest' : (c.adjust (Chain.only jumper (·.redirectedTo source dest))).contains dest = true :=
          Chain.contains_adjust.trans ((hpresent dest).trans hdest)
        obtain ⟨after, hafter, hkept⟩ := noteReferrer_succeeds jumper hdest'
        refine ⟨after, ?_, fun x => (hkept x).trans Chain.contains_adjust⟩
        rw [bind_run hmoved, hafter]
    refine ⟨after, ?_⟩
    rw [bind_run hnode, bind_run hfound, bind_run hcleared, hafter]

/-! ## Freeing and replacing -/

/-- What was taken out of the list can be freed. -/
theorem free_accepts {c₁ : Chain} (hunlink : unlink id chain = .ok () c₁) (hid : c₁.contains id = true) :
    ∃ freed after, free id chain = .ok freed after := by
  obtain ⟨was, c₂, htarget, hkept₂⟩ := unlinkTarget_succeeds hid
  obtain ⟨c₃, htable⟩ := setJumpTable_succeeds [] ((hkept₂ id).trans hid) (by simp)
  obtain ⟨_, -, -, heq⟩ := setJumpTable_ok htable
  have hkept₃ : c₃.contains id = true := by
    rw [heq, Chain.contains_adjust, hkept₂, hid]
  obtain ⟨freed, hfreed⟩ := instr_succeeds hkept₃
  unfold free
  rw [bind_run hunlink, bind_run htarget, bind_run htable, bind_run hfreed]
  exact ⟨_, _, rfl⟩

/-- An instruction that is there can be freed. -/
theorem free_succeeds (hl : chain.Spells l) (hid : chain.contains id = true) :
    ∃ freed after, free id chain = .ok freed after := by
  obtain ⟨c₁, hunlink⟩ := unlink_succeeds hl hid
  refine free_accepts hunlink ?_
  rw [Chain.contains_eq_isSome_get?, (unlink_kept hl hunlink).2.1, ← Chain.contains_eq_isSome_get?, hid]

/-- A linked instruction can be replaced by any others that are given, if these refer to nothing yet. The
old one is taken out last, when its references are gone. -/
theorem replace_succeeds (hl : chain.Spells (xs ++ old :: ys)) (hc : chain.Crossed)
    (hbare : ∀ instr ∈ instrs, instr.Bare) (hne : instrs ≠ []) :
    ∃ ids freed after, replace old instrs chain = .ok (ids, freed) after := by
  obtain ⟨ids, c₂, hinsert⟩ := insertAll_succeeds hl instrs
  obtain ⟨hspells, -, hfresh, -, -⟩ := insertAll_ok hl hinsert
  have hc₂ := (insertAll_crossed hl hc hbare hinsert).1
  cases instrs with
  | nil => exact absurd rfl hne
  | cons instr instrs =>
    obtain ⟨first, c₁, others, hfirst, hothers, rfl⟩ := mapM_cons_ok.mp hinsert
    have hold : old ≠ first := by
      rintro rfl
      exact hl.not_mem (hfresh old (List.mem_cons_self ..)) (mem_site_iff.mpr (.inl rfl))
    have hmem : old ∈ xs ++ first :: others ++ old :: ys := by simp
    have hmem' : first ∈ xs ++ first :: others ++ old :: ys := by simp
    obtain ⟨c₃, hretarget⟩ := retargetAll_succeeds hc₂.answered (contains_of_mem hspells hmem)
      (contains_of_mem hspells hmem')
    have hspells₃ := (retargetAll_relinked hold hretarget).spells hspells
    obtain ⟨held, hheld⟩ := instr_succeeds (contains_of_mem hspells₃ hmem)
    have hgiven := update_succeeds (contains_of_mem hspells₃ hmem)
      fun instr => { instr with referencedBy := [] }
    have hspells₄ := hspells₃.adjust (Chain.only old fun instr => { instr with referencedBy := [] })
    have htaken := update_succeeds (contains_of_mem hspells₄ hmem')
      fun instr => { instr with referencedBy := instr.referencedBy ++ held.referencedBy }
    have hspells₅ := hspells₄.adjust
      (Chain.only first fun instr => { instr with referencedBy := instr.referencedBy ++ held.referencedBy })
    obtain ⟨freed, after, hfree⟩ := free_succeeds hspells₅ (contains_of_mem hspells₅ hmem)
    refine ⟨first :: others, freed, after, ?_⟩
    simp only [replace]
    rw [bind_run hfirst, bind_run hothers, bind_run hretarget, bind_run hheld, bind_run hgiven,
      bind_run htaken, bind_run hfree]
    rfl

end Splice.ChainM
