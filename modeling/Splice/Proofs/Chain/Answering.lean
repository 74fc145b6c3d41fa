import Splice.Proofs.Chain.Replacement

/-!
# Back references are answered

`Listed` says that whoever refers to an instruction is listed there. `Answered` is the other
direction: whoever is listed refers to it. Each operation on references and each splice keeps
the two sides in step, because a jumper is struck from a list exactly when it stops referring
to the instruction.

> `replace_answered`: where an instruction is replaced, whoever is listed at the first of the
> new ones refers to it.

The closed forms of `Splice.Proofs.Chain.References` turn each operation into a question about
one `f`: after the change, does every jumper that an instruction lists refer to it?
`answered_adjust` asks it once, and each operation answers it by what it strikes off and notes.
An instruction that is freed is the one delicate case, since it is listed at its targets until
it has given up its references (`references_given_up`).
-/

namespace Splice

namespace Chain

/-- Whoever an instruction lists as a jumper refers to it. -/
def Answered (chain : Chain) : Prop :=
  ∀ id instr jumper, chain.get? id = some instr → jumper ∈ instr.targetedBy →
    ∃ source, chain.get? jumper = some source ∧ id ∈ source.references

variable {chain after : Chain} {f : InstrId → Instruction → Instruction}
  {r : InstrId → Instruction → Instruction → Prop}

/-- An adjustment keeps what is listed answered for if every jumper that an instruction lists afterwards
refers to it afterwards. -/
theorem answered_adjust (h : ∀ id instr jumper, chain.get? id = some instr →
      jumper ∈ (f id instr).targetedBy →
      ∃ source, chain.get? jumper = some source ∧ id ∈ (f jumper source).references) :
    (chain.adjust f).Answered := by
  intro id instr jumper hinstr hjumper
  rw [get?_adjust, Option.map_eq_some_iff] at hinstr
  obtain ⟨old, hold, rfl⟩ := hinstr
  obtain ⟨source, hsource, hrefers⟩ := h id old jumper hold hjumper
  exact ⟨f jumper source, by rw [get?_adjust, hsource]; rfl, hrefers⟩

/-- Changes that concern neither side. -/
theorem Answered.evolve (h : chain.Answered) (he : Evolves r chain after)
    (hrefs : ∀ id a b, r id a b → b.references = a.references)
    (hby : ∀ id a b, r id a b → b.targetedBy = a.targetedBy) : after.Answered := by
  obtain ⟨f, rfl, hf⟩ := he
  refine answered_adjust fun id instr jumper hinstr hjumper => ?_
  rw [hby _ _ _ (hf id instr hinstr)] at hjumper
  obtain ⟨source, hsource, hrefers⟩ := h id instr jumper hinstr hjumper
  refine ⟨source, hsource, ?_⟩
  rw [hrefs _ _ _ (hf jumper source hsource)]
  exact hrefers

/-- A new instruction is nobody's target yet. -/
theorem Answered.insert (h : chain.Answered) {new : InstrId} {instr : Instruction}
    (hget : ∀ x, after.get? x = if x = new then some instr else chain.get? x)
    (hfresh : chain.get? new = none) (hby : instr.targetedBy = []) : after.Answered := by
  intro id found jumper hfound hjumper
  rw [hget] at hfound
  by_cases hid : id = new
  · rw [if_pos hid] at hfound
    cases hfound
    rw [hby] at hjumper
    cases hjumper
  · rw [if_neg hid] at hfound
    obtain ⟨source, hsource, hrefers⟩ := h id found jumper hfound hjumper
    have hne : jumper ≠ new := by
      rintro rfl
      rw [hfresh] at hsource
      cases hsource
    exact ⟨source, by rw [hget, if_neg hne, hsource], hrefers⟩

/-- An instruction that refers to nothing is taken out. -/
theorem Answered.without (h : chain.Answered) {gone : InstrId} {instr : Instruction}
    (hget : ∀ x, after.get? x = if x = gone then none else chain.get? x)
    (hgone : chain.get? gone = some instr) (hrefs : instr.references = []) : after.Answered := by
  intro id found jumper hfound hjumper
  rw [hget] at hfound
  split at hfound
  · cases hfound
  · obtain ⟨source, hsource, hrefers⟩ := h id found jumper hfound hjumper
    have hne : jumper ≠ gone := by
      rintro rfl
      rw [hgone] at hsource
      cases hsource
      rw [hrefs] at hrefers
      cases hrefers
    exact ⟨source, by rw [hget, if_neg hne, hsource], hrefers⟩

end Chain

namespace ChainM

variable {chain after : Chain} {l xs ys ids : List InstrId} {jumper target source dest id anchor old : InstrId}
  {entries : List InstrId} {instrs : List Instruction} {u : Unit}

/-! ## References -/

/-- What a list keeps when the direct target is given up is in the table. -/
theorem mem_jumpTable_of_kept {found : Instruction} {x : InstrId} (hrefers : x ∈ found.references)
    (hkept : ¬ (found.target = some x ∧ x ∉ found.jumpTable)) : x ∈ found.jumpTable := by
  by_cases hentry : x ∈ found.jumpTable
  · exact hentry
  · have htarget := (List.mem_append.mp hrefers).resolve_right hentry
    exact absurd ⟨Option.mem_toList.mp htarget, hentry⟩ hkept

/-- When a jumper loses its target, it is crossed off the list of that target, so what is still listed is
answered for. -/
theorem unlinkTarget_answered {was : Option InstrId} (hl : chain.Answered)
    (h : unlinkTarget jumper chain = .ok was after) : after.Answered := by
  obtain ⟨found, hfound, -, rfl⟩ := unlinkTarget_ok h
  refine Chain.answered_adjust fun x i other hi hother => ?_
  rw [mem_targetedBy_untargeted] at hother
  obtain ⟨hlisted, hkept⟩ := hother
  obtain ⟨source, hsource, hrefers⟩ := hl x i other hi hlisted
  refine ⟨source, hsource, ?_⟩
  rw [references_untargeted]
  split
  next hself =>
    rw [hself, hfound] at hsource
    cases hsource
    exact mem_jumpTable_of_kept hrefers fun h => hkept ⟨hself, h⟩
  next => exact hrefers

/-- When a jumper gets a target, the old target loses it from its list before the new one takes it in. -/
theorem linkTarget_answered (hl : chain.Answered)
    (h : linkTarget jumper target chain = .ok u after) : after.Answered := by
  obtain ⟨found, hfound, -, rfl⟩ := linkTarget_ok h
  refine Chain.answered_adjust fun x i other hi hother => ?_
  rw [mem_targetedBy_targeted] at hother
  rcases hother with ⟨rfl, rfl⟩ | ⟨hlisted, hkept⟩
  · refine ⟨found, hfound, ?_⟩
    rw [references_targeted, if_pos rfl]
    exact List.mem_cons_self ..
  · obtain ⟨source, hsource, hrefers⟩ := hl x i other hi hlisted
    refine ⟨source, hsource, ?_⟩
    rw [references_targeted]
    split
    next hself =>
      rw [hself, hfound] at hsource
      cases hsource
      exact List.mem_cons_of_mem _ (mem_jumpTable_of_kept hrefers fun h => hkept ⟨hself, h⟩)
    next => exact hrefers

/-- When a jumper gets a table, those that are only in the old one lose it from their lists. -/
theorem setJumpTable_answered (hl : chain.Answered)
    (h : setJumpTable jumper entries chain = .ok u after) : after.Answered := by
  obtain ⟨found, hfound, -, rfl⟩ := setJumpTable_ok h
  refine Chain.answered_adjust fun x i other hi hother => ?_
  rw [mem_targetedBy_tabled] at hother
  rcases hother with ⟨rfl, hentry⟩ | ⟨hlisted, hkept⟩
  · refine ⟨found, hfound, ?_⟩
    rw [references_tabled, if_pos rfl]
    exact List.mem_append_right _ hentry
  · obtain ⟨source, hsource, hrefers⟩ := hl x i other hi hlisted
    refine ⟨source, hsource, ?_⟩
    rw [references_tabled]
    split
    next hself =>
      rw [hself, hfound] at hsource
      cases hsource
      refine List.mem_append_left _ (Option.mem_toList.mpr ?_)
      by_cases htarget : found.target = some x
      · exact htarget
      · have hentry := (List.mem_append.mp hrefers).resolve_left fun h => htarget (Option.mem_toList.mp h)
        exact absurd ⟨hself, hentry, htarget⟩ hkept
    next => exact hrefers

/-- The jumpers of `source` refer to `dest` once they are listed there. -/
theorem retargetAll_answered (hl : chain.Answered) (hne : source ≠ dest)
    (h : retargetAll source dest chain = .ok u after) : after.Answered := by
  obtain ⟨found, hfound, -, rfl⟩ := retargetAll_ok hne h
  refine Chain.answered_adjust fun x i other hi hother => ?_
  rw [mem_targetedBy_movedOver] at hother
  rcases hother with ⟨rfl, hmoved⟩ | ⟨hx, hlisted⟩
  · obtain ⟨jumping, hjumping, hrefers⟩ := hl source found other hfound hmoved
    refine ⟨jumping, hjumping, ?_⟩
    rw [references_movedOver, if_pos hmoved, List.mem_map]
    exact ⟨source, hrefers, swap_self⟩
  · obtain ⟨jumping, hjumping, hrefers⟩ := hl x i other hi hlisted
    refine ⟨jumping, hjumping, ?_⟩
    rw [references_movedOver]
    split
    · exact List.mem_map.mpr ⟨x, hrefers, swap_of_ne hx⟩
    · exact hrefers

/-! ## Splices -/

theorem insertBefore_answered {instr : Instruction} (hl : chain.Spells (xs ++ anchor :: ys))
    (ha : chain.Answered) (hby : instr.targetedBy = [])
    (h : insertBefore anchor instr chain = .ok id after) : after.Answered := by
  have hins := insertBefore_inserted hl h
  exact ha.insert hins.get? (hins.name ▸ Chain.get?_size chain) hby

theorem insertAfter_answered {instr : Instruction} (hl : chain.Spells (xs ++ anchor :: ys))
    (ha : chain.Answered) (hby : instr.targetedBy = [])
    (h : insertAfter anchor instr chain = .ok id after) : after.Answered := by
  have hins := insertAfter_inserted hl h
  exact ha.insert hins.get? (hins.name ▸ Chain.get?_size chain) hby

/-- Instructions that list no jumpers can be put in, one after the other. -/
theorem insertAll_answered (hl : chain.Spells (xs ++ anchor :: ys)) (ha : chain.Answered)
    (hby : ∀ instr ∈ instrs, instr.targetedBy = [])
    (h : instrs.mapM (insertBefore anchor) chain = .ok ids after) : after.Answered := by
  induction instrs generalizing chain ids xs with
  | nil =>
    rw [mapM_nil_ok] at h
    exact h.2 ▸ ha
  | cons instr instrs ih =>
    rw [mapM_cons_ok] at h
    obtain ⟨new, c, ids', hnew, hrest, rfl⟩ := h
    have hbehind : c.Spells ((xs ++ [new]) ++ anchor :: ys) := by
      simpa using (insertBefore_spells hl hnew).1
    exact ih hbehind (insertBefore_answered hl ha (hby instr (List.mem_cons_self ..)) hnew)
      (fun i hi => hby i (List.mem_cons_of_mem _ hi)) hrest

/-- An instruction whose target is cleared and whose table is emptied refers to nothing. -/
theorem references_given_up {c : Chain} {was : Option InstrId} {instr : Instruction}
    (htarget : unlinkTarget id chain = .ok was c) (htable : setJumpTable id [] c = .ok u after)
    (hget : after.get? id = some instr) : instr.references = [] := by
  obtain ⟨found, -, -, rfl⟩ := unlinkTarget_ok htarget
  obtain ⟨found', -, -, rfl⟩ := setJumpTable_ok htable
  rw [Chain.adjust_adjust, Chain.get?_adjust, Option.map_eq_some_iff] at hget
  obtain ⟨before, -, rfl⟩ := hget
  have htargetless : (untargeted id found id before).target = none := by
    unfold untargeted
    simp only [if_true]
    split <;> rfl
  rw [references_tabled, if_pos rfl, htargetless]
  rfl

/-- What is taken out for good has given up its references before. -/
theorem free_answered (hl : chain.Spells (xs ++ id :: ys)) (ha : chain.Answered)
    {freed : Instruction} (h : free id chain = .ok freed after) : after.Answered := by
  obtain ⟨c₁, c₂, c₃, was, hunlink, htarget, htable, hfreed, rfl⟩ := free_stages h
  obtain ⟨hspells, hget⟩ := unlink_spells hl hunlink
  have ha₁ : c₁.Answered := by
    intro x i jumper hi hjumper
    rw [hget] at hi
    rw [hget]
    exact ha x i jumper hi hjumper
  have ha₃ := setJumpTable_answered (unlinkTarget_answered ha₁ htarget) htable
  have hrefs := references_given_up htarget htable hfreed
  obtain ⟨found, -, -, heq₂⟩ := unlinkTarget_ok htarget
  obtain ⟨found', -, -, heq₃⟩ := setJumpTable_ok htable
  have hspells₃ : c₃.Spells (xs ++ ys) := by
    rw [heq₃, heq₂]
    exact (hspells.adjust _).adjust _
  exact ha₃.without (spells_without hspells₃ hl.not_mem_rest).2 hfreed hrefs

/-- Where an instruction is replaced, what it was referred to by refers to the first of the new ones. -/
theorem replace_answered (hl : chain.Spells (xs ++ old :: ys)) (ha : chain.Answered)
    (hby : ∀ instr ∈ instrs, instr.targetedBy = []) {freed : Instruction}
    (h : replace old instrs chain = .ok (ids, freed) after) : after.Answered := by
  obtain ⟨first, others, c₂, c₃, held, rfl, hinsert, hretarget, -, hfree⟩ := replace_run h
  obtain ⟨hspells, -, hfresh, -, -⟩ := insertAll_ok hl hinsert
  have hne : old ≠ first := by
    rintro rfl
    exact hl.not_mem (hfresh old (List.mem_cons_self ..)) (mem_site_iff.mpr (.inl rfl))
  have ha₃ := retargetAll_answered (insertAll_answered hl ha hby hinsert) hne hretarget
  have htied : c₃.Evolves (fun _ a b => a.Retied b)
      (c₃.adjust (takingOver old first held.referencedBy)) :=
    .of_adjust fun _ _ _ => takingOver_retied
  have hspells₄ := htied.spells ((retargetAll_relinked hne hretarget).spells hspells)
  exact free_answered hspells₄ (ha₃.evolve htied (fun _ _ _ h => h.references) fun _ _ _ h => h.targetedBy)
    hfree

end ChainM

end Splice
