import Splice.Proofs.Chain.Answering

/-!
# Both sides of every reference

`Crossed chain` says all that ties the two sides of references together: an instruction that is
present lists whoever refers to it, each once, and whoever it lists is present and refers to
it. An instruction may go on referring to one that was taken out. It never comes to refer to
another one thereby, because what is referred to was handed out as a name before.

Every operation on references and every splice of instructions that are `Bare` keeps chains
`Crossed`, wherever the instructions stand and whether or not they are linked.

> `Crossed.mem_targetedBy_iff`: an instruction that is present lists exactly those that refer to
> it.

The four fields of `Crossed` are kept together because each operation needs them all: that a
jumper is listed at most once makes striking it off once enough, and that names are handed out
once makes a reference to what was freed harmless. `retargetAll_unused` says why the freed
instruction of a replacement is referred to by nobody, which is what `replace_kept` needs in the
end.
-/

namespace Splice

namespace Instruction

/-- Nothing is referred to, and nobody is listed. -/
def Bare (instr : Instruction) : Prop := instr.references = [] ∧ instr.targetedBy = []

instance (instr : Instruction) : Decidable instr.Bare := inferInstanceAs (Decidable (_ ∧ _))

end Instruction

/-- To add a jumper does not make a list name anybody twice. -/
theorem nodup_addReferrer {jumper : InstrId} {referrers : List InstrId} (h : referrers.Nodup) :
    (addReferrer jumper referrers).Nodup := by
  unfold addReferrer
  split
  next => exact h
  next hnot =>
    rw [List.contains_iff_mem] at hnot
    refine List.nodup_append.mpr ⟨h, by simp, fun a ha b hb he => ?_⟩
    exact hnot (List.mem_singleton.mp hb ▸ he ▸ ha)

namespace Chain

/-- The two sides of every reference agree. -/
structure Crossed (chain : Chain) : Prop where
  /-- Whoever refers to an instruction that is present is listed there. -/
  noted : ∀ jumper instr, chain.get? jumper = some instr → ∀ target ∈ instr.references,
    ∀ found, chain.get? target = some found → jumper ∈ found.targetedBy
  answered : chain.Answered
  once : ∀ id instr, chain.get? id = some instr → instr.targetedBy.Nodup
  /-- What is referred to was handed out as a name. -/
  named : ∀ id instr, chain.get? id = some instr → ∀ target ∈ instr.references,
    target.index < chain.slots.size

variable {chain after : Chain} {f : InstrId → Instruction → Instruction}
  {r : InstrId → Instruction → Instruction → Prop} {id jumper target : InstrId} {instr found : Instruction}

theorem size_slots_update (chain : Chain) (id : InstrId) (f : Node → Node) :
    (chain.update id f).slots.size = chain.slots.size := by
  rw [update, Array.size_modify]

theorem index_lt_of_contains (h : chain.contains id = true) : id.index < chain.slots.size := by
  obtain ⟨node, hnode⟩ := Option.isSome_iff_exists.mp h
  exact index_lt_of_node? hnode

theorem contains_iff_get? : chain.contains id = true ↔ ∃ instr, chain.get? id = some instr := by
  rw [contains_eq_isSome_get?, Option.isSome_iff_exists]

/-- The empty chain has nothing to disagree about. -/
theorem crossed_empty : Chain.empty.Crossed := by
  have hnone : ∀ id, Chain.empty.get? id = none := fun id => by
    simp [Chain.get?, Chain.node?, Chain.empty]
  constructor
  · intro jumper instr hinstr
    rw [hnone] at hinstr
    cases hinstr
  · intro id instr jumper hinstr
    rw [hnone] at hinstr
    cases hinstr
  · intro id instr hinstr
    rw [hnone] at hinstr
    cases hinstr
  · intro id instr hinstr
    rw [hnone] at hinstr
    cases hinstr

namespace Crossed

/-- An instruction lists exactly those that refer to it. -/
theorem mem_targetedBy_iff (h : chain.Crossed) (hinstr : chain.get? jumper = some instr)
    (hfound : chain.get? target = some found) :
    jumper ∈ found.targetedBy ↔ instr.target = some target ∨ target ∈ instr.jumpTable := by
  have hrefers : target ∈ instr.references ↔ instr.target = some target ∨ target ∈ instr.jumpTable := by
    rw [Instruction.references, List.mem_append, Option.mem_toList]
  rw [← hrefers]
  constructor
  · intro hlisted
    obtain ⟨source, hsource, hmem⟩ := h.answered target found jumper hfound hlisted
    rwa [eq_of_get? hinstr hsource rfl] at hmem
  · exact fun hmem => h.noted jumper instr hinstr target hmem found hfound

theorem contains_of_mem (h : chain.Crossed) (hfound : chain.get? target = some found)
    (hjumper : jumper ∈ found.targetedBy) : chain.contains jumper = true := by
  obtain ⟨source, hsource, -⟩ := h.answered target found jumper hfound hjumper
  exact contains_iff_get?.mpr ⟨source, hsource⟩

/-- A change in place that keeps each of the four. -/
theorem of_adjust
    (hnoted : ∀ jumper instr, chain.get? jumper = some instr → ∀ target ∈ (f jumper instr).references,
      ∀ found, chain.get? target = some found → jumper ∈ (f target found).targetedBy)
    (hanswered : (chain.adjust f).Answered)
    (honce : ∀ id instr, chain.get? id = some instr → (f id instr).targetedBy.Nodup)
    (hnamed : ∀ id instr, chain.get? id = some instr → ∀ target ∈ (f id instr).references,
      target.index < chain.slots.size) : (chain.adjust f).Crossed := by
  refine ⟨fun jumper instr hinstr target htarget found hfound => ?_, hanswered,
    fun id instr hinstr => ?_, fun id instr hinstr target htarget => ?_⟩
  · rw [get?_adjust, Option.map_eq_some_iff] at hinstr hfound
    obtain ⟨instr, hinstr, rfl⟩ := hinstr
    obtain ⟨found, hfound, rfl⟩ := hfound
    exact hnoted jumper instr hinstr target htarget found hfound
  · rw [get?_adjust, Option.map_eq_some_iff] at hinstr
    obtain ⟨instr, hinstr, rfl⟩ := hinstr
    exact honce id instr hinstr
  · rw [get?_adjust, Option.map_eq_some_iff] at hinstr
    obtain ⟨instr, hinstr, rfl⟩ := hinstr
    rw [size_slots_adjust]
    exact hnamed id instr hinstr target htarget

/-- Changes that concern neither side. -/
theorem evolve (h : chain.Crossed) (he : Evolves r chain after)
    (hrefs : ∀ id a b, r id a b → b.references = a.references)
    (hby : ∀ id a b, r id a b → b.targetedBy = a.targetedBy) : after.Crossed := by
  have hanswered := h.answered.evolve he hrefs hby
  obtain ⟨f, rfl, hf⟩ := he
  refine .of_adjust (fun jumper instr hinstr target htarget found hfound => ?_) hanswered
    (fun id instr hinstr => ?_) fun id instr hinstr target htarget => ?_
  · rw [hrefs _ _ _ (hf jumper instr hinstr)] at htarget
    rw [hby _ _ _ (hf target found hfound)]
    exact h.noted jumper instr hinstr target htarget found hfound
  · rw [hby _ _ _ (hf id instr hinstr)]
    exact h.once id instr hinstr
  · rw [hrefs _ _ _ (hf id instr hinstr)] at htarget
    exact h.named id instr hinstr target htarget

/-- Changes of the order alone. -/
theorem congr (h : chain.Crossed) (hget : ∀ x, after.get? x = chain.get? x)
    (hsize : after.slots.size = chain.slots.size) : after.Crossed where
  noted jumper instr hinstr target htarget found hfound :=
    h.noted jumper instr (hget jumper ▸ hinstr) target htarget found (hget target ▸ hfound)
  answered id instr jumper hinstr hjumper := by
    rw [hget] at hinstr ⊢
    exact h.answered id instr jumper hinstr hjumper
  once id instr hinstr := h.once id instr (hget id ▸ hinstr)
  named id instr hinstr target htarget :=
    hsize ▸ h.named id instr (hget id ▸ hinstr) target htarget

/-- A new instruction refers to nothing, and nothing refers to a name that was never handed out. -/
theorem insert (h : chain.Crossed) {new : InstrId} (hnew : new = ⟨chain.slots.size⟩)
    (hget : ∀ x, after.get? x = if x = new then some instr else chain.get? x)
    (hsize : after.slots.size = chain.slots.size + 1) (hbare : instr.Bare) : after.Crossed := by
  have hfresh : chain.get? new = none := hnew ▸ chain.get?_size
  -- the new one has no references on either side, so whoever has some was there before
  have hold : ∀ {x i}, after.get? x = some i → i.references ≠ [] ∨ i.targetedBy ≠ [] →
      chain.get? x = some i := by
    intro x i hi hsome
    rw [hget] at hi
    by_cases hx : x = new
    · rw [if_pos hx, Option.some.injEq] at hi
      exact absurd hsome (by simp [← hi, hbare.1, hbare.2])
    · rwa [if_neg hx] at hi
  refine ⟨fun jumper i hi target htarget found hfound => ?_, h.answered.insert hget hfresh hbare.2,
    fun id i hi => ?_, fun id i hi target htarget => ?_⟩
  · have hi := hold hi (.inl (List.ne_nil_of_mem htarget))
    -- a reference to the new name would be one to a name not handed out yet
    have hne : target ≠ new := by
      rintro rfl
      have hlt := h.named jumper i hi target htarget
      rw [hnew] at hlt
      exact Nat.lt_irrefl _ hlt
    rw [hget, if_neg hne] at hfound
    exact h.noted jumper i hi target htarget found hfound
  · by_cases hby : i.targetedBy = []
    · rw [hby]
      exact List.nodup_nil
    · exact h.once id i (hold hi (.inr hby))
  · have hlt := h.named id i (hold hi (.inl (List.ne_nil_of_mem htarget))) target htarget
    omega

/-- An instruction that refers to nothing is taken out. -/
theorem without (h : chain.Crossed) (hget : ∀ x, after.get? x = if x = id then none else chain.get? x)
    (hsize : after.slots.size = chain.slots.size) (hinstr : chain.get? id = some instr)
    (hrefs : instr.references = []) : after.Crossed := by
  have hold : ∀ {x i}, after.get? x = some i → chain.get? x = some i := by
    intro x i hi
    rw [hget] at hi
    split at hi
    · cases hi
    · exact hi
  exact ⟨fun jumper i hi target htarget found hfound =>
      h.noted jumper i (hold hi) target htarget found (hold hfound),
    h.answered.without hget hinstr hrefs, fun id i hi => h.once id i (hold hi),
    fun id i hi target htarget => hsize ▸ h.named id i (hold hi) target htarget⟩

end Crossed

end Chain

namespace ChainM

variable {chain after : Chain} {l xs ys ids entries jumpers : List InstrId}
  {jumper target source dest id anchor old x : InstrId} {instr found i : Instruction} {instrs : List Instruction} {u : Unit}

/-! ## References -/

theorem nodup_striking (jumper : InstrId) (h : i.targetedBy.Nodup) :
    (i.striking jumper).targetedBy.Nodup :=
  h.sublist List.filter_sublist

theorem nodup_noting (jumper : InstrId) (h : i.targetedBy.Nodup) :
    (i.noting jumper).targetedBy.Nodup :=
  nodup_addReferrer h

theorem nodup_redirectedTo (source dest : InstrId) (h : i.targetedBy.Nodup) :
    (i.redirectedTo source dest).targetedBy.Nodup := h

/-- A choice between two instructions that list nobody twice lists nobody twice. -/
theorem nodup_ite (p : Prop) [Decidable p] {a b : Instruction} (ha : a.targetedBy.Nodup)
    (hb : b.targetedBy.Nodup) : (if p then a else b).targetedBy.Nodup := by
  split
  · exact ha
  · exact hb

/-- To clear a target lists nobody twice. -/
theorem nodup_untargeted (h : i.targetedBy.Nodup) :
    (untargeted jumper found x i).targetedBy.Nodup := by
  have hcleared : (if x = jumper then { i with target := none } else i).targetedBy.Nodup :=
    nodup_ite _ h h
  exact nodup_ite _ (nodup_striking jumper hcleared) hcleared

/-- To point a jumper at a target lists nobody twice. -/
theorem nodup_targeted (h : i.targetedBy.Nodup) :
    (targeted jumper target found x i).targetedBy.Nodup := by
  have huntargeted : (untargeted jumper found x i).targetedBy.Nodup := nodup_untargeted h
  have hpointed : (if x = jumper then { untargeted jumper found x i with target := some target }
      else untargeted jumper found x i).targetedBy.Nodup := nodup_ite _ huntargeted huntargeted
  exact nodup_ite _ (nodup_noting jumper hpointed) hpointed

/-- To replace a table lists nobody twice, even if the new one names an instruction several times. -/
theorem nodup_tabled (h : i.targetedBy.Nodup) :
    (tabled jumper entries found x i).targetedBy.Nodup := by
  have hstruck := nodup_ite (x ∈ found.jumpTable ∧ found.target ≠ some x) (nodup_striking jumper h) h
  have hnoted := nodup_ite (x ∈ entries) (nodup_noting jumper hstruck) hstruck
  exact nodup_ite _ hnoted hnoted

/-- To move jumpers over to another instruction lists nobody twice there, even those that it had
already. -/
theorem nodup_movedOver (h : i.targetedBy.Nodup) :
    (movedOver source dest jumpers x i).targetedBy.Nodup := by
  have hfold : ∀ (list : List InstrId) (i : Instruction), i.targetedBy.Nodup →
      (list.foldl (fun i jumper => i.noting jumper) i).targetedBy.Nodup := by
    intro list
    induction list with
    | nil => exact fun i h => h
    | cons jumper list ih => exact fun i h => ih (i.noting jumper) (nodup_noting jumper h)
  have hcleared : (Chain.only source (fun i => { i with targetedBy := [] }) x i).targetedBy.Nodup :=
    nodup_ite _ List.nodup_nil h
  have hmoved := nodup_ite (x ∈ jumpers) (nodup_redirectedTo source dest hcleared) hcleared
  exact nodup_ite _ (hfold _ _ hmoved) hmoved

/-- The two sides of every reference still agree when a target was cleared. -/
theorem unlinkTarget_crossed {was : Option InstrId} (hc : chain.Crossed)
    (h : unlinkTarget jumper chain = .ok was after) : after.Crossed := by
  have hanswered := unlinkTarget_answered hc.answered h
  obtain ⟨found, hfound, -, rfl⟩ := unlinkTarget_ok h
  refine .of_adjust (fun other instr hinstr t ht ti hti => ?_) hanswered
    (fun id i hi => nodup_untargeted (hc.once id i hi)) fun id i hi t ht =>
      hc.named id i hi t (mem_references_untargeted ht)
  exact listed_untargeted (Chain.eq_of_get? hfound hinstr) ht
    (hc.noted other instr hinstr t (mem_references_untargeted ht) ti hti)

/-- The two sides of every reference still agree when a jumper was pointed at a target. -/
theorem linkTarget_crossed (hc : chain.Crossed) (h : linkTarget jumper target chain = .ok u after) :
    after.Crossed := by
  have hanswered := linkTarget_answered hc.answered h
  obtain ⟨found, hfound, hpresent, rfl⟩ := linkTarget_ok h
  refine .of_adjust (fun other instr hinstr t ht ti hti => ?_) hanswered
    (fun id i hi => nodup_targeted (hc.once id i hi)) fun id i hi t ht => ?_
  · exact listed_targeted (Chain.eq_of_get? hfound hinstr) ht
      fun hrefers => hc.noted other instr hinstr t hrefers ti hti
  · rcases mem_references_targeted ht with rfl | hrefers
    · exact Chain.index_lt_of_contains hpresent
    · exact hc.named id i hi t hrefers

/-- The two sides of every reference still agree when a table was replaced. -/
theorem setJumpTable_crossed (hc : chain.Crossed) (h : setJumpTable jumper entries chain = .ok u after) :
    after.Crossed := by
  have hanswered := setJumpTable_answered hc.answered h
  obtain ⟨found, hfound, hpresent, rfl⟩ := setJumpTable_ok h
  refine .of_adjust (fun other instr hinstr t ht ti hti => ?_) hanswered
    (fun id i hi => nodup_tabled (hc.once id i hi)) fun id i hi t ht => ?_
  · exact listed_tabled (Chain.eq_of_get? hfound hinstr) ht
      fun hrefers => hc.noted other instr hinstr t hrefers ti hti
  · rcases mem_references_tabled ht with hentry | hrefers
    · exact Chain.index_lt_of_contains (hpresent t hentry)
    · exact hc.named id i hi t hrefers

/-- The two sides of every reference still agree when all jumpers of an instruction were moved over. -/
theorem retargetAll_crossed (hc : chain.Crossed) (hne : source ≠ dest)
    (h : retargetAll source dest chain = .ok u after) : after.Crossed := by
  have hanswered := retargetAll_answered hc.answered hne h
  obtain ⟨found, hfound, hpresent, rfl⟩ := retargetAll_ok hne h
  refine .of_adjust (fun other instr hinstr t ht ti hti => ?_) hanswered
    (fun id i hi => nodup_movedOver (hc.once id i hi)) fun id i hi t ht => ?_
  · exact listed_movedOver (fun hrefers => hc.noted other instr hinstr source hrefers found hfound) ht
      fun hrefers => hc.noted other instr hinstr t hrefers ti hti
  · rcases mem_references_movedOver ht with rfl | hrefers
    · exact Chain.index_lt_of_contains hpresent
    · exact hc.named id i hi t hrefers

/-- Once its jumpers are moved over, nothing refers to an instruction. -/
theorem retargetAll_unused (hc : chain.Crossed) (hne : source ≠ dest)
    (h : retargetAll source dest chain = .ok u after) (hinstr : after.get? jumper = some instr) :
    source ∉ instr.references := by
  obtain ⟨found, hfound, -, rfl⟩ := retargetAll_ok hne h
  rw [Chain.get?_adjust, Option.map_eq_some_iff] at hinstr
  obtain ⟨before, hbefore, rfl⟩ := hinstr
  intro hrefers
  have hlisted : source ∈ before.references → jumper ∈ found.targetedBy :=
    fun hrefers => hc.noted jumper before hbefore source hrefers found hfound
  rw [references_movedOver_of_listed hlisted, List.mem_map] at hrefers
  obtain ⟨v, -, hv⟩ := hrefers
  exact swap_ne hne v hv

/-! ## Splices -/

/-- A splice puts one more slot behind those there are. -/
theorem insertBefore_size (h : insertBefore anchor instr chain = .ok id after) :
    after.slots.size = chain.slots.size + 1 := by
  obtain ⟨_, c₁, c₂, -, halloc, -, hsize, rfl⟩ := insertBefore_stages h
  exact hsize.trans (allocate_ok halloc).2.2.2.2.2

theorem insertAfter_size (h : insertAfter anchor instr chain = .ok id after) :
    after.slots.size = chain.slots.size + 1 := by
  obtain ⟨_, c₁, c₂, -, halloc, -, hsize, rfl⟩ := insertAfter_stages h
  exact hsize.trans (allocate_ok halloc).2.2.2.2.2

/-- To put an instruction at the end hands out one name. -/
theorem push_size (h : push instr chain = .ok id after) : after.slots.size = chain.slots.size + 1 := by
  simp only [push, bind_ok, get_ok, modify_ok, pure_ok] at h
  obtain ⟨_, _, ⟨-, rfl⟩, new, c₁, halloc, _, c₂, hlink, _, c₃, hprev, _, _, rfl, -, rfl⟩ := h
  obtain ⟨-, rfl⟩ := updateNode_ok.mp hprev
  show (c₂.update new _).slots.size = _
  rw [Chain.size_slots_update, (linkNext_ok hlink).2.2.2.2, (allocate_ok halloc).2.2.2.2.2]

/-- Instructions without references that are put in one after the other leave the two sides of every
reference in agreement, and their names are the next ones that are handed out. -/
theorem insertAll_crossed (hl : chain.Spells (xs ++ anchor :: ys)) (hc : chain.Crossed)
    (hbare : ∀ instr ∈ instrs, instr.Bare) (h : instrs.mapM (insertBefore anchor) chain = .ok ids after) :
    after.Crossed ∧ after.slots.size = chain.slots.size + instrs.length
      ∧ ids = (List.range' chain.slots.size instrs.length).map Handle.mk := by
  induction instrs generalizing chain ids xs with
  | nil =>
    rw [mapM_nil_ok] at h
    obtain ⟨rfl, rfl⟩ := h
    exact ⟨hc, rfl, rfl⟩
  | cons instr instrs ih =>
    rw [mapM_cons_ok] at h
    obtain ⟨new, c, ids', hnew, hrest, rfl⟩ := h
    have hins := insertBefore_inserted hl hnew
    have hsize := insertBefore_size hnew
    have hbehind : c.Spells ((xs ++ [new]) ++ anchor :: ys) := by simpa using hins.spells hl
    obtain ⟨hc', hsize', rfl⟩ := ih hbehind
      (hc.insert hins.name hins.get? hsize (hbare instr (List.mem_cons_self ..)))
      (fun i hi => hbare i (List.mem_cons_of_mem _ hi)) hrest
    refine ⟨hc', ?_, ?_⟩
    · rw [hsize', hsize, List.length_cons]
      omega
    · rw [hins.name, hsize, List.length_cons, List.range'_succ, List.map_cons]

/-- Taking an instruction out of the list, if it is there. -/
theorem unlink_kept (hl : chain.Spells l) (h : unlink id chain = .ok u after) :
    after.Spells (l.filter (· != id)) ∧ (∀ x, after.get? x = chain.get? x)
      ∧ after.slots.size = chain.slots.size := by
  by_cases hid : id ∈ l
  · obtain ⟨xs, ys, rfl⟩ := List.append_of_mem hid
    obtain ⟨hspells, hget⟩ := unlink_spells hl h
    have hrest : (xs ++ id :: ys).filter (· != id) = xs ++ ys := by
      have hnot := hl.not_mem_rest
      rw [List.mem_append, not_or] at hnot
      rw [List.filter_append, List.filter_cons_of_neg (by simp), List.filter_eq_self.mpr,
        List.filter_eq_self.mpr]
      · exact fun x hx => bne_iff_ne.mpr fun he => hnot.2 (he ▸ hx)
      · exact fun x hx => bne_iff_ne.mpr fun he => hnot.1 (he ▸ hx)
    refine ⟨hrest ▸ hspells, hget, ?_⟩
    obtain ⟨node, -, hstages⟩ := unlink_stages h
    rw [if_pos (hl.isLinked_iff.mpr hid)] at hstages
    obtain ⟨c, -, hsize, rfl⟩ := hstages
    exact (Chain.size_slots_update ..).trans hsize
  · -- a detached instruction is left alone
    have hrest : l.filter (· != id) = l :=
      List.filter_eq_self.mpr fun x hx => bne_iff_ne.mpr fun he => hid (he ▸ hx)
    obtain ⟨node, -, hstages⟩ := unlink_stages h
    rw [if_neg fun hlinked => hid (hl.isLinked_iff.mp hlinked)] at hstages
    obtain rfl := hstages
    exact ⟨hrest.symm ▸ hl, fun _ => rfl, rfl⟩

/-- Taking an instruction out for good. -/
theorem free_kept {freed : Instruction} (hl : chain.Spells l) (hc : chain.Crossed)
    (h : free id chain = .ok freed after) :
    after.Spells (l.filter (· != id)) ∧ after.Crossed ∧ after.slots.size = chain.slots.size
      ∧ ∀ x, after.contains x = true ↔ x ≠ id ∧ chain.contains x = true := by
  obtain ⟨c₁, c₂, c₃, was, hunlink, htarget, htable, hfreed, rfl⟩ := free_stages h
  obtain ⟨hspells, hget, hsize⟩ := unlink_kept hl hunlink
  -- it refers to nothing any more when its slot is emptied
  have hc₃ := setJumpTable_crossed (unlinkTarget_crossed (hc.congr hget hsize) htarget) htable
  have hrefs := references_given_up htarget htable hfreed
  obtain ⟨found, -, -, heq₂⟩ := unlinkTarget_ok htarget
  obtain ⟨found', -, -, heq₃⟩ := setJumpTable_ok htable
  have hspells₃ : c₃.Spells (l.filter (· != id)) := by
    rw [heq₃, heq₂]
    exact (hspells.adjust _).adjust _
  have hsize₃ : c₃.slots.size = chain.slots.size := by
    rw [heq₃, heq₂, Chain.size_slots_adjust, Chain.size_slots_adjust, hsize]
  have hcontains : ∀ x, c₃.contains x = chain.contains x := by
    intro x
    rw [heq₃, heq₂, Chain.contains_adjust, Chain.contains_adjust, Chain.contains_eq_isSome_get?, hget,
      Chain.contains_eq_isSome_get?]
  have hnot : id ∉ l.filter (· != id) := by simp
  obtain ⟨hspells', hget'⟩ := spells_without hspells₃ hnot
  refine ⟨hspells', hc₃.without hget' (by simp) hfreed hrefs, by simp [hsize₃], fun x => ?_⟩
  rw [← hcontains, Chain.contains_eq_isSome_get?, Chain.contains_eq_isSome_get?, hget']
  split
  next hx => simp [hx]
  next hx => simp [hx]

/-- Putting instructions in the place of one. -/
theorem replace_kept {freed : Instruction} (hl : chain.Spells (xs ++ old :: ys)) (hc : chain.Crossed)
    (hbare : ∀ instr ∈ instrs, instr.Bare) (h : replace old instrs chain = .ok (ids, freed) after) :
    after.Spells (xs ++ ids ++ ys) ∧ after.Crossed
      ∧ after.slots.size = chain.slots.size + instrs.length
      ∧ ids = (List.range' chain.slots.size instrs.length).map Handle.mk
      ∧ ∀ x, after.contains x = true → x ∈ ids ∨ chain.contains x = true := by
  have hspells := (replace_ok hl h).1.spells
  obtain ⟨first, others, c₂, c₃, held, rfl, hinsert, hretarget, -, hfree⟩ := replace_run h
  obtain ⟨hspells₂, -, hfresh, -, hold⟩ := insertAll_ok hl hinsert
  obtain ⟨hc₂, hsize₂, hnames⟩ := insertAll_crossed hl hc hbare hinsert
  have hne : old ≠ first := by
    rintro rfl
    exact hl.not_mem (hfresh old (List.mem_cons_self ..)) (mem_site_iff.mpr (.inl rfl))
  have htied : c₃.Evolves (fun _ a b => a.Retied b)
      (c₃.adjust (takingOver old first held.referencedBy)) :=
    .of_adjust fun _ _ _ => takingOver_retied
  have hc₄ := (retargetAll_crossed hc₂ hne hretarget).evolve htied (fun _ _ _ h => h.references)
    fun _ _ _ h => h.targetedBy
  have hspells₄ := htied.spells ((retargetAll_relinked hne hretarget).spells hspells₂)
  obtain ⟨-, hc₅, hsize₅, hcontains⟩ := free_kept hspells₄ hc₄ hfree
  obtain ⟨found, -, -, heq⟩ := retargetAll_ok hne hretarget
  refine ⟨hspells, hc₅, ?_, hnames, fun x hx => ?_⟩
  · rw [hsize₅, heq, Chain.size_slots_adjust, Chain.size_slots_adjust, hsize₂]
  · obtain ⟨-, hx⟩ := (hcontains x).mp hx
    rw [heq, Chain.contains_adjust, Chain.contains_adjust, Chain.contains_eq_isSome_get?] at hx
    by_cases hmem : x ∈ first :: others
    · exact .inl hmem
    · rw [hold x hmem, ← Chain.contains_eq_isSome_get?] at hx
      exact .inr hx

end ChainM

end Splice
