import Splice.Proofs.Chain.References
import Splice.Proofs.Chain.Splicing

/-!
# Replacing instructions

`free` takes an instruction out for good, and `replace` puts a sequence in the place of
one. Both leave the rest of the code in place; `replace` turns every reference to the
replaced instruction into one to the first of the sequence (`replace_ok`), and what is
referred to stays `Listed` either way.

`replace` is followed in the stages in which it runs: the new instructions are put in front of
the old one, the first of them takes over its jumpers and the records that point at it
(`HandedOver`), and then the old one gives up its references and its slot is emptied
(`free_stages`). What patched the bytes of the old instruction is not handed on here; it comes
back with the freed instruction, and `TakenOver` says whose it becomes when the caller has
placed it.
-/

namespace Splice.ChainM

variable {chain after : Chain} {xs ys ids : List InstrId} {id anchor old : InstrId}
  {instrs : List Instruction}

/-! ## Insertion -/

/-- Inserting several instructions in front of one, in this order. -/
theorem insertAll_ok (hl : chain.Spells (xs ++ anchor :: ys))
    (h : instrs.mapM (insertBefore anchor) chain = .ok ids after) :
    after.Spells (xs ++ ids ++ anchor :: ys)
      ∧ ids.length = instrs.length
      ∧ (∀ x ∈ ids, chain.get? x = none)
      ∧ (∀ placed ∈ ids.zip instrs, after.get? placed.1 = some placed.2)
      ∧ (∀ x, x ∉ ids → after.get? x = chain.get? x) := by
  induction instrs generalizing chain ids xs with
  | nil =>
    rw [mapM_nil_ok] at h
    obtain ⟨rfl, rfl⟩ := h
    exact ⟨by simpa using hl, rfl, by simp, by simp, fun x _ => rfl⟩
  | cons instr instrs ih =>
    rw [mapM_cons_ok] at h
    obtain ⟨new, c, ids', hnew, hrest, rfl⟩ := h
    obtain ⟨hspells, hget⟩ := insertBefore_spells hl hnew
    have hfresh : chain.get? new = none := by
      rw [(insertBefore_inserted hl hnew).name, Chain.get?_size]
    have hbehind : c.Spells ((xs ++ [new]) ++ anchor :: ys) := by simpa using hspells
    obtain ⟨hspells', hlen, hfresh', hplaced, hold⟩ := ih hbehind hrest
    -- a name given out later was not there when `new` was
    have hne : new ∉ ids' := by
      intro hmem
      have hnone := hfresh' new hmem
      rw [hget, if_pos rfl] at hnone
      cases hnone
    refine ⟨by simpa using hspells', by simp [hlen], ?_, ?_, ?_⟩
    · intro x hx
      rcases List.mem_cons.mp hx with hx | hx
      · exact hx ▸ hfresh
      · have hnone := hfresh' x hx
        rw [hget] at hnone
        split at hnone
        · cases hnone
        · exact hnone
    · intro placed hmem
      rw [List.zip_cons_cons, List.mem_cons] at hmem
      rcases hmem with hfirst | hmem
      · rw [hfirst, hold new hne, hget, if_pos rfl]
      · exact hplaced placed hmem
    · intro x hx
      rw [List.mem_cons, not_or] at hx
      rw [hold x hx.2, hget, if_neg hx.1]

/-- New instructions that refer to nothing. -/
theorem insertAll_listed (hl : chain.Spells (xs ++ anchor :: ys))
    (hlisted : chain.Listed (xs ++ anchor :: ys)) (hrefs : ∀ instr ∈ instrs, instr.references = [])
    (h : instrs.mapM (insertBefore anchor) chain = .ok ids after) :
    after.Listed (xs ++ ids ++ anchor :: ys) := by
  induction instrs generalizing chain ids xs with
  | nil =>
    rw [mapM_nil_ok] at h
    obtain ⟨rfl, rfl⟩ := h
    simpa using hlisted
  | cons instr instrs ih =>
    rw [mapM_cons_ok] at h
    obtain ⟨new, c, ids', hnew, hrest, rfl⟩ := h
    obtain ⟨hspells, hget⟩ := insertBefore_spells hl hnew
    have hfresh : new ∉ xs ++ anchor :: ys := (insertBefore_inserted hl hnew).name ▸ hl.fresh
    have hlisted' : c.Listed ((xs ++ [new]) ++ anchor :: ys) := by
      refine hlisted.insert hget (hrefs instr (List.mem_cons_self ..)) hfresh fun x => ?_
      rw [mem_mid_iff, List.mem_singleton]
    have hbehind : c.Spells ((xs ++ [new]) ++ anchor :: ys) := by simpa using hspells
    have hlisted'' := ih hbehind hlisted' (fun i hi => hrefs i (List.mem_cons_of_mem _ hi)) hrest
    simpa using hlisted''

/-! ## Freeing -/

/-- An instruction that is taken out for good gives up its references before its slot is emptied. -/
theorem free_stages {freed : Instruction} (h : free id chain = .ok freed after) :
    ∃ c₁ c₂ c₃ old, unlink id chain = .ok () c₁ ∧ unlinkTarget id c₁ = .ok old c₂
      ∧ setJumpTable id [] c₂ = .ok () c₃ ∧ c₃.get? id = some freed
      ∧ after = { c₃ with slots := c₃.slots.setIfInBounds id.index none } := by
  simp only [free, bind_ok, instr_ok, modify_ok, pure_ok] at h
  obtain ⟨_, c₁, hunlink, old, c₂, htarget, _, _, htable, _, c₃, ⟨hfreed, rfl⟩, _, _, rfl, rfl, rfl⟩ := h
  exact ⟨c₁, c₂, c₃, old, hunlink, htarget, htable, hfreed, rfl⟩

/-- What was freed is not there any more. -/
theorem free_gone {freed : Instruction} (h : free id chain = .ok freed after) : after.get? id = none := by
  obtain ⟨_, c, _, _, -, -, -, -, rfl⟩ := free_stages h
  rw [Chain.get?, node?_without, if_pos rfl]
  rfl

/-- What these stages leave of every instruction. -/
theorem free_run (hl : chain.Spells (xs ++ id :: ys)) {freed : Instruction}
    (h : free id chain = .ok freed after) :
    ∃ c₁ c₂ c₃ old found found', (∀ x, c₁.get? x = chain.get? x)
      ∧ unlinkTarget id c₁ = .ok old c₂ ∧ setJumpTable id [] c₂ = .ok () c₃
      ∧ c₃.get? id = some freed ∧ after.Spells (xs ++ ys)
      ∧ (∀ x, c₃.get? x
        = (chain.get? x).map fun i => tabled id [] found' x (untargeted id found x i))
      ∧ ∀ x, after.get? x = if x = id then none else c₃.get? x := by
  obtain ⟨c₁, c₂, c₃, old, hunlink, htarget, htable, hfreed, rfl⟩ := free_stages h
  obtain ⟨hspells, hget⟩ := unlink_spells hl hunlink
  obtain ⟨found, hfound, -, heq₂⟩ := unlinkTarget_ok htarget
  obtain ⟨found', hfound', -, heq₃⟩ := setJumpTable_ok htable
  have hspells₃ : c₃.Spells (xs ++ ys) := by
    rw [heq₃, heq₂]
    exact (hspells.adjust _).adjust _
  obtain ⟨hspells', hget'⟩ := spells_without hspells₃ hl.not_mem_rest
  refine ⟨c₁, c₂, c₃, old, found, found', hget, htarget, htable, hfreed, hspells', fun x => ?_, hget'⟩
  rw [heq₃, heq₂, Chain.adjust_adjust, Chain.get?_adjust, hget]

/-- Taking an instruction out for good. -/
theorem free_ok (hl : chain.Spells (xs ++ id :: ys)) {freed : Instruction}
    (h : free id chain = .ok freed after) :
    after.Spells (xs ++ ys) ∧ after.get? id = none
      ∧ chain.Retains (fun _ a b => a.Relinked b ∧ b.target = a.target) (· ≠ id) after
      ∧ (∃ found, chain.get? id = some found ∧ found.Relinked freed)
      ∧ (chain.Listed (xs ++ id :: ys) →
        (∀ jumper ∈ xs ++ ys, ∀ instr, chain.get? jumper = some instr → id ∉ instr.references) →
        after.Listed (xs ++ ys)) := by
  obtain ⟨c₁, c₂, c₃, old, found, found', hget, htarget, htable, hfreed, hspells, hget₃, hget'⟩ :=
    free_run hl h
  refine ⟨hspells, by rw [hget', if_pos rfl], ?_, ?_, fun hlisted hunused => ?_⟩
  · refine .of_map (f := fun x i => tabled id [] found' x (untargeted id found x i))
      (fun x hx => ?_) (fun x i hx hi => ?_)
    · rw [hget', if_neg hx, hget₃]
    · exact ⟨untargeted_relinked.1.trans tabled_relinked.1,
        tabled_relinked.2.trans (untargeted_relinked.2 hx)⟩
  · rw [hget₃, Option.map_eq_some_iff] at hfreed
    obtain ⟨before, hbefore, rfl⟩ := hfreed
    exact ⟨before, hbefore, untargeted_relinked.1.trans tabled_relinked.1⟩
  · have hlisted₁ : c₁.Listed (xs ++ id :: ys) := by
      intro jumper hjumper i hi t ht
      rw [hget] at hi
      obtain ⟨hmem, ti, hti, hby⟩ := hlisted jumper hjumper i hi t ht
      exact ⟨hmem, ti, by rw [hget, hti], hby⟩
    have hlisted₃ := setJumpTable_listed (unlinkTarget_listed hlisted₁ htarget) (by simp) htable
    refine hlisted₃.without hget' (fun jumper hjumper hne i hi => ?_) (fun x => ?_)
    · rw [hget₃, Option.map_eq_some_iff] at hi
      obtain ⟨before, hbefore, rfl⟩ := hi
      rw [references_tabled, if_neg hne, references_untargeted, if_neg hne]
      exact hunused jumper (hl.mem_rest_iff.mpr ⟨hjumper, hne⟩) before hbefore
    · exact hl.mem_rest_iff

/-! ## Replacement -/

/-- The change by which `first` takes over the list `moved` of records that point at `old`. -/
def takingOver (old first : InstrId) (moved : List SymbolId) (x : InstrId) (i : Instruction) :
    Instruction :=
  Chain.only first (fun instr => { instr with referencedBy := instr.referencedBy ++ moved }) x
    (Chain.only old (fun instr => { instr with referencedBy := [] }) x i)

theorem takingOver_retied {first x : InstrId} {moved : List SymbolId} {i : Instruction} :
    i.Retied (takingOver old first moved x i) := by
  unfold takingOver Chain.only
  split <;> split <;> exact ⟨⟨rfl, rfl, rfl, rfl, rfl, rfl⟩, rfl, rfl, rfl⟩

theorem relocs_takingOver {first x : InstrId} {moved : List SymbolId} {i : Instruction} :
    (takingOver old first moved x i).relocs = i.relocs := by
  unfold takingOver Chain.only
  split <;> split <;> rfl

theorem takingOver_ne {first x : InstrId} {moved : List SymbolId} {i : Instruction} (hold : x ≠ old)
    (hfirst : x ≠ first) : takingOver old first moved x i = i := by
  rw [takingOver, Chain.only_ne hold, Chain.only_ne hfirst]

/-- The stages of a replacement. -/
theorem replace_run {freed : Instruction} (h : replace old instrs chain = .ok (ids, freed) after) :
    ∃ first others c₂ c₃ held, ids = first :: others
      ∧ instrs.mapM (insertBefore old) chain = .ok ids c₂
      ∧ retargetAll old first c₂ = .ok () c₃
      ∧ c₃.get? old = some held
      ∧ free old (c₃.adjust (takingOver old first held.referencedBy)) = .ok freed after := by
  unfold replace at h
  cases instrs with
  | nil => exact (throw_ok.mp h).elim
  | cons instr instrs =>
    simp only [bind_ok, instr_ok, update_ok, pure_ok] at h
    obtain ⟨first, c₁, hfirst, others, c₂, hothers, _, _, hretarget, held, c₃, ⟨hheld, rfl⟩, _, _,
      ⟨-, rfl⟩, _, _, ⟨-, rfl⟩, freed', c₅, hfree, heq, rfl⟩ := h
    rw [Prod.mk.injEq] at heq
    obtain ⟨rfl, rfl⟩ := heq
    rw [Chain.adjust_adjust] at hfree
    exact ⟨first, others, c₂, c₃, held, rfl, mapM_cons_ok.mpr ⟨first, c₁, others, hfirst, hothers, rfl⟩,
      hretarget, hheld, hfree⟩

/-- What is put in the place of an instruction has another name. -/
theorem replace_ne {first : InstrId} {others : List InstrId} {freed : Instruction}
    (h : replace old instrs chain = .ok (first :: others, freed) after) : old ≠ first := by
  obtain ⟨_, _, _, _, _, -, hinsert, -⟩ := replace_run h
  cases instrs with
  | nil =>
    obtain ⟨hnil, -⟩ := mapM_nil_ok.mp hinsert
    cases hnil
  | cons instr instrs =>
    obtain ⟨new, _, _, hfirst, -, hcons⟩ := mapM_cons_ok.mp hinsert
    obtain ⟨rfl, -⟩ := List.cons.inj hcons
    obtain ⟨_, _, _, hnode, -⟩ := insertBefore_stages hfirst
    rintro rfl
    have hlt := Chain.index_lt_of_node? hnode
    rw [insertBefore_name hfirst] at hlt
    exact Nat.lt_irrefl _ hlt

/-- What becomes of `before` while `first` takes over from `old`, which is still in its place: of the
ties of the other instructions only their references change, and nothing in `l` refers to `old` any
more. -/
structure HandedOver (before after : Chain) (l : List InstrId) (old first : InstrId) : Prop where
  evolves : before.Evolves (fun x a b => a.Alike b ∧ (x ≠ old → x ≠ first → a.Relinked b)) after
  listed : before.Listed l → after.Listed l
  unused : before.Listed l → ∀ jumper ∈ l, ∀ instr, after.get? jumper = some instr →
    old ∉ instr.references
  targets : before.Listed l →
    before.Evolves (fun x a b => x ∈ l → b.target = a.target.map (swap old first)) after
  relocs : before.Evolves (fun _ a b => b.relocs = a.relocs) after
  records : ∀ found heir, before.get? old = some found → before.get? first = some heir →
    ∃ held, after.get? first = some held
      ∧ held.referencedBy = heir.referencedBy ++ found.referencedBy

/-- The first of the new instructions takes over from the old one in two steps: the jumpers are moved over
to it, and then the records that point at the old one. Neither touches the ties of anything else. -/
theorem handOver_ok {c₂ c₃ : Chain} {l : List InstrId} {first : InstrId} {held : Instruction}
    (hne : old ≠ first) (hfirst : first ∈ l) (hretarget : retargetAll old first c₂ = .ok () c₃)
    (hheld : c₃.get? old = some held) :
    HandedOver c₂ (c₃.adjust (takingOver old first held.referencedBy)) l old first := by
  have hretargeted := retargetAll_relinked hne hretarget
  have htied : c₃.Evolves (fun x a b => a.Retied b ∧ (x ≠ old → x ≠ first → b = a))
      (c₃.adjust (takingOver old first held.referencedBy)) :=
    .of_adjust fun x i _ => ⟨takingOver_retied, takingOver_ne⟩
  refine { evolves := ?_, listed := ?_, unused := ?_, targets := ?_, relocs := ?_, records := ?_ }
  · refine hretargeted.comp (fun x a b c hab hbc => ?_) htied
    exact ⟨hab.alike.trans hbc.1.alike, fun hold hx => hbc.2 hold hx ▸ hab⟩
  · intro hl
    obtain ⟨hlisted, -, -⟩ := retargetAll_listed hl hne hfirst hretarget
    exact hlisted.evolve htied (fun _ _ _ h => h.1.references) (fun _ _ _ h => h.1.targetedBy)
  · intro hl jumper hjumper instr hinstr
    obtain ⟨-, hunused, -⟩ := retargetAll_listed hl hne hfirst hretarget
    obtain ⟨before, hbefore, hretied, -⟩ := htied.get?_of hinstr
    rw [hretied.references]
    exact hunused jumper hjumper before hbefore
  · intro hl
    obtain ⟨-, -, htarget⟩ := retargetAll_listed hl hne hfirst hretarget
    exact htarget.comp (fun x a b c hab hbc hx => hbc.1.target.trans (hab hx)) htied
  · have hrelocs : c₃.Evolves (fun _ a b => b.relocs = a.relocs)
        (c₃.adjust (takingOver old first held.referencedBy)) :=
      .of_adjust fun x i _ => relocs_takingOver
    refine hretargeted.comp (fun x a b c hab hbc => ?_) hrelocs
    rw [hbc, hab]
  · intro found heir hfound hheir
    obtain ⟨found', hfound', hold⟩ := hretargeted.get? hfound
    obtain ⟨heir', hheir', hfirst'⟩ := hretargeted.get? hheir
    refine ⟨{ heir' with referencedBy := heir'.referencedBy ++ held.referencedBy }, ?_, ?_⟩
    · rw [Chain.get?_adjust, hheir', Option.map_some, takingOver, Chain.only_ne hne.symm,
        Chain.only_self]
    · rw [Chain.eq_of_get? hfound' hheld rfl, hold, hfirst']

/-- What a chain is after `ids` took the place of `old` between `xs` and `ys`. -/
structure Replaced (chain after : Chain) (xs : List InstrId) (old : InstrId) (ys ids : List InstrId)
    (instrs : List Instruction) : Prop where
  spells : after.Spells (xs ++ ids ++ ys)
  length : ids.length = instrs.length
  fresh : ∀ x ∈ ids, chain.get? x = none
  gone : after.get? old = none
  placed : ∀ placed ∈ ids.zip instrs, ∃ instr, after.get? placed.1 = some instr
    ∧ placed.2.Alike instr ∧ (ids.head? ≠ some placed.1 → placed.2.Relinked instr)
  kept : chain.Retains (fun _ a b => a.Relinked b) (fun x => x ∉ ids ∧ x ≠ old) after
  listed : chain.Listed (xs ++ old :: ys) → (∀ instr ∈ instrs, instr.references = []) →
    after.Listed (xs ++ ids ++ ys)
  targets : chain.Listed (xs ++ old :: ys) → (∀ instr ∈ instrs, instr.references = []) →
    ∀ first, ids.head? = some first → chain.Retains
      (fun _ a b => b.target = a.target.map (swap old first)) (· ∈ xs ++ ys) after

/-- The first of the sequence takes over what was tied to `old`: the records that point at it at once,
and those that patch it by way of the freed instruction. -/
structure TakenOver (chain after : Chain) (old : InstrId) (ids : List InstrId)
    (instrs : List Instruction) (freed : Instruction) : Prop where
  freed : ∃ found, chain.get? old = some found ∧ freed.relocs = found.relocs
    ∧ ∃ first instr head, ids.head? = some first ∧ instrs.head? = some instr
      ∧ after.get? first = some head ∧ head.relocs = instr.relocs
      ∧ head.referencedBy = instr.referencedBy ++ found.referencedBy

/-- A replacement puts the new instructions, in their order, in the place of the old one, the first of
them taking over whatever was tied to that. The steps are followed in the order in which they are made:
the new instructions are put in front of the old one, the first takes over, and the old one is freed. -/
theorem replace_ok (hl : chain.Spells (xs ++ old :: ys)) {freed : Instruction}
    (h : replace old instrs chain = .ok (ids, freed) after) :
    Replaced chain after xs old ys ids instrs ∧ TakenOver chain after old ids instrs freed := by
  obtain ⟨first, others, c₂, c₃, held, rfl, hinsert, hretarget, hheld, hfree⟩ := replace_run h
  obtain ⟨hspells, hlen, hfresh, hplaced, hold⟩ := insertAll_ok hl hinsert
  -- the names of the sequence are not in the list
  have hnotids : ∀ x ∈ xs ++ old :: ys, x ∉ first :: others := fun x hx hids =>
    hl.not_mem (hfresh x hids) hx
  have hold' : old ∈ xs ++ old :: ys := mem_site_iff.mpr (.inl rfl)
  have hne : old ≠ first := replace_ne h
  have hhanded : HandedOver c₂ _ ((xs ++ first :: others) ++ old :: ys) old first :=
    handOver_ok hne (by simp) hretarget hheld
  obtain ⟨hspells', hgone, hkept, ⟨before, hbefore, hfreed⟩, hlisted⟩ :=
    free_ok (hhanded.evolves.spells hspells) hfree
  have halike : c₂.Retains (fun x a b => a.Alike b ∧ (x ≠ first → a.Relinked b)) (· ≠ old) after := by
    refine (hhanded.evolves.retains _).comp (fun x a b c hx hab hbc => ?_) hkept
    exact ⟨hab.1.trans hbc.1.alike, fun hfirst => (hab.2 hx hfirst).trans hbc.1⟩
  have hlisted₂ : chain.Listed (xs ++ old :: ys) → (∀ instr ∈ instrs, instr.references = []) →
      c₂.Listed (xs ++ first :: others ++ old :: ys) :=
    fun hlisted₀ hrefs => insertAll_listed hl hlisted₀ hrefs hinsert
  refine ⟨⟨hspells', hlen, hfresh, hgone, ?placed, ?kept, ?listed, ?targets⟩, ?taken⟩
  case placed =>
    intro placed hmem
    have hneOld : placed.1 ≠ old := fun he => hnotids old hold' (he ▸ (List.of_mem_zip hmem).1)
    obtain ⟨instr, hinstr, halike, hrelinked⟩ := halike.get? hneOld (hplaced placed hmem)
    exact ⟨instr, hinstr, halike, fun hhead => hrelinked fun he => hhead (he ▸ rfl)⟩
  case kept =>
    have h₂ : chain.Retains (fun _ a b => b = a) (fun x => x ∉ first :: others ∧ x ≠ old) c₂ :=
      .of_get?_eq (fun _ _ => rfl) fun x hx => hold x hx.1
    have h₅ : c₂.Retains (fun _ a b => a.Relinked b) (fun x => x ∉ first :: others ∧ x ≠ old) after := by
      refine halike.mono (fun x a b hx h => h.2 ?_) fun x hx => hx.2
      exact fun he => hx.1 (he ▸ List.mem_cons_self ..)
    exact h₂.comp (fun x a b c _ hab hbc => hab ▸ hbc) h₅
  case listed =>
    intro hlisted₀ hrefs
    have hunused := hhanded.unused (hlisted₂ hlisted₀ hrefs)
    refine hlisted (hhanded.listed (hlisted₂ hlisted₀ hrefs)) fun jumper hjumper => hunused jumper ?_
    exact mem_site_iff.mpr (.inr hjumper)
  case targets =>
    intro hlisted₀ hrefs first' hfirst'
    rw [List.head?_cons, Option.some.injEq] at hfirst'
    subst hfirst'
    have hrest : ∀ x, x ∈ xs ++ ys → x ∉ first :: others ∧ x ≠ old := by
      intro x hx
      exact ⟨hnotids x (hl.mem_rest_iff.mp hx).1, (hl.mem_rest_iff.mp hx).2⟩
    have h₂ : chain.Retains (fun _ a b => b = a) (· ∈ xs ++ ys) c₂ :=
      .of_get?_eq (fun _ _ => rfl) fun x hx => hold x (hrest x hx).1
    have h₄ := (hhanded.targets (hlisted₂ hlisted₀ hrefs)).retains (· ∈ xs ++ ys)
    have h₅ := hkept.mono (fun _ a b _ h => h.2) fun x hx => (hrest x hx).2
    refine (h₂.comp (fun x a b c hx hab hbc => ?_) h₄).comp (fun x a b c _ hab hbc => hbc.trans hab) h₅
    rw [← hab]
    exact hbc (mem_mid_iff.mpr (.inr (mem_site_iff.mpr (.inr hx))))
  case taken =>
    cases instrs with
    | nil => cases hlen
    | cons instr instrs =>
      have hfirst : c₂.get? first = some instr := hplaced (first, instr) (List.mem_cons_self ..)
      obtain ⟨found, hfound, hrelocs⟩ := hhanded.relocs.get?_of hbefore
      obtain ⟨heir, hheir, hheirRelocs⟩ := hhanded.relocs.get? hfirst
      obtain ⟨_, hheir', hrecords⟩ := hhanded.records found instr hfound hfirst
      obtain rfl := Chain.eq_of_get? hheir hheir' rfl
      obtain ⟨head, hhead, hrelinked, -⟩ := hkept.get? hne.symm hheir
      refine ⟨found, ?_, ?_, first, instr, head, rfl, rfl, hhead, ?_, ?_⟩
      · rw [← hold old (hnotids old hold'), hfound]
      · rw [hfreed, ← hrelocs]
      · rw [hrelinked, ← hheirRelocs]
      · rw [hrelinked, ← hrecords]

end Splice.ChainM
