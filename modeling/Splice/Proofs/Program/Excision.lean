import Splice.Proofs.Program.Substitution

/-!
# Excision

Taking an instruction out passes what points at it to its heir: the next instruction of
its function and section, or the one in front (`excise_ok`). What referred to it refers to
the heir, in the code as well as in the redirects.

> `excise_ok`: what the code, the functions and the redirects are after an instruction was taken
> out, and which shift is left to be settled.

The steps are: the checks that can forbid the removal; taking the instruction off the ends of
its block (`shrinkBlock`, which is `moveEnd` at either end) and off the bounds of its function
(`boundedBy`); passing on jumpers, records and redirects (`passOn_ok`); and freeing it. The
blocks are passed over here (`Session.Regraphed`) and followed in
`Splice.Proofs.Program.BlockSplices`. The shift begins at what came next and goes back by the
size of what was taken out.
-/

namespace Splice

/-- The two instructions belong to the same function and section. -/
def Chain.akin (chain : Chain) (found : Instruction) (other : InstrId) : Bool :=
  (chain.get? other).any fun instr => instr.func == found.func && instr.sec == found.sec

theorem Chain.akin_iff {chain : Chain} {found : Instruction} {other : InstrId} :
    chain.akin found other = true
      ↔ ∃ instr, chain.get? other = some instr ∧ instr.func = found.func ∧ instr.sec = found.sec := by
  rw [akin, Option.any_eq_true]
  simp only [Bool.and_eq_true, beq_iff_eq]

namespace EngineM

variable {s t : Session} {id heir : InstrId} {xs ys : List InstrId} {u : Unit}

/-- The instruction that takes over what pointed at `id`. -/
def heir? (chain : Chain) (id : InstrId) : Option InstrId :=
  (chain.node? id).bind fun node => (kin chain node).1 <|> (kin chain node).2

/-- In terms of the list, the neighbours of the same function and section. -/
theorem kin_eq {chain : Chain} {node : Node} (hl : chain.Spells (xs ++ id :: ys))
    (hnode : chain.node? id = some node) :
    kin chain node
      = (ys.head?.filter (chain.akin node.instr), xs.getLast?.filter (chain.akin node.instr)) := by
  have hnext := hl.next?_eq
  have hprev := hl.prev?_eq
  rw [Chain.next?, hnode] at hnext
  rw [Chain.prev?, hnode] at hprev
  rw [← hnext, ← hprev]
  rfl

/-- The heir of an instruction is one of those that stay. -/
theorem heir?_mem {chain : Chain} (hl : chain.Spells (xs ++ id :: ys))
    (h : heir? chain id = some heir) : heir ∈ xs ++ ys := by
  obtain ⟨node, hnode, hheir⟩ := Option.bind_eq_some_iff.mp h
  rw [kin_eq hl hnode] at hheir
  rw [List.mem_append]
  cases hafter : ys.head?.filter (chain.akin node.instr) with
  | some next =>
    rw [hafter] at hheir
    obtain rfl := Option.some.inj hheir
    exact .inr (List.mem_of_head? (Option.filter_eq_some_iff.mp hafter).1)
  | none =>
    rw [hafter] at hheir
    exact .inl (List.mem_of_getLast? (Option.filter_eq_some_iff.mp hheir).1)

/-- An instruction that has neighbours is linked. -/
theorem heir?_linked {chain : Chain} {l : List InstrId} (hl : chain.Spells l)
    (h : heir? chain id = some heir) : id ∈ l := by
  by_cases hid : id ∈ l
  · exact hid
  · obtain ⟨node, hnode, hheir⟩ := Option.bind_eq_some_iff.mp h
    obtain ⟨hprev, hnext⟩ := hl.detached id node hid hnode
    unfold kin at hheir
    rw [hprev, hnext] at hheir
    cases hheir

/-- Passing on what points at an instruction turns references and ties and changes nothing else in
the code. -/
structure PassedOn (s t : Session) (l : List InstrId) (id heir : InstrId) : Prop where
  chain : s.program.chain.Evolves
    (fun x a b => a.Alike b ∧ (x ∈ l → b.target = a.target.map (swap id heir))) t.program.chain
  listed : t.program.chain.Listed l
  unused : ∀ jumper ∈ l, ∀ instr, t.program.chain.get? jumper = some instr → id ∉ instr.references
  functions : t.program.functions = s.program.functions
  redirects : t.program.redirects = s.program.redirects.replace id heir
  bases : t.program.bases = s.program.bases
  config : t.program.config = s.program.config

/-- The stages of passing on: references are turned, and then only ties and redirects change. -/
theorem passOn_retied (h : passOn id heir s = .ok u t) :
    ∃ c, ChainM.retargetAll id heir s.program.chain = .ok () c
      ∧ c.Evolves (fun _ a b => a.Retied b) t.program.chain
      ∧ t.program.functions = s.program.functions
      ∧ t.program.redirects = s.program.redirects.replace id heir
      ∧ t.program.bases = s.program.bases ∧ t.program.config = s.program.config := by
  simp only [passOn, bind_ok, onChain_ok, updateProgram_ok, instr_ok] at h
  obtain ⟨_, _, ⟨c₁, hretarget, rfl⟩, _, s₂, hmove, _, _, rfl, found, _, ⟨-, rfl⟩, _, s₃, hrelocs,
    hrecords⟩ := h
  have h₂ := moveReferences_retied hmove
  have h₃ := Session.Retied.stepRelation.trans
    (updateTies_retied hrelocs fun _ => ⟨⟨rfl, rfl, rfl, rfl, rfl, rfl⟩, rfl, rfl, rfl⟩)
    (Keeps.forM Session.SameCode.stepRelation (fun _ _ => updateSymbol_sameCode) hrecords).retied
  refine ⟨c₁, hretarget, h₂.chain.trans (fun _ _ _ _ => .trans) h₃.chain, h₃.functions.trans h₂.functions, ?_,
    h₃.bases.trans h₂.bases, h₃.config.trans h₂.config⟩
  rw [h₃.redirects]
  show s₂.program.redirects.replace id heir = _
  rw [h₂.redirects]
  rfl

/-- Passing on answers as `PassedOn` says: each jumper of the instruction refers to the heir, and each
record that pointed at it points there. -/
theorem passOn_ok {l : List InstrId} (hlisted : s.program.chain.Listed l) (hne : id ≠ heir)
    (hheir : heir ∈ l) (h : passOn id heir s = .ok u t) : PassedOn s t l id heir := by
  obtain ⟨c₁, hretarget, hties, hfunctions, hredirects, hbases, hconfig⟩ := passOn_retied h
  obtain ⟨hlisted₁, hunused, htarget⟩ := ChainM.retargetAll_listed hlisted hne hheir hretarget
  have hboth := (ChainM.retargetAll_relinked hne hretarget).and htarget
  refine ⟨?_, ?_, ?_, hfunctions, hredirects, hbases, hconfig⟩
  · refine hboth.comp (fun x a b c hab hbc => ?_) hties
    exact ⟨hab.1.alike.trans hbc.alike, fun hx => hbc.target.trans (hab.2 hx)⟩
  · exact hlisted₁.evolve hties (fun _ _ _ h => h.references) (fun _ _ _ h => h.targetedBy)
  · intro jumper hjumper instr hinstr
    obtain ⟨before, hbefore, hretied⟩ := hties.get?_of hinstr
    rw [hretied.references]
    exact hunused jumper hjumper before hbefore

/-- The check of a removal reads only. -/
theorem checkRemovable_regraphed {block : Option BlockId} {instr : Instruction} :
    Keeps Session.Regraphed (checkRemovable block instr) := by
  intro s u t h
  cases block with
  | none => exact Keeps.pure Session.Regraphed.stepRelation () h
  | some block =>
    simp only [checkRemovable, bind_ok] at h
    obtain ⟨found, m, hfound, h⟩ := h
    have hm := onGraph_regraphed hfound
    by_cases hcount : found.count = 1
    · simp only [hcount, if_true, bind_ok, throw_ok] at h
      obtain ⟨_, _, h, -⟩ := h
      exact h.elim
    · by_cases hends : instr.flags.endsBlock = true
      · simp only [hcount, hends, if_false, if_true, throw_ok] at h
      · simp only [hcount, hends, if_false, Bool.false_eq_true, pure_ok] at h
        exact h.2 ▸ hm

/-- Moves an end of a block that is taken away to `heir`; without one the block would be empty. -/
def moveEnd (block : BlockId) (addr : UInt64) (taken : Prop) [Decidable taken] (heir : Option InstrId)
    (put : InstrId → Block → Block) : EngineM Unit :=
  if taken then
    match heir with
    | some heir => onGraph (GraphM.updateBlock block (put heir))
    | none => throw (.emptyBlock addr)
  else
    pure ()

/-- Moving an end of a block changes the graph alone. -/
theorem moveEnd_regraphed {block : BlockId} {addr : UInt64} {taken : Prop} [Decidable taken]
    {heir : Option InstrId} {put : InstrId → Block → Block} :
    Keeps Session.Regraphed (moveEnd block addr taken heir put) := by
  unfold moveEnd
  by_cases htaken : taken
  · rw [if_pos htaken]
    cases heir with
    | some heir => exact onGraph_regraphed
    | none => exact Keeps.throw _
  · rw [if_neg htaken]
    exact Keeps.pure Session.Regraphed.stepRelation ()

/-- A block loses an instruction: each of its ends is moved if it is taken away. -/
theorem shrinkBlock_eq {block : BlockId} {addr : UInt64} {after before : Option InstrId} :
    shrinkBlock block id addr after before = (do
      let found ← onGraph (GraphM.block block)
      onGraph (GraphM.updateBlock block fun block => { block with count := block.count - 1 })
      moveEnd block addr (found.first = id) after fun heir block => { block with first := heir }
      moveEnd block addr (found.last = id) before fun heir block => { block with last := heir }) := by
  refine congrArg (onGraph (GraphM.block block) >>= ·) (funext fun found => congrArg (_ >>= ·) (funext fun _ => ?_))
  unfold moveEnd
  by_cases hfirst : found.first = id
  · rw [if_pos hfirst, if_pos hfirst]
    cases after <;> rfl
  · rw [if_neg hfirst, if_neg hfirst]
    rfl

/-- Shrinking a block changes the graph alone. -/
theorem shrinkBlock_regraphed {block : BlockId} {addr : UInt64} {after before : Option InstrId} :
    Keeps Session.Regraphed (shrinkBlock block id addr after before) := by
  have hr := Session.Regraphed.stepRelation
  rw [shrinkBlock_eq]
  refine Keeps.bind hr onGraph_regraphed fun found => Keeps.bind hr onGraph_regraphed fun _ => ?_
  exact Keeps.bind hr moveEnd_regraphed fun _ => moveEnd_regraphed

/-- The function with other bounds where `id` was one. -/
def boundedBy (id : InstrId) (after before : Option InstrId) (function : Function) : Function :=
  { function with
    first := if function.first = some id then after else function.first
    last := if function.last = some id then before else function.last }

/-- The stages of a removal. -/
theorem excise_run {freed : Instruction} {shift : Shift} (h : excise id s = .ok (freed, shift) t) :
    ∃ found block heir s₂ s₃ s₄ c edited, s.program.chain.node? id = some found
      ∧ blockOf id s = .ok block s
      ∧ checkRemovable block found.instr s = .ok () s₂
      ∧ heir? s.program.chain id = some heir
      ∧ passOn id heir s₂ = .ok () s₃
      ∧ block.forM (shrinkBlock · id found.instr.addr (kin s.program.chain found).1
          (kin s.program.chain found).2) (withOwner s₃ found.instr.func (boundedBy id
            (kin s.program.chain found).1 (kin s.program.chain found).2)) = .ok () s₄
      ∧ ChainM.free id s₄.program.chain = .ok freed c
      ∧ t = s₄.withChain c
      ∧ t.program.jumpersInto [heir] = .ok edited
      ∧ shift = ⟨found.next, found.instr.sec, found.instr.func, (-found.instr.size).toInt64,
          edited⟩ := by
  simp only [excise, bind_ok, node_ok, program_ok] at h
  obtain ⟨found, _, ⟨hfound, rfl⟩, block, s₁, hblock, _, s₂, hcheck, _, _, ⟨rfl, rfl⟩, h⟩ := h
  obtain rfl := blockOf_ok hblock
  rw [(checkRemovable_regraphed hcheck).sameCode.chain] at h
  have hheir : heir? s.program.chain id
      = ((kin s.program.chain found).1 <|> (kin s.program.chain found).2) := by
    rw [heir?, hfound]
    rfl
  cases hkin : ((kin s.program.chain found).1 <|> (kin s.program.chain found).2) with
  | none => simp only [hkin, throw_ok] at h
  | some heir =>
    simp only [hkin, bind_ok, onChain_ok, program_ok, liftResult_ok, pure_ok, Prod.mk.injEq] at h
    obtain ⟨_, s₃, hpass, _, _, howner, _, s₄, hblocks, freed', _, ⟨c, hfree, rfl⟩, _, _, ⟨rfl, rfl⟩,
      edited, _, ⟨hedited, rfl⟩, ⟨rfl, rfl⟩, rfl⟩ := h
    obtain rfl := updateOwner_ok howner
    exact ⟨found, block, heir, s₂, s₃, s₄, c, edited, hfound, hblock, hcheck, hheir.trans hkin, hpass,
      hblocks, hfree, rfl, hedited, rfl⟩

theorem excise_heir {freed : Instruction} {shift : Shift} (h : excise id s = .ok (freed, shift) t) :
    ∃ heir, heir? s.program.chain id = some heir := by
  obtain ⟨_, _, heir, _, _, _, _, _, _, _, _, hheir, -⟩ := excise_run h
  exact ⟨heir, hheir⟩

/-- A removal leaves the neighbours joined, what pointed at the instruction on the heir, and a shift
back by its size. The proof goes through the steps in their order; what each is known to leave feeds
the next. -/
theorem excise_ok {freed : Instruction} {shift : Shift}
    (hl : s.program.chain.Spells (xs ++ id :: ys))
    (hlisted : s.program.chain.Listed (xs ++ id :: ys))
    (h : excise id s = .ok (freed, shift) t) :
    ∃ found heir, s.program.chain.get? id = some found ∧ heir? s.program.chain id = some heir
      ∧ Session.Spliced s t xs [id] ys [] (swap id heir)
      ∧ t.program.functions = (withOwner s found.func (boundedBy id
          (ys.head?.filter (s.program.chain.akin found))
          (xs.getLast?.filter (s.program.chain.akin found)))).program.functions
      ∧ t.program.redirects = s.program.redirects.replace id heir
      ∧ ∃ edited, t.program.jumpersInto [heir] = .ok edited
        ∧ shift = ⟨ys.head?, found.sec, found.func, (-found.size).toInt64, edited⟩ := by
  obtain ⟨node, block, heir, s₂, s₃, s₄, c, edited, hnode, -, hcheck, hheir, hpass, hblocks, hfree, rfl,
    hedited, rfl⟩ := excise_run h
  have hs₂ := (checkRemovable_regraphed hcheck).sameCode
  have hs₄ := (forBlock_regraphed (fun _ => shrinkBlock_regraphed) hblocks).sameCode
  have hfound : s.program.chain.get? id = some node.instr := by rw [Chain.get?, hnode]; rfl
  have hmem := heir?_mem hl hheir
  have hne : id ≠ heir := fun he => hl.not_mem_rest (he ▸ hmem)
  have hmem' : heir ∈ xs ++ id :: ys := mem_site_iff.mpr (.inr hmem)
  have hpassed := passOn_ok (hs₂.chain ▸ hlisted) hne hmem' hpass
  have hchain : s₄.program.chain = s₃.program.chain := by rw [hs₄.chain, chain_withOwner]
  have hevolves := hpassed.chain
  rw [hs₂.chain] at hevolves
  rw [hchain] at hfree
  obtain ⟨hspells, hgone, hkept, -, hlisted'⟩ := ChainM.free_ok (hevolves.spells hl) hfree
  -- the shift begins where the removed instruction was followed, also after its links are gone
  have hnext : node.next = ys.head? := by
    have hnext := hl.next?_eq
    rw [Chain.next?, hnode] at hnext
    exact hnext
  have hrest : ∀ x ∈ xs ++ ys, x ∈ xs ++ id :: ys ∧ x ≠ id := fun x hx => hl.mem_rest_iff.mp hx
  have heq : xs ++ [] ++ ys = xs ++ ys := by rw [List.append_nil]
  refine ⟨node.instr, heir, hfound, hheir, ⟨?_, ?_, ?_, by simp, ?_, ?_, ?_⟩, ?_, ?_, edited, hedited,
    by rw [hnext]⟩
  · rw [heq]
    exact hspells
  · intro hattached x hx
    rw [heq]
    rw [Chain.contains_eq_isSome_get?, Option.isSome_iff_exists] at hx
    obtain ⟨i, hi⟩ := hx
    replace hi : c.get? x = some i := hi
    have hxid : x ≠ id := by
      rintro rfl
      rw [hgone] at hi
      cases hi
    obtain ⟨before, hbefore, -⟩ := hkept.get?_of hxid hi
    obtain ⟨old, hold, -⟩ := hevolves.get?_of hbefore
    have hmem := hattached x (by rw [Chain.contains_eq_isSome_get?, hold]; rfl)
    exact (mem_mid_iff.mp hmem).resolve_left fun he => hxid (List.mem_singleton.mp he)
  · rw [heq]
    exact hlisted' hpassed.listed fun jumper hjumper => hpassed.unused jumper (hrest jumper hjumper).1
  · refine (hevolves.retains (· ∈ xs ++ ys)).comp (fun x a b c hx hab hbc => ?_)
      (hkept.mono (fun _ _ _ _ h => h) fun x hx => (hrest x hx).2)
    exact ⟨hab.1.trans hbc.1.alike, hbc.2.trans (hab.2 (hrest x hx).1)⟩
  · show s₄.program.bases = _
    rw [hs₄.bases, bases_withOwner, hpassed.bases, hs₂.bases]
  · show s₄.program.config = _
    rw [hs₄.config, config_withOwner, hpassed.config, hs₂.config]
  · show s₄.program.functions = _
    rw [hs₄.functions, kin_eq hl hnode]
    exact functions_withOwner_congr (hpassed.functions.trans hs₂.functions)
  · show s₄.program.redirects = _
    rw [hs₄.redirects, redirects_withOwner, hpassed.redirects, hs₂.redirects]

end EngineM

end Splice
