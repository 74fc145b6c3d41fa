import Splice.Proofs.Chain.Bystanders
import Splice.Proofs.Program.BackReferences
import Splice.Proofs.Program.Unwidened

/-!
# One instruction more or less

Where there is no block graph, an insertion and a removal are looked at here as two changes of the
same kind. `Gains` says all that a session is after an instruction was put in, and `Loses` all
that it is after one was taken out that nothing else jumps to and nothing patches: the order of
the code, what the bystanders say, who lists which records, the records, the functions and the
redirects, with the rest the same (`Session.SameSetting`). Both speak of the heir, the
instruction next to the one in question that passes records to it or takes them over.

> `excise_loses`, `spliceBefore_gains`, `appendAfter_gains`: what a removal and the two
> insertions leave.

The statements are long because they are complete: to compare a program with what an insertion
and a removal make of it, it has to be known of every part what became of it
(`Splice.Proofs.Program.Undoing`). That nothing patches what is removed is true of an
instruction that was just inserted; `HandsOver` is the part of the removal that relies on it.
-/

namespace Splice

namespace Session

variable {s t : Session}

theorem SameSetting.trans {u : Session} (h : SameSetting s t) (k : SameSetting t u) : SameSetting s u :=
  SameSetting.stepRelation.trans h k

end Session

namespace EngineM

variable {s t : Session} {xs ys : List InstrId} {id heir anchor new : InstrId} {given : Instruction}
  {u : Unit}

/-! ## Splices without a block graph -/

/-- Changes to the instructions leave all else that an edit may change. -/
theorem onChain_sameSetting {α : Type} {action : ChainM α} : Keeps Session.SameSetting (onChain action) := by
  intro s a t h
  obtain ⟨chain, -, rfl⟩ := onChain_ok.mp h
  exact fun _ => rfl

/-- Linking an instruction leaves functions, redirects and the configuration. -/
theorem linkInserted_sameSetting : Keeps Session.SameSetting (linkInserted new given) := by
  intro s u t h
  obtain ⟨chain, rfl, -⟩ := linkInserted_ok h
  exact fun _ => rfl

/-- Handing jumpers on leaves functions, redirects and the configuration. -/
theorem moveReferences_sameSetting {source dest : InstrId} :
    Keeps Session.SameSetting (moveReferences source dest) := by
  have hr := Session.SameSetting.stepRelation
  refine Keeps.bind hr instr_sameSetting fun _ => Keeps.bind hr instr_sameSetting fun _ => ?_
  refine Keeps.bind hr instr_sameSetting fun _ => Keeps.bind hr updateInstr_sameSetting fun _ => ?_
  refine Keeps.bind hr (Keeps.forM hr fun _ _ => updateSymbol_sameSetting) fun _ => ?_
  exact updateInstr_sameSetting

/-- Choosing which jumpers enter leaves functions, redirects and the configuration. -/
theorem enteringJumpers_sameSetting {retarget : Retarget} :
    Keeps Session.SameSetting (enteringJumpers anchor new retarget) := by
  intro s entering t h
  rcases enteringJumpers_run h with ⟨-, rfl⟩ | ⟨-, -, redirects, -, hmove⟩
  · exact fun _ => rfl
  · have hredirected : Session.SameSetting s { s with program.redirects := redirects } := fun _ => rfl
    exact hredirected.trans (moveReferences_sameSetting hmove)

/-- Passing on what points at an instruction leaves functions, redirects and the configuration. -/
theorem passOn_sameSetting : Keeps Session.SameSetting (passOn id heir) := by
  have hr := Session.SameSetting.stepRelation
  refine Keeps.bind hr onChain_sameSetting fun _ => Keeps.bind hr moveReferences_sameSetting fun _ => ?_
  refine Keeps.bind hr (fun s u t h => ?_) fun _ => Keeps.bind hr instr_sameSetting fun _ => ?_
  · rw [updateProgram_ok.mp h]
    exact fun _ => rfl
  · exact Keeps.bind hr updateInstr_sameSetting fun _ => Keeps.forM hr fun _ _ => updateSymbol_sameSetting

/-- The stages of taking an instruction out where there are no blocks. -/
theorem excise_plain {freed : Instruction} {shift : Shift} (hgraph : s.program.graph = none)
    (h : excise id s = .ok (freed, shift) t) :
    ∃ found heir m c, s.program.chain.node? id = some found
      ∧ heir? s.program.chain id = some heir ∧ passOn id heir s = .ok () m
      ∧ ChainM.free id m.program.chain = .ok freed c
      ∧ t = (withOwner m found.instr.func (boundedBy id (kin s.program.chain found).1
          (kin s.program.chain found).2)).withChain c := by
  obtain ⟨found, block, heir, s₂, s₃, s₄, c, edited, hfound, hblock, hcheck, hheir, hpass, hshrink, hfree,
    rfl, -, -⟩ := excise_run h
  obtain rfl := blockOf_none hgraph hblock
  obtain rfl : s = s₂ := (pure_ok.mp hcheck).2
  obtain rfl := (pure_ok.mp hshrink).2
  exact ⟨found, heir, s₃, c, hfound, hheir, hpass, by rw [chain_withOwner] at hfree; exact hfree, rfl⟩

/-- The session after `id`, which stood between `xs` and `ys`, was taken out and passed on to `heir` what
pointed at it. -/
structure Loses (s t : Session) (xs ys : List InstrId) (id heir : InstrId) (found kept : Instruction) :
    Prop where
  spells : t.program.chain.Spells (xs ++ ys)
  attached : s.program.chain.Attached (xs ++ id :: ys) → t.program.chain.Attached (xs ++ ys)
  gone : t.program.chain.get? id = none
  alike : s.program.chain.Retains (fun _ a b => a.Alike b) (· ∈ xs ++ ys) t.program.chain
  bypasses : s.program.chain.Bypasses t.program.chain id
  ties : ∀ x, t.program.chain.tie? x = if x = id then none else if x = heir then
    some { kept.tie with referencedBy := kept.referencedBy ++ found.referencedBy }
      else s.program.chain.tie? x
  records : ∀ symbol, t.program.symbols.get? symbol = if symbol ∈ found.referencedBy then
      (s.program.symbols.get? symbol).map (·.pointedTo id heir (kept.addr - found.addr).toInt64)
    else s.program.symbols.get? symbol
  functions : t.program.functions = (withOwner s found.func (boundedBy id
    (ys.head?.filter (s.program.chain.akin found))
    (xs.getLast?.filter (s.program.chain.akin found)))).program.functions
  redirects : t.program.redirects = s.program.redirects.replace id heir
  setting : Session.SameSetting s t

/-- Taking records over is no business of any third instruction. -/
theorem takingOver_bypasses {chain : Chain} {symbols : List SymbolId} {source dest : InstrId} (other : InstrId) :
    chain.Bypasses (chain.adjust (ChainM.takingOver source dest symbols)) other := by
  refine .of_adjust fun x i _ => ?_
  unfold ChainM.takingOver Chain.only
  split <;> split <;> exact ⟨rfl, rfl⟩

/-- What an instruction passes on that nothing patches: its jumpers, and the records that it lists. -/
structure HandsOver (s t : Session) (id heir : InstrId) (found kept : Instruction) : Prop where
  spells : ∀ {l}, s.program.chain.Spells l → t.program.chain.Spells l
  bypasses : (∀ jumper ∈ found.targetedBy, jumper = id) → s.program.chain.Bypasses t.program.chain id
  ties : ∀ x, x ≠ id → t.program.chain.tie? x = if x = heir then
    some { kept.tie with referencedBy := kept.referencedBy ++ found.referencedBy }
      else s.program.chain.tie? x
  records : ∀ symbol, t.program.symbols.get? symbol = if symbol ∈ found.referencedBy then
      (s.program.symbols.get? symbol).map (·.pointedTo id heir (kept.addr - found.addr).toInt64)
    else s.program.symbols.get? symbol

/-- An instruction that nothing patches hands over its jumpers and the records that it lists, and keeps
nothing. The jumpers are turned first, the records after that, and neither touches what the other did. -/
theorem passOn_handsOver {found kept : Instruction} (hne : id ≠ heir)
    (hfound : s.program.chain.get? id = some found) (hkept : s.program.chain.get? heir = some kept)
    (hrelocs : found.relocs = []) (h : passOn id heir s = .ok u t) : HandsOver s t id heir found kept := by
  obtain ⟨c₁, s₂, held, hretarget, hmove, hheld, -, hchain, hreleased⟩ := passOn_run hne h
  obtain ⟨a, b, table, ha, hb, hs₂, hpassed⟩ := moveReferences_run hne hmove
  replace ha : c₁.get? id = some a := ha
  have hrelinked := ChainM.retargetAll_relinked hne hretarget
  -- leading the jumpers elsewhere ties nothing else to an instruction
  have hatie : a.tie = found.tie := by
    obtain ⟨_, hget, hab⟩ := hrelinked.get?_of ha
    rw [hab.tie, Option.some.inj (hget.symm.trans hfound)]
  have hbtie : b.tie = kept.tie := by
    obtain ⟨_, hget, hab⟩ := hrelinked.get?_of hb
    rw [hab.tie, Option.some.inj (hget.symm.trans hkept)]
  have hheld' : held.relocs = [] := by
    rw [hs₂] at hheld
    replace hheld : (c₁.adjust (ChainM.takingOver id heir a.referencedBy)).get? id = some held := hheld
    rw [Chain.get?_adjust, ha, Option.map_some, ChainM.takingOver, Chain.only_self, Chain.only_ne hne,
      Option.some.injEq] at hheld
    rw [← hheld]
    exact (congrArg Tie.relocs hatie).trans hrelocs
  refine ⟨fun hl => ?_, fun hself => ?_, fun x hx => ?_, fun symbol => ?_⟩
  · rw [hchain, hs₂]
    exact (Chain.Spells.adjust (hrelinked.spells hl) _).adjust _
  · have h₁ := ChainM.retargetAll_bypasses hne hretarget fun found' hfound' => by
      rw [Option.some.inj (hfound'.symm.trans hfound)]
      exact hself
    have h₂ : c₁.Bypasses s₂.program.chain id := by
      rw [hs₂]
      exact takingOver_bypasses id
    have h₃ : s₂.program.chain.Bypasses t.program.chain id := by
      rw [hchain]
      refine .of_adjust fun x i hx => ?_
      rw [Chain.only_ne hx]
      exact .refl id i
    exact Chain.Bypasses.trans h₁ (h₂.trans h₃)
  · have hties₁ : c₁.tie? = s.program.chain.tie? := (hrelinked.mono fun _ _ _ hab => hab.tie).tie?
    have hties₂ : s₂.program.chain.tie?
        = Ties.passed s.program.chain.tie? id heir found.tie kept.tie := by
      rw [hs₂, ← hatie, ← hbtie, ← hties₁]
      exact tie?_takingOver hne ha hb
    rw [hchain, Chain.tie?_only hheld, Ties.put, if_neg hx, hties₂, Ties.passed_apply hne, if_neg hx]
    rfl
  · rw [hheld'] at hreleased
    rw [hreleased.get?, if_neg List.not_mem_nil, hs₂]
    show table.get? symbol = _
    have hpointers : a.referencedBy = found.referencedBy := congrArg Tie.referencedBy hatie
    have haddr : b.addr = kept.addr := congrArg Tie.addr hbtie
    have haddr' : a.addr = found.addr := congrArg Tie.addr hatie
    rw [hpassed.get?, hpointers, haddr, haddr']
    rfl

/-- A removal of an instruction that nothing patches and that only it jumps to loses it, as `Loses` says
of each place that changes. -/
theorem excise_loses {freed found kept : Instruction} {shift : Shift}
    (hgraph : s.program.graph = none) (hl : s.program.chain.Spells (xs ++ id :: ys))
    (hlisted : s.program.chain.Listed (xs ++ id :: ys)) (hfound : s.program.chain.get? id = some found)
    (hheir : heir? s.program.chain id = some heir) (hkept : s.program.chain.get? heir = some kept)
    (hrelocs : found.relocs = []) (hself : ∀ jumper ∈ found.targetedBy, jumper = id)
    (h : excise id s = .ok (freed, shift) t) :
    Loses s t xs ys id heir found kept
      ∧ shift = ⟨ys.head?, found.sec, found.func, (-found.size).toInt64, shift.edited⟩ := by
  obtain ⟨found', heir', hfound', hheir', hsplice, hfunctions, hredirects, edited, -, rfl⟩ :=
    excise_ok hl hlisted h
  obtain rfl := Option.some.inj (hfound.symm.trans hfound')
  obtain rfl := Option.some.inj (hheir.symm.trans hheir')
  obtain ⟨node, heir', m, c, -, hheir', hpass, hfree, rfl⟩ := excise_plain hgraph h
  obtain rfl := Option.some.inj (hheir.symm.trans hheir')
  have hne : id ≠ heir := by
    rintro rfl
    exact hl.not_mem_rest (heir?_mem hl hheir)
  have hover := passOn_handsOver hne hfound hkept hrelocs hpass
  have hlm := hover.spells hl
  have hnil : xs ++ [] ++ ys = xs ++ ys := by rw [List.append_nil]
  refine ⟨⟨hnil ▸ hsplice.spells, fun hattached => hnil ▸ hsplice.attached ?_, (ChainM.free_ok hlm hfree).2.1,
    hsplice.kept.mono (fun _ _ _ _ hab => hab.1) fun _ hx => hx,
    (hover.bypasses hself).trans (ChainM.free_bypasses hlm hfree), fun x => ?_, fun symbol => ?_,
    hfunctions, hredirects, ?_⟩, rfl⟩
  · simpa using hattached
  · show c.tie? x = _
    rw [ChainM.free_ties hlm hfree, Ties.without]
    by_cases hx : x = id
    · rw [if_pos hx, if_pos hx]
    · rw [if_neg hx, if_neg hx, hover.ties x hx]
  · show (withOwner m _ _).program.symbols.get? symbol = _
    rw [withOwner_untouched.symbols]
    exact hover.records symbol
  · exact (passOn_sameSetting hpass).trans (withOwner_sameSetting.trans fun _ => rfl)

/-- The session after `new` was put in between `xs` and `ys` and took over `passed` of what points at
`heir`, to which it is akin. -/
structure Gains (s t : Session) (xs ys : List InstrId) (new heir : InstrId) (found made : Instruction)
    (passed : List SymbolId) : Prop where
  fresh : s.program.chain.get? new = none
  spells : t.program.chain.Spells (xs ++ new :: ys)
  attached : t.program.chain.Attached (xs ++ new :: ys)
  listed : t.program.chain.Listed (xs ++ new :: ys)
  placed : t.program.chain.get? new = some made
  akin : made.sec = found.sec ∧ made.func = found.func
  near : passed ≠ [] → made.addr = found.addr
  alike : s.program.chain.Retains (fun _ a b => a.Alike b) (· ∈ xs ++ ys) t.program.chain
  bypasses : s.program.chain.Bypasses t.program.chain new
  ties : ∃ left, found.referencedBy = left ++ passed ∧ (left = [] ∨ passed = [])
    ∧ ∀ x, t.program.chain.tie? x = if x = new then some ⟨made.addr, [], passed⟩ else if x = heir then
      some { found.tie with referencedBy := left } else s.program.chain.tie? x
  records : ∀ symbol, t.program.symbols.get? symbol = if symbol ∈ passed then
    (s.program.symbols.get? symbol).map (·.pointedTo heir new 0) else s.program.symbols.get? symbol
  /-- Either the heir comes next, or it is the last of its kind and comes right in front. -/
  functions : ys.head?.filter (s.program.chain.akin found) = some heir ∧ made.addr = found.addr
      ∧ t.program.functions = (withOwner s found.func (beginningAt heir new)).program.functions
    ∨ ys.head?.filter (s.program.chain.akin found) = none
      ∧ xs.getLast?.filter (s.program.chain.akin found) = some heir
      ∧ t.program.functions = (withOwner s found.func (endingAt heir new)).program.functions
  redirects : ∃ retarget, s.program.redirects.Enters heir new retarget t.program.redirects
  setting : Session.SameSetting s t

/-- What was put in without ties and pointed somewhere. -/
theorem linked_beside {chain : Chain} {prev next : Option InstrId} {instr : Instruction}
    (hins : ChainM.Inserted s.program.chain chain prev next instr new) (hrelocs : instr.relocs = [])
    (hpointers : instr.referencedBy = []) (h : linkInserted new given (s.withChain chain) = .ok u t) :
    (∀ x, t.program.chain.tie? x
        = if x = new then some (.free instr.addr) else s.program.chain.tie? x)
      ∧ s.program.chain.Bypasses t.program.chain new ∧ ∃ after, t = s.withChain after := by
  obtain ⟨middle, after, rfl, hmiddle, hafter⟩ := linkInserted_run h
  have hties : after.tie? = chain.tie? := (linkInserted_untouched h).chain.tie?
  have hplaced : s.program.chain.Bypasses chain new := by
    refine .of_get?_eq (fun _ => .refl new) fun x hx => ?_
    rw [hins.get?, if_neg hx]
  have htarget : chain.Bypasses middle new := by
    rcases hmiddle with ⟨-, rfl⟩ | ⟨target, -, hrun⟩
    · exact .refl _ new
    · exact ChainM.linkTarget_bypasses hrun
  have htable : middle.Bypasses after new := by
    rcases hafter with rfl | hrun
    · exact .refl _ new
    · exact ChainM.setJumpTable_bypasses hrun
  refine ⟨fun x => ?_, hplaced.trans (htarget.trans htable), after, rfl⟩
  show after.tie? x = _
  rw [hties, Chain.tie?, hins.get?]
  split
  · rw [Option.map_some, Instruction.tie, hrelocs, hpointers]
    rfl
  · rfl

/-- All that points at the anchor is passed to what was inserted, or nothing is. -/
theorem enteringJumpers_passes {retarget : Retarget} {entering : List InstrId} {a : Tie} (hne : anchor ≠ new)
    (hanchor : s.program.chain.tie? anchor = some a)
    (hnew : s.program.chain.tie? new = some (.free a.addr))
    (h : enteringJumpers anchor new retarget s = .ok entering t) :
    ∃ left passed, a.referencedBy = left ++ passed ∧ (left = [] ∨ passed = [])
      ∧ (∀ x, t.program.chain.tie? x = if x = new then some ⟨a.addr, [], passed⟩ else if x = anchor then
        some { a with referencedBy := left } else s.program.chain.tie? x)
      ∧ s.program.chain.Bypasses t.program.chain new
      ∧ (∀ symbol, t.program.symbols.get? symbol = if symbol ∈ passed then
        (s.program.symbols.get? symbol).map (·.pointedTo anchor new 0) else s.program.symbols.get? symbol)
      ∧ (passed ≠ [] → retarget = .inserted ∧ s.program.redirects.targetOf? anchor = none
        ∧ passed = a.referencedBy) := by
  rcases enteringJumpers_run h with ⟨-, rfl⟩ | ⟨rfl, hfree, redirects, -, hmove⟩
  · refine ⟨a.referencedBy, [], (List.append_nil _).symm, .inr rfl, fun x => ?_, .refl _ new,
      fun _ => (if_neg List.not_mem_nil).symm, fun h => absurd rfl h⟩
    split
    next hx => rw [hx, hnew]; rfl
    next =>
      split
      next hx => rw [hx, hanchor]
      next => rfl
  · obtain ⟨b, c, table, hb, hc, rfl, hrecords⟩ := moveReferences_run hne hmove
    have hbtie : b.tie = a := Option.some.inj ((Chain.tie?_eq hb).symm.trans hanchor)
    have hctie : c.tie = .free a.addr := Option.some.inj ((Chain.tie?_eq hc).symm.trans hnew)
    have hdelta : (c.addr - b.addr).toInt64 = 0 := by
      rw [show c.addr = a.addr from congrArg Tie.addr hctie, show b.addr = a.addr from congrArg Tie.addr hbtie,
        UInt64.sub_self]
      rfl
    have hpointers : b.referencedBy = a.referencedBy := congrArg Tie.referencedBy hbtie
    rw [hdelta, hpointers] at hrecords
    refine ⟨[], a.referencedBy, rfl, .inl rfl, fun x => ?_, takingOver_bypasses new, hrecords.get?,
      fun _ => ⟨rfl, hfree, rfl⟩⟩
    refine (congrFun (tie?_takingOver hne hb hc) x).trans ?_
    rw [Ties.passed_apply hne, hbtie, hctie]
    by_cases hx : x = new
    · rw [if_pos hx, if_neg (fun hx' => hne (hx'.symm.trans hx)), if_pos hx]
      rfl
    · rw [if_neg hx, if_neg hx]

/-- An insertion in front gains an instruction. It takes something over only if jumpers are to enter there
and no redirect leads them on yet. -/
theorem spliceBefore_gains {retarget : Retarget} {found : Instruction} {shift : Shift}
    (hgraph : s.program.graph = none) (hl : s.program.chain.Spells (xs ++ anchor :: ys))
    (hattached : s.program.chain.Attached (xs ++ anchor :: ys))
    (hlisted : s.program.chain.Listed (xs ++ anchor :: ys))
    (hfound : s.program.chain.get? anchor = some found)
    (h : spliceBefore anchor given retarget s = .ok (new, shift) t) :
    ∃ made passed, Gains s t xs (anchor :: ys) new anchor found made passed
      ∧ made.bytes = given.bytes
      ∧ (passed ≠ [] → retarget = .inserted ∧ s.program.redirects.targetOf? anchor = none
        ∧ passed = found.referencedBy)
      ∧ shift = ⟨(anchor :: ys).head?, found.sec, found.func, given.size.toInt64, shift.edited⟩ := by
  obtain ⟨found', hfound', hplaced, hfunctions, henters, entering, rfl⟩ :=
    spliceBefore_ok hl hattached hlisted h
  obtain rfl := Option.some.inj (hfound.symm.trans hfound')
  obtain ⟨found', block, c₁, s₂, s₄, entering', s₅, hfound', hblock, hinsert, hlink, hforBlock, henter, ht, -⟩ :=
    spliceBefore_run h
  obtain rfl := Option.some.inj (hfound.symm.trans hfound')
  obtain rfl := blockOf_none hgraph hblock
  obtain rfl := (pure_ok.mp hforBlock).2
  have hins := ChainM.insertBefore_inserted hl hinsert
  obtain ⟨hties, hbypasses, c₂, rfl⟩ := linked_beside hins rfl rfl hlink
  obtain ⟨made, hmade, halike⟩ := hplaced.placed
  have hfresh : s.program.chain.get? new = none := hplaced.fresh new (List.mem_singleton_self new)
  have hne : anchor ≠ new := by
    rintro rfl
    rw [hfresh] at hfound
    cases hfound
  have hcut : xs ++ [new] ++ anchor :: ys = xs ++ new :: anchor :: ys := by simp
  have hakin : (anchor :: ys).head?.filter (s.program.chain.akin found) = some anchor := by
    have hself : s.program.chain.akin found anchor = true := Chain.akin_iff.mpr ⟨found, hfound, rfl, rfl⟩
    rw [List.head?_cons, Option.filter_some, if_pos hself]
  have hsetting : Session.SameSetting s t :=
    ((linkInserted_sameSetting (s := s.withChain c₁) hlink).trans withOwner_sameSetting).trans
      ((enteringJumpers_sameSetting henter).trans (.of_eq ht))
  have hplace : made.addr = found.addr := halike.addr
  have hties₂ : ∀ x, c₂.tie? x = if x = new then some (.free found.addr) else s.program.chain.tie? x := hties
  -- the anchor and what was put in are where they were while jumpers and symbols change over
  generalize hv : withOwner (s.withChain c₂) found.func (beginningAt anchor new) = v at henter
  have hvchain : v.program.chain = c₂ := hv ▸ chain_withOwner
  have hvsymbols : v.program.symbols = s.program.symbols := hv ▸ withOwner_untouched.symbols
  have hvredirects : v.program.redirects = s.program.redirects := hv ▸ redirects_withOwner
  obtain ⟨left, passed, hsplit, hone, hties', hbeside, hrecords, hwhen⟩ := enteringJumpers_passes hne
    (by rw [hvchain, hties₂, if_neg hne, Chain.tie?_eq hfound]) (by rw [hvchain, hties₂, if_pos rfl]; rfl)
    henter
  rw [← ht, hvchain] at hties' hbeside
  rw [← ht, hvsymbols] at hrecords
  rw [hvredirects] at hwhen
  refine ⟨made, passed, ⟨hfresh, hcut ▸ hplaced.spells, hcut ▸ hplaced.attached (by simpa using hattached),
    hcut ▸ hplaced.listed, hmade, ⟨halike.sec, halike.func⟩, fun _ => hplace,
    hplaced.kept.mono (fun _ _ _ _ hab => hab.1) fun _ hx => hx, hbypasses.trans hbeside,
    ⟨left, hsplit, hone, fun x => ?_⟩, hrecords, .inl ⟨hakin, hplace, hfunctions⟩, ⟨retarget, henters⟩, hsetting⟩,
    halike.bytes, hwhen, rfl⟩
  rw [hties', hties₂, hplace]
  split
  · rfl
  · rfl

/-- An insertion behind an instruction without followers gains one that takes nothing over. -/
theorem appendAfter_gains {found : Instruction} {shift : Shift} (hgraph : s.program.graph = none)
    (hl : s.program.chain.Spells (xs ++ anchor :: ys))
    (hattached : s.program.chain.Attached (xs ++ anchor :: ys))
    (hlisted : s.program.chain.Listed (xs ++ anchor :: ys))
    (hfound : s.program.chain.get? anchor = some found)
    (hfollower : follower? s.program.chain anchor = none)
    (h : appendAfter anchor given s = .ok (new, shift) t) :
    ∃ made, Gains s t (xs ++ [anchor]) ys new anchor found made []
      ∧ made.bytes = given.bytes
      ∧ shift = ⟨ys.head?, found.sec, found.func, given.size.toInt64, shift.edited⟩ := by
  obtain ⟨found', hfound', hplaced, hfunctions, hredirects, hshift⟩ := appendAfter_ok hl hattached hlisted h
  obtain rfl := Option.some.inj (hfound.symm.trans hfound')
  obtain ⟨node, block, c₁, s₂, s₄, hnode, hblock, hinsert, hlink, hupdate, ht, -⟩ := appendAfter_run h
  obtain rfl := blockOf_none hgraph hblock
  obtain rfl := (pure_ok.mp hupdate).2
  have hinstr : node.instr = found := by
    rw [Chain.get?, hnode] at hfound
    exact Option.some.inj hfound
  rw [hinstr] at hinsert
  -- the anchor is the last of its kin, so nothing behind it is led to what is put in
  have hins := ChainM.insertAfter_inserted hl hinsert
  obtain ⟨hties, hbypasses, c₂, rfl⟩ := linked_beside hins rfl rfl hlink
  obtain ⟨made, hmade, halike⟩ := hplaced.placed
  have hfresh : s.program.chain.get? new = none := hplaced.fresh new (List.mem_singleton_self new)
  have hchain : t.program.chain = c₂ := by
    rw [ht]
    exact chain_withOwner
  have hcut : xs ++ [anchor] ++ [new] ++ ys = xs ++ [anchor] ++ new :: ys := by simp
  have hakin : (xs ++ [anchor]).getLast?.filter (s.program.chain.akin found) = some anchor := by
    have hself : s.program.chain.akin found anchor = true := Chain.akin_iff.mpr ⟨found, hfound, rfl, rfl⟩
    rw [List.getLast?_concat, Option.filter_some, if_pos hself]
  have hlast : ys.head?.filter (s.program.chain.akin found) = none := by
    rw [follower?, hnode, Option.bind_some, kin_eq hl hnode, hinstr] at hfollower
    exact hfollower
  have hsetting : Session.SameSetting s t :=
    ((linkInserted_sameSetting (s := s.withChain c₁) hlink).trans withOwner_sameSetting).trans (.of_eq ht)
  refine ⟨made, ⟨hfresh, hcut ▸ hplaced.spells, hcut ▸ hplaced.attached (by simpa using hattached),
    hcut ▸ hplaced.listed, hmade, ⟨halike.sec, halike.func⟩, fun h => absurd rfl h,
    hplaced.kept.mono (fun _ _ _ _ hab => hab.1) fun _ hx => hx, hchain ▸ hbypasses,
    ⟨found.referencedBy, (List.append_nil _).symm, .inr rfl, fun x => ?_⟩, fun symbol => ?_,
    .inr ⟨hlast, hakin, hfunctions⟩, ⟨.keep, .inl ⟨fun h => (by cases h), hredirects⟩⟩, hsetting⟩,
    halike.bytes, by rw [hshift]⟩
  · rw [hchain]
    refine (hties x).trans ?_
    rw [halike.addr]
    split
    · rfl
    · split
      next hx => rw [hx, Chain.tie?_eq hfound]; rfl
      next => rfl
  · rw [ht, withOwner_untouched.symbols, if_neg List.not_mem_nil]
    rfl

end EngineM

end Splice
