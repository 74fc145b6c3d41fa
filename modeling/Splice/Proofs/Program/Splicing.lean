import Splice.Proofs.Chain.Replacement
import Splice.Proofs.Program.Session
import Splice.Proofs.Redirects

/-!
# Splices

What each splice makes of the code: which chain it leaves, which redirects and which
function bounds, and the shift that it returns. Symbols and blocks are passed over
(`Session.Retied`, `Session.SameCode`).

> `spliceBefore_ok`, `appendAfter_ok`, `spliceAfter_ok`: what the code, the functions and the
> redirects are after an insertion in front of an instruction and behind one, and the shift that
> is left.

The chain is described by the list it spells out and by one relation between old and new
instructions (`Session.Spliced`): what referred to one place refers to where `rename` says. What
is inserted is pointed at its own targets after it is linked, which changes the lists of jumpers
of those and nothing else (`Aimed`).
-/

namespace Splice

/-- Every instruction that is present is in the list. -/
def Chain.Attached (chain : Chain) (l : List InstrId) : Prop :=
  ∀ id, chain.contains id = true → id ∈ l

theorem Chain.Attached.mem {chain : Chain} {l : List InstrId} {id : InstrId} {instr : Instruction}
    (h : chain.Attached l) (hget : chain.get? id = some instr) : id ∈ l :=
  h id (by rw [contains_eq_isSome_get?, hget]; rfl)

/-- A chain of nothing but its instructions has no others. -/
theorem Chain.attached_ofList (instrs : List Instruction) :
    (Chain.ofList instrs).Attached (Chain.ofList instrs).ids := by
  intro id hid
  rw [Chain.contains_eq_isSome_get?, Chain.get?_ofList, Option.isSome_iff_exists] at hid
  obtain ⟨instr, hinstr⟩ := hid
  rw [(Chain.spells_ofList instrs).ids_eq]
  exact List.mem_map.mpr ⟨id.index, List.mem_range.mpr (List.getElem?_eq_some_iff.mp hinstr).1, rfl⟩

/-- No instruction comes to be present outside the list where none comes to be present. -/
theorem Chain.Evolves.attached {r : InstrId → Instruction → Instruction → Prop}
    {chain after : Chain} (h : chain.Evolves r after) {l : List InstrId} (hl : chain.Attached l) :
    after.Attached l := by
  intro id hid
  refine hl id ?_
  rw [contains_eq_isSome_get?] at hid ⊢
  rwa [h.isSome_get?] at hid

/-- The instructions differ in the symbols tied to them, and nothing else in the code differs. -/
structure Session.Retied (s t : Session) : Prop where
  chain : s.program.chain.Evolves (fun _ a b => a.Retied b) t.program.chain
  functions : t.program.functions = s.program.functions
  redirects : t.program.redirects = s.program.redirects
  bases : t.program.bases = s.program.bases
  config : t.program.config = s.program.config

namespace Session

/-- Ties change and stay changed. -/
theorem Retied.stepRelation : StepRelation Retied where
  refl _ := ⟨.refl (fun _ => .refl) _, rfl, rfl, rfl, rfl⟩
  trans h k := ⟨h.chain.trans (fun _ _ _ _ => .trans) k.chain, k.functions.trans h.functions,
    k.redirects.trans h.redirects, k.bases.trans h.bases, k.config.trans h.config⟩

theorem SameCode.retied {s t : Session} (h : SameCode s t) : Retied s t :=
  ⟨h.chain ▸ .refl (fun _ => .refl) _, h.functions, h.redirects, h.bases, h.config⟩

theorem retied_withChain {s : Session} {f : InstrId → Instruction → Instruction}
    (h : ∀ id (instr : Instruction), instr.Retied (f id instr)) :
    Retied s (s.withChain (s.program.chain.adjust f)) :=
  ⟨.of_adjust fun id instr _ => h id instr, rfl, rfl, rfl, rfl⟩

end Session

namespace EngineM

variable {s t : Session} {id anchor new : InstrId} {given : Instruction} {u : Unit}

/-! ## Ties -/

/-- A change of ties changes nothing else. -/
theorem updateTies_retied {f : Instruction → Instruction} (h : updateInstr id f s = .ok u t)
    (hf : ∀ instr : Instruction, instr.Retied (f instr)) : Session.Retied s t := by
  rw [updateInstr_ok] at h
  rw [h.2]
  refine Session.retied_withChain fun x i => ?_
  unfold Chain.only
  split
  · exact hf i
  · exact .refl i

theorem repointSymbols_sameCode {symbols : List SymbolId} {source dest : InstrId} {delta : Int64} :
    Keeps Session.SameCode (repointSymbols symbols source dest delta) :=
  Keeps.forM Session.SameCode.stepRelation fun _ _ => updateSymbol_sameCode

/-- Handing jumpers on changes ties alone. -/
theorem moveReferences_retied {source dest : InstrId} :
    Keeps Session.Retied (moveReferences source dest) := by
  intro s u t h
  simp only [moveReferences, bind_ok, instr_ok] at h
  obtain ⟨_, _, ⟨-, rfl⟩, _, _, ⟨-, rfl⟩, found, _, ⟨-, rfl⟩, _, s₁, hclear, _, s₂, hpoint, hnote⟩ := h
  have h₁ := updateTies_retied hclear fun _ => ⟨⟨rfl, rfl, rfl, rfl, rfl, rfl⟩, rfl, rfl, rfl⟩
  have h₂ := (repointSymbols_sameCode hpoint).retied
  have h₃ := updateTies_retied hnote fun _ => ⟨⟨rfl, rfl, rfl, rfl, rfl, rfl⟩, rfl, rfl, rfl⟩
  exact Session.Retied.stepRelation.trans h₁ (Session.Retied.stepRelation.trans h₂ h₃)

/-! ## Targets -/

/-- What pointing a spliced instruction at its targets does to the chain. -/
structure Aimed (id : InstrId) (chain after : Chain) : Prop where
  evolves : chain.Evolves (fun x a b => a.Relinked b ∧ (x ≠ id → b.target = a.target)) after
  listed : ∀ l, chain.Attached l → chain.Listed l → after.Listed l

theorem Aimed.refl (id : InstrId) (chain : Chain) : Aimed id chain chain :=
  ⟨.refl (fun _ i => ⟨.refl i, fun _ => rfl⟩) chain, fun _ _ h => h⟩

/-- Pointing an instruction at one target and then at others points it at all. -/
theorem Aimed.trans {a b c : Chain} (hab : Aimed id a b) (hbc : Aimed id b c) : Aimed id a c where
  evolves := hab.evolves.trans
    (fun _ _ _ _ h k => ⟨h.1.trans k.1, fun hx => (k.2 hx).trans (h.2 hx)⟩) hbc.evolves
  listed l hl h := hbc.listed l (hab.evolves.attached hl) (hab.listed l hl h)

/-- Pointing an instruction at its target changes its own target and that one's jumpers. -/
theorem linkTarget_aimed {chain after : Chain} {target : InstrId}
    (h : ChainM.linkTarget id target chain = .ok u after) : Aimed id chain after := by
  obtain ⟨found, -, hpresent, hchain⟩ := ChainM.linkTarget_ok h
  refine ⟨?_, fun l hl hlisted => ChainM.linkTarget_listed hlisted (hl target hpresent) h⟩
  rw [hchain]
  exact .of_adjust fun x i _ => ChainM.targeted_relinked

/-- Giving an instruction its jump table changes its own table and the jumpers of the entries. -/
theorem setJumpTable_aimed {chain after : Chain} {entries : List InstrId}
    (h : ChainM.setJumpTable id entries chain = .ok u after) : Aimed id chain after := by
  obtain ⟨found, -, hpresent, hchain⟩ := ChainM.setJumpTable_ok h
  refine ⟨?_, fun l hl hlisted => ?_⟩
  · rw [hchain]
    exact .of_adjust fun x i _ => ⟨ChainM.tabled_relinked.1, fun _ => ChainM.tabled_relinked.2⟩
  · exact ChainM.setJumpTable_listed hlisted (fun entry hentry => hl entry (hpresent entry hentry)) h

/-- The target comes first and then the table, if there are any. -/
theorem linkInserted_run (h : linkInserted id given s = .ok u t) :
    ∃ middle chain, t = s.withChain chain
      ∧ (given.target = none ∧ middle = s.program.chain
        ∨ ∃ target, given.target = some target
          ∧ ChainM.linkTarget id target s.program.chain = .ok () middle)
      ∧ (chain = middle ∨ ChainM.setJumpTable id given.jumpTable middle = .ok () chain) := by
  -- the table is the last to be set, whether there is a target or not
  have htable : ∀ {m : Session} {u : Unit},
      (if !given.jumpTable.isEmpty then onChain (ChainM.setJumpTable id given.jumpTable)
        else pure ()) m = .ok u t →
      ∃ chain, t = m.withChain chain ∧ (chain = m.program.chain
        ∨ ChainM.setJumpTable id given.jumpTable m.program.chain = .ok () chain) := by
    intro m u h
    split at h
    · obtain ⟨chain, hrun, ht⟩ := onChain_ok.mp h
      exact ⟨chain, ht, .inr hrun⟩
    · exact ⟨m.program.chain, (pure_ok.mp h).2.symm, .inl rfl⟩
  unfold linkInserted at h
  cases hgiven : given.target with
  | none =>
    rw [hgiven] at h
    obtain ⟨chain, ht, hchain⟩ := htable h
    exact ⟨_, chain, ht, .inl ⟨rfl, rfl⟩, hchain⟩
  | some target =>
    rw [hgiven] at h
    simp only [bind_ok, onChain_ok] at h
    obtain ⟨_, _, ⟨middle, hrun, rfl⟩, h⟩ := h
    obtain ⟨chain, ht, hchain⟩ := htable h
    exact ⟨middle, chain, ht, .inr ⟨target, rfl, hrun⟩, hchain⟩

/-- Linking what was inserted points it at its targets and changes nothing else. -/
theorem linkInserted_ok (h : linkInserted id given s = .ok u t) :
    ∃ chain, t = s.withChain chain ∧ Aimed id s.program.chain chain := by
  obtain ⟨middle, chain, ht, hmiddle, hchain⟩ := linkInserted_run h
  have htarget : Aimed id s.program.chain middle := by
    rcases hmiddle with ⟨-, rfl⟩ | ⟨target, -, hrun⟩
    · exact .refl id _
    · exact linkTarget_aimed hrun
  refine ⟨chain, ht, htarget.trans ?_⟩
  rcases hchain with rfl | hrun
  · exact .refl id _
  · exact setJumpTable_aimed hrun

/-! ## Splicing -/

end EngineM

/-- The instructions of a list lie back to back from `addr` to `stop`, in the given section and
function. -/
def Chain.Stacked (chain : Chain) (sec : SectionId) (func : Option FuncId) :
    (addr : UInt64) → List InstrId → (stop : UInt64) → Prop
  | addr, [], stop => addr = stop
  | addr, id :: rest, stop => ∃ instr, chain.get? id = some instr ∧ instr.addr = addr
      ∧ instr.sec = sec ∧ instr.func = func ∧ Stacked chain sec func (addr + instr.size) rest stop

/-- The first of instructions back to back is where they begin. -/
theorem Chain.Stacked.head {chain : Chain} {sec : SectionId} {func : Option FuncId}
    {addr stop : UInt64} {ids : List InstrId} {first : InstrId}
    (h : chain.Stacked sec func addr ids stop) (hfirst : ids.head? = some first) :
    ∃ instr, chain.get? first = some instr ∧ instr.addr = addr := by
  cases ids with
  | nil => cases hfirst
  | cons id ids =>
    obtain rfl := Option.some.inj hfirst
    obtain ⟨instr, hinstr, haddr, -⟩ := h
    exact ⟨instr, hinstr, haddr⟩

/-- Instructions back to back stay so if they keep addresses and sizes. -/
theorem Chain.Stacked.retain {chain after : Chain} {sec : SectionId} {func : Option FuncId}
    {addr stop : UInt64} {ids : List InstrId} (h : chain.Stacked sec func addr ids stop)
    (hr : chain.Retains (fun _ a b => a.Alike b) (· ∈ ids) after) :
    after.Stacked sec func addr ids stop := by
  induction ids generalizing addr with
  | nil => exact h
  | cons id ids ih =>
    obtain ⟨instr, hinstr, haddr, hsec, hfunc, hrest⟩ := h
    obtain ⟨instr', hinstr', halike⟩ := hr.get? (List.mem_cons_self ..) hinstr
    refine ⟨instr', hinstr', halike.addr.trans haddr, halike.sec.trans hsec,
      halike.func.trans hfunc, ?_⟩
    rw [halike.size]
    exact ih hrest (hr.mono (fun _ _ _ _ h => h) fun x hx => List.mem_cons_of_mem _ hx)

/-- What putting `mid` in the place of `site`, between `xs` and `ys`, makes of the code. What referred
to an instruction refers to what `rename` says. -/
structure Session.Spliced (s t : Session) (xs site ys mid : List InstrId)
    (rename : InstrId → InstrId) : Prop where
  spells : t.program.chain.Spells (xs ++ mid ++ ys)
  attached : s.program.chain.Attached (xs ++ site ++ ys) →
    t.program.chain.Attached (xs ++ mid ++ ys)
  listed : t.program.chain.Listed (xs ++ mid ++ ys)
  fresh : ∀ x ∈ mid, s.program.chain.get? x = none
  kept : s.program.chain.Retains (fun _ a b => a.Alike b ∧ b.target = a.target.map rename)
    (· ∈ xs ++ ys) t.program.chain
  bases : t.program.bases = s.program.bases
  config : t.program.config = s.program.config

/-- What an insertion makes of the redirects of its anchor: if jumpers that land on the anchor are to
enter the new instruction, they are led there. -/
def Redirects.Enters (r : Redirects) (anchor new : InstrId) (retarget : Retarget) (after : Redirects) : Prop :=
  (retarget = .inserted → (r.targetOf? anchor).isSome) ∧ after = r
    ∨ retarget = .inserted ∧ r.targetOf? anchor = none ∧ r.redirect anchor new = .ok after

namespace EngineM

/-! ## Insertion -/

/-- What putting one instruction between `xs` and `ys` makes of the code. -/
structure Placed (s t : Session) (xs ys : List InstrId) (new : InstrId) (instr : Instruction) : Prop
    extends Session.Spliced s t xs [] ys [new] id where
  placed : ∃ found, t.program.chain.get? new = some found ∧ instr.Alike found

/-- An insertion, the targets of what was inserted, and the symbols that pass to it. -/
theorem placed_of_aimed {c₁ c₂ : Chain} {xs ys : List InstrId} {instr : Instruction}
    (hl : s.program.chain.Spells (xs ++ ys)) (hattached : s.program.chain.Attached (xs ++ ys))
    (hlisted : s.program.chain.Listed (xs ++ ys)) (hname : new = ⟨s.program.chain.slots.size⟩)
    (hspells : c₁.Spells (xs ++ new :: ys))
    (hget : ∀ x, c₁.get? x = if x = new then some instr else s.program.chain.get? x)
    (hrefs : instr.references = []) (haimed : Aimed new c₁ c₂)
    (hretied : c₂.Evolves (fun _ a b => a.Retied b) t.program.chain)
    (hbases : t.program.bases = s.program.bases) (hconfig : t.program.config = s.program.config) :
    Placed s t xs ys new instr := by
  have hfresh : new ∉ xs ++ ys := hname ▸ hl.fresh
  have hlisted₁ : c₁.Listed (xs ++ new :: ys) := by
    refine hlisted.insert hget hrefs hfresh fun x => ?_
    exact mem_site_iff
  have hattached₁ : c₁.Attached (xs ++ new :: ys) := by
    intro x hx
    rw [Chain.contains_eq_isSome_get?, hget] at hx
    by_cases hnew : x = new
    · simp [hnew]
    · rw [if_neg hnew, ← Chain.contains_eq_isSome_get?] at hx
      exact mem_site_iff.mpr (.inr (hattached x hx))
  have heq : xs ++ [new] ++ ys = xs ++ new :: ys := by simp
  have hnew : c₁.get? new = some instr := by rw [hget, if_pos rfl]
  -- the code is inserted, aimed, and retied; what each of the steps leaves alone is composed
  obtain ⟨i₂, hi₂, hrelinked, -⟩ := haimed.evolves.get? hnew
  obtain ⟨i, hi, hretied'⟩ := hretied.get? hi₂
  refine ⟨⟨?_, ?_, ?_, ?_, ?_, hbases, hconfig⟩, i, hi, hrelinked.alike.trans hretied'.alike⟩
  · rw [heq]
    exact hretied.spells (haimed.evolves.spells hspells)
  · rw [heq]
    exact fun _ => hretied.attached (haimed.evolves.attached hattached₁)
  · rw [heq]
    exact (haimed.listed _ hattached₁ hlisted₁).evolve hretied (fun _ _ _ h => h.references)
      (fun _ _ _ h => h.targetedBy)
  · intro x hx
    rw [List.mem_singleton.mp hx, hname, Chain.get?_size]
  · have h₁ : s.program.chain.Retains (fun _ a b => b = a) (· ∈ xs ++ ys) c₁ :=
      .of_get?_eq (fun _ _ => rfl) fun x hx => by
        have hne : x ≠ new := fun he => hfresh (he ▸ hx)
        rw [hget, if_neg hne]
    have h₂ : s.program.chain.Retains (fun _ a b => a.Alike b ∧ b.target = a.target)
        (· ∈ xs ++ ys) c₂ := by
      refine h₁.comp (fun x a b c hx hab hbc => ?_) (haimed.evolves.retains _)
      rw [hab] at hbc
      exact ⟨hbc.1.alike, hbc.2 fun he => hfresh (he ▸ hx)⟩
    refine h₂.comp (fun x a b c _ hab hbc => ?_) (hretied.retains _)
    rw [Option.map_id_fun, id]
    exact ⟨hab.1.trans hbc.alike, hbc.target.trans hab.2⟩

/-- Looking up the block of an instruction changes nothing. -/
theorem blockOf_ok {id : InstrId} {block : Option BlockId} (h : blockOf id s = .ok block t) : s = t := by
  simp only [blockOf, bind_ok, program_ok] at h
  obtain ⟨_, _, ⟨rfl, rfl⟩, h⟩ := h
  cases hgraph : s.program.graph with
  | none =>
    rw [hgraph] at h
    exact (pure_ok.mp h).2
  | some graph =>
    rw [hgraph] at h
    simp only [bind_ok, liftResult_ok] at h
    obtain ⟨found, _, ⟨-, rfl⟩, h⟩ := h
    cases found with
    | none => exact (throw_ok.mp h).elim
    | some block => exact (pure_ok.mp h).2

/-- Without blocks there is none to be found. -/
theorem blockOf_none {id : InstrId} (hgraph : s.program.graph = none) {block : Option BlockId}
    (h : blockOf id s = .ok block t) : block = none := by
  simp only [blockOf, bind_ok, program_ok] at h
  obtain ⟨_, _, ⟨rfl, rfl⟩, h⟩ := h
  rw [hgraph] at h
  exact (pure_ok.mp h).1.symm

/-- Extending a block in front of an instruction changes the graph alone. -/
theorem extendBlockBefore_regraphed {block : BlockId} {retarget : Retarget} :
    Keeps Session.Regraphed (extendBlockBefore block anchor new retarget) := by
  have hr := Session.Regraphed.stepRelation
  unfold extendBlockBefore
  refine Keeps.bind hr onGraph_regraphed fun before => Keeps.bind hr onGraph_regraphed fun _ => ?_
  split
  · refine Keeps.bind hr onGraph_regraphed fun _ => ?_
    split
    · refine Keeps.bind hr (Keeps.of_state_eq hr fun h => (program_ok.mp h).2.symm) fun _ => ?_
      exact Keeps.bind hr onGraph_regraphed fun _ => count_regraphed
    · exact Keeps.pure hr _
  · exact Keeps.pure hr _

/-- What is done to the block of an edit, if there is one. -/
theorem forBlock_regraphed {block : Option BlockId} {f : BlockId → EngineM PUnit}
    (hf : ∀ block, Keeps Session.Regraphed (f block)) : Keeps Session.Regraphed (block.forM f) := by
  cases block with
  | none => exact Keeps.pure Session.Regraphed.stepRelation ()
  | some block => exact hf block

/-- Changing a block changes the graph alone. -/
theorem updateBlock_regraphed {block : Option BlockId} {f : Block → Block} :
    Keeps Session.Regraphed (updateBlock block f) := by
  cases block with
  | none => exact Keeps.pure Session.Regraphed.stepRelation ()
  | some block => exact onGraph_regraphed

/-- The jumpers of the anchor stay, or they enter what was inserted, with what points at the anchor. -/
theorem enteringJumpers_run {retarget : Retarget} {entering : List InstrId}
    (h : enteringJumpers anchor new retarget s = .ok entering t) :
    (retarget = .inserted → (s.program.redirects.targetOf? anchor).isSome) ∧ t = s
      ∨ retarget = .inserted ∧ s.program.redirects.targetOf? anchor = none
        ∧ ∃ redirects, s.program.redirects.redirect anchor new = .ok redirects
          ∧ moveReferences anchor new { s with program.redirects := redirects } = .ok () t := by
  cases retarget with
  | keep => exact .inl ⟨fun h => (nomatch h), (pure_ok.mp h).2.symm⟩
  | inserted =>
    simp only [enteringJumpers, enterThrough, bind_ok, program_ok, liftResult_ok] at h
    obtain ⟨_, m, ⟨_, _, ⟨rfl, rfl⟩, henter⟩, _, _, ⟨rfl, rfl⟩, -, rfl⟩ := h
    cases htarget : s.program.redirects.targetOf? anchor with
    | some _ =>
      rw [htarget] at henter
      exact .inl ⟨fun _ => rfl, (pure_ok.mp henter).2.symm⟩
    | none =>
      simp only [htarget, Option.isNone_none, if_true, bind_ok, liftResult_ok,
        updateProgram_ok] at henter
      obtain ⟨redirects, _, ⟨hredirect, rfl⟩, _, _, rfl, hmove⟩ := henter
      exact .inr ⟨rfl, rfl, redirects, hredirect, hmove⟩

/-- Whatever an insertion does about the redirects of its anchor, it adds one at most. -/
theorem enteringJumpers_ok {retarget : Retarget} {entering : List InstrId}
    (h : enteringJumpers anchor new retarget s = .ok entering t) :
    s.program.chain.Evolves (fun _ a b => a.Retied b) t.program.chain
      ∧ t.program.functions = s.program.functions ∧ t.program.bases = s.program.bases
      ∧ t.program.config = s.program.config
      ∧ s.program.redirects.Enters anchor new retarget t.program.redirects := by
  rcases enteringJumpers_run h with ⟨hstays, rfl⟩ | ⟨hinserted, htarget, redirects, hredirect, hmove⟩
  · exact ⟨.refl (fun _ => .refl) _, rfl, rfl, rfl, .inl ⟨hstays, rfl⟩⟩
  · have hretied := moveReferences_retied hmove
    refine ⟨hretied.chain, hretied.functions, hretied.bases, hretied.config,
      .inr ⟨hinserted, htarget, ?_⟩⟩
    rw [hretied.redirects]
    exact hredirect

/-- The function with another first instruction, if that was `anchor`. -/
def beginningAt (anchor new : InstrId) (function : Function) : Function :=
  if function.first = some anchor then { function with first := some new } else function

/-- The function with another last instruction, if that was `anchor`. -/
def endingAt (anchor new : InstrId) (function : Function) : Function :=
  if function.last = some anchor then { function with last := some new } else function

/-- The stages of an insertion in front of an instruction. -/
theorem spliceBefore_run {retarget : Retarget} {shift : Shift}
    (h : spliceBefore anchor given retarget s = .ok (new, shift) t) :
    ∃ found block c₁ s₂ s₄ entering s₅, s.program.chain.get? anchor = some found
      ∧ blockOf anchor s = .ok block s
      ∧ ChainM.insertBefore anchor (stampedFor given found.sec found.func found.addr)
          s.program.chain = .ok new c₁
      ∧ linkInserted new given (s.withChain c₁) = .ok () s₂
      ∧ block.forM (extendBlockBefore · anchor new retarget)
          (withOwner s₂ found.func (beginningAt anchor new)) = .ok () s₄
      ∧ enteringJumpers anchor new retarget s₄ = .ok entering s₅
      ∧ t.program = s₅.program
      ∧ shift = ⟨some anchor, found.sec, found.func, given.size.toInt64, new :: entering⟩ := by
  simp only [spliceBefore, bind_ok, instr_ok, onChain_ok] at h
  obtain ⟨found, _, ⟨hfound, rfl⟩, block, s₁, hblock, new', _, ⟨c₁, hinsert, rfl⟩, _, s₂, hlink, _,
    s₃, howner, _, s₄, hextend, entering, s₅, henter, _, s₆, hcount, h⟩ := h
  obtain ⟨heq, rfl⟩ := pure_ok.mp h
  rw [Prod.mk.injEq] at heq
  obtain ⟨rfl, rfl⟩ := heq
  obtain rfl := blockOf_ok hblock
  obtain rfl := updateOwner_ok howner
  exact ⟨found, block, c₁, s₂, s₄, entering, s₅, hfound, hblock, hinsert, hlink, hextend, henter,
    count_program hcount, rfl⟩

theorem spliceBefore_present {retarget : Retarget} {shift : Shift}
    (h : spliceBefore anchor given retarget s = .ok (new, shift) t) :
    ∃ found, s.program.chain.get? anchor = some found := by
  obtain ⟨found, _, _, _, _, _, _, hfound, -⟩ := spliceBefore_run h
  exact ⟨found, hfound⟩

/-- An insertion in front puts the new instruction at the address of the anchor, moves function starts and
redirects as `beginningAt` and `Enters` say, and leaves a shift that begins at the anchor. -/
theorem spliceBefore_ok {xs ys : List InstrId} {retarget : Retarget} {shift : Shift}
    (hl : s.program.chain.Spells (xs ++ anchor :: ys))
    (hattached : s.program.chain.Attached (xs ++ anchor :: ys))
    (hlisted : s.program.chain.Listed (xs ++ anchor :: ys))
    (h : spliceBefore anchor given retarget s = .ok (new, shift) t) :
    ∃ found, s.program.chain.get? anchor = some found
      ∧ Placed s t xs (anchor :: ys) new (stampedFor given found.sec found.func found.addr)
      ∧ t.program.functions = (withOwner s found.func (beginningAt anchor new)).program.functions
      ∧ s.program.redirects.Enters anchor new retarget t.program.redirects
      ∧ ∃ entering, shift
          = ⟨some anchor, found.sec, found.func, given.size.toInt64, new :: entering⟩ := by
  obtain ⟨found, block, c₁, s₂, s₄, entering, s₅, hfound, -, hinsert, hlink, hextend, henter, ht, rfl⟩ :=
    spliceBefore_run h
  obtain ⟨c₂, rfl, haimed⟩ := linkInserted_ok hlink
  have hs₄ := (forBlock_regraphed (fun _ => extendBlockBefore_regraphed) hextend).sameCode
  obtain ⟨hchain, hfunctions, hbases, hconfig, hredirects⟩ := enteringJumpers_ok henter
  -- the chain before the symbols and the function bounds are brought up to date
  have hchain₄ : s₄.program.chain = c₂ := by rw [hs₄.chain, chain_withOwner]; rfl
  have hredirects₄ : s₄.program.redirects = s.program.redirects := by
    rw [hs₄.redirects, redirects_withOwner]
    rfl
  have hins := ChainM.insertBefore_inserted hl hinsert
  refine ⟨found, hfound, placed_of_aimed hl hattached hlisted hins.name (hins.spells hl) hins.get?
    rfl haimed ?_ ?_ ?_, ?_, ?_, entering, rfl⟩
  · rw [ht, ← hchain₄]
    exact hchain
  · rw [ht, hbases, hs₄.bases, bases_withOwner]
    rfl
  · rw [ht, hconfig, hs₄.config, config_withOwner]
    rfl
  · rw [ht, hfunctions, hs₄.functions]
    exact functions_withOwner_congr rfl
  · rw [ht, ← hredirects₄]
    exact hredirects

/-- The block with one instruction more behind its last one, or in front of that. -/
def extendedBehind (anchor new : InstrId) (block : Block) : Block :=
  { block with
    count := block.count + 1
    last := if block.last = anchor then new else block.last }

/-- The stages of an insertion behind an instruction. -/
theorem appendAfter_run {shift : Shift} (h : appendAfter anchor given s = .ok (new, shift) t) :
    ∃ found block c₁ s₂ s₄, s.program.chain.node? anchor = some found
      ∧ blockOf anchor s = .ok block s
      ∧ ChainM.insertAfter anchor
          (stampedFor given found.instr.sec found.instr.func found.instr.endAddr)
          s.program.chain = .ok new c₁
      ∧ linkInserted new given (s.withChain c₁) = .ok () s₂
      ∧ updateBlock block (extendedBehind anchor new)
          (withOwner s₂ found.instr.func (endingAt anchor new)) = .ok () s₄
      ∧ t.program = s₄.program
      ∧ shift = ⟨found.next, found.instr.sec, found.instr.func, given.size.toInt64, [new]⟩ := by
  simp only [appendAfter, bind_ok, node_ok, onChain_ok] at h
  obtain ⟨found, _, ⟨hfound, rfl⟩, block, s₁, hblock, new', _, ⟨c₁, hinsert, rfl⟩, _, s₂, hlink, _,
    s₃, howner, _, s₄, hextend, _, s₅, hcount, h⟩ := h
  obtain ⟨heq, rfl⟩ := pure_ok.mp h
  rw [Prod.mk.injEq] at heq
  obtain ⟨rfl, rfl⟩ := heq
  obtain rfl := blockOf_ok hblock
  obtain rfl := updateOwner_ok howner
  exact ⟨found, block, c₁, s₂, s₄, hfound, hblock, hinsert, hlink, hextend, count_program hcount, rfl⟩

/-- An insertion behind an instruction found it. -/
theorem appendAfter_present {shift : Shift}
    (h : appendAfter anchor given s = .ok (new, shift) t) :
    ∃ found, s.program.chain.get? anchor = some found := by
  obtain ⟨node, _, _, _, _, hnode, -⟩ := appendAfter_run h
  refine ⟨node.instr, ?_⟩
  rw [Chain.get?, hnode]
  rfl

/-- An insertion behind puts the new instruction at the end of the anchor and leaves a shift that begins
at what came next. No jumper is led anywhere else. -/
theorem appendAfter_ok {xs ys : List InstrId} {shift : Shift}
    (hl : s.program.chain.Spells (xs ++ anchor :: ys))
    (hattached : s.program.chain.Attached (xs ++ anchor :: ys))
    (hlisted : s.program.chain.Listed (xs ++ anchor :: ys))
    (h : appendAfter anchor given s = .ok (new, shift) t) :
    ∃ found, s.program.chain.get? anchor = some found
      ∧ Placed s t (xs ++ [anchor]) ys new (stampedFor given found.sec found.func found.endAddr)
      ∧ t.program.functions = (withOwner s found.func (endingAt anchor new)).program.functions
      ∧ t.program.redirects = s.program.redirects
      ∧ shift = ⟨ys.head?, found.sec, found.func, given.size.toInt64, [new]⟩ := by
  obtain ⟨node, block, c₁, s₂, s₄, hnode, -, hinsert, hlink, hextend, ht, rfl⟩ := appendAfter_run h
  obtain ⟨c₂, rfl, haimed⟩ := linkInserted_ok hlink
  have hs₄ := (updateBlock_regraphed hextend).sameCode
  have hfound : s.program.chain.get? anchor = some node.instr := by
    rw [Chain.get?, hnode]
    rfl
  have hnext : node.next = ys.head? := by
    have hnext := hl.next?_eq
    rw [Chain.next?, hnode] at hnext
    exact hnext
  have hins := ChainM.insertAfter_inserted hl hinsert
  have heq : xs ++ anchor :: ys = (xs ++ [anchor]) ++ ys := by simp
  rw [heq] at hl hattached hlisted
  refine ⟨node.instr, hfound, placed_of_aimed hl hattached hlisted hins.name (hins.spells hl)
    hins.get? rfl haimed ?_ ?_ ?_, ?_, ?_, by rw [hnext]⟩
  · have hchain : s₄.program.chain = c₂ := by
      rw [hs₄.chain, chain_withOwner]
      rfl
    rw [ht, hchain]
    exact .refl (fun _ => .refl) _
  · rw [ht, hs₄.bases, bases_withOwner]
    rfl
  · rw [ht, hs₄.config, config_withOwner]
    rfl
  · rw [ht, hs₄.functions]
    exact functions_withOwner_congr rfl
  · rw [ht, hs₄.redirects, redirects_withOwner]
    rfl

/-- The next instruction, if it belongs to the same function and section. -/
def follower? (chain : Chain) (id : InstrId) : Option InstrId :=
  (chain.node? id).bind fun found => (kin chain found).1

/-- An insertion behind is one in front of the follower with jumpers kept, or at the end of a run. -/
theorem spliceAfter_ok {shift : Shift} (h : spliceAfter anchor given s = .ok (new, shift) t) :
    (∃ next, follower? s.program.chain anchor = some next
        ∧ spliceBefore next given .keep s = .ok (new, shift) t)
      ∨ follower? s.program.chain anchor = none ∧ appendAfter anchor given s = .ok (new, shift) t := by
  simp only [spliceAfter, bind_ok, node_ok, program_ok] at h
  obtain ⟨node, _, ⟨hnode, rfl⟩, _, _, ⟨rfl, rfl⟩, h⟩ := h
  have hfollower : follower? s.program.chain anchor = node.next.filter fun next =>
      (s.program.chain.get? next).any fun instr => instr.func == node.instr.func && instr.sec == node.instr.sec := by
    rw [follower?, hnode]
    rfl
  rw [← hfollower] at h
  cases hnext : follower? s.program.chain anchor with
  | none =>
    rw [hnext] at h
    exact .inr ⟨rfl, h⟩
  | some next =>
    rw [hnext] at h
    exact .inl ⟨next, rfl, h⟩

end EngineM

end Splice
