import Splice.Proofs.Program.Edits
import Splice.Proofs.Symbol.Ties

/-!
# Edits keep symbols where the code is

A program is `Tracked` if every symbol record is where the instructions are that it is tied to
(`Tied`). Each splice keeps a program tracked, and so does every update (`Follows`): most
of what they do touches no tie (`Untouched`), and the rest is a way of treating ties that
has a lemma of its own in `Splice.Proofs.Symbol.Ties`. Nothing is asked of targets, of back
references or of redirects: symbols follow in programs where those are wrong, too.

The argument `gaps` of `Tracked` says how far behind its instruction each relocation lies, as it
was in the input. It never changes, which is what "stays as far behind" means; a relocation that
is handed on to another instruction is at that one's first byte or at the same distance, as the
tie says.
-/

namespace Splice

theorem Instruction.Relinked.tie {a b : Instruction} (h : a.Relinked b) : b.tie = a.tie := by
  rw [h]
  rfl

namespace Chain

variable {chain after : Chain} {id : InstrId} {instr : Instruction} {tie : Tie}

/-- A step that leaves ties leaves them at every instruction. -/
theorem Evolves.tie? (h : chain.Evolves (fun _ a b => b.tie = a.tie) after) :
    after.tie? = chain.tie? := by
  obtain ⟨f, rfl, hf⟩ := h
  funext id
  rw [Chain.tie?, Chain.tie?, get?_adjust]
  cases hget : chain.get? id with
  | none => rfl
  | some instr =>
    rw [Option.map_some, Option.map_some, Option.map_some, hf id instr hget]

theorem tie?_eq (h : chain.get? id = some instr) : chain.tie? id = some instr.tie := by
  rw [Chain.tie?, h]
  rfl

theorem get?_of_tie? (h : chain.tie? id = some tie) :
    ∃ instr, chain.get? id = some instr ∧ instr.tie = tie :=
  Option.map_eq_some_iff.mp h

theorem tie?_eq_none (h : chain.get? id = none) : chain.tie? id = none := by
  rw [Chain.tie?, h]
  rfl

/-- Changing one instruction changes its tie and no other. -/
theorem tie?_only {f : Instruction → Instruction} (h : chain.get? id = some instr) :
    (chain.adjust (only id f)).tie? = Ties.put chain.tie? id (f instr).tie := by
  funext other
  rw [Chain.tie?, get?_adjust, Ties.put]
  by_cases hother : other = id
  · rw [hother, if_pos rfl, h, Option.map_some, Option.map_some, only_self]
  · have hsame : only id f other = fun instr => instr := funext fun instr => only_ne hother f instr
    rw [if_neg hother, hsame, Option.map_id']
    rfl

end Chain

/-- Each record of a list has been told something, and nothing else has changed. -/
structure SymbolTable.Told (table after : SymbolTable) (symbols : List SymbolId) (f : Symbol → Symbol) :
    Prop where
  runs : after.runs = table.runs
  get? : ∀ symbol, after.get? symbol
    = if symbol ∈ symbols then (table.get? symbol).map f else table.get? symbol

/-- The code of the program is the list `l`, and its symbols are where the instructions are that they
are tied to. -/
structure Program.Tracked (program : Program) (l : List InstrId) (gaps : SymbolId → Option UInt64) :
    Prop where
  spells : program.chain.Spells l
  attached : program.chain.Attached l
  tied : Tied program.chain.tie? program.symbols.get? gaps

/-- No symbol and no tie of an instruction is touched. -/
structure Session.Untouched (s t : Session) : Prop where
  chain : s.program.chain.Evolves (fun _ a b => b.tie = a.tie) t.program.chain
  symbols : t.program.symbols = s.program.symbols

namespace Session

variable {s t : Session}

theorem Untouched.stepRelation : StepRelation Untouched where
  refl s := ⟨Chain.Evolves.refl (fun _ _ => by rfl) s.program.chain, rfl⟩
  trans h k := ⟨h.chain.trans (fun _ _ _ _ hab hbc => hbc.trans hab) k.chain, k.symbols.trans h.symbols⟩

theorem Untouched.of_eq (hchain : t.program.chain = s.program.chain)
    (hsymbols : t.program.symbols = s.program.symbols) : Untouched s t :=
  ⟨by rw [hchain]; exact Chain.Evolves.refl (fun _ _ => by rfl) _, hsymbols⟩

theorem Untouched.trans {u : Session} (h : Untouched s t) (k : Untouched t u) : Untouched s u :=
  stepRelation.trans h k

theorem Regraphed.untouched (h : Regraphed s t) : Untouched s t := by
  obtain ⟨graph, hprogram⟩ := h.program
  refine .of_eq ?_ ?_ <;> rw [hprogram]

end Session

/-- A new instruction that nothing is tied to. -/
theorem ChainM.Inserted.extends_ties {chain after : Chain} {prev next : Option InstrId}
    {instr : Instruction} {new : InstrId} (h : Inserted chain after prev next instr new)
    (hrelocs : instr.relocs = []) (hpointers : instr.referencedBy = []) :
    Ties.Extends chain.tie? after.tie? := by
  intro id
  rw [Chain.tie?, h.get?]
  by_cases hnew : id = new
  · rw [if_pos hnew]
    refine .inr ⟨Chain.tie?_eq_none ?_, instr.addr, ?_⟩
    · rw [hnew, h.name, Chain.get?_size]
    · rw [Option.map_some, Instruction.tie, hrelocs, hpointers]
      rfl
  · rw [if_neg hnew]
    exact .inl rfl

/-- An instruction that is freed takes its tie along and no other. -/
theorem ChainM.free_ties {chain after : Chain} {xs ys : List InstrId} {id : InstrId}
    {freed : Instruction} (hl : chain.Spells (xs ++ id :: ys))
    (h : ChainM.free id chain = .ok freed after) : after.tie? = Ties.without chain.tie? id := by
  obtain ⟨-, hgone, hkept, -, -⟩ := ChainM.free_ok hl h
  funext x
  rw [Ties.without]
  by_cases hx : x = id
  · rw [if_pos hx, hx, Chain.tie?_eq_none hgone]
  · rw [if_neg hx]
    exact rel_map_eq (hkept x hx) fun _ _ hr => hr.1.tie

namespace Program.Tracked

variable {s t : Session} {l xs ys : List InstrId} {gaps : SymbolId → Option UInt64} {id new : InstrId}

/-- What touches neither symbols nor ties keeps track of the records. -/
theorem untouched (h : s.program.Tracked l gaps) (hst : Session.Untouched s t) :
    t.program.Tracked l gaps where
  spells := hst.chain.spells h.spells
  attached := hst.chain.attached h.attached
  tied := by
    rw [hst.chain.tie?, hst.symbols]
    exact h.tied

theorem mem_of_get? (h : s.program.Tracked l gaps) {instr : Instruction}
    (hget : s.program.chain.get? id = some instr) : id ∈ l :=
  h.attached id (by rw [Chain.contains_eq_isSome_get?, hget]; rfl)

/-- What follows stays tied. -/
theorem follow (h : s.program.Tracked l gaps) (hst : Session.Follows s t) :
    t.program.Tracked l gaps where
  spells := hst.chain.spells h.spells
  attached := hst.chain.attached h.attached
  tied := by
    -- an instruction that moves keeps its lists
    have hback : ∀ {id tie'}, t.program.chain.tie? id = some tie' →
        ∃ tie, s.program.chain.tie? id = some tie
          ∧ tie'.relocs = tie.relocs ∧ tie'.referencedBy = tie.referencedBy := by
      intro id tie' hid
      obtain ⟨instr', hinstr', rfl⟩ := Chain.get?_of_tie? hid
      obtain ⟨instr, hinstr, hties⟩ := hst.chain.get?_of hinstr'
      exact ⟨instr.tie, Chain.tie?_eq hinstr, hties.1, hties.2⟩
    refine ⟨h.tied.patches.mono fun hid => ?_, h.tied.pointers.mono fun hid => ?_,
      fun {symbol record'} hrecord' => ?_⟩
    · obtain ⟨tie, htie, hrelocs, -⟩ := hback hid
      exact .inr ⟨tie, htie, hrelocs ▸ List.Sublist.refl _⟩
    · obtain ⟨tie, htie, -, hpointers⟩ := hback hid
      exact .inr ⟨tie, htie, hpointers ▸ List.Sublist.refl _⟩
    · rw [hst.records] at hrecord'
      obtain ⟨record, hrecord, rfl⟩ := Option.map_eq_some_iff.mp hrecord'
      refine (h.tied.record hrecord).drift fun {id tie} hid => ?_
      obtain ⟨instr, hinstr, rfl⟩ := Chain.get?_of_tie? hid
      obtain ⟨instr', hinstr', hties⟩ := hst.chain.get? hinstr
      have honce : ∀ {list : List SymbolId}, list.Nodup → symbol ∈ list →
          UInt64.ofNat (list.count symbol) * (instr'.addr - instr.addr)
            = instr'.addr - instr.addr := by
        intro list hnodup hmem
        rw [hnodup.count, if_pos hmem]
        exact UInt64.one_mul _
      refine ⟨instr'.addr, ?_, fun hmem => ?_, fun hmem => ?_⟩
      · rw [Chain.tie?_eq hinstr', Instruction.tie, Instruction.tie, hties.1, hties.2]
      · rw [Session.pointedDrift, Chain.pointers, hinstr, Chain.addrOf_eq hinstr, Chain.addrOf_eq hinstr']
        exact honce (h.tied.pointers.nodup hid) hmem
      · rw [Session.patchedDrift, Chain.patches, hinstr, Chain.addrOf_eq hinstr, Chain.addrOf_eq hinstr']
        exact honce (h.tied.patches.nodup hid) hmem

/-- A new instruction that nothing is tied to. -/
theorem insert (h : s.program.Tracked (xs ++ ys) gaps) {chain : Chain} {instr : Instruction}
    (hins : ChainM.Inserted s.program.chain chain xs.getLast? ys.head? instr new)
    (hrelocs : instr.relocs = []) (hpointers : instr.referencedBy = []) :
    (s.withChain chain).program.Tracked (xs ++ new :: ys) gaps where
  spells := hins.spells h.spells
  attached := by
    intro id hid
    replace hid : chain.contains id = true := hid
    rw [Chain.contains_eq_isSome_get?, hins.get?] at hid
    by_cases hnew : id = new
    · rw [hnew]
      exact mem_site_iff.mpr (.inl rfl)
    · rw [if_neg hnew, ← Chain.contains_eq_isSome_get?] at hid
      exact mem_site_iff.mpr (.inr (h.attached id hid))
  tied := h.tied.extend (hins.extends_ties hrelocs hpointers)

end Program.Tracked

namespace EngineM

variable {s t : Session} {l xs ys : List InstrId} {gaps : SymbolId → Option UInt64}
  {id anchor new source dest : InstrId} {given : Instruction} {u : Unit}

/-! ## Symbols that pass on -/

/-- A change that does nothing more when it is made again reaches each record of a list once. -/
theorem updateEach_ok {f : Symbol → Symbol} {symbols : List SymbolId}
    (hf : ∀ record, f (f record) = f record)
    (h : symbols.forM (fun symbol => updateSymbol symbol f) s = .ok u t) :
    ∃ table, t = s.withSymbols table ∧ s.program.symbols.Told table symbols f := by
  have hrepeat : ∀ n record, Nat.repeat f (n + 1) record = f record := by
    intro n record
    induction n with
    | zero => rfl
    | succ n ih =>
      show f (Nat.repeat f (n + 1) record) = f record
      rw [ih, hf]
  obtain ⟨table, ht, hruns, -, hget⟩ := updateSymbols_ok h
  refine ⟨table, ht, hruns, fun symbol => ?_⟩
  rw [hget]
  split
  next hmem =>
    obtain ⟨n, hn⟩ := Nat.exists_eq_succ_of_ne_zero (Nat.pos_iff_ne_zero.mp (List.count_pos_iff.mpr hmem))
    rw [hn]
    exact congrArg (fun g => Option.map g _) (funext (hrepeat n))
  next hmem =>
    rw [List.count_eq_zero.mpr hmem]
    show (s.program.symbols.get? symbol).map (fun record => record) = _
    rw [Option.map_id']

/-- Taking records over passes the ties from one instruction to the other. -/
theorem tie?_takingOver {chain : Chain} {a b : Instruction} (hne : source ≠ dest)
    (hsource : chain.get? source = some a) (hdest : chain.get? dest = some b) :
    (chain.adjust (ChainM.takingOver source dest a.referencedBy)).tie?
      = Ties.passed chain.tie? source dest a.tie b.tie := by
  have hdest' : (chain.adjust (Chain.only source fun instr =>
      { instr with referencedBy := [] })).get? dest = some b := by
    rw [Chain.get?_adjust, hdest, Option.map_some, Chain.only_ne hne.symm]
  have hboth : chain.adjust (ChainM.takingOver source dest a.referencedBy)
      = (chain.adjust (Chain.only source fun instr => { instr with referencedBy := [] })).adjust
        (Chain.only dest fun instr =>
          { instr with referencedBy := instr.referencedBy ++ a.referencedBy }) := by
    rw [Chain.adjust_adjust]
    rfl
  rw [hboth, Chain.tie?_only hdest', Chain.tie?_only hsource]
  rfl

/-- Handing jumpers on takes over what the instruction listed and tells each of these records where it
points now. -/
theorem moveReferences_run (hne : source ≠ dest) (h : moveReferences source dest s = .ok u t) :
    ∃ a b table, s.program.chain.get? source = some a ∧ s.program.chain.get? dest = some b
      ∧ t = (s.withChain (s.program.chain.adjust
          (ChainM.takingOver source dest a.referencedBy))).withSymbols table
      ∧ s.program.symbols.Told table a.referencedBy
          (·.pointedTo source dest (b.addr - a.addr).toInt64) := by
  simp only [moveReferences, bind_ok, instr_ok, updateInstr_ok] at h
  obtain ⟨b, _, ⟨hdest, rfl⟩, a, _, ⟨hsource, rfl⟩, _, _, ⟨hsource', rfl⟩, _, _, ⟨-, rfl⟩, _, s₂, hpoint,
    -, rfl⟩ := h
  obtain rfl := Option.some.inj (hsource.symm.trans hsource')
  obtain ⟨table, rfl, htold⟩ := updateEach_ok (fun _ => Symbol.pointedTo_pointedTo hne) hpoint
  refine ⟨a, b, table, hsource, hdest, ?_, htold⟩
  have hchain : ((s.withChain (s.program.chain.adjust
      (Chain.only source fun instr => { instr with referencedBy := [] }))).withSymbols
        table).program.chain.adjust (Chain.only dest fun instr =>
          { instr with referencedBy := instr.referencedBy ++ a.referencedBy })
      = s.program.chain.adjust (ChainM.takingOver source dest a.referencedBy) := Chain.adjust_adjust
  rw [hchain]
  rfl

/-- Handing jumpers on keeps track of the records: each is told by how far its target is away from the old
one. -/
theorem moveReferences_tracked (h : s.program.Tracked l gaps) (hne : source ≠ dest)
    (hrun : moveReferences source dest s = .ok u t) : t.program.Tracked l gaps := by
  have hretied := moveReferences_retied hrun
  obtain ⟨a, b, table, hsource, hdest, rfl, htold⟩ := moveReferences_run hne hrun
  refine ⟨hretied.chain.spells h.spells, hretied.chain.attached h.attached, ?_⟩
  show Tied (s.program.chain.adjust (ChainM.takingOver source dest a.referencedBy)).tie? table.get? gaps
  rw [tie?_takingOver hne hsource hdest]
  exact h.tied.pass hne (Chain.tie?_eq hsource) (Chain.tie?_eq hdest) htold.get?

/-! ## Insertions -/

theorem withOwner_untouched {owner : Option FuncId} {f : Function → Function} :
    Session.Untouched s (withOwner s owner f) := by
  cases owner <;> exact .of_eq rfl rfl

theorem linkInserted_untouched (h : linkInserted id given s = .ok u t) : Session.Untouched s t := by
  obtain ⟨chain, rfl, haimed⟩ := linkInserted_ok h
  exact ⟨haimed.evolves.mono fun _ _ _ h => h.1.tie, rfl⟩

/-- Choosing which jumpers enter keeps track of the records. -/
theorem enteringJumpers_tracked {retarget : Retarget} {entering : List InstrId}
    (h : s.program.Tracked l gaps) (hne : anchor ≠ new)
    (hrun : enteringJumpers anchor new retarget s = .ok entering t) : t.program.Tracked l gaps := by
  rcases enteringJumpers_run hrun with ⟨-, rfl⟩ | ⟨-, -, redirects, -, hmove⟩
  · exact h
  · have h₁ : Program.Tracked { s.program with redirects := redirects } l gaps :=
      ⟨h.spells, h.attached, h.tied⟩
    exact moveReferences_tracked h₁ hne hmove

/-- When the jumpers that enter at the anchor are looked at, what was put in front of it is in place, and no
symbol has been touched. -/
theorem spliceBefore_entered {retarget : Retarget} {shift : Shift} (h : s.program.Tracked l gaps)
    (hrun : spliceBefore anchor given retarget s = .ok (new, shift) t) :
    ∃ m l' entering t', m.program.Tracked l' gaps ∧ m.program.symbols = s.program.symbols
      ∧ anchor ≠ new ∧ enteringJumpers anchor new retarget m = .ok entering t'
      ∧ t.program = t'.program := by
  obtain ⟨found, block, c₁, s₂, s₄, entering, s₅, hfound, -, hinsert, hlink, hextend, henter, ht, -⟩ :=
    spliceBefore_run hrun
  have hanchor := h.mem_of_get? hfound
  obtain ⟨xs, ys, rfl⟩ := List.append_of_mem hanchor
  have hins := ChainM.insertBefore_inserted h.spells hinsert
  have hne : anchor ≠ new := fun he => h.spells.fresh (hins.name ▸ he ▸ hanchor)
  have h₁ := h.insert hins rfl rfl
  have hlinked := linkInserted_untouched hlink
  have hextended := withOwner_untouched.trans
    (forBlock_regraphed (fun _ => extendBlockBefore_regraphed) hextend).untouched
  exact ⟨s₄, _, entering, s₅, (h₁.untouched hlinked).untouched hextended,
    hextended.symbols.trans hlinked.symbols, hne, henter, ht⟩

theorem spliceBefore_tracked {retarget : Retarget} {shift : Shift} (h : s.program.Tracked l gaps)
    (hrun : spliceBefore anchor given retarget s = .ok (new, shift) t) :
    ∃ l', t.program.Tracked l' gaps := by
  obtain ⟨m, l', entering, t', hm, -, hne, henter, ht⟩ := spliceBefore_entered h hrun
  exact ⟨l', ht ▸ enteringJumpers_tracked hm hne henter⟩

/-- An insertion behind ties the new instruction to nothing. -/
theorem appendAfter_tracked {shift : Shift} (h : s.program.Tracked l gaps)
    (hrun : appendAfter anchor given s = .ok (new, shift) t) : ∃ l', t.program.Tracked l' gaps := by
  obtain ⟨node, block, c₁, s₂, s₄, hnode, -, hinsert, hlink, hextend, ht, -⟩ := appendAfter_run hrun
  have hfound : s.program.chain.get? anchor = some node.instr := by
    rw [Chain.get?, hnode]
    rfl
  obtain ⟨xs, ys, rfl⟩ := List.append_of_mem (h.mem_of_get? hfound)
  have hins := ChainM.insertAfter_inserted h.spells hinsert
  have heq : xs ++ anchor :: ys = (xs ++ [anchor]) ++ ys := by simp
  rw [heq] at h
  have h₁ := h.insert hins rfl rfl
  have h₂ := h₁.untouched (linkInserted_untouched hlink)
  have h₄ := h₂.untouched (withOwner_untouched.trans (updateBlock_regraphed hextend).untouched)
  exact ⟨_, ht ▸ h₄⟩

/-! ## Removals -/

/-- The stages of passing on what points at an instruction, which is left without ties. -/
theorem passOn_run {heir : InstrId} (hne : id ≠ heir) (h : passOn id heir s = .ok u t) :
    ∃ c₁ s₂ found, ChainM.retargetAll id heir s.program.chain = .ok () c₁
      ∧ moveReferences id heir (s.withChain c₁) = .ok () s₂
      ∧ s₂.program.chain.get? id = some found ∧ found.referencedBy = []
      ∧ t.program.chain = s₂.program.chain.adjust
          (Chain.only id fun instr => { instr with relocs := [] })
      ∧ s₂.program.symbols.Told t.program.symbols found.relocs
          fun record => { record with reloc := none } := by
  simp only [passOn, bind_ok, onChain_ok, updateProgram_ok, instr_ok, updateInstr_ok] at h
  obtain ⟨_, _, ⟨c₁, hretarget, rfl⟩, _, s₂, hmove, _, _, rfl, found, _, ⟨hfound, rfl⟩, _, _, ⟨-, rfl⟩,
    hrecords⟩ := h
  replace hfound : s₂.program.chain.get? id = some found := hfound
  obtain ⟨table, rfl, htold⟩ :=
    updateEach_ok (f := fun record => { record with reloc := none }) (fun _ => rfl) hrecords
  refine ⟨c₁, s₂, found, hretarget, hmove, hfound, ?_, rfl, htold⟩
  obtain ⟨a, b, _, hsource, -, rfl, -⟩ := moveReferences_run hne hmove
  replace hfound : ((s.withChain c₁).program.chain.adjust _).get? id = some found := hfound
  rw [Chain.get?_adjust, hsource, Option.map_some, ChainM.takingOver, Chain.only_self, Chain.only_ne hne,
    Option.some.injEq] at hfound
  rw [← hfound]

/-- Passing on leaves the instruction with nothing tied to it, and the records tied to its heir. -/
theorem passOn_tracked {heir : InstrId} (h : s.program.Tracked l gaps) (hne : id ≠ heir)
    (hrun : passOn id heir s = .ok u t) : t.program.Tracked l gaps
      ∧ ∃ tie, t.program.chain.tie? id = some tie ∧ tie.relocs = [] ∧ tie.referencedBy = [] := by
  obtain ⟨c₁, s₂, found, hretarget, hmove, hfound, hpointers, hchain, htold⟩ := passOn_run hne hrun
  have h₁ : (s.withChain c₁).program.Tracked l gaps := h.untouched
    ⟨(ChainM.retargetAll_relinked hne hretarget).mono fun _ _ _ h => h.tie, rfl⟩
  have h₂ := moveReferences_tracked h₁ hne hmove
  have htie : t.program.chain.tie?
      = Ties.put s₂.program.chain.tie? id { found.tie with relocs := [] } := by
    rw [hchain]
    exact Chain.tie?_only hfound
  refine ⟨⟨?_, fun x hx => h₂.attached x ?_, ?_⟩, { found.tie with relocs := [] }, ?_, rfl, hpointers⟩
  · rw [hchain]
    exact h₂.spells.adjust _
  · rw [hchain, Chain.contains_adjust] at hx
    exact hx
  · rw [htie]
    exact h₂.tied.release (Chain.tie?_eq hfound) htold.get?
  · rw [htie, Ties.put, if_pos rfl]

/-- A removal keeps track of the records: nothing is tied any more to what goes. -/
theorem excise_tracked {freed : Instruction} {shift : Shift} (h : s.program.Tracked l gaps)
    (hrun : excise id s = .ok (freed, shift) t) : ∃ l', t.program.Tracked l' gaps := by
  obtain ⟨node, block, heir, s₂, s₃, s₄, c, edited, hnode, -, hcheck, hheir, hpass, hblocks, hfree, rfl,
    -, -⟩ := excise_run hrun
  have hfound : s.program.chain.get? id = some node.instr := by rw [Chain.get?, hnode]; rfl
  obtain ⟨xs, ys, rfl⟩ := List.append_of_mem (h.mem_of_get? hfound)
  have hne : id ≠ heir := fun he => h.spells.not_mem_rest (he ▸ heir?_mem h.spells hheir)
  have h₂ := h.untouched (checkRemovable_regraphed hcheck).untouched
  obtain ⟨h₃, tie, htie, hrelocs, hpointers⟩ := passOn_tracked h₂ hne hpass
  have hs₄ := withOwner_untouched.trans
    (forBlock_regraphed (fun _ => shrinkBlock_regraphed) hblocks).untouched
  have h₄ := h₃.untouched hs₄
  obtain ⟨hspells, hgone, hkept, -, -⟩ := ChainM.free_ok h₄.spells hfree
  have hties := ChainM.free_ties h₄.spells hfree
  refine ⟨xs ++ ys, hspells, fun x hx => ?_, ?_⟩
  · replace hx : c.contains x = true := hx
    rw [Chain.contains_eq_isSome_get?, Option.isSome_iff_exists] at hx
    obtain ⟨i, hi⟩ := hx
    have hxid : x ≠ id := by
      rintro rfl
      rw [hgone] at hi
      cases hi
    obtain ⟨before, hbefore, -⟩ := hkept.get?_of hxid hi
    exact h₄.spells.mem_rest_iff.mpr ⟨h₄.mem_of_get? hbefore, hxid⟩
  · show Tied c.tie? s₄.program.symbols.get? gaps
    rw [hties]
    refine h₄.tied.without fun tie' htie' => ?_
    rw [hs₄.chain.tie?, htie] at htie'
    cases htie'
    exact ⟨hrelocs, hpointers⟩

/-! ## Substitutions -/

/-- Taking relocations over adds them to those of the first of the new instructions, and tells each where
it lies now. -/
theorem rehomeRelocations_run {relocs : List SymbolId} {old first : InstrId} (hne : old ≠ first)
    (h : rehomeRelocations relocs old first s = .ok u t) :
    t.program.chain = s.program.chain.adjust
        (Chain.only first fun instr => { instr with relocs := instr.relocs ++ relocs })
      ∧ s.program.symbols.Told t.program.symbols relocs (.rehomed old first) := by
  obtain ⟨_, m, hrecords, hties⟩ := bind_ok.mp h
  obtain ⟨table, rfl, htold⟩ := updateEach_ok (fun _ => Symbol.rehomed_rehomed hne) hrecords
  obtain ⟨-, rfl⟩ := updateInstr_ok.mp hties
  exact ⟨rfl, htold⟩

/-- Nothing is tied to what is put in as it is given. -/
theorem free_of_given {found : Instruction} {given : List Instruction} {instr : Instruction}
    (h : instr ∈ given.map fun instr => stampedFor instr found.sec found.func 0) :
    instr.relocs = [] ∧ instr.referencedBy = [] := by
  obtain ⟨_, _, rfl⟩ := List.mem_map.mp h
  exact ⟨rfl, rfl⟩

/-- Nor is anything tied afterwards to an instruction of the sequence that is not its first. -/
theorem arranged_free {chain c₁ c₂ : Chain} {old x : InstrId} {ids : List InstrId}
    {given : List Instruction} {found : Instruction}
    (hreplaced : ChainM.Replaced chain c₁ xs old ys ids
      (given.map fun instr => stampedFor instr found.sec found.func 0))
    (harranged : Arranged c₁ c₂ found.sec found.func found.addr ids given)
    (hx : x ∈ ids) (hfirst : ids.head? ≠ some x) : ∃ addr, c₂.tie? x = some (.free addr) := by
  obtain ⟨index, hindex⟩ := List.getElem?_of_mem hx
  have hlt : index < (ids.zip (given.map fun instr =>
      stampedFor instr found.sec found.func 0)).length := by
    rw [List.length_zip, ← hreplaced.length, Nat.min_self]
    exact (List.getElem?_eq_some_iff.mp hindex).1
  have hmem := List.getElem_mem hlt
  generalize hplaced : (ids.zip (given.map fun instr =>
    stampedFor instr found.sec found.func 0))[index] = placed at hmem
  obtain rfl : placed.1 = x := by
    rw [← hplaced, List.getElem_zip]
    exact (List.getElem?_eq_some_iff.mp hindex).2
  obtain ⟨i₁, hi₁, -, hrelinked⟩ := hreplaced.placed placed hmem
  obtain ⟨i, hi, hties, -⟩ := harranged.evolves.get? hi₁
  have hsame := (hrelinked hfirst).sameTies
  obtain ⟨hrelocs, hrefs⟩ := free_of_given (List.of_mem_zip hmem).2
  refine ⟨i.addr, ?_⟩
  rw [Chain.tie?_eq hi, Instruction.tie, hties.1, hties.2, hsame.1, hsame.2, hrelocs, hrefs]
  rfl

/-- The instructions that took the place of `old`, seen by the symbols: the first of them is where `old`
was, with what pointed at that, and the others are new. -/
theorem arranged_ties {chain c₁ c₂ : Chain} {old first : InstrId} {ids : List InstrId}
    {given : List Instruction} {freed found head : Instruction}
    (hreplaced : ChainM.Replaced chain c₁ xs old ys ids
      (given.map fun instr => stampedFor instr found.sec found.func 0))
    (htaken : ChainM.TakenOver chain c₁ old ids
      (given.map fun instr => stampedFor instr found.sec found.func 0) freed)
    (harranged : Arranged c₁ c₂ found.sec found.func found.addr ids given)
    (hfound : chain.get? old = some found) (hfirst : ids.head? = some first)
    (hhead : c₂.get? first = some head) :
    freed.relocs = found.relocs ∧ head.tie = { found.tie with relocs := [] }
      ∧ ∀ x, x ≠ first → c₂.tie? x = Ties.without chain.tie? old x
        ∨ Ties.without chain.tie? old x = none ∧ ∃ addr, c₂.tie? x = some (.free addr) := by
  obtain ⟨found', hfound', hrelocs, first', instr, head₁, hfirst', hinstr, hhead₁, hhrelocs, hhrefs⟩ :=
    htaken.freed
  obtain rfl := Option.some.inj (hfirst.symm.trans hfirst')
  obtain rfl := Option.some.inj (hfound.symm.trans hfound')
  obtain ⟨hnorelocs, hnorefs⟩ := free_of_given (List.mem_of_head? hinstr)
  refine ⟨hrelocs, ?_, fun x hx => ?_⟩
  · obtain ⟨head₂, hhead₂, hties, -⟩ := harranged.evolves.get? hhead₁
    obtain rfl := Option.some.inj (hhead.symm.trans hhead₂)
    obtain ⟨head₃, hhead₃, haddr⟩ := harranged.stacked.head hfirst
    obtain rfl := Option.some.inj (hhead.symm.trans hhead₃)
    rw [Instruction.tie, haddr, hties.1, hties.2, hhrelocs, hhrefs, hnorelocs, hnorefs]
    rfl
  rw [Ties.without]
  by_cases hids : x ∈ ids
  · refine .inr ⟨?_, ?_⟩
    · split
      · rfl
      · exact Chain.tie?_eq_none (hreplaced.fresh x hids)
    · refine arranged_free hreplaced harranged hids fun he => hx ?_
      exact (Option.some.inj (hfirst.symm.trans he)).symm
  · refine .inl ?_
    by_cases hold : x = old
    · rw [if_pos hold, hold, Chain.tie?_eq_none (harranged.evolves.get?_eq_none hreplaced.gone)]
    · rw [if_neg hold, Chain.tie?, Chain.tie?]
      have hrel : chain.Retains (fun _ a b => b.tie = a.tie) (fun x => x ∉ ids ∧ x ≠ old) c₂ := by
        refine hreplaced.kept.comp (fun x a b c hx hab hbc => ?_) (harranged.evolves.retains _)
        exact (hbc.2 hx.1).1.tie.trans hab.tie
      exact hrel.map_get? ⟨hids, hold⟩ fun _ _ hr => hr

/-- What a substitution makes of the ties: the first of the sequence takes over those of `old`, and the
records that `old` lists are told. -/
theorem spliceInstead_ties {old : InstrId} {ids : List InstrId} {given : List Instruction}
    {shift : Shift} (hl : s.program.chain.Spells (xs ++ old :: ys))
    (hrun : spliceInstead old given s = .ok (ids, shift) t) :
    ∃ (found : Instruction) (first : InstrId) (pointed : SymbolTable),
      s.program.chain.get? old = some found
      ∧ s.program.chain.get? first = none
      ∧ (Ties.taken s.program.chain.tie? old first found.tie).Extends t.program.chain.tie?
      ∧ s.program.symbols.Told pointed found.referencedBy (·.pointedTo old first 0)
      ∧ pointed.Told t.program.symbols found.relocs (.rehomed old first)
      ∧ t.program.chain.Spells (xs ++ ids ++ ys)
      ∧ (s.program.chain.Attached (xs ++ old :: ys) → t.program.chain.Attached (xs ++ ids ++ ys)) := by
  obtain ⟨found, block, freed, c₁, first, last, s₂, head, s₃, s₄, s₆, hfound, -, hreplace, hfirst, -,
    hplace, hhead, hrepoint, hrehome, hblocks, ht, -⟩ := spliceInstead_run hrun
  obtain ⟨hreplaced, htaken⟩ := ChainM.replace_ok hl hreplace
  obtain ⟨c₂, rfl, harranged⟩ := placeInserted_arranged hreplaced hplace
  replace hhead : c₂.get? first = some head := hhead
  obtain ⟨hrelocs, hheadtie, hothers⟩ := arranged_ties hreplaced htaken harranged hfound hfirst hhead
  have hpointers : head.referencedBy = found.referencedBy := congrArg Tie.referencedBy hheadtie
  have hfresh : s.program.chain.get? first = none := hreplaced.fresh first (List.mem_of_head? hfirst)
  have hne : old ≠ first := by
    rintro rfl
    rw [hfresh] at hfound
    cases hfound
  rw [hpointers] at hrepoint
  rw [hrelocs] at hrehome
  obtain ⟨table, rfl, hpoint⟩ := updateEach_ok (fun _ => Symbol.pointedTo_pointedTo hne) hrepoint
  obtain ⟨hchain₄, htold₄⟩ := rehomeRelocations_run hne hrehome
  replace hchain₄ : s₄.program.chain = c₂.adjust (Chain.only first fun instr =>
    { instr with relocs := instr.relocs ++ found.relocs }) := hchain₄
  -- what comes behind touches neither ties nor symbols
  have hrest : Session.Untouched s₄ t := by
    have hrest := Session.Untouched.trans
      (Session.Untouched.of_eq (s := s₄)
        (t := { s₄ with program.redirects := s₄.program.redirects.replace old first }) rfl rfl)
      (withOwner_untouched.trans (updateBlock_regraphed hblocks).untouched)
    exact hrest.trans (.of_eq (by rw [ht]) (by rw [ht]))
  refine ⟨found, first, table, hfound, hfresh, ?_, hpoint, ?_, hrest.chain.spells ?_,
    fun hattached => hrest.chain.attached ?_⟩
  · rw [hrest.chain.tie?]
    intro x
    rw [hchain₄, Chain.tie?_only hhead, Ties.put, Ties.taken]
    by_cases hx : x = first
    · refine .inl ?_
      rw [if_pos hx, if_pos hx]
      have haddr : head.addr = found.addr := congrArg Tie.addr hheadtie
      have hnone : head.relocs = [] := congrArg Tie.relocs hheadtie
      rw [Instruction.tie, Instruction.tie, haddr, hpointers, hnone, List.nil_append]
    · rw [if_neg hx, if_neg hx]
      exact hothers x hx
  · rw [hrest.symbols]
    exact htold₄
  · rw [hchain₄]
    exact (harranged.evolves.spells hreplaced.spells).adjust _
  · have hattached' := replaced_attached hreplaced hl hattached
    intro x hx
    rw [hchain₄, Chain.contains_adjust] at hx
    exact harranged.evolves.attached hattached' x hx

/-- A substitution keeps track of the records: the relocations go to the first new instruction, and so
does what pointed at the old one. -/
theorem spliceInstead_tracked {old : InstrId} {ids : List InstrId} {given : List Instruction}
    {shift : Shift} (h : s.program.Tracked l gaps)
    (hrun : spliceInstead old given s = .ok (ids, shift) t) : ∃ l', t.program.Tracked l' gaps := by
  obtain ⟨found, hfound⟩ := spliceInstead_present hrun
  obtain ⟨xs, ys, rfl⟩ := List.append_of_mem (h.mem_of_get? hfound)
  obtain ⟨found', first, pointed, hfound', hfresh, hext, hpointed, hrecords, hspells, hattached⟩ :=
    spliceInstead_ties h.spells hrun
  have htied := h.tied.takeOver (Chain.tie?_eq hfound') (Chain.tie?_eq_none hfresh) hpointed.get?
    hrecords.get?
  exact ⟨_, hspells, hattached h.attached, htied.extend hext⟩

end EngineM

end Splice
