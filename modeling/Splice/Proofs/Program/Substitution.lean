import Splice.Proofs.Program.Shift
import Splice.Proofs.Program.Splicing

/-!
# Substitution

A substitution takes an instruction out and puts a sequence in its place, laid out back to
back from where it was. What referred to it refers to the first of the sequence, in the
code as well as in the redirects (`spliceInstead_ok`).

> `spliceInstead_ok`: the new instructions lie back to back where the old one was, in its
> section and function; the first of them takes over what referred to it; bounds of the function
> and redirects follow; and the shift left behind is the difference in bytes.

The instructions are given without addresses and are placed one after the other
(`placeInserted_ok`), which also points each of them at its targets. Relocations that patched
the old instruction patch the first of the new ones, at the offset they had.
-/

namespace Splice.EngineM

variable {s t : Session} {old : InstrId} {ids xs ys : List InstrId} {given : List Instruction}
  {u : Unit}

/-! ## Laying out the sequence -/

/-- What laying out a sequence and pointing it at its targets does to the chain. -/
structure Arranged (chain after : Chain) (sec : SectionId) (func : Option FuncId) (addr : UInt64)
    (ids : List InstrId) (given : List Instruction) : Prop where
  evolves : chain.Evolves
    (fun x a b => a.SameTies b ∧ (x ∉ ids → a.Relinked b ∧ b.target = a.target)) after
  listed : ∀ l, chain.Attached l → chain.Listed l → after.Listed l
  stacked : after.Stacked sec func addr ids (addr + (given.map (·.size)).sum)

/-- Placing instructions lays them out back to back from the address and points each at its targets. By
induction on the list: the first one is placed, and what is done for the rest neither moves it nor takes
its targets away. -/
theorem placeInserted_ok {sec : SectionId} {func : Option FuncId} {addr : UInt64}
    (hids : ids.Nodup) (hlen : ids.length = given.length)
    (hplaced : ∀ placed ∈ ids.zip given, ∃ instr, s.program.chain.get? placed.1 = some instr
      ∧ instr.sec = sec ∧ instr.func = func ∧ instr.bytes = placed.2.bytes)
    (h : placeInserted addr (ids.zip given) s = .ok u t) :
    ∃ chain, t = s.withChain chain ∧ Arranged s.program.chain chain sec func addr ids given := by
  induction ids generalizing s addr given with
  | nil =>
    cases given with
    | cons _ _ => cases hlen
    | nil =>
      obtain ⟨-, rfl⟩ := pure_ok.mp h
      refine ⟨s.program.chain, rfl, .refl (fun _ i => ⟨.refl i, fun _ => ⟨.refl i, rfl⟩⟩) _, fun _ _ h => h, ?_⟩
      rw [List.map_nil, List.sum_nil, UInt64.add_zero]
      rfl
  | cons id ids ih =>
    cases given with
    | nil => cases hlen
    | cons instr given =>
      obtain ⟨hid, hids⟩ := List.nodup_cons.mp hids
      simp only [List.zip_cons_cons, placeInserted, bind_ok, updateInstr_ok] at h
      obtain ⟨_, _, ⟨-, rfl⟩, _, m, hlink, h⟩ := h
      obtain ⟨c, rfl, haimed⟩ := linkInserted_ok hlink
      replace haimed : Aimed id (s.program.chain.adjust (Chain.only id (.relocated addr))) c := haimed
      have hmoved : s.program.chain.Evolves (fun x a b => b = Chain.only id (.relocated addr) x a)
          (s.program.chain.adjust (Chain.only id (.relocated addr))) := .of_adjust fun _ _ _ => rfl
      -- the address and the target of the others are not touched yet
      have hfirst : s.program.chain.Evolves
          (fun x a b => a.SameTies b ∧ (x ≠ id → a.Relinked b ∧ b.target = a.target)) c := by
        refine hmoved.comp (fun x a b c hab hbc => ⟨?_, fun hx => ?_⟩) haimed.evolves
        · refine .trans ?_ hbc.1.sameTies
          rw [hab]
          unfold Chain.only
          split <;> exact ⟨rfl, rfl⟩
        · rw [hab, Chain.only_ne hx] at hbc
          exact ⟨hbc.1, hbc.2 hx⟩
      obtain ⟨found, hfound, hsec, hfunc, hbytes⟩ := hplaced (id, instr) (List.mem_cons_self ..)
      obtain ⟨at_, hat, hat'⟩ := hmoved.get? hfound
      rw [Chain.only_self] at hat'
      obtain ⟨head, hhead, hrelinked, -⟩ := haimed.evolves.get? hat
      rw [hat'] at hrelinked
      have halike := hrelinked.alike
      have hsize : head.size = instr.size := by
        rw [Instruction.size, Instruction.size, halike.bytes]
        exact congrArg (fun bytes => UInt64.ofNat bytes.length) hbytes
      have hplaced' : ∀ placed ∈ ids.zip given, ∃ instr, c.get? placed.1 = some instr
          ∧ instr.sec = sec ∧ instr.func = func ∧ instr.bytes = placed.2.bytes := by
        intro placed hmem
        obtain ⟨before, hbefore, hsec, hfunc, hbytes⟩ := hplaced placed (List.mem_cons_of_mem _ hmem)
        obtain ⟨after, hafter, -, hkept⟩ := hfirst.get? hbefore
        obtain ⟨hrelinked, -⟩ := hkept fun he => hid (he ▸ (List.of_mem_zip hmem).1)
        have halike := hrelinked.alike
        exact ⟨after, hafter, halike.sec.trans hsec, halike.func.trans hfunc,
          halike.bytes.trans hbytes⟩
      obtain ⟨c', rfl, hrest⟩ := ih hids (Nat.succ.inj hlen) hplaced' h
      refine ⟨c', rfl, ?_, fun l hl hlisted => ?_, ?_⟩
      · refine hfirst.comp (fun x a b c hab hbc => ⟨hab.1.trans hbc.1, fun hx => ?_⟩) hrest.evolves
        rw [List.mem_cons, not_or] at hx
        exact ⟨(hab.2 hx.1).1.trans (hbc.2 hx.2).1, (hbc.2 hx.2).2.trans (hab.2 hx.1).2⟩
      · have hlisted' : (s.program.chain.adjust (Chain.only id (.relocated addr))).Listed l := by
          refine hlisted.evolve hmoved (fun x a b hab => ?_) fun x a b hab => ?_
          · rw [hab]
            unfold Chain.only
            split <;> rfl
          · rw [hab]
            unfold Chain.only
            split <;> rfl
        have hl' := hmoved.attached hl
        exact hrest.listed l (haimed.evolves.attached hl') (haimed.listed l hl' hlisted')
      · obtain ⟨head', hhead', -, hkept⟩ := hrest.evolves.get? hhead
        have hkept' := (hkept hid).1.alike
        have halike' := halike.trans hkept'
        refine ⟨head', hhead', halike'.addr, halike'.sec.trans hsec, halike'.func.trans hfunc, ?_⟩
        rw [hkept'.size, hsize, List.map_cons, List.sum_cons, ← UInt64.add_assoc]
        exact hrest.stacked

/-! ## The splice -/

/-- Taking relocations over changes ties alone. -/
theorem rehomeRelocations_retied {relocs : List SymbolId} {first : InstrId} :
    Keeps Session.Retied (rehomeRelocations relocs old first) := by
  intro s u t h
  obtain ⟨_, m, hrecords, hties⟩ := bind_ok.mp h
  have hm := (Keeps.forM Session.SameCode.stepRelation (fun _ _ => updateSymbol_sameCode) hrecords).retied
  have ht := updateTies_retied hties fun _ => ⟨⟨rfl, rfl, rfl, rfl, rfl, rfl⟩, rfl, rfl, rfl⟩
  exact Session.Retied.stepRelation.trans hm ht

/-- The function with another first or last instruction, if that was `old`. -/
def replacingBounds (old first last : InstrId) (function : Function) : Function :=
  { function with
    first := if function.first = some old then some first else function.first
    last := if function.last = some old then some last else function.last }

/-- The block with `count` instructions more, the first and the last of which took the place of `old`. -/
def replacingEnds (old first last : InstrId) (count : Nat) (block : Block) : Block :=
  { block with
    count := block.count + (count - 1)
    first := if block.first = old then first else block.first
    last := if block.last = old then last else block.last }

/-- The stages of a substitution. -/
theorem spliceInstead_run {shift : Shift} (h : spliceInstead old given s = .ok (ids, shift) t) :
    ∃ found block freed c₁ first last s₂ head s₃ s₄ s₆, s.program.chain.get? old = some found
      ∧ blockOf old s = .ok block s
      ∧ ChainM.replace old (given.map fun instr => stampedFor instr found.sec found.func 0)
          s.program.chain = .ok (ids, freed) c₁
      ∧ ids.head? = some first ∧ ids.getLast? = some last
      ∧ placeInserted found.addr (ids.zip given) (s.withChain c₁) = .ok () s₂
      ∧ s₂.program.chain.get? first = some head
      ∧ repointSymbols head.referencedBy old first 0 s₂ = .ok () s₃
      ∧ rehomeRelocations freed.relocs old first s₃ = .ok () s₄
      ∧ updateBlock block (replacingEnds old first last ids.length)
          (withOwner { s₄ with program.redirects := s₄.program.redirects.replace old first } found.func
            (replacingBounds old first last)) = .ok () s₆
      ∧ t.program = s₆.program
      ∧ shift = ⟨t.program.chain.next? last, found.sec, found.func,
          ((given.map (·.size)).sum - found.size).toInt64, ids⟩ := by
  simp only [spliceInstead, bind_ok, instr_ok, onChain_ok] at h
  obtain ⟨found, _, ⟨hfound, rfl⟩, block, s₁, hblock, ⟨ids', freed⟩, _, ⟨c₁, hreplace, rfl⟩, h⟩ := h
  obtain rfl := blockOf_ok hblock
  cases hfirst : ids'.head? with
  | none =>
    simp only [hfirst] at h
    exact (throw_ok.mp h).elim
  | some first =>
    cases hlast : ids'.getLast? with
    | none =>
      simp only [hfirst, hlast] at h
      exact (throw_ok.mp h).elim
    | some last =>
      simp only [hfirst, hlast, bind_ok, instr_ok, program_ok, updateProgram_ok, pure_ok,
        Prod.mk.injEq] at h
      obtain ⟨_, s₂, hplace, head, _, ⟨hhead, rfl⟩, _, s₃, hrepoint, _, s₄, hrehome, _, _, rfl, _, s₅,
        howner, _, s₆, hblocks, _, s₇, hcount, _, _, ⟨rfl, rfl⟩, ⟨rfl, rfl⟩, rfl⟩ := h
      obtain rfl := updateOwner_ok howner
      exact ⟨found, block, freed, c₁, first, last, s₂, head, s₃, s₄, s₆, hfound, hblock, hreplace,
        hfirst, hlast, hplace, hhead, hrepoint, hrehome, hblocks, count_program hcount, rfl⟩

theorem spliceInstead_present {shift : Shift} (h : spliceInstead old given s = .ok (ids, shift) t) :
    ∃ found, s.program.chain.get? old = some found := by
  obtain ⟨found, _, _, _, _, _, _, _, _, _, _, hfound, -⟩ := spliceInstead_run h
  exact ⟨found, hfound⟩

/-- After the replacement the instructions that are present are those of the list. -/
theorem replaced_attached {chain c₁ : Chain} {instrs : List Instruction}
    (h : ChainM.Replaced chain c₁ xs old ys ids instrs) (hl : chain.Spells (xs ++ old :: ys))
    (hattached : chain.Attached (xs ++ old :: ys)) : c₁.Attached (xs ++ ids ++ ys) := by
  intro x hx
  rw [Chain.contains_eq_isSome_get?, Option.isSome_iff_exists] at hx
  obtain ⟨i, hi⟩ := hx
  by_cases hids : x ∈ ids
  · simp [hids]
  · have hold : x ≠ old := by
      rintro rfl
      rw [h.gone] at hi
      cases hi
    obtain ⟨before, hbefore, -⟩ := h.kept.get?_of ⟨hids, hold⟩ hi
    have hmem := hattached x (by rw [Chain.contains_eq_isSome_get?, hbefore]; rfl)
    exact mem_mid_iff.mpr (.inr (hl.mem_rest_iff.mpr ⟨hmem, hold⟩))

/-- A sequence that took the place of one instruction is laid out from where that was. -/
theorem placeInserted_arranged {c₁ : Chain} {found : Instruction}
    (hreplaced : ChainM.Replaced s.program.chain c₁ xs old ys ids
      (given.map fun instr => stampedFor instr found.sec found.func 0))
    (h : placeInserted found.addr (ids.zip given) (s.withChain c₁) = .ok u t) :
    ∃ c₂, t = s.withChain c₂ ∧ Arranged c₁ c₂ found.sec found.func found.addr ids given := by
  have hnodup : ids.Nodup := by
    have hnodup := hreplaced.spells.nodup
    rw [List.append_assoc] at hnodup
    exact (List.nodup_append.mp (List.nodup_append.mp hnodup).2.1).1
  have hplaced : ∀ placed ∈ ids.zip given, ∃ instr, (s.withChain c₁).program.chain.get? placed.1
      = some instr ∧ instr.sec = found.sec ∧ instr.func = found.func
        ∧ instr.bytes = placed.2.bytes := by
    intro placed hmem
    have hmem' : (placed.1, stampedFor placed.2 found.sec found.func 0)
        ∈ ids.zip (given.map fun instr => stampedFor instr found.sec found.func 0) := by
      rw [List.zip_map_right]
      exact List.mem_map.mpr ⟨placed, hmem, rfl⟩
    obtain ⟨instr, hinstr, halike, -⟩ := hreplaced.placed _ hmem'
    exact ⟨instr, hinstr, halike.sec, halike.func, halike.bytes⟩
  have hlen : ids.length = given.length := by
    rw [hreplaced.length, List.length_map]
  obtain ⟨c₂, rfl, harranged⟩ := placeInserted_ok hnodup hlen hplaced h
  exact ⟨c₂, rfl, harranged⟩

/-- A substitution puts the new instructions back to back where the old one was, leads what referred to
that to the first of them, and leaves a shift by the difference in bytes, which begins at what came next.
The steps are gone through in their order: the replacement in the list, the layout of what came in, the
relocations, then function, redirects and block. -/
theorem spliceInstead_ok {shift : Shift} (hl : s.program.chain.Spells (xs ++ old :: ys))
    (hattached : s.program.chain.Attached (xs ++ old :: ys))
    (hlisted : s.program.chain.Listed (xs ++ old :: ys))
    (h : spliceInstead old given s = .ok (ids, shift) t) :
    ∃ found first last, s.program.chain.get? old = some found ∧ ids.head? = some first
      ∧ ids.getLast? = some last
      ∧ Session.Spliced s t xs [old] ys ids (swap old first)
      ∧ t.program.chain.Stacked found.sec found.func found.addr ids
          (found.addr + (given.map (·.size)).sum)
      ∧ t.program.functions
          = (withOwner s found.func (replacingBounds old first last)).program.functions
      ∧ t.program.redirects = s.program.redirects.replace old first
      ∧ shift = ⟨ys.head?, found.sec, found.func,
          ((given.map (·.size)).sum - found.size).toInt64, ids⟩ := by
  obtain ⟨found, block, freed, c₁, first, last, s₂, head, s₃, s₄, s₆, hfound, -, hreplace, hfirst, hlast,
    hplace, -, hrepoint, hrehome, hblocks, ht, rfl⟩ := spliceInstead_run h
  obtain ⟨hreplaced, -⟩ := ChainM.replace_ok hl hreplace
  have hkeptIds : ∀ x ∈ xs ++ ys, x ∉ ids ∧ x ≠ old := by
    intro x hx
    obtain ⟨hmem, hne⟩ := hl.mem_rest_iff.mp hx
    exact ⟨fun hids => hl.not_mem (hreplaced.fresh x hids) hmem, hne⟩
  have hrefs : ∀ instr ∈ given.map fun instr => stampedFor instr found.sec found.func 0,
      instr.references = [] := by
    intro instr hinstr
    obtain ⟨_, _, rfl⟩ := List.mem_map.mp hinstr
    rfl
  obtain ⟨c₂, rfl, harranged⟩ := placeInserted_arranged hreplaced hplace
  -- the steps after that change the code by redirects and bounds only
  have hretied := Session.Retied.stepRelation.trans (repointSymbols_sameCode hrepoint).retied
    (rehomeRelocations_retied hrehome)
  have hs₆ := (updateBlock_regraphed hblocks).sameCode
  have hchain : c₂.Evolves (fun _ a b => a.Retied b) t.program.chain := by
    rw [ht, hs₆.chain, chain_withOwner]
    exact hretied.chain
  have hattached₁ := replaced_attached hreplaced hl hattached
  have hspells : t.program.chain.Spells (xs ++ ids ++ ys) :=
    hchain.spells (harranged.evolves.spells hreplaced.spells)
  refine ⟨found, first, last, hfound, hfirst, hlast, ⟨hspells, ?_, ?_, hreplaced.fresh, ?_, ?_, ?_⟩,
    ?_, ?_, ?_, ?_⟩
  · exact fun _ => hchain.attached (harranged.evolves.attached hattached₁)
  · exact (harranged.listed _ hattached₁ (hreplaced.listed hlisted hrefs)).evolve hchain
      (fun _ _ _ h => h.references) (fun _ _ _ h => h.targetedBy)
  · have h₁ : s.program.chain.Retains
        (fun _ a b => a.Alike b ∧ b.target = a.target.map (swap old first)) (· ∈ xs ++ ys) c₁ :=
      (hreplaced.kept.mono (fun _ a b _ h => h.alike) hkeptIds).and
        (hreplaced.targets hlisted hrefs first hfirst)
    have h₂ : s.program.chain.Retains
        (fun _ a b => a.Alike b ∧ b.target = a.target.map (swap old first)) (· ∈ xs ++ ys) c₂ := by
      refine h₁.comp (fun x a b c hx hab hbc => ?_) (harranged.evolves.retains _)
      obtain ⟨hrelinked, htarget⟩ := hbc.2 (hkeptIds x hx).1
      exact ⟨hab.1.trans hrelinked.alike, htarget.trans hab.2⟩
    refine h₂.comp (fun x a b c _ hab hbc => ?_) (hchain.retains _)
    exact ⟨hab.1.trans hbc.alike, hbc.target.trans hab.2⟩
  · rw [ht, hs₆.bases, bases_withOwner]
    exact hretied.bases
  · rw [ht, hs₆.config, config_withOwner]
    exact hretied.config
  · exact harranged.stacked.retain ((hchain.mono fun _ a b h => h.alike).retains _)
  · rw [ht, hs₆.functions]
    exact functions_withOwner_congr hretied.functions
  · rw [ht, hs₆.redirects, redirects_withOwner]
    show Redirects.replace s₄.program.redirects old first = _
    rw [hretied.redirects]
    rfl
  · have hnext : t.program.chain.next? last = ys.head? := by
      obtain ⟨front, rfl⟩ := List.getLast?_eq_some_iff.mp hlast
      have hspells' : t.program.chain.Spells ((xs ++ front) ++ last :: ys) := by
        simpa using hspells
      exact hspells'.next?_eq
    rw [hnext]

/-! ## What the sequence is made of -/

/-- Each instruction keeps its bytes. -/
def SameBytes (s t : Session) : Prop :=
  s.program.chain.Evolves (fun _ a b => b.bytes = a.bytes) t.program.chain

theorem SameBytes.stepRelation : StepRelation SameBytes where
  refl s := .refl (r := fun _ a b => b.bytes = a.bytes) (fun _ _ => rfl) s.program.chain
  trans h k := h.trans (fun _ _ _ _ hab hbc => hbc.trans hab) k

/-- Placing instructions leaves the bytes of each. -/
theorem placeInserted_sameBytes {placed : List (InstrId × Instruction)} {addr : UInt64} :
    Keeps SameBytes (placeInserted addr placed) := by
  have hr := SameBytes.stepRelation
  induction placed generalizing addr with
  | nil => exact Keeps.pure hr ()
  | cons entry placed ih =>
    refine Keeps.bind hr (fun {s _ t} h => ?_) fun _ => Keeps.bind hr (fun {s _ t} h => ?_) fun _ => ih
    · rw [updateInstr_ok] at h
      rw [SameBytes, h.2]
      refine .of_adjust fun x i _ => ?_
      unfold Chain.only
      split <;> rfl
    · obtain ⟨chain, rfl, haimed⟩ := linkInserted_ok h
      exact haimed.evolves.mono fun _ _ _ hab => hab.1.alike.bytes

/-- The instructions of the sequence have the bytes that they were given with. -/
theorem spliceInstead_bytes {shift : Shift} (hl : s.program.chain.Spells (xs ++ old :: ys))
    (h : spliceInstead old given s = .ok (ids, shift) t) :
    ∀ id ∈ ids, ∃ instr, t.program.chain.get? id = some instr
      ∧ ∃ source ∈ given, instr.bytes = source.bytes := by
  obtain ⟨found, block, freed, c₁, first, last, s₂, head, s₃, s₄, s₆, hfound, -, hreplace, hfirst, hlast,
    hplace, -, hrepoint, hrehome, hblocks, ht, rfl⟩ := spliceInstead_run h
  obtain ⟨hreplaced, -⟩ := ChainM.replace_ok hl hreplace
  have hretied := Session.Retied.stepRelation.trans (repointSymbols_sameCode hrepoint).retied
    (rehomeRelocations_retied hrehome)
  have hs₆ := (updateBlock_regraphed hblocks).sameCode
  have hchain : t.program.chain = s₄.program.chain := by
    rw [ht, hs₆.chain, chain_withOwner]
  intro id hid
  have hlen : ids.length = given.length := by rw [hreplaced.length, List.length_map]
  obtain ⟨i, hi, rfl⟩ := List.getElem_of_mem hid
  have hplaced : (ids[i], stampedFor given[i] found.sec found.func 0)
      ∈ ids.zip (given.map fun instr => stampedFor instr found.sec found.func 0) := by
    rw [List.zip_map_right]
    exact List.mem_map.mpr ⟨(ids[i], given[i]), List.mem_iff_getElem.mpr ⟨i, by simp; omega, by simp⟩, rfl⟩
  obtain ⟨before, hbefore, halike, -⟩ := hreplaced.placed _ hplaced
  obtain ⟨laid, hlaid, hsame⟩ := (placeInserted_sameBytes hplace).get? hbefore
  obtain ⟨instr, hinstr, hretied'⟩ := hretied.chain.get? hlaid
  refine ⟨instr, by rw [hchain]; exact hinstr, given[i], List.getElem_mem _, ?_⟩
  rw [hretied'.alike.bytes, hsame, halike.bytes]
  rfl

end Splice.EngineM
