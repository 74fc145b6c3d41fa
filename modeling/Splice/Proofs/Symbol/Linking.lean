import Splice.Proofs.Program.Tracking
import Splice.Proofs.Symbol.Finding
import Splice.Proofs.Symbol.Table

/-!
# Tying symbols to the code

Linking goes through the records of a symbol table one by one and makes up to three ties
for each. Before a record is reached, no instruction lists it and it names none; `Sound`
says so of the records that are still to come, next to `Tied` for those that are done, and
every tie keeps it (`Noted.sound`). As instructions are found by the addresses of the
input, where the code still is, the numbers of a record fit the instructions that it is
tied to.

`Noted.sound` is the one lemma for all three kinds of tie: a note that is put down on both sides
keeps the numbers right, provided that the instruction is where the index says. The order in
which records have their turn does not matter for that, only that each has one.

> `linkRecords_ok`: the records of a list that are linked one after the other are tied and their
> numbers fit.
-/

namespace Splice

/-! ## The records that are still to come -/

/-- The instruction with a further record that points at it. -/
def Instruction.pointedBy (symbol : SymbolId) (instr : Instruction) : Instruction :=
  { instr with referencedBy := instr.referencedBy ++ [symbol] }

/-- The instruction with a further record that patches it. -/
def Instruction.patchedBy (symbol : SymbolId) (instr : Instruction) : Instruction :=
  { instr with relocs := instr.relocs ++ [symbol] }

namespace Linking

variable {index : AddressIndex} {state after : Linking} {symbol : SymbolId} {record : Symbol}
  {id : InstrId}

/-- The record `symbol` patches nothing so far. -/
structure Unpatched (state : Linking) (symbol : SymbolId) : Prop where
  list : Unlisted state.chain.tie? Tie.relocs symbol
  instr : ∀ {record reloc}, state.table.get? symbol = some record → record.reloc = some reloc →
    reloc.instr = none

/-- The record `symbol` points at nothing so far. -/
structure Unpointed (state : Linking) (symbol : SymbolId) : Prop where
  list : Unlisted state.chain.tie? Tie.referencedBy symbol
  instr : ∀ {record}, state.table.get? symbol = some record → record.instr = none
  target : ∀ {record reloc}, state.table.get? symbol = some record → record.reloc = some reloc →
    reloc.target = none

/-- The records are where their instructions are, and these are where the index says. -/
structure Sound (index : AddressIndex) (state : Linking) : Prop where
  indexed : ∀ {sec addr id}, (sec, addr, id) ∈ index.entries →
    ∃ instr, state.chain.get? id = some instr ∧ instr.addr = addr
  tied : ∃ gaps, Tied state.chain.tie? state.table.get? gaps

/-- What making the ties of the record `symbol` leaves alone. -/
structure Spares (symbol : SymbolId) (state after : Linking) : Prop where
  unpatched : ∀ {other}, other ≠ symbol → state.Unpatched other → after.Unpatched other
  unpointed : ∀ {other}, other ≠ symbol → state.Unpointed other → after.Unpointed other
  chain : state.chain.Evolves (fun _ a b => b.addr = a.addr) after.chain

theorem Spares.refl (symbol : SymbolId) (state : Linking) : Spares symbol state state :=
  ⟨fun _ h => h, fun _ h => h, .refl (fun _ _ => by rfl) _⟩

/-- What is left alone by two steps is left alone by both. -/
theorem Spares.trans {a b c : Linking} (hab : Spares symbol a b) (hbc : Spares symbol b c) :
    Spares symbol a c where
  unpatched hne h := hbc.unpatched hne (hab.unpatched hne h)
  unpointed hne h := hbc.unpointed hne (hab.unpointed hne h)
  chain := hab.chain.trans (fun _ _ _ _ h k => k.trans h) hbc.chain

/-- Nothing is tied where neither the code nor the table changes. -/
theorem Sound.of_same (h : Sound index state) (hchain : after.chain = state.chain)
    (htable : after.table = state.table) : Sound index after ∧ Spares symbol state after
      ∧ (state.Unpointed symbol → after.Unpointed symbol) := by
  obtain ⟨chain, table, warnings, summary⟩ := after
  obtain rfl := hchain
  obtain rfl := htable
  exact ⟨⟨h.indexed, h.tied⟩, ⟨fun _ h => ⟨h.list, h.instr⟩, fun _ h => ⟨h.list, h.instr, h.target⟩,
    .refl (fun _ _ => by rfl) _⟩, fun h => ⟨h.list, h.instr, h.target⟩⟩

/-- The lists of one instruction are changed by the record `symbol` at most, and so is the table. -/
structure Noted (symbol : SymbolId) (state after : Linking) (id : InstrId)
    (f : Instruction → Instruction) (instr : Instruction) : Prop where
  get? : state.chain.get? id = some instr
  chain : after.chain = state.chain.adjust (Chain.only id f)
  addr : ∀ instr : Instruction, (f instr).addr = instr.addr
  relocs : Grows state.chain.tie? Tie.relocs symbol instr.tie (f instr).tie
  pointers : Grows state.chain.tie? Tie.referencedBy symbol instr.tie (f instr).tie
  others : ∀ {other}, other ≠ symbol → after.table.get? other = state.table.get? other

namespace Noted

variable {f : Instruction → Instruction} {instr : Instruction}

theorem tie? (h : Noted symbol state after id f instr) :
    after.chain.tie? = Ties.put state.chain.tie? id (f instr).tie := by
  rw [h.chain, Chain.tie?_only h.get?]

theorem unlistedPatches (h : Noted symbol state after id f instr) {other : SymbolId}
    (hlist : Unlisted state.chain.tie? Tie.relocs other)
    (hself : other = symbol → (f instr).relocs = instr.relocs) :
    Unlisted after.chain.tie? Tie.relocs other := by
  rw [h.tie?]
  exact hlist.grow (Chain.tie?_eq h.get?) h.relocs hself

theorem unlistedPointers (h : Noted symbol state after id f instr) {other : SymbolId}
    (hlist : Unlisted state.chain.tie? Tie.referencedBy other)
    (hself : other = symbol → (f instr).referencedBy = instr.referencedBy) :
    Unlisted after.chain.tie? Tie.referencedBy other := by
  rw [h.tie?]
  exact hlist.grow (Chain.tie?_eq h.get?) h.pointers hself

/-- A note about one record leaves the ties of all other records alone. -/
theorem spares (h : Noted symbol state after id f instr) : Spares symbol state after where
  unpatched {other} hne hother := by
    refine ⟨h.unlistedPatches hother.list fun he => absurd he hne, fun hget => ?_⟩
    rw [h.others hne] at hget
    exact hother.instr hget
  unpointed {other} hne hother := by
    refine ⟨h.unlistedPointers hother.list fun he => absurd he hne, fun hget => ?_, fun hget => ?_⟩
    · rw [h.others hne] at hget
      exact hother.instr hget
    · rw [h.others hne] at hget
      exact hother.target hget
  chain := by
    rw [h.chain]
    refine .of_adjust fun x i _ => ?_
    unfold Chain.only
    split
    · exact h.addr i
    · rfl

/-- A note keeps the records where their instructions are, if the record that it is about is. -/
theorem sound (h : Noted symbol state after id f instr) (hstate : Sound index state)
    (hrecord : ∀ record, after.table.get? symbol = some record →
      ∃ gap, record.TiedTo after.chain.tie? symbol gap) : Sound index after where
  indexed hmem := by
    obtain ⟨found, hfound, haddr⟩ := hstate.indexed hmem
    obtain ⟨found', hfound', haddr'⟩ := h.spares.chain.get? hfound
    exact ⟨found', hfound', haddr'.trans haddr⟩
  tied := by
    obtain ⟨gaps, htied⟩ := hstate.tied
    rw [h.tie?] at hrecord ⊢
    exact htied.note (Chain.tie?_eq h.get?) (h.addr instr) h.relocs h.pointers
      (fun _ => h.others) hrecord

/-- The instruction with its new lists. -/
theorem tie?_self (h : Noted symbol state after id f instr) :
    after.chain.tie? id = some (f instr).tie := by
  rw [h.tie?, Ties.put, if_pos rfl]

/-- A tie that a record had before is not lost. -/
theorem tiedTo (h : Noted symbol state after id f instr) {gap : Option UInt64}
    (hrecord : record.TiedTo state.chain.tie? symbol gap) :
    record.TiedTo after.chain.tie? symbol gap := by
  rw [h.tie?]
  exact hrecord.note (Chain.tie?_eq h.get?) (h.addr instr) (fun _ => h.relocs.mem)
    fun _ => h.pointers.mem

end Noted

/-- The ties of a symbol to the instruction at its value. -/
theorem linkSymbol_ok (h : Sound index state) (hget : state.table.get? symbol = some record)
    (hpointed : state.Unpointed symbol) (hafter : linkSymbol index state symbol record = after) :
    Sound index after ∧ Spares symbol state after
      ∧ (state.Unpatched symbol → after.Unpatched symbol)
      ∧ (record.kind = .wholeSection → after = state)
      ∧ ∃ record', after.table.get? symbol = some record' ∧ record'.reloc = record.reloc
        ∧ record'.value = record.value := by
  unfold linkSymbol at hafter
  simp only [Option.bind_eq_bind] at hafter
  split at hafter
  next =>
    subst hafter
    exact ⟨h, .refl .., fun h => h, fun _ => rfl, record, hget, rfl, rfl⟩
  next found hfound =>
    obtain ⟨sec, -, hfound⟩ := Option.bind_eq_some_iff.mp hfound
    split at hfound
    next => cases hfound
    next hkind =>
      obtain ⟨instr, hinstr, haddr⟩ := h.indexed (AddressIndex.beginning?_mem hfound)
      have hnoted : Noted symbol state after found
          (.pointedBy symbol) instr := by
        subst hafter
        refine ⟨hinstr, Chain.update_eq_adjust (.pointedBy symbol), fun _ => rfl, .inl rfl, .inr ⟨rfl, hpointed.list⟩,
          fun hne => ?_⟩
        exact (SymbolTable.get?_update ..).trans (if_neg hne)
      have hafterget : after.table.get? symbol = some { record with instr := some found } := by
        subst hafter
        refine (SymbolTable.get?_update ..).trans ?_
        rw [if_pos rfl, hget]
        rfl
      refine ⟨hnoted.sound h fun record' hrecord' => ?_, hnoted.spares, fun hunpatched => ?_,
        fun hsection => ?_, _, hafterget, rfl, rfl⟩
      · obtain rfl := Option.some.inj (hafterget.symm.trans hrecord')
        obtain ⟨gaps, htied⟩ := h.tied
        have hbefore := hnoted.tiedTo (htied.record hget)
        refine ⟨gaps symbol, fun hid => ?_, fun hreloc htarget => ?_, hbefore.patched⟩
        · obtain rfl := Option.some.inj hid
          exact ⟨_, hnoted.tie?_self, List.mem_append_right _ (List.mem_singleton.mpr rfl),
            haddr.symm⟩
        · rw [hpointed.target hget hreloc] at htarget
          cases htarget
      · refine ⟨hnoted.unlistedPatches hunpatched.list fun _ => rfl, fun hrecord' hreloc => ?_⟩
        obtain rfl := Option.some.inj (hafterget.symm.trans hrecord')
        exact hunpatched.instr hget hreloc
      · rw [hsection] at hkind
        exact absurd (beq_self_eq_true _) hkind

/-- The ties of a relocation to the instruction whose bytes it patches. -/
theorem linkPatched_ok (h : Sound index state) {reloc : Relocation}
    (hget : state.table.get? symbol = some record) (hreloc : record.reloc = some reloc)
    (hpatched : state.Unpatched symbol) (hafter : linkPatched index state symbol reloc = after) :
    Sound index after ∧ Spares symbol state after
      ∧ (state.Unpointed symbol → after.Unpointed symbol)
      ∧ ∃ record' reloc', after.table.get? symbol = some record' ∧ record'.reloc = some reloc'
        ∧ record'.value = record.value ∧ reloc'.addend = reloc.addend ∧ reloc'.kind = reloc.kind := by
  unfold linkPatched at hafter
  split at hafter
  next found hfound =>
    obtain ⟨start, hmem⟩ := AddressIndex.covering?_mem hfound
    obtain ⟨instr, hinstr, -⟩ := h.indexed hmem
    have hnoted : Noted symbol state after found
        (.patchedBy symbol) instr := by
      subst hafter
      refine ⟨hinstr, Chain.update_eq_adjust (.patchedBy symbol), fun _ => rfl, .inr ⟨rfl, hpatched.list⟩, .inl rfl,
        fun hne => ?_⟩
      exact (SymbolTable.get?_update ..).trans (if_neg hne)
    have hafterget : after.table.get? symbol
        = some { record with reloc := some { reloc with instr := some found } } := by
      subst hafter
      refine (SymbolTable.get?_update ..).trans ?_
      rw [if_pos rfl, hget, Option.map_some, hreloc]
      rfl
    refine ⟨hnoted.sound h fun record' hrecord' => ?_, hnoted.spares, fun hunpointed => ?_, _, _,
      hafterget, rfl, rfl, rfl, rfl⟩
    · obtain rfl := Option.some.inj (hafterget.symm.trans hrecord')
      obtain ⟨gaps, htied⟩ := h.tied
      have hbefore := hnoted.tiedTo (htied.record hget)
      refine ⟨some (reloc.offset - instr.addr), hbefore.pointed, fun hreloc' htarget => ?_,
        fun hreloc' hid => ?_⟩
      · obtain rfl := Option.some.inj hreloc'
        have hreferred := hbefore.referred hreloc htarget
        exact hreferred
      · obtain rfl := Option.some.inj hreloc'
        obtain rfl := Option.some.inj hid
        exact ⟨_, hnoted.tie?_self, List.mem_append_right _ (List.mem_singleton.mpr rfl), rfl⟩
    · refine ⟨hnoted.unlistedPointers hunpointed.list fun _ => rfl, fun hrecord' => ?_,
        fun hrecord' hreloc' => ?_⟩
      · obtain rfl := Option.some.inj (hafterget.symm.trans hrecord')
        show record.instr = none
        exact hunpointed.instr hget
      · obtain rfl := Option.some.inj (hafterget.symm.trans hrecord')
        obtain rfl := Option.some.inj hreloc'
        show reloc.target = none
        exact hunpointed.target hget hreloc
  next =>
    have hsame : after.chain = state.chain ∧ after.table = state.table := by
      subst hafter
      split <;> exact ⟨rfl, rfl⟩
    obtain ⟨hsound, hspares, hunpointed⟩ := h.of_same hsame.1 hsame.2
    exact ⟨hsound, hspares, hunpointed, record, reloc, hsame.2 ▸ hget, hreloc, rfl, rfl, rfl⟩

/-- The ties of a relocation of a section symbol to the instruction that it refers to; `symbol` is the
record as it was before any tie was made. -/
theorem linkReferred_ok (h : Sound index state) {first : Symbol} {reloc reloc' : Relocation}
    (hget : state.table.get? symbol = some record) (hreloc : record.reloc = some reloc')
    (hvalue : record.value = first.value) (haddend : reloc'.addend = reloc.addend)
    (hkind : reloc'.kind = reloc.kind)
    (hpointed : first.kind = .wholeSection → state.Unpointed symbol)
    (hafter : linkReferred index state symbol first reloc = after) :
    Sound index after ∧ Spares symbol state after := by
  have hsame : after.chain = state.chain → after.table = state.table →
      Sound index after ∧ Spares symbol state after :=
    fun hchain htable => (h.of_same hchain htable).imp_right And.left
  unfold linkReferred at hafter
  split at hafter
  next => exact hsame (hafter ▸ rfl) (hafter ▸ rfl)
  next sec _ =>
  split at hafter
  next => exact hsame (hafter ▸ rfl) (hafter ▸ rfl)
  next hsection =>
  have hunpointed := hpointed (by
    cases hk : first.kind == .wholeSection with
    | true => exact eq_of_beq hk
    | false => simp [bne, hk] at hsection)
  simp only at hafter
  split at hafter
  next found hfound =>
    obtain ⟨instr, hinstr, haddr⟩ := h.indexed (AddressIndex.beginning?_mem hfound)
    have hnoted : Noted symbol state after found
        (.pointedBy symbol) instr := by
      subst hafter
      refine ⟨hinstr, Chain.update_eq_adjust (.pointedBy symbol), fun _ => rfl, .inl rfl, .inr ⟨rfl, hunpointed.list⟩,
        fun hne => ?_⟩
      exact (SymbolTable.get?_update ..).trans (if_neg hne)
    have hafterget : after.table.get? symbol
        = some { record with reloc := some { reloc' with target := some found } } := by
      subst hafter
      refine (SymbolTable.get?_update ..).trans ?_
      rw [if_pos rfl, hget, Option.map_some, hreloc]
      rfl
    refine ⟨hnoted.sound h fun record' hrecord' => ?_, hnoted.spares⟩
    obtain rfl := Option.some.inj (hafterget.symm.trans hrecord')
    obtain ⟨gaps, htied⟩ := h.tied
    have hbefore := hnoted.tiedTo (htied.record hget)
    refine ⟨gaps symbol, hbefore.pointed, fun hreloc'' htarget => ?_, fun hreloc'' hid => ?_⟩
    · obtain rfl := Option.some.inj hreloc''
      obtain rfl := Option.some.inj htarget
      have hnone := hunpointed.instr hget
      refine ⟨hnone, _, hnoted.tie?_self,
        List.mem_append_right _ (List.mem_singleton.mpr rfl), ?_⟩
      show record.value + reloc'.addend.toUInt64 + reloc'.kind.pcBias.toUInt64 = instr.addr
      rw [hvalue, haddend, hkind]
      exact haddr.symm
    · obtain rfl := Option.some.inj hreloc''
      have hpatched := hbefore.patched hreloc hid
      exact hpatched
  next => exact hsame (hafter ▸ rfl) (hafter ▸ rfl)

/-- All ties of one record. -/
theorem linkRecord_ok (h : Sound index state) {withTargets : Bool}
    (hpatched : state.Unpatched symbol) (hpointed : state.Unpointed symbol)
    (hafter : linkRecord index withTargets state symbol = after) :
    Sound index after ∧ Spares symbol state after := by
  unfold linkRecord at hafter
  split at hafter
  next =>
    subst hafter
    exact ⟨h, .refl ..⟩
  next record hget =>
  obtain ⟨h₁, hspares₁, hpatched₁, hsection, record₁, hget₁, hreloc₁, hvalue₁⟩ :=
    linkSymbol_ok h hget hpointed rfl
  simp only at hafter
  split at hafter
  next =>
    subst hafter
    exact ⟨h₁, hspares₁⟩
  next reloc hreloc =>
  obtain ⟨h₂, hspares₂, hpointed₂, record₂, reloc₂, hget₂, hreloc₂, hvalue₂, haddend, hkind⟩ :=
    linkPatched_ok h₁ hget₁ (hreloc₁.trans hreloc) (hpatched₁ hpatched) rfl
  split at hafter
  next =>
    obtain ⟨h₃, hspares₃⟩ := linkReferred_ok h₂ hget₂ hreloc₂ (hvalue₂.trans hvalue₁) haddend hkind
      (fun hk => hpointed₂ ((hsection hk).symm ▸ hpointed)) hafter
    exact ⟨h₃, (hspares₁.trans hspares₂).trans hspares₃⟩
  next =>
    subst hafter
    exact ⟨h₂, hspares₁.trans hspares₂⟩

/-- The records of a list, each of which has its turn once. -/
theorem linkRecords_ok (withTargets : Bool) {symbols : List SymbolId} (hnodup : symbols.Nodup)
    (h : Sound index state)
    (hpending : ∀ symbol ∈ symbols, state.Unpatched symbol ∧ state.Unpointed symbol) :
    Sound index (symbols.foldl (linkRecord index withTargets) state)
      ∧ state.chain.Evolves (fun _ a b => b.addr = a.addr)
        (symbols.foldl (linkRecord index withTargets) state).chain := by
  induction symbols generalizing state with
  | nil => exact ⟨h, .refl (fun _ _ => by rfl) _⟩
  | cons symbol symbols ih =>
    obtain ⟨hnot, hnodup⟩ := List.nodup_cons.mp hnodup
    obtain ⟨hpatched, hpointed⟩ := hpending symbol (List.mem_cons_self ..)
    obtain ⟨h₁, hspares⟩ := linkRecord_ok h hpatched hpointed (rfl : linkRecord index withTargets state symbol = _)
    have hrest := ih hnodup h₁ fun other hother => by
      have hne : other ≠ symbol := fun he => hnot (he ▸ hother)
      obtain ⟨hpatched', hpointed'⟩ := hpending other (List.mem_cons_of_mem _ hother)
      exact ⟨hspares.unpatched hne hpatched', hspares.unpointed hne hpointed'⟩
    exact ⟨hrest.1, hspares.chain.trans (fun _ _ _ _ h k => k.trans h) hrest.2⟩

end Linking

end Splice
