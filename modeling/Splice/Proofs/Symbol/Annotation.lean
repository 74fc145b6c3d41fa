import Splice.Proofs.Symbol.Grouping
import Splice.Proofs.Symbol.Linking
import Splice.Proofs.Symbol.Noting

/-!
# Annotating the code

Linking ties one record after the other to instructions, up to three times each. Whatever
instructions are found, a tie is noted on both sides at once, so that a record that is listed by an
instruction is tied to it (`linkSymbols_noted`): a record names no instruction before its
turn comes, hence no tie of it takes the place of an older one. Nothing but the lists of
records changes in the code, and nothing but ties in the records.

`Turn` is the invariant while one record has its turn: it is the only one that instructions may
list newly, and the only one that changes. The three ties of a record are one note each at most:
at the value of a symbol, at what a relocation patches, and at what it refers to.

> `linkSymbols_noted`: after linking, every record that an instruction lists is tied to that
> instruction.
-/

namespace Splice

/-- The instruction with other lists of records. -/
def Instruction.Annotated (a b : Instruction) : Prop :=
  ∃ relocs pointers, b = { a with relocs := relocs, referencedBy := pointers }

namespace Instruction.Annotated

variable {a b c : Instruction}

theorem refl (a : Instruction) : a.Annotated a := ⟨a.relocs, a.referencedBy, rfl⟩

/-- Two changes of the lists of records are one. -/
theorem trans (hab : a.Annotated b) (hbc : b.Annotated c) : a.Annotated c := by
  obtain ⟨_, _, rfl⟩ := hab
  obtain ⟨relocs, pointers, rfl⟩ := hbc
  exact ⟨relocs, pointers, rfl⟩

theorem references (h : a.Annotated b) : b.references = a.references := by
  obtain ⟨_, _, rfl⟩ := h
  rfl

theorem targetedBy (h : a.Annotated b) : b.targetedBy = a.targetedBy := by
  obtain ⟨_, _, rfl⟩ := h
  rfl

theorem func (h : a.Annotated b) : b.func = a.func := by
  obtain ⟨_, _, rfl⟩ := h
  rfl

end Instruction.Annotated

namespace Linking

variable {state after : Linking} {symbol : SymbolId} {record : Symbol}
  {found : InstrId}

/-- What tying records leaves alone. -/
structure Annotates (state after : Linking) : Prop where
  chain : state.chain.Evolves (fun _ a b => a.Annotated b) after.chain
  runs : after.table.runs = state.table.runs
  rank : ∀ id, after.table.rank? id = state.table.rank? id

theorem Annotates.refl (state : Linking) : Annotates state state :=
  ⟨.refl (fun _ => .refl) _, rfl, fun _ => rfl⟩

theorem Annotates.trans {a b c : Linking} (hab : Annotates a b) (hbc : Annotates b c) : Annotates a c :=
  ⟨hab.chain.trans (fun _ _ _ _ => .trans) hbc.chain, hbc.runs.trans hab.runs,
    fun id => (hbc.rank id).trans (hab.rank id)⟩

/-- The lists of the code name records that are tied to it. -/
def Faithful (state : Linking) : Prop := Splice.Noted state.chain.tie? state.table.get?

/-- One record is tied, at most: the record `symbol`. -/
structure Turn (symbol : SymbolId) (state after : Linking) : Prop where
  faithful : state.Faithful → after.Faithful
  annotates : Annotates state after
  others : ∀ {other}, other ≠ symbol → after.table.get? other = state.table.get? other

theorem Turn.trans {a b c : Linking} (hab : Turn symbol a b) (hbc : Turn symbol b c) : Turn symbol a c :=
  ⟨fun h => hbc.faithful (hab.faithful h), hab.annotates.trans hbc.annotates,
    fun hne => (hbc.others hne).trans (hab.others hne)⟩

/-- Where neither the code nor the table changes, nothing is tied. -/
theorem Turn.of_same (hchain : after.chain = state.chain) (htable : after.table = state.table) :
    Turn symbol state after := by
  obtain ⟨chain, table, warnings, summary⟩ := after
  obtain rfl := hchain
  obtain rfl := htable
  exact ⟨fun h => h, ⟨.refl (fun _ => .refl) _, rfl, fun _ => rfl⟩, fun _ => rfl⟩

/-- The record `symbol` is noted by `f` at the instruction `found`, to which `g` ties it; it keeps
the ties that it has. -/
theorem Turn.of_tie {f : Instruction → Instruction} {g : Symbol → Symbol}
    (hget : state.table.get? symbol = some record)
    (hchain : after.chain = state.chain.adjust (Chain.only found f))
    (htable : after.table = state.table.update symbol g)
    (hrank : ∀ record : Symbol, (g record).rank = record.rank)
    (hnoted : f = .pointedBy symbol ∧ (g record).PointsAt found
      ∨ f = .patchedBy symbol ∧ (g record).Patches found)
    (hpatches : ∀ id, record.Patches id → (g record).Patches id)
    (hpoints : ∀ id, record.PointsAt id → (g record).PointsAt id) : Turn symbol state after := by
  have hrecord : after.table.get? symbol = some (g record) := by
    rw [htable, SymbolTable.get?_update, if_pos rfl, hget]
    rfl
  have hothers : ∀ {other}, other ≠ symbol → after.table.get? other = state.table.get? other := by
    intro other hne
    rw [htable, SymbolTable.get?_update, if_neg hne]
  -- only the lists of `found` grow, and only by `symbol`, so nothing has to be said of the other records
  refine ⟨fun h => h.grow (fun {id tie'} hid => ?_) fun {other old} hold => ?_, ⟨?_, ?_, fun id => ?_⟩, hothers⟩
  · rw [hchain] at hid
    obtain ⟨instr', hinstr', rfl⟩ := Chain.get?_of_tie? hid
    rw [Chain.get?_adjust, Option.map_eq_some_iff] at hinstr'
    obtain ⟨instr, hinstr, rfl⟩ := hinstr'
    refine ⟨instr.tie, Chain.tie?_eq hinstr, ?_⟩
    by_cases hfound : id = found
    · rw [hfound, Chain.only_self]
      rcases hnoted with ⟨rfl, htied⟩ | ⟨rfl, htied⟩
      · refine ⟨fun _ hmem => .inl hmem, fun other hmem => ?_⟩
        rcases List.mem_append.mp hmem with hold | hnew
        · exact .inl hold
        · exact .inr ⟨g record, List.mem_singleton.mp hnew ▸ hrecord, htied⟩
      · refine ⟨fun other hmem => ?_, fun _ hmem => .inl hmem⟩
        rcases List.mem_append.mp hmem with hold | hnew
        · exact .inl hold
        · exact .inr ⟨g record, List.mem_singleton.mp hnew ▸ hrecord, htied⟩
    · rw [Chain.only_ne hfound]
      exact ⟨fun _ hmem => .inl hmem, fun _ hmem => .inl hmem⟩
  · by_cases hsymbol : other = symbol
    · rw [hsymbol, hget, Option.some.injEq] at hold
      exact ⟨g record, hsymbol ▸ hrecord, hold ▸ hpatches, hold ▸ hpoints⟩
    · exact ⟨old, (hothers hsymbol).trans hold, fun _ h => h, fun _ h => h⟩
  · rw [hchain]
    refine .of_adjust fun id instr _ => ?_
    by_cases hfound : id = found
    · rw [hfound, Chain.only_self]
      rcases hnoted with ⟨rfl, -⟩ | ⟨rfl, -⟩
      · exact ⟨_, _, rfl⟩
      · exact ⟨_, _, rfl⟩
    · rw [Chain.only_ne hfound]
      exact .refl instr
  · rw [htable]
    rfl
  · rw [htable]
    exact SymbolTable.rank?_update hrank id

/-! ## The ties of one record -/

/-- The tie of a symbol to the instruction at its value. -/
theorem linkSymbol_turn (index : AddressIndex) (hget : state.table.get? symbol = some record) (hinstr : record.instr = none) :
    Turn symbol state (linkSymbol index state symbol record)
      ∧ ∃ record', (linkSymbol index state symbol record).table.get? symbol = some record'
        ∧ record'.reloc = record.reloc := by
  unfold linkSymbol
  simp only
  split
  next => exact ⟨.of_same rfl rfl, record, hget, rfl⟩
  next found _ =>
    refine ⟨.of_tie (g := fun record => { record with instr := some found }) hget
      (Chain.update_eq_adjust (.pointedBy symbol)) rfl (fun _ => rfl) (.inl ⟨rfl, .inl rfl⟩)
      (fun _ hpatches => hpatches) fun id hpoints => ?_, ?_⟩
    · rcases hpoints with hself | htarget
      · rw [hinstr] at hself
        cases hself
      · exact .inr htarget
    · refine ⟨{ record with instr := some found }, (SymbolTable.get?_update ..).trans ?_, rfl⟩
      rw [if_pos rfl, hget]
      rfl

/-- The tie of a relocation to the instruction that it patches. -/
theorem linkPatched_turn (index : AddressIndex) {reloc : Relocation}
    (hget : state.table.get? symbol = some record)
    (hreloc : record.reloc = some reloc) (hinstr : reloc.instr = none) :
    Turn symbol state (linkPatched index state symbol reloc)
      ∧ ∃ record' reloc', (linkPatched index state symbol reloc).table.get? symbol = some record'
        ∧ record'.reloc = some reloc' ∧ reloc'.target = reloc.target := by
  unfold linkPatched
  split
  next found _ =>
    refine ⟨.of_tie (g := fun record => { record with
        reloc := record.reloc.map fun reloc => { reloc with instr := some found } }) hget
      (Chain.update_eq_adjust (.patchedBy symbol)) rfl (fun _ => rfl) (.inr ⟨rfl, ?_⟩)
      (fun id hpatches => ?_) fun id hpoints => ?_, ?_⟩
    · exact ⟨{ reloc with instr := some found }, by rw [hreloc]; rfl, rfl⟩
    · obtain ⟨reloc', hreloc', hpatched⟩ := hpatches
      obtain rfl := Option.some.inj (hreloc.symm.trans hreloc')
      rw [hinstr] at hpatched
      cases hpatched
    · rcases hpoints with hself | ⟨reloc', hreloc', htarget⟩
      · exact .inl hself
      · exact .inr ⟨{ reloc' with instr := some found }, by rw [hreloc']; rfl, htarget⟩
    · refine ⟨{ record with reloc := some { reloc with instr := some found } }, _,
        (SymbolTable.get?_update ..).trans ?_, rfl, rfl⟩
      rw [if_pos rfl, hget, Option.map_some, hreloc]
      rfl
  next =>
    split
    · exact ⟨.of_same rfl rfl, record, reloc, hget, hreloc, rfl⟩
    · exact ⟨.of_same rfl rfl, record, reloc, hget, hreloc, rfl⟩

/-- The tie of a relocation to the instruction that it refers to; `first` and `given` are symbol and
relocation as they were before any tie was made. -/
theorem linkReferred_turn (index : AddressIndex) {first : Symbol} {given reloc : Relocation}
    (hget : state.table.get? symbol = some record) (hreloc : record.reloc = some reloc)
    (htarget : reloc.target = none) :
    Turn symbol state (linkReferred index state symbol first given) := by
  unfold linkReferred
  split
  next => exact .of_same rfl rfl
  next =>
    split
    next => exact .of_same rfl rfl
    next =>
      simp only
      split
      next found _ =>
        refine .of_tie (g := fun record => { record with
            reloc := record.reloc.map fun reloc => { reloc with target := some found } }) hget
          (Chain.update_eq_adjust (.pointedBy symbol)) rfl (fun _ => rfl) (.inl ⟨rfl, .inr ?_⟩)
          (fun id hpatches => ?_) fun id hpoints => ?_
        · exact ⟨{ reloc with target := some found }, by rw [hreloc]; rfl, rfl⟩
        · obtain ⟨reloc', hreloc', hpatched⟩ := hpatches
          exact ⟨{ reloc' with target := some found }, by rw [hreloc']; rfl, hpatched⟩
        · rcases hpoints with hself | ⟨reloc', hreloc', htargets⟩
          · exact .inl hself
          · obtain rfl := Option.some.inj (hreloc.symm.trans hreloc')
            rw [htarget] at htargets
            cases htargets
      next => exact .of_same rfl rfl

/-- To link a record that names no instruction yet ties it at its value, at what it patches and at what it
refers to. Each of the three is at most one note, so all of it is one turn. -/
theorem linkRecord_turn (index : AddressIndex) {withTargets : Bool}
    (huntied : ∀ record, state.table.get? symbol = some record → record.Untied) :
    Turn symbol state (linkRecord index withTargets state symbol) := by
  unfold linkRecord
  split
  next => exact .of_same rfl rfl
  next record hget =>
    obtain ⟨hself, hrelocs⟩ := huntied record hget
    obtain ⟨hturn, record₁, hget₁, hreloc₁⟩ := linkSymbol_turn index hget hself
    simp only
    split
    next => exact hturn
    next reloc hreloc =>
      obtain ⟨hinstr, htarget⟩ := hrelocs hreloc
      obtain ⟨hturn₂, record₂, reloc₂, hget₂, hreloc₂, htarget₂⟩ :=
        linkPatched_turn index hget₁ (hreloc₁.trans hreloc) hinstr
      split
      next =>
        exact (hturn.trans hturn₂).trans (linkReferred_turn index hget₂ hreloc₂ (htarget₂.trans htarget))
      next => exact hturn.trans hturn₂

/-! ## All records -/

/-- The records of a list, each of which has its turn once. -/
theorem linkRecords_faithful (index : AddressIndex) (withTargets : Bool) {symbols : List SymbolId} (hnodup : symbols.Nodup)
    (h : state.Faithful)
    (huntied : ∀ symbol ∈ symbols, ∀ record, state.table.get? symbol = some record → record.Untied) :
    (symbols.foldl (linkRecord index withTargets) state).Faithful
      ∧ Annotates state (symbols.foldl (linkRecord index withTargets) state) := by
  induction symbols generalizing state with
  | nil => exact ⟨h, .refl state⟩
  | cons symbol symbols ih =>
    obtain ⟨hnot, hnodup⟩ := List.nodup_cons.mp hnodup
    have hturn : Turn symbol state (linkRecord index withTargets state symbol) :=
      linkRecord_turn index (huntied symbol (List.mem_cons_self ..))
    obtain ⟨hfaithful, hannotates⟩ := ih hnodup (hturn.faithful h) fun other hother record hrecord => by
      rw [hturn.others fun he => hnot (he ▸ hother)] at hrecord
      exact huntied other (List.mem_cons_of_mem _ hother) record hrecord
    exact ⟨hfaithful, hturn.annotates.trans hannotates⟩

end Linking

/-- The records that are listed after linking are tied to the instructions that list them. -/
theorem linkSymbols_noted {chain : Chain} {table : SymbolTable} {withTargets : Bool} {linked : Linking}
    (hfree : ∀ {id instr}, chain.get? id = some instr → instr.relocs = [] ∧ instr.referencedBy = [])
    (htable : table.Unlinked) (h : linkSymbols chain table withTargets = .ok linked) :
    Noted linked.chain.tie? linked.table.get?
      ∧ chain.Evolves (fun _ a b => a.Annotated b) linked.chain
      ∧ linked.table.runs = table.runs ∧ ∀ id, linked.table.rank? id = table.rank? id := by
  unfold linkSymbols at h
  split at h
  next => cases h
  next index _ =>
    obtain rfl := Except.ok.inj h
    have hstart : Linking.Faithful ⟨chain, table, [], ⟨0, 0, 0⟩⟩ := by
      refine ⟨fun {id tie symbol} hid hmem => ?_, fun {id tie symbol} hid hmem => ?_⟩
      · obtain ⟨instr, hinstr, rfl⟩ := Chain.get?_of_tie? hid
        rw [Instruction.tie, (hfree hinstr).1] at hmem
        cases hmem
      · obtain ⟨instr, hinstr, rfl⟩ := Chain.get?_of_tie? hid
        rw [Instruction.tie, (hfree hinstr).2] at hmem
        cases hmem
    obtain ⟨hfaithful, hannotates⟩ := Linking.linkRecords_faithful index withTargets htable.nodup hstart
      fun _ _ _ => htable.untied
    exact ⟨hfaithful, hannotates.chain, hannotates.runs, hannotates.rank⟩

end Splice
