import Splice.Proofs.Symbol.Wiring

/-!
# Records that say the same of their symbol

A record says of its symbol what its name, its section and its value are, and which
instruction is there (`Symbol.Profile`). A duplicate says what the record said that it
copies, so the records of a symbol agree when it is made (`Unanimous`): in every table that
is read from an object (`load_unanimous`) and after every claim. They go on agreeing where
what becomes of a profile depends on the profile alone (`InStep`). Linking is of this kind,
for it finds the instruction of a symbol by what its records agree on.

`InStep` relates two tables by what records that said the same say afterwards, and does not
mention what that is. It is reflexive and transitive, so whole edits are in step when their
single changes are: an instruction that moves takes along all records of a symbol or none.
-/

namespace Splice

/-- What a record says of its symbol. -/
structure Symbol.Profile where
  name : String
  kind : SymbolKind
  sec : Option SectionId
  value : UInt64
  instr : Option InstrId

def Symbol.profile (record : Symbol) : Symbol.Profile :=
  ⟨record.name, record.kind, record.sec, record.value, record.instr⟩

namespace SymbolTable

variable {table after last : SymbolTable} {id base claimed : SymbolId} {record symbol : Symbol}
  {f : Symbol → Symbol}

/-- What the record with the name `id` says of its symbol. -/
def profile? (table : SymbolTable) (id : SymbolId) : Option Symbol.Profile :=
  (table.get? id).map Symbol.profile

/-- The records of each symbol say the same of it. -/
def Unanimous (table : SymbolTable) : Prop := ∀ ⦃x y a b⦄, table.get? x = some a → table.get? y = some b →
  a.base = b.base → a.profile = b.profile

/-! ## Tables that change in step -/

/-- No record has come or gone or changed its symbol, and records that said the same still do. -/
structure InStep (table after : SymbolTable) : Prop where
  runs : after.runs = table.runs
  rank : ∀ id, after.rank? id = table.rank? id
  profile : ∀ {x y}, table.profile? x = table.profile? y → after.profile? x = after.profile? y

theorem InStep.refl (table : SymbolTable) : table.InStep table := ⟨rfl, fun _ => rfl, fun h => h⟩

theorem InStep.trans (h : table.InStep after) (k : after.InStep last) : table.InStep last :=
  ⟨k.runs.trans h.runs, fun id => (k.rank id).trans (h.rank id), fun hsame => k.profile (h.profile hsame)⟩

/-- It is enough that what a record says afterwards depends on what it said. -/
theorem InStep.of_profile {f : SymbolId → Symbol → Symbol} {g : Symbol.Profile → Symbol.Profile}
    (hruns : after.runs = table.runs) (hget : ∀ id, after.get? id = (table.get? id).map (f id))
    (hrank : ∀ id record, (f id record).rank = record.rank)
    (hprofile : ∀ {id record}, table.get? id = some record → (f id record).profile = g record.profile) :
    table.InStep after where
  runs := hruns
  rank id := by
    rw [rank?, hget, Option.map_map]
    exact congrArg (Option.map · _) (funext (hrank id))
  profile := by
    have hg : ∀ id, after.profile? id = (table.profile? id).map g := by
      intro id
      rw [profile?, profile?, hget, Option.map_map, Option.map_map]
      exact Option.map_congr fun record hrecord => hprofile hrecord
    intro x y hsame
    rw [hg, hg, hsame]

/-- A change that keeps what a record says of its symbol keeps the table in step. -/
theorem InStep.update (table : SymbolTable) (id : SymbolId)
    (hrank : ∀ record : Symbol, (f record).rank = record.rank)
    (hprofile : ∀ record : Symbol, (f record).profile = record.profile) : table.InStep (table.update id f) := by
  refine .of_profile (f := fun other record => if other = id then f record else record) (g := fun said => said)
    rfl (fun other => ?_) (fun other record => ?_) fun {other record} _ => ?_
  · rw [get?_update]
    by_cases he : other = id
    · simp [he]
    · simp [he]
  · split
    · exact hrank record
    · rfl
  · split
    · exact hprofile record
    · rfl

/-- A record that was not told may have been told nothing new. -/
theorem Told.inStep {symbols : List SymbolId} {g : Symbol.Profile → Symbol.Profile}
    (h : table.Told after symbols f) (hrank : ∀ record : Symbol, (f record).rank = record.rank)
    (hprofile : ∀ record : Symbol, (f record).profile = g record.profile)
    (hothers : ∀ {id record}, table.get? id = some record → id ∉ symbols → g record.profile = record.profile) :
    table.InStep after := by
  refine .of_profile (f := fun id record => if id ∈ symbols then f record else record) (g := g) h.runs
    (fun id => ?_) (fun id record => ?_) fun {id record} hrecord => ?_
  · rw [h.get?]
    split
    · rfl
    · exact Option.map_id'.symm
  · split
    · exact hrank record
    · rfl
  · split
    · exact hprofile record
    next hnot => exact (hothers hrecord hnot).symm

/-- What does not concern the symbol. -/
theorem Told.inStep_same {symbols : List SymbolId} (h : table.Told after symbols f)
    (hrank : ∀ record : Symbol, (f record).rank = record.rank)
    (hprofile : ∀ record : Symbol, (f record).profile = record.profile) : table.InStep after :=
  h.inStep (g := fun said => said) hrank hprofile fun _ _ => rfl

/-- Each record was there before, with the same symbol. -/
theorem InStep.get?_of (h : table.InStep after) (hrecord : after.get? id = some record) :
    ∃ old, table.get? id = some old ∧ old.base = record.base := by
  have hrank := (h.rank id).symm.trans (rank?_of_get? hrecord)
  obtain ⟨old, hold, he⟩ := Option.map_eq_some_iff.mp hrank
  exact ⟨old, hold, congrArg Prod.fst he⟩

/-- Where records said the same before and all keep in step, they say the same. -/
theorem Unanimous.step (h : table.Unanimous) (hstep : table.InStep after) : after.Unanimous := by
  intro x y a b ha hb hbase
  obtain ⟨a', ha', hbasea⟩ := hstep.get?_of ha
  obtain ⟨b', hb', hbaseb⟩ := hstep.get?_of hb
  have hsaid := h ha' hb' (hbasea.trans (hbase.trans hbaseb.symm))
  have hsame : table.profile? x = table.profile? y := by
    rw [profile?, profile?, ha', hb', Option.map_some, Option.map_some, hsaid]
  have hstill := hstep.profile hsame
  rw [profile?, profile?, ha, hb] at hstill
  exact Option.some.inj hstill

/-- A record has a rank exactly if the table holds it. -/
theorem index_lt_iff_isSome_rank? : id.index < table.size ↔ (table.rank? id).isSome := by
  rw [rank?, Option.isSome_map, Option.isSome_iff_exists]
  constructor
  · exact exists_get?
  · rintro ⟨record, hrecord⟩
    exact index_lt_of_get? hrecord

/-- Tables in step hold equally many records. -/
theorem InStep.size (h : table.InStep after) : after.size = table.size := by
  have hlt : ∀ id : SymbolId, id.index < after.size ↔ id.index < table.size := by
    intro id
    rw [index_lt_iff_isSome_rank?, index_lt_iff_isSome_rank?, h.rank]
  refine Nat.le_antisymm (Nat.le_of_not_lt fun hmore => ?_) (Nat.le_of_not_lt fun hless => ?_)
  · exact Nat.lt_irrefl _ ((hlt ⟨table.size⟩).mp hmore)
  · exact Nat.lt_irrefl _ ((hlt ⟨after.size⟩).mpr hless)

/-- A table in step with an arranged one is arranged. -/
theorem Arranged.step (h : table.Arranged) (hstep : table.InStep after) : after.Arranged where
  once := by
    rw [ids, hstep.runs, hstep.size]
    exact h.once
  grouped := h.grouped.congr hstep.runs hstep.rank

/-! ## Records that are added -/

/-- A record that is stored and says of its symbol what the others say keeps them unanimous. -/
theorem Unanimous.store (h : table.Unanimous) {runs : List (List SymbolId)} {count : Nat}
    (hsame : ∀ {id record}, table.get? id = some record → record.base = symbol.base →
      record.profile = symbol.profile) :
    (SymbolTable.mk (table.records.push symbol) runs count).Unanimous := by
  intro x y a b ha hb hbase
  rw [get?_pushed] at ha hb
  split at ha
  · obtain rfl := Option.some.inj ha
    split at hb
    · obtain rfl := Option.some.inj hb
      rfl
    · exact (hsame hb hbase.symm).symm
  · split at hb
    · obtain rfl := Option.some.inj hb
      exact hsame ha hbase
    · exact h ha hb hbase

/-- The base record of a record is one of the table. -/
theorem Arranged.base_lt (h : table.Arranged) (hrecord : table.get? id = some record) :
    record.base.index < table.size := by
  obtain ⟨front, rest, behind, hruns, -⟩ := h.runOf? hrecord
  refine h.mem_ids.mp (List.mem_flatten.mpr ⟨record.base :: rest, ?_, List.mem_cons_self ..⟩)
  exact hruns ▸ List.mem_append_right _ (List.mem_cons_self ..)

/-- A new symbol has one record. -/
theorem Unanimous.push (h : table.Unanimous) (harranged : table.Arranged) (symbol : Symbol) :
    (table.push symbol).2.Unanimous := by
  refine h.store fun hrecord hbase => ?_
  -- the new symbol is its own base, and no record that is there has a base that is not
  have hlt := harranged.base_lt hrecord
  rw [hbase] at hlt
  exact absurd hlt (Nat.lt_irrefl _)

/-- A duplicate says what the record says that it copies. -/
theorem Unanimous.claim (h : table.Unanimous) (hclaim : table.claim id = .ok (claimed, after)) :
    after.Unanimous := by
  obtain ⟨found, -, ⟨-, rfl⟩ | ⟨front, run, behind, last, -, -, hlast, -, rfl⟩⟩ := claim_ok hclaim
  · exact h.step (.update table claimed (fun _ => rfl) fun _ => rfl)
  · exact h.store fun hrecord hbase => show _ = last.profile from h hrecord hlast hbase

/-- A duplicate that is handed out has no ties of its own, and it points where its symbol points. -/
theorem Unanimous.claim_copies {copy : Symbol} (h : table.Unanimous) (harranged : table.Arranged)
    (hclaim : table.claim id = .ok (claimed, after)) (hcopy : after.get? claimed = some copy)
    (hduplicate : copy.duplicate = true) :
    (∀ reloc, copy.reloc = some reloc → reloc.instr = none ∧ reloc.target = none)
      ∧ ∃ record, table.get? id = some record ∧ copy.profile = record.profile := by
  obtain ⟨found, hfound, ⟨rfl, rfl⟩ | ⟨front, run, behind, last, hruns, hhead, hlast, rfl, rfl⟩⟩ := claim_ok hclaim
  · -- a base record is no duplicate
    obtain ⟨_, _, _, -, -, hrun, -⟩ := harranged.runOf? hfound
    have hstep := InStep.update table found.base (f := fun symbol => { symbol with referenced := true })
      (fun _ => rfl) fun _ => rfl
    have hrank := (hstep.rank found.base).trans hrun.1
    rw [rank?_of_get? hcopy, hduplicate, Option.some.injEq, Prod.mk.injEq] at hrank
    cases hrank.2
  · rw [get?_pushed, if_pos rfl, Option.some.injEq] at hcopy
    subst hcopy
    have hmem : run ∈ table.runs := hruns ▸ List.mem_append_right _ (List.mem_cons_self ..)
    have hsame : last.profile = found.profile :=
      h hlast hfound ((harranged.grouped run hmem).last hhead hlast)
    refine ⟨fun reloc hreloc => ?_, found, hfound, hsame⟩
    obtain ⟨_, -, rfl⟩ := Option.map_eq_some_iff.mp hreloc
    exact ⟨rfl, rfl⟩

/-- To read one more relocation keeps the records unanimous, as the new record is a copy of one. -/
theorem Unanimous.addRelocation (h : table.Unanimous) {warnings warned : List Warning}
    {raw : RawRelocation} (hadd : addRelocation (table, warnings) raw = .ok (after, warned)) :
    after.Unanimous := by
  obtain rfl | ⟨base, claimed, claimedTable, hclaim, rfl⟩ := addRelocation_ok hadd
  · exact h
  · exact (h.claim hclaim).step (.update claimedTable claimed (fun _ => rfl) fun _ => rfl)

/-- The records of each symbol of an object say the same of it. -/
theorem load_unanimous {symbols : List RawSymbol} {relocations : List RawRelocation}
    {warnings : List Warning} (h : load symbols relocations = .ok (table, warnings)) : table.Unanimous := by
  have hboth : table.Arranged ∧ table.Unanimous := by
    refine load_induct (p := fun table => table.Arranged ∧ table.Unanimous) ⟨empty_arranged, ?_⟩ ?_ ?_ h
    · intro x y a b ha
      cases ha
    · intro table id index raw htable
      exact ⟨htable.1.push _, htable.2.push htable.1 _⟩
    · intro table warnings raw after warned htable hadd
      exact ⟨htable.1.addRelocation hadd, htable.2.addRelocation hadd⟩
  exact hboth.2

end SymbolTable

/-- Linking finds the instruction of a symbol by its kind, its section and its value. -/
theorem linkSymbols_inStep {chain : Chain} {table : SymbolTable} {withTargets : Bool} {linked : Linking}
    (harranged : table.Arranged) (h : linkSymbols chain table withTargets = .ok linked) :
    table.InStep linked.table := by
  obtain ⟨index, hofChain⟩ : ∃ index, AddressIndex.ofChain chain = .ok index := by
    unfold linkSymbols at h
    split at h
    next => cases h
    next index hindex => exact ⟨index, hindex⟩
  rw [linkSymbols_eq hofChain harranged, Except.ok.injEq] at h
  subst h
  refine .of_profile (f := fun _ => index.tied chain withTargets)
    (g := fun said => { said with instr := (said.sec.bind fun sec =>
      if said.kind == .wholeSection then none else index.beginning? sec said.value).or said.instr })
    (LinkNote.runs_written _ _) (get?_written harranged rfl) (fun _ _ => rfl) fun _ => rfl

end Splice
