import Mathlib.Data.Nat.Find
import Splice.Proofs.Symbol.Runs

/-!
# Symbols that are looked up by name

A name is looked up among the records that have a position in the object's list, and those are
the base records in front of the first duplicate (`Fronted`): a symbol that is pushed gets a
position only while every record has one, and a duplicate that is stored never has one. Any
calls keep that. So the record that is found is never a duplicate and is the first base record
with its name, and a base record is missed exactly if a duplicate was stored before it was
pushed (`byName?_along_calls`).

The calls are those that change a table (`SymbolCall`), in any order and with any arguments. The
statement is exact: it says what is found, and that a symbol is missed exactly if a duplicate
came before it. What is looked up among the records in front is a matter of the count of base
symbols, which stops at the first duplicate.
-/

namespace Splice

/-- The name of the symbol that a call adds. -/
def SymbolCall.pushedName? : SymbolCall → Option String
  | .push symbol => some symbol.name
  | .claim _ => none

/-- The name of a record, if it is a base record. -/
def Symbol.ownName? (record : Symbol) : Option String :=
  if record.duplicate then none else some record.name

namespace SymbolTable

variable {table after : SymbolTable} {id claimed : SymbolId} {record : Symbol} {name : String}

/-- The record is a base record with the given name. -/
def Named (table : SymbolTable) (name : String) (id : SymbolId) : Prop :=
  ∃ record, table.get? id = some record ∧ record.duplicate = false ∧ record.name = name

/-- The record is the first base record with the given name. -/
def FirstNamed (table : SymbolTable) (name : String) (id : SymbolId) : Prop :=
  table.Named name id ∧ ∀ other, other.index < id.index → ¬ table.Named name other

/-- A duplicate is stored in front of the record. -/
def Preceded (table : SymbolTable) (id : SymbolId) : Prop :=
  ∃ other record, other.index < id.index ∧ table.get? other = some record ∧ record.duplicate = true

/-- If a base record has a name, a first one has it. -/
theorem Named.exists_first (h : table.Named name id) :
    ∃ first, table.FirstNamed name first ∧ first.index ≤ id.index := by
  classical
  have hsome : ∃ index, table.Named name ⟨index⟩ := ⟨id.index, h⟩
  exact ⟨⟨Nat.find hsome⟩, ⟨Nat.find_spec hsome, fun _ hlt => Nat.find_min hsome hlt⟩,
    Nat.find_min' hsome h⟩

/-! ## Names in the order of the pushes -/

/-- The names of the base records in the order in which they are stored. -/
def baseNames (table : SymbolTable) : List String := table.records.toList.filterMap Symbol.ownName?

/-- To change a record without its name changes no name. -/
theorem baseNames_update {f : Symbol → Symbol} (hf : ∀ record : Symbol, (f record).ownName? = record.ownName?) :
    (table.update id f).baseNames = table.baseNames := by
  have hnames : (table.update id f).records.toList.map Symbol.ownName?
      = table.records.toList.map Symbol.ownName? := by
    refine List.ext_getElem? fun index => ?_
    show ((table.records.modify id.index f).toList.map _)[index]? = _
    rw [List.getElem?_map, List.getElem?_map, Array.getElem?_toList, Array.getElem?_modify,
      Array.getElem?_toList]
    split
    · rw [Option.map_map]
      exact congrArg (fun label => Option.map label _) (funext hf)
    · rfl
  have hfilter := congrArg (List.filterMap fun label => label) hnames
  rw [List.filterMap_map, List.filterMap_map] at hfilter
  exact hfilter

/-- A record that is stored adds its name at the end, if it is a base record. -/
theorem baseNames_store {symbol : Symbol} {runs : List (List SymbolId)} {count : Nat} :
    (SymbolTable.mk (table.records.push symbol) runs count).baseNames
      = table.baseNames ++ symbol.ownName?.toList := by
  show (table.records.push symbol).toList.filterMap _ = _
  rw [Array.toList_push, List.filterMap_append, baseNames]
  cases hname : symbol.ownName? with
  | none => rw [List.filterMap_cons_none hname]; rfl
  | some name => rw [List.filterMap_cons_some hname]; rfl

theorem baseNames_push (symbol : Symbol) :
    (table.push symbol).2.baseNames = table.baseNames ++ [symbol.name] :=
  baseNames_store

/-- To claim a record adds a duplicate at most, which has no name of its own. -/
theorem baseNames_claim (h : table.claim id = .ok (claimed, after)) :
    after.baseNames = table.baseNames := by
  obtain ⟨found, -, ⟨-, rfl⟩ | ⟨front, run, behind, last, -, -, -, -, rfl⟩⟩ := claim_ok h
  · exact baseNames_update fun _ => rfl
  · exact baseNames_store.trans (List.append_nil _)

/-- The base records that are read from an object are its symbols. -/
theorem baseNames_load {symbols : List RawSymbol} {relocations : List RawRelocation}
    {warnings : List Warning} (h : load symbols relocations = .ok (table, warnings)) :
    table.baseNames = symbols.map (·.name) := by
  -- each symbol gives one base record, and what a relocation adds is none
  have hpushes : ∀ (entries : List (RawSymbol × Nat)) (table : SymbolTable),
      (entries.foldl (fun table entry =>
        (table.push (.ofRaw ⟨entry.2⟩ (UInt32.ofNat entry.2) entry.1)).2) table).baseNames
      = table.baseNames ++ entries.map (·.1.name) := by
    intro entries
    induction entries with
    | nil => exact fun table => (List.append_nil _).symm
    | cons entry entries ih =>
      intro table
      rw [List.foldl_cons, ih, baseNames_push, List.append_assoc]
      rfl
  refine load_of_symbols (p := fun table => table.baseNames = symbols.map (·.name)) ?_ ?_ h
  · have hnames : symbols.zipIdx.map (·.1.name) = symbols.map (·.name) := by
      conv_rhs => rw [← List.zipIdx_map_fst 0 symbols, List.map_map]
      rfl
    refine (hpushes symbols.zipIdx empty).trans ?_
    rw [hnames]
    rfl
  · intro table warnings raw after warned htable hadd
    obtain rfl | ⟨base, claimed, claimedTable, hclaim, rfl⟩ := addRelocation_ok hadd
    · exact htable
    · refine Eq.trans (baseNames_update ?_) ((baseNames_claim hclaim).trans htable)
      exact fun _ => rfl

/-- The names of the base records are those that were pushed, in order, behind those that were there. -/
theorem baseNames_reached (table : SymbolTable) (calls : List SymbolCall) :
    (table.reached calls).baseNames = table.baseNames ++ calls.filterMap SymbolCall.pushedName? := by
  induction calls generalizing table with
  | nil => exact (List.append_nil _).symm
  | cons made calls ih =>
    refine (ih (table.call made)).trans ?_
    cases made with
    | push symbol =>
      rw [call, baseNames_push, List.append_assoc]
      rfl
    | claim id =>
      rw [call]
      cases hclaim : table.claim id with
      | error => rfl
      | ok result => exact congrArg (· ++ _) (baseNames_claim hclaim)

/-! ## The records with a position -/

/-- The records with a position in the object's list are those in front of the first duplicate. -/
structure Fronted (table : SymbolTable) : Prop where
  bases : ∀ {id base duplicate}, table.rank? id = some (base, duplicate) → id.index < table.baseCount →
    duplicate = false
  bar : table.baseCount = table.size ∨ ∃ base, table.rank? ⟨table.baseCount⟩ = some (base, true)

namespace Fronted

theorem empty : SymbolTable.empty.Fronted where
  bases hrank := by cases hrank
  bar := .inl rfl

/-- To change a record without its rank keeps the positions. -/
theorem update (h : table.Fronted) {f : Symbol → Symbol}
    (hf : ∀ record : Symbol, (f record).rank = record.rank) : (table.update id f).Fronted where
  bases hrank hlt := h.bases ((rank?_update hf _).symm.trans hrank) hlt
  bar := by
    have hsize : (table.update id f).size = table.size := Array.size_modify ..
    rw [hsize, rank?_update hf]
    exact h.bar

/-- The positions of the list of the object are those of records. -/
theorem counted (h : table.Fronted) : table.Counted := by
  rcases h.bar with hall | ⟨base, hbar⟩
  · exact Nat.le_of_eq hall
  · obtain ⟨record, hrecord, -⟩ := Option.map_eq_some_iff.mp hbar
    exact Nat.le_of_lt (index_lt_of_get? hrecord)

/-- One record more has a position if it is a base record and every other record has one. -/
theorem store (h : table.Fronted) {symbol : Symbol} {runs : List (List SymbolId)} {count : Nat}
    (hcount : count = if table.baseCount = table.size ∧ symbol.duplicate = false then table.baseCount + 1
      else table.baseCount) : (SymbolTable.mk (table.records.push symbol) runs count).Fronted := by
  have hcounted : table.baseCount ≤ table.size := h.counted
  constructor
  · intro id base duplicate hrank hlt
    change id.index < count at hlt
    rw [rank?_stored] at hrank
    split at hrank
    next hid =>
      split at hcount
      next hcase => exact (Prod.mk.inj (Option.some.inj hrank)).2 ▸ hcase.2
      next => omega
    next hid => exact h.bases hrank (by split at hcount <;> omega)
  · have hsize : (SymbolTable.mk (table.records.push symbol) runs count).size = table.size + 1 :=
      Array.size_push ..
    simp only [hsize, rank?_stored]
    -- the bar is the end of the table until a duplicate is stored there, and that remains the bar
    rcases h.bar with hall | ⟨base, hbar⟩
    · cases hduplicate : symbol.duplicate with
      | false =>
        rw [if_pos ⟨hall, hduplicate⟩] at hcount
        exact .inl (hcount.trans (congrArg (· + 1) hall))
      | true =>
        rw [if_neg fun hcase => Bool.noConfusion (hduplicate.symm.trans hcase.2), hall] at hcount
        refine .inr ⟨symbol.base, ?_⟩
        rw [if_pos hcount, Symbol.rank, hduplicate]
    · obtain ⟨record, hrecord, -⟩ := Option.map_eq_some_iff.mp hbar
      have hlt : table.baseCount < table.size := index_lt_of_get? hrecord
      rw [if_neg fun hcase => Nat.ne_of_lt hlt hcase.1] at hcount
      refine .inr ⟨base, ?_⟩
      rw [if_neg (by omega), hcount]
      exact hbar

/-- A base record that is pushed gets a position if no duplicate is in front of it. -/
theorem push (h : table.Fronted) (symbol : Symbol) : (table.push symbol).2.Fronted := by
  refine h.store ?_
  show (if table.baseCount = table.size then _ else _) = _
  split <;> simp [*]

/-- To claim a record keeps the positions, as duplicates have none. -/
theorem claim (h : table.Fronted) (hclaim : table.claim id = .ok (claimed, after)) : after.Fronted := by
  obtain ⟨found, -, ⟨-, rfl⟩ | ⟨front, run, behind, last, -, -, -, -, rfl⟩⟩ := claim_ok hclaim
  · exact h.update fun _ => rfl
  · exact h.store (if_neg fun hcase => Bool.noConfusion hcase.2).symm

/-- To read one more relocation keeps the positions. -/
theorem addRelocation (h : table.Fronted) {warnings warned : List Warning} {raw : RawRelocation}
    (hadd : addRelocation (table, warnings) raw = .ok (after, warned)) : after.Fronted := by
  obtain rfl | ⟨base, claimed, claimedTable, hclaim, rfl⟩ := addRelocation_ok hadd
  · exact h
  · exact (h.claim hclaim).update fun _ => rfl

theorem load {symbols : List RawSymbol} {relocations : List RawRelocation} {warnings : List Warning}
    (h : load symbols relocations = .ok (table, warnings)) : table.Fronted :=
  load_induct empty (fun _ _ _ _ htable => htable.push _) (fun _ _ _ _ _ htable => htable.addRelocation) h

/-- All calls keep the positions. The induction is on the calls. -/
theorem reached (h : table.Fronted) (calls : List SymbolCall) : (table.reached calls).Fronted := by
  induction calls generalizing table with
  | nil => exact h
  | cons made calls ih =>
    change ((table.call made).reached calls).Fronted
    apply ih
    cases made with
    | push symbol => exact h.push symbol
    | claim id =>
      rw [call]
      cases hclaim : table.claim id with
      | error => exact h
      | ok result => exact h.claim hclaim

/-- The records without a position are the first duplicate and those behind it. -/
theorem index_lt_iff (h : table.Fronted) (hrecord : table.get? id = some record) :
    id.index < table.baseCount ↔ record.duplicate = false ∧ ¬ table.Preceded id := by
  have hbase : ∀ {other record}, table.get? other = some record → other.index < table.baseCount →
      record.duplicate = false := fun hrecord hlt => h.bases (rank?_of_get? hrecord) hlt
  constructor
  · intro hlt
    refine ⟨hbase hrecord hlt, fun hpreceded => ?_⟩
    obtain ⟨other, stray, hfront, hstray, hduplicate⟩ := hpreceded
    rw [hbase hstray (Nat.lt_trans hfront hlt)] at hduplicate
    cases hduplicate
  · intro hfront
    by_contra hge
    have hlt := index_lt_of_get? hrecord
    rcases h.bar with hall | ⟨base, hbar⟩
    · omega
    · -- the duplicate at the bar is the record itself or stands in front of it
      obtain ⟨bar, hbar, hrank⟩ := Option.map_eq_some_iff.mp hbar
      have hduplicate : bar.duplicate = true := congrArg Prod.snd hrank
      by_cases hid : id = ⟨table.baseCount⟩
      · rw [hid, hbar, Option.some.injEq] at hrecord
        rw [← hrecord, hduplicate] at hfront
        cases hfront.1
      · refine hfront.2 ⟨⟨table.baseCount⟩, bar, ?_, hbar, hduplicate⟩
        exact Nat.lt_of_le_of_ne (Nat.le_of_not_lt hge) fun he => hid (Handle.ext_index he.symm)

end Fronted

/-! ## The search -/

/-- What is found is the first record with the name among those with a position. -/
theorem byName?_eq_some (hcounted : table.Counted) : table.byName? name = some id ↔
    id.index < table.baseCount ∧ (∃ record, table.get? id = some record ∧ record.name = name)
      ∧ ∀ other stray, other.index < id.index → table.get? other = some stray → stray.name ≠ name := by
  have hlength : (table.records.toList.take table.baseCount).length = table.baseCount := by
    rw [List.length_take, Array.length_toList]
    exact Nat.min_eq_left hcounted
  have hget : ∀ (index : Nat) (hlt : index < (table.records.toList.take table.baseCount).length),
      table.get? ⟨index⟩ = some (table.records.toList.take table.baseCount)[index] := by
    intro index hlt
    rw [← List.getElem?_eq_getElem hlt, List.getElem?_take_of_lt (hlength ▸ hlt), Array.getElem?_toList]
    rfl
  rw [byName?, Option.map_eq_some_iff]
  simp only [List.findIdx?_eq_some_iff_getElem, beq_iff_eq]
  constructor
  · intro hfound
    obtain ⟨index, ⟨hlt, hname, hfirst⟩, rfl⟩ := hfound
    refine ⟨hlength ▸ hlt, ⟨_, hget index hlt, hname⟩, fun other stray hfront hstray => ?_⟩
    rw [hget other.index (Nat.lt_trans hfront hlt), Option.some.injEq] at hstray
    exact hstray ▸ hfirst other.index hfront
  · intro hfound
    obtain ⟨hlt, ⟨record, hrecord, hname⟩, hfirst⟩ := hfound
    rw [← hlength] at hlt
    rw [hget id.index hlt, Option.some.injEq] at hrecord
    refine ⟨id.index, ⟨hlt, hrecord ▸ hname, fun index hfront => ?_⟩, rfl⟩
    exact hfirst ⟨index⟩ _ hfront (hget index (Nat.lt_trans hfront hlt))

namespace Fronted

/-- The record that is found is the first base record with the name, if no duplicate is in front of it. -/
theorem byName?_eq_some (h : table.Fronted) :
    table.byName? name = some id ↔ table.FirstNamed name id ∧ ¬ table.Preceded id := by
  rw [SymbolTable.byName?_eq_some h.counted]
  constructor
  · intro hfound
    obtain ⟨hlt, ⟨record, hrecord, hname⟩, hfirst⟩ := hfound
    obtain ⟨hbase, hpreceded⟩ := (h.index_lt_iff hrecord).mp hlt
    refine ⟨⟨⟨record, hrecord, hbase, hname⟩, fun other hfront hnamed => ?_⟩, hpreceded⟩
    obtain ⟨stray, hstray, -, hsame⟩ := hnamed
    exact hfirst other stray hfront hstray hsame
  · intro hfound
    obtain ⟨⟨⟨record, hrecord, hbase, hname⟩, hfirst⟩, hpreceded⟩ := hfound
    refine ⟨(h.index_lt_iff hrecord).mpr ⟨hbase, hpreceded⟩, ⟨record, hrecord, hname⟩, ?_⟩
    intro other stray hfront hstray hsame
    cases hduplicate : stray.duplicate with
    | false => exact hfirst other hfront ⟨stray, hstray, hduplicate, hsame⟩
    | true => exact hpreceded ⟨other, stray, hfront, hstray, hduplicate⟩

/-- Nothing is found exactly if every base record with the name stands behind a duplicate. -/
theorem byName?_eq_none (h : table.Fronted) :
    table.byName? name = none ↔ ∀ id, table.Named name id → table.Preceded id := by
  constructor
  · intro hnone id hnamed
    obtain ⟨first, hfirst, hle⟩ := hnamed.exists_first
    by_contra hfree
    -- nothing in front of the first record with the name is a duplicate either, so that is found
    have hfound : table.byName? name = some first := by
      refine h.byName?_eq_some.mpr ⟨hfirst, fun hpreceded => hfree ?_⟩
      obtain ⟨other, stray, hfront, hstray⟩ := hpreceded
      exact ⟨other, stray, Nat.lt_of_lt_of_le hfront hle, hstray⟩
    rw [hnone] at hfound
    cases hfound
  · intro hbehind
    rw [Option.eq_none_iff_forall_ne_some]
    intro id hfound
    obtain ⟨hfirst, hfree⟩ := h.byName?_eq_some.mp hfound
    exact hfree (hbehind id hfirst.1)

end Fronted

/-- After any calls on a table that was read from an object, its base records are the symbols of the
object and those that were pushed, in this order; a name is answered with the first base record that has
it if no duplicate was stored before that one, and with nothing if a duplicate was stored before each of
them. -/
theorem byName?_along_calls (symbols : List RawSymbol) (relocations : List RawRelocation) :
    ∃ table warnings, load symbols relocations = .ok (table, warnings) ∧ ∀ calls,
      (table.reached calls).baseNames
          = symbols.map (·.name) ++ calls.filterMap SymbolCall.pushedName?
        ∧ ∀ name, (∀ id, (table.reached calls).byName? name = some id ↔
            (table.reached calls).FirstNamed name id ∧ ¬ (table.reached calls).Preceded id)
          ∧ ((table.reached calls).byName? name = none ↔
            ∀ id, (table.reached calls).Named name id → (table.reached calls).Preceded id) := by
  obtain ⟨table, warnings, hload⟩ := load_succeeds symbols relocations
  refine ⟨table, warnings, hload, fun calls => ⟨?_, fun name => ?_⟩⟩
  · rw [baseNames_reached, baseNames_load hload]
  · have hreached := (Fronted.load hload).reached calls
    exact ⟨fun id => hreached.byName?_eq_some, hreached.byName?_eq_none⟩

/-- A symbol that is pushed after a duplicate was stored is not found by its name, though no other record
has that name. -/
theorem pushed_behind_duplicate_missed : ∃ table warnings,
    load [⟨"a", 0, 0, 0, 0⟩] [] = .ok (table, warnings)
      ∧ (table.reached [.claim ⟨0⟩, .claim ⟨0⟩,
          .push (.ofRaw ⟨2⟩ 2 ⟨"b", 0, 0, 0, 0⟩)]).FirstNamed "b" ⟨2⟩
      ∧ (table.reached [.claim ⟨0⟩, .claim ⟨0⟩,
          .push (.ofRaw ⟨2⟩ 2 ⟨"b", 0, 0, 0, 0⟩)]).byName? "b" = none := by
  refine ⟨_, _, rfl, ⟨⟨_, rfl, rfl, rfl⟩, fun other hfront hnamed => ?_⟩, by decide⟩
  obtain ⟨index⟩ := other
  obtain ⟨record, hrecord, -, hname⟩ := hnamed
  match index, hfront with
  | 0, _ => cases hrecord; exact absurd hname (by decide)
  | 1, _ => cases hrecord; exact absurd hname (by decide)

end SymbolTable

end Splice
