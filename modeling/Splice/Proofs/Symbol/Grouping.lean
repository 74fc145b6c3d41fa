import Splice.Program.Check
import Splice.Proofs.Symbol.Table

/-!
# Records of one symbol

Each run of a symbol table consists of a base record and duplicates of it (`Grouped`). The empty
table has no run, a symbol that is pushed is a run of its own, and a record that is claimed
besides the base is put behind the last one of its run, which it copies; so every table that is
read from an object is grouped (`load_grouped`). A table that is grouped, and lists no record
twice, passes the check of its symbols (`verifySymbols_ok`).

`verifySymbols_ok` is what the check of symbols comes to for a table that was loaded and claimed
from: it remembers the symbols that it is done with and asks of the next record that it belongs
to the run at hand. Changing what a record holds, for example where it points, changes no rank,
so every table that edits reach passes as well.
-/

namespace Splice

/-- The base record of a record's symbol, and whether the record is a duplicate. -/
def Symbol.rank (record : Symbol) : SymbolId × Bool := (record.base, record.duplicate)

namespace SymbolTable

variable {table after : SymbolTable} {id base : SymbolId} {run : List SymbolId}

/-- The rank of the record with the name `id`. -/
def rank? (table : SymbolTable) (id : SymbolId) : Option (SymbolId × Bool) :=
  (table.get? id).map Symbol.rank

/-- The records of the list are a base record and duplicates of it. -/
def IsRun (table : SymbolTable) : List SymbolId → Prop
  | [] => False
  | base :: rest => table.rank? base = some (base, false) ∧ ∀ id ∈ rest, table.rank? id = some (base, true)

/-- Every run is the run of one symbol. -/
def Grouped (table : SymbolTable) : Prop := ∀ run ∈ table.runs, table.IsRun run

/-- A run stays one where its records keep their ranks. -/
theorem IsRun.congr (h : table.IsRun run) (hsame : ∀ id ∈ run, after.rank? id = table.rank? id) :
    after.IsRun run := by
  cases run with
  | nil => exact h
  | cons base rest =>
    refine ⟨(hsame base (List.mem_cons_self ..)).trans h.1, fun id hid => ?_⟩
    exact (hsame id (List.mem_cons_of_mem _ hid)).trans (h.2 id hid)

/-- Runs stay those of one symbol each where all records keep their ranks. -/
theorem Grouped.congr (h : table.Grouped) (hruns : after.runs = table.runs)
    (hsame : ∀ id, after.rank? id = table.rank? id) : after.Grouped := by
  intro run hrun
  rw [hruns] at hrun
  exact (h run hrun).congr fun id _ => hsame id

/-- Each record of a run is one of its symbol. -/
theorem IsRun.rank_of_mem {rest : List SymbolId} (h : table.IsRun (base :: rest)) (hid : id ∈ base :: rest) :
    ∃ duplicate, table.rank? id = some (base, duplicate) := by
  rcases List.mem_cons.mp hid with rfl | hin
  · exact ⟨false, h.1⟩
  · exact ⟨true, h.2 id hin⟩

/-! ## Reading -/

/-- To change a record without its rank changes no rank. -/
theorem rank?_update {f : Symbol → Symbol} (hf : ∀ record : Symbol, (f record).rank = record.rank)
    (other : SymbolId) : (table.update id f).rank? other = table.rank? other := by
  rw [rank?, get?_update]
  split
  next he =>
    rw [he, Option.map_map, rank?]
    congr 1
    exact funext hf
  next => rfl

theorem Grouped.update (h : table.Grouped) {f : Symbol → Symbol}
    (hf : ∀ record : Symbol, (f record).rank = record.rank) : (table.update id f).Grouped :=
  h.congr rfl (rank?_update hf)

theorem rank?_stored {symbol : Symbol} {runs : List (List SymbolId)} {count : Nat} (id : SymbolId) :
    (SymbolTable.mk (table.records.push symbol) runs count).rank? id
      = if id.index = table.size then some symbol.rank else table.rank? id := by
  rw [rank?, get?_pushed]
  split <;> rfl

/-- The records that are listed are in front of the one that is stored next. -/
theorem rank?_pushed (hlisted : ∀ id ∈ table.ids, id.index < table.size) {symbol : Symbol}
    {runs : List (List SymbolId)} {count : Nat} (hrun : run ∈ table.runs) (hid : id ∈ run) :
    (SymbolTable.mk (table.records.push symbol) runs count).rank? id = table.rank? id := by
  have hlt := hlisted id (List.mem_flatten.mpr ⟨run, hrun, hid⟩)
  rw [rank?_stored, if_neg (Nat.ne_of_lt hlt)]

/-- A new base record is a run of its own. -/
theorem Grouped.push (h : table.Grouped) (hlisted : ∀ id ∈ table.ids, id.index < table.size)
    (symbol : Symbol) : (table.push symbol).2.Grouped := by
  intro run hrun
  rcases List.mem_append.mp hrun with hold | hnew
  · exact (h run hold).congr fun id hid => rank?_pushed hlisted hold hid
  · obtain rfl := List.mem_singleton.mp hnew
    refine ⟨?_, fun id hid => absurd hid List.not_mem_nil⟩
    exact congrArg (Option.map Symbol.rank) ((get?_pushed _).trans (if_pos rfl))

/-- The last record of a run is one of its symbol. -/
theorem IsRun.last {last : Symbol} (h : table.IsRun run) (hhead : run.head? = some base)
    (hlast : table.get? (run.getLast?.getD base) = some last) : last.base = base := by
  obtain ⟨base', rest, rfl⟩ : ∃ base' rest, run = base' :: rest := by
    cases run with
    | nil => cases hhead
    | cons base' rest => exact ⟨base', rest, rfl⟩
  have hbase : base' = base := Option.some.inj hhead
  rw [List.getLast?_cons, Option.getD_some] at hlast
  have hmem : rest.getLast?.getD base' ∈ base' :: rest := by
    cases hrest : rest.getLast? with
    | none => exact List.mem_cons_self ..
    | some id => exact List.mem_cons_of_mem _ (List.mem_of_getLast? hrest)
  obtain ⟨duplicate, hrank⟩ := h.rank_of_mem hmem
  rw [rank?, hlast, hbase] at hrank
  exact congrArg Prod.fst (Option.some.inj hrank)

/-- To claim a record adds a duplicate to the run of its symbol at most. -/
theorem Grouped.claim (h : table.Grouped) (hlisted : ∀ id ∈ table.ids, id.index < table.size)
    {claimed : SymbolId} (hclaim : table.claim id = .ok (claimed, after)) : after.Grouped := by
  obtain ⟨found, -, ⟨-, rfl⟩ | ⟨front, run, behind, last, hruns, hhead, hlast, -, rfl⟩⟩ := claim_ok hclaim
  · exact h.update fun _ => rfl
  · have hmem : run ∈ table.runs := hruns ▸ List.mem_append_right _ (List.mem_cons_self ..)
    have hold : ∀ other ∈ table.runs, IsRun ⟨table.records.push (Symbol.duplicated last),
        front ++ (run ++ [⟨table.size⟩]) :: behind, table.baseCount⟩ other :=
      fun other hother => (h other hother).congr fun id hid => rank?_pushed hlisted hother hid
    intro other hother
    rcases List.mem_append.mp hother with hfront | hrest
    · exact hold other (hruns ▸ List.mem_append_left _ hfront)
    rcases List.mem_cons.mp hrest with rfl | hbehind
    · have hlonger := hold run hmem
      have hbase := (h run hmem).last hhead hlast
      cases run with
      | nil => cases hhead
      | cons base rest =>
        obtain rfl := Option.some.inj hhead
        refine ⟨hlonger.1, fun id hid => ?_⟩
        rcases List.mem_append.mp hid with hin | hnew
        · exact hlonger.2 id hin
        · obtain rfl := List.mem_singleton.mp hnew
          rw [rank?, get?_pushed, if_pos rfl, ← hbase]
          rfl
    · exact hold other (hruns ▸ List.mem_append_right _ (List.mem_cons_of_mem _ hbehind))

/-- To read one more relocation adds a duplicate at most. -/
theorem Grouped.addRelocation (h : table.Grouped) (hlisted : ∀ id ∈ table.ids, id.index < table.size)
    {warnings warned : List Warning} {raw : RawRelocation} (hadd : addRelocation (table, warnings) raw = .ok (after, warned)) :
    after.Grouped := by
  obtain rfl | ⟨base, claimed, claimedTable, hclaim, rfl⟩ := addRelocation_ok hadd
  · exact h
  · exact (h.claim hlisted hclaim).update fun _ => rfl

/-- What is read from an object is grouped by symbols. -/
theorem load_grouped {symbols : List RawSymbol} {relocations : List RawRelocation}
    {warnings : List Warning} (h : load symbols relocations = .ok (table, warnings)) : table.Grouped := by
  have hboth : table.Unlinked ∧ table.Grouped := by
    refine load_induct (p := fun table => table.Unlinked ∧ table.Grouped) ⟨empty_unlinked, ?_⟩ ?_ ?_ h
    · intro run hrun
      cases hrun
    · intro table id index raw htable
      exact ⟨htable.1.push ofRaw_untied, htable.2.push htable.1.listed _⟩
    · intro table warnings raw after warned htable hadd
      exact ⟨htable.1.addRelocation hadd, htable.2.addRelocation htable.1.listed hadd⟩
  exact hboth.2

/-! ## Checking -/

/-- The record with the name `id`, as it is written out. -/
def listing? (table : SymbolTable) (id : SymbolId) : Option (SymbolId × Symbol) :=
  (table.get? id).map fun symbol => (id, symbol)

/-- A record with a rank is listed with that rank. -/
theorem listing?_of_rank? {duplicate : Bool} (h : table.rank? id = some (base, duplicate)) :
    ∃ symbol, table.listing? id = some (id, symbol) ∧ symbol.base = base ∧ symbol.duplicate = duplicate := by
  obtain ⟨symbol, hsymbol, hrank⟩ := Option.map_eq_some_iff.mp h
  obtain ⟨rfl, rfl⟩ := Prod.mk.inj hrank
  exact ⟨symbol, by rw [listing?, hsymbol]; rfl, rfl, rfl⟩

end SymbolTable

namespace Program

variable {table : SymbolTable} {finished : List SymbolId} {current : Option SymbolId} {base : SymbolId}
  {more : List (SymbolId × Symbol)}

/-- Duplicates of the symbol of the record in front are passed over. -/
theorem checkRecords_duplicates {rest : List SymbolId}
    (h : ∀ id ∈ rest, table.rank? id = some (base, true)) :
    checkRecords finished (some base) (rest.filterMap table.listing? ++ more)
      = checkRecords finished (some base) more := by
  induction rest with
  | nil => rfl
  | cons id rest ih =>
    obtain ⟨symbol, hentry, hbase, hduplicate⟩ := SymbolTable.listing?_of_rank? (h id (List.mem_cons_self ..))
    rw [List.filterMap_cons_some hentry, List.cons_append, checkRecords, hbase, if_pos rfl, hduplicate]
    exact ih fun other hother => h other (List.mem_cons_of_mem _ hother)

/-- The records of a symbol that has not come yet are passed over. -/
theorem checkRecords_run {run : List SymbolId} (more : List (SymbolId × Symbol)) (hrun : table.IsRun run)
    (hnew : ∀ id ∈ run, id ∉ finished ++ current.toList) :
    ∃ base ∈ run, checkRecords finished current (run.filterMap table.listing? ++ more)
      = checkRecords (finished ++ current.toList) (some base) more := by
  cases run with
  | nil => cases hrun
  | cons base rest =>
    obtain ⟨symbol, hentry, hbase, hduplicate⟩ := SymbolTable.listing?_of_rank? hrun.1
    have hbefore := hnew base (List.mem_cons_self ..)
    have hcurrent : current ≠ some base := by
      rintro rfl
      exact hbefore (List.mem_append_right _ (List.mem_singleton.mpr rfl))
    have hfinished : (!(finished ++ current.toList).contains base) = true := by
      rw [Bool.not_eq_true', ← Bool.not_eq_true, List.contains_iff_mem]
      exact hbefore
    refine ⟨base, List.mem_cons_self .., ?_⟩
    rw [List.filterMap_cons_some hentry, List.cons_append, checkRecords, hbase, if_neg hcurrent, hduplicate]
    simp only [hfinished, beq_self_eq_true]
    exact checkRecords_duplicates hrun.2

/-- The check of the records passes where each run is that of one symbol and no record is listed twice. It
remembers the symbols that it is done with, so the induction keeps those apart from the runs that are
left. -/
theorem checkRecords_runs {runs : List (List SymbolId)} (hruns : ∀ run ∈ runs, table.IsRun run)
    (hnodup : runs.flatten.Nodup) (hnew : ∀ id ∈ runs.flatten, id ∉ finished ++ current.toList) :
    checkRecords finished current (runs.flatten.filterMap table.listing?) = .ok () := by
  induction runs generalizing finished current with
  | nil => rfl
  | cons run runs ih =>
    rw [List.flatten_cons, List.nodup_append] at hnodup
    obtain ⟨-, hrest, hapart⟩ := hnodup
    rw [List.flatten_cons] at hnew
    obtain ⟨base, hbase, hpassed⟩ := checkRecords_run (runs.flatten.filterMap table.listing?)
      (hruns run (List.mem_cons_self ..)) fun id hid => hnew id (List.mem_append_left _ hid)
    rw [List.flatten_cons, List.filterMap_append, hpassed]
    refine ih (fun other hother => hruns other (List.mem_cons_of_mem _ hother)) hrest fun id hid hmem => ?_
    rcases List.mem_append.mp hmem with hold | hlast
    · exact hnew id (List.mem_append_right _ hid) hold
    · obtain rfl := List.mem_singleton.mp hlast
      exact hapart id hbase id hid rfl

/-- A table that is grouped by symbols and lists no record twice passes the check of its symbols. -/
theorem verifySymbols_ok {program : Program} (hgrouped : program.symbols.Grouped)
    (hnodup : program.symbols.ids.Nodup) : program.verifySymbols = .ok () :=
  checkRecords_runs hgrouped hnodup fun _ _ => List.not_mem_nil

end Program

end Splice
