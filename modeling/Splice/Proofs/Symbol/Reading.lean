import Mathlib.Algebra.BigOperators.Group.List.Basic
import Mathlib.Data.List.Forall2
import Mathlib.Data.List.Induction
import Splice.Proofs.Symbol.Runs

/-!
# What is read from an object

The table of an object has one run for each of its symbols, in the order in which the object
lists them. The run of a symbol that no relocation names is its base record; else it has one
record for each relocation that names it, in the order of the relocations (`recordsOf`). This is
what is kept while the relocations are gone through (`Read`): a relocation changes nothing but
the run of its symbol, where it is given either the base record, which carried none so far, or a
new record behind the last one. A record that is copied for that purpose takes its relocation
from the relocation it was made for and not from the copied one.

> `load_accounts`: reading an object loses no relocation, makes none up and mixes none up: those
> that name a symbol are written out symbol by symbol, each once and from a record of its own,
> and the others are reported.

Nothing is supposed of the object. Symbols of one name, relocations in any order and indices out
of range are covered.
-/

namespace Splice

/-- The record tells what the object says about the symbol at the position of its base record. -/
structure Symbol.Describes (record : Symbol) (raw : RawSymbol) : Prop where
  name : record.name = raw.name
  kind : record.kind = raw.kind record.index
  binding : record.binding = raw.binding
  size : record.size = raw.size
  sec : record.sec = if raw.hasSection then some raw.sec else none
  value : record.value = raw.value
  index : record.index = UInt32.ofNat record.base.index

namespace SymbolTable

variable {table after : SymbolTable} {symbols : List RawSymbol} {done : List RawRelocation}
  {raw : RawRelocation} {warnings warned : List Warning} {index : Nat}

/-- The relocations that name the symbol at position `index`, in the order of the object. -/
def naming (relocations : List RawRelocation) (index : Nat) : List RawRelocation :=
  relocations.filter fun raw => raw.symbol.toNat == index

/-- The relocations that name one of the first `count` symbols, symbol by symbol. -/
def bySymbol (count : Nat) (relocations : List RawRelocation) : List RawRelocation :=
  (List.range count).flatMap (naming relocations)

theorem mem_naming {relocations : List RawRelocation} :
    raw ∈ naming relocations index ↔ raw ∈ relocations ∧ raw.symbol.toNat = index := by
  rw [naming, List.mem_filter, beq_iff_eq]

/-- One more relocation is named last by its symbol, and not at all by others. -/
theorem naming_concat (done : List RawRelocation) (raw : RawRelocation) (index : Nat) :
    naming (done ++ [raw]) index
      = if raw.symbol.toNat = index then naming done index ++ [raw] else naming done index := by
  by_cases h : raw.symbol.toNat = index
  · simp [naming, h]
  · simp [naming, h]

/-! ## The records of one symbol -/

/-- The base record of the symbol at position `index`, as it is pushed. -/
def baseRecord (raw : RawSymbol) (index : Nat) : Symbol := .ofRaw ⟨index⟩ (UInt32.ofNat index) raw

/-- A symbol's record for a relocation. -/
def carrying (symbol : Symbol) (raw : RawRelocation) : Symbol :=
  { symbol with referenced := true, reloc := some (.ofRaw raw) }

/-- A symbol's record for a relocation that is not the first one. -/
def copied (symbol : Symbol) (raw : RawRelocation) : Symbol :=
  { carrying symbol raw with duplicate := true }

/-- The records of a symbol that the given relocations name. -/
def recordsOf (symbol : Symbol) : List RawRelocation → List Symbol
  | [] => [symbol]
  | first :: rest => carrying symbol first :: rest.map (copied symbol)

/-- One more relocation of a symbol that has one already gives it one more copy. -/
theorem recordsOf_concat (symbol : Symbol) (first : RawRelocation) (rest : List RawRelocation)
    (raw : RawRelocation) :
    recordsOf symbol (first :: rest ++ [raw]) = recordsOf symbol (first :: rest) ++ [copied symbol raw] := by
  show carrying symbol first :: (rest ++ [raw]).map (copied symbol) = _
  rw [List.map_append]
  rfl

/-- A symbol has one record for each of its relocations, and one if it has none. -/
theorem length_recordsOf (symbol : Symbol) (relocations : List RawRelocation) :
    (recordsOf symbol relocations).length = 1 + (relocations.length - 1) := by
  cases relocations with
  | nil => rfl
  | cons first rest =>
    rw [recordsOf, List.length_cons, List.length_map, List.length_cons]
    omega

/-- Whichever record of a symbol is copied, the copy is the same but for its relocation. -/
theorem duplicated_carrying {symbol last : Symbol} {relocations : List RawRelocation}
    (hlast : last ∈ recordsOf symbol relocations) (raw : RawRelocation) :
    { Symbol.duplicated last with reloc := some (.ofRaw raw) } = copied symbol raw := by
  cases relocations with
  | nil =>
    obtain rfl := List.mem_singleton.mp hlast
    rfl
  | cons first rest =>
    rcases List.mem_cons.mp hlast with rfl | hlast
    · rfl
    · obtain ⟨other, -, rfl⟩ := List.mem_map.mp hlast
      rfl

/-- Every record of a symbol tells what the object says of it, be it the first one or a copy. -/
theorem describes_of_mem {symbol : RawSymbol} {record : Symbol} {relocations : List RawRelocation}
    (h : record ∈ recordsOf (baseRecord symbol index) relocations) :
    record.Describes symbol ∧ record.base = ⟨index⟩ := by
  cases relocations with
  | nil =>
    obtain rfl := List.mem_singleton.mp h
    exact ⟨⟨rfl, rfl, rfl, rfl, rfl, rfl, rfl⟩, rfl⟩
  | cons first rest =>
    rcases List.mem_cons.mp h with rfl | h
    · exact ⟨⟨rfl, rfl, rfl, rfl, rfl, rfl, rfl⟩, rfl⟩
    · obtain ⟨other, -, rfl⟩ := List.mem_map.mp h
      exact ⟨⟨rfl, rfl, rfl, rfl, rfl, rfl, rfl⟩, rfl⟩

/-! ## What is kept -/

/-- The table in which the record `id` carries a relocation. -/
def carry (table : SymbolTable) (id : SymbolId) (raw : RawRelocation) : SymbolTable :=
  table.update id fun symbol => { symbol with reloc := some (.ofRaw raw) }

/-- The warning about a relocation that names no symbol. -/
def unresolved (raw : RawRelocation) : Warning := .unresolvedRelocation raw.sec raw.offset raw.symbol

/-- The relocations that name none of the first `count` symbols. -/
def unlisted (count : Nat) (relocations : List RawRelocation) : List RawRelocation :=
  relocations.filter fun raw => count ≤ raw.symbol.toNat

/-- The table holds the symbols of an object and the relocations that were read so far, and the others
were reported. -/
structure Read (symbols : List RawSymbol) (done : List RawRelocation) (table : SymbolTable)
    (warnings : List Warning) : Prop where
  arranged : table.Arranged
  count : table.baseCount = symbols.length
  runs : table.runs.map (fun run => run.map table.get?) = symbols.zipIdx.map fun (symbol, index) =>
    (recordsOf (baseRecord symbol index) (naming done index)).map some
  reported : warnings = (unlisted symbols.length done).map unresolved

/-- A record that is listed in a run is one of the records of the run. -/
theorem get?_of_mem_run {id : SymbolId} {run : List SymbolId} {records : List Symbol}
    (hrun : run.map table.get? = records.map some) (hid : id ∈ run) :
    ∃ record ∈ records, table.get? id = some record := by
  have hin : table.get? id ∈ run.map table.get? := List.mem_map_of_mem hid
  rw [hrun] at hin
  obtain ⟨record, hrecord, he⟩ := List.mem_map.mp hin
  exact ⟨record, hrecord, he.symm⟩

namespace Read

/-- A table that was read has a run for each symbol of the object. -/
theorem length (h : table.Read symbols done warnings) : table.runs.length = symbols.length := by
  have hlength := congrArg List.length h.runs
  rw [List.length_map, List.length_map, List.length_zipIdx] at hlength
  exact hlength

/-- The run at a position is that of the symbol at that position. -/
theorem run (h : table.Read symbols done warnings) {run : List SymbolId}
    (hrun : table.runs[index]? = some run) : ∃ symbol rest, symbols[index]? = some symbol
      ∧ run = ⟨index⟩ :: rest
      ∧ run.map table.get? = (recordsOf (baseRecord symbol index) (naming done index)).map some := by
  have hat := congrArg (fun runs : List (List (Option Symbol)) => runs[index]?) h.runs
  simp only [List.getElem?_map, hrun, List.getElem?_zipIdx, Nat.zero_add] at hat
  obtain ⟨symbol, hsymbol⟩ : ∃ symbol, symbols[index]? = some symbol :=
    ⟨_, List.getElem?_eq_getElem (h.length ▸ (List.getElem?_eq_some_iff.mp hrun).1)⟩
  simp only [hsymbol, Option.map_some, Option.some.injEq] at hat
  refine ⟨symbol, ?_⟩
  -- the first record of the run is its own base record
  have hgrouped := h.arranged.grouped run (List.mem_of_getElem? hrun)
  cases run with
  | nil => cases hgrouped
  | cons base rest =>
    obtain ⟨record, hrecord, hrank⟩ := Option.map_eq_some_iff.mp hgrouped.1
    have hbase : record.base = ⟨index⟩ := by
      obtain ⟨found, hfound, he⟩ := get?_of_mem_run hat (List.mem_cons_self ..)
      rw [hrecord, Option.some.injEq] at he
      exact he ▸ (describes_of_mem hfound).2
    obtain rfl : base = ⟨index⟩ := (congrArg Prod.fst hrank).symm.trans hbase
    exact ⟨rest, hsymbol, rfl, hat⟩

/-- A relocation that names a symbol changes nothing but the run of that symbol. -/
theorem regroup (h : table.Read symbols done warnings) (harranged : after.Arranged)
    (hcount : after.baseCount = table.baseCount) {run longer : List SymbolId} {symbol : RawSymbol}
    (hat : table.runs[raw.symbol.toNat]? = some run)
    (hsymbol : symbols[raw.symbol.toNat]? = some symbol)
    (hruns : after.runs = table.runs.set raw.symbol.toNat longer)
    (hothers : ∀ other ∈ table.runs, other ≠ run → ∀ id ∈ other, after.get? id = table.get? id)
    (hlonger : longer.map after.get? = (recordsOf (baseRecord symbol raw.symbol.toNat)
      (naming done raw.symbol.toNat ++ [raw])).map some) :
    after.Read symbols (done ++ [raw]) warnings where
  arranged := harranged
  count := hcount.trans h.count
  runs := by
    refine List.ext_getElem? fun position => ?_
    obtain ⟨hlt, -⟩ := List.getElem?_eq_some_iff.mp hat
    have hold := congrArg (fun runs : List (List (Option Symbol)) => runs[position]?) h.runs
    simp only [List.getElem?_map, List.getElem?_zipIdx, Nat.zero_add] at hold
    simp only [List.getElem?_map, List.getElem?_zipIdx, Nat.zero_add, hruns, List.getElem?_set]
    by_cases hposition : raw.symbol.toNat = position
    · subst hposition
      simp only [if_pos hlt, if_true, hsymbol, Option.map_some, hlonger, naming_concat]
    · rw [if_neg hposition]
      simp only [Option.map_map, Function.comp_def, naming_concat] at hold ⊢
      have hsame : table.runs[position]?.map (fun run => run.map after.get?)
          = table.runs[position]?.map (fun run => run.map table.get?) := by
        cases hother : table.runs[position]? with
        | none => rfl
        | some other =>
          obtain ⟨-, rest, -, rfl, -⟩ := h.run hat
          obtain ⟨-, rest', -, rfl, -⟩ := h.run hother
          refine congrArg some (List.map_congr_left (hothers _ (List.mem_of_getElem? hother) ?_))
          intro he
          exact hposition (congrArg Handle.index (List.cons.inj he).1).symm
      rw [hsame, hold]
      cases symbols[position]? with
      | none => rfl
      | some other => simp only [Option.map_some, if_neg hposition]
  reported := by
    have hlisted : raw.symbol.toNat < symbols.length := h.length ▸ (List.getElem?_eq_some_iff.mp hat).1
    rw [h.reported, unlisted, unlisted, List.filter_append]
    simp [hlisted]

/-- A symbol that no relocation named gives its base record. -/
theorem first (h : table.Read symbols done warnings) {symbol : RawSymbol} {rest : List SymbolId}
    (hat : table.runs[raw.symbol.toNat]? = some (⟨raw.symbol.toNat⟩ :: rest))
    (hsymbol : symbols[raw.symbol.toNat]? = some symbol) (hnone : naming done raw.symbol.toNat = [])
    (hrun : (⟨raw.symbol.toNat⟩ :: rest).map table.get?
      = (recordsOf (baseRecord symbol raw.symbol.toNat) (naming done raw.symbol.toNat)).map some) :
    ∃ claimed after, table.claim ⟨raw.symbol.toNat⟩ = .ok (claimed, after)
      ∧ (after.carry claimed raw).Read symbols (done ++ [raw]) warnings := by
  rw [hnone, recordsOf, List.map_cons, List.map_cons, List.map_nil, List.cons.injEq,
    List.map_eq_nil_iff] at hrun
  obtain ⟨hbase, rfl⟩ := hrun
  have hclaim := claim_first hbase hbase rfl
  refine ⟨_, _, hclaim, ?_⟩
  have hget : ∀ other, ((table.update ⟨raw.symbol.toNat⟩ fun symbol =>
      { symbol with referenced := true }).carry ⟨raw.symbol.toNat⟩ raw).get? other
      = if other = ⟨raw.symbol.toNat⟩ then some (carrying (baseRecord symbol raw.symbol.toNat) raw)
        else table.get? other := by
    intro other
    rw [carry, get?_update, get?_update, if_pos rfl, hbase, get?_update]
    split <;> rfl
  have hset : table.runs = table.runs.set raw.symbol.toNat [⟨raw.symbol.toNat⟩] := by
    obtain ⟨hlt, hat⟩ := List.getElem?_eq_some_iff.mp hat
    rw [← hat, List.set_getElem_self]
  refine h.regroup ((h.arranged.claim hclaim).update fun _ => rfl) rfl hat hsymbol hset ?_ ?_
  · intro other hother hne id hid
    refine (hget id).trans (if_neg fun he => hne ?_)
    exact h.arranged.run_unique hother (List.mem_of_getElem? hat) (he ▸ hid) (List.mem_cons_self ..)
  · rw [hnone]
    exact congrArg (fun record => [record]) ((hget _).trans (if_pos rfl))

/-- A symbol that a relocation named gives a new record. -/
theorem again (h : table.Read symbols done warnings) {symbol : RawSymbol} {rest : List SymbolId}
    {first : RawRelocation} {others : List RawRelocation}
    (hat : table.runs[raw.symbol.toNat]? = some (⟨raw.symbol.toNat⟩ :: rest))
    (hsymbol : symbols[raw.symbol.toNat]? = some symbol)
    (hsome : naming done raw.symbol.toNat = first :: others)
    (hrun : (⟨raw.symbol.toNat⟩ :: rest).map table.get?
      = (recordsOf (baseRecord symbol raw.symbol.toNat) (naming done raw.symbol.toNat)).map some) :
    ∃ claimed after, table.claim ⟨raw.symbol.toNat⟩ = .ok (claimed, after)
      ∧ (after.carry claimed raw).Read symbols (done ++ [raw]) warnings := by
  have hbase : table.get? ⟨raw.symbol.toNat⟩
      = some (carrying (baseRecord symbol raw.symbol.toNat) first) := by
    rw [hsome] at hrun
    exact (List.cons.inj hrun).1
  obtain ⟨last, hlast, hget⟩ := get?_of_mem_run hrun (last_mem _ _ ⟨raw.symbol.toNat⟩)
  obtain ⟨front, rest', behind, hruns, -, -, hfound⟩ := h.arranged.runOf? hbase
  -- the run that is found is the one at the position of the symbol
  have hplace : table.runs[front.length]? = some (⟨raw.symbol.toNat⟩ :: rest') := by
    rw [hruns, List.getElem?_append_right (Nat.le_refl _), Nat.sub_self]
    rfl
  obtain ⟨_, _, -, hsame, -⟩ := h.run hplace
  have hnumber : front.length = raw.symbol.toNat := (congrArg Handle.index (List.cons.inj hsame).1).symm
  rw [hnumber, hat, Option.some.injEq] at hplace
  obtain rfl : rest = rest' := (List.cons.inj hplace).2
  have hclaim := claim_again hbase hbase rfl hruns hfound hget
  refine ⟨_, _, hclaim, ?_⟩
  have hnew : ∀ other, ((SymbolTable.mk (table.records.push (Symbol.duplicated last))
      (front ++ (⟨raw.symbol.toNat⟩ :: rest ++ [⟨table.size⟩]) :: behind)
      table.baseCount).carry ⟨table.size⟩ raw).get? other
      = if other = ⟨table.size⟩ then some (copied (baseRecord symbol raw.symbol.toNat) raw)
        else table.get? other := by
    intro other
    rw [carry, get?_update, get?_pushed, get?_pushed, if_pos rfl, ← duplicated_carrying hlast]
    split
    next => rfl
    next hne => exact if_neg fun he => hne (Handle.ext_index he)
  have hold : ∀ other ∈ table.runs, ∀ id ∈ other, id ≠ ⟨table.size⟩ := by
    intro other hother id hid he
    have hlt := h.arranged.mem_ids.mp (List.mem_flatten.mpr ⟨other, hother, hid⟩)
    rw [he] at hlt
    exact Nat.lt_irrefl _ hlt
  have hset : front ++ (⟨raw.symbol.toNat⟩ :: rest ++ [⟨table.size⟩]) :: behind
      = table.runs.set raw.symbol.toNat (⟨raw.symbol.toNat⟩ :: rest ++ [⟨table.size⟩]) := by
    rw [hruns, ← hnumber, List.set_append_right _ _ (Nat.le_refl _), Nat.sub_self, List.set_cons_zero]
  refine h.regroup ((h.arranged.claim hclaim).update fun _ => rfl) rfl hat hsymbol hset ?_ ?_
  · intro other hother _ id hid
    exact (hnew id).trans (if_neg (hold other hother id hid))
  · rw [hsome, recordsOf_concat, List.map_append, List.map_append, ← hsome, ← hrun]
    refine congrArg₂ _ (List.map_congr_left fun id hid => ?_) ?_
    · exact (hnew id).trans (if_neg (hold _ (List.mem_of_getElem? hat) id hid))
    · exact congrArg (fun record => [record]) ((hnew _).trans (if_pos rfl))

/-- The next relocation is given a record, or reported. -/
theorem addRelocation (h : table.Read symbols done warnings) (raw : RawRelocation) :
    ∃ after warned, SymbolTable.addRelocation (table, warnings) raw = .ok (after, warned)
      ∧ after.Read symbols (done ++ [raw]) warned := by
  unfold SymbolTable.addRelocation
  simp only [byIndex?, h.count]
  -- a relocation of no symbol is reported; any other claims a record of its symbol
  by_cases hlisted : raw.symbol.toNat < symbols.length
  · simp only [if_pos hlisted]
    have hat := List.getElem?_eq_getElem (h.length.symm ▸ hlisted : raw.symbol.toNat < table.runs.length)
    obtain ⟨symbol, rest, hsymbol, hown, hrun⟩ := h.run hat
    rw [hown] at hat hrun
    have hclaim : ∃ claimed after, table.claim ⟨raw.symbol.toNat⟩ = .ok (claimed, after)
        ∧ (after.carry claimed raw).Read symbols (done ++ [raw]) warnings := by
      cases hnaming : naming done raw.symbol.toNat with
      | nil => exact h.first hat hsymbol hnaming hrun
      | cons first others => exact h.again hat hsymbol hnaming hrun
    obtain ⟨claimed, after, hclaim, hafter⟩ := hclaim
    refine ⟨after.carry claimed raw, warnings, ?_, hafter⟩
    rw [hclaim]
    rfl
  · simp only [if_neg hlisted]
    refine ⟨_, _, rfl, h.arranged, h.count, ?_, ?_⟩
    · rw [h.runs]
      refine List.map_congr_left fun entry hentry => ?_
      have hne : raw.symbol.toNat ≠ entry.2 := by
        have := List.snd_lt_of_mem_zipIdx hentry
        omega
      simp only [naming_concat, if_neg hne]
    · rw [h.reported, unlisted, unlisted, List.filter_append, List.map_append]
      simp [unresolved, Nat.le_of_not_lt hlisted]

end Read

/-- The symbols of an object, before any relocation is read: each is stored at its position. -/
theorem read_symbols (symbols : List RawSymbol) :
    (ofRawSymbols symbols).Read symbols [] [] ∧ (ofRawSymbols symbols).size = symbols.length := by
  -- by the last symbol, as the table grows at its end
  induction symbols using List.reverseRecOn with
  | nil => exact ⟨⟨empty_arranged, rfl, rfl, rfl⟩, rfl⟩
  | append_singleton symbols symbol ih =>
    obtain ⟨hread, hsize⟩ := ih
    have hlast : ofRawSymbols (symbols ++ [symbol])
        = ((ofRawSymbols symbols).push (baseRecord symbol symbols.length)).2 := by
      rw [ofRawSymbols, List.zipIdx_append, List.foldl_append]
      simp only [List.zipIdx_cons, List.zipIdx_nil, List.foldl_cons, List.foldl_nil, Nat.zero_add]
      rfl
    have hget : ∀ id, ((ofRawSymbols symbols).push (baseRecord symbol symbols.length)).2.get? id
        = if id.index = symbols.length then some (baseRecord symbol symbols.length)
          else (ofRawSymbols symbols).get? id := by
      intro id
      rw [← hsize]
      exact get?_pushed id
    rw [hlast, List.length_append, List.length_singleton]
    refine ⟨⟨hread.arranged.push _, ?_, ?_, rfl⟩, (Array.size_push ..).trans (congrArg (· + 1) hsize)⟩
    · rw [List.length_append, List.length_singleton]
      exact (if_pos (hread.count.trans hsize.symm)).trans (congrArg (· + 1) hread.count)
    · show ((ofRawSymbols symbols).runs ++ [[(⟨(ofRawSymbols symbols).size⟩ : SymbolId)]]).map _ = _
      rw [List.zipIdx_append, List.map_append, List.map_append, ← hread.runs, hsize]
      refine congrArg₂ _ (List.map_congr_left fun run hrun => List.map_congr_left fun id hid => ?_) ?_
      · have hlt := hread.arranged.mem_ids.mp (List.mem_flatten.mpr ⟨run, hrun, hid⟩)
        exact (hget id).trans (if_neg (Nat.ne_of_lt (hsize ▸ hlt)))
      · simp only [List.zipIdx_cons, List.zipIdx_nil, List.map_cons, List.map_nil, Nat.zero_add]
        rw [hget, if_pos rfl]
        rfl

/-- Every object can be read, and the table that is read holds its symbols and relocations. The symbols
are read first and then the relocations one by one, which is the order of the induction. -/
theorem load_read (symbols : List RawSymbol) (relocations : List RawRelocation) :
    ∃ table warnings, load symbols relocations = .ok (table, warnings)
      ∧ table.Read symbols relocations warnings := by
  have hread : ∀ (relocations : List RawRelocation) {done : List RawRelocation} {table : SymbolTable}
      {warnings : List Warning}, table.Read symbols done warnings →
      ∃ after warned, relocations.foldlM SymbolTable.addRelocation (table, warnings) = .ok (after, warned)
        ∧ after.Read symbols (done ++ relocations) warned := by
    intro relocations
    induction relocations with
    | nil =>
      intro done table warnings h
      exact ⟨table, warnings, rfl, by rw [List.append_nil]; exact h⟩
    | cons raw relocations ih =>
      intro done table warnings h
      obtain ⟨next, warned, hadd, hnext⟩ := h.addRelocation raw
      obtain ⟨after, warned', hrest, hafter⟩ := ih hnext
      refine ⟨after, warned', ?_, ?_⟩
      · rw [List.foldlM_cons, hadd]
        exact hrest
      · rw [List.append_cons]
        exact hafter
  exact hread relocations (read_symbols symbols).1

/-! ## What is written out -/

/-- A relocation that is written out is the relocation of the object: at the same place of the same
section, of the same kind and with the same addend, against the same symbol. The record that carries it
is one of this symbol. -/
structure Answers (symbols : List RawSymbol) (table : SymbolTable) (out : Resolved)
    (raw : RawRelocation) : Prop where
  sec : out.sec = raw.sec
  offset : out.offset = raw.offset
  addend : out.addend = raw.addend
  kind : out.kind = ⟨raw.kind⟩
  symbolIndex : out.symbolIndex = raw.symbol
  name : symbols[raw.symbol.toNat]?.map RawSymbol.name = some out.name
  carrier : ∃ record, table.get? out.symbol = some record ∧ record.reloc = some (.ofRaw raw)
    ∧ record.base = ⟨raw.symbol.toNat⟩

/-- The relocation of the record with the name `id`, as it is written out. -/
def resolve? (table : SymbolTable) (id : SymbolId) : Option Resolved := do
  let symbol ← table.get? id
  let reloc ← symbol.reloc
  return {
    symbol := id
    symbolIndex := symbol.index
    name := symbol.name
    sec := reloc.sec
    offset := reloc.offset
    addend := reloc.addend
    kind := reloc.kind }

/-- The relocations that are written out are those of the records, in the order of the table. -/
theorem resolved_eq (table : SymbolTable) : table.resolved = table.ids.filterMap table.resolve? := by
  rw [resolved, entries, List.filterMap_filterMap]
  congr 1
  funext id
  rw [resolve?]
  cases table.get? id with
  | none => rfl
  | some symbol =>
    cases hreloc : symbol.reloc with
    | none => simp [hreloc]
    | some reloc => simp [hreloc]

/-- A relocation that is written out names the record that carries it. -/
theorem symbol_of_resolve? {id : SymbolId} {out : Resolved} (h : table.resolve? id = some out) :
    out.symbol = id := by
  simp only [resolve?, Option.bind_eq_bind, Option.bind_eq_some_iff] at h
  obtain ⟨symbol, -, reloc, -, h⟩ := h
  exact Option.some.inj h ▸ rfl

/-- A record that carries a relocation of its symbol. -/
theorem resolve?_carrying {id : SymbolId} {symbol : RawSymbol} {record : Symbol}
    (hrecord : table.get? id = some record) (hreloc : record.reloc = some (.ofRaw raw))
    (hsymbol : symbols[raw.symbol.toNat]? = some symbol)
    (hdescribes : record.Describes symbol ∧ record.base = ⟨raw.symbol.toNat⟩) :
    ∃ out, table.resolve? id = some out ∧ Answers symbols table out raw := by
  obtain ⟨hdescribes, hbase⟩ := hdescribes
  refine ⟨_, by rw [resolve?, hrecord]; simp only [Option.bind_eq_bind, Option.bind_some, hreloc]; rfl,
    rfl, rfl, rfl, rfl, ?_, ?_, record, hrecord, hreloc, hbase⟩
  · show record.index = raw.symbol
    rw [hdescribes.index, hbase, UInt32.ofNat_toNat]
  · show _ = some record.name
    rw [hdescribes.name, hsymbol]
    rfl

/-- Where each record has its relocation, the records have them in the same order. -/
theorem forall₂_resolve? {ids : List SymbolId} {relocations : List RawRelocation}
    (h : List.Forall₂ (fun id raw => ∃ out, table.resolve? id = some out ∧ Answers symbols table out raw)
      ids relocations) :
    List.Forall₂ (Answers symbols table) (ids.filterMap table.resolve?) relocations := by
  induction h with
  | nil => exact .nil
  | cons hfirst _ ih =>
    obtain ⟨out, hout, hanswers⟩ := hfirst
    rw [List.filterMap_cons_some hout]
    exact .cons hanswers ih

/-- The records of a run carry the relocations that name its symbol, in the order of the object. -/
theorem Read.answers (h : table.Read symbols done warnings) {run : List SymbolId}
    (hat : table.runs[index]? = some run) :
    List.Forall₂ (Answers symbols table) (run.filterMap table.resolve?) (naming done index) := by
  obtain ⟨symbol, rest, hsymbol, rfl, hrun⟩ := h.run hat
  have hnamed : ∀ raw ∈ naming done index, raw.symbol.toNat = index := fun raw hraw =>
    (mem_naming.mp hraw).2
  cases hnaming : naming done index with
  | nil =>
    rw [hnaming, recordsOf, List.map_cons, List.map_cons, List.map_nil, List.cons.injEq,
      List.map_eq_nil_iff] at hrun
    obtain ⟨hbase, rfl⟩ := hrun
    have hnone : table.resolve? ⟨index⟩ = none := by
      rw [resolve?, hbase]
      rfl
    rw [List.filterMap_cons_none hnone]
    exact .nil
  | cons first others =>
    rw [hnaming] at hrun hnamed
    have hcarrying : ∀ raw ∈ first :: others, ∀ id record,
        record ∈ recordsOf (baseRecord symbol index) (first :: others) →
        table.get? id = some record → record.reloc = some (.ofRaw raw) →
        ∃ out, table.resolve? id = some out ∧ Answers symbols table out raw := by
      intro raw hraw id record hmem hrecord hreloc
      have hindex := hnamed raw hraw
      exact resolve?_carrying hrecord hreloc (hindex ▸ hsymbol) (hindex ▸ describes_of_mem hmem)
    rw [recordsOf, List.map_cons, List.map_cons, List.map_map, List.cons.injEq] at hrun
    obtain ⟨hbase, hrest⟩ := hrun
    refine forall₂_resolve? (.cons ?_ ?_)
    · exact hcarrying first (List.mem_cons_self ..) _ _ (List.mem_cons_self ..) hbase rfl
    · rw [← List.forall₂_eq_eq_eq, List.forall₂_map_left_iff, List.forall₂_map_right_iff] at hrest
      refine List.forall₂_iff_zip.mpr ⟨hrest.length_eq, fun {id raw} hpair => ?_⟩
      have hraw := (List.of_mem_zip hpair).2
      exact hcarrying raw (List.mem_cons_of_mem _ hraw) id _
        (List.mem_cons_of_mem _ (List.mem_map_of_mem hraw)) ((List.forall₂_iff_zip.mp hrest).2 hpair) rfl

/-- Every relocation that names a symbol is written out once, and nothing else is. -/
theorem Read.resolved (h : table.Read symbols done warnings) :
    List.Forall₂ (Answers symbols table) table.resolved (bySymbol symbols.length done) := by
  rw [resolved_eq, ids, List.filterMap_flatten, bySymbol, List.flatMap_def]
  refine List.rel_flatten (List.forall₂_iff_get.mpr ⟨?_, fun index hindex _ => ?_⟩)
  · rw [List.length_map, List.length_map, List.length_range, h.length]
  · simp only [List.get_eq_getElem, List.getElem_map, List.getElem_range]
    exact h.answers (List.getElem?_eq_getElem _)

/-- The table has a record for each symbol, and one more for each relocation of a symbol behind its
first. -/
theorem Read.size (h : table.Read symbols done warnings) : table.size
    = symbols.length + ((List.range symbols.length).map fun index => (naming done index).length - 1).sum := by
  have hids : table.ids.length = table.size := by
    rw [h.arranged.once.length_eq, List.length_map, List.length_range]
  have hlengths : table.runs.map List.length
      = (List.range symbols.length).map fun index => 1 + ((naming done index).length - 1) := by
    have hruns := congrArg (List.map List.length) h.runs
    rw [List.map_map, List.map_map] at hruns
    simp only [Function.comp_def, List.length_map, length_recordsOf] at hruns
    rw [hruns, List.range_eq_range', ← List.zipIdx_map_snd 0 symbols, List.map_map]
    rfl
  rw [← hids, ids, List.length_flatten, hlengths, List.sum_map_add, List.map_const', List.length_range,
    List.sum_replicate_nat, Nat.mul_one]

/-- The records are those of the symbols of the object. -/
theorem Read.describes (h : table.Read symbols done warnings) {id : SymbolId} {record : Symbol}
    (hrecord : table.get? id = some record) :
    ∃ symbol, symbols[record.base.index]? = some symbol ∧ record.Describes symbol := by
  obtain ⟨run, hrun, hid⟩ := List.mem_flatten.mp (h.arranged.mem_ids.mpr (index_lt_of_get? hrecord))
  obtain ⟨index, hat⟩ := List.mem_iff_getElem?.mp hrun
  obtain ⟨symbol, rest, hsymbol, -, hmap⟩ := h.run hat
  obtain ⟨found, hfound, he⟩ := get?_of_mem_run hmap hid
  rw [hrecord, Option.some.injEq] at he
  obtain ⟨hdescribes, hbase⟩ := describes_of_mem hfound
  subst he
  exact ⟨symbol, by rw [hbase]; exact hsymbol, hdescribes⟩

/-- Reading an object loses no relocation, makes none up and mixes none up: those that name a symbol are
written out symbol by symbol, each once and from a record of its own, and the others are reported. There is one record
for each symbol and one for each relocation besides the first of a symbol, and all of them tell what
the object says about their symbol. -/
theorem load_accounts (symbols : List RawSymbol) (relocations : List RawRelocation) :
    ∃ table warnings, load symbols relocations = .ok (table, warnings)
      ∧ List.Forall₂ (Answers symbols table) table.resolved (bySymbol symbols.length relocations)
      ∧ (table.resolved.map Resolved.symbol).Nodup
      ∧ warnings = (unlisted symbols.length relocations).map unresolved
      ∧ table.size = symbols.length
        + ((List.range symbols.length).map fun index => (naming relocations index).length - 1).sum
      ∧ ∀ id record, table.get? id = some record →
        ∃ symbol, symbols[record.base.index]? = some symbol ∧ record.Describes symbol := by
  obtain ⟨table, warnings, hload, hread⟩ := load_read symbols relocations
  refine ⟨table, warnings, hload, hread.resolved, ?_, hread.reported, hread.size,
    fun id record => hread.describes⟩
  rw [resolved_eq, List.map_filterMap]
  refine hread.arranged.nodup.filterMap fun id other carrier hid hother => ?_
  obtain ⟨out, hout, rfl⟩ := Option.map_eq_some_iff.mp hid
  obtain ⟨out', hout', he⟩ := Option.map_eq_some_iff.mp hother
  rw [← symbol_of_resolve? hout, ← symbol_of_resolve? hout', he]

end SymbolTable

end Splice
