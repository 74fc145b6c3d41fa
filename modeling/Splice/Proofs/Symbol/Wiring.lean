import Splice.Proofs.Symbol.Annotation
import Splice.Proofs.Symbol.Notes
import Splice.Proofs.Symbol.Runs

/-!
# Every tie is made once

In code with its ranges apart (`Chain.Decoded`) the notes that linking makes are those that the
input addresses ask for, one of each sort for a record at most (`reads_notes`), and each record
has its turn once. So all that linking leaves behind can be read off the records with their
ties (`linkSymbols_complete`), and these are the ties that are wanted: the two sides of every tie
agree, missing ones are reported in the order in which the table is written out, and the counts
say how many were made (`linkSymbols_wired`).

> `linkSymbols_wired`: linking code from the input and a table that was read from its object
> succeeds, makes every tie that the input addresses ask for, notes it once on each side, and
> reports what is missing.

`Wired` states the result without the notes, by the records before and after and the lists of
the instructions. The switch for relocation targets is an argument, so both ways of linking are
covered.
-/

namespace Splice

namespace Symbol

variable (record : Symbol) (id : InstrId)

/-- The instruction that the relocation of the record is tied to as patching it. -/
def patched? : Option InstrId := record.reloc.bind (·.instr)

/-- The instruction that the relocation of the record is tied to as referring to it. -/
def referred? : Option InstrId := record.reloc.bind (·.target)

instance : Decidable (record.Patches id) :=
  decidable_of_iff (record.patched? = some id) Option.bind_eq_some_iff

instance : Decidable (record.PointsAt id) :=
  decidable_of_iff (record.instr = some id ∨ record.referred? = some id) (or_congr_right Option.bind_eq_some_iff)

end Symbol

namespace Chain

variable (chain : Chain) (withTargets : Bool) (record : Symbol)

/-- The code section that a symbol stands for. -/
def codeSection? : Option SectionId := do
  let sec ← record.sec
  if record.kind == .wholeSection && chain.holdsCode sec then some sec else none

/-- What has to be reported about a record with its ties: that it patches code but no instruction, and that
it refers into code but to no instruction. -/
def reports : List Warning :=
  match record.reloc with
  | none => []
  | some reloc =>
    (if reloc.instr.isNone && chain.holdsCode reloc.sec then
      [.relocationOutsideInstruction reloc.sec reloc.offset] else [])
    ++ match if withTargets then chain.codeSection? record else none, reloc.target with
      | some sec, none => [.unlinkedRelocationTarget sec (record.referredAddr reloc)]
      | _, _ => []

end Chain

/-! ## The ties of a record -/

namespace AddressIndex

section

variable (index : AddressIndex) (chain : Chain) (withTargets : Bool) (symbol : SymbolId) (record : Symbol)
  (reloc : Relocation)

/-- The record with its ties. -/
def tied : Symbol :=
  { record with
    instr := (index.value? record).or record.instr
    reloc := record.reloc.map fun reloc =>
      { reloc with
        instr := (index.covering? chain reloc.sec reloc.offset).or reloc.instr
        target := (index.target? withTargets record reloc).or reloc.target } }

/-- Records with their ties. -/
def tiedEntries (entries : List (SymbolId × Symbol)) : List (SymbolId × Symbol) :=
  entries.map fun entry => (entry.1, index.tied chain withTargets entry.2)

theorem tiedEntries_cons (entry : SymbolId × Symbol) (entries : List (SymbolId × Symbol)) :
    index.tiedEntries chain withTargets (entry :: entries)
      = (entry.1, index.tied chain withTargets entry.2) :: index.tiedEntries chain withTargets entries :=
  rfl

/-- The record, if what was found for it is the instruction `id`. -/
def hits (found : Option InstrId) (symbol : SymbolId) (id : InstrId) : List SymbolId :=
  if found = some id then [symbol] else []

/-- What the value of a symbol adds to the lists: the record at the instruction that begins there. -/
theorem reads_valueNote : LinkNote.Reads ((index.value? record).toList.map (LinkNote.value symbol))
    (fun _ => []) (hits (index.value? record) symbol) [] 0 0 (index.value? record).toList.length := by
  cases index.value? record with
  | none => exact .nil
  | some instr =>
    refine ⟨fun _ => rfl, fun id => ?_, rfl, fun _ => rfl⟩
    by_cases hid : instr = id <;> simp [LinkNote.pointer?, hits, hid]

/-- What the place of a relocation adds to the lists: the record at the instruction over it, or a warning
if the section is code. -/
theorem reads_patchNotes : LinkNote.Reads (index.patchNotes chain symbol reloc)
    (hits (index.covering? chain reloc.sec reloc.offset) symbol) (fun _ => [])
    (if (index.covering? chain reloc.sec reloc.offset).isNone && index.isCode reloc.sec then
      [.relocationOutsideInstruction reloc.sec reloc.offset] else [])
    (index.covering? chain reloc.sec reloc.offset).toList.length 0 0 := by
  unfold patchNotes
  cases index.covering? chain reloc.sec reloc.offset with
  | none => cases index.isCode reloc.sec <;> exact ⟨fun _ => rfl, fun _ => rfl, rfl, fun _ => rfl⟩
  | some instr =>
    refine ⟨fun id => ?_, fun _ => rfl, rfl, fun _ => rfl⟩
    by_cases hid : instr = id <;> simp [LinkNote.patcher?, hits, hid]

/-- What the target of a relocation adds to the lists: the record at the instruction that begins there, or
a warning if the section is code. -/
theorem reads_targetNotes : LinkNote.Reads (if withTargets then index.targetNotes symbol record reloc else [])
    (fun _ => []) (hits (index.target? withTargets record reloc) symbol)
    (match if withTargets then index.section? record else none, index.target? withTargets record reloc with
      | some sec, none => [.unlinkedRelocationTarget sec (record.referredAddr reloc)]
      | _, _ => [])
    0 (index.target? withTargets record reloc).toList.length 0 := by
  unfold targetNotes target?
  cases withTargets with
  | false => exact .nil
  | true =>
    cases index.section? record with
    | none => exact .nil
    | some sec =>
      simp only [if_true, Option.bind_some]
      cases index.beginning? sec (record.referredAddr reloc) with
      | none => exact ⟨fun _ => rfl, fun _ => rfl, rfl, fun _ => rfl⟩
      | some instr =>
        refine ⟨fun _ => rfl, fun id => ?_, rfl, fun _ => rfl⟩
        by_cases hid : instr = id <;> simp [LinkNote.pointer?, hits, hid]

variable {index chain withTargets record reloc}

theorem section?_eq (h : index.Indexes chain) : index.section? record = chain.codeSection? record := by
  unfold section? Chain.codeSection?
  simp only [h.isCode_eq]

/-- The ties of a record that had none. -/
theorem tied_of_untied (h : record.Untied) : index.tied chain withTargets record
    = { record with
        instr := index.value? record
        reloc := record.reloc.map fun reloc =>
          { reloc with
            instr := index.covering? chain reloc.sec reloc.offset
            target := index.target? withTargets record reloc } } := by
  rw [tied, h.instr, Option.or_none]
  cases hreloc : record.reloc with
  | none => rfl
  | some reloc =>
    obtain ⟨hinstr, htarget⟩ := h.reloc hreloc
    rw [Option.map_some, Option.map_some, hinstr, htarget, Option.or_none, Option.or_none]

/-- A symbol that stands for a section is not tied to the instruction at its value. -/
theorem value?_eq_none (h : record.kind = .wholeSection) : index.value? record = none := by
  rw [value?, h]
  cases record.sec <;> rfl

/-- Only a symbol that stands for a section refers to an instruction through its relocation. -/
theorem target?_eq_none (h : record.kind ≠ .wholeSection) : index.target? withTargets record reloc = none := by
  have hsection : index.section? record = none := by
    rw [section?]
    cases record.sec <;> simp [h]
  rw [target?, hsection]
  cases withTargets <;> rfl

/-- A record is noted at most once as pointing at an instruction. -/
theorem hits_value_target (id : InstrId) :
    hits (index.value? record) symbol id ++ hits (index.target? withTargets record reloc) symbol id
      = if index.value? record = some id ∨ index.target? withTargets record reloc = some id then [symbol]
        else [] := by
  unfold hits
  by_cases hkind : record.kind = .wholeSection
  · simp [value?_eq_none hkind]
  · simp [target?_eq_none hkind]

/-- What is noted about a record says what it is tied to, and reports what it should be tied to and is not. -/
theorem reads_notes (withTargets : Bool) (hindex : index.Indexes chain) (h : record.Untied) :
    LinkNote.Reads (index.notes chain withTargets symbol record)
      (fun id => if (index.tied chain withTargets record).Patches id then [symbol] else [])
      (fun id => if (index.tied chain withTargets record).PointsAt id then [symbol] else [])
      (chain.reports withTargets (index.tied chain withTargets record))
      (index.tied chain withTargets record).patched?.toList.length
      (index.tied chain withTargets record).referred?.toList.length
      (index.tied chain withTargets record).instr.toList.length := by
  rw [tied_of_untied h, notes]
  cases hreloc : record.reloc with
  | none =>
    have hreads := reads_valueNote index symbol record
    rw [List.append_nil]
    refine ⟨fun id => ?_, fun id => ?_, hreads.warnings, hreads.counts⟩
    · rw [hreads.patchers]
      simp [Symbol.Patches]
    · rw [hreads.pointers]
      simp [Symbol.PointsAt, hits]
  | some reloc =>
    have hreads := (reads_valueNote index symbol record).append
      ((reads_patchNotes index chain symbol reloc).append
        (reads_targetNotes index withTargets symbol record reloc))
    refine ⟨fun id => ?_, fun id => ?_, hreads.warnings.trans ?_, fun summary => ?_⟩
    · rw [hreads.patchers]
      simp [Symbol.Patches, hits]
    · rw [hreads.pointers, List.nil_append, hits_value_target]
      simp [Symbol.PointsAt]
    · rw [hindex.isCode_eq, section?_eq hindex]
      rfl
    · rw [hreads.counts]
      simp [Symbol.patched?, Symbol.referred?]

/-- The instruction at the value of a symbol is the one that begins there. -/
theorem value?_iff (hindex : index.Indexes chain) (hchain : chain.Decoded) {i : InstrId} :
    index.value? record = some i ↔ record.kind ≠ .wholeSection
      ∧ ∃ sec, record.sec = some sec ∧ chain.StartsAt i sec record.value := by
  by_cases hkind : record.kind = .wholeSection
  · simp [value?_eq_none hkind, hkind]
  · simp only [value?, beq_eq_false_iff_ne.mpr hkind, Option.bind_eq_bind, Option.bind_eq_some_iff,
      Bool.false_eq_true, if_false, hindex.beginning?_iff hchain]
    exact (and_iff_right hkind).symm

/-- A symbol stands for a code section exactly if it is a section symbol, has a section, and that holds
code. -/
theorem section?_iff (hindex : index.Indexes chain) {sec : SectionId} : index.section? record = some sec ↔
    record.kind = .wholeSection ∧ record.sec = some sec ∧ chain.holdsCode sec = true := by
  simp only [section?, hindex.isCode_eq, Option.bind_eq_bind, Option.bind_eq_some_iff,
    Option.ite_none_right_eq_some, Bool.and_eq_true, beq_iff_eq, Option.some.injEq]
  constructor
  · intro h
    obtain ⟨_, hsec, ⟨hkind, hcode⟩, rfl⟩ := h
    exact ⟨hkind, hsec, hcode⟩
  · intro h
    obtain ⟨hkind, hsec, hcode⟩ := h
    exact ⟨sec, hsec, ⟨hkind, hcode⟩, rfl⟩

/-- The instruction that a relocation refers to is the one that begins there. -/
theorem target?_iff (hindex : index.Indexes chain) (hchain : chain.Decoded) {i : InstrId} :
    index.target? withTargets record reloc = some i ↔ withTargets = true ∧ record.kind = .wholeSection
      ∧ ∃ sec, record.sec = some sec ∧ chain.StartsAt i sec (record.referredAddr reloc) := by
  simp only [target?, Option.bind_eq_some_iff, Option.ite_none_right_eq_some, section?_iff hindex,
    hindex.beginning?_iff hchain]
  constructor
  · intro h
    obtain ⟨sec, ⟨hwanted, hkind, hsec, -⟩, hstart⟩ := h
    exact ⟨hwanted, hkind, sec, hsec, hstart⟩
  · intro h
    obtain ⟨hwanted, hkind, sec, hsec, hstart⟩ := h
    exact ⟨sec, ⟨hwanted, hkind, hsec, Chain.holdsCode_iff.mpr ⟨i, _, hstart⟩⟩, hstart⟩

/-- What is noted about a list of records. -/
theorem reads_entries (withTargets : Bool) {entries : List (SymbolId × Symbol)} (hindex : index.Indexes chain)
    (huntied : ∀ entry ∈ entries, entry.2.Untied) :
    LinkNote.Reads (entries.flatMap fun entry => index.notes chain withTargets entry.1 entry.2)
      (fun id => ((index.tiedEntries chain withTargets entries).filter fun entry =>
        decide (entry.2.Patches id)).map (·.1))
      (fun id => ((index.tiedEntries chain withTargets entries).filter fun entry =>
        decide (entry.2.PointsAt id)).map (·.1))
      ((index.tiedEntries chain withTargets entries).flatMap fun entry => chain.reports withTargets entry.2)
      ((index.tiedEntries chain withTargets entries).countP fun entry => entry.2.patched?.isSome)
      ((index.tiedEntries chain withTargets entries).countP fun entry => entry.2.referred?.isSome)
      ((index.tiedEntries chain withTargets entries).countP fun entry => entry.2.instr.isSome) := by
  induction entries with
  | nil => exact .nil
  | cons entry entries ih =>
    have hfirst := reads_notes entry.1 withTargets hindex (huntied entry (List.mem_cons_self ..))
    have hreads := hfirst.append (ih fun other hother => huntied other (List.mem_cons_of_mem _ hother))
    have hone : ∀ found : Option InstrId, found.toList.length = if found.isSome then 1 else 0 := by
      rintro (_ | _) <;> rfl
    refine ⟨fun id => ?_, fun id => ?_, hreads.warnings, fun summary => ?_⟩
    · refine (hreads.patchers id).trans ?_
      rw [tiedEntries_cons, List.filter_cons]
      by_cases hpatches : (index.tied chain withTargets entry.2).Patches id <;> simp [hpatches]
    · refine (hreads.pointers id).trans ?_
      rw [tiedEntries_cons, List.filter_cons]
      by_cases hpoints : (index.tied chain withTargets entry.2).PointsAt id <;> simp [hpoints]
    · refine (hreads.counts summary).trans ?_
      simp only [tiedEntries_cons, List.countP_cons, hone, Nat.add_comm]

/-- What is noted about a record ties it. -/
theorem amend_notes_self : (index.notes chain withTargets symbol record).foldl (LinkNote.amend symbol) record
    = index.tied chain withTargets record := by
  rw [notes, List.foldl_append, amend_valueNote, if_pos rfl, tied]
  cases hreloc : record.reloc with
  | none => rfl
  | some reloc =>
    rw [List.foldl_append, amend_patchNotes, if_pos rfl, amend_targetNotes, if_pos rfl]
    simp

end

end AddressIndex

/-! ## The code and the table with all ties -/

/-- The record without its ties. -/
def Symbol.bare (record : Symbol) : Symbol :=
  { record with
    instr := none
    reloc := record.reloc.map fun reloc => { reloc with instr := none, target := none } }

/-- The records of a table are tied to the instructions that their addresses ask for and to no others, and
every tie is noted once on each side. -/
structure Wired (chain : Chain) (table : SymbolTable) (withTargets : Bool) (linked : Linking) : Prop where
  /-- A symbol is tied to the instruction that begins at its value, unless it stands for its section. -/
  value : ∀ {id record i}, linked.table.get? id = some record → (record.instr = some i ↔
    record.kind ≠ .wholeSection ∧ ∃ sec, record.sec = some sec ∧ chain.StartsAt i sec record.value)
  /-- A relocation is tied to the instruction that has the byte it patches. -/
  patch : ∀ {id record reloc i}, linked.table.get? id = some record → record.reloc = some reloc →
    (reloc.instr = some i ↔ chain.Covers i reloc.sec reloc.offset)
  /-- A relocation of a symbol that stands for its section is tied to the instruction that begins where it
  refers to, if this is wanted. -/
  target : ∀ {id record reloc i}, linked.table.get? id = some record → record.reloc = some reloc →
    (reloc.target = some i ↔ withTargets = true ∧ record.kind = .wholeSection
      ∧ ∃ sec, record.sec = some sec ∧ chain.StartsAt i sec (record.referredAddr reloc))
  /-- An instruction lists each record that is tied to it once, and no other. -/
  lists : ∀ {i instr}, i ∈ chain.ids → chain.get? i = some instr → ∃ patchers pointers,
    linked.chain.get? i = some { instr with relocs := patchers, referencedBy := pointers }
      ∧ patchers.Nodup ∧ pointers.Nodup
      ∧ (∀ id, id ∈ patchers ↔ ∃ record, linked.table.get? id = some record ∧ record.Patches i)
      ∧ ∀ id, id ∈ pointers ↔ ∃ record, linked.table.get? id = some record ∧ record.PointsAt i
  /-- What is not linked is left alone, and so is the order of the code. -/
  aside : ∀ {i}, i ∉ chain.ids → linked.chain.get? i = chain.get? i
  ids : linked.chain.ids = chain.ids
  /-- Nothing but ties has changed in the table. -/
  bare : ∀ id, (linked.table.get? id).map Symbol.bare = table.get? id
  runs : linked.table.runs = table.runs
  /-- Missing ties are reported in the order in which the table is written out. -/
  warnings : linked.warnings = linked.table.entries.flatMap fun entry => chain.reports withTargets entry.2
  attached : linked.summary.attached = linked.table.entries.countP fun entry => entry.2.patched?.isSome
  targets : linked.summary.targets = linked.table.entries.countP fun entry => entry.2.referred?.isSome
  symbols : linked.summary.symbols = linked.table.entries.countP fun entry => entry.2.instr.isSome

section

variable {chain : Chain} {table : SymbolTable} {withTargets : Bool} {index : AddressIndex}

/-- A record that names no instruction is what is left of it when its ties are taken off again. -/
theorem bare_tied {record : Symbol} (h : record.Untied) :
    (index.tied chain withTargets record).bare = record := by
  rw [AddressIndex.tied_of_untied h]
  obtain ⟨hinstr, hreloc⟩ := h
  obtain ⟨_, _, _, _, _, _, _, _, _, _, reloc, instr⟩ := record
  obtain rfl : instr = none := hinstr
  cases reloc with
  | none => rfl
  | some reloc =>
    obtain ⟨hpatched, htarget⟩ := hreloc rfl
    obtain ⟨_, _, _, _, _, patched, target⟩ := reloc
    obtain rfl : patched = none := hpatched
    obtain rfl : target = none := htarget
    rfl

namespace SymbolTable

/-- Every record of a table is written out. -/
theorem Arranged.mem_entries (h : table.Arranged) {id : SymbolId} {record : Symbol} :
    (id, record) ∈ table.entries ↔ table.get? id = some record := by
  simp only [entries, List.mem_filterMap, Option.map_eq_some_iff, Prod.mk.injEq]
  constructor
  · intro hentry
    obtain ⟨_, -, _, hrecord, rfl, rfl⟩ := hentry
    exact hrecord
  · intro hrecord
    exact ⟨id, h.mem_ids.mpr (index_lt_of_get? hrecord), record, hrecord, rfl, rfl⟩

/-- The records of the table are listed in its order. -/
theorem Arranged.entries_ids (h : table.Arranged) : table.entries.map (·.1) = table.ids := by
  rw [entries, List.map_filterMap]
  refine (List.filterMap_congr fun id hid => ?_).trans List.filterMap_some
  obtain ⟨record, hrecord⟩ := exists_get? (h.mem_ids.mp hid)
  rw [hrecord]
  rfl

end SymbolTable

/-- What is noted about a list of records changes none that is not in the list. -/
theorem amend_all_other {entries : List (SymbolId × Symbol)} {id : SymbolId} (hnot : id ∉ entries.map (·.1))
    (target : Symbol) : (entries.flatMap fun entry => index.notes chain withTargets entry.1 entry.2).foldl
      (LinkNote.amend id) target = target := by
  induction entries with
  | nil => rfl
  | cons entry entries ih =>
    rw [List.map_cons, List.mem_cons, not_or] at hnot
    rw [List.flatMap_cons, List.foldl_append, AddressIndex.amend_notes_other (Ne.symm hnot.1), ih hnot.2]

/-- What is noted about a list of records ties each of them. -/
theorem get?_linked {entries : List (SymbolId × Symbol)} {state : Linking} {id : SymbolId} {record : Symbol}
    (hnodup : (entries.map (·.1)).Nodup) (hentry : (id, record) ∈ entries)
    (hget : state.table.get? id = some record) :
    ((entries.flatMap fun entry => index.notes chain withTargets entry.1 entry.2).foldl
      LinkNote.write state).table.get? id = some (index.tied chain withTargets record) := by
  rw [LinkNote.get?_table_written, hget, Option.map_some]
  obtain ⟨front, behind, rfl⟩ := List.append_of_mem hentry
  rw [List.map_append, List.map_cons] at hnodup
  -- the record has its turn once, and neither before nor after it is anything noted about it
  have hnot := not_mem_of_nodup hnodup
  rw [List.mem_append, not_or] at hnot
  rw [List.flatMap_append, List.foldl_append, amend_all_other hnot.1, List.flatMap_cons, List.foldl_append,
    AddressIndex.amend_notes_self, amend_all_other hnot.2]

/-- The records that linking leaves behind are those of the table with their ties, and everything else that
it leaves behind can be read off them. -/
structure Linking.Complete (index : AddressIndex) (chain : Chain) (table : SymbolTable) (withTargets : Bool)
    (linked : Linking) : Prop where
  get? : ∀ id, linked.table.get? id = (table.get? id).map (index.tied chain withTargets)
  runs : linked.table.runs = table.runs
  code : linked.chain = chain.adjust fun i => .listing
    ((linked.table.entries.filter fun entry => decide (entry.2.Patches i)).map (·.1))
    ((linked.table.entries.filter fun entry => decide (entry.2.PointsAt i)).map (·.1))
  warnings : linked.warnings = linked.table.entries.flatMap fun entry => chain.reports withTargets entry.2
  summary : linked.summary =
    { attached := linked.table.entries.countP fun entry => entry.2.patched?.isSome
      targets := linked.table.entries.countP fun entry => entry.2.referred?.isSome
      symbols := linked.table.entries.countP fun entry => entry.2.instr.isSome }

/-- The records after linking are those before it with their ties, in the same order. -/
theorem entries_linked {linked : SymbolTable} (hruns : linked.runs = table.runs)
    (hget : ∀ id, linked.get? id = (table.get? id).map (index.tied chain withTargets)) :
    linked.entries = index.tiedEntries chain withTargets table.entries := by
  rw [SymbolTable.entries, SymbolTable.ids, hruns, AddressIndex.tiedEntries, SymbolTable.entries,
    List.map_filterMap]
  refine List.filterMap_congr fun id _ => ?_
  rw [hget, Option.map_map, Option.map_map]
  rfl

/-- What is noted about all records of a table. -/
abbrev SymbolTable.notes (index : AddressIndex) (chain : Chain) (withTargets : Bool) (table : SymbolTable) :
    List LinkNote :=
  table.entries.flatMap fun entry => index.notes chain withTargets entry.1 entry.2

/-- Linking writes down what is noted about the records. -/
theorem linkSymbols_eq (hofChain : AddressIndex.ofChain chain = .ok index) (harranged : table.Arranged) :
    linkSymbols chain table withTargets = .ok
      ((table.notes index chain withTargets).foldl LinkNote.write ⟨chain, table, [], ⟨0, 0, 0⟩⟩) := by
  have hnodup : (table.entries.map (·.1)).Nodup := harranged.entries_ids ▸ harranged.nodup
  rw [linkSymbols, hofChain, ← harranged.entries_ids]
  exact congrArg Except.ok (Linking.linkRecords_eq (fun entry hentry => harranged.mem_entries.mp hentry) hnodup
    fun _ => rfl)

/-- What linking makes of a record depends on this record alone. -/
theorem get?_written (harranged : table.Arranged) {state : Linking} (hstate : state.table = table)
    (id : SymbolId) : ((table.notes index chain withTargets).foldl LinkNote.write state).table.get? id
      = (table.get? id).map (index.tied chain withTargets) := by
  cases hfound : table.get? id with
  | none => rw [LinkNote.get?_table_written, hstate, hfound]; rfl
  | some record =>
    exact get?_linked (harranged.entries_ids ▸ harranged.nodup) (harranged.mem_entries.mpr hfound)
      (hstate ▸ hfound)

/-- Linking succeeds for unlinked records and leaves all of them tied. Every record is turned once, in the
order of the table; what it adds is read off its notes. -/
theorem linkSymbols_complete (withTargets : Bool) (hindex : index.Indexes chain)
    (hofChain : AddressIndex.ofChain chain = .ok index) (harranged : table.Arranged) (hunlinked : table.Unlinked) :
    ∃ linked, linkSymbols chain table withTargets = .ok linked
      ∧ linked.Complete index chain table withTargets := by
  let start : Linking := ⟨chain, table, [], ⟨0, 0, 0⟩⟩
  have hget : ∀ id, ((table.notes index chain withTargets).foldl LinkNote.write start).table.get? id
      = (table.get? id).map (index.tied chain withTargets) := get?_written harranged rfl
  have hruns := LinkNote.runs_written (table.notes index chain withTargets) start
  have hentries := entries_linked hruns hget
  have hreads := AddressIndex.reads_entries withTargets hindex fun entry hentry =>
    hunlinked.untied (harranged.mem_entries.mp hentry)
  refine ⟨_, linkSymbols_eq hofChain harranged, hget, hruns, ?_, ?_, ?_⟩
  · rw [LinkNote.chain_written, hentries]
    refine Chain.adjust_congr fun i instr _ => ?_
    rw [hreads.patchers, hreads.pointers]
  · rw [LinkNote.warnings_written, hentries, hreads.warnings]
    exact List.nil_append _
  · rw [LinkNote.summary_written, hentries, hreads.counts]
    simp only [start, Nat.zero_add]

namespace Linking.Complete

variable {linked : Linking} {id : SymbolId} {record : Symbol} {reloc : Relocation} {i : InstrId}

/-- A record that linking leaves behind is one of the table with its ties. -/
theorem of_get? (h : linked.Complete index chain table withTargets) (hunlinked : table.Unlinked)
    (hget : linked.table.get? id = some record) : ∃ first, table.get? id = some first ∧ first.Untied
      ∧ record = index.tied chain withTargets first := by
  rw [h.get?, Option.map_eq_some_iff] at hget
  obtain ⟨first, hfirst, rfl⟩ := hget
  exact ⟨first, hfirst, hunlinked.untied hfirst, rfl⟩

/-- The records that are listed after linking are those of the table. -/
theorem mem_entries (h : linked.Complete index chain table withTargets) (harranged : table.Arranged) :
    (id, record) ∈ linked.table.entries ↔ linked.table.get? id = some record := by
  rw [entries_linked h.runs h.get?, h.get?, AddressIndex.tiedEntries, List.mem_map, Option.map_eq_some_iff]
  constructor
  · intro hentry
    obtain ⟨⟨_, first⟩, hfirst, he⟩ := hentry
    obtain ⟨rfl, rfl⟩ := Prod.mk.inj he
    exact ⟨first, harranged.mem_entries.mp hfirst, rfl⟩
  · intro hrecord
    obtain ⟨first, hfirst, rfl⟩ := hrecord
    exact ⟨(id, first), harranged.mem_entries.mpr hfirst, rfl⟩

/-- No record is listed twice among those of any kind. -/
theorem nodup_listed (h : linked.Complete index chain table withTargets) (harranged : table.Arranged)
    (p : SymbolId × Symbol → Bool) : ((linked.table.entries.filter p).map (·.1)).Nodup := by
  have hids : linked.table.entries.map (·.1) = table.ids := by
    rw [entries_linked h.runs h.get?, AddressIndex.tiedEntries, List.map_map, ← harranged.entries_ids]
    rfl
  exact ((hids ▸ harranged.nodup : (linked.table.entries.map (·.1)).Nodup).sublist
    (List.filter_sublist.map _))

/-- A record is listed among those of a kind exactly if it is one of them. -/
theorem mem_listed (h : linked.Complete index chain table withTargets) (harranged : table.Arranged)
    {p : Symbol → Prop} [DecidablePred p] :
    id ∈ (linked.table.entries.filter fun entry => decide (p entry.2)).map (·.1)
      ↔ ∃ record, linked.table.get? id = some record ∧ p record := by
  simp only [List.mem_map, List.mem_filter, decide_eq_true_eq]
  constructor
  · intro hlisted
    obtain ⟨⟨_, record⟩, ⟨hentry, hp⟩, rfl⟩ := hlisted
    exact ⟨record, (h.mem_entries harranged).mp hentry, hp⟩
  · intro hrecord
    obtain ⟨record, hget, hp⟩ := hrecord
    exact ⟨(id, record), ⟨(h.mem_entries harranged).mpr hget, hp⟩, rfl⟩

/-- A record is tied at its value exactly to the instruction that begins there. -/
theorem value_iff (h : linked.Complete index chain table withTargets) (hunlinked : table.Unlinked)
    (hindex : index.Indexes chain) (hchain : chain.Decoded) (hget : linked.table.get? id = some record) :
    record.instr = some i ↔ record.kind ≠ .wholeSection
      ∧ ∃ sec, record.sec = some sec ∧ chain.StartsAt i sec record.value := by
  obtain ⟨first, -, huntied, rfl⟩ := h.of_get? hunlinked hget
  rw [AddressIndex.tied_of_untied huntied]
  exact AddressIndex.value?_iff hindex hchain

/-- A relocation is tied to what it patches exactly if that covers its place. -/
theorem patch_iff (h : linked.Complete index chain table withTargets) (hunlinked : table.Unlinked)
    (hindex : index.Indexes chain) (hchain : chain.Decoded) (hget : linked.table.get? id = some record)
    (hreloc : record.reloc = some reloc) : reloc.instr = some i ↔ chain.Covers i reloc.sec reloc.offset := by
  obtain ⟨first, -, huntied, rfl⟩ := h.of_get? hunlinked hget
  rw [AddressIndex.tied_of_untied huntied] at hreloc
  obtain ⟨given, -, rfl⟩ := Option.map_eq_some_iff.mp hreloc
  exact hindex.covering?_iff hchain

/-- A relocation is tied to what it refers to exactly if that is wanted, it is against a section symbol,
and the instruction begins there. -/
theorem target_iff (h : linked.Complete index chain table withTargets) (hunlinked : table.Unlinked)
    (hindex : index.Indexes chain) (hchain : chain.Decoded) (hget : linked.table.get? id = some record)
    (hreloc : record.reloc = some reloc) : reloc.target = some i ↔ withTargets = true
      ∧ record.kind = .wholeSection
      ∧ ∃ sec, record.sec = some sec ∧ chain.StartsAt i sec (record.referredAddr reloc) := by
  obtain ⟨first, -, huntied, rfl⟩ := h.of_get? hunlinked hget
  rw [AddressIndex.tied_of_untied huntied] at hreloc ⊢
  obtain ⟨given, -, rfl⟩ := Option.map_eq_some_iff.mp hreloc
  exact AddressIndex.target?_iff hindex hchain

/-- What no record can be tied to is listed nowhere. -/
theorem mem_ids (h : linked.Complete index chain table withTargets) (hunlinked : table.Unlinked)
    (hindex : index.Indexes chain) (hchain : chain.Decoded) (hget : linked.table.get? id = some record)
    (htied : record.Patches i ∨ record.PointsAt i) : i ∈ chain.ids := by
  rcases htied with ⟨reloc, hreloc, hinstr⟩ | hinstr | ⟨reloc, hreloc, htarget⟩
  · exact ((h.patch_iff hunlinked hindex hchain hget hreloc).mp hinstr).1
  · obtain ⟨_, _, _, hstart⟩ := (h.value_iff hunlinked hindex hchain hget).mp hinstr
    exact hstart.1
  · obtain ⟨_, _, _, _, hstart⟩ := (h.target_iff hunlinked hindex hchain hget hreloc).mp htarget
    exact hstart.1

end Linking.Complete

/-- Linking code from the input and a table that was read from its object succeeds, makes every tie that the
input addresses ask for, notes it once on each side, and reports what is missing. -/
theorem linkSymbols_wired (withTargets : Bool) {symbols : List RawSymbol} {relocations : List RawRelocation}
    {warnings : List Warning} (hchain : chain.Decoded)
    (hload : SymbolTable.load symbols relocations = .ok (table, warnings)) :
    ∃ linked, linkSymbols chain table withTargets = .ok linked ∧ Wired chain table withTargets linked := by
  obtain ⟨index, hofChain, hindex⟩ := AddressIndex.ofChain_succeeds hchain
  have harranged := SymbolTable.load_arranged hload
  have hunlinked := SymbolTable.load_unlinked hload
  obtain ⟨linked, hlinked, h⟩ := linkSymbols_complete withTargets hindex hofChain harranged hunlinked
  refine ⟨linked, hlinked, {
    value := h.value_iff hunlinked hindex hchain
    patch := h.patch_iff hunlinked hindex hchain
    target := h.target_iff hunlinked hindex hchain
    lists := fun {i instr} hi hinstr => ?_
    aside := fun {i} hi => ?_
    ids := by rw [h.code, Chain.ids_adjust]
    bare := fun id => ?_
    runs := h.runs
    warnings := h.warnings
    attached := by rw [h.summary]
    targets := by rw [h.summary]
    symbols := by rw [h.summary] }⟩
  -- the input lists nothing, so the lists are those that linking made
  · obtain ⟨hrelocs, hpointers⟩ := hchain.unlisted i hi instr hinstr
    refine ⟨_, _, ?_, h.nodup_listed harranged _, h.nodup_listed harranged _,
      fun id => h.mem_listed harranged (p := fun record => record.Patches i),
      fun id => h.mem_listed harranged (p := fun record => record.PointsAt i)⟩
    rw [h.code, Chain.get?_adjust, hinstr, Option.map_some, Instruction.listing, hrelocs, hpointers,
      List.nil_append, List.nil_append]
  · -- whatever a record is tied to belongs to the code
    have hnone : ∀ (p : Symbol → Prop) [DecidablePred p], (∀ record, p record → record.Patches i ∨ record.PointsAt i) →
        (linked.table.entries.filter fun entry => decide (p entry.2)).map (·.1) = [] := by
      intro p _ hp
      refine List.eq_nil_iff_forall_not_mem.mpr fun id hid => hi ?_
      obtain ⟨record, hget, htied⟩ := (h.mem_listed harranged).mp hid
      exact h.mem_ids hunlinked hindex hchain hget (hp record htied)
    rw [h.code, Chain.get?_adjust, hnone (fun record => record.Patches i) fun _ => .inl,
      hnone (fun record => record.PointsAt i) fun _ => .inr, funext Instruction.listing_nil]
    exact Option.map_id'
  · rw [h.get?, Option.map_map]
    cases hget : table.get? id with
    | none => rfl
    | some record => exact congrArg some (bare_tied (hunlinked.untied hget))

/-- A call and a return, as they were decoded. -/
def callAndReturn : Chain :=
  .ofList [{ Instruction.decoded 0 [0xE8, 0, 0, 0, 0] 1 .call with sec := 1 },
    { Instruction.decoded 5 [0xC3] 1 .ret with sec := 1 }]

/-- The call is relocated and the return is referred to from elsewhere; two relocations have no instruction
to be tied to. -/
theorem callAndReturn_wired : callAndReturn.Decoded ∧ ∃ table warnings linked,
    SymbolTable.load
        [⟨"", 0, 0, 0, 0⟩, ⟨".text", 3, 0, 1, 0⟩, ⟨"f", 0x12, 6, 1, 0⟩, ⟨"g", 0x10, 0, 0, 0⟩]
        [⟨1, 1, 3, 4, -4, .explicit⟩, ⟨2, 0, 1, 1, 5, .explicit⟩, ⟨1, 9, 3, 2, -4, .explicit⟩,
          ⟨2, 8, 1, 1, 2, .explicit⟩] = .ok (table, warnings)
      ∧ linkSymbols callAndReturn table true = .ok linked ∧ Wired callAndReturn table true linked := by
  have hdecoded : callAndReturn.Decoded := by decide
  obtain ⟨table, warnings, hload⟩ := SymbolTable.load_succeeds
    [⟨"", 0, 0, 0, 0⟩, ⟨".text", 3, 0, 1, 0⟩, ⟨"f", 0x12, 6, 1, 0⟩, ⟨"g", 0x10, 0, 0, 0⟩]
    [⟨1, 1, 3, 4, -4, .explicit⟩, ⟨2, 0, 1, 1, 5, .explicit⟩, ⟨1, 9, 3, 2, -4, .explicit⟩,
      ⟨2, 8, 1, 1, 2, .explicit⟩]
  obtain ⟨linked, hlinked, hwired⟩ := linkSymbols_wired true hdecoded hload
  exact ⟨hdecoded, table, warnings, linked, hload, hlinked, hwired⟩

end

end Splice
