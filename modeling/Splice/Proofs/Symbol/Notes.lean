import Splice.Proofs.Symbol.Linking

/-!
# Linking, written down

What linking finds for a record depends on the record and on the input addresses, and not on
what was tied before. So linking comes apart into finding, which gives a list of notes for each
record (`AddressIndex.notes`), and writing the notes down one after the other
(`linkRecords_eq`). What a list of notes leaves behind can be read off it: the lists of an
instruction (`chain_written`), a record (`get?_table_written`), the warnings and the counts.

Written down, linking is a pure function of the input: which notes there are does not depend on
the order in which they are written, and `Reads` says what a reader of the result sees of them.
The equation `linkRecords_eq` is what lets the two sides of every tie be compared in
`Splice.Proofs.Symbol.Wiring`.
-/

namespace Splice

/-! ## Notes -/

/-- One thing that linking writes down. -/
inductive LinkNote where
  /-- The instruction at the value of a symbol. -/
  | value (symbol : SymbolId) (instr : InstrId)
  /-- The instruction that a relocation patches. -/
  | patch (symbol : SymbolId) (instr : InstrId)
  /-- The instruction that a relocation refers to. -/
  | target (symbol : SymbolId) (instr : InstrId)
  /-- A tie that is missing. -/
  | report (warning : Warning)

/-- The instruction with further records in its lists. -/
def Instruction.listing (patchers pointers : List SymbolId) (instr : Instruction) : Instruction :=
  { instr with
    relocs := instr.relocs ++ patchers
    referencedBy := instr.referencedBy ++ pointers }

theorem Instruction.listing_nil (instr : Instruction) : instr.listing [] [] = instr := by
  simp [listing]

theorem Instruction.listing_listing (a b c d : List SymbolId) (instr : Instruction) :
    (instr.listing a b).listing c d = instr.listing (a ++ c) (b ++ d) := by
  simp [listing]

namespace LinkNote

variable {state : Linking} {note : LinkNote} {notes : List LinkNote} {symbol : SymbolId} {id : InstrId}

/-- Writes a note down on both sides. -/
def write (state : Linking) : LinkNote → Linking
  | value symbol instr =>
    { state.refer symbol instr with
      table := state.table.update symbol fun record => { record with instr := some instr }
      summary.symbols := state.summary.symbols + 1 }
  | patch symbol instr =>
    { state with
      chain := state.chain.update instr fun node =>
        { node with instr.relocs := node.instr.relocs ++ [symbol] }
      table := state.table.updateReloc symbol fun reloc => { reloc with instr := some instr }
      summary.attached := state.summary.attached + 1 }
  | target symbol instr =>
    { state.refer symbol instr with
      table := state.table.updateReloc symbol fun reloc => { reloc with target := some instr }
      summary.targets := state.summary.targets + 1 }
  | report warning => state.warn warning

/-- The record that is noted as patching the instruction `id`. -/
def patcher? (id : InstrId) : LinkNote → Option SymbolId
  | patch symbol instr => if instr = id then some symbol else none
  | _ => none

/-- The record that is noted as pointing at the instruction `id`. -/
def pointer? (id : InstrId) : LinkNote → Option SymbolId
  | value symbol instr | target symbol instr => if instr = id then some symbol else none
  | _ => none

def warning? : LinkNote → Option Warning
  | report warning => some warning
  | _ => none

/-- What a note makes of the record `symbol`. -/
def amend (symbol : SymbolId) (record : Symbol) : LinkNote → Symbol
  | value other instr => if other = symbol then { record with instr := some instr } else record
  | patch other instr =>
    if other = symbol then
      { record with reloc := record.reloc.map fun reloc => { reloc with instr := some instr } }
    else record
  | target other instr =>
    if other = symbol then
      { record with reloc := record.reloc.map fun reloc => { reloc with target := some instr } }
    else record
  | report _ => record

/-- Adds a note to the counts. -/
def count (summary : LinkSummary) : LinkNote → LinkSummary
  | value _ _ => { summary with symbols := summary.symbols + 1 }
  | patch _ _ => { summary with attached := summary.attached + 1 }
  | target _ _ => { summary with targets := summary.targets + 1 }
  | report _ => summary

/-- The lists that a note is added to. -/
theorem chain_write : (write state note).chain
    = state.chain.adjust fun id => .listing (note.patcher? id).toList (note.pointer? id).toList := by
  have hpointed : ∀ (chain : Chain) (symbol : SymbolId) (instr : InstrId),
      chain.update instr (fun node => { node with instr.referencedBy := node.instr.referencedBy ++ [symbol] })
        = chain.adjust fun id => .listing [] (if instr = id then some symbol else none).toList := by
    intro chain symbol instr
    refine (Chain.update_eq_adjust (Instruction.pointedBy symbol)).trans ?_
    refine Chain.adjust_congr fun id old _ => ?_
    by_cases hid : id = instr
    · rw [hid, Chain.only_self, if_pos rfl]
      simp [Instruction.pointedBy, Instruction.listing]
    · rw [Chain.only_ne hid, if_neg fun he => hid he.symm]
      exact (Instruction.listing_nil old).symm
  cases note with
  | value symbol instr => exact hpointed ..
  | patch symbol instr =>
    refine (Chain.update_eq_adjust (Instruction.patchedBy symbol)).trans ?_
    refine Chain.adjust_congr fun id old _ => ?_
    by_cases hid : id = instr
    · rw [hid, Chain.only_self, patcher?, if_pos rfl]
      simp [Instruction.patchedBy, Instruction.listing, pointer?]
    · rw [Chain.only_ne hid, patcher?, if_neg fun he => hid he.symm]
      exact (Instruction.listing_nil old).symm
  | target symbol instr => exact hpointed ..
  | report warning =>
    exact (Chain.adjust_self fun id old _ => Instruction.listing_nil old).symm

/-- The record that a note changes. -/
theorem get?_table_write : (write state note).table.get? symbol
    = (state.table.get? symbol).map fun record => note.amend symbol record := by
  have hupdate : ∀ (other : SymbolId) (f : Symbol → Symbol), (state.table.update other f).get? symbol
      = (state.table.get? symbol).map fun record => if other = symbol then f record else record := by
    intro other f
    rw [SymbolTable.get?_update]
    by_cases he : symbol = other
    · simp [he]
    · simp [he, Ne.symm he]
  cases note with
  | value other instr => exact hupdate ..
  | patch other instr => exact hupdate ..
  | target other instr => exact hupdate ..
  | report warning => exact Option.map_id'.symm

theorem runs_write : (write state note).table.runs = state.table.runs := by
  cases note <;> rfl

theorem warnings_write : (write state note).warnings = state.warnings ++ note.warning?.toList := by
  cases note <;> simp [write, Linking.refer, Linking.warn, warning?]

theorem summary_write : (write state note).summary = note.count state.summary := by
  cases note <;> rfl

/-! ## Lists of notes -/

/-- To write notes adds to the lists of the instructions what they note there. -/
theorem chain_written (notes : List LinkNote) (state : Linking) : (notes.foldl write state).chain
    = state.chain.adjust fun id => .listing (notes.filterMap (patcher? id)) (notes.filterMap (pointer? id)) := by
  induction notes generalizing state with
  | nil => exact (Chain.adjust_self fun id old _ => Instruction.listing_nil old).symm
  | cons note notes ih =>
    rw [List.foldl_cons, ih, chain_write, Chain.adjust_adjust]
    refine Chain.adjust_congr fun id old _ => ?_
    rw [Instruction.listing_listing, List.filterMap_cons, List.filterMap_cons]
    cases note.patcher? id <;> cases note.pointer? id <;> rfl

/-- To write notes changes each record by those that are about it. -/
theorem get?_table_written (notes : List LinkNote) (state : Linking) : (notes.foldl write state).table.get? symbol
    = (state.table.get? symbol).map fun record => notes.foldl (amend symbol) record := by
  induction notes generalizing state with
  | nil => exact Option.map_id'.symm
  | cons note notes ih =>
    rw [List.foldl_cons, ih, get?_table_write, Option.map_map]
    rfl

/-- To write notes changes no run. -/
theorem runs_written (notes : List LinkNote) (state : Linking) :
    (notes.foldl write state).table.runs = state.table.runs := by
  induction notes generalizing state with
  | nil => rfl
  | cons note notes ih => rw [List.foldl_cons, ih, runs_write]

/-- To write notes adds their warnings. -/
theorem warnings_written (notes : List LinkNote) (state : Linking) : (notes.foldl write state).warnings
    = state.warnings ++ notes.filterMap warning? := by
  induction notes generalizing state with
  | nil => exact (List.append_nil _).symm
  | cons note notes ih =>
    rw [List.foldl_cons, ih, warnings_write, List.append_assoc, List.filterMap_cons]
    cases note.warning? <;> rfl

/-- To write notes counts them. -/
theorem summary_written (notes : List LinkNote) (state : Linking) :
    (notes.foldl write state).summary = notes.foldl count state.summary := by
  induction notes generalizing state with
  | nil => rfl
  | cons note notes ih => rw [List.foldl_cons, ih, summary_write, List.foldl_cons]

/-- What notes add to the lists of each instruction, to the warnings and to the counts. -/
structure Reads (notes : List LinkNote) (patchers pointers : InstrId → List SymbolId)
    (warnings : List Warning) (attached targets symbols : Nat) : Prop where
  patchers : ∀ id, notes.filterMap (patcher? id) = patchers id
  pointers : ∀ id, notes.filterMap (pointer? id) = pointers id
  warnings : notes.filterMap warning? = warnings
  counts : ∀ summary, notes.foldl count summary
    = ⟨summary.attached + attached, summary.targets + targets, summary.symbols + symbols⟩

theorem Reads.nil : Reads [] (fun _ => []) (fun _ => []) [] 0 0 0 :=
  ⟨fun _ => rfl, fun _ => rfl, rfl, fun _ => rfl⟩

/-- What two lists of notes add is what both of them add, one behind the other. -/
theorem Reads.append {more : List LinkNote} {patchers patchers' pointers pointers' : InstrId → List SymbolId}
    {warnings warnings' : List Warning} {attached attached' targets targets' symbols symbols' : Nat}
    (h : Reads notes patchers pointers warnings attached targets symbols)
    (k : Reads more patchers' pointers' warnings' attached' targets' symbols') :
    Reads (notes ++ more) (fun id => patchers id ++ patchers' id) (fun id => pointers id ++ pointers' id)
      (warnings ++ warnings') (attached + attached') (targets + targets') (symbols + symbols') where
  patchers id := by rw [List.filterMap_append, h.patchers, k.patchers]
  pointers id := by rw [List.filterMap_append, h.pointers, k.pointers]
  warnings := by rw [List.filterMap_append, h.warnings, k.warnings]
  counts summary := by
    rw [List.foldl_append, h.counts, k.counts]
    simp only [Nat.add_assoc]

end LinkNote

/-! ## What is found for a record -/

/-- The address that a relocation against a symbol refers to. -/
def Symbol.referredAddr (record : Symbol) (reloc : Relocation) : UInt64 :=
  record.value + reloc.addend.toUInt64 + reloc.kind.pcBias.toUInt64

namespace AddressIndex

variable (index : AddressIndex) (chain : Chain) (withTargets : Bool) (symbol : SymbolId) (record : Symbol)
  (reloc : Relocation)

/-- The instruction at the value of a symbol. -/
def value? : Option InstrId := do
  let sec ← record.sec
  if record.kind == .wholeSection then none else index.beginning? sec record.value

/-- The code section that a symbol stands for. -/
def section? : Option SectionId := do
  let sec ← record.sec
  if record.kind == .wholeSection && index.isCode sec then some sec else none

/-- The instruction that a relocation refers to. -/
def target? : Option InstrId :=
  (if withTargets then index.section? record else none).bind fun sec =>
    index.beginning? sec (record.referredAddr reloc)

/-- What is noted about the bytes that a relocation patches. -/
def patchNotes : List LinkNote :=
  match index.covering? chain reloc.sec reloc.offset with
  | some instr => [.patch symbol instr]
  | none =>
    if index.isCode reloc.sec then [.report (.relocationOutsideInstruction reloc.sec reloc.offset)] else []

/-- What is noted about the place that a relocation refers to. -/
def targetNotes : List LinkNote :=
  match index.section? record with
  | none => []
  | some sec =>
    match index.beginning? sec (record.referredAddr reloc) with
    | some instr => [.target symbol instr]
    | none => [.report (.unlinkedRelocationTarget sec (record.referredAddr reloc))]

/-- All that is noted about a record. -/
def notes : List LinkNote :=
  (index.value? record).toList.map (LinkNote.value symbol) ++
    match record.reloc with
    | none => []
    | some reloc =>
      index.patchNotes chain symbol reloc
        ++ if withTargets then index.targetNotes symbol record reloc else []

variable {index chain withTargets symbol record reloc} {other : SymbolId}

/-- The notes about what a relocation patches set the tie of its record, and leave all others alone. -/
theorem amend_patchNotes (target : Symbol) :
    (index.patchNotes chain symbol reloc).foldl (LinkNote.amend other) target
      = if symbol = other then { target with reloc := target.reloc.map fun old =>
          { old with instr := (index.covering? chain reloc.sec reloc.offset).or old.instr } }
        else target := by
  unfold patchNotes
  cases index.covering? chain reloc.sec reloc.offset with
  | some instr => rfl
  | none => cases index.isCode reloc.sec <;> simp [LinkNote.amend]

/-- The notes about what a relocation refers to set the tie of its record, and leave all others alone. -/
theorem amend_targetNotes (target : Symbol) :
    (if withTargets then index.targetNotes symbol record reloc else []).foldl (LinkNote.amend other) target
      = if symbol = other then { target with reloc := target.reloc.map fun old =>
          { old with target := (index.target? withTargets record reloc).or old.target } }
        else target := by
  unfold targetNotes target?
  cases withTargets with
  | false => simp
  | true =>
    cases index.section? record with
    | none => simp
    | some sec =>
      simp only [if_true, Option.bind_some]
      cases index.beginning? sec (record.referredAddr reloc) <;> simp [LinkNote.amend]

theorem amend_valueNote (target : Symbol) :
    ((index.value? record).toList.map (LinkNote.value symbol)).foldl (LinkNote.amend other) target
      = if symbol = other then { target with instr := (index.value? record).or target.instr }
        else target := by
  cases index.value? record <;> simp [LinkNote.amend]

/-- What is noted about a record changes no other. -/
theorem amend_notes_other (hne : symbol ≠ other) (target : Symbol) :
    (index.notes chain withTargets symbol record).foldl (LinkNote.amend other) target = target := by
  rw [notes, List.foldl_append, amend_valueNote, if_neg hne]
  cases record.reloc with
  | none => rfl
  | some reloc => rw [List.foldl_append, amend_patchNotes, if_neg hne, amend_targetNotes, if_neg hne]

end AddressIndex

/-! ## Linking by notes -/

namespace Linking

variable {index : AddressIndex} {chain : Chain} {withTargets : Bool} {state : Linking} {symbol : SymbolId}
  {record : Symbol} {reloc : Relocation}

/-- To link a symbol is to write down its instruction, if there is one at its value. -/
theorem linkSymbol_eq : linkSymbol index state symbol record
    = ((index.value? record).toList.map (LinkNote.value symbol)).foldl LinkNote.write state := by
  cases hvalue : index.value? record <;>
    · unfold AddressIndex.value? at hvalue
      simp only [linkSymbol, hvalue]
      rfl

/-- To link what a relocation patches is to write down the notes about it. -/
theorem linkPatched_eq : linkPatched index state symbol reloc
    = (index.patchNotes state.chain symbol reloc).foldl LinkNote.write state := by
  unfold linkPatched AddressIndex.patchNotes
  cases index.covering? state.chain reloc.sec reloc.offset with
  | some instr => rfl
  | none => cases index.isCode reloc.sec <;> rfl

/-- To link what a relocation refers to is to write down the notes about it. The cases are those of the
symbol: of a section or not, and of a section of code or not. -/
theorem linkReferred_eq : linkReferred index state symbol record reloc
    = (index.targetNotes symbol record reloc).foldl LinkNote.write state := by
  have hfound : linkReferred index state symbol record reloc = match index.section? record with
      | none => state
      | some sec =>
        match index.beginning? sec (record.referredAddr reloc) with
        | some instr => LinkNote.write state (.target symbol instr)
        | none => LinkNote.write state (.report (.unlinkedRelocationTarget sec (record.referredAddr reloc))) := by
    unfold linkReferred AddressIndex.section?
    cases record.sec with
    | none => rfl
    | some sec =>
      simp only [Option.bind_eq_bind, Option.bind_some, bne]
      cases record.kind == .wholeSection <;> cases index.isCode sec <;> rfl
  rw [hfound, AddressIndex.targetNotes]
  cases index.section? record with
  | none => rfl
  | some sec =>
    simp only
    cases index.beginning? sec (record.referredAddr reloc) <;> rfl

/-- The ties of one record, as they are found in the chain that linking began with: only the lists of its
instructions have changed since. -/
theorem linkRecord_eq (hget : state.table.get? symbol = some record)
    (hsizes : ∀ id, (state.chain.get? id).map Instruction.size = (chain.get? id).map Instruction.size) :
    linkRecord index withTargets state symbol
      = (index.notes chain withTargets symbol record).foldl LinkNote.write state := by
  unfold linkRecord AddressIndex.notes
  simp only [hget, linkSymbol_eq, linkPatched_eq, linkReferred_eq, List.foldl_append]
  cases record.reloc with
  | none => rfl
  | some reloc =>
    -- the value was noted first; that adds to a list and changes no size
    have hsame : index.patchNotes (((index.value? record).toList.map (LinkNote.value symbol)).foldl
        LinkNote.write state).chain symbol reloc = index.patchNotes chain symbol reloc := by
      unfold AddressIndex.patchNotes
      rw [AddressIndex.covering?_congr fun id => ?_]
      rw [LinkNote.chain_written, Chain.get?_adjust, Option.map_map]
      exact hsizes id
    simp only [hsame]
    cases withTargets <;> simp [List.foldl_append]

/-- All ties of a list of records, each of which has its turn once. -/
theorem linkRecords_eq {entries : List (SymbolId × Symbol)}
    (hget : ∀ entry ∈ entries, state.table.get? entry.1 = some entry.2) (hnodup : (entries.map (·.1)).Nodup)
    (hsizes : ∀ id, (state.chain.get? id).map Instruction.size = (chain.get? id).map Instruction.size) :
    (entries.map (·.1)).foldl (linkRecord index withTargets) state
      = (entries.flatMap fun entry => index.notes chain withTargets entry.1 entry.2).foldl
        LinkNote.write state := by
  induction entries generalizing state with
  | nil => rfl
  | cons entry entries ih =>
    rw [List.map_cons, List.nodup_cons] at hnodup
    rw [List.map_cons, List.foldl_cons, linkRecord_eq (hget entry (List.mem_cons_self ..)) hsizes,
      List.flatMap_cons, List.foldl_append]
    refine ih (fun other hother => ?_) hnodup.2 fun id => ?_
    · rw [LinkNote.get?_table_written, hget other (List.mem_cons_of_mem _ hother), Option.map_some]
      rw [AddressIndex.amend_notes_other fun he : entry.1 = other.1 =>
        hnodup.1 (List.mem_map.mpr ⟨other, hother, he.symm⟩)]
    · rw [LinkNote.chain_written, Chain.get?_adjust, Option.map_map]
      exact hsizes id

end Linking

end Splice
