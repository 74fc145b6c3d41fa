import Splice.Proofs.Chain.Packing
import Splice.Proofs.Redirects
import Splice.Proofs.Symbol.Noting

/-!
# Packed programs

A fork is the program with its instructions packed (`Program.packed`), if its functions,
records, redirects and instructions name nothing but linked instructions (`fork_packed`). Each
part has its own way with a name that is not linked: packing and the functions refuse it
(`FunctionTable.rename_ok`), records drop the link and redirects the entry
(`SymbolTable.rename_eq_iff`, `Redirects.rename_eq_iff`).

New names are only compared with one another, so that what is found by a name is found by the
new one: redirects lead to the same landings (`Redirects.Within.resolve_renamed`).

Redirects take another way than the rest with a name that is not linked: the entry is dropped.
So a program whose redirects name detached instructions is forked, and the fork is not the
program under other names; `Within` excludes it, and the equivalences say that this is all that
has to be excluded.
-/

namespace Splice

/-! ## Functions -/

/-- The function with other names for its bounds. -/
def Function.renamed (rename : InstrId → InstrId) (function : Function) : Function :=
  { function with first := function.first.map rename, last := function.last.map rename }

/-- Every instruction that bounds a function is one of `places`. -/
def FunctionTable.Within (table : FunctionTable) (places : InstrId → Prop) : Prop :=
  ∀ function ∈ table.functions, (∀ id ∈ function.first, places id) ∧ ∀ id ∈ function.last, places id

instance (table : FunctionTable) (places : InstrId → Prop) [DecidablePred places] :
    Decidable (table.Within places) :=
  inferInstanceAs (Decidable (∀ function ∈ table.functions, _ ∧ _))

/-- Functions take new names exactly if none of their bounds is a detached instruction. -/
theorem FunctionTable.rename_ok {table after : FunctionTable} {chain : Chain} :
    table.rename chain.packedNames = .ok after ↔ table.Within (· ∈ chain.ids)
      ∧ after = ⟨table.functions.map (·.renamed chain.packedName)⟩ := by
  have hone : ∀ function renamed : Function, (do
        let first ← chain.packedNames.getOption function.first
        let last ← chain.packedNames.getOption function.last
        return { function with first, last }) = Except.ok renamed
      ↔ ((∀ id ∈ function.first, id ∈ chain.ids) ∧ ∀ id ∈ function.last, id ∈ chain.ids)
        ∧ renamed = function.renamed chain.packedName := by
    intro function renamed
    simp only [bind_eq_ok, pure_eq_ok, Chain.packedNames_getOption_ok]
    constructor
    · intro h
      obtain ⟨_, ⟨hfirst, rfl⟩, _, ⟨hlast, rfl⟩, rfl⟩ := h
      exact ⟨⟨hfirst, hlast⟩, rfl⟩
    · intro h
      obtain ⟨⟨hfirst, hlast⟩, rfl⟩ := h
      exact ⟨_, ⟨hfirst, rfl⟩, _, ⟨hlast, rfl⟩, rfl⟩
  have hall : ∀ functions, (table.functions.toList.mapM fun function => do
        let first ← chain.packedNames.getOption function.first
        let last ← chain.packedNames.getOption function.last
        return { function with first, last }) = Except.ok functions
      ↔ table.Within (· ∈ chain.ids)
        ∧ functions = table.functions.toList.map (·.renamed chain.packedName) := by
    intro functions
    rw [mapM_eq_ok_map fun function renamed h => ((hone function renamed).mp h).2]
    simp only [hone, and_true, Within, Array.mem_toList_iff]
  simp only [rename, bind_eq_ok, pure_eq_ok, hall]
  constructor
  · intro h
    obtain ⟨_, ⟨hwithin, rfl⟩, rfl⟩ := h
    exact ⟨hwithin, by rw [← List.map_toArray, Array.toArray_toList]⟩
  · intro h
    obtain ⟨hwithin, rfl⟩ := h
    exact ⟨_, ⟨hwithin, rfl⟩, by rw [← List.map_toArray, Array.toArray_toList]⟩

/-! ## Symbols -/

/-- Every instruction that a record is tied to is one of `places`. -/
def SymbolTable.Within (table : SymbolTable) (places : InstrId → Prop) : Prop :=
  ∀ record ∈ table.records, (∀ id ∈ record.instr, places id)
    ∧ ∀ reloc ∈ record.reloc, (∀ id ∈ reloc.instr, places id) ∧ ∀ id ∈ reloc.target, places id

instance (table : SymbolTable) (places : InstrId → Prop) [DecidablePred places] :
    Decidable (table.Within places) :=
  inferInstanceAs (Decidable (∀ record ∈ table.records, _ ∧ _))

/-- The table with other names for the instructions. -/
def SymbolTable.renamed (rename : InstrId → InstrId) (table : SymbolTable) : SymbolTable :=
  { table with records := table.records.map (·.renamed fun id => some (rename id)) }

/-- Records take their new names as one would have them exactly if none is tied to a detached instruction,
since those ties are dropped. -/
theorem SymbolTable.rename_eq_iff {table : SymbolTable} {chain : Chain} :
    table.rename chain.packedNames = table.renamed chain.packedName ↔ table.Within (· ∈ chain.ids) := by
  have hrecord : ∀ record : Symbol, record.renamed chain.packedNames.get?
      = record.renamed (fun id => some (chain.packedName id))
      ↔ (∀ id ∈ record.instr, id ∈ chain.ids) ∧ ∀ reloc ∈ record.reloc,
        (∀ id ∈ reloc.instr, id ∈ chain.ids) ∧ ∀ id ∈ reloc.target, id ∈ chain.ids := by
    intro record
    simp only [Symbol.renamed, Symbol.mk.injEq, true_and, Chain.bind_packedNames_iff]
    rw [and_comm]
    refine and_congr_right fun _ => ?_
    cases record.reloc with
    | none => simp
    | some reloc => simp [Chain.bind_packedNames_iff]
  unfold rename renamed Within
  rw [SymbolTable.mk.injEq]
  simp only [and_true]
  rw [Array.map_inj_left]
  exact forall₂_congr fun record _ => hrecord record

theorem SymbolTable.get?_renamed (table : SymbolTable) (rename : InstrId → InstrId) (id : SymbolId) :
    (table.renamed rename).get? id = (table.get? id).map (·.renamed fun id => some (rename id)) :=
  Array.getElem?_map ..

/-- Renaming goes through the list of names without changing it. -/
theorem SymbolTable.entries_renamed (table : SymbolTable) (rename : InstrId → InstrId) :
    (table.renamed rename).entries
      = table.entries.map fun entry => (entry.1, entry.2.renamed fun id => some (rename id)) := by
  unfold entries
  rw [List.map_filterMap]
  refine List.filterMap_congr fun id _ => ?_
  rw [get?_renamed]
  cases table.get? id <;> rfl

/-- What is written out of a relocation names no instruction. -/
theorem SymbolTable.resolved_renamed (table : SymbolTable) (rename : InstrId → InstrId) :
    (table.renamed rename).resolved = table.resolved := by
  unfold resolved
  rw [entries_renamed, List.filterMap_map]
  refine List.filterMap_congr fun entry _ => ?_
  show (entry.2.reloc.map _).map _ = entry.2.reloc.map _
  rw [Option.map_map]
  rfl

/-! ## Redirects -/

/-- The redirects with other names for the instructions, and with an empty log. -/
def Redirects.renamed (rename : InstrId → InstrId) (redirects : Redirects) : Redirects where
  targets := redirects.targets.map (Prod.map rename rename)
  jumpers := redirects.jumpers.map (Prod.map rename rename)
  log := []

namespace Redirects

instance (redirects : Redirects) (places : InstrId → Prop) [DecidablePred places] :
    Decidable (redirects.Within places) :=
  inferInstanceAs (Decidable (∀ entry ∈ _, _ ∧ _))

variable {redirects : Redirects} {chain : Chain} {places : InstrId → Prop} {rename : InstrId → InstrId}
  {jumper logical : InstrId}

/-- Redirects take their new names as one would have them exactly if they lead between linked
instructions. -/
theorem rename_eq_iff : redirects.rename chain.packedNames = redirects.renamed chain.packedName
    ↔ redirects.Within (· ∈ chain.ids) := by
  have hentries : ∀ entries : List (InstrId × InstrId), ((entries.filterMap fun entry => do
        return (← chain.packedNames.get? entry.1, ← chain.packedNames.get? entry.2))
      = entries.map (Prod.map chain.packedName chain.packedName))
      ↔ ∀ entry ∈ entries, entry.1 ∈ chain.ids ∧ entry.2 ∈ chain.ids := by
    intro entries
    rw [List.filterMap_eq_map_iff_forall_eq_some]
    refine forall₂_congr fun entry _ => ?_
    rw [Chain.packedNames_get?, Chain.packedNames_get?, Prod.map]
    by_cases hkey : entry.1 ∈ chain.ids <;> by_cases hvalue : entry.2 ∈ chain.ids <;> simp [hkey, hvalue]
  unfold rename renamed Within
  simp only [Redirects.mk.injEq, and_true, hentries, List.forall_mem_append]

theorem targetOf?_renamed (redirects : Redirects)
    (hinj : ∀ a b, places a → (rename a = rename b ↔ a = b)) (hlogical : places logical) :
    (redirects.renamed rename).targetOf? (rename logical) = (redirects.targetOf? logical).map rename :=
  Assoc.lookup_map fun _ _ => hinj _ _ hlogical

/-- Renaming commutes with following redirects, since the names given are distinct. -/
theorem Within.chase_renamed (h : redirects.Within places)
    (hinj : ∀ a b, places a → (rename a = rename b ↔ a = b)) (hlogical : places logical) (steps : Nat) :
    (redirects.renamed rename).chase steps (rename logical) = rename (redirects.chase steps logical) := by
  -- renaming keeps names apart, so both chases take the same steps
  induction steps generalizing logical with
  | zero => rfl
  | succ steps ih =>
    have htarget := redirects.targetOf?_renamed hinj hlogical
    cases hnext : redirects.targetOf? logical with
    | none =>
      rw [hnext] at htarget
      rw [chase_of_none htarget, chase_of_none hnext]
    | some next =>
      rw [hnext] at htarget
      rw [chase_succ_of_some htarget, chase_succ_of_some hnext]
      exact ih (h (logical, next) (List.mem_append_left _ (Assoc.mem_of_lookup hnext))).2

/-- Under other names the physical landings are the same. -/
theorem Within.resolve_renamed (h : redirects.Within places)
    (hinj : ∀ a b, places a → (rename a = rename b ↔ a = b)) (hjumper : places jumper)
    (hlogical : places logical) : (redirects.renamed rename).resolve (rename jumper) (rename logical)
      = rename (redirects.resolve jumper logical) := by
  have hoverride : (redirects.renamed rename).overrideOf? (rename jumper)
      = (redirects.overrideOf? jumper).map rename := Assoc.lookup_map fun _ _ => hinj _ _ hjumper
  have hlanding : (redirects.renamed rename).landing (rename logical) = rename (redirects.landing logical) := by
    rw [landing, landing, h.chase_renamed hinj hlogical, renamed, List.length_map]
  rw [Redirects.resolve, Redirects.resolve, hoverride, hlanding]
  cases redirects.overrideOf? jumper <;> rfl

end Redirects

/-! ## Programs -/

namespace Program

/-- Function bounds, redirects and the ties of symbols and relocations name no instructions but
`places`. -/
structure Within (program : Program) (places : InstrId → Prop) : Prop where
  functions : program.functions.Within places
  symbols : program.symbols.Within places
  redirects : program.redirects.Within places

instance (program : Program) (places : InstrId → Prop) [DecidablePred places] :
    Decidable (program.Within places) :=
  decidable_of_iff (program.functions.Within places ∧ program.symbols.Within places
      ∧ program.redirects.Within places)
    ⟨fun h => ⟨h.1, h.2.1, h.2.2⟩, fun h => ⟨h.functions, h.symbols, h.redirects⟩⟩

/-- Naming fewer places is naming more of them. -/
theorem Within.imp {program : Program} {places places' : InstrId → Prop} (h : program.Within places)
    (himp : ∀ id, places id → places' id) : program.Within places' where
  functions function hfunction :=
    ⟨fun id hid => himp id ((h.functions function hfunction).1 id hid),
      fun id hid => himp id ((h.functions function hfunction).2 id hid)⟩
  symbols record hrecord :=
    ⟨fun id hid => himp id ((h.symbols record hrecord).1 id hid), fun reloc hreloc =>
      ⟨fun id hid => himp id (((h.symbols record hrecord).2 reloc hreloc).1 id hid),
        fun id hid => himp id (((h.symbols record hrecord).2 reloc hreloc).2 id hid)⟩⟩
  redirects entry hentry :=
    ⟨himp _ (h.redirects entry hentry).1, himp _ (h.redirects entry hentry).2⟩

/-- The program as a version of its own, with its instructions packed and without blocks. -/
def packed (program : Program) (version : VersionInfo) : Program :=
  { program with
    chain := .ofList program.chain.packedInstrs
    functions := ⟨program.functions.functions.map (·.renamed program.chain.packedName)⟩
    symbols := program.symbols.renamed program.chain.packedName
    graph := none
    redirects := program.redirects.renamed program.chain.packedName
    version := version }

variable {program fork : Program} {version : VersionInfo}

/-- A program forks if function bounds and what instructions refer to are linked. -/
theorem fork_ok_iff (hthreaded : program.chain.Threaded) : program.fork version = .ok fork
    ↔ program.chain.Closed ∧ program.functions.Within (· ∈ program.chain.ids)
      ∧ fork = { program.packed version with
        symbols := program.symbols.rename program.chain.packedNames
        redirects := program.redirects.rename program.chain.packedNames } := by
  simp only [Program.fork, bind_eq_ok, mapError_eq_ok, pure_eq_ok, Prod.exists, hthreaded.compact_ok_iff]
  constructor
  · intro h
    obtain ⟨_, _, ⟨hclosed, rfl, rfl⟩, _, hfunctions, rfl⟩ := h
    obtain ⟨hbounds, rfl⟩ := FunctionTable.rename_ok.mp hfunctions
    exact ⟨hclosed, hbounds, rfl⟩
  · intro h
    obtain ⟨hclosed, hbounds, rfl⟩ := h
    exact ⟨_, _, ⟨hclosed, rfl, rfl⟩, _, FunctionTable.rename_ok.mpr ⟨hbounds, rfl⟩, rfl⟩

/-- Where everything that is named is linked, nothing is lost by a fork. -/
theorem fork_packed (hthreaded : program.chain.Threaded) (hwithin : program.Within (· ∈ program.chain.ids))
    (hclosed : program.chain.Closed) : program.fork version = .ok (program.packed version) := by
  refine (fork_ok_iff hthreaded).mpr ⟨hclosed, hwithin.functions, ?_⟩
  rw [SymbolTable.rename_eq_iff.mpr hwithin.symbols, Redirects.rename_eq_iff.mpr hwithin.redirects]
  rfl

end Program

end Splice
