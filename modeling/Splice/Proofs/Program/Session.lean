import Splice.Program.Edit
import Splice.Proofs.Chain.Adjust
import Splice.Proofs.Instruction.Likeness

/-!
# Runs of a session

Each operation on a session in terms of the parts of the program that it changes. What is
proved about edits concerns the code: the chain, the functions, the redirects, the bases
of the sections and the configuration. Operations on symbols, blocks and the recorder
leave the `SameCode`, and what settling does is bounded by `Carries`: instructions change
in address and bytes, functions in address and size.

The relations are kept by `Keeps`, for runs that succeed. A step on symbols or on the recorder
is done with in one line by these, so that the lemmas on edits speak only of what an edit is
about. `withChain`, `withFunctions` and `withOwner` are the ways in which a session after a step
is written down.
-/

namespace Splice

/-! ## Functions -/

namespace Function

/-- The functions differ in nothing but their address and their size. -/
structure Carried (a b : Function) : Prop where
  first : b.first = a.first
  last : b.last = a.last
  sec : b.sec = a.sec
  inputAddr : b.inputAddr = a.inputAddr

theorem Carried.refl (a : Function) : Carried a a := ⟨rfl, rfl, rfl, rfl⟩

/-- What a function keeps over two changes it keeps over both. -/
theorem Carried.trans {a b c : Function} (hab : Carried a b) (hbc : Carried b c) : Carried a c :=
  ⟨hbc.first.trans hab.first, hbc.last.trans hab.last, hbc.sec.trans hab.sec,
    hbc.inputAddr.trans hab.inputAddr⟩

/-- The instructions of a function depend on its bounds only, so they stay the same. -/
theorem Carried.instructions {a b : Function} (h : Carried a b) (chain : Chain) :
    b.instructions chain = a.instructions chain := by
  rw [Function.instructions, Function.instructions, h.first, h.last]

end Function

namespace FunctionTable

/-- The same functions, each of them changed in address and size at most. -/
def Carries (table after : FunctionTable) : Prop :=
  ∀ id, Option.Rel Function.Carried (table.get? id) (after.get? id)

variable {table after : FunctionTable} {id : FuncId} {f : Function → Function}

theorem Carries.refl (table : FunctionTable) : Carries table table := fun _ => rel_refl .refl _

theorem Carries.trans {a b c : FunctionTable} (hab : Carries a b) (hbc : Carries b c) :
    Carries a c :=
  fun id => rel_comp (hab id) (hbc id) fun _ _ _ => .trans

/-- A change that keeps the bounds of each function keeps those of the whole table. -/
theorem carries_map (h : ∀ function : Function, function.Carried (f function)) :
    table.Carries ⟨table.functions.map f⟩ := by
  intro id
  have hget : get? ⟨table.functions.map f⟩ id = (table.get? id).map f := Array.getElem?_map ..
  exact hget ▸ rel_map h _

/-- To change one function so that it keeps its bounds keeps those of the whole table. -/
theorem Carries.update (h : ∀ function : Function, function.Carried (f function)) :
    Carries table (table.update id f) := by
  intro other
  rw [get?_update]
  by_cases he : other = id
  · rw [if_pos he, he]
    exact rel_map h _
  · rw [if_neg he]
    exact Carries.refl table other

/-- Each function afterwards was one before, with the same bounds. -/
theorem Carries.get?_of (h : Carries table after) {function : Function}
    (hget : after.get? id = some function) :
    ∃ old, table.get? id = some old ∧ old.Carried function :=
  rel_some_of (h id) hget

/-- Each function is still there afterwards, with the same bounds. -/
theorem Carries.get? (h : Carries table after) {function : Function}
    (hget : table.get? id = some function) :
    ∃ new, after.get? id = some new ∧ function.Carried new :=
  rel_some (h id) hget

end FunctionTable

/-! ## Relations between sessions -/

namespace Session

/-- The session with another chain. -/
def withChain (s : Session) (chain : Chain) : Session := { s with program.chain := chain }

/-- The session with other functions. -/
def withFunctions (s : Session) (functions : FunctionTable) : Session :=
  { s with program.functions := functions }

/-- The sessions differ in symbols, blocks and counts at most. -/
structure SameCode (s t : Session) : Prop where
  chain : t.program.chain = s.program.chain
  functions : t.program.functions = s.program.functions
  redirects : t.program.redirects = s.program.redirects
  bases : t.program.bases = s.program.bases
  config : t.program.config = s.program.config

/-- The sessions differ in the block graph and in counts at most. -/
structure Regraphed (s t : Session) : Prop where
  program : ∃ graph, t.program = { s.program with graph := graph }

/-- What settling leaves alone. -/
structure Carries (s t : Session) : Prop where
  chain : s.program.chain.Evolves (fun _ a b => a.Carried b) t.program.chain
  functions : s.program.functions.Carries t.program.functions
  redirects : t.program.redirects = s.program.redirects
  bases : t.program.bases = s.program.bases
  config : t.program.config = s.program.config

/-- To leave the code as it is holds of doing nothing and of two steps in a row, which makes it an
invariant of all runs. -/
theorem SameCode.stepRelation : StepRelation SameCode where
  refl _ := ⟨rfl, rfl, rfl, rfl, rfl⟩
  trans h k := ⟨k.chain.trans h.chain, k.functions.trans h.functions,
    k.redirects.trans h.redirects, k.bases.trans h.bases, k.config.trans h.config⟩

theorem SameCode.refl (s : Session) : SameCode s s := stepRelation.refl s

theorem SameCode.trans {s t u : Session} (h : SameCode s t) (k : SameCode t u) : SameCode s u :=
  stepRelation.trans h k

/-- To change the blocks and the recorder only is kept by steps in a row. -/
theorem Regraphed.stepRelation : StepRelation Regraphed where
  refl s := ⟨s.program.graph, rfl⟩
  trans h k := by
    obtain ⟨graph, hst⟩ := h.program
    obtain ⟨graph', htu⟩ := k.program
    exact ⟨graph', by rw [htu, hst]⟩

/-- What changes the blocks and the recorder only leaves the code as it is. -/
theorem Regraphed.sameCode {s t : Session} (h : Regraphed s t) : SameCode s t := by
  obtain ⟨graph, hprogram⟩ := h.program
  refine ⟨?_, ?_, ?_, ?_, ?_⟩ <;> rw [hprogram]

/-- To keep what settling keeps is kept by steps in a row. -/
theorem Carries.stepRelation : StepRelation Carries where
  refl _ := ⟨.refl (fun _ => .refl) _, .refl _, rfl, rfl, rfl⟩
  trans h k := ⟨h.chain.trans (fun _ _ _ _ => .trans) k.chain, h.functions.trans k.functions,
    k.redirects.trans h.redirects, k.bases.trans h.bases, k.config.trans h.config⟩

theorem Carries.refl (s : Session) : Carries s s := stepRelation.refl s

theorem Carries.trans {s t u : Session} (h : Carries s t) (k : Carries t u) : Carries s u :=
  stepRelation.trans h k

/-- What leaves the code as it is keeps all that settling keeps. -/
theorem SameCode.carries {s t : Session} (h : SameCode s t) : Carries s t where
  chain := h.chain ▸ .refl (fun _ => .refl) _
  functions := h.functions ▸ .refl _
  redirects := h.redirects
  bases := h.bases
  config := h.config

/-- Changes to instructions in which each of them keeps what settling keeps. -/
theorem carries_withChain {s : Session} {f : InstrId → Instruction → Instruction}
    (h : ∀ id (instr : Instruction), instr.Carried (f id instr)) :
    Carries s (s.withChain (s.program.chain.adjust f)) :=
  ⟨.of_adjust fun id instr _ => h id instr, .refl _, rfl, rfl, rfl⟩

end Session

/-! ## Operations -/

namespace EngineM

variable {α : Type} {s t : Session} {id : InstrId} {u : Unit}

/-- To read the program changes nothing. -/
theorem program_ok {p : Program} : program s = .ok p t ↔ s.program = p ∧ s = t := by
  show EStateM.Result.ok s.program s = _ ↔ _
  simp

theorem updateProgram_ok {f : Program → Program} :
    updateProgram f s = .ok u t ↔ t = { s with program := f s.program } := modify_ok

/-- An operation on the chain succeeds exactly if it does so on the chain alone, and puts the new chain in
the place of the old one. -/
theorem onChain_ok {action : ChainM α} {a : α} :
    onChain action s = .ok a t
      ↔ ∃ chain, action s.program.chain = .ok a chain ∧ t = s.withChain chain := focus_ok

/-- An instruction is read exactly if it is there, and nothing changes. -/
theorem instr_ok {instr : Instruction} :
    EngineM.instr id s = .ok instr t ↔ s.program.chain.get? id = some instr ∧ s = t := by
  rw [EngineM.instr, onChain_ok]
  constructor
  · intro h
    obtain ⟨chain, hrun, ht⟩ := h
    rw [ChainM.instr_ok] at hrun
    rw [hrun.2] at ht
    exact ⟨hrun.1, ht.symm⟩
  · intro h
    exact ⟨s.program.chain, ChainM.instr_ok.mpr ⟨h.1, rfl⟩, h.2.symm⟩

/-- A node of the chain is read exactly if it is there, and nothing changes. -/
theorem node_ok {node : Node} :
    EngineM.node id s = .ok node t ↔ s.program.chain.node? id = some node ∧ s = t := by
  rw [EngineM.node, onChain_ok]
  constructor
  · intro h
    obtain ⟨chain, hrun, ht⟩ := h
    rw [ChainM.node_ok] at hrun
    rw [hrun.2] at ht
    exact ⟨hrun.1, ht.symm⟩
  · intro h
    exact ⟨s.program.chain, ChainM.node_ok.mpr ⟨h.1, rfl⟩, h.2.symm⟩

/-- An instruction is changed exactly if it is there, and the change is an adjustment of the chain at that
place. -/
theorem updateInstr_ok {f : Instruction → Instruction} :
    updateInstr id f s = .ok u t ↔ s.program.chain.contains id = true
      ∧ t = s.withChain (s.program.chain.adjust (Chain.only id f)) := by
  rw [updateInstr, onChain_ok]
  constructor
  · intro h
    obtain ⟨chain, hrun, ht⟩ := h
    rw [ChainM.update_ok] at hrun
    rw [hrun.2] at ht
    exact ⟨hrun.1, ht⟩
  · intro h
    exact ⟨_, ChainM.update_ok.mpr ⟨h.1, rfl⟩, h.2⟩

/-- A function is changed exactly if it is there, and nothing else changes. -/
theorem updateFunction_ok {owner : FuncId} {f : Function → Function} :
    updateFunction owner f s = .ok u t ↔ (∃ function, s.program.functions.get? owner = some function)
      ∧ t = s.withFunctions (s.program.functions.update owner f) := by
  simp only [updateFunction, bind_ok, program_ok, liftResult_ok, updateProgram_ok]
  constructor
  · intro h
    obtain ⟨_, _, ⟨rfl, rfl⟩, function, _, ⟨hget, rfl⟩, rfl⟩ := h
    refine ⟨?_, rfl⟩
    unfold FunctionTable.get at hget
    split at hget
    next found hfound => exact ⟨found, hfound⟩
    next => cases hget
  · intro h
    obtain ⟨⟨function, hfunction⟩, rfl⟩ := h
    refine ⟨_, _, ⟨rfl, rfl⟩, function, _, ⟨?_, rfl⟩, rfl⟩
    rw [FunctionTable.get, hfunction]

/-- Changing the owner of something, which may have none. -/
def withOwner (s : Session) (owner : Option FuncId) (f : Function → Function) : Session :=
  match owner with
  | some id => s.withFunctions (s.program.functions.update id f)
  | none => s

theorem chain_withOwner {owner : Option FuncId} {f : Function → Function} :
    (withOwner s owner f).program.chain = s.program.chain := by
  cases owner <;> rfl

theorem redirects_withOwner {owner : Option FuncId} {f : Function → Function} :
    (withOwner s owner f).program.redirects = s.program.redirects := by
  cases owner <;> rfl

theorem bases_withOwner {owner : Option FuncId} {f : Function → Function} :
    (withOwner s owner f).program.bases = s.program.bases := by
  cases owner <;> rfl

theorem config_withOwner {owner : Option FuncId} {f : Function → Function} :
    (withOwner s owner f).program.config = s.program.config := by
  cases owner <;> rfl

/-- What becomes of the functions depends on the functions only. -/
theorem functions_withOwner_congr {owner : Option FuncId} {f : Function → Function}
    (h : t.program.functions = s.program.functions) :
    (withOwner t owner f).program.functions = (withOwner s owner f).program.functions := by
  cases owner with
  | none => exact h
  | some owner =>
    show t.program.functions.update owner f = s.program.functions.update owner f
    rw [h]

/-- A change to the owner is a change to the function with that name and to no other. -/
theorem get?_withOwner {owner : Option FuncId} {f : Function → Function} (id : FuncId) :
    (withOwner s owner f).program.functions.get? id
      = if owner = some id then (s.program.functions.get? id).map f
        else s.program.functions.get? id := by
  cases owner with
  | none => simp [withOwner]
  | some owner =>
    rw [withOwner, Session.withFunctions, FunctionTable.get?_update]
    by_cases he : id = owner
    · simp [he]
    · have hne : some owner ≠ some id := fun h => he (Option.some.inj h).symm
      rw [if_neg he, if_neg hne]

/-- A change to the owner that keeps its bounds keeps all that settling keeps. -/
theorem carries_withOwner {owner : Option FuncId} {f : Function → Function}
    (h : ∀ function : Function, function.Carried (f function)) :
    Session.Carries s (withOwner s owner f) := by
  cases owner with
  | none => exact .refl s
  | some owner => exact ⟨.refl (fun _ => .refl) _, .update h, rfl, rfl, rfl⟩

/-- A change to the owner that succeeds is the change that `withOwner` describes, also if there is no
owner. -/
theorem updateOwner_ok {owner : Option FuncId} {f : Function → Function}
    (h : updateOwner owner f s = .ok u t) : t = withOwner s owner f := by
  cases owner with
  | none => exact (pure_ok.mp h).2.symm
  | some id => exact (updateFunction_ok.mp h).2

/-- A change to a symbol leaves the code as it is. -/
theorem updateSymbol_sameCode {symbol : SymbolId} {f : Symbol → Symbol} :
    Keeps Session.SameCode (updateSymbol symbol f) := by
  intro s u t h
  simp only [updateSymbol, bind_ok, program_ok, liftResult_ok, updateProgram_ok] at h
  obtain ⟨_, _, ⟨rfl, rfl⟩, _, _, ⟨-, rfl⟩, rfl⟩ := h
  exact ⟨rfl, rfl, rfl, rfl, rfl⟩

/-- Counting does not touch the program. -/
theorem count_program {measure : Measure} {amount : Nat} (h : count measure amount s = .ok u t) :
    t.program = s.program := by
  rw [count, modify_ok] at h
  rw [h]

/-- Counting changes nothing but the recorder. -/
theorem count_regraphed {measure : Measure} {amount : Nat} :
    Keeps Session.Regraphed (count measure amount) := by
  intro s u t h
  exact ⟨s.program.graph, count_program h⟩

/-- An operation on the blocks changes nothing but the blocks, however it goes. -/
theorem onGraph_regraphed {action : GraphM α} : Keeps Session.Regraphed (onGraph action) := by
  intro s a t h
  simp only [onGraph, bind_ok, program_ok] at h
  obtain ⟨_, _, ⟨rfl, rfl⟩, h⟩ := h
  cases hgraph : s.program.graph with
  | none =>
    rw [hgraph] at h
    exact (throw_ok.mp h).elim
  | some graph =>
    rw [hgraph] at h
    obtain ⟨inner, -, rfl⟩ := focus_ok.mp h
    exact ⟨some inner, rfl⟩

end EngineM

end Splice
