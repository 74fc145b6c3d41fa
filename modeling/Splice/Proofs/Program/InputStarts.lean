import Splice.Proofs.Program.History
import Splice.Proofs.Program.Loading

/-!
# Where functions start in the input

A function keeps its section and its start in the input for good. Its run may become empty, and
then the function is not defined anymore, but one that has no instructions never gets any
(`Function.Rooted`). So the functions of a program go back to those that it was loaded with
(`FunctionTable.Roots`), through every operation: a splice turns the bounds of one function
(`SpliceRun.roots`), an update changes addresses and sizes, and a fork renames the bounds
(`operations_roots`). Loading adds the size of each run and a symbol (`load_function`).

Nothing is supposed of the program, and edits may end in whatever they end in: the bounds of a
function are turned by a splice and by nothing else. What is found by input addresses is read
off these facts in `Splice.Proofs.Program.InputRanges`.
-/

namespace Splice

/-- The function starts where it did in the input, and has instructions only if it had some. -/
structure Function.Rooted (a b : Function) : Prop where
  sec : b.sec = a.sec
  inputAddr : b.inputAddr = a.inputAddr
  defined : b.isDefined = true → a.isDefined = true

namespace Function

theorem Rooted.refl (a : Function) : a.Rooted a := ⟨rfl, rfl, id⟩

theorem Rooted.trans {a b c : Function} (hab : a.Rooted b) (hbc : b.Rooted c) : a.Rooted c :=
  ⟨hbc.sec.trans hab.sec, hbc.inputAddr.trans hab.inputAddr, hab.defined ∘ hbc.defined⟩

/-- Functions that differ by bounds, address and size start where they did. -/
theorem Carried.rooted {a b : Function} (h : a.Carried b) : a.Rooted b where
  sec := h.sec
  inputAddr := h.inputAddr
  defined hb := by
    rw [isDefined, h.first] at hb
    exact hb

/-- The bounds of a function may pass to other instructions. -/
theorem rooted_of_bounds {a b : Function} (hsec : b.sec = a.sec) (hinput : b.inputAddr = a.inputAddr)
    {id : InstrId} (hfirst : b.first = a.first ∨ a.first = some id) : a.Rooted b where
  sec := hsec
  inputAddr := hinput
  defined hb := by
    rw [isDefined] at hb ⊢
    rcases hfirst with hsame | hid
    · exact hsame ▸ hb
    · rw [hid]
      rfl

end Function

namespace FunctionTable

/-- Every function of `after` is one of the table, and starts where it did. -/
def Roots (table after : FunctionTable) : Prop :=
  ∀ id b, after.get? id = some b → ∃ a, table.get? id = some a ∧ a.Rooted b

theorem Roots.refl (table : FunctionTable) : table.Roots table := fun _ b hb => ⟨b, hb, .refl b⟩

/-- What starts where something did that starts where a third did starts there too. -/
theorem Roots.trans {a b c : FunctionTable} (hab : a.Roots b) (hbc : b.Roots c) : a.Roots c := by
  intro id function hfunction
  obtain ⟨middle, hmiddle, hlast⟩ := hbc id function hfunction
  obtain ⟨start, hstart, hfirst⟩ := hab id middle hmiddle
  exact ⟨start, hstart, hfirst.trans hlast⟩

/-- Tables carried along function by function start where they did. -/
theorem Carries.roots {table after : FunctionTable} (h : table.Carries after) : table.Roots after := by
  intro id b hb
  obtain ⟨a, ha, hcarried⟩ := h.get?_of hb
  exact ⟨a, ha, hcarried.rooted⟩

end FunctionTable

namespace EngineM

variable {s t : Session} {anchor old new id : InstrId} {given : Instruction} {shift : Shift} {u : Unit}
  {function : Function}

/-! ## Splices -/

/-- Moving where a function begins leaves where it began in the input. -/
theorem beginningAt_rooted : function.Rooted (beginningAt anchor new function) := by
  unfold beginningAt
  split
  next hfirst => exact Function.rooted_of_bounds rfl rfl (.inr hfirst)
  next => exact .refl function

theorem endingAt_rooted : function.Rooted (endingAt anchor new function) := by
  unfold endingAt
  split <;> exact ⟨rfl, rfl, id⟩

theorem replacingBounds_rooted {first last : InstrId} :
    function.Rooted (replacingBounds old first last function) :=
  Function.rooted_of_bounds rfl rfl (or_iff_not_imp_right.mpr fun hne => if_neg hne)

theorem boundedBy_rooted {after before : Option InstrId} :
    function.Rooted (boundedBy id after before function) :=
  Function.rooted_of_bounds rfl rfl (or_iff_not_imp_right.mpr fun hne => if_neg hne)

/-- A change of one function that leaves its start leaves every start. -/
theorem roots_withOwner {m : Session} {owner : Option FuncId} {f : Function → Function}
    (hm : m.program.functions = s.program.functions)
    (hf : ∀ function : Function, function.Rooted (f function)) :
    s.program.functions.Roots (withOwner m owner f).program.functions := by
  intro other b hb
  rw [get?_withOwner, hm] at hb
  split at hb
  · obtain ⟨a, ha, rfl⟩ := Option.map_eq_some_iff.mp hb
    exact ⟨a, ha, hf a⟩
  · exact ⟨b, hb, .refl b⟩

/-- Placing instructions leaves the functions. -/
theorem placeInserted_functions {placed : List (InstrId × Instruction)} {addr : UInt64}
    (h : placeInserted addr placed s = .ok u t) : t.program.functions = s.program.functions := by
  induction placed generalizing addr s with
  | nil => rw [(pure_ok.mp h).2]
  | cons entry placed ih =>
    obtain ⟨id, given⟩ := entry
    simp only [placeInserted, bind_ok, updateInstr_ok] at h
    obtain ⟨_, _, ⟨-, rfl⟩, _, m, hlink, hrest⟩ := h
    obtain ⟨_, rfl, -⟩ := linkInserted_ok hlink
    exact (ih hrest).trans rfl

/-- A splice turns the bounds of one function at most. -/
theorem SpliceRun.roots {edit : Edit} (h : SpliceRun s edit shift t) :
    s.program.functions.Roots t.program.functions := by
  have hbefore : ∀ {anchor new given retarget}, spliceBefore anchor given retarget s = .ok (new, shift) t →
      s.program.functions.Roots t.program.functions := by
    intro anchor new given retarget run
    obtain ⟨found, block, c, s₂, s₄, entering, s₅, -, -, -, hlink, hextend, henter, ht, -⟩ :=
      spliceBefore_run run
    obtain ⟨_, rfl, -⟩ := linkInserted_ok hlink
    have hs₄ := (forBlock_regraphed (fun _ => extendBlockBefore_regraphed) hextend).sameCode
    rw [ht, (enteringJumpers_ok henter).2.1, hs₄.functions]
    exact roots_withOwner rfl fun _ => beginningAt_rooted
  -- each splice resets the bounds of the owner of its site, and of no other function
  cases h with
  | before run => exact hbefore run
  | after run => exact hbefore run
  | behind run =>
    obtain ⟨found, block, c, s₂, s₄, -, -, -, hlink, hextend, ht, -⟩ := appendAfter_run run
    obtain ⟨_, rfl, -⟩ := linkInserted_ok hlink
    rw [ht, (updateBlock_regraphed hextend).sameCode.functions]
    exact roots_withOwner rfl fun _ => endingAt_rooted
  | «instead» run =>
    obtain ⟨found, block, freed, c, first, last, s₂, head, s₃, s₄, s₆, -, -, -, -, -, hplace, -, hrepoint,
      hrehome, hends, ht, -⟩ := spliceInstead_run run
    have hplaced : s₂.program.functions = s.program.functions := (placeInserted_functions hplace).trans rfl
    rw [ht, (updateBlock_regraphed hends).sameCode.functions]
    exact roots_withOwner ((rehomeRelocations_retied hrehome).functions.trans
      ((repointSymbols_sameCode hrepoint).functions.trans hplaced)) fun _ => replacingBounds_rooted
  | out run =>
    obtain ⟨found, block, heir, s₂, s₃, s₄, c, edited, -, -, hcheck, -, hpass, hshrink, -, rfl, -⟩ :=
      excise_run run
    obtain ⟨_, -, -, hpassed, -⟩ := passOn_retied hpass
    show s.program.functions.Roots s₄.program.functions
    rw [(forBlock_regraphed (fun _ => shrinkBlock_regraphed) hshrink).sameCode.functions]
    exact roots_withOwner (hpassed.trans (checkRemovable_regraphed hcheck).sameCode.functions)
      fun _ => boundedBy_rooted
  | resized run =>
    obtain ⟨_, -, -, rfl⟩ := shiftBehind_ok run
    exact .refl _

end EngineM

/-! ## Operations -/

/-- The functions of a fork start where those of the program did. -/
theorem Program.fork_roots {program after : Program} {version : VersionInfo}
    (h : program.fork version = .ok after) : program.functions.Roots after.functions := by
  simp only [Program.fork, bind_eq_ok, mapError_eq_ok, pure_eq_ok] at h
  obtain ⟨⟨chain, names⟩, -, functions, hrename, rfl⟩ := h
  simp only [FunctionTable.rename, bind_eq_ok, pure_eq_ok] at hrename
  obtain ⟨renamed, hrenamed, rfl⟩ := hrename
  intro id b hb
  obtain ⟨a, ha, hbounds⟩ := rel_some_of (EngineM.get?_of_mapM hrenamed id) hb
  simp only [bind_eq_ok, pure_eq_ok] at hbounds
  obtain ⟨first, hfirst, last, -, rfl⟩ := hbounds
  refine ⟨a, ha, rfl, rfl, fun hdefined => ?_⟩
  cases hnone : a.first with
  | some _ => rw [Function.isDefined, hnone]; rfl
  | none =>
    rw [hnone] at hfirst
    obtain rfl : none = first := Except.ok.inj hfirst
    cases hdefined

namespace EngineM

/-- Starting where they did is kept by every operation. -/
theorem roots_invariant (table : FunctionTable) :
    OperationInvariant fun s => table.Roots s.program.functions where
  splice hsplice hs := hs.trans hsplice.roots
  update hcarries _ hs := hs.trans hcarries.functions.roots
  fork hfork hs := hs.trans (Program.fork_roots hfork)

theorem operations_roots {s t : Session} {operations : List Operation} {u : Unit}
    (h : operations.forM Operation.run s = .ok u t) :
    s.program.functions.Roots t.program.functions :=
  (roots_invariant s.program.functions).operations (.refl _) h

end EngineM

/-! ## Loading -/

/-- A function that is loaded has the size of its run and its symbol, and else is what was decoded. -/
theorem load_functions {decoded : Decoded} {config : Config} {s : Session}
    (h : Session.load decoded config = .ok s) : ∃ symbols, s.program.functions
      = Program.withSymbols ⟨decoded.functions.functions.map (·.sized decoded.chain)⟩ symbols := by
  simp only [Session.load, bind_eq_ok, pure_eq_ok] at h
  obtain ⟨program, hload, rfl⟩ := h
  simp only [Program.load, bind_eq_ok, mapError_eq_ok, pure_eq_ok] at hload
  obtain ⟨⟨chain, functions⟩, hstamped, ⟨table, unresolved⟩, -, linked, -, rfl⟩ := hload
  refine ⟨table, congrArg (Program.withSymbols · table) ?_⟩
  obtain ⟨m, _, hrebuild, hassign⟩ := Program.stamped_ok hstamped
  have hsized : Function.sized m = Function.sized decoded.chain :=
    funext (Function.sized_evolve (ChainM.rebuildReferences_samePlace hrebuild) fun _ a b hab => by
      rw [Instruction.size, hab.2.2, Instruction.size])
  rw [FunctionTable.assign_sized hassign, hsized]

/-- A function is loaded with the start that was decoded, and with its first size. -/
theorem load_function {decoded : Decoded} {config : Config} {s : Session}
    (hload : Session.load decoded config = .ok s) {id : FuncId} {b : Function}
    (hget : s.program.functions.get? id = some b) :
    ∃ a, decoded.functions.get? id = some a ∧ a.Rooted b ∧ b.size = (a.sized decoded.chain).size := by
  obtain ⟨symbols, hfunctions⟩ := load_functions hload
  have hmap : s.program.functions.get? id = (decoded.functions.get? id).map fun function =>
      { function.sized decoded.chain with symbol := symbols.byName? function.name } := by
    rw [hfunctions]
    simp only [FunctionTable.get?, Program.withSymbols, Array.getElem?_map, Option.map_map]
    rfl
  rw [hmap, Option.map_eq_some_iff] at hget
  obtain ⟨a, ha, rfl⟩ := hget
  exact ⟨a, ha, ⟨rfl, rfl, fun hdefined => hdefined⟩, rfl⟩

/-- Loading leaves the starts of functions. -/
theorem load_roots {decoded : Decoded} {config : Config} {s : Session}
    (hload : Session.load decoded config = .ok s) : decoded.functions.Roots s.program.functions := by
  intro id b hb
  obtain ⟨a, ha, hrooted, -⟩ := load_function hload hb
  exact ⟨a, ha, hrooted⟩

end Splice
