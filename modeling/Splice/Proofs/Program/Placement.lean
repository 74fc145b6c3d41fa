import Splice.Proofs.Program.Agreement

/-!
# Code that is where a layout would put it

A layout moves every instruction to its place and measures the functions. Code that was
relocated in another way, with symbols taken along, is what a layout would make of it exactly if
every instruction is in its place and measuring changes no function (`Relocates.agrees_iff`):
that the layout goes through at all follows, since an instruction can be moved if the records
that it lists are there (`moveInstruction_succeeds_iff`).

A layout can fail in code that was moved rightly, if a record is listed that is not there; so
what is needed to move each instruction is stated (`Session.Movable`) and read off the shift
that has already done it (`applyShift_movable`). The functions are compared by what measuring
makes of them and not by their bounds, since only address and size are computed.
-/

namespace Splice

namespace Session

/-- The same instructions are at the same addresses, functions begin at the same addresses and have the
same sizes, and the symbols are the same. -/
structure SamePlaces (t u : Session) : Prop where
  addr : ∀ id, (t.program.chain.get? id).map (·.addr) = (u.program.chain.get? id).map (·.addr)
  range : ∀ owner, t.program.functions.range? owner = u.program.functions.range? owner
  symbols : t.program.symbols = u.program.symbols

/-- Everything that is tied to the instruction is there to be moved along. -/
def Movable (s : Session) (id : InstrId) : Prop :=
  ∀ instr, s.program.chain.get? id = some instr →
    ∀ symbol ∈ instr.relocs ++ instr.referencedBy, (s.program.symbols.get? symbol).isSome = true

/-- What follows has the records that it had. -/
theorem Follows.movable_iff {s t : Session} (h : Follows s t) {id : InstrId} :
    t.Movable id ↔ s.Movable id := by
  have hrecord : ∀ symbol, (t.program.symbols.get? symbol).isSome
      = (s.program.symbols.get? symbol).isSome := by
    intro symbol
    rw [h.records, Option.isSome_map]
  constructor
  · intro hmovable instr hinstr symbol hsymbol
    obtain ⟨after, hafter, hties⟩ := h.chain.get? hinstr
    rw [← hrecord]
    exact hmovable after hafter symbol (by rwa [hties.1, hties.2])
  · intro hmovable instr hinstr symbol hsymbol
    obtain ⟨before, hbefore, hties⟩ := h.chain.get?_of hinstr
    rw [hties.1, hties.2] at hsymbol
    rw [hrecord]
    exact hmovable before hbefore symbol hsymbol

end Session

namespace EngineM

variable {s t m : Session} {l xs ys : List InstrId} {id : InstrId} {addr : UInt64} {shift : Shift}
  {summary : UpdateSummary}

/-! ## Moves that succeed -/

/-- A record is changed exactly if there is one. -/
theorem updateSymbol_succeeds_iff {symbol : SymbolId} {f : Symbol → Symbol} :
    (∃ u t, updateSymbol symbol f s = .ok u t) ↔ (s.program.symbols.get? symbol).isSome = true := by
  simp only [updateSymbol, bind_ok, program_ok, liftResult_ok, updateProgram_ok]
  cases hsymbol : s.program.symbols.get? symbol with
  | none =>
    have hget : s.program.symbols.get symbol = .error (.missingSymbol symbol) := by
      rw [SymbolTable.get, hsymbol]
    constructor
    · intro h
      obtain ⟨_, _, _, _, ⟨rfl, rfl⟩, record, _, ⟨hrecord, -⟩, -⟩ := h
      rw [hget] at hrecord
      cases hrecord
    · intro h
      cases h
  | some record =>
    have hget : s.program.symbols.get symbol = .ok record := by
      rw [SymbolTable.get, hsymbol]
    exact ⟨fun _ => rfl, fun _ => ⟨⟨⟩, _, _, _, ⟨rfl, rfl⟩, record, _, ⟨hget, rfl⟩, rfl⟩⟩

/-- Records are changed exactly if there are all of them. -/
theorem updateSymbols_succeeds_iff {f : Symbol → Symbol} {symbols : List SymbolId} :
    (∃ u t, symbols.forM (fun symbol => updateSymbol symbol f) s = .ok u t)
      ↔ ∀ symbol ∈ symbols, (s.program.symbols.get? symbol).isSome = true := by
  induction symbols generalizing s with
  | nil => exact ⟨fun _ _ h => (List.not_mem_nil h).elim, fun _ => ⟨⟨⟩, s, forM_nil_ok.mpr rfl⟩⟩
  | cons head symbols ih =>
    have hkept : ∀ symbol, ((s.withSymbols (s.program.symbols.update head f)).program.symbols.get?
        symbol).isSome = (s.program.symbols.get? symbol).isSome := by
      intro symbol
      show ((s.program.symbols.update head f).get? symbol).isSome = _
      rw [SymbolTable.get?_update]
      split
      next hsymbol => rw [Option.isSome_map, hsymbol]
      next => rfl
    rw [List.forall_mem_cons]
    constructor
    · intro h
      obtain ⟨u, t, hrun⟩ := h
      obtain ⟨m, hhead, hrest⟩ := forM_cons_ok.mp hrun
      refine ⟨updateSymbol_succeeds_iff.mp ⟨_, _, hhead⟩, fun symbol hsymbol => ?_⟩
      obtain rfl := updateSymbol_ok hhead
      rw [← hkept]
      exact ih.mp ⟨u, t, hrest⟩ symbol hsymbol
    · intro h
      obtain ⟨u, m, hhead⟩ := updateSymbol_succeeds_iff.mpr h.1
      obtain rfl := updateSymbol_ok hhead
      obtain ⟨u, t, hrest⟩ := ih.mpr fun symbol hsymbol => (hkept symbol).trans (h.2 symbol hsymbol)
      exact ⟨u, t, forM_cons_ok.mpr ⟨_, hhead, hrest⟩⟩

/-- An instruction can be moved if what is tied to it is there. -/
theorem moveInstruction_succeeds_iff : (∃ moved t, moveInstruction id addr s = .ok moved t)
    ↔ ∃ found, s.program.chain.get? id = some found ∧ (found.addr ≠ addr → s.Movable id) := by
  constructor
  · intro h
    obtain ⟨moved, t, hrun⟩ := h
    simp only [moveInstruction, bind_ok, instr_ok] at hrun
    obtain ⟨found, _, ⟨hfound, rfl⟩, hrun⟩ := hrun
    refine ⟨found, hfound, fun haddr instr hinstr symbol hsymbol => ?_⟩
    obtain rfl := Option.some.inj (hfound.symm.trans hinstr)
    rw [if_neg haddr] at hrun
    simp only [bind_ok, updateInstr_ok] at hrun
    obtain ⟨_, _, ⟨-, rfl⟩, _, m, hrelocs, _, _, hrefs, -⟩ := hrun
    rcases List.mem_append.mp hsymbol with hsymbol | hsymbol
    · exact updateSymbols_succeeds_iff.mp ⟨_, _, hrelocs⟩ symbol hsymbol
    -- the first update changes records but drops none
    · have hrecord := updateSymbols_succeeds_iff.mp ⟨_, _, hrefs⟩ symbol hsymbol
      obtain ⟨table, rfl, -, -, hget⟩ := updateSymbols_ok hrelocs
      replace hrecord : (table.get? symbol).isSome = true := hrecord
      rw [hget, Option.isSome_map] at hrecord
      exact hrecord
  · intro h
    obtain ⟨found, hfound, hmovable⟩ := h
    simp only [moveInstruction, bind_ok, instr_ok]
    by_cases haddr : found.addr = addr
    · exact ⟨false, s, found, s, ⟨hfound, rfl⟩, by rw [if_pos haddr]; rfl⟩
    · have hrecords := hmovable haddr found hfound
      obtain ⟨_, m, hrelocs⟩ := updateSymbols_succeeds_iff
        (s := s.withChain (s.program.chain.adjust (Chain.only id fun instr => { instr with addr := addr })))
        (f := (·.movedWith id (addr - found.addr).toInt64)) |>.mpr fun symbol hsymbol =>
          hrecords symbol (List.mem_append_left _ hsymbol)
      obtain ⟨_, t, hrefs⟩ := updateSymbols_succeeds_iff (s := m)
        (f := (·.pointedTo id id (addr - found.addr).toInt64)) |>.mpr fun symbol hsymbol => by
          obtain ⟨table, rfl, -, -, hget⟩ := updateSymbols_ok hrelocs
          show (table.get? symbol).isSome = true
          rw [hget, Option.isSome_map]
          exact hrecords symbol (List.mem_append_right _ hsymbol)
      refine ⟨true, t, found, s, ⟨hfound, rfl⟩, ?_⟩
      rw [if_neg haddr]
      simp only [bind_ok, updateInstr_ok, pure_ok]
      exact ⟨⟨⟩, _, ⟨by rw [Chain.contains_eq_isSome_get?, hfound]; rfl, rfl⟩, _, m, hrelocs, _, t, hrefs,
        trivial, rfl⟩

/-- Instructions can be moved one after the other, if each of them can. -/
theorem moveAll_succeeds {entries : List (InstrId × Instruction × UInt64)}
    (hnodup : (entries.map (·.1)).Nodup)
    (h : ∀ entry ∈ entries, ∃ found, s.program.chain.get? entry.1 = some found
      ∧ (found.addr ≠ entry.2.2 → s.Movable entry.1)) :
    ∃ moved t, entries.mapM (fun entry => moveInstruction entry.1 entry.2.2) s = .ok moved t := by
  induction entries generalizing s with
  | nil => exact ⟨[], s, mapM_nil_ok.mpr ⟨rfl, rfl⟩⟩
  | cons entry entries ih =>
    obtain ⟨hid, hnodup⟩ := List.nodup_cons.mp hnodup
    obtain ⟨first, m, hfirst⟩ := moveInstruction_succeeds_iff.mpr (h entry (List.mem_cons_self ..))
    have hmoves := (moveInstruction_moves hfirst).1
    have hfollows := moveInstruction_follows _ hfirst
    obtain ⟨rest, t, hrest⟩ := ih hnodup fun other hother => by
      obtain ⟨found, hfound, hmovable⟩ := h other (List.mem_cons_of_mem _ hother)
      have hne : other.1 ≠ entry.1 := fun he => hid (List.mem_map.mpr ⟨other, hother, he⟩)
      refine ⟨found, (hmoves.other _ fun hmem => hne (List.mem_singleton.mp hmem)).trans hfound,
        fun haddr => ?_⟩
      exact hfollows.movable_iff.mpr (hmovable haddr)
    exact ⟨_, t, mapM_cons_ok.mpr ⟨first, m, rest, hfirst, hrest, rfl⟩⟩

theorem toUInt64_eq_zero_iff (delta : Int64) : delta.toUInt64 = 0 ↔ delta = 0 := by
  refine ⟨fun hzero => ?_, fun hzero => by rw [hzero]; rfl⟩
  rw [← Int64.toInt64_toUInt64 delta, hzero]
  rfl

/-- What a shift moves can be moved. -/
theorem shiftAll_movable {ids : List InstrId} {delta : Int64} {u : Unit} (hdelta : delta ≠ 0)
    (h : ids.forM (fun id => shiftInstruction id delta) s = .ok u t) : ∀ id ∈ ids, s.Movable id := by
  induction ids generalizing s with
  | nil => exact fun _ h => (List.not_mem_nil h).elim
  | cons head ids ih =>
    obtain ⟨m, hhead, hrest⟩ := forM_cons_ok.mp h
    have hfollows := Session.Follows.updateRelation.shiftInstruction hhead
    rw [List.forall_mem_cons]
    refine ⟨?_, fun id hid => hfollows.movable_iff.mp (ih hrest id hid)⟩
    simp only [shiftInstruction, bind_ok, instr_ok, discard_ok] at hhead
    obtain ⟨found, _, ⟨hfound, rfl⟩, _, _, ⟨moved, hmove⟩, -⟩ := hhead
    obtain ⟨found', hfound', hmovable⟩ := moveInstruction_succeeds_iff.mp ⟨moved, _, hmove⟩
    obtain rfl := Option.some.inj (hfound.symm.trans hfound')
    exact hmovable fun he => hdelta ((toUInt64_eq_zero_iff delta).mp (by grind))

/-- A shift that succeeds found all that is tied to what it moved. -/
theorem applyShift_movable {moved : List InstrId} (hdelta : shift.delta ≠ 0)
    (h : applyShift shift s = .ok moved t) : ∀ id ∈ s.program.chain.reach shift, s.Movable id := by
  simp only [applyShift, bind_ok] at h
  obtain ⟨_, s₁, howner, h⟩ := h
  obtain rfl := updateOwner_ok howner
  rw [if_neg hdelta] at h
  simp only [bind_ok, program_ok] at h
  obtain ⟨_, _, ⟨rfl, rfl⟩, _, s₂, hshift, -⟩ := h
  rw [chain_withOwner] at hshift
  intro id hid
  have hfollows : Session.Follows s (withOwner s shift.func fun function =>
      { function with size := function.size + shift.delta.toUInt64 }) := by
    cases shift.func with
    | none => exact .refl s
    | some owner => exact Session.Follows.updateRelation.measure s _ (.update fun _ => ⟨rfl, rfl, rfl, rfl⟩)
  exact hfollows.movable_iff.mp (shiftAll_movable hdelta hshift id hid)

/-! ## The same as a layout -/

/-- When measuring a function changes nothing. -/
theorem measured_iff {chain : Chain} {function : Function} : measured chain function = .ok function
    ↔ ∀ first, function.first = some first →
      (∃ instr, chain.get? first = some instr ∧ function.addr = instr.addr)
      ∧ (∀ id ∈ function.instructions chain, ∃ instr, chain.get? id = some instr)
      ∧ function.size = ((function.instructions chain).map chain.sizeOf).sum := by
  constructor
  · intro h first hfirst
    rcases measured_ok h with ⟨hnone, -⟩ | ⟨first', instr, hfirst', hinstr, hpresent, hfound⟩
    · rw [hfirst] at hnone
      cases hnone
    · obtain rfl := Option.some.inj (hfirst.symm.trans hfirst')
      exact ⟨⟨instr, hinstr, congrArg (·.addr) hfound⟩, hpresent, congrArg (·.size) hfound⟩
  · intro h
    refine measured_still (fun first hfirst => (h first hfirst).1) (fun id hid => ?_) fun hdefined => ?_
    · cases hfirst : function.first with
      | none =>
        rw [Function.instructions, hfirst] at hid
        exact (List.not_mem_nil hid).elim
      | some first => exact (h first hfirst).2.1 id hid
    · obtain ⟨first, hfirst⟩ := Option.isSome_iff_exists.mp hdefined
      exact (h first hfirst).2.2

/-- Measuring a function succeeds if its instructions are present. -/
theorem measured_succeeds {chain : Chain} {function : Function}
    (h : ∀ first, function.first = some first → (∃ instr, chain.get? first = some instr)
      ∧ ∀ id ∈ function.instructions chain, ∃ instr, chain.get? id = some instr) :
    ∃ found, measured chain function = .ok found := by
  unfold measured
  cases hfirst : function.first with
  | none => exact ⟨function, rfl⟩
  | some first =>
    obtain ⟨⟨instr, hinstr⟩, hpresent⟩ := h first hfirst
    have hsized : ∀ id ∈ function.instructions chain, ∃ size, (·.size) <$> chain.get id = .ok size := by
      intro id hid
      obtain ⟨found, hfound⟩ := hpresent id hid
      exact ⟨found.size, size_ok.mpr ⟨found, hfound, rfl⟩⟩
    obtain ⟨sizes, hsizes, -⟩ := mapM_succeeds hsized
    simp only [bind_eq_ok, pure_eq_ok, Chain.get_ok]
    exact ⟨_, instr, hinstr, sizes, hsizes, rfl⟩

/-- What a layout would make of the functions of `s` is what they are in `t`. -/
def Sized (s t : Session) : Prop :=
  ∀ owner function after, s.program.functions.get? owner = some function →
    t.program.functions.get? owner = some after →
    measured t.program.chain after = .ok after
      ∧ (function.first = none → after.range = function.range)

/-- Measuring comes to the same in two chains that evolved from one, if addresses and sizes agree. -/
theorem measured_range {chain other : Chain} {function after found : Function}
    (hcarried : function.Carried after)
    (hrun : ∀ function : Function, function.instructions other = function.instructions chain)
    (haddr : ∀ id, (chain.get? id).map (·.addr) = (other.get? id).map (·.addr))
    (hsize : ∀ id, chain.sizeOf id = other.sizeOf id)
    (hfound : measured other function = .ok found) :
    after.range = found.range
      ↔ measured chain after = .ok after ∧ (function.first = none → after.range = function.range) := by
  have hsum : ((after.instructions chain).map chain.sizeOf).sum
      = ((function.instructions other).map other.sizeOf).sum := by
    rw [hcarried.instructions, hrun]
    exact congrArg List.sum (List.map_congr_left fun id _ => hsize id)
  -- a function without instructions keeps its range; any other is where its first instruction is
  rcases measured_ok hfound with ⟨hfirst, rfl⟩ | ⟨first, instr, hfirst, hinstr, hpresent, rfl⟩
  · have hnone : after.first = none := hcarried.first.trans hfirst
    have hself : measured chain after = .ok after :=
      measured_iff.mpr fun first hsome => by
        rw [hnone] at hsome
        cases hsome
    exact ⟨fun h => ⟨hself, fun _ => h⟩, fun h => h.2 hfirst⟩
  · have hstart := haddr first
    rw [hinstr, Option.map_some, Option.map_eq_some_iff] at hstart
    obtain ⟨begin, hbegin, hsame⟩ := hstart
    constructor
    · intro h
      obtain ⟨hstart, hextent⟩ := Prod.mk.inj h
      refine ⟨measured_iff.mpr fun first' hfirst' => ?_, fun hnone => ?_⟩
      · rw [hcarried.first, hfirst, Option.some.injEq] at hfirst'
        subst hfirst'
        refine ⟨⟨begin, hbegin, hstart.trans hsame.symm⟩, fun id hid => ?_, hextent.trans hsum.symm⟩
        rw [hcarried.instructions, ← hrun] at hid
        obtain ⟨found, hget⟩ := hpresent id hid
        have hid := haddr id
        rw [hget, Option.map_some, Option.map_eq_some_iff] at hid
        obtain ⟨instr, hinstr, -⟩ := hid
        exact ⟨instr, hinstr⟩
      · rw [hfirst] at hnone
        cases hnone
    · intro h
      obtain ⟨⟨instr', hinstr', hstart⟩, -, hextent⟩ :=
        measured_iff.mp h.1 first (hcarried.first.trans hfirst)
      obtain rfl := Option.some.inj (hbegin.symm.trans hinstr')
      exact Prod.ext (hstart.trans hsame) (hextent.trans hsum)

/-- The code of `s` with instructions of the list `l` at other addresses, symbols taken along. -/
structure Relocates (s t : Session) (l : List InstrId) : Prop where
  chain : s.program.chain.Evolves (fun id a b => b.sec = a.sec ∧ b.size = a.size
    ∧ (b.addr ≠ a.addr → id ∈ l ∧ s.Movable id)) t.program.chain
  functions : s.program.functions.Carries t.program.functions
  bases : t.program.bases = s.program.bases
  follows : s.Follows t

/-- Moving code leaves sections and sizes. -/
theorem Moves.sec_size (h : Moves s m l) : s.program.chain.Evolves
    (fun _ a b => b.sec = a.sec ∧ b.size = a.size) m.program.chain := by
  refine h.chain.mono fun _ a b hab => ?_
  rw [hab]
  exact ⟨rfl, rfl⟩

namespace Relocates

theorem sec_size (h : Relocates s t l) : s.program.chain.Evolves
    (fun _ a b => b.sec = a.sec ∧ b.size = a.size) t.program.chain :=
  h.chain.mono fun _ _ _ hab => ⟨hab.1, hab.2.1⟩

theorem instructions (h : Relocates s t l) (hmoves : Moves s m l) (function : Function) :
    function.instructions m.program.chain = function.instructions t.program.chain := by
  rw [hmoves.chain.instructions, h.chain.instructions]

theorem sizeOf (h : Relocates s t l) (hmoves : Moves s m l) (id : InstrId) :
    t.program.chain.sizeOf id = m.program.chain.sizeOf id := by
  rw [(h.sec_size.retains fun _ => True).sizeOf (fun _ _ _ hab => hab.2) trivial,
    (hmoves.sec_size.retains fun _ => True).sizeOf (fun _ _ _ hab => hab.2) trivial]

/-- Where the code is laid out in both, the same instructions are at the same addresses. -/
theorem addr_eq (h : Relocates s t l) (hmoves : Moves s m l) (hlaid : t.program.LaidOut l)
    (hlaid' : m.program.LaidOut l) (id : InstrId) :
    (t.program.chain.get? id).map (·.addr) = (m.program.chain.get? id).map (·.addr) := by
  by_cases hid : id ∈ l
  · exact laidOut_addr h.sec_size hmoves.sec_size (fun _ _ _ hab => hab) (fun _ _ _ hab => hab) h.bases
      hmoves.bases hlaid hlaid' hid
  · rw [hmoves.other id hid]
    cases hget : s.program.chain.get? id with
    | none => rw [h.chain.get?_eq_none hget]
    | some old =>
      obtain ⟨instr, hinstr, -, -, hstill⟩ := h.chain.get? hget
      have hsame : instr.addr = old.addr := Classical.byContradiction fun hne => hid (hstill hne).1
      rw [hinstr, Option.map_some, Option.map_some, hsame]

/-- The code is laid out where it is as after a layout. -/
theorem laidOut (h : Relocates s t l) (hmoves : Moves s m l) (hlaid : m.program.LaidOut l)
    (haddr : ∀ id, (t.program.chain.get? id).map (·.addr) = (m.program.chain.get? id).map (·.addr)) :
    t.program.LaidOut l := by
  intro front id rest instr hsplit hid
  have hsame := haddr id
  rw [hid, Option.map_some, eq_comm, Option.map_eq_some_iff] at hsame
  obtain ⟨instr', hinstr', hsame⟩ := hsame
  obtain ⟨old, hold, hsec, -⟩ := h.sec_size.get?_of hid
  obtain ⟨old', hold', hsec', -⟩ := hmoves.sec_size.get?_of hinstr'
  obtain rfl := Option.some.inj (hold.symm.trans hold')
  rw [← hsame, hlaid front id rest instr' hsplit hinstr', hsec, hsec',
    Program.place_evolve hmoves.sec_size hmoves.bases (fun _ _ _ hab => hab),
    Program.place_evolve h.sec_size h.bases (fun _ _ _ hab => hab)]

/-- Functions have the same bounds as after a layout if they are what that would make of them. -/
theorem range_iff {functions : List Function} (h : Relocates s t l) (hmoves : Moves s m l)
    (haddr : ∀ id, (t.program.chain.get? id).map (·.addr) = (m.program.chain.get? id).map (·.addr))
    (hmeasured : s.program.functions.functions.toList.mapM (measured m.program.chain) = .ok functions) :
    (∀ owner, t.program.functions.range? owner = FunctionTable.range? ⟨functions.toArray⟩ owner)
      ↔ Sized s t := by
  have hfunction : ∀ {owner function after found}, function.Carried after →
      measured m.program.chain function = .ok found → t.program.functions.get? owner = some after →
      FunctionTable.get? ⟨functions.toArray⟩ owner = some found →
      (t.program.functions.range? owner = FunctionTable.range? ⟨functions.toArray⟩ owner
        ↔ measured t.program.chain after = .ok after
          ∧ (function.first = none → after.range = function.range)) := by
    intro owner function after found hcarried hfound hafter hget
    rw [FunctionTable.range?, FunctionTable.range?, hafter, hget, Option.map_some, Option.map_some,
      Option.some.injEq]
    exact measured_range hcarried (h.instructions hmoves) haddr (h.sizeOf hmoves) hfound
  constructor
  · intro hranges owner function after hget hafter
    obtain ⟨before, hbefore, hcarried⟩ := h.functions.get?_of hafter
    obtain rfl := Option.some.inj (hget.symm.trans hbefore)
    obtain ⟨found, hlaid, hfound⟩ := rel_some (get?_of_mapM hmeasured owner) hget
    exact (hfunction hcarried hfound hafter hlaid).mp (hranges owner)
  · intro hsized owner
    cases hget : s.program.functions.get? owner with
    | none =>
      rw [FunctionTable.range?, FunctionTable.range?, rel_none (h.functions owner) hget,
        rel_none (get?_of_mapM hmeasured owner) hget]
    | some function =>
      obtain ⟨after, hafter, hcarried⟩ := h.functions.get? hget
      obtain ⟨found, hlaid, hfound⟩ := rel_some (get?_of_mapM hmeasured owner) hget
      exact (hfunction hcarried hfound hafter hlaid).mpr (hsized owner function after hget hafter)

/-- The instructions can be moved to their places, if they are in places to which they could be moved. -/
theorem moves (hl : s.program.chain.Spells l) (h : Relocates s t l) (hlaid : t.program.LaidOut l) :
    ∃ moved m, (s.program.places [] l).mapM (fun entry => moveInstruction entry.1 entry.2.2) s
      = .ok moved m := by
  have hfst : (s.program.places [] l).map (·.1) = l :=
    Program.places_fst fun id hid => hl.get?_isSome hid
  refine moveAll_succeeds (hfst.symm ▸ hl.nodup) fun entry hentry => ?_
  obtain ⟨id, found, addr⟩ := entry
  obtain ⟨front, rest, hsplit, hfound, rfl⟩ := Program.mem_places.mp hentry
  obtain ⟨instr, hinstr, hsec, -, hmovable⟩ := h.chain.get? hfound
  refine ⟨found, hfound, fun haddr => (hmovable fun he => haddr ?_).2⟩
  rw [← he, hlaid front id rest instr hsplit hinstr,
    Program.place_evolve h.sec_size h.bases (fun _ _ _ hab => hab), hsec]
  rfl

/-- The functions can be measured, if measuring them changes nothing. -/
theorem measures (h : Relocates s t l) (hmoves : Moves s m l) (hsized : Sized s t) :
    ∃ functions, s.program.functions.functions.toList.mapM (measured m.program.chain) = .ok functions := by
  have hpresent : ∀ {id instr}, t.program.chain.get? id = some instr →
      ∃ instr, m.program.chain.get? id = some instr := by
    intro id instr hinstr
    obtain ⟨old, hold, -⟩ := h.chain.get?_of hinstr
    obtain ⟨moved, hmoved, -⟩ := hmoves.chain.get? hold
    exact ⟨moved, hmoved⟩
  have hfound : ∀ function ∈ s.program.functions.functions.toList, ∃ found,
      measured m.program.chain function = .ok found := by
    intro function hmem
    obtain ⟨index, hindex, hget⟩ := List.getElem_of_mem hmem
    have hfunction : s.program.functions.get? ⟨index⟩ = some function := by
      rw [FunctionTable.get?, ← Array.getElem?_toList, List.getElem?_eq_getElem hindex, hget]
    obtain ⟨after, hafter, hcarried⟩ := h.functions.get? hfunction
    refine measured_succeeds fun first hfirst => ?_
    obtain ⟨⟨instr, hinstr, -⟩, hall, -⟩ := measured_iff.mp
      (hsized ⟨index⟩ function after hfunction hafter).1 first (hcarried.first.trans hfirst)
    refine ⟨hpresent hinstr, fun id hid => ?_⟩
    rw [h.instructions hmoves, ← hcarried.instructions] at hid
    obtain ⟨found, hfound⟩ := hall id hid
    exact hpresent hfound
  obtain ⟨functions, hmeasured, -⟩ := mapM_succeeds hfound
  exact ⟨functions, hmeasured⟩

/-- Relocated code is what a layout makes of it, if and only if every instruction is in its place and the
functions are what measuring makes of them. -/
theorem agrees_iff (hl : s.program.chain.Spells l) (h : Relocates s t l) :
    (∃ summary u, updateAddresses s = .ok summary u ∧ t.SamePlaces u)
      ↔ t.program.LaidOut l ∧ Sized s t := by
  constructor
  · intro hagrees
    obtain ⟨summary, u, hrun, hsame⟩ := hagrees
    obtain ⟨m, functions, hmoves, hlaid, hmeasured, rfl⟩ := updateAddresses_run hl hrun
    exact ⟨h.laidOut hmoves hlaid hsame.addr, (h.range_iff hmoves hsame.addr hmeasured).mp hsame.range⟩
  · intro hplaced
    obtain ⟨hlaid, hsized⟩ := hplaced
    obtain ⟨moved, m, hrun⟩ := h.moves hl hlaid
    obtain ⟨hmoves, hlaid'⟩ := moveToPlaces_ok hl hrun
    obtain ⟨functions, hmeasured⟩ := h.measures hmoves hsized
    have haddr := h.addr_eq hmoves hlaid hlaid'
    have hlayout : updateAddresses s = .ok { UpdateSummary.zero with moved := moved.count true }
        (m.withFunctions ⟨functions.toArray⟩) := by
      simp only [updateAddresses, bind_ok, program_ok, liftResult_ok, updateProgram_ok, pure_ok]
      refine ⟨_, _, ⟨rfl, rfl⟩, moved, m, ?_, _, _, ⟨rfl, rfl⟩, functions, _, ⟨?_, rfl⟩, ⟨⟩, _, rfl, rfl, rfl⟩
      · rw [Program.expected_eq, hl.ids_eq]
        exact hrun
      · rw [hmoves.functions]
        exact hmeasured
    refine ⟨_, _, hlayout, haddr, (h.range_iff hmoves haddr hmeasured).mpr hsized, ?_⟩
    refine h.follows.unique (Session.Follows.updateRelation.updateAddresses hlayout) fun id => ?_
    exact congrArg (·.getD 0) (haddr id)

end Relocates

end EngineM

end Splice
