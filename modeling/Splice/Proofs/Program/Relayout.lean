import Splice.Proofs.Program.Ownership
import Splice.Proofs.Program.Shift

/-!
# Laying out anew

`updateAddresses` moves every instruction to its place and measures all functions
(`updateAddresses_ok`). Where the code is `LaidOut` and every function is what measuring
makes of it, it moves nothing and changes nothing (`updateAddresses_still`).

`Relaid` says what a layout that succeeds has done: addresses are the places, records and
functions' starts went along, and each function has the address of its first instruction and the
size of its run. The order of the steps matters in one respect: functions are measured after all
instructions have moved, so a layout that is refused while it measures leaves the code laid out.
-/

namespace Splice.EngineM

variable {s t : Session} {l : List InstrId}

/-! ## Laying out -/

/-- The instructions `ids` are at other addresses, and the code is the same otherwise. -/
structure Moves (s t : Session) (ids : List InstrId) : Prop where
  chain : s.program.chain.Evolves (fun _ a b => b = a.relocated b.addr) t.program.chain
  other : ∀ id, id ∉ ids → t.program.chain.get? id = s.program.chain.get? id
  functions : t.program.functions = s.program.functions
  redirects : t.program.redirects = s.program.redirects
  bases : t.program.bases = s.program.bases
  config : t.program.config = s.program.config

/-- A move puts the instruction at the address, and takes its records and the start of its function
along. -/
theorem moveInstruction_moves {id : InstrId} {addr : UInt64} {moved : Bool}
    (h : moveInstruction id addr s = .ok moved t) :
    Moves s t [id] ∧ ∃ instr, t.program.chain.get? id = some instr ∧ instr.addr = addr := by
  obtain ⟨found, hfound, -, -, hsame⟩ := moveInstruction_ok h
  have hget : ∀ x, t.program.chain.get? x
      = (s.program.chain.get? x).map (Chain.only id (.relocated addr) x) := by
    intro x
    rw [hsame.chain]
    exact Chain.get?_adjust
  refine ⟨⟨?_, fun x hx => ?_, hsame.functions, hsame.redirects, hsame.bases, hsame.config⟩,
    found.relocated addr, ?_, rfl⟩
  · rw [hsame.chain]
    refine .of_adjust fun x i _ => ?_
    unfold Chain.only
    split <;> rfl
  · have honly : Chain.only id (.relocated addr) x = fun instr => instr :=
      funext fun instr => Chain.only_ne (fun he => hx (List.mem_singleton.mpr he)) _ instr
    rw [hget, honly, Option.map_id']
  · rw [hget, hfound, Option.map_some, Chain.only_self]

/-- Each instruction is where it was to be moved, if none is moved twice. -/
theorem moveAll_ok {entries : List (InstrId × Instruction × UInt64)} {moved : List Bool}
    (hnodup : (entries.map (·.1)).Nodup)
    (h : entries.mapM (fun entry => moveInstruction entry.1 entry.2.2) s = .ok moved t) :
    Moves s t (entries.map (·.1)) ∧ ∀ entry ∈ entries,
      ∃ instr, t.program.chain.get? entry.1 = some instr ∧ instr.addr = entry.2.2 := by
  -- no later move touches what was moved before, as no name comes twice
  induction entries generalizing s moved with
  | nil =>
    obtain ⟨-, rfl⟩ := mapM_nil_ok.mp h
    refine ⟨⟨?_, fun _ _ => rfl, rfl, rfl, rfl, rfl⟩, fun entry hentry => ?_⟩
    · exact .refl (r := fun _ a b => b = a.relocated b.addr) (fun _ _ => rfl) _
    · cases hentry
  | cons entry entries ih =>
    obtain ⟨first, m, rest, hfirst, hrest, -⟩ := mapM_cons_ok.mp h
    obtain ⟨hid, hnodup⟩ := List.nodup_cons.mp hnodup
    obtain ⟨hmoves, instr, hinstr, haddr⟩ := moveInstruction_moves hfirst
    obtain ⟨hmoves', hplaced⟩ := ih hnodup hrest
    refine ⟨⟨?_, fun x hx => ?_, hmoves'.functions.trans hmoves.functions,
      hmoves'.redirects.trans hmoves.redirects, hmoves'.bases.trans hmoves.bases,
      hmoves'.config.trans hmoves.config⟩, fun other hother => ?_⟩
    · refine hmoves.chain.trans (fun x a b c hab hbc => ?_) hmoves'.chain
      rw [hbc, hab]
      rfl
    · rw [List.map_cons, List.mem_cons, not_or] at hx
      rw [hmoves'.other x hx.2, hmoves.other x fun he => hx.1 (List.mem_singleton.mp he)]
    · rcases List.mem_cons.mp hother with rfl | hother
      · exact ⟨instr, (hmoves'.other _ hid).trans hinstr, haddr⟩
      · exact hplaced other hother

/-! ## Measuring -/

/-- Measuring a function that is where its first instruction is and of the size of its run changes
nothing. -/
theorem measured_still {chain : Chain} {function : Function}
    (haddr : ∀ first, function.first = some first →
      ∃ instr, chain.get? first = some instr ∧ function.addr = instr.addr)
    (hpresent : ∀ id ∈ function.instructions chain, ∃ instr, chain.get? id = some instr)
    (hsize : function.isDefined = true →
      function.size = ((function.instructions chain).map chain.sizeOf).sum) :
    measured chain function = .ok function := by
  unfold measured
  cases hfirst : function.first with
  | none => rfl
  | some first =>
    obtain ⟨instr, hinstr, hstart⟩ := haddr first hfirst
    have hsizes : (function.instructions chain).mapM (fun id => (·.size) <$> chain.get id)
        = .ok ((function.instructions chain).map chain.sizeOf) := by
      rw [mapM_eq_ok, List.map_map]
      refine List.map_congr_left fun id hid => ?_
      obtain ⟨found, hfound⟩ := hpresent id hid
      rw [Chain.get_ok.mpr hfound, Function.comp, Chain.sizeOf_eq hfound]
      rfl
    simp only [bind_eq_ok, pure_eq_ok, Chain.get_ok]
    refine ⟨instr, hinstr, _, hsizes, ?_⟩
    rw [← hsize (by rw [Function.isDefined, hfirst]; rfl), ← hstart, ← hfirst]

/-- Reading the size of an instruction succeeds if it is present. -/
theorem size_ok {chain : Chain} {id : InstrId} {size : UInt64} :
    (·.size) <$> chain.get id = .ok size ↔ ∃ instr, chain.get? id = some instr ∧ instr.size = size := by
  cases hid : chain.get? id with
  | none =>
    rw [Chain.get, hid]
    constructor
    · intro h
      cases h
    · intro h
      obtain ⟨_, h, -⟩ := h
      cases h
  | some instr =>
    rw [Chain.get_ok.mpr hid]
    constructor
    · intro h
      exact ⟨instr, rfl, Except.ok.inj h⟩
    · intro h
      obtain ⟨_, h, rfl⟩ := h
      rw [Option.some.inj h]
      rfl

/-- What measuring makes of a function. -/
theorem measured_ok {chain : Chain} {function found : Function}
    (h : measured chain function = .ok found) :
    function.first = none ∧ found = function
      ∨ ∃ first instr, function.first = some first ∧ chain.get? first = some instr
        ∧ (∀ id ∈ function.instructions chain, ∃ instr, chain.get? id = some instr)
        ∧ found = { function with
            addr := instr.addr
            size := ((function.instructions chain).map chain.sizeOf).sum } := by
  unfold measured at h
  cases hfirst : function.first with
  | none =>
    rw [hfirst] at h
    exact .inl ⟨rfl, (Except.ok.inj h).symm⟩
  | some first =>
    rw [hfirst] at h
    have hsizeOf : ∀ id size, (·.size) <$> chain.get id = .ok size → size = chain.sizeOf id := by
      intro id size hsize
      obtain ⟨instr, hinstr, rfl⟩ := size_ok.mp hsize
      exact (Chain.sizeOf_eq hinstr).symm
    simp only [bind_eq_ok, pure_eq_ok, mapM_eq_ok_map hsizeOf, Chain.get_ok] at h
    obtain ⟨instr, hinstr, _, ⟨hpresent, rfl⟩, rfl⟩ := h
    refine .inr ⟨first, instr, rfl, hinstr, fun id hid => ?_, rfl⟩
    obtain ⟨found, hfound, -⟩ := size_ok.mp (hpresent id hid)
    exact ⟨found, hfound⟩

/-- Measuring twice is measuring once. -/
theorem measured_idem {chain : Chain} {function found : Function}
    (h : measured chain function = .ok found) : measured chain found = .ok found := by
  rcases measured_ok h with ⟨hfirst, rfl⟩ | ⟨first, instr, hfirst, hinstr, hpresent, rfl⟩
  · exact h
  · refine measured_still (fun other hother => ?_) hpresent fun _ => rfl
    rw [hfirst, Option.some.injEq] at hother
    subst hother
    exact ⟨instr, hinstr, rfl⟩

/-- Measuring looks at the order of the code, at addresses and at sizes. -/
theorem measured_evolve {chain after : Chain} {function : Function}
    {r : InstrId → Instruction → Instruction → Prop} (hchain : chain.Evolves r after)
    (hr : ∀ id a b, r id a b → b.addr = a.addr ∧ b.size = a.size)
    (h : measured chain function = .ok function) : measured after function = .ok function := by
  have hrun : function.instructions after = function.instructions chain := by
    rw [Function.instructions, Function.instructions, hchain.run]
  rcases measured_ok h with ⟨hfirst, -⟩ | ⟨first, instr, hfirst, hinstr, hpresent, hfound⟩
  · rw [measured, hfirst]
  · refine measured_still (fun other hother => ?_) (fun id hid => ?_) fun _ => ?_
    · rw [hfirst, Option.some.injEq] at hother
      subst hother
      obtain ⟨instr', hinstr', hrel⟩ := hchain.get? hinstr
      exact ⟨instr', hinstr', (congrArg (·.addr) hfound).trans (hr _ _ _ hrel).1.symm⟩
    · rw [hrun] at hid
      obtain ⟨found, hget⟩ := hpresent id hid
      obtain ⟨found', hget', -⟩ := hchain.get? hget
      exact ⟨found', hget'⟩
    · rw [hrun]
      have hsize := congrArg (·.size) hfound
      refine hsize.trans (congrArg List.sum ?_)
      refine List.map_congr_left fun id _ => ?_
      exact ((hchain.retains fun _ => True).sizeOf (fun _ _ _ hab => (hr _ _ _ hab).2) trivial).symm

/-- What laying out anew makes of the code. -/
structure Relaid (s t : Session) (l : List InstrId) : Prop where
  chain : s.program.chain.Evolves (fun _ a b => b = a.relocated b.addr) t.program.chain
  laid : t.program.LaidOut l
  measured : ∀ id function, t.program.functions.get? id = some function →
    EngineM.measured t.program.chain function = .ok function
  redirects : t.program.redirects = s.program.redirects
  bases : t.program.bases = s.program.bases
  config : t.program.config = s.program.config

/-- Moving every instruction to its place leaves the code laid out. -/
theorem moveToPlaces_ok {moved : List Bool} (hl : s.program.chain.Spells l)
    (h : (s.program.places [] l).mapM (fun entry => moveInstruction entry.1 entry.2.2) s = .ok moved t) :
    Moves s t l ∧ t.program.LaidOut l := by
  have hfst : (s.program.places [] l).map (·.1) = l :=
    Program.places_fst fun id hid => hl.get?_isSome hid
  obtain ⟨hmoved, hplaced⟩ := moveAll_ok (hfst.symm ▸ hl.nodup) h
  refine ⟨hfst ▸ hmoved, fun front id rest instr hsplit hid => ?_⟩
  obtain ⟨old, hold, hinstr⟩ := hmoved.chain.get?_of hid
  have hentry : (id, old, s.program.place old.sec front) ∈ s.program.places [] l :=
    Program.mem_places.mpr ⟨front, rest, hsplit, hold, rfl⟩
  obtain ⟨found, hfound, haddr⟩ := hplaced _ hentry
  obtain rfl := Option.some.inj (hfound.symm.trans hid)
  have hsec : found.sec = old.sec := by rw [hinstr]; rfl
  rw [haddr, hsec]
  refine (Program.place_evolve hmoved.chain hmoved.bases (fun _ a b hab => ?_) old.sec front).symm
  rw [hab]
  exact ⟨rfl, rfl⟩

/-- The parts of laying out anew: every instruction moves to its place, and then the functions are
measured. -/
theorem updateAddresses_run {summary : UpdateSummary} (hl : s.program.chain.Spells l)
    (h : updateAddresses s = .ok summary t) : ∃ m functions, Moves s m l ∧ m.program.LaidOut l
      ∧ s.program.functions.functions.toList.mapM (measured m.program.chain) = .ok functions
      ∧ t = m.withFunctions ⟨functions.toArray⟩ := by
  simp only [updateAddresses, bind_ok, program_ok, liftResult_ok, updateProgram_ok, pure_ok] at h
  obtain ⟨_, _, ⟨rfl, rfl⟩, moved, m, hmoves, _, _, ⟨rfl, rfl⟩, functions, _, ⟨hfunctions, rfl⟩, _, _, rfl,
    -, rfl⟩ := h
  rw [Program.expected_eq, hl.ids_eq] at hmoves
  obtain ⟨hmoved, hlaid⟩ := moveToPlaces_ok hl hmoves
  exact ⟨m, functions, hmoved, hlaid, hmoved.functions ▸ hfunctions, rfl⟩

/-- A layout that succeeds puts each instruction in its place and measures each function. -/
theorem updateAddresses_ok {summary : UpdateSummary} (hl : s.program.chain.Spells l)
    (h : updateAddresses s = .ok summary t) : Relaid s t l := by
  obtain ⟨m, functions, hmoved, hlaid, hfunctions, rfl⟩ := updateAddresses_run hl h
  refine ⟨hmoved.chain, hlaid, fun id function hfunction => ?_, hmoved.redirects, hmoved.bases,
    hmoved.config⟩
  have hmem : function ∈ functions := by
    replace hfunction : FunctionTable.get? ⟨functions.toArray⟩ id = some function := hfunction
    rw [FunctionTable.get?, List.getElem?_toArray] at hfunction
    exact List.mem_of_getElem? hfunction
  obtain ⟨before, -, hmeasured⟩ := exists_of_mem_mapM hfunctions hmem
  exact measured_idem hmeasured

/-! ## Where nothing moves -/

/-- Steps that leave the session do so one after the other. -/
theorem mapM_still {α β : Type} {f : α → EngineM β} {b : β} {xs : List α}
    (h : ∀ x ∈ xs, f x s = .ok b s) : xs.mapM f s = .ok (xs.map fun _ => b) s := by
  induction xs with
  | nil => exact mapM_nil_ok.mpr ⟨rfl, rfl⟩
  | cons x xs ih =>
    refine mapM_cons_ok.mpr ⟨b, s, xs.map fun _ => b, h x (List.mem_cons_self ..), ?_, rfl⟩
    exact ih fun y hy => h y (List.mem_cons_of_mem _ hy)

/-- A move to where the instruction is does nothing. -/
theorem moveInstruction_still {id : InstrId} {instr : Instruction}
    (h : s.program.chain.get? id = some instr) : moveInstruction id instr.addr s = .ok false s := by
  rw [moveInstruction, bind_ok]
  refine ⟨instr, s, instr_ok.mpr ⟨h, rfl⟩, ?_⟩
  rw [if_pos rfl]
  rfl

/-- Nothing moves and no function changes where everything is in place. -/
theorem updateAddresses_still (hlaid : s.program.LaidOut s.program.chain.ids)
    (hfunctions : ∀ id function, s.program.functions.get? id = some function →
      measured s.program.chain function = .ok function) :
    updateAddresses s = .ok .zero s := by
  have hmoves : (Layout.expected s.program).mapM (fun entry => moveInstruction entry.1 entry.2.2) s
      = .ok ((Layout.expected s.program).map fun _ => false) s := by
    refine mapM_still fun entry hentry => ?_
    obtain ⟨id, instr, addr⟩ := entry
    rw [Program.expected_eq, Program.mem_places] at hentry
    obtain ⟨front, rest, hids, hinstr, rfl⟩ := hentry
    show moveInstruction id _ s = _
    rw [List.nil_append, ← hlaid front id rest instr hids hinstr]
    exact moveInstruction_still hinstr
  have hmeasured : s.program.functions.functions.toList.mapM (measured s.program.chain)
      = .ok s.program.functions.functions.toList := by
    rw [mapM_eq_ok]
    refine List.map_congr_left fun function hfunction => ?_
    obtain ⟨index, hindex, hget⟩ := List.getElem_of_mem hfunction
    refine hfunctions ⟨index⟩ function ?_
    rw [FunctionTable.get?, ← Array.getElem?_toList, List.getElem?_eq_getElem hindex, hget]
  simp only [updateAddresses, bind_ok, program_ok, liftResult_ok, updateProgram_ok, pure_ok]
  refine ⟨_, _, ⟨rfl, rfl⟩, _, _, hmoves, _, _, ⟨rfl, rfl⟩, _, _, ⟨hmeasured, rfl⟩, ⟨⟩, _, rfl, ?_, ?_⟩
  · rw [List.map_const', List.count_replicate, if_neg (by decide)]
    rfl
  · rw [Array.toArray_toList]

end Splice.EngineM
