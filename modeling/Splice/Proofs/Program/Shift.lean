import Splice.Proofs.Chain.Order
import Splice.Proofs.Program.Session

/-!
# Moving code

`moveInstruction` gives one instruction another address and `applyShift` moves all that a
shift reaches: the instructions from the first one on, to the end of the section. Both are
adjustments of the addresses and of nothing else (`moveInstruction_ok`, `applyShift_ok`);
the functions grow by the shifts of their own code, and one whose first instruction moves is
`Anchored` at it afterwards.

A shift is a first instruction, a section, a function, a distance and the jumpers that were
edited. It reaches from the first instruction on to the first one of another section
(`Chain.reach`), so code of the section that comes later again is not moved; where sections are
in one piece that makes no difference. A shift by nothing moves nothing.
-/

namespace Splice

/-- The instruction at another address. -/
def Instruction.relocated (addr : UInt64) (instr : Instruction) : Instruction :=
  { instr with addr := addr }

/-- The instruction `delta` bytes further. -/
def Instruction.shifted (delta : Int64) (instr : Instruction) : Instruction :=
  { instr with addr := instr.addr + delta.toUInt64 }

theorem Instruction.shifted_zero (instr : Instruction) : instr.shifted 0 = instr := by
  have hzero : (0 : Int64).toUInt64 = 0 := rfl
  rw [shifted, hzero, UInt64.add_zero]

/-- The function with its first instruction, if that is `id`, at another address. -/
def Function.startingAt (id : InstrId) (addr : UInt64) (function : Function) : Function :=
  if function.first = some id then { function with addr := addr } else function

theorem Function.startingAt_carried (id : InstrId) (addr : UInt64) (function : Function) :
    function.Carried (function.startingAt id addr)
      ∧ (function.startingAt id addr).size = function.size := by
  unfold startingAt
  split <;> exact ⟨⟨rfl, rfl, rfl, rfl⟩, rfl⟩

/-- The instructions that a shift moves. -/
def Chain.reach (chain : Chain) (shift : Shift) : List InstrId :=
  (chain.walk shift.first).takeWhile fun id =>
    (chain.get? id).any fun instr => instr.sec == shift.sec

/-- A function is at the address of its first instruction, if that is its own. -/
def Program.Anchored (program : Program) (id : FuncId) : Prop :=
  ∀ function first instr, program.functions.get? id = some function →
    function.first = some first → program.chain.get? first = some instr →
    instr.func = some id → function.addr = instr.addr

/-- A function begins at one of the instructions. -/
def FunctionTable.BeginsAt (table : FunctionTable) (id : FuncId) (ids : List InstrId) : Prop :=
  ∃ function first, table.get? id = some function ∧ function.first = some first ∧ first ∈ ids

/-- Which instructions functions begin at outlasts what carries them along. -/
theorem FunctionTable.Carries.beginsAt {table after : FunctionTable} (h : table.Carries after)
    {id : FuncId} {ids : List InstrId} (hbegins : table.BeginsAt id ids) : after.BeginsAt id ids := by
  obtain ⟨function, first, hfunction, hfirst, hmem⟩ := hbegins
  obtain ⟨found, hafter, hcarried⟩ := h.get? hfunction
  exact ⟨found, first, hafter, hcarried.first.trans hfirst, hmem⟩

/-- The size of a function. -/
def FunctionTable.size? (table : FunctionTable) (id : FuncId) : Option UInt64 :=
  (table.get? id).map (·.size)

namespace EngineM

variable {s t : Session} {id : InstrId} {addr : UInt64} {delta : Int64} {u : Unit}

/-! ## One instruction -/

/-- A move that reports a change has put the instruction at the address; otherwise it was there already
and nothing has changed. -/
theorem moveInstruction_ok {moved : Bool} (h : moveInstruction id addr s = .ok moved t) :
    ∃ found, s.program.chain.get? id = some found
      ∧ (moved = false → t = s) ∧ (moved = true → found.addr ≠ addr)
      ∧ Session.SameCode
          (s.withChain (s.program.chain.adjust (Chain.only id (.relocated addr)))) t := by
  unfold moveInstruction at h
  simp only [bind_ok, instr_ok] at h
  obtain ⟨found, _, ⟨hfound, rfl⟩, h⟩ := h
  refine ⟨found, hfound, ?_⟩
  by_cases haddr : found.addr = addr
  · rw [if_pos haddr, pure_ok] at h
    obtain ⟨rfl, rfl⟩ := h
    refine ⟨fun _ => rfl, fun h => (Bool.false_ne_true h).elim, ?_⟩
    have hself : s.program.chain.adjust (Chain.only id (.relocated addr)) = s.program.chain := by
      refine Chain.adjust_self fun x i hi => ?_
      by_cases hx : x = id
      · subst hx
        rw [hfound, Option.some.injEq] at hi
        rw [Chain.only_self, Instruction.relocated, ← hi, ← haddr]
      · exact Chain.only_ne hx _ i
    rw [hself]
    exact .refl s
  · rw [if_neg haddr] at h
    simp only [bind_ok, updateInstr_ok, pure_ok] at h
    obtain ⟨_, s₁, ⟨-, rfl⟩, _, s₂, hrelocs, _, s₃, hrefs, rfl, rfl⟩ := h
    refine ⟨fun h => (Bool.false_ne_true h.symm).elim, fun _ => haddr, ?_⟩
    have hsame₂ := Keeps.forM Session.SameCode.stepRelation (fun _ _ => updateSymbol_sameCode) hrelocs
    have hsame₃ := Keeps.forM Session.SameCode.stepRelation (fun _ _ => updateSymbol_sameCode) hrefs
    exact hsame₂.trans hsame₃

/-- A shift of one instruction moves it, and the start of its function if it is that. -/
theorem shiftInstruction_ok (h : shiftInstruction id delta s = .ok u t) :
    ∃ found, s.program.chain.get? id = some found
      ∧ Session.SameCode
          (withOwner (s.withChain (s.program.chain.adjust (Chain.only id (.shifted delta))))
            found.func (.startingAt id (found.addr + delta.toUInt64))) t := by
  simp only [shiftInstruction, bind_ok, instr_ok, discard_ok] at h
  obtain ⟨found, _, ⟨hfound, rfl⟩, _, s₁, ⟨moved, hmove⟩, howner⟩ := h
  refine ⟨found, hfound, ?_⟩
  obtain ⟨found', hfound', -, -, hsame⟩ := moveInstruction_ok hmove
  have hshift : s.program.chain.adjust (Chain.only id (.relocated (found.addr + delta.toUInt64)))
      = s.program.chain.adjust (Chain.only id (.shifted delta)) := by
    refine Chain.adjust_congr fun x i hi => ?_
    by_cases hx : x = id
    · subst hx
      rw [hfound, Option.some.injEq] at hi
      rw [Chain.only_self, Chain.only_self, ← hi]
      rfl
    · rw [Chain.only_ne hx, Chain.only_ne hx]
  rw [hshift] at hsame
  rw [updateOwner_ok howner]
  cases found.func with
  | none => exact hsame
  | some owner =>
    refine ⟨hsame.chain, ?_, hsame.redirects, hsame.bases, hsame.config⟩
    show s₁.program.functions.update owner _ = _
    rw [hsame.functions]
    rfl

/-- A change of one function's size changes that and no other size. -/
theorem size?_withOwner {owner : Option FuncId} {f : Function → Function} (grow : UInt64 → UInt64)
    (hsize : ∀ function, (f function).size = grow function.size) (id : FuncId) :
    (withOwner s owner f).program.functions.size? id
      = if owner = some id then (s.program.functions.size? id).map grow
        else s.program.functions.size? id := by
  rw [FunctionTable.size?, get?_withOwner]
  split
  · rw [FunctionTable.size?, Option.map_map, Option.map_map]
    congr 1
    funext function
    exact hsize function
  · rfl

/-- What moving code does, instruction by instruction. -/
structure Shifts (s t : Session) (ids : List InstrId) (delta : Int64) : Prop where
  chain : t.program.chain
    = s.program.chain.adjust fun id instr => if id ∈ ids then instr.shifted delta else instr
  size : ∀ id, t.program.functions.size? id = s.program.functions.size? id
  carries : Session.Carries s t
  anchored : ∀ id, s.program.Anchored id ∨ s.program.functions.BeginsAt id ids →
    t.program.Anchored id

/-- A function is at its first instruction afterwards, if it was before or if that is the one that moved. -/
theorem shiftInstruction_anchored {owner : FuncId} (h : shiftInstruction id delta s = .ok u t)
    (hanchored : s.program.Anchored owner ∨ s.program.functions.BeginsAt owner [id]) :
    t.program.Anchored owner := by
  obtain ⟨found, hfound, hsame⟩ := shiftInstruction_ok h
  have hchain := hsame.chain
  rw [chain_withOwner] at hchain
  intro function first instr hfunction hfirst hinstr howner
  have hfunction' := (congrArg (·.get? owner) hsame.functions).trans (get?_withOwner owner)
  simp only [hfunction] at hfunction'
  rw [hchain] at hinstr
  replace hinstr : (s.program.chain.adjust (Chain.only id (.shifted delta))).get? first
    = some instr := hinstr
  rw [Chain.get?_adjust, Option.map_eq_some_iff] at hinstr
  obtain ⟨old, hold, rfl⟩ := hinstr
  by_cases hid : first = id
  · -- the first instruction of the function moves, and the function with it
    subst hid
    rw [hfound, Option.some.injEq] at hold
    subst hold
    rw [Chain.only_self] at howner ⊢
    replace howner : found.func = some owner := howner
    rw [if_pos howner, eq_comm, Option.map_eq_some_iff] at hfunction'
    obtain ⟨before, -, rfl⟩ := hfunction'
    rw [(Function.startingAt_carried first _ before).1.first] at hfirst
    rw [Function.startingAt, if_pos hfirst]
    rfl
  · -- neither it nor the function moves, even if another instruction of the function does
    rw [Chain.only_ne hid] at howner ⊢
    have hsome : ∃ before, s.program.functions.get? owner = some before
        ∧ before.first = some first ∧ function.addr = before.addr := by
      split at hfunction'
      · rw [eq_comm, Option.map_eq_some_iff] at hfunction'
        obtain ⟨before, hbefore, rfl⟩ := hfunction'
        rw [(Function.startingAt_carried id _ before).1.first] at hfirst
        have hother : before.first ≠ some id := by
          intro he
          rw [hfirst, Option.some.injEq] at he
          exact hid he
        rw [Function.startingAt, if_neg hother]
        exact ⟨before, hbefore, hfirst, rfl⟩
      · exact ⟨function, hfunction'.symm, hfirst, rfl⟩
    obtain ⟨before, hbefore, hbeforeFirst, haddr⟩ := hsome
    rw [haddr]
    rcases hanchored with hanchored | ⟨found', first', hfound', hfirst', hmem⟩
    · exact hanchored before first old hbefore hbeforeFirst hold howner
    · rw [hbefore, Option.some.injEq] at hfound'
      subst hfound'
      rw [hbeforeFirst, Option.some.injEq] at hfirst'
      exact absurd (hfirst'.trans (List.mem_singleton.mp hmem)) hid

/-- A shift of one instruction is a shift of a list with one. -/
theorem shiftInstruction_shifts (h : shiftInstruction id delta s = .ok u t) :
    Shifts s t [id] delta := by
  obtain ⟨found, hfound, hsame⟩ := shiftInstruction_ok h
  refine ⟨?_, fun owner => ?_, ?_, fun owner hanchored => shiftInstruction_anchored h hanchored⟩
  · have hchain := hsame.chain
    rw [chain_withOwner] at hchain
    rw [hchain]
    refine Chain.adjust_congr fun x i _ => ?_
    unfold Chain.only
    simp
  · rw [hsame.functions, size?_withOwner (fun size => size)
      (fun function => (Function.startingAt_carried id _ function).2)]
    simp [Session.withChain]
  · refine Session.Carries.trans (Session.carries_withChain fun x i => ?_)
      ((carries_withOwner fun function => ?_).trans hsame.carries)
    · unfold Chain.only
      split <;> exact ⟨rfl, rfl, rfl, rfl, rfl, rfl, rfl, rfl⟩
    · exact (Function.startingAt_carried id _ function).1

/-- A shift of no instructions changes nothing. -/
theorem Shifts.nil (s : Session) (delta : Int64) : Shifts s s [] delta where
  chain := (Chain.adjust_self fun x i _ => by simp).symm
  size _ := rfl
  carries := .refl s
  anchored id h := by
    rcases h with h | ⟨_, _, -, -, hmem⟩
    · exact h
    · cases hmem

/-- A shift of one instruction and of others, it not among them, is a shift of all. -/
theorem Shifts.cons {s m t : Session} {ids : List InstrId} (hid : id ∉ ids)
    (h : Shifts s m [id] delta) (k : Shifts m t ids delta) : Shifts s t (id :: ids) delta where
  chain := by
    rw [k.chain, h.chain, Chain.adjust_adjust]
    refine Chain.adjust_congr fun x i _ => ?_
    by_cases hx : x = id
    · subst hx
      simp [hid]
    · simp [hx]
  size owner := (k.size owner).trans (h.size owner)
  carries := h.carries.trans k.carries
  anchored owner hs := by
    rcases hs with hs | ⟨function, first, hfunction, hfirst, hmem⟩
    · exact k.anchored owner (.inl (h.anchored owner (.inl hs)))
    · rcases List.mem_cons.mp hmem with hmem | hmem
      · have hbegins : s.program.functions.BeginsAt owner [id] :=
          ⟨function, first, hfunction, hfirst, List.mem_singleton.mpr hmem⟩
        exact k.anchored owner (.inl (h.anchored owner (.inr hbegins)))
      · have hbegins : s.program.functions.BeginsAt owner ids :=
          ⟨function, first, hfunction, hfirst, hmem⟩
        exact k.anchored owner (.inr (h.carries.functions.beginsAt hbegins))

/-- Moving several instructions, each of them once. -/
theorem shiftAll_shifts {ids : List InstrId} (hids : ids.Nodup)
    (h : ids.forM (fun id => shiftInstruction id delta) s = .ok u t) : Shifts s t ids delta := by
  induction ids generalizing s with
  | nil =>
    rw [forM_nil_ok] at h
    rw [h]
    exact .nil s delta
  | cons id ids ih =>
    rw [forM_cons_ok] at h
    obtain ⟨m, hfirst, hrest⟩ := h
    obtain ⟨hid, hids⟩ := List.nodup_cons.mp hids
    exact .cons hid (shiftInstruction_shifts hfirst) (ih hids hrest)

/-! ## A shift -/

/-- What carrying out a shift does. -/
structure Applied (s t : Session) (shift : Shift) (moved : List InstrId) : Prop where
  chain : t.program.chain = s.program.chain.adjust fun id instr =>
    if id ∈ s.program.chain.reach shift then instr.shifted shift.delta else instr
  size : ∀ id, t.program.functions.size? id
    = if shift.func = some id then (s.program.functions.size? id).map (· + shift.delta.toUInt64)
      else s.program.functions.size? id
  carries : Session.Carries s t
  anchored : ∀ id, s.program.Anchored id
      ∨ shift.delta ≠ 0 ∧ s.program.functions.BeginsAt id (s.program.chain.reach shift) →
    t.program.Anchored id
  moved : ∀ id, id ∉ moved → t.program.chain.get? id = s.program.chain.get? id

/-- A change of size leaves functions where they begin. -/
theorem anchored_withOwner {owner : FuncId} {grown : Option FuncId} {f : Function → Function}
    (hf : ∀ function, (f function).first = function.first ∧ (f function).addr = function.addr)
    (hs : s.program.Anchored owner) : (withOwner s grown f).program.Anchored owner := by
  intro function first instr hfunction hfirst hinstr hfunc
  rw [get?_withOwner] at hfunction
  rw [chain_withOwner] at hinstr
  split at hfunction
  · rw [Option.map_eq_some_iff] at hfunction
    obtain ⟨before, hbefore, rfl⟩ := hfunction
    rw [(hf before).1] at hfirst
    rw [(hf before).2]
    exact hs before first instr hbefore hfirst hinstr hfunc
  · exact hs function first instr hfunction hfirst hinstr hfunc

/-- A shift that is carried out has moved each instruction that it reaches by its distance, has let the
function grow, and lists what it has moved. -/
theorem applyShift_ok {shift : Shift} {moved : List InstrId}
    (hreach : (s.program.chain.reach shift).Nodup) (h : applyShift shift s = .ok moved t) :
    Applied s t shift moved := by
  simp only [applyShift, bind_ok] at h
  obtain ⟨_, s₁, howner, h⟩ := h
  have hs₁ := updateOwner_ok howner
  have hchain : s₁.program.chain = s.program.chain := by rw [hs₁, chain_withOwner]
  have hsize : ∀ id, s₁.program.functions.size? id
      = if shift.func = some id then (s.program.functions.size? id).map (· + shift.delta.toUInt64)
        else s.program.functions.size? id := by
    intro id
    rw [hs₁]
    exact size?_withOwner (· + shift.delta.toUInt64) (fun _ => rfl) id
  -- the owner is resized first, and that moves nothing
  have hcarries : Session.Carries s s₁ := by
    rw [hs₁]
    exact carries_withOwner fun _ => ⟨rfl, rfl, rfl, rfl⟩
  have hanchored : ∀ owner, s.program.Anchored owner → s₁.program.Anchored owner := by
    intro owner hs
    rw [hs₁]
    exact anchored_withOwner (fun _ => ⟨rfl, rfl⟩) hs
  by_cases hzero : shift.delta = 0
  · rw [if_pos hzero, pure_ok] at h
    obtain ⟨rfl, rfl⟩ := h
    have hself : (s.program.chain.adjust fun id instr =>
        if id ∈ s.program.chain.reach shift then instr.shifted shift.delta else instr)
        = s.program.chain := by
      refine Chain.adjust_self fun x i _ => ?_
      rw [hzero, Instruction.shifted_zero]
      split <;> rfl
    refine ⟨hchain.trans hself.symm, hsize, hcarries, fun owner hs => ?_, fun id _ => by rw [hchain]⟩
    rcases hs with hs | ⟨hdelta, -⟩
    · exact hanchored owner hs
    · exact absurd hzero hdelta
  · rw [if_neg hzero] at h
    simp only [bind_ok, program_ok, pure_ok] at h
    obtain ⟨_, _, ⟨rfl, rfl⟩, _, s₂, hshift, rfl, rfl⟩ := h
    rw [hchain] at hshift
    have hshifts := shiftAll_shifts hreach hshift
    refine ⟨by rw [hshifts.chain, hchain, Chain.reach], fun id => ?_, hcarries.trans hshifts.carries,
      fun owner hs => hshifts.anchored owner ?_, fun id hid => ?_⟩
    · rw [hshifts.size, hsize]
    · rcases hs with hs | ⟨-, hbegins⟩
      · exact .inl (hanchored owner hs)
      · exact .inr (hcarries.functions.beginsAt hbegins)
    · rw [hshifts.chain, hchain, Chain.get?_adjust]
      cases s.program.chain.get? id with
      | none => rfl
      | some instr =>
        rw [hchain] at hid
        rw [Option.map_some, Chain.reach, if_neg hid]

end EngineM

end Splice
