import Splice.Proofs.Program.Placement
import Splice.Proofs.Program.Unwidened

/-!
# Shifts and layouts

What lies behind an instruction that was given other bytes can be moved in two ways: by a shift,
which adds the difference to the addresses up to the first instruction of another section, or by
a layout, which computes all addresses anew. A shift that widens no jump comes to the same as a
layout exactly if it reaches all that has to move: the section of the instruction goes on behind
it in one piece, and the instruction is in the run of the function that it makes grow
(`shiftAddresses_agrees_iff`). Neither the layout nor the checks ask for the former: in a chain
in which sections alternate, the shift leaves the later pieces of the section behind
(`woven_left_behind`).

The functions are compared one by one. A function that has both a first and a last instruction
passed its check before the shift, and there is nothing more to ask of it than that its own code
is what grows (`anticipates_iff_of_checked`). A function without instructions is not measured at
all. That leaves those that have a first instruction and no last one, which the check passes
over, so that nothing is known of them beforehand: what they have to be before the shift for it
to leave them right is `Program.Anticipates`.
-/

namespace Splice

/-- By how many bytes an instruction grows that is given other bytes. -/
def Instruction.growthTo (instr : Instruction) (bytes : List UInt8) : Int64 :=
  Int64.ofInt ((bytes.length : Int) - instr.bytes.length)

namespace Session

/-- The session with another encoding of one instruction. -/
def recoded (s : Session) (id : InstrId) (bytes : List UInt8) (opcodeSize : UInt8) : Session :=
  s.withChain (s.program.chain.adjust
    (Chain.only id fun instr => { instr with bytes := bytes, opcodeSize := opcodeSize }))

end Session

namespace EngineM

variable {s t m : Session} {l xs ys : List InstrId} {id : InstrId} {shift : Shift}
  {summary : UpdateSummary}

/-! ## Addresses -/

/-- What lies behind an instruction that grew is in its place again after a shift that stops at the first
instruction of another section, if and only if no part of the section lies behind that. -/
theorem laidOut_shifted_iff {delta : UInt64} {found : Instruction}
    (hl : s.program.chain.Spells (xs ++ id :: ys)) (hlaid : s.program.LaidOut (xs ++ id :: ys))
    (hfound : s.program.chain.get? id = some found)
    (hgrows : Program.Grows s.program.chain m.program.chain id delta)
    (hshift : m.program.chain.Evolves (fun x a b => b.sec = a.sec ∧ b.size = a.size ∧ b.addr = a.addr
      + if x ∈ ys.takeWhile (s.program.chain.inSection found.sec) then delta else 0) t.program.chain)
    (hbases : t.program.bases = s.program.bases) :
    t.program.LaidOut (xs ++ id :: ys) ↔ delta = 0 ∨ s.program.chain.Leading found.sec ys := by
  -- an instruction is in its place if it was moved exactly if it is of the section and lies behind
  have hplaced : ∀ front x rest after, xs ++ id :: ys = front ++ x :: rest →
      t.program.chain.get? x = some after → (after.addr = t.program.place after.sec front
        ↔ (if x ∈ ys.takeWhile (s.program.chain.inSection found.sec) then delta else 0)
          = if x ∈ ys ∧ s.program.chain.inSection found.sec x = true then delta else 0) := by
    intro front x rest after hsplit hafter
    obtain ⟨middle, hmiddle, hsec, -, haddr⟩ := hshift.get?_of hafter
    obtain ⟨old, hold, hsec', haddr', -⟩ := hgrows.evolves.get?_of hmiddle
    have hfront : front.Nodup := by
      have hnodup := hl.nodup
      rw [hsplit] at hnodup
      exact (List.nodup_append.mp hnodup).1
    have hplace : t.program.place after.sec front
        = old.addr + if x ∈ ys ∧ s.program.chain.inSection found.sec x = true then delta else 0 := by
      rw [hlaid front x rest old hsplit hold, Program.place, Program.place, hbases,
        (hshift.retains fun _ => True).extent (fun _ _ _ hab => ⟨hab.1, hab.2.1⟩) (fun _ _ => trivial),
        hgrows.extent hfound hfront, hsec, hsec', ← UInt64.add_assoc]
      simp only [Program.behind_iff hl.nodup hsplit, Chain.inSection_iff hold, eq_comm]
    rw [hplace, haddr, haddr', UInt64.add_right_inj]
  constructor
  · intro h
    by_cases hdelta : delta = 0
    · exact .inl hdelta
    · refine .inr (Chain.leading_of_takeWhile ?_ fun x hx hsec => ?_)
      · exact (List.nodup_cons.mp (List.nodup_append.mp hl.nodup).2.1).2
      · have hmem : x ∈ xs ++ id :: ys := List.mem_append_right _ (List.mem_cons_of_mem _ hx)
        obtain ⟨front, rest, hsplit⟩ := List.append_of_mem hmem
        obtain ⟨old, hold⟩ := hl.get?_isSome hmem
        obtain ⟨middle, hmiddle, -⟩ := hgrows.evolves.get? hold
        obtain ⟨after, hafter, -⟩ := hshift.get? hmiddle
        have hmoved := (hplaced front x rest after hsplit hafter).mp (h front x rest after hsplit hafter)
        refine Classical.byContradiction fun hnot => hdelta ?_
        rw [if_neg hnot, if_pos (And.intro hx hsec)] at hmoved
        exact hmoved.symm
  · intro h front x rest after hsplit hafter
    rw [hplaced front x rest after hsplit hafter]
    rcases h with hdelta | hleading
    · simp only [hdelta, ite_self]
    · have hreach : x ∈ ys.takeWhile (s.program.chain.inSection found.sec)
          ↔ x ∈ ys ∧ s.program.chain.inSection found.sec x = true :=
        ⟨fun hx => ⟨(List.takeWhile_sublist _).subset hx, List.all_eq_true.mp List.all_takeWhile x hx⟩,
          fun hx => hleading.mem_takeWhile hx.1 hx.2⟩
      simp only [hreach]

end EngineM

/-! ## The shift of an instruction that was given other bytes -/

namespace Chain

variable {chain : Chain} {xs ys : List InstrId} {id : InstrId} {instr : Instruction}

/-- What lies behind an instruction in its section, up to the first instruction of another one. -/
def piece (chain : Chain) (id : InstrId) (instr : Instruction) : List InstrId :=
  (chain.walk (chain.next? id)).takeWhile (chain.inSection instr.sec)

theorem Spells.piece_eq (hl : chain.Spells (xs ++ id :: ys)) :
    chain.piece id instr = ys.takeWhile (chain.inSection instr.sec) := by
  have hrest : chain.Spells ((xs ++ [id]) ++ ys) := by simpa using hl
  rw [piece, hl.next?_eq, Spells.walk_append (xs ++ [id]) hrest]

theorem Spells.nodup_run {l : List InstrId} (h : chain.Spells l) (first last : Option InstrId) :
    (chain.run first last).Nodup :=
  (h.nodup_walk first).sublist (chain.run_sublist first last)

/-- The run of a function begins with the function's first instruction, whatever its last one is. -/
theorem first_mem_run (first : InstrId) (last : Option InstrId) : first ∈ chain.run (some first) last := by
  have hwalk : chain.walk (some first) = first :: chain.follow chain.slots.size (chain.next? first) := rfl
  rw [run, hwalk, List.takeWhile_cons]
  split <;> simp

end Chain

namespace EngineM

variable {s t m : Session} {l xs ys : List InstrId} {id : InstrId}

theorem recoded_grows {bytes : List UInt8} {opcodeSize : UInt8} {found : Instruction}
    (hfound : s.program.chain.get? id = some found) :
    Program.Grows s.program.chain (s.recoded id bytes opcodeSize).program.chain id
      (found.growthTo bytes).toUInt64 :=
  Program.grows_adjust hfound (fun _ => ⟨rfl, rfl, rfl⟩) (size_widened found ⟨bytes, opcodeSize⟩)

/-- What is left of `s` in `t`, when an instruction of `s` has grown and a shift that widens no jump has
made room for it. The session `m` is the one between the two. -/
structure Shifted (s m t : Session) (id : InstrId) (found : Instruction) (delta : UInt64) : Prop where
  grows : Program.Grows s.program.chain m.program.chain id delta
  chain : m.program.chain.Evolves (fun x a b => b.sec = a.sec ∧ b.size = a.size ∧ b.func = a.func
    ∧ b.addr = a.addr + if x ∈ s.program.chain.piece id found then delta else 0) t.program.chain
  movable : delta ≠ 0 → ∀ x ∈ s.program.chain.piece id found, m.Movable x
  functions : s.program.functions.Carries t.program.functions
  /-- The function that the instruction is stamped with is said to have grown. -/
  size : ∀ owner function after, s.program.functions.get? owner = some function →
    t.program.functions.get? owner = some after →
    after.size = function.size + if found.func = some owner then delta else 0
  /-- A function is moved along with its first instruction, if that is its own. -/
  anchored : ∀ owner, s.program.Anchored owner
      ∨ delta ≠ 0 ∧ s.program.functions.BeginsAt owner (s.program.chain.piece id found) →
    t.program.Anchored owner
  still : ∀ owner, (delta ≠ 0 → ∀ x ∈ s.program.chain.piece id found, ¬ s.program.BeginsAt owner x) →
    t.program.functions.addr? owner = s.program.functions.addr? owner
  bases : t.program.bases = s.program.bases
  follows : m.Follows t

/-- What has another address afterwards lies behind the instruction, and could be moved. -/
theorem Shifted.moved {found : Instruction} {delta : UInt64} {x : InstrId} {a b : UInt64}
    (hl : s.program.chain.Spells (xs ++ id :: ys)) (h : Shifted s m t id found delta)
    (hb : b = a + if x ∈ s.program.chain.piece id found then delta else 0) :
    b ≠ a → x ∈ xs ++ id :: ys ∧ m.Movable x := by
  intro hne
  by_cases hx : x ∈ s.program.chain.piece id found
  · have hbehind : x ∈ ys := by
      rw [hl.piece_eq] at hx
      exact (List.takeWhile_sublist _).subset hx
    rw [if_pos hx] at hb
    refine ⟨List.mem_append_right _ (List.mem_cons_of_mem _ hbehind), h.movable (fun hzero => hne ?_) x hx⟩
    rw [hb, hzero, UInt64.add_zero]
  · rw [if_neg hx, UInt64.add_zero] at hb
    exact absurd hb hne

/-- The shift behind an instruction that was given other bytes reaches the piece of code behind it. -/
theorem recoded_reach {bytes : List UInt8} {opcodeSize : UInt8} {found : Instruction} {shift : Shift}
    (hl : s.program.chain.Spells (xs ++ id :: ys)) (hfound : s.program.chain.get? id = some found)
    (hfirst : shift.first = s.program.chain.next? id) (hsec : shift.sec = found.sec) :
    (s.recoded id bytes opcodeSize).program.chain.reach shift = s.program.chain.piece id found := by
  have hl' : (s.recoded id bytes opcodeSize).program.chain.Spells (xs ++ id :: ys) := hl.adjust _
  have hspells : (s.recoded id bytes opcodeSize).program.chain.Spells ((xs ++ [id]) ++ ys) := by
    simpa using hl'
  have hgrows : Program.Grows s.program.chain (s.recoded id bytes opcodeSize).program.chain id
      (found.growthTo bytes).toUInt64 := recoded_grows hfound
  rw [hl.piece_eq, Chain.reach_eq hspells (hfirst.trans hl.next?_eq), hsec]
  exact congrArg (ys.takeWhile ·) (funext fun x => hgrows.evolves.inSection (fun _ _ _ hab => hab.1) found.sec x)

/-- Instructions of another encoding begin the functions that they began. -/
theorem begins_recoded {bytes : List UInt8} {opcodeSize : UInt8} {found : Instruction} {owner : FuncId}
    {x : InstrId} (hfound : s.program.chain.get? id = some found) :
    (s.recoded id bytes opcodeSize).program.BeginsAt owner x ↔ s.program.BeginsAt owner x := by
  have hgrows : Program.Grows s.program.chain (s.recoded id bytes opcodeSize).program.chain id
      (found.growthTo bytes).toUInt64 := recoded_grows hfound
  have hstamps : (s.recoded id bytes opcodeSize).program.chain.stamps owner = s.program.chain.stamps owner :=
    hgrows.evolves.stamps fun _ _ _ hab => hab.2.2
  rw [Program.BeginsAt, Program.BeginsAt, hstamps]
  rfl

/-- A function that begins at its first instruction does so when an instruction was given other bytes. -/
theorem anchored_recoded {bytes : List UInt8} {opcodeSize : UInt8} {found : Instruction} {owner : FuncId}
    (hfound : s.program.chain.get? id = some found) (h : s.program.Anchored owner) :
    (s.recoded id bytes opcodeSize).program.Anchored owner := by
  intro function first instr hfunction hfirst hinstr hfunc
  have hgrows : Program.Grows s.program.chain (s.recoded id bytes opcodeSize).program.chain id
      (found.growthTo bytes).toUInt64 := recoded_grows hfound
  obtain ⟨old, hold, -, haddr, hsame⟩ := hgrows.evolves.get?_of hinstr
  rw [haddr]
  exact h function first old hfunction hfirst hold (hsame.symm.trans hfunc)

/-- A shift that widens no jump moves what lies behind the instruction in one piece, and the function of
the instruction grows; nothing else moves. The shift is one round, since no displacement that is written
is too far. -/
theorem shiftAddresses_shifted {bytes : List UInt8} {opcodeSize : UInt8} {found : Instruction}
    {summary : UpdateSummary} (hl : s.program.chain.Spells (xs ++ id :: ys))
    (hfound : s.program.chain.get? id = some found)
    (h : shiftAddresses id (found.growthTo bytes) (s.recoded id bytes opcodeSize) = .ok summary t)
    (hpromoted : summary.promoted = 0) :
    Shifted s (s.recoded id bytes opcodeSize) t id found (found.growthTo bytes).toUInt64 := by
  have hgrows : Program.Grows s.program.chain (s.recoded id bytes opcodeSize).program.chain id
      (found.growthTo bytes).toUInt64 := recoded_grows hfound
  have hl' : (s.recoded id bytes opcodeSize).program.chain.Spells (xs ++ id :: ys) := hl.adjust _
  simp only [shiftAddresses, bind_ok] at h
  obtain ⟨shift, _, hbehind, hsettle⟩ := h
  obtain ⟨source, hsource, hshift, rfl⟩ := shiftBehind_ok hbehind
  obtain ⟨source', hsource', hsec, -, hfunc⟩ := hgrows.evolves.get? hfound
  obtain rfl := Option.some.inj (hsource.symm.trans hsource')
  -- once no jump is widened, settling is a single shift
  have hslid := settle_slid hl' hsettle hpromoted
  have hcarries := Session.Carries.updateRelation.settle hsettle
  have hdelta : shift.delta = found.growthTo bytes := by rw [hshift]
  have howner : shift.func = found.func := by rw [hshift, hfunc]
  have hreach : (s.recoded id bytes opcodeSize).program.chain.reach shift = s.program.chain.piece id found :=
    recoded_reach hl hfound (by rw [hshift, hl'.next?_eq, hl.next?_eq]) (by rw [hshift, hsec])
  have hnonzero : (found.growthTo bytes).toUInt64 ≠ 0 ↔ shift.delta ≠ 0 := by
    rw [hdelta]
    exact not_congr (toUInt64_eq_zero_iff _)
  exact {
    grows := hgrows
    chain := hslid.chain.mono fun x a b hab => by
      obtain ⟨hb, hlength, haddr⟩ := hab
      rw [hreach, hdelta] at haddr
      exact ⟨by rw [hb], congrArg UInt64.ofNat hlength, by rw [hb], haddr⟩
    movable := fun hne => by
      obtain ⟨_, _, happly, -⟩ := settle_unwidened hl' hsettle hpromoted
      rw [← hreach]
      exact applyShift_movable (hnonzero.mp hne) happly
    functions := hcarries.functions
    size := fun owner function after hfunction hafter => by
      rw [hslid.size_eq hfunction hafter, howner, hdelta]
    anchored := fun owner hs => hslid.anchored owner <| hs.imp (anchored_recoded hfound) fun hmoves => by
      rw [hreach]
      exact ⟨hnonzero.mp hmoves.1, hmoves.2⟩
    still := fun owner hs => hslid.still owner fun hne x hx hbegins => by
      rw [hreach] at hx
      exact hs (hnonzero.mpr hne) x hx ((begins_recoded hfound).mp hbegins)
    bases := hcarries.bases
    follows := hslid.follows }

end EngineM

/-! ## Functions -/

/-- The instruction lies in the run of the function that it is stamped with, unless that has no end. -/
def Program.Counts (program : Program) (id : InstrId) (instr : Instruction) : Prop :=
  ∀ owner function, instr.func = some owner → program.functions.get? owner = some function →
    function.isDefined = true ∧ function.last = none ∨ id ∈ function.instructions program.chain

/-- A function is what it has to be for measuring to change nothing once the instruction has grown by
`delta` bytes and what lies behind it is moved. -/
structure Program.Anticipates (program : Program) (id : InstrId) (instr : Instruction) (delta : UInt64)
    (owner : FuncId) (function : Function) : Prop where
  present : ∀ x ∈ function.instructions program.chain, ∃ found, program.chain.get? x = some found
  /-- A shift adds the bytes to the function that the instruction is stamped with, measuring to each one in
  whose run it lies. -/
  size : function.size + (if instr.func = some owner then delta else 0)
    = ((function.instructions program.chain).map program.chain.sizeOf).sum
      + if id ∈ function.instructions program.chain then delta else 0
  /-- A shift takes a function along with its first instruction only if that is the function's own. -/
  place : ∀ first found, function.first = some first → program.chain.get? first = some found →
    (delta ≠ 0 ∧ first ∈ program.chain.piece id instr ∧ found.func = some owner)
      ∨ function.addr = found.addr + if first ∈ program.chain.piece id instr then delta else 0

namespace EngineM

variable {s t m : Session} {l : List InstrId} {id first last : InstrId} {delta : UInt64}
  {found : Instruction} {owner : FuncId} {function after : Function}

/-- A function without instructions keeps its range if it does not grow. -/
theorem Shifted.sized_iff_of_empty (h : Shifted s m t id found delta)
    (hfunction : s.program.functions.get? owner = some function)
    (hafter : t.program.functions.get? owner = some after) (hfirst : function.first = none) :
    measured t.program.chain after = .ok after ∧ (function.first = none → after.range = function.range)
      ↔ delta = 0 ∨ (found.func = some owner → function.isDefined = true ∧ function.last = none
          ∨ id ∈ function.instructions s.program.chain) := by
  obtain ⟨before, hbefore, hcarried⟩ := h.functions.get?_of hafter
  obtain rfl := Option.some.inj (hfunction.symm.trans hbefore)
  have hnone : after.first = none := hcarried.first.trans hfirst
  have hself : measured t.program.chain after = .ok after := by rw [measured, hnone]
  have hempty : function.instructions s.program.chain = [] := by
    rw [Function.instructions, hfirst]
    rfl
  have haddr : after.addr = function.addr := by
    have hstill := h.still owner fun _ x _ hbegins => by
      obtain ⟨-, function', hfunction', hfirst'⟩ := hbegins
      rw [Option.some.inj (hfunction.symm.trans hfunction'), hfirst'] at hfirst
      cases hfirst
    rw [FunctionTable.addr?, FunctionTable.addr?, hafter, hfunction] at hstill
    exact Option.some.inj hstill
  have hrange : after.range = function.range ↔ delta = 0 ∨ found.func ≠ some owner := by
    rw [Function.range, Function.range, Prod.mk.injEq, h.size owner function after hfunction hafter]
    by_cases howner : found.func = some owner
    · simp only [haddr, howner, if_true, ne_eq, not_true_eq_false, or_false, true_and]
      grind
    · simp [haddr, howner]
  simp only [hself, true_and, hrange, hempty, Function.isDefined, hfirst, forall_const,
    Option.isSome_none, Bool.false_eq_true, false_and, List.not_mem_nil, or_self, imp_false, ne_eq]

/-- What becomes of an instruction by its growth and the shift. -/
theorem Shifted.get? {x : InstrId} {a : Instruction} (h : Shifted s m t id found delta)
    (ha : s.program.chain.get? x = some a) :
    ∃ c, t.program.chain.get? x = some c ∧ c.func = a.func
      ∧ c.addr = a.addr + if x ∈ s.program.chain.piece id found then delta else 0 := by
  obtain ⟨b, hb, -, haddr, hfunc⟩ := h.grows.evolves.get? ha
  obtain ⟨c, hc, -, -, hfunc', haddr'⟩ := h.chain.get? hb
  exact ⟨c, hc, hfunc'.trans hfunc, by rw [haddr', haddr]⟩

/-- The shift leaves the instructions that were there, and no others. -/
theorem Shifted.get?_of {x : InstrId} {c : Instruction} (h : Shifted s m t id found delta)
    (hc : t.program.chain.get? x = some c) : ∃ a, s.program.chain.get? x = some a := by
  obtain ⟨b, hb, -⟩ := h.chain.get?_of hc
  obtain ⟨a, ha, -⟩ := h.grows.evolves.get?_of hb
  exact ⟨a, ha⟩

/-- The run of a function is longer by what the instruction grew, if that lies in it. -/
theorem Shifted.extent_eq (function : Function) (hl : s.program.chain.Spells l)
    (h : Shifted s m t id found delta) :
    ((function.instructions s.program.chain).map t.program.chain.sizeOf).sum
      = ((function.instructions s.program.chain).map s.program.chain.sizeOf).sum
        + if id ∈ function.instructions s.program.chain then delta else 0 := by
  have hsizes : t.program.chain.sizeOf = m.program.chain.sizeOf := funext fun x =>
    (h.chain.retains fun _ => True).sizeOf (fun _ _ _ hab => hab.2.1) trivial
  have hnodup : (function.instructions s.program.chain).Nodup := hl.nodup_run _ _
  rw [hsizes, Program.sum_grow h.grows.other h.grows.self hnodup]

/-- A function begins at its first instruction after the shift if it was taken along with that, or if it was
left where that one comes to lie. -/
theorem Shifted.addr_eq_iff {a c : Instruction} (h : Shifted s m t id found delta)
    (hfunction : s.program.functions.get? owner = some function)
    (hafter : t.program.functions.get? owner = some after) (hfirst : function.first = some first)
    (hbegins : after.first = some first) (ha : s.program.chain.get? first = some a)
    (hc : t.program.chain.get? first = some c) :
    after.addr = c.addr ↔ (delta ≠ 0 ∧ first ∈ s.program.chain.piece id found ∧ a.func = some owner)
      ∨ function.addr = a.addr + if first ∈ s.program.chain.piece id found then delta else 0 := by
  obtain ⟨c', hc', hfunc, haddr⟩ := h.get? ha
  obtain rfl := Option.some.inj (hc.symm.trans hc')
  by_cases hown : delta ≠ 0 ∧ first ∈ s.program.chain.piece id found ∧ a.func = some owner
  · have hanchored := h.anchored owner (.inr ⟨hown.1, function, first, hfunction, hfirst, hown.2.1⟩)
    exact iff_of_true (hanchored after first c hafter hbegins hc (hfunc.trans hown.2.2)) (.inl hown)
  · have hstill := h.still owner fun hdelta x hx hat => by
      obtain ⟨hstamps, function', hfunction', hfirst'⟩ := hat
      obtain rfl := Option.some.inj (hfunction.symm.trans hfunction')
      obtain rfl := Option.some.inj (hfirst.symm.trans hfirst')
      exact hown ⟨hdelta, hx, (Chain.stamps_iff ha).mp hstamps⟩
    rw [FunctionTable.addr?, FunctionTable.addr?, hafter, hfunction] at hstill
    have hsame : after.addr = function.addr := Option.some.inj hstill
    rw [hsame, haddr, or_iff_right hown]

/-- A function that begins somewhere is what measuring makes of it after the shift exactly if it was what that
takes before. -/
theorem Shifted.measured_iff_anticipates (hl : s.program.chain.Spells l) (h : Shifted s m t id found delta)
    (hfunction : s.program.functions.get? owner = some function)
    (hafter : t.program.functions.get? owner = some after) (hfirst : function.first = some first) :
    measured t.program.chain after = .ok after ↔ s.program.Anticipates id found delta owner function := by
  obtain ⟨before, hbefore, hcarried⟩ := h.functions.get?_of hafter
  obtain rfl := Option.some.inj (hfunction.symm.trans hbefore)
  have hbegins : after.first = some first := hcarried.first.trans hfirst
  have hrun : after.instructions t.program.chain = function.instructions s.program.chain := by
    rw [hcarried.instructions, h.chain.instructions, h.grows.evolves.instructions]
  have hsize := h.size owner function after hfunction hafter
  have hextent := h.extent_eq function hl
  rw [measured_iff, hrun]
  constructor
  · intro hmeasured
    obtain ⟨⟨c, hc, haddr⟩, hpresent, hsum⟩ := hmeasured first hbegins
    refine ⟨fun x hx => ?_, by rw [← hsize, hsum, hextent], fun first' a hfirst' ha => ?_⟩
    · obtain ⟨c, hc⟩ := hpresent x hx
      exact h.get?_of hc
    · obtain rfl := Option.some.inj (hfirst.symm.trans hfirst')
      exact (h.addr_eq_iff hfunction hafter hfirst hbegins ha hc).mp haddr
  · intro hanticipates first' hfirst'
    obtain rfl := Option.some.inj (hbegins.symm.trans hfirst')
    have hmem : first ∈ function.instructions s.program.chain := by
      rw [Function.instructions, hfirst]
      exact Chain.first_mem_run first _
    obtain ⟨a, ha⟩ := hanticipates.present first hmem
    obtain ⟨c, hc, -⟩ := h.get? ha
    have haddr := (h.addr_eq_iff hfunction hafter hfirst hbegins ha hc).mpr
      (hanticipates.place first a hfirst ha)
    refine ⟨⟨c, hc, haddr⟩, fun x hx => ?_, by rw [hsize, hanticipates.size, hextent]⟩
    obtain ⟨b, hb⟩ := hanticipates.present x hx
    obtain ⟨d, hd, -⟩ := h.get? hb
    exact ⟨d, hd⟩

/-- Of a function that passed its check nothing has to be anticipated but that its own code is what
grows. -/
theorem anticipates_iff_of_checked
    (hcheck : Program.verifyFunction s.program.chain owner function = .ok ())
    (hfirst : function.first = some first) (hlast : function.last = some last) :
    s.program.Anticipates id found delta owner function
      ↔ (if found.func = some owner then delta else 0)
        = if id ∈ function.instructions s.program.chain then delta else 0 := by
  obtain ⟨howners, -, ⟨instr, hinstr, haddr⟩, hsum⟩ :=
    Program.verifyFunction_ok.mp hcheck first last hfirst hlast
  have hmem : first ∈ function.instructions s.program.chain := by
    rw [Function.instructions, hfirst]
    exact Chain.first_mem_run first _
  have howner : instr.func = some owner := by
    obtain ⟨instr', hinstr', howner⟩ := howners first hmem
    obtain rfl := Option.some.inj (hinstr.symm.trans hinstr')
    exact howner
  constructor
  · intro h
    have hsize := h.size
    rwa [hsum, UInt64.add_right_inj] at hsize
  · intro h
    refine ⟨fun x hx => ?_, by rw [h, hsum], fun first' found' hfirst' hfound' => ?_⟩
    · obtain ⟨instr, hinstr, -⟩ := howners x hx
      exact ⟨instr, hinstr⟩
    · obtain rfl := Option.some.inj (hfirst.symm.trans hfirst')
      obtain rfl := Option.some.inj (hinstr.symm.trans hfound')
      -- its first instruction is its own, so it moves along if there is anything to move
      by_cases hmoves : delta ≠ 0 ∧ first ∈ s.program.chain.piece id found
      · exact .inl ⟨hmoves.1, hmoves.2, howner⟩
      · refine .inr ?_
        rw [haddr]
        by_cases hdelta : delta = 0
        · rw [hdelta, ite_self, UInt64.add_zero]
        · rw [if_neg fun hx => hmoves ⟨hdelta, hx⟩, UInt64.add_zero]

/-- After a shift a function is what a layout makes of it if the instruction that grew counts for it, and
if it anticipated the growth where it was not checked. -/
theorem Shifted.sized_iff (hl : s.program.chain.Spells l) (h : Shifted s m t id found delta)
    (hchecked : s.program.verifyFunctions = .ok ()) (hfound : s.program.chain.get? id = some found)
    (hfunction : s.program.functions.get? owner = some function)
    (hafter : t.program.functions.get? owner = some after) :
    measured t.program.chain after = .ok after ∧ (function.first = none → after.range = function.range)
      ↔ (function.isDefined = true → function.last = none →
          s.program.Anticipates id found delta owner function)
        ∧ (delta = 0 ∨ (found.func = some owner → function.isDefined = true ∧ function.last = none
          ∨ id ∈ function.instructions s.program.chain)) := by
  cases hfirst : function.first with
  | none =>
    have hempty := hfirst ▸ h.sized_iff_of_empty hfunction hafter hfirst
    have hundefined : function.isDefined = false := by rw [Function.isDefined, hfirst, Option.isSome_none]
    simpa only [hundefined, Bool.false_eq_true, false_imp_iff, true_and] using hempty
  | some first =>
    have hdefined : function.isDefined = true := by rw [Function.isDefined, hfirst, Option.isSome_some]
    rw [h.measured_iff_anticipates hl hfunction hafter hfirst]
    cases hlast : function.last with
    | none => simp [hdefined]
    | some last =>
      have hcheck := Program.verifyFunctions_ok.mp hchecked owner function hfunction
      have hstamped : id ∈ function.instructions s.program.chain → found.func = some owner := by
        intro hid
        obtain ⟨howners, -⟩ := Program.verifyFunction_ok.mp hcheck first last hfirst hlast
        obtain ⟨instr, hinstr, howner⟩ := howners id hid
        rw [Option.some.inj (hfound.symm.trans hinstr)]
        exact howner
      rw [anticipates_iff_of_checked hcheck hfirst hlast]
      by_cases hid : id ∈ function.instructions s.program.chain
      · simp [hid, hstamped hid]
      · by_cases howner : found.func = some owner
        · simp [hid, howner]
        · simp [hid, howner]

end EngineM

/-! ## Shift and layout -/

/-- What a shift behind an instruction that grew relies on: the section of the instruction goes on behind
it in one piece, and the instruction is in the run of the function that grows. -/
structure Program.Shiftable (program : Program) (id : InstrId) (instr : Instruction) : Prop where
  leading : ∀ xs ys, program.chain.ids = xs ++ id :: ys → program.chain.Leading instr.sec ys
  counts : program.Counts id instr

/-- After an instruction was given other bytes, a shift that widens no jump comes to the same as a layout
exactly if there is nothing to move or all of it is reached. Functions that have a first instruction
and no last one, which the checks pass over, have to anticipate the growth, so that they are what
measuring makes of them afterwards. All of it is asked of the program before the shift. -/
theorem shiftAddresses_agrees_iff {s t : Session} {id : InstrId} {found : Instruction}
    {bytes : List UInt8} {opcodeSize : UInt8} {summary : UpdateSummary}
    (hwf : s.program.chain.WellFormed) (haddresses : s.program.verifyAddresses = .ok ())
    (hfunctions : s.program.verifyFunctions = .ok ()) (hlinked : id ∈ s.program.chain.ids)
    (hfound : s.program.chain.get? id = some found)
    (h : EngineM.shiftAddresses id (found.growthTo bytes) (s.recoded id bytes opcodeSize) = .ok summary t)
    (hpromoted : summary.promoted = 0) :
    (∃ summary u, EngineM.updateAddresses (s.recoded id bytes opcodeSize) = .ok summary u ∧ t.SamePlaces u)
      ↔ (found.growthTo bytes = 0 ∨ s.program.Shiftable id found)
        ∧ ∀ owner function, s.program.functions.get? owner = some function → function.isDefined = true →
          function.last = none →
          s.program.Anticipates id found (found.growthTo bytes).toUInt64 owner function := by
  obtain ⟨xs, ys, hsplit⟩ := List.append_of_mem hlinked
  have hl : s.program.chain.Spells (xs ++ id :: ys) := hsplit ▸ hwf.spells
  have hlaid : s.program.LaidOut (xs ++ id :: ys) := hsplit ▸ Program.verifyAddresses_ok.mp haddresses
  have hshifted := EngineM.shiftAddresses_shifted hl hfound h hpromoted
  have hzero : (found.growthTo bytes).toUInt64 = 0 ↔ found.growthTo bytes = 0 :=
    EngineM.toUInt64_eq_zero_iff _
  have hrelocates : EngineM.Relocates (s.recoded id bytes opcodeSize) t (xs ++ id :: ys) :=
    ⟨hshifted.chain.mono fun x a b hab => ⟨hab.1, hab.2.1, hshifted.moved hl hab.2.2.2⟩,
      hshifted.functions, hshifted.bases, hshifted.follows⟩
  have hplaces := EngineM.laidOut_shifted_iff hl hlaid hfound hshifted.grows
    (hshifted.chain.mono fun x a b hab => ⟨hab.1, hab.2.1, by rw [← hl.piece_eq]; exact hab.2.2.2⟩)
    hshifted.bases
  -- the functions one by one
  have hsized := fun (owner : FuncId) (function after : Function)
      (hfunction : s.program.functions.get? owner = some function)
      (hafter : t.program.functions.get? owner = some after) =>
    hshifted.sized_iff hl hfunctions hfound hfunction hafter
  rw [hrelocates.agrees_iff (hl.adjust _), hplaces, hzero]
  simp only [hzero] at hsized
  constructor
  · intro hagrees
    obtain ⟨hreached, hmeasured⟩ := hagrees
    have hall := fun owner function after hfunction hafter =>
      (hsized owner function after hfunction hafter).mp (hmeasured owner function after hfunction hafter)
    refine ⟨?_, fun owner function hfunction => ?_⟩
    · by_cases hdelta : found.growthTo bytes = 0
      · exact .inl hdelta
      · refine .inr ⟨fun us vs hcut => ?_, fun owner function howner hfunction => ?_⟩
        · obtain ⟨-, rfl⟩ := cut_inj hl.nodup (hsplit.symm.trans hcut)
          exact hreached.resolve_left hdelta
        · obtain ⟨after, hafter, -⟩ := hshifted.functions.get? hfunction
          exact (hall owner function after hfunction hafter).2.resolve_left hdelta howner
    · obtain ⟨after, hafter, -⟩ := hshifted.functions.get? hfunction
      exact (hall owner function after hfunction hafter).1
  · intro hagrees
    obtain ⟨hreached, hunended⟩ := hagrees
    refine ⟨hreached.imp_right fun hs => hs.leading xs ys hsplit, fun owner function after hfunction hafter =>
      (hsized owner function after hfunction hafter).mpr
        ⟨hunended owner function hfunction, hreached.imp_right fun hs howner => ?_⟩⟩
    exact hs.counts owner function howner hfunction

/-- One byte more in the instruction that the jump leads over. -/
theorem shiftAddresses_agrees_hop : ∃ found t,
    hop.program.chain.WellFormed ∧ hop.program.verifyAddresses = .ok ()
      ∧ hop.program.verifyFunctions = .ok () ∧ ⟨1⟩ ∈ hop.program.chain.ids
      ∧ hop.program.chain.get? ⟨1⟩ = some found
      ∧ EngineM.shiftAddresses ⟨1⟩ (found.growthTo [0x90, 0x90]) (hop.recoded ⟨1⟩ [0x90, 0x90] 1)
        = .ok ⟨1, 1, 0, 1⟩ t
      ∧ found.growthTo [0x90, 0x90] = 1
      ∧ ∃ summary u, EngineM.updateAddresses (hop.recoded ⟨1⟩ [0x90, 0x90] 1) = .ok summary u
        ∧ t.SamePlaces u := by
  have hrun : Returns (EngineM.shiftAddresses ⟨1⟩ 1) (hop.recoded ⟨1⟩ [0x90, 0x90] 1) ⟨1, 1, 0, 1⟩ = true := by
    decide +kernel
  have h := Returns.ok hrun
  have hended : ∀ entry ∈ hop.program.functions.entries, entry.2.last ≠ none := by decide
  have hmem : ⟨1⟩ ∈ hop.program.chain.ids := by decide
  have hshiftable : ∀ found, hop.program.chain.get? ⟨1⟩ = some found →
      hop.program.Shiftable ⟨1⟩ found := by
    intro found hfound
    refine ⟨fun xs ys hsplit => ?_, fun owner function howner hfunction => .inr ?_⟩
    · exact (hsplit ▸ hop_regular.consecutive).leading ((Chain.inSection_iff hfound).mpr rfl)
    · obtain ⟨function', hfunction', hrun⟩ := (hop_regular.stamped ⟨1⟩ hmem found owner hfound).mp howner
      rw [Option.some.inj (hfunction.symm.trans hfunction')]
      exact hrun
  refine ⟨_, _, hop_wellFormed, hop_regular.addresses, hop_regular.functions, hmem, rfl, h, rfl, ?_⟩
  refine (shiftAddresses_agrees_iff hop_wellFormed hop_regular.addresses hop_regular.functions hmem rfl h
    rfl).mpr ⟨.inr (hshiftable _ rfl), fun owner function hfunction _ hlast => ?_⟩
  exact absurd hlast (hended (owner, function) (FunctionTable.mem_entries.mpr hfunction))

/-- Three functions of one instruction each, of which the second lies in another section than the first
and the third. -/
def woven : Session where
  program :=
    { hop.program with
      chain := .ofList
        [{ Instruction.decoded 0 [0x90] 1 .nop with sec := 1, func := some ⟨0⟩ },
          { Instruction.decoded 0 [0x90] 1 .nop with sec := 2, func := some ⟨1⟩ },
          { Instruction.decoded 1 [0x90] 1 .nop with sec := 1, func := some ⟨2⟩ }]
      functions := ⟨#[{ Function.declared "f" 1 (some (⟨0⟩, ⟨0⟩)) 0 with size := 1 },
        { Function.declared "g" 2 (some (⟨1⟩, ⟨1⟩)) 0 with size := 1 },
        { Function.declared "h" 1 (some (⟨2⟩, ⟨2⟩)) 1 with size := 1 }]⟩
      bases := [(1, 0), (2, 0)] }
  recorder := .empty

/-- A shift behind the first instruction stops at the second and leaves the third where it was. -/
theorem woven_left_behind : ∃ found t,
    woven.program.chain.WellFormed ∧ woven.program.verifyAddresses = .ok ()
      ∧ woven.program.verifyFunctions = .ok () ∧ woven.program.verifyDisplacements = .ok ()
      ∧ ⟨0⟩ ∈ woven.program.chain.ids ∧ woven.program.chain.get? ⟨0⟩ = some found
      ∧ found.func = some ⟨0⟩ ∧ found.growthTo [0x90, 0x90] = 1
      ∧ EngineM.shiftAddresses ⟨0⟩ 1 (woven.recoded ⟨0⟩ [0x90, 0x90] 1) = .ok ⟨0, 0, 0, 1⟩ t
      ∧ t.program.verifyAddresses ≠ .ok ()
      ∧ ¬ ∃ summary u, EngineM.updateAddresses (woven.recoded ⟨0⟩ [0x90, 0x90] 1) = .ok summary u
        ∧ t.SamePlaces u := by
  have hrun : Returns (EngineM.shiftAddresses ⟨0⟩ 1) (woven.recoded ⟨0⟩ [0x90, 0x90] 1) ⟨0, 0, 0, 1⟩ = true := by
    decide +kernel
  have hshifted : ((outcome (EngineM.shiftAddresses ⟨0⟩ 1)
      (woven.recoded ⟨0⟩ [0x90, 0x90] 1)).program.chain.get? ⟨2⟩).map (·.addr) = some 1 := by
    decide +kernel
  have hlaid : ((outcome EngineM.updateAddresses
      (woven.recoded ⟨0⟩ [0x90, 0x90] 1)).program.chain.get? ⟨2⟩).map (·.addr) = some 2 := by
    decide +kernel
  have hrefused : (outcome (EngineM.shiftAddresses ⟨0⟩ 1)
      (woven.recoded ⟨0⟩ [0x90, 0x90] 1)).program.verifyAddresses.isOk = false := by
    decide +kernel
  refine ⟨_, _, (Chain.spells_ofList _).wellFormed, isOk_iff.mp (by decide +kernel),
    isOk_iff.mp (by decide +kernel), isOk_iff.mp (by decide +kernel), by decide, rfl, rfl, rfl,
    Returns.ok hrun, fun hok => ?_, fun hagrees => ?_⟩
  · rw [hok] at hrefused
    cases hrefused
  · obtain ⟨summary, u, hu, hsame⟩ := hagrees
    have haddr := hsame.addr ⟨2⟩
    rw [hshifted, ← outcome_ok hu, hlaid] at haddr
    cases haddr

end Splice
