import Splice.Proofs.Program.Inserting

/-!
# Functions around code that is put in

A function is where its first instruction is as soon as that has moved, and until then it is
where it was said to be; and it grows by what is put into it and by what is widened in it,
whatever its size was said to be. So what an insertion makes of the functions is known from
where their first instructions begin, and from the bytes of the instructions that are
stamped with them, before and after it (`insert_bounds`).

An instruction that a shift moves has code in front of it that was not there at first, and that
stays (`Starts`). Hence whether it has moved can be told from where it begins in the end.

`Starts` and `Program.Bounds` are the two halves. The first is an invariant of settling: a
function is where it was, or it has moved with its first instruction. The second composes over
edits: the function that began at one instruction begins at what stands there afterwards. They
are used to show that two insertions leave functions at the same addresses in either order
(`Splice.Proofs.Program.Commuting`).
-/

namespace Splice

/-- The address of a function. -/
def FunctionTable.addr? (table : FunctionTable) (id : FuncId) : Option UInt64 :=
  (table.get? id).map (·.addr)

namespace Chain

variable {chain after : Chain} {owner : FuncId} {id : InstrId} {instr : Instruction}

/-- The instruction is stamped with the function. -/
def stamps (chain : Chain) (owner : FuncId) (id : InstrId) : Bool :=
  (chain.get? id).any fun instr => instr.func == some owner

theorem stamps_iff (h : chain.get? id = some instr) : chain.stamps owner id = true ↔ instr.func = some owner := by
  rw [stamps, h, Option.any_some, beq_iff_eq]

theorem stamps_eq_true : chain.stamps owner id = true
    ↔ ∃ instr, chain.get? id = some instr ∧ instr.func = some owner := by
  rw [stamps, Option.any_eq_true]
  simp only [beq_iff_eq]

/-- A step that leaves functions and order alone leaves who is stamped with what. -/
theorem Evolves.stamps {r : InstrId → Instruction → Instruction → Prop} (h : chain.Evolves r after)
    (hr : ∀ id a b, r id a b → b.func = a.func) : after.stamps owner = chain.stamps owner := by
  funext id
  rw [Chain.stamps, Chain.stamps]
  cases hget : chain.get? id with
  | none => rw [h.get?_eq_none hget]
  | some instr =>
    obtain ⟨instr', hinstr', hrel⟩ := h.get? hget
    rw [hinstr', Option.any_some, Option.any_some, hr id instr instr' hrel]

end Chain

namespace Program

variable {program : Program} {owner : FuncId} {id x : InstrId}

/-! ## Offsets -/

/-- Offsets depend on sections and order, which the step leaves. -/
theorem offsetIn_evolve {after : Program} {r : InstrId → Instruction → Instruction → Prop} {sec : SectionId}
    {length : InstrId → Nat} (h : program.chain.Evolves r after.chain)
    (hr : ∀ id a b, r id a b → b.sec = a.sec) :
    after.offsetIn sec length id = program.offsetIn sec length id := by
  rw [offsetIn, offsetIn, h.ids, bytesIn, bytesIn]
  congr 1
  refine List.map_congr_left fun x _ => ?_
  rw [h.inSection hr]

/-- What grows puts off what lies behind it. -/
theorem offsetIn_lt {xs ys zs : List InstrId} {sec : SectionId} {length further : InstrId → Nat}
    (hl : program.chain.Spells (xs ++ x :: ys ++ id :: zs)) (hsec : program.chain.inSection sec x = true)
    (hle : ∀ x, length x ≤ further x) (hlt : length x < further x) :
    program.offsetIn sec length id < program.offsetIn sec further id := by
  have hfront : program.bytesIn sec length xs ≤ program.bytesIn sec further xs := bytesIn_mono fun x _ => hle x
  have hbetween : program.bytesIn sec length ys ≤ program.bytesIn sec further ys := bytesIn_mono fun x _ => hle x
  rw [offsetIn_eq hl, offsetIn_eq hl, bytesIn_append, bytesIn_append, bytesIn_cons hsec, bytesIn_cons hsec]
  omega

theorem offsetIn_mono {sec : SectionId} {length further : InstrId → Nat}
    (hle : ∀ x, length x ≤ further x) : program.offsetIn sec length id ≤ program.offsetIn sec further id :=
  bytesIn_mono fun x _ => hle x

/-- What is in front of an instruction in its section is part of the section. -/
theorem offsetIn_le {l : List InstrId} {sec : SectionId} (length : InstrId → Nat)
    (hl : program.chain.Spells l) (hid : id ∈ l) :
    program.offsetIn sec length id ≤ program.bytesIn sec length l := by
  obtain ⟨xs, ys, rfl⟩ := List.append_of_mem hid
  rw [offsetIn_eq hl, bytesIn_append]
  exact Nat.le_add_right _ _

/-- No instruction is longer than in a program to which this one evolves. -/
theorem lengths_mono {after : Program} {r : InstrId → Instruction → Instruction → Prop}
    (h : program.chain.Evolves r after.chain) (hr : ∀ id a b, r id a b → a.bytes.length ≤ b.bytes.length)
    (id : InstrId) : program.lengths id ≤ after.lengths id := by
  cases hget : program.chain.get? id with
  | none =>
    rw [lengths, hget]
    exact Nat.zero_le _
  | some a =>
    obtain ⟨b, hb, hab⟩ := h.get? hget
    rw [lengths_eq hget, lengths_eq hb]
    exact hr id a b hab

/-! ## Functions -/

/-- The function begins at the instruction, which is its own. -/
def BeginsAt (program : Program) (owner : FuncId) (id : InstrId) : Prop :=
  program.chain.stamps owner id = true
    ∧ ∃ function, program.functions.get? owner = some function ∧ function.first = some id

/-- A function begins at one instruction only. -/
theorem BeginsAt.unique (h : program.BeginsAt owner id) (k : program.BeginsAt owner x) : x = id := by
  obtain ⟨-, function, hfunction, hfirst⟩ := h
  obtain ⟨-, function', hfunction', hfirst'⟩ := k
  obtain rfl := Option.some.inj (hfunction.symm.trans hfunction')
  exact Option.some.inj (hfirst'.symm.trans hfirst)

/-- The number of bytes of the instructions that are stamped with the function. -/
def held (program : Program) (owner : FuncId) : UInt64 :=
  (program.chain.ids.map fun id =>
    if program.chain.stamps owner id then program.chain.sizeOf id else 0).sum

/-- By how much the function is greater than what is stamped with it. -/
def slack? (program : Program) (owner : FuncId) : Option UInt64 :=
  (program.functions.size? owner).map (· - program.held owner)

variable {after : Program} {jumper : InstrId} {source : Instruction} {amount : UInt64}

/-- A function holds as many bytes as before if its instructions keep their sizes. -/
theorem held_evolve {r : InstrId → Instruction → Instruction → Prop}
    (h : program.chain.Evolves r after.chain) (hr : ∀ id a b, r id a b → b.func = a.func ∧ b.size = a.size) :
    after.held owner = program.held owner := by
  have hsizes : after.chain.sizeOf = program.chain.sizeOf := funext fun x =>
    (h.retains fun _ => True).sizeOf (fun x a b hab => (hr x a b hab).2) trivial
  rw [held, held, h.ids, hsizes, h.stamps fun x a b hab => (hr x a b hab).1]

/-- A jump that grows adds its growth to the function that it is stamped with, and to no other. -/
theorem held_grow (h : Grows program.chain after.chain jumper amount)
    (hl : program.chain.Spells program.chain.ids) (hjumper : jumper ∈ program.chain.ids)
    (hsource : program.chain.get? jumper = some source) :
    after.held owner = program.held owner + if source.func = some owner then amount else 0 := by
  have hsum : (program.chain.ids.map fun id =>
        if program.chain.stamps owner id then after.chain.sizeOf id else 0).sum
      = program.held owner + if jumper ∈ program.chain.ids then
          if source.func = some owner then amount else 0 else 0 := by
    refine sum_grow (fun id hid => ?_) ?_ hl.nodup
    · simp only [h.other id hid]
    · simp only [Chain.stamps_iff hsource, h.self]
      split
      · rfl
      · rfl
  rw [held, h.evolves.ids, h.evolves.stamps fun _ _ _ hab => hab.2.2, hsum, if_pos hjumper]

end Program

namespace EngineM

variable {s t : Session} {l : List InstrId} {owner : FuncId} {id jumper : InstrId} {shift : Shift}
  {progress done : Progress} {moved : List InstrId}

/-- Moving code leaves where functions begin. -/
theorem begins_iff (h : Session.Carries s t) (x : InstrId) :
    t.program.BeginsAt owner x ↔ s.program.BeginsAt owner x := by
  rw [Program.BeginsAt, Program.BeginsAt, h.chain.stamps fun _ _ _ hab => hab.func]
  refine and_congr_right fun _ => ?_
  have hrel := h.functions owner
  generalize s.program.functions.get? owner = before at hrel
  generalize t.program.functions.get? owner = behind at hrel
  cases hrel with
  | none => rfl
  | some hcarried => simp only [Option.some.injEq, exists_eq_left', hcarried.first]

/-! ## Sizes -/

/-- Whatever a function was said to have in excess of its instructions, settling leaves it so, as long
as what it owes is counted. -/
theorem slack_invariant (owner : FuncId) (slack : Option UInt64) : SettleInvariant fun s pending =>
    s.program.chain.Spells l
      ∧ (s.program.functions.size? owner).map (· + owedBy pending owner - s.program.held owner) = slack where
  carried := by
    intro s t shift pending moved h hs
    obtain ⟨hl, hslack⟩ := hs
    have happlied := applyShift_applied hl h
    have hevolves := happlied.evolves
    have hheld : t.program.held owner = s.program.held owner := by
      refine Program.held_evolve hevolves fun x a b hb => ?_
      rw [hb]
      split <;> exact ⟨rfl, rfl⟩
    refine ⟨hevolves.spells hl, ?_⟩
    rw [← hslack, hheld, happlied.size]
    simp only [owedBy, List.map_cons, List.sum_cons]
    -- what the shift adds to the size is what it owed before
    split
    · rw [Option.map_map]
      congr 1
      funext size
      rw [Function.comp_apply]
      grind
    · rw [UInt64.zero_add]
  jumper := by
    intro s t jumper progress done h hs
    obtain ⟨hl, hslack⟩ := hs
    refine ⟨(Session.Carries.updateRelation.settleLinked h).chain.spells hl, ?_⟩
    rcases settleLinked_ok hl h with ⟨hjumper, hrun⟩ | ⟨-, rfl, rfl⟩
    · cases hrun with
      | skipped => exact hslack
      | written run =>
        obtain ⟨hchain, hfunctions, -⟩ := run.keepsLayout
        rw [Program.held_evolve hchain fun _ _ _ hab => ⟨hab.2.2.2, hab.2.1⟩, hfunctions]
        exact hslack
      -- widened lands|the instruction is longer by what the new shift owes
      | widened lands =>
        rename_i source physical field long hsec hfield hfits hshort hlong
        have hgrows : Program.Grows s.program.chain
            (s.withChain (s.program.chain.adjust (Chain.only jumper (.widened long)))).program.chain jumper
              (growth source long).toUInt64 :=
          Program.grows_adjust lands.get (fun _ => ⟨rfl, rfl, rfl⟩) (size_widened source long)
        rw [← hslack, Program.held_grow hgrows (hl.ids_eq.symm ▸ hl) (hl.ids_eq.symm ▸ hjumper) lands.get]
        simp only [owedBy, List.map_append, List.sum_append, List.map_singleton, List.sum_singleton]
        show (s.program.functions.size? owner).map _ = _
        congr 1
        funext size
        show size + (_ + if source.func = some owner then (growth source long).toUInt64 else 0) - _ = _
        grind
    · exact hslack
  same h hs := h ▸ hs

/-- Settling changes the size of a function by what it changes in it. -/
theorem settle_slack {summary : UpdateSummary} (hl : s.program.chain.Spells l)
    (h : settle shift s = .ok summary t) : t.program.slack? owner
      = (s.program.functions.size? owner).map (· + owedBy [shift] owner - s.program.held owner) := by
  have hend := ((slack_invariant owner _).settled h ⟨hl, rfl⟩).2
  rw [← hend, Program.slack?]
  congr 1
  funext size
  show _ = size + 0 - _
  rw [UInt64.add_zero]

/-! ## Addresses -/

/-- A function is moved along with its first instruction only. -/
theorem shiftInstruction_addr {delta : Int64} {u : Unit} (h : shiftInstruction id delta s = .ok u t)
    (hfirst : ¬ s.program.BeginsAt owner id) :
    t.program.functions.addr? owner = s.program.functions.addr? owner := by
  obtain ⟨found, hfound, hsame⟩ := shiftInstruction_ok h
  rw [hsame.functions, FunctionTable.addr?, get?_withOwner]
  by_cases howner : found.func = some owner
  · rw [if_pos howner, Option.map_map]
    refine Option.map_congr fun function hfunction => ?_
    have hother : function.first ≠ some id := fun he =>
      hfirst ⟨(Chain.stamps_iff hfound).mpr howner, function, hfunction, he⟩
    rw [Function.comp_apply, Function.startingAt, if_neg hother]
  · rw [if_neg howner]
    rfl

/-- Shifting instructions none of which begins the function leaves its address. -/
theorem shiftAll_addr {delta : Int64} {u : Unit} {ids : List InstrId}
    (h : ids.forM (fun id => shiftInstruction id delta) s = .ok u t)
    (hids : ∀ id ∈ ids, ¬ s.program.BeginsAt owner id) :
    t.program.functions.addr? owner = s.program.functions.addr? owner := by
  induction ids generalizing s with
  | nil =>
    rw [forM_nil_ok] at h
    rw [h]
  | cons id ids ih =>
    obtain ⟨m, hfirst, hrest⟩ := forM_cons_ok.mp h
    have hcarries := Session.Carries.updateRelation.shiftInstruction hfirst
    rw [ih hrest fun x hx => mt (begins_iff hcarries x).mp (hids x (List.mem_cons_of_mem _ hx)),
      shiftInstruction_addr hfirst (hids id (List.mem_cons_self ..))]

/-- A shift that does not move the first instruction of a function leaves the function where it is. -/
theorem applyShift_addr (h : applyShift shift s = .ok moved t)
    (hstill : shift.delta ≠ 0 → ∀ id ∈ s.program.chain.reach shift, ¬ s.program.BeginsAt owner id) :
    t.program.functions.addr? owner = s.program.functions.addr? owner := by
  simp only [applyShift, bind_ok] at h
  obtain ⟨_, m, howner, h⟩ := h
  obtain rfl := updateOwner_ok howner
  have hgrown : (withOwner s shift.func fun function =>
      { function with size := function.size + shift.delta.toUInt64 }).program.functions.addr? owner
        = s.program.functions.addr? owner := by
    rw [FunctionTable.addr?, get?_withOwner]
    split
    · rw [Option.map_map]
      rfl
    · rfl
  by_cases hzero : shift.delta = 0
  · rw [if_pos hzero, pure_ok] at h
    rw [← h.2, hgrown]
  · rw [if_neg hzero] at h
    simp only [bind_ok, program_ok, pure_ok] at h
    obtain ⟨_, _, ⟨rfl, rfl⟩, _, t, hmoves, -, rfl⟩ := h
    rw [← hgrown]
    refine shiftAll_addr hmoves fun id hid => ?_
    have hcarries : Session.Carries s (withOwner s shift.func fun function =>
        { function with size := function.size + shift.delta.toUInt64 }) :=
      carries_withOwner fun _ => ⟨rfl, rfl, rfl, rfl⟩
    rw [begins_iff hcarries]
    rw [chain_withOwner] at hid
    exact hstill hzero id hid

/-- A function is where it was, or where its first instruction is now, which has more code in front of it
then than there was at the `start`. -/
structure Starts (l : List InstrId) (owner : FuncId) (first : InstrId) (sec : SectionId) (start : Nat)
    (addr : Option UInt64) (was : UInt64) (program : Program) (pending : List Shift) : Prop where
  gapless : program.Gapless l
  begins : program.BeginsAt owner first
  within : program.chain.inSection sec first = true
  place : program.functions.addr? owner = addr ∧ program.chain.addrOf first = was
    ∨ program.functions.addr? owner = some (program.chain.addrOf first)
      ∧ start < program.offsetIn sec program.lengths first
  le : start ≤ program.offsetIn sec program.lengths first
  /-- Whatever is going to move the instruction makes room for code in front of it. -/
  moved : ∀ shift ∈ pending, first ∈ program.chain.reach shift →
    start < program.offsetIn sec program.lengths first

variable {first : InstrId} {sec : SectionId} {start : Nat} {addr : Option UInt64} {was : UInt64}
  {pending : List Shift}

/-- A shift carried out leaves the function where it began or moves it by what came in front of it:
`Starts` passes from the shifts with this one to those without it. -/
theorem Starts.carried (hs : Starts l owner first sec start addr was s.program (shift :: pending))
    (h : applyShift shift s = .ok moved t) : Starts l owner first sec start addr was t.program pending := by
  have happlied := applyShift_applied hs.gapless.spells h
  have hcarries := happlied.carries
  have hevolves := happlied.evolves
  have hlike : ∀ x (a b : Instruction),
      (b = if x ∈ s.program.chain.reach shift then a.shifted shift.delta else a) →
        b.sec = a.sec ∧ b.bytes = a.bytes := by
    intro x a b hb
    rw [hb]
    split <;> exact ⟨rfl, rfl⟩
  have hoffset : s.program.offsetIn sec s.program.lengths first
      ≤ t.program.offsetIn sec t.program.lengths first := by
    rw [Program.offsetIn_evolve hevolves fun x a b hb => (hlike x a b hb).1]
    exact Program.offsetIn_mono (Program.lengths_mono hevolves fun x a b hb =>
      Nat.le_of_eq (congrArg List.length (hlike x a b hb).2).symm)
  have hbegins := (begins_iff hcarries first).mpr hs.begins
  refine ⟨hs.gapless.carry hcarries, hbegins, ?_, ?_, Nat.le_trans hs.le hoffset, fun other hother hreach => ?_⟩
  · rw [hevolves.inSection fun x a b hb => (hlike x a b hb).1]
    exact hs.within
  -- the function is moved along with its first instruction, or neither of them is
  · by_cases hmoves : shift.delta ≠ 0 ∧ first ∈ s.program.chain.reach shift
    · obtain ⟨hdelta, hreach⟩ := hmoves
      obtain ⟨-, function, hfunction, hfirst⟩ := hs.begins
      have hanchored := happlied.anchored owner (.inr ⟨hdelta, function, first, hfunction, hfirst, hreach⟩)
      obtain ⟨hstamped, function', hfunction', hfirst'⟩ := hbegins
      obtain ⟨instr, hinstr, howner⟩ := Chain.stamps_eq_true.mp hstamped
      right
      refine ⟨?_, Nat.lt_of_lt_of_le (hs.moved shift (List.mem_cons_self ..) hreach) hoffset⟩
      rw [FunctionTable.addr?, hfunction', Option.map_some, Chain.addrOf_eq hinstr,
        hanchored function' first instr hfunction' hfirst' hinstr howner]
    · have haddr : t.program.functions.addr? owner = s.program.functions.addr? owner := by
        refine applyShift_addr h fun hdelta id hid hid' => hmoves ⟨hdelta, ?_⟩
        rwa [hs.begins.unique hid'] at hid
      have hsame : t.program.chain.addrOf first = s.program.chain.addrOf first := by
        rw [Chain.addrOf, Chain.addrOf, happlied.chain, Chain.get?_adjust, Option.map_map]
        congr 2
        funext instr
        rw [Function.comp_apply]
        split
        next hreach =>
          have hzero : shift.delta = 0 := Decidable.byContradiction fun hdelta => hmoves ⟨hdelta, hreach⟩
          rw [hzero, Instruction.shifted_zero]
        next => rfl
      rw [haddr, hsame]
      exact hs.place.imp_right fun hplace => ⟨hplace.1, Nat.lt_of_lt_of_le hplace.2 hoffset⟩
  · rw [hevolves.reach fun x a b hb => (hlike x a b hb).1] at hreach
    exact Nat.lt_of_lt_of_le (hs.moved other (List.mem_cons_of_mem _ hother) hreach) hoffset

/-- Writing a displacement widens at most one jump, and the shift for it is put behind those pending, so
the code in front of the function has grown by what `Starts` then allows for. -/
theorem Starts.settleLinked (hs : Starts l owner first sec start addr was s.program progress.2)
    (h : settleLinked progress jumper s = .ok done t) :
    Starts l owner first sec start addr was t.program done.2 := by
  have hcarries := Session.Carries.updateRelation.settleLinked h
  rcases settleLinked_ok hs.gapless.spells h with ⟨hjumper, hrun⟩ | ⟨-, rfl, rfl⟩
  · have hsettles := hrun.settles
    have hlonger := Program.lengths_mono hsettles.chain fun x a b hab => hab.2.2.1.length_le
    have hoffset : s.program.offsetIn sec s.program.lengths first
        ≤ t.program.offsetIn sec t.program.lengths first := by
      rw [Program.offsetIn_evolve hsettles.chain fun x a b hab => hab.1.sec]
      exact Program.offsetIn_mono hlonger
    have haddr : t.program.chain.addrOf first = s.program.chain.addrOf first := by
      obtain ⟨instr, hinstr, -⟩ := Chain.stamps_eq_true.mp hs.begins.1
      obtain ⟨instr', hinstr', -, hsame, -⟩ := hsettles.chain.get? hinstr
      rw [Chain.addrOf_eq hinstr, Chain.addrOf_eq hinstr', hsame]
    have hreach := hsettles.chain.reach fun x a b hab => hab.1.sec
    have hmoved : ∀ shift ∈ progress.2, first ∈ t.program.chain.reach shift →
        start < t.program.offsetIn sec t.program.lengths first := by
      intro shift hshift hin
      rw [hreach] at hin
      exact Nat.lt_of_lt_of_le (hs.moved shift hshift hin) hoffset
    refine ⟨hs.gapless.carry hcarries, (begins_iff hcarries first).mpr hs.begins, ?_, ?_,
      Nat.le_trans hs.le hoffset, ?_⟩
    · rw [hsettles.chain.inSection fun x a b hab => hab.1.sec]
      exact hs.within
    · rw [hsettles.functions, haddr]
      exact hs.place.imp_right fun hplace => ⟨hplace.1, Nat.lt_of_lt_of_le hplace.2 hoffset⟩
    · cases hrun with
      | skipped => exact hmoved
      | written => exact hmoved
      | widened lands =>
        rename_i source physical field long hsec hfield hfits hshort hlong
        intro shift hshift hin
        rcases List.mem_append.mp hshift with hshift | hshift
        · exact hmoved shift hshift hin
        · rw [List.mem_singleton] at hshift
          subst hshift
          rw [hreach] at hin
          -- the jump lies in front of the instruction, in its section
          obtain ⟨xs, ys, rfl⟩ := List.append_of_mem hjumper
          have hl := hs.gapless.spells
          have hspells : s.program.chain.Spells (xs ++ [jumper] ++ ys) := by simpa using hl
          have hleading : s.program.chain.Leading source.sec ys :=
            hs.gapless.consecutive.leading ((Chain.inSection_iff lands.get).mpr rfl)
          obtain ⟨hbehind, hhome⟩ := (Chain.mem_reach hspells hl.next?_eq hleading).mp hin
          obtain ⟨instr, hinstr, -⟩ := Chain.stamps_eq_true.mp hs.begins.1
          have hsame : source.sec = sec :=
            ((Chain.inSection_iff hinstr).mp hhome).symm.trans ((Chain.inSection_iff hinstr).mp hs.within)
          obtain ⟨us, vs, rfl⟩ := List.append_of_mem hbehind
          have hcut : s.program.chain.Spells (xs ++ jumper :: us ++ first :: vs) := by simpa using hl
          refine Nat.lt_of_le_of_lt hs.le ?_
          rw [Program.offsetIn_evolve hsettles.chain fun x a b hab => hab.1.sec]
          refine Program.offsetIn_lt hcut ((Chain.inSection_iff lands.get).mpr hsame) hlonger ?_
          have hget : (s.withChain (s.program.chain.adjust (Chain.only jumper (.widened long)))).program.chain.get?
              jumper = some (source.widened long) := by
            show (s.program.chain.adjust _).get? jumper = _
            rw [Chain.get?_adjust, lands.get, Option.map_some, Chain.only_self]
          rw [Program.lengths_eq lands.get, Program.lengths_eq hget]
          exact (Encoding.promote?_eq_some hlong).2.1
  · exact hs

/-- The passes of an update keep where a function may begin. -/
theorem starts_invariant : SettleInvariant fun s pending =>
    Starts l owner first sec start addr was s.program pending where
  carried h hs := hs.carried h
  jumper h hs := hs.settleLinked h
  same h hs := h ▸ hs

/-- A function that does not begin at any instruction of its own stays where it is. -/
theorem unbegun_invariant (owner : FuncId) (addr : Option UInt64) : SettleInvariant fun s _ =>
    s.program.chain.Spells l ∧ (∀ id, ¬ s.program.BeginsAt owner id) ∧ s.program.functions.addr? owner = addr where
  carried := by
    intro s t shift pending moved h hs
    obtain ⟨hl, hnone, haddr⟩ := hs
    have hcarries := (applyShift_applied hl h).carries
    refine ⟨hcarries.chain.spells hl, fun id => mt (begins_iff hcarries id).mp (hnone id), ?_⟩
    rw [applyShift_addr h fun _ id _ => hnone id, haddr]
  jumper := by
    intro s t jumper progress done h hs
    obtain ⟨hl, hnone, haddr⟩ := hs
    have hcarries := Session.Carries.updateRelation.settleLinked h
    refine ⟨hcarries.chain.spells hl, fun id => mt (begins_iff hcarries id).mp (hnone id), ?_⟩
    rcases settleLinked_ok hl h with ⟨-, hrun⟩ | ⟨-, -, rfl⟩
    · rw [hrun.settles.functions, haddr]
    · exact haddr
  same h hs := h ▸ hs

end EngineM

/-! ## What becomes of the functions -/

/-- Where an instruction begins in its section. -/
def Program.startOf (program : Program) (id : InstrId) : Nat :=
  ((program.chain.get? id).map fun instr => program.offsetIn instr.sec program.lengths id).getD 0

/-- Where a function begins that began at the instruction. -/
structure Program.Begun (program after : Program) (owner : FuncId) (id first : InstrId) : Prop where
  begins : after.BeginsAt owner first
  le : program.startOf id ≤ after.startOf first
  /-- It is where it was as long as there is no more code in front of it. -/
  still : after.startOf first = program.startOf id →
    after.functions.addr? owner = program.functions.addr? owner
      ∧ after.chain.addrOf first = program.chain.addrOf id
  moved : after.startOf first ≠ program.startOf id →
    after.functions.addr? owner = some (after.chain.addrOf first)

/-- What becomes of functions that begin at `head id` if they began at `id`, which was their own. -/
structure Program.Bounds (program after : Program) (head : InstrId → InstrId) : Prop where
  carried : ∀ {owner function}, program.functions.get? owner = some function →
    ∃ function', after.functions.get? owner = some function' ∧ function'.last = function.last
      ∧ function'.first = function.first.map fun id =>
        if program.chain.stamps owner id then head id else id
  missing : ∀ owner, program.functions.get? owner = none → after.functions.get? owner = none
  slack : ∀ owner, after.slack? owner = program.slack? owner
  begun : ∀ owner id, program.BeginsAt owner id → program.Begun after owner id (head id)
  unbegun : ∀ owner, (∀ id, ¬ program.BeginsAt owner id) →
    (∀ id, ¬ after.BeginsAt owner id) ∧ after.functions.addr? owner = program.functions.addr? owner

namespace Program

variable {program middle after : Program} {head head' : InstrId → InstrId} {owner : FuncId}
  {id first second : InstrId}

/-- What begins at the first instruction after one edit and after another begins there after both. -/
theorem Begun.trans (h : program.Begun middle owner id first) (k : middle.Begun after owner first second) :
    program.Begun after owner id second where
  begins := k.begins
  le := Nat.le_trans h.le k.le
  still hsame := by
    have hle := h.le
    have hle' := k.le
    obtain ⟨haddr, hfirst⟩ := h.still (by omega)
    obtain ⟨haddr', hfirst'⟩ := k.still (by omega)
    exact ⟨haddr'.trans haddr, hfirst'.trans hfirst⟩
  moved hother := by
    by_cases hlast : after.startOf second = middle.startOf first
    · obtain ⟨haddr, hfirst⟩ := k.still hlast
      rw [haddr, hfirst]
      exact h.moved (hlast ▸ hother)
    · exact k.moved hlast

/-- A program bounds itself, with every function at its own first instruction. -/
theorem Bounds.refl (program : Program) : program.Bounds program fun id => id where
  carried {owner f} hf := ⟨f, hf, rfl, by simp only [ite_self, Option.map_id']⟩
  missing _ hnone := hnone
  slack _ := rfl
  begun _ _ hid := ⟨hid, Nat.le_refl _, fun _ => ⟨rfl, rfl⟩, fun hother => absurd rfl hother⟩
  unbegun _ hnone := ⟨hnone, rfl⟩

/-- What two edits make of a bound is what the second makes of what the first makes of it. -/
theorem Bounds.trans (h : program.Bounds middle head) (k : middle.Bounds after head') :
    program.Bounds after (head' ∘ head) where
  carried {owner f} hf := by
    obtain ⟨g, hg, hlast, hfirst⟩ := h.carried hf
    obtain ⟨g', hg', hlast', hfirst'⟩ := k.carried hg
    refine ⟨g', hg', hlast'.trans hlast, ?_⟩
    rw [hfirst', hfirst]
    -- a first that is not stamped by its owner stays as it is in both steps
    cases hbegin : f.first with
    | none => rfl
    | some id =>
      rw [Option.map_some, Option.map_some, Option.map_some]
      by_cases hstamped : program.chain.stamps owner id = true
      · have hbegins := (h.begun owner id ⟨hstamped, f, hf, hbegin⟩).begins
        rw [if_pos hstamped, if_pos hstamped, if_pos hbegins.1]
        rfl
      · have hnone : ∀ x, ¬ program.BeginsAt owner x := by
          intro x hx
          obtain ⟨hx', f', hf', hbegin'⟩ := hx
          obtain rfl := Option.some.inj (hf.symm.trans hf')
          obtain rfl := Option.some.inj (hbegin.symm.trans hbegin')
          exact hstamped hx'
        have hstamped' : ¬ middle.chain.stamps owner id = true := by
          intro hid
          refine (h.unbegun owner hnone).1 id ⟨hid, g, hg, ?_⟩
          rw [hfirst, hbegin, Option.map_some, if_neg hstamped]
        rw [if_neg hstamped, if_neg hstamped, if_neg hstamped']
  missing owner hnone := k.missing owner (h.missing owner hnone)
  slack owner := (k.slack owner).trans (h.slack owner)
  begun owner id hid := (h.begun owner id hid).trans (k.begun owner (head id) (h.begun owner id hid).begins)
  unbegun owner hnone := by
    obtain ⟨hnone', haddr⟩ := h.unbegun owner hnone
    obtain ⟨hnone'', haddr'⟩ := k.unbegun owner hnone'
    exact ⟨hnone'', haddr'.trans haddr⟩

/-! ## An insertion -/

section

variable {plan : Plan} {names : InstrId → InstrId} {a b : Instruction}

/-- The length as a number and as a word are one. -/
theorem sizeOf_eq_lengths (program : Program) (id : InstrId) :
    program.chain.sizeOf id = UInt64.ofNat (program.lengths id) := by
  rw [Chain.sizeOf, lengths]
  cases program.chain.get? id with
  | none => rfl
  | some instr => rfl

theorem startOf_eq (h : program.chain.get? id = some a) :
    program.startOf id = program.offsetIn a.sec program.lengths id := by
  rw [startOf, h]
  rfl

theorem LaidOut.addr_eq_startOf {l : List InstrId} (hlaid : program.LaidOut l) (hl : program.chain.Spells l)
    (hid : id ∈ l) (ha : program.chain.get? id = some a) :
    a.addr = (program.bases.lookup a.sec).getD 0 + UInt64.ofNat (program.startOf id) := by
  rw [hlaid.addr_eq hl hid ha, startOf_eq ha]

/-- What is at one address is as far behind the base, unless the offsets wrap. -/
theorem ofNat_add_inj {base : UInt64} {x y : Nat} (haddr : base + UInt64.ofNat x = base + UInt64.ofNat y)
    (hx : x < 2 ^ 64) (hy : y < 2 ^ 64) : x = y := by
  have hoffsets := congrArg UInt64.toNat ((UInt64.add_right_inj _).mp haddr)
  rw [UInt64.toNat_ofNat', UInt64.toNat_ofNat'] at hoffsets
  omega

theorem Extends.stamps (h : program.Extends after plan names) (ha : program.chain.get? id = some a) :
    after.chain.stamps owner id = program.chain.stamps owner id := by
  obtain ⟨b, hb, hkept⟩ := h.kept ha
  rw [Chain.stamps, Chain.stamps, ha, hb, Option.any_some, Option.any_some, hkept.func]

theorem Extends.stamps_name (h : program.Extends after plan names) (ha : program.chain.get? id = some a)
    {addition : Addition} (hplan : plan id = some addition) :
    after.chain.stamps owner (names id) = program.chain.stamps owner id := by
  obtain ⟨b, hb, hplaced⟩ := h.placed ha hplan
  rw [Chain.stamps, Chain.stamps, ha, hb, Option.any_some, Option.any_some, hplaced.func]

/-- What is put into a function is stamped with it. -/
theorem Extends.held_eq (h : program.Extends after plan names) (hl : program.chain.Spells program.chain.ids) :
    after.held owner = (program.chain.ids.map fun id => if program.chain.stamps owner id then
      UInt64.ofNat (plan.spans after.lengths id) else 0).sum := by
  rw [held, h.code]
  have hpresent : ∀ id ∈ program.chain.ids, ∃ a, program.chain.get? id = some a :=
    fun id hid => hl.get?_isSome hid
  generalize program.chain.ids = ids at hpresent
  induction ids with
  | nil => rfl
  | cons id ids ih =>
    obtain ⟨a, ha⟩ := hpresent id (List.mem_cons_self ..)
    have hrest := ih fun x hx => hpresent x (List.mem_cons_of_mem _ hx)
    rw [List.map_cons, List.sum_cons, ← hrest, Plan.code, List.flatMap_cons, List.map_append, List.sum_append]
    refine congrArg (· + _) ?_
    rw [Plan.around, Plan.spans]
    cases hplan : plan id with
    | none => simp [h.stamps ha, Plan.room_of_none hplan, sizeOf_eq_lengths]
    | some addition =>
      simp only [Option.isSome_some, if_true, List.map_cons, List.map_nil, List.sum_cons, List.sum_nil,
        h.stamps ha, h.stamps_name ha hplan, sizeOf_eq_lengths, h.lengths_name ha hplan]
      split
      · rw [UInt64.ofNat_add, UInt64.add_zero]
      · rfl

end

end Program

namespace EngineM

open Program

variable {s t m : Session} {given : Instruction} {retarget : Retarget} {anchor new : InstrId}
  {shift : Shift} {owner : FuncId} {id : InstrId}

/-- Where a function begins that began at the instruction, after another one was put in front of
`anchor`. -/
abbrev headed (anchor new : InstrId) : InstrId → InstrId := Plan.name (fun id => id) anchor new

/-- The splice of an insertion changes no address and no size of a function, and takes the function of the
anchor along if it began there. -/
theorem spliceBefore_functions (hs : s.program.Tidy s.program.chain.ids)
    (h : spliceBefore anchor given retarget s = .ok (new, shift) t) :
    ∃ found, s.program.chain.get? anchor = some found
      ∧ t.program.functions = (withOwner s found.func (beginningAt anchor new)).program.functions := by
  obtain ⟨found, hfound⟩ := spliceBefore_present h
  obtain ⟨xs, ys, hsplit⟩ := List.append_of_mem (hs.attached.mem hfound)
  rw [hsplit] at hs
  obtain ⟨found, hfound, -, hfunctions, -⟩ := spliceBefore_ok hs.spells hs.attached hs.listed h
  exact ⟨found, hfound, hfunctions⟩

/-- After an insertion a function begins at the new instruction if it began at the anchor and jumpers
enter there; it has the address and size that it had. -/
theorem spliceBefore_carried (hs : s.program.Tidy s.program.chain.ids)
    (h : spliceBefore anchor given retarget s = .ok (new, shift) t) {function : Function}
    (hfunction : s.program.functions.get? owner = some function) :
    t.program.functions.get? owner = some { function with
      first := function.first.map fun id =>
        if s.program.chain.stamps owner id then headed anchor new id else id } := by
  obtain ⟨found, hfound, hfunctions⟩ := spliceBefore_functions hs h
  have hhead : ∀ id, (if s.program.chain.stamps owner id then headed anchor new id else id)
      = if found.func = some owner ∧ id = anchor then new else id := by
    intro id
    by_cases hid : id = anchor
    · simp only [hid, Chain.stamps_iff hfound, headed, Plan.name_self, and_true]
    · rw [headed, Plan.name_ne hid, ite_self, if_neg fun h => hid h.2]
  simp only [hhead]
  rw [hfunctions, get?_withOwner, hfunction]
  obtain ⟨name, sec, first, last, inputAddr, addr, size, symbol⟩ := function
  by_cases howner : found.func = some owner
  · simp only [howner, if_true, Option.map_some, beginningAt, true_and]
    cases first with
    | none => simp
    | some first =>
      by_cases hfirst : first = anchor
      · simp [hfirst]
      · simp [hfirst]
  · simp only [howner, if_false, false_and, Option.map_id']

/-- The shift for an insertion is by the size of what was put in, on behalf of the anchor's function. -/
theorem spliceBefore_shift (h : spliceBefore anchor given retarget s = .ok (new, shift) t) {found : Instruction}
    (hfound : s.program.chain.get? anchor = some found) :
    shift.func = found.func ∧ shift.delta = given.size.toInt64 := by
  obtain ⟨found', _, _, _, _, _, _, hfound', -, -, -, -, -, -, rfl⟩ := spliceBefore_run h
  obtain rfl := Option.some.inj (hfound.symm.trans hfound')
  exact ⟨rfl, rfl⟩

/-- An insertion adds no function. -/
theorem spliceBefore_missing (hs : s.program.Tidy s.program.chain.ids)
    (h : spliceBefore anchor given retarget s = .ok (new, shift) t)
    (hnone : s.program.functions.get? owner = none) : t.program.functions.get? owner = none := by
  obtain ⟨found, -, hfunctions⟩ := spliceBefore_functions hs h
  rw [hfunctions, get?_withOwner, hnone]
  exact ite_self _

/-- The address of a function is left to the shift. -/
theorem spliceBefore_addr? (hs : s.program.Tidy s.program.chain.ids)
    (h : spliceBefore anchor given retarget s = .ok (new, shift) t) :
    t.program.functions.addr? owner = s.program.functions.addr? owner := by
  cases hf : s.program.functions.get? owner with
  | none => rw [FunctionTable.addr?, FunctionTable.addr?, hf, spliceBefore_missing hs h hf]
  | some f =>
    rw [FunctionTable.addr?, FunctionTable.addr?, hf, spliceBefore_carried hs h hf]
    rfl

/-- The size of a function is left to the shift. -/
theorem spliceBefore_size? (hs : s.program.Tidy s.program.chain.ids)
    (h : spliceBefore anchor given retarget s = .ok (new, shift) t) :
    t.program.functions.size? owner = s.program.functions.size? owner := by
  cases hf : s.program.functions.get? owner with
  | none => rw [FunctionTable.size?, FunctionTable.size?, hf, spliceBefore_missing hs h hf]
  | some f =>
    rw [FunctionTable.size?, FunctionTable.size?, hf, spliceBefore_carried hs h hf]
    rfl

/-- What is put in lies where its anchor is, and everything else stays where it is. -/
theorem spliceBefore_addrOf (hs : s.program.Tidy s.program.chain.ids)
    (h : spliceBefore anchor given retarget s = .ok (new, shift) t) {a : Instruction}
    (ha : s.program.chain.get? id = some a) :
    t.program.chain.addrOf (headed anchor new id) = s.program.chain.addrOf id := by
  by_cases hid : id = anchor
  · subst hid
    obtain ⟨xs, ys, hsplit⟩ := List.append_of_mem (hs.attached.mem ha)
    rw [hsplit] at hs
    obtain ⟨found, hfound, hplaced, -⟩ := spliceBefore_ok hs.spells hs.attached hs.listed h
    obtain ⟨b, hb, halike⟩ := hplaced.placed
    rw [headed, Plan.name_self, Chain.addrOf_eq hb, Chain.addrOf_eq hfound, halike.addr]
    rfl
  · obtain ⟨b, hb, halike, -⟩ := spliceBefore_kept hs h ha
    rw [headed, Plan.name_ne hid, Chain.addrOf_eq hb, Chain.addrOf_eq ha, halike.addr]

/-- An instruction and what is put in front of it are together no shorter than it was. -/
theorem spliceBefore_longer (hs : s.program.Tidy s.program.chain.ids)
    (hsplice : spliceBefore anchor given retarget s = .ok (new, shift) m) (x : InstrId) :
    s.program.lengths x ≤ Plan.spans (Plan.put (fun _ => none) anchor ⟨given, retarget⟩) m.program.lengths x := by
  refine Nat.le_trans ?_ (Nat.le_add_left _ _)
  cases hx : s.program.chain.get? x with
  | none =>
    rw [Program.lengths, hx]
    exact Nat.zero_le _
  | some b =>
    obtain ⟨c, hc, halike, -⟩ := spliceBefore_kept hs hsplice hx
    exact Nat.le_of_eq (by rw [lengths_eq hx, lengths_eq hc, halike.bytes])

/-- Where the code of an instruction begins after the insertion is in its section. -/
theorem inSection_headed
    (hm : s.program.Extends m.program (Plan.put (fun _ => none) anchor ⟨given, retarget⟩) (headed anchor new))
    {a : Instruction} (ha : s.program.chain.get? id = some a) :
    m.program.chain.inSection a.sec (headed anchor new id) = true := by
  have hhere : s.program.chain.inSection a.sec id = true := (Chain.inSection_iff ha).mpr rfl
  by_cases hat : id = anchor
  · rw [hat] at ha hhere ⊢
    rw [hm.inSection_name ha Plan.put_self]
    exact hhere
  · rw [headed, Plan.name_ne hat, hm.inSection ha]
    exact hhere

/-- The offset of where an instruction's code begins is its old one, counted with what was put in front of
the instructions before it. -/
theorem offsetIn_headed (hs : s.program.Tidy s.program.chain.ids)
    (hm : s.program.Extends m.program (Plan.put (fun _ => none) anchor ⟨given, retarget⟩) (headed anchor new))
    (hl : m.program.chain.Spells m.program.chain.ids) {a : Instruction} (ha : s.program.chain.get? id = some a) :
    m.program.offsetIn a.sec m.program.lengths (headed anchor new id)
      = s.program.offsetIn a.sec
        (Plan.spans (Plan.put (fun _ => none) anchor ⟨given, retarget⟩) m.program.lengths) id := by
  have hid := hs.attached.mem ha
  by_cases hat : id = anchor
  · rw [hat] at hid ⊢
    exact hm.offsetIn_name hs.spells hl hid Plan.put_self
  · rw [headed, Plan.name_ne hat, hm.offsetIn hs.spells hl ha hid, Plan.room_of_none (Plan.put_ne hat)]
    rfl

section

variable (hs : s.program.Tidy s.program.chain.ids)
  (hsplice : spliceBefore anchor given retarget s = .ok (new, shift) m)
  (hm : s.program.Extends m.program (Plan.put (fun _ => none) anchor ⟨given, retarget⟩) (headed anchor new))

include hs hsplice hm

/-- A function that began at an instruction begins where its code begins now. -/
theorem spliceBefore_begins (h : s.program.BeginsAt owner id) :
    m.program.BeginsAt owner (headed anchor new id) := by
  obtain ⟨hstamped, function, hfunction, hfirst⟩ := h
  obtain ⟨a, ha, -⟩ := Chain.stamps_eq_true.mp hstamped
  refine ⟨?_, _, spliceBefore_carried hs hsplice hfunction, ?_⟩
  · by_cases hid : id = anchor
    · rw [hid] at ha hstamped ⊢
      rw [hm.stamps_name ha Plan.put_self]
      exact hstamped
    · rw [headed, Plan.name_ne hid, hm.stamps ha]
      exact hstamped
  · show Option.map _ function.first = _
    rw [hfirst, Option.map_some, if_pos hstamped]

/-- No function begins at an instruction of its own only now, as long as no function began at what was
not there yet. -/
theorem spliceBefore_unbegun (hattached : m.program.chain.Attached m.program.chain.ids)
    (hissued : ∀ {function first}, s.program.functions.get? owner = some function →
      function.first = some first → first.index < s.program.chain.slots.size)
    (hnone : ∀ id, ¬ s.program.BeginsAt owner id) : ¬ m.program.BeginsAt owner id := by
  intro h
  obtain ⟨hstamped, function, hfunction, hfirst⟩ := h
  cases hf : s.program.functions.get? owner with
  | none =>
    rw [spliceBefore_missing hs hsplice hf] at hfunction
    cases hfunction
  | some f =>
    obtain rfl := Option.some.inj (hfunction.symm.trans (spliceBefore_carried hs hsplice hf))
    obtain ⟨first, hbegin, hid⟩ := Option.map_eq_some_iff.mp hfirst
    have hunstamped : ¬ s.program.chain.stamps owner first = true := fun hin => hnone first ⟨hin, f, hf, hbegin⟩
    rw [if_neg hunstamped] at hid
    subst hid
    obtain ⟨b, hb, -⟩ := Chain.stamps_eq_true.mp hstamped
    have hmem := hattached.mem hb
    rw [hm.code, Plan.mem_code] at hmem
    rcases hmem with hin | ⟨x, -, hplan, rfl⟩
    · obtain ⟨a, ha⟩ := hs.spells.get?_isSome hin
      rw [hm.stamps ha] at hstamped
      exact hunstamped hstamped
    · have hfresh := (hm.fresh x hplan).1
      have hold := hissued hf hbegin
      omega

/-- The function of the anchor holds the new instruction too, and no other function gains any bytes. -/
theorem spliceBefore_held {found : Instruction} (hfound : s.program.chain.get? anchor = some found) :
    m.program.held owner
      = s.program.held owner + if found.func = some owner then given.size else 0 := by
  have hanchor := hs.attached.mem hfound
  have hlengths : ∀ x ∈ s.program.chain.ids, m.program.lengths x = s.program.lengths x := by
    intro x hx
    obtain ⟨a, ha⟩ := hs.spells.get?_isSome hx
    obtain ⟨b, hb, halike, -⟩ := spliceBefore_kept hs hsplice ha
    rw [lengths_eq ha, lengths_eq hb, halike.bytes]
  rw [hm.held_eq hs.spells]
  have hsum : (s.program.chain.ids.map fun x => if s.program.chain.stamps owner x then UInt64.ofNat
      (Plan.spans (Plan.put (fun _ => none) anchor ⟨given, retarget⟩) s.program.lengths x) else 0).sum
      = s.program.held owner + if anchor ∈ s.program.chain.ids then
        if found.func = some owner then given.size else 0 else 0 := by
    refine sum_grow (fun x hx => ?_) ?_ hs.spells.nodup
    · rw [Plan.spans, Plan.room_of_none (Plan.put_ne hx), Nat.zero_add, sizeOf_eq_lengths]
    · simp only [Chain.stamps_iff hfound, sizeOf_eq_lengths, Plan.spans, Plan.room, Plan.put_self]
      split
      · rw [Option.map_some, Option.getD_some, UInt64.ofNat_add, UInt64.add_comm]
        rfl
      · rfl
  rw [if_pos hanchor] at hsum
  rw [← hsum]
  refine congrArg List.sum (List.map_congr_left fun x hx => ?_)
  rw [Plan.spans, Plan.spans, hlengths x hx]

/-- What the shift is going to move lies behind the anchor, in its section. -/
theorem spliceBefore_reach (hgapless : m.program.Gapless m.program.chain.ids) {found a : Instruction}
    (hfound : s.program.chain.get? anchor = some found) (ha : s.program.chain.get? id = some a)
    (hreach : headed anchor new id ∈ m.program.chain.reach shift) :
    ∃ xs us vs, s.program.chain.Spells (xs ++ anchor :: us ++ id :: vs) ∧ found.sec = a.sec := by
  obtain ⟨xs, ys, hsplit⟩ := List.append_of_mem (hs.attached.mem hfound)
  have hcut := hs
  rw [hsplit] at hcut
  obtain ⟨found', hfound', hplaced, -, -, entering, hshift⟩ :=
    spliceBefore_ok hcut.spells hcut.attached hcut.listed hsplice
  obtain rfl := Option.some.inj (hfound'.symm.trans hfound)
  obtain ⟨b, hb, halike⟩ := hplaced.placed
  have hnew : m.program.chain.inSection found'.sec new = true := (Chain.inSection_iff hb).mpr halike.sec
  have hleading : m.program.chain.Leading found'.sec (anchor :: ys) := by
    have hconsecutive := hgapless.consecutive
    rw [hplaced.spells.ids_eq, List.append_assoc] at hconsecutive
    exact hconsecutive.leading hnew
  rw [hshift, Chain.mem_reach hplaced.spells rfl hleading] at hreach
  obtain ⟨hbehind, hhome⟩ := hreach
  have hat : id ≠ anchor := by
    rintro rfl
    rw [headed, Plan.name_self] at hbehind
    obtain ⟨c, hc⟩ := hcut.spells.get?_isSome (List.mem_append_right xs hbehind)
    rw [hplaced.fresh new (List.mem_singleton_self new)] at hc
    cases hc
  have hwithin := inSection_headed hm ha
  rw [headed, Plan.name_ne hat] at hbehind hhome hwithin
  obtain ⟨c, hc, -⟩ := spliceBefore_kept hs hsplice ha
  obtain ⟨us, vs, rfl⟩ := List.append_of_mem ((List.mem_cons.mp hbehind).resolve_left hat)
  refine ⟨xs, us, vs, by simpa using hcut.spells, ?_⟩
  exact ((Chain.inSection_iff hc).mp hhome).symm.trans ((Chain.inSection_iff hc).mp hwithin)

/-- After the splice the first instruction of a function lies behind what was put in if the shift is going
to move it. -/
theorem spliceBefore_starts (hl : m.program.chain.Spells m.program.chain.ids)
    (hsited : m.program.Sited m.program.chain.ids [shift]) (hgiven : given.bytes ≠ [])
    (h : s.program.BeginsAt owner id) {a : Instruction} (ha : s.program.chain.get? id = some a) :
    Starts m.program.chain.ids owner (headed anchor new id) a.sec (s.program.startOf id)
      (s.program.functions.addr? owner) (s.program.chain.addrOf id) m.program [shift] := by
  have hlonger := spliceBefore_longer hs hsplice
  have hoffset := offsetIn_headed hs hm hl ha
  refine ⟨hsited.gapless, spliceBefore_begins hs hsplice hm h, inSection_headed hm ha,
    .inl ⟨spliceBefore_addr? hs hsplice, spliceBefore_addrOf hs hsplice ha⟩, ?_,
    fun shift' hshift hreach => ?_⟩
  · rw [hoffset, startOf_eq ha]
    exact offsetIn_mono hlonger
  · rw [List.mem_singleton] at hshift
    subst hshift
    obtain ⟨found, hfound⟩ := spliceBefore_present hsplice
    obtain ⟨xs, us, vs, hspells, hsame⟩ := spliceBefore_reach hs hsplice hm hsited.gapless hfound ha hreach
    rw [hoffset, startOf_eq ha]
    refine offsetIn_lt hspells ((Chain.inSection_iff hfound).mpr hsame) hlonger ?_
    -- what was put in has bytes
    have hroom : 0 < given.bytes.length := List.length_pos_iff.mpr hgiven
    obtain ⟨d, hd, halike, -⟩ := spliceBefore_kept hs hsplice hfound
    rw [Plan.spans, Plan.room, Plan.put_self, lengths_eq hfound, lengths_eq hd, halike.bytes]
    exact Nat.lt_add_of_pos_left hroom

end

/-- What an insertion makes of the functions. -/
theorem insert_bounds (hs : s.program.Tidy s.program.chain.ids)
    (hsited : s.program.Sited s.program.chain.ids [])
    (hissued : ∀ {owner function first}, s.program.functions.get? owner = some function →
      function.first = some first → first.index < s.program.chain.slots.size)
    (htarget : given.target = none) (htable : given.jumpTable = []) (hgiven : given.bytes ≠ [])
    (h : insertBefore anchor given retarget s = .ok new t)
    (hsize : ∀ sec, t.program.bytesIn sec t.program.lengths t.program.chain.ids < 2 ^ 63) :
    s.program.Bounds t.program (headed anchor new) := by
  -- the splice takes `s` to `m`, and settling takes `m` to `t`; each clause is carried through both
  obtain ⟨shift, m, summary, hsplice, hsettle⟩ := insertBefore_run h
  obtain ⟨found, hfound⟩ := spliceBefore_present hsplice
  have hanchor := hs.attached.mem hfound
  have hm := (Extends.refl s.program fun id => id).splice hs hs hanchor rfl htarget htable hsplice
  obtain ⟨l, hsited'⟩ := (SpliceRun.before hsplice).sited rfl hsited
  obtain rfl : l = m.program.chain.ids := hsited'.gapless.spells.ids_eq.symm
  have hl := hsited'.gapless.spells
  have hcarries := Session.Carries.updateRelation.settle hsettle
  refine ⟨fun {owner f} hf => ?_, fun owner hnone => ?_, fun owner => ?_, fun owner id hid => ?_,
    fun owner hnone => ?_⟩
  · obtain ⟨g, hg, hcarried⟩ := hcarries.functions.get? (spliceBefore_carried hs hsplice hf)
    exact ⟨g, hg, hcarried.last, hcarried.first⟩
  · exact rel_none (hcarries.functions owner) (spliceBefore_missing hs hsplice hnone)
  · rw [settle_slack hl hsettle, spliceBefore_held hs hsplice hm hfound, slack?]
    have howed : owedBy [shift] owner = if found.func = some owner then given.size else 0 := by
      obtain ⟨hfunc, hdelta⟩ := spliceBefore_shift hsplice hfound
      rw [owedBy, List.map_singleton, List.sum_singleton, hfunc, hdelta, UInt64.toUInt64_toInt64]
    rw [spliceBefore_size? hs hsplice, howed]
    congr 1
    funext size
    grind
  · obtain ⟨a, ha, -⟩ := Chain.stamps_eq_true.mp hid.1
    have hend := starts_invariant.settled hsettle
      (spliceBefore_starts hs hsplice hm hl hsited' hgiven hid ha)
    obtain ⟨b, hb, -⟩ := Chain.stamps_eq_true.mp hend.begins.1
    have hsec : b.sec = a.sec := (Chain.inSection_iff hb).mp hend.within
    have hstart : t.program.startOf (headed anchor new id)
        = t.program.offsetIn a.sec t.program.lengths (headed anchor new id) := by
      rw [startOf_eq hb, hsec]
    have hids : t.program.chain.ids = m.program.chain.ids := hcarries.chain.ids
    have hl' : t.program.chain.Spells t.program.chain.ids := hids.symm ▸ hcarries.chain.spells hl
    have hlaid : t.program.LaidOut t.program.chain.ids :=
      hids.symm ▸ owing_nil.mp (settle_owing hsited'.gapless hsettle hsited'.owing)
    have hmem : headed anchor new id ∈ t.program.chain.ids :=
      hids.symm ▸ (hcarries.chain.attached hsited'.attached).mem hb
    -- an address is a number modulo the word size, so it says where the start is only while the section
    -- is no longer than that
    have hstill : t.program.chain.addrOf (headed anchor new id) = s.program.chain.addrOf id →
        t.program.startOf (headed anchor new id) = s.program.startOf id := by
      intro haddr
      rw [Chain.addrOf_eq hb, Chain.addrOf_eq ha, hlaid.addr_eq_startOf hl' hmem hb,
        (owing_nil.mp hsited.owing).addr_eq_startOf hs.spells (hs.attached.mem ha) ha,
        hcarries.bases.trans hm.bases, hsec] at haddr
      have hle := hend.le
      have hlt := Nat.lt_of_le_of_lt (offsetIn_le t.program.lengths hl' hmem) (hsize a.sec)
      rw [← hstart] at hle hlt
      exact ofNat_add_inj haddr (by omega) (by omega)
    refine ⟨hend.begins, hstart ▸ hend.le, fun hsame => ?_, fun hother => ?_⟩
    · rcases hend.place with hplace | ⟨-, hlt⟩
      · exact hplace
      · rw [← hstart, hsame] at hlt
        exact absurd hlt (Nat.lt_irrefl _)
    · rcases hend.place with ⟨-, hwas⟩ | ⟨haddr, -⟩
      · exact absurd (hstill hwas) hother
      · exact haddr
  · have hstart : ∀ id, ¬ m.program.BeginsAt owner id := fun id =>
      spliceBefore_unbegun hs hsplice hm hsited'.attached hissued hnone
    obtain ⟨-, hnone', haddr⟩ := (unbegun_invariant owner _).settled hsettle ⟨hl, hstart, rfl⟩
    exact ⟨hnone', haddr.trans (spliceBefore_addr? hs hsplice)⟩

end EngineM

end Splice
