import Splice.Proofs.Program.Ownership
import Splice.Proofs.Program.Settle

/-!
# Pending shifts

While a shift is settled, the layout is right but for the shifts that are still to be
carried out: an instruction is as far from its place as the shifts that will move it, and a
function is as far from its size as those that will make it grow (`Program.Pending`).
Carrying out a shift takes it off the list, and widening a jump puts one on it; so when
none is left everything is in place (`settle_pending`).

The shift of a widened jump moves what lies behind the jump up to the first instruction of
another section. That is all of its section behind it, because sections are `Consecutive`.

`SettleInvariant` packages the induction: a property of a session with the shifts that are still
to be carried out, which carrying out the first of them keeps and which widening a jump keeps
with a shift at the end. The places of instructions and the sizes of functions are two
instances, `owing_invariant` and `pending_invariant`; the widths of jumps and the starts of
functions are others, in later modules.
-/

namespace Splice

/-! ## Sections without gaps -/

/-- Whatever lies between two instructions of a section belongs to it as well. -/
def Chain.Consecutive (chain : Chain) (l : List InstrId) : Prop :=
  ∀ (i j k : Nat) (a b c : InstrId) (sec : SectionId), i ≤ j → j ≤ k →
    l[i]? = some a → l[j]? = some b → l[k]? = some c →
    chain.inSection sec a = true → chain.inSection sec c = true → chain.inSection sec b = true

/-- The instructions of the section come first in the list. -/
def Chain.Leading (chain : Chain) (sec : SectionId) (ys : List InstrId) : Prop :=
  ∀ front id rest, ys = front ++ id :: rest → chain.inSection sec id = true →
    ∀ x ∈ front, chain.inSection sec x = true

namespace Chain

variable {chain after : Chain} {l xs ys : List InstrId} {id : InstrId} {sec : SectionId} {shift : Shift}

/-- The code of a single section has no gaps. -/
theorem Consecutive.of_section (home : SectionId)
    (h : ∀ id ∈ l, (chain.get? id).map (·.sec) = some home) : chain.Consecutive l := by
  intro i j k a b c sec _ _ ha hb _ hasec _
  obtain ⟨x, hx, hxsec⟩ := Option.map_eq_some_iff.mp (h a (List.mem_of_getElem? ha))
  obtain ⟨y, hy, hysec⟩ := Option.map_eq_some_iff.mp (h b (List.mem_of_getElem? hb))
  rw [inSection_iff hx] at hasec
  rw [inSection_iff hy, hysec, ← hxsec, hasec]

/-- Code whose sections come in the order of their numbers has no gaps. -/
theorem Consecutive.of_sorted (hpresent : ∀ id ∈ l, (chain.get? id).isSome)
    (hsorted : l.Pairwise fun x y => ∀ a ∈ chain.get? x, ∀ b ∈ chain.get? y, a.sec ≤ b.sec) :
    chain.Consecutive l := by
  intro i j k a b c sec hij hjk ha hb hc hasec hcsec
  obtain ⟨y, hy⟩ := Option.isSome_iff_exists.mp (hpresent b (List.mem_of_getElem? hb))
  rcases Nat.eq_or_lt_of_le hij with rfl | hij
  · exact Option.some.inj (ha.symm.trans hb) ▸ hasec
  rcases Nat.eq_or_lt_of_le hjk with rfl | hjk
  · exact Option.some.inj (hb.symm.trans hc) ▸ hcsec
  · -- the section in the middle is neither below nor above that of both ends
    obtain ⟨x, hx⟩ := Option.isSome_iff_exists.mp (hpresent a (List.mem_of_getElem? ha))
    obtain ⟨z, hz⟩ := Option.isSome_iff_exists.mp (hpresent c (List.mem_of_getElem? hc))
    obtain ⟨hi, rfl⟩ := List.getElem?_eq_some_iff.mp ha
    obtain ⟨hj, rfl⟩ := List.getElem?_eq_some_iff.mp hb
    obtain ⟨hk, rfl⟩ := List.getElem?_eq_some_iff.mp hc
    have hpairs := List.pairwise_iff_getElem.mp hsorted
    have hfrom := hpairs i j hi hj hij x hx y hy
    have hto := hpairs j k hj hk hjk y hy z hz
    rw [(inSection_iff hx).mp hasec] at hfrom
    rw [(inSection_iff hz).mp hcsec] at hto
    exact (inSection_iff hy).mpr (UInt16.le_antisymm hto hfrom)

/-- In a section without gaps, what is of the section behind one of its instructions comes first. -/
theorem Consecutive.leading (h : chain.Consecutive (xs ++ id :: ys))
    (hid : chain.inSection sec id = true) : chain.Leading sec ys := by
  intro front other rest hys hother x hx
  obtain ⟨j, hj⟩ := List.mem_iff_getElem?.mp hx
  have hlt : j < front.length := (List.getElem?_eq_some_iff.mp hj).1
  refine h xs.length (xs.length + 1 + j) (xs.length + 1 + front.length) id x other sec (by omega)
    (by omega) (by simp) ?_ ?_ hid hother
  · rw [List.getElem?_append_right (by omega), hys]
    simp only [Nat.add_assoc, Nat.add_sub_cancel_left, Nat.add_comm 1 j, List.getElem?_cons_succ]
    rw [List.getElem?_append_left hlt, hj]
  · rw [List.getElem?_append_right (by omega), hys]
    simp only [Nat.add_assoc, Nat.add_sub_cancel_left, Nat.add_comm 1, List.getElem?_cons_succ]
    simp

/-- A shift that begins with `ys` moves the instructions of its section there. -/
theorem reach_eq (hl : chain.Spells (xs ++ ys)) (hfirst : shift.first = ys.head?) :
    chain.reach shift = ys.takeWhile (chain.inSection shift.sec) := by
  rw [reach, hfirst, Spells.walk_append xs hl]
  rfl

/-- An instruction of the section is among the first ones, if the section leads. -/
theorem Leading.mem_takeWhile (h : chain.Leading sec ys) (hid : id ∈ ys)
    (hsec : chain.inSection sec id = true) : id ∈ ys.takeWhile (chain.inSection sec) := by
  obtain ⟨front, rest, rfl⟩ := List.append_of_mem hid
  rw [List.takeWhile_append_of_pos (h front id rest rfl hsec), List.takeWhile_cons, if_pos hsec]
  simp

/-- If nothing of the section lies behind the first instruction of another one, the section comes
first. -/
theorem leading_of_takeWhile (hnodup : ys.Nodup)
    (h : ∀ id ∈ ys, chain.inSection sec id = true → id ∈ ys.takeWhile (chain.inSection sec)) :
    chain.Leading sec ys := by
  intro front id rest hys hsec x hx
  have hmem := h id (by rw [hys]; simp) hsec
  obtain ⟨us, vs, htaken⟩ := List.append_of_mem hmem
  have hsplit : us ++ id :: (vs ++ ys.dropWhile (chain.inSection sec)) = ys := by
    rw [← List.cons_append, ← List.append_assoc, ← htaken, List.takeWhile_append_dropWhile]
  obtain ⟨hfront, -⟩ := cut_inj (hsplit.symm ▸ hnodup) (hsplit.trans hys)
  have hx' : x ∈ ys.takeWhile (chain.inSection sec) := by
    rw [htaken, ← hfront]
    exact List.mem_append_left _ hx
  exact List.all_eq_true.mp List.all_takeWhile x hx'

/-- A shift reaches what is of its section behind where it begins, if the section leads. -/
theorem mem_reach (hl : chain.Spells (xs ++ ys)) (hfirst : shift.first = ys.head?)
    (hys : chain.Leading shift.sec ys) :
    id ∈ chain.reach shift ↔ id ∈ ys ∧ chain.inSection shift.sec id = true := by
  rw [reach_eq hl hfirst]
  constructor
  · intro h
    exact ⟨(List.takeWhile_sublist _).subset h, List.all_eq_true.mp List.all_takeWhile id h⟩
  · intro h
    exact hys.mem_takeWhile h.1 h.2

/-- What lies in a section, and what a shift reaches, is a matter of the sections alone. -/
theorem Evolves.inSection {r : InstrId → Instruction → Instruction → Prop}
    (h : chain.Evolves r after) (hr : ∀ id a b, r id a b → b.sec = a.sec) (sec : SectionId)
    (id : InstrId) : after.inSection sec id = chain.inSection sec id :=
  (h.retains fun _ => True).inSection hr trivial

theorem Evolves.instructions {r : InstrId → Instruction → Instruction → Prop}
    (h : chain.Evolves r after) (function : Function) :
    function.instructions after = function.instructions chain := by
  rw [Function.instructions, h.run, Function.instructions]

/-- What a shift reaches depends on order and sections. -/
theorem Evolves.reach {r : InstrId → Instruction → Instruction → Prop}
    (h : chain.Evolves r after) (hr : ∀ id a b, r id a b → b.sec = a.sec) (shift : Shift) :
    after.reach shift = chain.reach shift := by
  have hsec := funext (h.inSection hr shift.sec)
  show (after.walk shift.first).takeWhile (after.inSection shift.sec) = _
  rw [hsec, h.walk]
  rfl

/-- Sections without gaps stay so under a step that leaves sections. -/
theorem Consecutive.evolve {r : InstrId → Instruction → Instruction → Prop}
    (h : chain.Consecutive l) (he : chain.Evolves r after) (hr : ∀ id a b, r id a b → b.sec = a.sec) :
    after.Consecutive l := by
  intro i j k a b c sec hij hjk ha hb hc
  rw [he.inSection hr, he.inSection hr, he.inSection hr]
  exact h i j k a b c sec hij hjk ha hb hc

end Chain

/-! ## The invariant -/

/-- How far an instruction is going to be moved. -/
def Chain.owed (chain : Chain) (pending : List Shift) (id : InstrId) : UInt64 :=
  (pending.map fun shift => if id ∈ chain.reach shift then shift.delta.toUInt64 else 0).sum

/-- By how much a function is going to grow. -/
def owedBy (pending : List Shift) (id : FuncId) : UInt64 :=
  (pending.map fun shift => if shift.func = some id then shift.delta.toUInt64 else 0).sum

/-- Every instruction is where it belongs but for the shifts that are still to be carried out. -/
structure Program.Owing (program : Program) (l : List InstrId) (pending : List Shift) : Prop where
  place : ∀ front id rest instr, l = front ++ id :: rest → program.chain.get? id = some instr →
    instr.addr + program.chain.owed pending id = program.place instr.sec front

/-- Everything, functions included, is in place but for the shifts that are still to be carried out. -/
structure Program.Pending (program : Program) (l : List InstrId) (pending : List Shift) : Prop
    extends Program.Owing program l pending where
  size : ∀ id function, program.functions.get? id = some function → function.isDefined = true →
    function.size + owedBy pending id
      = ((function.instructions program.chain).map program.chain.sizeOf).sum
  anchored : ∀ id, program.Anchored id ∨ ∃ shift ∈ pending, shift.delta ≠ 0
    ∧ program.functions.BeginsAt id (program.chain.reach shift)

/-- What the places of instructions rely on: sections have no gaps. -/
structure Program.Gapless (program : Program) (l : List InstrId) : Prop where
  spells : program.chain.Spells l
  consecutive : program.chain.Consecutive l

/-- What the sizes of functions rely on besides: instructions are stamped with their functions. -/
structure Program.Orderly (program : Program) (l : List InstrId) : Prop
    extends Program.Gapless program l where
  owned : program.Owned l

theorem Program.Gapless.carry {s t : Session} {l : List InstrId} (h : s.program.Gapless l)
    (hcarries : Session.Carries s t) : t.program.Gapless l where
  spells := hcarries.chain.spells h.spells
  consecutive := h.consecutive.evolve hcarries.chain fun _ _ _ h => h.sec

/-- Stamps and runs outlast what only moves code. -/
theorem Program.Owned.carry {s t : Session} {l : List InstrId} (h : s.program.Owned l)
    (hcarries : Session.Carries s t) : t.program.Owned l := by
  intro id function hfunction
  obtain ⟨old, hold, hcarried⟩ := hcarries.functions.get?_of hfunction
  obtain ⟨run, hspans, hstamped⟩ := h id old hold
  refine ⟨run, hcarried.spans hspans, fun x hx instr hinstr => ?_⟩
  obtain ⟨before, hbefore, hlike⟩ := hcarries.chain.get?_of hinstr
  rw [hlike.func]
  exact hstamped x hx before hbefore

theorem Program.Orderly.carry {s t : Session} {l : List InstrId} (h : s.program.Orderly l)
    (hcarries : Session.Carries s t) : t.program.Orderly l where
  toGapless := h.toGapless.carry hcarries
  owned := h.owned.carry hcarries

/-- With nothing left to shift, each instruction has to be in its place. -/
theorem Program.owing_nil {program : Program} {l : List InstrId} :
    program.Owing l [] ↔ program.LaidOut l := by
  constructor
  · intro h front id rest instr hl hid
    rw [← h.place front id rest instr hl hid]
    exact (UInt64.add_zero _).symm
  · intro hlaid
    refine ⟨fun front id rest instr hl hid => ?_⟩
    rw [← hlaid front id rest instr hl hid]
    exact UInt64.add_zero _

/-- With nothing left to shift, all has to be in place. -/
theorem Program.pending_nil {program : Program} {l : List InstrId} : program.Pending l []
    ↔ program.LaidOut l ∧ program.Measured ∧ ∀ id, program.Anchored id := by
  constructor
  · intro h
    refine ⟨owing_nil.mp h.toOwing, fun id function hfunction hdefined => ?_, fun id => ?_⟩
    · rw [← h.size id function hfunction hdefined]
      exact (UInt64.add_zero _).symm
    · refine (h.anchored id).resolve_right fun hpending => ?_
      obtain ⟨_, hmem, -⟩ := hpending
      cases hmem
  · intro h
    obtain ⟨hlaid, hmeasured, hanchored⟩ := h
    refine ⟨owing_nil.mpr hlaid, fun id function hfunction hdefined => ?_,
      fun id => .inl (hanchored id)⟩
    rw [← hmeasured id function hfunction hdefined]
    exact UInt64.add_zero _

/-! ## Changes in place -/

namespace Program

variable {s t : Session} {l : List InstrId} {jumper : InstrId} {shifts : List Shift}

/-- What instructions are owed depends on sections, sizes and addresses. -/
theorem Owing.evolve {r : InstrId → Instruction → Instruction → Prop}
    (h : s.program.Owing l shifts) (hchain : s.program.chain.Evolves r t.program.chain)
    (hbases : t.program.bases = s.program.bases)
    (hr : ∀ id a b, r id a b → b.sec = a.sec ∧ b.size = a.size ∧ b.addr = a.addr) :
    t.program.Owing l shifts := by
  have hreaches := hchain.reach fun id a b hab => (hr id a b hab).1
  refine ⟨fun front id rest instr hsplit hid => ?_⟩
  obtain ⟨old, hold, hrel⟩ := hchain.get?_of hid
  obtain ⟨hsec, -, haddr⟩ := hr id old instr hrel
  have hlike : ∀ id a b, r id a b → b.sec = a.sec ∧ b.size = a.size :=
    fun id a b hab => ⟨(hr id a b hab).1, (hr id a b hab).2.1⟩
  rw [place_evolve hchain hbases hlike, hsec, haddr, ← h.place front id rest old hsplit hold]
  simp only [Chain.owed, hreaches]

/-- What is pending depends on sections, sizes, addresses and stamps, and on the functions. -/
theorem Pending.evolve {r : InstrId → Instruction → Instruction → Prop}
    (h : s.program.Pending l shifts) (hchain : s.program.chain.Evolves r t.program.chain)
    (hfunctions : t.program.functions = s.program.functions)
    (hbases : t.program.bases = s.program.bases)
    (hr : ∀ id a b, r id a b → b.sec = a.sec ∧ b.size = a.size ∧ b.addr = a.addr ∧ b.func = a.func) :
    t.program.Pending l shifts := by
  have hreaches := hchain.reach fun id a b hab => (hr id a b hab).1
  have hsizes : t.program.chain.sizeOf = s.program.chain.sizeOf := funext fun x =>
    (hchain.retains fun _ => True).sizeOf (fun id a b hab => (hr id a b hab).2.1) trivial
  refine ⟨h.toOwing.evolve hchain hbases fun id a b hab => ?_, fun id function hfunction hdefined => ?_,
    fun id => ?_⟩
  · exact ⟨(hr id a b hab).1, (hr id a b hab).2.1, (hr id a b hab).2.2.1⟩
  · rw [hfunctions] at hfunction
    rw [hchain.instructions, hsizes]
    exact h.size id function hfunction hdefined
  · rcases h.anchored id with hanchored | ⟨shift, hmem, hdelta, hbegins⟩
    · refine .inl fun function first instr hfunction hfirst hinstr hfunc => ?_
      obtain ⟨old, hold, hrel⟩ := hchain.get?_of hinstr
      obtain ⟨-, -, haddr, hsame⟩ := hr first old instr hrel
      rw [hfunctions] at hfunction
      rw [haddr]
      exact hanchored function first old hfunction hfirst hold (hsame.symm.trans hfunc)
    · refine .inr ⟨shift, hmem, hdelta, ?_⟩
      rw [hreaches, hfunctions]
      exact hbegins

/-! ## Growth -/

/-- Of two instructions of the code, one lies behind the other if that lies in front of it. -/
theorem behind_iff {xs ys front rest : List InstrId} {id : InstrId}
    (hnodup : (xs ++ jumper :: ys).Nodup) (h : xs ++ jumper :: ys = front ++ id :: rest) :
    id ∈ ys ↔ jumper ∈ front := by
  constructor
  · intro hid
    obtain ⟨us, vs, rfl⟩ := List.append_of_mem hid
    have heq : xs ++ jumper :: (us ++ id :: vs) = (xs ++ jumper :: us) ++ id :: vs := by simp
    rw [heq] at h hnodup
    rw [(cut_inj hnodup h).1]
    simp
  · intro hjumper
    obtain ⟨us, vs, rfl⟩ := List.append_of_mem hjumper
    rw [List.append_assoc, List.cons_append] at h
    rw [← (cut_inj hnodup h).2]
    simp

/-- If one of the terms grows, the sum grows as much. -/
theorem sum_grow {f g : InstrId → UInt64} {amount : UInt64} {ids : List InstrId}
    (hother : ∀ id, id ≠ jumper → g id = f id) (hself : g jumper = f jumper + amount)
    (hids : ids.Nodup) :
    (ids.map g).sum = (ids.map f).sum + if jumper ∈ ids then amount else 0 := by
  induction ids with
  | nil => rfl
  | cons id ids ih =>
    obtain ⟨hid, hids⟩ := List.nodup_cons.mp hids
    rw [List.map_cons, List.map_cons, List.sum_cons, List.sum_cons, ih hids]
    by_cases he : id = jumper
    · rw [he] at hid ⊢
      rw [hself, if_neg hid, if_pos (List.mem_cons_self ..)]
      grind
    · rw [hother id he]
      have hmem : jumper ∈ id :: ids ↔ jumper ∈ ids := by
        rw [List.mem_cons]
        exact or_iff_right fun h => he h.symm
      simp only [hmem, UInt64.add_assoc]

/-- An instruction of the code grew, and all else that the layout depends on is the same. -/
structure Grows (chain after : Chain) (jumper : InstrId) (amount : UInt64) : Prop where
  evolves : chain.Evolves (fun _ a b => b.sec = a.sec ∧ b.addr = a.addr ∧ b.func = a.func) after
  other : ∀ id, id ≠ jumper → after.sizeOf id = chain.sizeOf id
  self : after.sizeOf jumper = chain.sizeOf jumper + amount

/-- A change of one instruction that makes it longer and leaves section, address and function is
growth. -/
theorem grows_adjust {f : Instruction → Instruction} {source : Instruction} {amount : UInt64}
    (hsource : s.program.chain.get? jumper = some source)
    (hf : ∀ instr, (f instr).sec = instr.sec ∧ (f instr).addr = instr.addr
      ∧ (f instr).func = instr.func)
    (hsize : (f source).size = source.size + amount) :
    Grows s.program.chain (s.program.chain.adjust (Chain.only jumper f)) jumper amount where
  evolves := by
    refine .of_adjust fun id instr _ => ?_
    unfold Chain.only
    split
    · exact hf instr
    · exact ⟨rfl, rfl, rfl⟩
  other id hid := by
    have honly : Chain.only jumper f id = fun instr => instr :=
      funext fun instr => Chain.only_ne hid f instr
    rw [Chain.sizeOf, Chain.sizeOf, Chain.get?_adjust, honly, Option.map_id']
  self := by
    rw [Chain.sizeOf_eq hsource, ← hsize, Chain.sizeOf, Chain.get?_adjust, hsource,
      Option.map_some, Option.map_some, Chain.only_self]
    rfl

/-- What grew adds its growth to the extent of its section, if it is in the list. -/
theorem Grows.extent {chain after : Chain} {amount : UInt64} {ids : List InstrId}
    {source : Instruction} (h : Grows chain after jumper amount)
    (hsource : chain.get? jumper = some source) (hids : ids.Nodup) (sec : SectionId) :
    after.extent sec ids = chain.extent sec ids
      + if jumper ∈ ids ∧ source.sec = sec then amount else 0 := by
  have hinSection := h.evolves.inSection (fun id a b hab => hab.1) sec
  have hjumper : chain.inSection sec jumper = true ↔ source.sec = sec := Chain.inSection_iff hsource
  by_cases hsec : source.sec = sec
  · simp only [hsec, and_true]
    refine sum_grow (fun id hid => ?_) ?_ hids
    · rw [hinSection, h.other id hid]
    · rw [hinSection, h.self, if_pos (hjumper.mpr hsec), if_pos (hjumper.mpr hsec)]
  · rw [if_neg fun he => hsec he.2, UInt64.add_zero, Chain.extent, Chain.extent]
    congr 1
    refine List.map_congr_left fun id _ => ?_
    rw [hinSection]
    by_cases hid : id = jumper
    · rw [hid, if_neg fun he => hsec (hjumper.mp he), if_neg fun he => hsec (hjumper.mp he)]
    · rw [h.other id hid]

/-- A linked instruction is in the run of a function exactly if it is stamped with it. -/
theorem Orderly.mem_instructions {function : Function} {id : FuncId} {source : Instruction}
    (hs : s.program.Orderly l) (hjumper : jumper ∈ l)
    (hsource : s.program.chain.get? jumper = some source)
    (hfunction : s.program.functions.get? id = some function) :
    (function.instructions s.program.chain).Nodup
      ∧ (jumper ∈ function.instructions s.program.chain ↔ source.func = some id) := by
  obtain ⟨run, hspans, hstamped⟩ := hs.owned id function hfunction
  rw [hspans.instructions hs.spells, hstamped jumper hjumper source hsource]
  obtain ⟨us, vs, rfl, -, -⟩ := hspans
  exact ⟨(List.nodup_append.mp (List.nodup_append.mp hs.spells.nodup).1).2.1, .rfl⟩

/-- An instruction that grows puts a shift on the list, of what lies behind it in its section. -/
theorem Owing.grow {source : Instruction} {shift : Shift} (h : s.program.Owing l shifts)
    (hs : s.program.Gapless l) (hjumper : jumper ∈ l)
    (hsource : s.program.chain.get? jumper = some source)
    (hgrows : Grows s.program.chain t.program.chain jumper shift.delta.toUInt64)
    (hbases : t.program.bases = s.program.bases)
    (hfirst : shift.first = s.program.chain.next? jumper) (hsec : shift.sec = source.sec) :
    t.program.Owing l (shifts ++ [shift]) := by
  have hreaches := hgrows.evolves.reach fun id a b hab => hab.1
  refine ⟨fun front id rest instr hsplit hid => ?_⟩
  obtain ⟨old, hold, hinstrSec, haddr, -⟩ := hgrows.evolves.get?_of hid
  have hfront : front.Nodup := by
    have hnodup := hs.spells.nodup
    rw [hsplit] at hnodup
    exact (List.nodup_append.mp hnodup).1
  -- what is moved is what has the jumper in front of it
  have hreach : id ∈ s.program.chain.reach shift ↔ jumper ∈ front ∧ source.sec = old.sec := by
    obtain ⟨xs, ys, rfl⟩ := List.append_of_mem hjumper
    have hspells : s.program.chain.Spells (xs ++ [jumper] ++ ys) := by simpa using hs.spells
    have hleading : s.program.chain.Leading shift.sec ys :=
      hs.consecutive.leading ((Chain.inSection_iff hsource).mpr hsec.symm)
    rw [Chain.mem_reach hspells (hfirst.trans hs.spells.next?_eq) hleading,
      behind_iff hs.spells.nodup hsplit, Chain.inSection_iff hold, hsec, eq_comm]
  have hplace := h.place front id rest old hsplit hold
  rw [Program.place] at hplace ⊢
  rw [hgrows.extent hsource hfront, hbases, hinstrSec, haddr, ← UInt64.add_assoc, ← hplace,
    UInt64.add_assoc]
  simp only [Chain.owed, hreaches, List.map_append, List.sum_append, List.map_singleton,
    List.sum_singleton, hreach]

/-- When a jump grows, the shift that starts behind it is what is owed for it: what is behind in the
section by `Gapless`, and its function by the stamp. -/
theorem Pending.grow {source : Instruction} {shift : Shift} (h : s.program.Pending l shifts)
    (hs : s.program.Orderly l) (hjumper : jumper ∈ l)
    (hsource : s.program.chain.get? jumper = some source)
    (hgrows : Grows s.program.chain t.program.chain jumper shift.delta.toUInt64)
    (hfunctions : t.program.functions = s.program.functions)
    (hbases : t.program.bases = s.program.bases)
    (hfirst : shift.first = s.program.chain.next? jumper) (hsec : shift.sec = source.sec)
    (hfunc : shift.func = source.func) : t.program.Pending l (shifts ++ [shift]) := by
  have hreaches := hgrows.evolves.reach fun id a b hab => hab.1
  refine ⟨h.toOwing.grow hs.toGapless hjumper hsource hgrows hbases hfirst hsec,
    fun id function hfunction hdefined => ?_, fun id => ?_⟩
  · rw [hfunctions] at hfunction
    obtain ⟨hnodup, hrun⟩ := hs.mem_instructions hjumper hsource hfunction
    rw [hgrows.evolves.instructions, sum_grow hgrows.other hgrows.self hnodup,
      ← h.size id function hfunction hdefined]
    simp only [owedBy, List.map_append, List.sum_append, List.map_singleton, List.sum_singleton,
      hfunc, hrun, UInt64.add_assoc]
  · rcases h.anchored id with hanchored | ⟨other, hmem, hdelta, hbegins⟩
    · refine .inl fun function first instr hfunction hfirst hinstr howner => ?_
      obtain ⟨old, hold, -, haddr, hsame⟩ := hgrows.evolves.get?_of hinstr
      rw [hfunctions] at hfunction
      rw [haddr]
      exact hanchored function first old hfunction hfirst hold (hsame.symm.trans howner)
    · refine .inr ⟨other, List.mem_append_left _ hmem, hdelta, ?_⟩
      rw [hreaches, hfunctions]
      exact hbegins

end Program

namespace EngineM

variable {s t : Session} {l : List InstrId} {jumper : InstrId}

/-! ## Carrying out shifts -/

/-- Carrying out a shift moves what it reaches and nothing else. -/
theorem Applied.evolves {shift : Shift} {moved : List InstrId} (h : Applied s t shift moved) :
    s.program.chain.Evolves
      (fun x a b => b = if x ∈ s.program.chain.reach shift then a.shifted shift.delta else a)
      t.program.chain := by
  rw [h.chain]
  exact .of_adjust fun _ _ _ => rfl

theorem applyShift_applied {shift : Shift} {moved : List InstrId} (hl : s.program.chain.Spells l)
    (h : applyShift shift s = .ok moved t) : Applied s t shift moved :=
  applyShift_ok ((hl.nodup_walk shift.first).sublist (List.takeWhile_sublist _)) h

/-- A shift that is carried out pays what it owes to the instructions it reaches. -/
theorem applyShift_owing {shift : Shift} {pending : List Shift} {moved : List InstrId}
    (hl : s.program.chain.Spells l) (h : applyShift shift s = .ok moved t)
    (hs : s.program.Owing l (shift :: pending)) : t.program.Owing l pending := by
  have happlied := applyShift_applied hl h
  have hevolves := happlied.evolves
  have hlike : ∀ x (a b : Instruction),
      (b = if x ∈ s.program.chain.reach shift then a.shifted shift.delta else a) →
        b.sec = a.sec ∧ b.size = a.size := by
    intro x a b hb
    rw [hb]
    split <;> exact ⟨rfl, rfl⟩
  have hreaches := hevolves.reach fun x a b hb => (hlike x a b hb).1
  refine ⟨fun front id rest instr hsplit hid => ?_⟩
  obtain ⟨old, hold, rfl⟩ := hevolves.get?_of hid
  have hplace := hs.place front id rest old hsplit hold
  rw [Program.place_evolve hevolves happlied.carries.bases hlike, (hlike id old _ rfl).1, ← hplace]
  simp only [Chain.owed, hreaches, List.map_cons, List.sum_cons]
  rw [← UInt64.add_assoc]
  congr 1
  split
  · rfl
  · exact (UInt64.add_zero _).symm

/-- A shift that is carried out pays what it owes to instructions and functions alike. The functions need
a case of their own: one that begins at a moved instruction moves with it, and the one that the shift is
for grows. -/
theorem applyShift_pending {shift : Shift} {pending : List Shift} {moved : List InstrId}
    (hl : s.program.chain.Spells l) (h : applyShift shift s = .ok moved t)
    (hs : s.program.Pending l (shift :: pending)) : t.program.Pending l pending := by
  have happlied := applyShift_applied hl h
  have hevolves := happlied.evolves
  have hlike : ∀ x (a b : Instruction),
      (b = if x ∈ s.program.chain.reach shift then a.shifted shift.delta else a) →
        b.sec = a.sec ∧ b.size = a.size := by
    intro x a b hb
    rw [hb]
    split <;> exact ⟨rfl, rfl⟩
  have hreaches := hevolves.reach fun x a b hb => (hlike x a b hb).1
  refine ⟨applyShift_owing hl h hs.toOwing, fun id function hfunction hdefined => ?_, fun id => ?_⟩
  · obtain ⟨old, hold, hcarried⟩ := happlied.carries.functions.get?_of hfunction
    have hsize := happlied.size id
    rw [FunctionTable.size?, FunctionTable.size?, hfunction, hold] at hsize
    have hmeasured := hs.size id old hold (by rw [Function.isDefined, ← hcarried.first]; exact hdefined)
    have hsizes : t.program.chain.sizeOf = s.program.chain.sizeOf := funext fun x =>
      (hevolves.retains fun _ => True).sizeOf (fun x a b hb => (hlike x a b hb).2) trivial
    rw [hcarried.instructions, hevolves.instructions, hsizes, ← hmeasured]
    simp only [owedBy, List.map_cons, List.sum_cons]
    rw [← UInt64.add_assoc]
    congr 1
    split at hsize
    next hfunc =>
      rw [if_pos hfunc]
      exact Option.some.inj hsize
    next hfunc =>
      rw [if_neg hfunc, UInt64.add_zero]
      exact Option.some.inj hsize
  -- a function that waited for this shift is where it begins now; those that wait for another one still
  -- do
  · rcases hs.anchored id with hanchored | ⟨other, hmem, hdelta, hbegins⟩
    · exact .inl (happlied.anchored id (.inl hanchored))
    · rcases List.mem_cons.mp hmem with rfl | hmem
      · exact .inl (happlied.anchored id (.inr ⟨hdelta, hbegins⟩))
      · refine .inr ⟨other, hmem, hdelta, ?_⟩
        rw [hreaches]
        exact happlied.carries.functions.beginsAt hbegins

/-! ## Settling -/

/-- A jump grows by what its long form has more. -/
theorem size_widened (source : Instruction) (long : Encoding.Promotion) :
    (source.widened long).size = source.size + (growth source long).toUInt64 := by
  show UInt64.ofNat long.bytes.length = UInt64.ofNat source.bytes.length + _
  rw [growth, Int64.ofInt_sub, Int64.ofInt_eq_ofNat, Int64.ofInt_eq_ofNat, Int64.toUInt64_sub,
    Int64.toUInt64_ofNat', Int64.toUInt64_ofNat']
  grind

/-- A displacement that is written changes nothing that the layout depends on. -/
theorem WriteRun.keepsLayout (h : WriteRun s jumper .written t) :
    s.program.chain.Evolves (fun _ a b => b.sec = a.sec ∧ b.size = a.size ∧ b.addr = a.addr
        ∧ b.func = a.func) t.program.chain
      ∧ t.program.functions = s.program.functions ∧ t.program.bases = s.program.bases := by
  cases h with
  | written lands sec hfield write =>
    rename_i source physical field bytes
    refine ⟨.of_adjust fun id instr hinstr => ?_, rfl, rfl⟩
    by_cases hid : id = jumper
    · subst hid
      rw [lands.get, Option.some.injEq] at hinstr
      subst hinstr
      rw [Chain.only_self]
      -- the encoding keeps its length
      exact ⟨rfl, congrArg UInt64.ofNat (DisplacementField.length_write? write), rfl, rfl⟩
    · rw [Chain.only_ne hid]
      exact ⟨rfl, rfl, rfl, rfl⟩

/-- Writing a displacement puts at the end the shift for what it widened, so the instructions are owed
what they were. -/
theorem settleLinked_owing {progress done : Progress} (hs : s.program.Gapless l)
    (h : settleLinked progress jumper s = .ok done t) (howing : s.program.Owing l progress.2) :
    t.program.Owing l done.2 := by
  rcases settleLinked_ok hs.spells h with ⟨hjumper, hrun⟩ | ⟨-, rfl, rfl⟩
  · cases hrun with
    | skipped => exact howing
    | written run =>
      obtain ⟨hchain, -, hbases⟩ := run.keepsLayout
      exact howing.evolve hchain hbases fun _ _ _ hab => ⟨hab.1, hab.2.1, hab.2.2.1⟩
    | widened lands =>
      rename_i source physical field long hsec hfield hfits hshort hlong
      exact howing.grow hs hjumper lands.get
        (Program.grows_adjust lands.get (fun _ => ⟨rfl, rfl, rfl⟩) (size_widened source long))
        rfl rfl rfl
  · exact howing

/-- Writing a displacement puts at the end the shift for what it widened, so all is pending as before. -/
theorem settleLinked_pending {progress done : Progress} (hs : s.program.Orderly l)
    (h : settleLinked progress jumper s = .ok done t) (hpending : s.program.Pending l progress.2) :
    t.program.Pending l done.2 := by
  rcases settleLinked_ok hs.spells h with ⟨hjumper, hrun⟩ | ⟨-, rfl, rfl⟩
  · cases hrun with
    | skipped => exact hpending
    | written run =>
      obtain ⟨hchain, hfunctions, hbases⟩ := run.keepsLayout
      exact hpending.evolve hchain hfunctions hbases fun _ _ _ h => h
    | widened lands =>
      rename_i source physical field long hsec hfield hfits hshort hlong
      exact hpending.grow hs hjumper lands.get
        (Program.grows_adjust lands.get (fun _ => ⟨rfl, rfl, rfl⟩) (size_widened source long))
        rfl rfl rfl rfl rfl
  · exact hpending

/-! ## Invariants of settling -/

/-- A property of a session with shifts to be carried out that settling keeps: a shift that is carried
out is taken off the list, and the shifts that follow from a jumper are put at its end. -/
structure SettleInvariant (P : Session → List Shift → Prop) : Prop where
  carried : ∀ {s t : Session} {shift : Shift} {pending : List Shift} {moved : List InstrId},
    applyShift shift s = .ok moved t → P s (shift :: pending) → P t pending
  jumper : ∀ {s t : Session} {jumper : InstrId} {progress done : Progress},
    settleLinked progress jumper s = .ok done t → P s progress.2 → P t done.2
  same : ∀ {s t : Session} {pending : List Shift}, t.program = s.program → P s pending → P t pending

namespace SettleInvariant

variable {P : Session → List Shift → Prop}

/-- Shifts carried out one after the other keep what settling keeps. -/
theorem applyAll (hP : SettleInvariant P) {round pending : List Shift}
    {moved : List (List InstrId)} (h : round.mapM applyShift s = .ok moved t)
    (hs : P s (round ++ pending)) : P t pending := by
  induction round generalizing s moved with
  | nil =>
    obtain ⟨-, rfl⟩ := mapM_nil_ok.mp h
    exact hs
  | cons shift round ih =>
    obtain ⟨ids, m, rest, hfirst, hrest, -⟩ := mapM_cons_ok.mp h
    exact ih hrest (hP.carried hfirst hs)

/-- Displacements written one after the other keep what settling keeps. -/
theorem settleAll (hP : SettleInvariant P) {jumpers : List InstrId} {progress done : Progress}
    (h : jumpers.foldlM settleLinked progress s = .ok done t) (hs : P s progress.2) :
    P t done.2 := by
  induction jumpers generalizing s progress with
  | nil =>
    obtain ⟨rfl, rfl⟩ := foldlM_nil_ok.mp h
    exact hs
  | cons jumper jumpers ih =>
    obtain ⟨middle, m, hfirst, hrest⟩ := foldlM_cons_ok.mp h
    exact ih hrest (hP.jumper hfirst hs)

/-- A round carries out its shifts and leaves those of the jumps that it widens. -/
theorem round (hP : SettleInvariant P) {round next : List Shift} {summary : UpdateSummary}
    (h : settleRound round s = .ok (summary, next) t) (hs : P s round) : P t next := by
  obtain ⟨moved, m, affected, written, hshifts, -, hjumpers⟩ := settleRound_run h
  exact hP.settleAll hjumpers (hP.applyAll hshifts (by simpa using hs))

/-- Rounds keep what settling keeps, until no shift is left. The induction is on the passes allowed; each
round carries out the shifts of the last and writes what they affect. -/
theorem rounds (hP : SettleInvariant P) {steps : Nat} {round : List Shift}
    {summary total : UpdateSummary} (h : settleRounds summary steps round s = .ok total t)
    (hs : P s round) : P t [] := by
  -- the invariant holds for a round with its shifts pending, and for none once there are no more rounds
  induction steps generalizing s round summary with
  | zero =>
    cases round with
    | nil =>
      obtain ⟨-, rfl⟩ := pure_ok.mp h
      exact hs
    | cons shift round =>
      simp only [settleRounds, bind_ok, throw_ok] at h
      obtain ⟨_, _, _, h⟩ := h
      exact h.elim
  | succ steps ih =>
    cases round with
    | nil =>
      obtain ⟨-, rfl⟩ := pure_ok.mp h
      exact hs
    | cons shift round =>
      simp only [settleRounds, bind_ok] at h
      obtain ⟨⟨done, next⟩, m, hround, h⟩ := h
      exact ih h (hP.round hround hs)

/-- When a shift is settled, no shift is left to be carried out. -/
theorem settled (hP : SettleInvariant P) {shift : Shift} {summary : UpdateSummary}
    (h : settle shift s = .ok summary t) (hs : P s [shift]) : P t [] := by
  obtain ⟨m, hrounds, hsame⟩ := settle_run h
  exact hP.same hsame (hP.rounds hrounds hs)

end SettleInvariant

/-- What instructions are owed is kept by settling. -/
theorem owing_invariant :
    SettleInvariant fun s pending => s.program.Gapless l ∧ s.program.Owing l pending where
  carried h hs := ⟨hs.1.carry (Session.Carries.updateRelation.applyShift h), applyShift_owing hs.1.spells h hs.2⟩
  jumper h hs := ⟨hs.1.carry (Session.Carries.updateRelation.settleLinked h), settleLinked_owing hs.1 h hs.2⟩
  same h hs := h ▸ hs

/-- What is pending is kept by settling. -/
theorem pending_invariant :
    SettleInvariant fun s pending => s.program.Orderly l ∧ s.program.Pending l pending where
  carried h hs := ⟨hs.1.carry (Session.Carries.updateRelation.applyShift h), applyShift_pending hs.1.spells h hs.2⟩
  jumper h hs := ⟨hs.1.carry (Session.Carries.updateRelation.settleLinked h), settleLinked_pending hs.1 h hs.2⟩
  same h hs := h ▸ hs

/-- Settling a shift puts every instruction into place, if nothing but that shift was missing. -/
theorem settle_owing {shift : Shift} {summary : UpdateSummary} (hs : s.program.Gapless l)
    (h : settle shift s = .ok summary t) (howing : s.program.Owing l [shift]) :
    t.program.Owing l [] :=
  (owing_invariant.settled h ⟨hs, howing⟩).2

/-- Settling a shift puts everything into place, if nothing but that shift was missing. -/
theorem settle_pending {shift : Shift} {summary : UpdateSummary} (hs : s.program.Orderly l)
    (h : settle shift s = .ok summary t) (hpending : s.program.Pending l [shift]) :
    t.program.Pending l [] :=
  (pending_invariant.settled h ⟨hs, hpending⟩).2

end EngineM

end Splice
