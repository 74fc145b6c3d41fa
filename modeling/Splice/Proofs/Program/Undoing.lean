import Splice.Proofs.Program.GainAndLoss

/-!
# There and back

One instruction comes into the code and goes again, and each time the code behind it moves
by as much as it has bytes. `Trip` holds the five sessions together, from `s`, in which it
is not there yet, to `u`, in which it is gone. The two shifts reach the same instructions
(`Trip.reaches`) and cancel out, so everything is where it was; what is where it was and as
long as it was is also encoded as it was (`Trip.bytes_eq`).

A record follows the instructions that list it. What was passed to the new instruction
follows that one at first and the heir from then on; since the heir has moved in between,
the record is led on by as much when it is passed back (`Trip.records_eq`). A function whose
first instruction was the heir begins at the new one for a while, and at the heir again
(`Trip.function_stages`).

Nothing but the names that were given out and the log of the redirects differs at the end
(`Program.Restored`, `Trip.restored`).
-/

namespace Splice

/-! ## Records and bystanders -/

/-- What a distance is where `source` goes as far as `dest` does, and by `delta` further. -/
def diverted (source dest : InstrId) (delta : UInt64) (pointed : InstrId → UInt64) (id : InstrId) : UInt64 :=
  if id = source then pointed dest + delta else pointed id

section

variable {source dest : InstrId} {pointed patched : InstrId → UInt64} {delta : Int64}

theorem diverted_of_ne {id : InstrId} {extra : UInt64} (h : id ≠ source) :
    diverted source dest extra pointed id = pointed id :=
  if_neg h

/-- The target of a relocation on its way to `dest` and back. -/
theorem Relocation.drifted_between {reloc : Relocation} (hne : reloc.target ≠ some dest) :
    (let passed := if reloc.target = some source then
        { reloc with target := some dest, addend := reloc.addend + 0 } else reloc
      let moved := { passed with
        offset := passed.offset + (passed.instr.map patched).getD 0
        addend := passed.addend + ((passed.target.map pointed).getD 0).toInt64 }
      if moved.target = some dest then
        { moved with target := some source, addend := moved.addend + delta } else moved)
    = { reloc with
        offset := reloc.offset + (reloc.instr.map patched).getD 0
        addend := reloc.addend
          + ((reloc.target.map (diverted source dest delta.toUInt64 pointed)).getD 0).toInt64 } := by
  by_cases hsource : reloc.target = some source
  · simp [hsource, diverted, Int64.add_assoc]
  · cases htarget : reloc.target with
    | none => simp [htarget]
    | some id =>
      rw [htarget] at hsource hne
      have hid : id ≠ source := fun h => hsource (congrArg some h)
      have hid' : id ≠ dest := fun h => hne (congrArg some h)
      simp [htarget, hid, hid', diverted_of_ne]

/-- The instruction that a record points at, and its value, on the same way. -/
theorem link_between (value : UInt64) {instr : Option InstrId} (hne : instr ≠ some dest) :
    (let value' := (if instr = some source then value + (0 : Int64).toUInt64 else value)
        + ((if instr = some source then some dest else instr).map pointed).getD 0
      if (if instr = some source then some dest else instr) = some dest then value' + delta.toUInt64
        else value')
    = value + (instr.map (diverted source dest delta.toUInt64 pointed)).getD 0
      ∧ (if (if instr = some source then some dest else instr) = some dest then some source
        else if instr = some source then some dest else instr) = instr := by
  have hzero : (0 : Int64).toUInt64 = 0 := rfl
  by_cases hsource : instr = some source
  · simp [hsource, hzero, diverted, UInt64.add_assoc]
  · cases instr with
    | none => simp
    | some id =>
      have hid : id ≠ source := fun h => hsource (congrArg some h)
      have hid' : id ≠ dest := fun h => hne (congrArg some h)
      simp [hid, hid', diverted_of_ne]

/-- A record that is pointed elsewhere, follows the code there and is pointed back has followed the code, but
what pointed at `source` has followed `dest`. -/
theorem Symbol.drifted_between {record : Symbol} (hinstr : record.instr ≠ some dest)
    (htarget : ∀ reloc, record.reloc = some reloc → reloc.target ≠ some dest) :
    ((record.pointedTo source dest 0).drifted pointed patched).pointedTo dest source delta
      = record.drifted (diverted source dest delta.toUInt64 pointed) patched := by
  obtain ⟨hvalue, hback⟩ := link_between record.value hinstr
  have hreloc : (((record.pointedTo source dest 0).drifted pointed patched).pointedTo dest source delta).reloc
      = (record.drifted (diverted source dest delta.toUInt64 pointed) patched).reloc := by
    simp only [Symbol.pointedTo, Symbol.drifted, Option.map_map]
    exact Option.map_congr fun reloc hr => Relocation.drifted_between (htarget reloc hr)
  rw [Symbol.pointedTo, Symbol.drifted] at *
  congr 1

end

theorem Chain.Bypasses.inSection {chain after : Chain} {other id : InstrId} (h : chain.Bypasses after other)
    (hid : id ≠ other) (sec : SectionId) : after.inSection sec id = chain.inSection sec id :=
  Chain.Retains.inSection h (fun _ _ _ hab => hab.sec) hid

theorem Chain.Bypasses.akin {chain after : Chain} {other id : InstrId} {found made : Instruction}
    (h : chain.Bypasses after other) (hid : id ≠ other)
    (hmade : made.sec = found.sec ∧ made.func = found.func) :
    after.akin made id = chain.akin found id :=
  Chain.Retains.any_get? h hid fun a b hab => by rw [hab.sec, hab.func, hmade.1, hmade.2]

/-! ## Bounds of functions -/

namespace Function

variable {a b c : Function} {heir new : InstrId}

/-- What begins with `new` instead of `heir` begins with `heir` again. -/
theorem bounded_beginning {before : Option InstrId} (hfirst : a.first ≠ some new) (hlast : a.last ≠ some new)
    (hb : (EngineM.beginningAt heir new a).Resited b) :
    a.Resited (EngineM.boundedBy new (some heir) before b) := by
  rw [Resited, EngineM.boundedBy, hb, EngineM.beginningAt]
  by_cases hheir : a.first = some heir
  · simp only [if_pos hheir, if_neg hlast, if_true]
    rw [← hheir]
  · simp only [if_neg hheir, if_neg hlast, if_neg hfirst]

/-- What ends in `new` instead of `heir` ends in `heir` again. -/
theorem bounded_ending {after : Option InstrId} (hfirst : a.first ≠ some new) (hlast : a.last ≠ some new)
    (hb : (EngineM.endingAt heir new a).Resited b) :
    a.Resited (EngineM.boundedBy new after (some heir) b) := by
  rw [Resited, EngineM.boundedBy, hb, EngineM.endingAt]
  by_cases hheir : a.last = some heir
  · simp only [if_pos hheir, if_neg hfirst, if_true]
    rw [← hheir]
  · simp only [if_neg hheir, if_neg hlast, if_neg hfirst]

end Function

/-! ## What is to come back -/

/-- Nothing but the names that were given out and the log of the redirects is different. -/
structure Program.Restored (program after : Program) : Prop where
  nodes : ∀ id, after.chain.node? id = program.chain.node? id
  head : after.chain.head = program.chain.head
  tail : after.chain.tail = program.chain.tail
  length : after.chain.length = program.chain.length
  redirects : program.redirects.Same after.redirects
  rest : after = { program with chain := after.chain, redirects := after.redirects }

theorem Program.Restored.functions {program after : Program} (h : program.Restored after) :
    after.functions = program.functions := by
  rw [h.rest]

theorem Program.Restored.symbols {program after : Program} (h : program.Restored after) :
    after.symbols = program.symbols := by
  rw [h.rest]

/-- Instructions that are linked in the same order are in the same slots. -/
theorem Chain.Spells.node?_eq {chain after : Chain} {l : List InstrId} (h : chain.Spells l)
    (hafter : after.Spells l) (hattached : chain.Attached l)
    (hget : ∀ id, after.get? id = chain.get? id) (id : InstrId) : after.node? id = chain.node? id := by
  by_cases hid : id ∈ l
  · obtain ⟨xs, ys, rfl⟩ := List.append_of_mem hid
    obtain ⟨a, ha⟩ := h.links.node?
    obtain ⟨b, hb⟩ := hafter.links.node?
    have hsame := hget id
    rw [Chain.get?, Chain.get?, ha, hb, Option.map_some, Option.map_some, Option.some.injEq] at hsame
    rw [ha, hb]
    exact congrArg (fun instr => some (Node.mk instr _ _)) hsame
  · have hnone : chain.get? id = none := by
      cases ha : chain.get? id with
      | none => rfl
      | some a => exact absurd (hattached.mem ha) hid
    rw [Chain.get?_eq_none_iff_node?.mp hnone, ← Chain.get?_eq_none_iff_node?, hget id, hnone]

theorem FunctionTable.ext_get? {a b : FunctionTable} (h : ∀ owner, a.get? owner = b.get? owner) : a = b := by
  cases a
  cases b
  exact congrArg FunctionTable.mk (Array.ext_getElem? fun index => h ⟨index⟩)

/-! ## The way there and back -/

namespace EngineM

theorem Slid.bypasses {s t : Session} {shift : Shift} (h : Slid s t shift) (other : InstrId) :
    s.program.chain.Bypasses t.program.chain other :=
  (h.chain.retains (· ≠ other)).mono (fun _ _ _ _ hab => ⟨by rw [hab.1], by rw [hab.1]⟩) fun _ hx => hx

/-- An instruction `new` comes between `xs` and `ys` and goes again, in four stages: it is spliced in and the
code behind it moves, it is taken out and the code moves back. Nothing is widened. -/
structure Trip (s m t e u : Session) (xs ys : List InstrId) (new heir : InstrId)
    (found made moved kept : Instruction) (passed : List SymbolId) (there back : Shift) : Prop where
  spells : s.program.chain.Spells (xs ++ ys)
  attached : s.program.chain.Attached (xs ++ ys)
  gains : Gains s m xs ys new heir found made passed
  slid : Slid m t there
  loses : Loses t e xs ys new heir moved kept
  slidBack : Slid e u back
  getHeir : s.program.chain.get? heir = some found
  getMoved : t.program.chain.get? new = some moved
  getKept : t.program.chain.get? heir = some kept
  site : there.first = ys.head? ∧ there.sec = found.sec ∧ there.func = found.func
  siteBack : back.first = ys.head? ∧ back.sec = found.sec ∧ back.func = found.func
  delta : there.delta.toUInt64 + back.delta.toUInt64 = 0
  untargeted : ∀ x a, s.program.chain.get? x = some a → ∀ logical ∈ a.references, logical ≠ new
  same : s.program.redirects.Same e.program.redirects
  lands : ∀ jumper logical, jumper ≠ new → logical ≠ new →
    swap new heir (m.program.redirects.resolve jumper logical) = s.program.redirects.resolve jumper logical
  answered : s.program.chain.Answered ∧ u.program.chain.Answered
  recodes : Session.Recodes m t ∧ Session.Recodes e u
  encodes : (∀ x ∈ xs ++ ys, s.program.Encodes x) ∧ ∀ x ∈ xs ++ ys, u.program.Encodes x

namespace Trip

variable {s m t e u : Session} {xs ys : List InstrId} {new heir x : InstrId}
  {found made moved kept a : Instruction} {passed : List SymbolId} {there back : Shift}
  (h : Trip s m t e u xs ys new heir found made moved kept passed there back)

include h

theorem ne_new (hx : x ∈ xs ++ ys) : x ≠ new := by
  rintro rfl
  exact h.gains.spells.not_mem_rest hx

/-! ### Code -/

theorem bypassesSlid : s.program.chain.Bypasses t.program.chain new :=
  h.gains.bypasses.trans (h.slid.bypasses new)

theorem bypassesLost : s.program.chain.Bypasses e.program.chain new :=
  h.bypassesSlid.trans h.loses.bypasses

theorem bypasses : s.program.chain.Bypasses u.program.chain new :=
  h.bypassesLost.trans (h.slidBack.bypasses new)

theorem spellsBack : u.program.chain.Spells (xs ++ ys) :=
  h.slidBack.chain.spells h.loses.spells

theorem setting : Session.SameSetting s u :=
  ((h.gains.setting.trans h.slid.setting).trans h.loses.setting).trans h.slidBack.setting

/-- Both shifts move the same instructions. -/
theorem reaches : m.program.chain.reach there = ys.takeWhile (s.program.chain.inSection found.sec)
    ∧ e.program.chain.reach back = ys.takeWhile (s.program.chain.inSection found.sec) := by
  have hsame : ∀ {chain : Chain}, s.program.chain.Bypasses chain new →
      ys.takeWhile (chain.inSection found.sec) = ys.takeWhile (s.program.chain.inSection found.sec) := by
    intro chain hchain
    have hys : ∀ x ∈ ys, x ≠ new := fun x hx => h.ne_new (List.mem_append_right _ hx)
    clear h
    -- whether an instruction is in the section does not depend on `new`
    induction ys with
    | nil => rfl
    | cons y ys ih =>
      rw [List.takeWhile_cons, List.takeWhile_cons, hchain.inSection (hys y (List.mem_cons_self ..)),
        ih fun x hx => hys x (List.mem_cons_of_mem _ hx)]
  have hm : m.program.chain.Spells ((xs ++ [new]) ++ ys) := by simpa using h.gains.spells
  rw [Chain.reach_eq hm h.site.1, Chain.reach_eq h.loses.spells h.siteBack.1, h.site.2.1, h.siteBack.2.1,
    hsame h.gains.bypasses, hsame h.bypassesLost]
  exact ⟨rfl, rfl⟩

/-- An instruction at the five moments. -/
theorem stages (ha : s.program.chain.get? x = some a) :
    ∃ b c d f, m.program.chain.get? x = some b ∧ t.program.chain.get? x = some c
      ∧ e.program.chain.get? x = some d ∧ u.program.chain.get? x = some f
      ∧ a.Alike b ∧ c = { b with addr := c.addr, bytes := c.bytes } ∧ c.bytes.length = b.bytes.length
      ∧ c.Alike d ∧ f = { d with addr := f.addr, bytes := f.bytes } ∧ f.bytes.length = d.bytes.length
      ∧ f.addr = a.addr := by
  have hx : x ∈ xs ++ ys := h.attached.mem ha
  obtain ⟨b, hb, hab⟩ := h.gains.alike.get? hx ha
  obtain ⟨c, hc, hbc, hlength, haddr⟩ := h.slid.chain.get? hb
  obtain ⟨d, hd, hcd⟩ := h.loses.alike.get? hx hc
  obtain ⟨f, hf, hdf, hlength', haddr'⟩ := h.slidBack.chain.get? hd
  refine ⟨b, c, d, f, hb, hc, hd, hf, hab, hbc, hlength, hcd, hdf, hlength', ?_⟩
  rw [h.reaches.1] at haddr
  rw [h.reaches.2] at haddr'
  rw [haddr', hcd.addr, haddr, hab.addr]
  split
  · rw [UInt64.add_assoc, h.delta, UInt64.add_zero]
  · rw [UInt64.add_zero, UInt64.add_zero]

theorem mem (ha : s.program.chain.get? x = some a) : x ∈ xs ++ ys := h.attached.mem ha

theorem made_ties : made.relocs = [] ∧ made.referencedBy = passed := by
  obtain ⟨left, -, -, hties⟩ := h.gains.ties
  have hmade := hties new
  rw [if_pos rfl, Chain.tie?_eq h.gains.placed, Option.some.injEq] at hmade
  exact ⟨congrArg Tie.relocs hmade, congrArg Tie.referencedBy hmade⟩

theorem moved_ties : moved.relocs = [] ∧ moved.referencedBy = passed := by
  obtain ⟨moved', hmoved', hsame, -⟩ := h.slid.chain.get? h.gains.placed
  obtain rfl := Option.some.inj (h.getMoved.symm.trans hmoved')
  rw [hsame]
  exact h.made_ties

/-- The heir is left with what it did not pass on. -/
theorem gained_ties {b : Instruction} (ha : s.program.chain.get? x = some a)
    (hb : m.program.chain.get? x = some b) :
    b.relocs = a.relocs ∧ a.referencedBy = b.referencedBy ++ (if x = heir then passed else [])
      ∧ (x = heir → b.referencedBy = [] ∨ passed = []) := by
  obtain ⟨left, hsplit, hone, hties⟩ := h.gains.ties
  have hbtie := hties x
  rw [if_neg (h.ne_new (h.mem ha)), Chain.tie?_eq hb] at hbtie
  by_cases hheir : x = heir
  · subst hheir
    obtain rfl := Option.some.inj (ha.symm.trans h.getHeir)
    rw [if_pos rfl, Option.some.injEq] at hbtie
    have hleft : b.referencedBy = left := congrArg Tie.referencedBy hbtie
    rw [if_pos rfl, hleft]
    exact ⟨congrArg Tie.relocs hbtie, hsplit, fun _ => hone⟩
  · rw [if_neg hheir, Chain.tie?_eq ha, Option.some.injEq] at hbtie
    rw [if_neg hheir, List.append_nil]
    exact ⟨congrArg Tie.relocs hbtie, (congrArg Tie.referencedBy hbtie).symm, fun h => absurd h hheir⟩

/-- It gets that back. -/
theorem lost_ties {d : Instruction} (ha : s.program.chain.get? x = some a)
    (hd : e.program.chain.get? x = some d) : d.relocs = a.relocs ∧ d.referencedBy = a.referencedBy := by
  obtain ⟨b, c, d', -, hb, hc, hd', -, -, hbc, -, -, -, -, -⟩ := h.stages ha
  obtain rfl := Option.some.inj (hd.symm.trans hd')
  obtain ⟨hrelocs, hpointers, -⟩ := h.gained_ties ha hb
  have hcties : c.relocs = b.relocs ∧ c.referencedBy = b.referencedBy := by
    rw [hbc]
    exact ⟨rfl, rfl⟩
  have hdtie := h.loses.ties x
  rw [if_neg (h.ne_new (h.mem ha)), Chain.tie?_eq hd] at hdtie
  by_cases hheir : x = heir
  · subst hheir
    obtain rfl := Option.some.inj (hc.symm.trans h.getKept)
    rw [if_pos rfl, Option.some.injEq] at hdtie
    rw [if_pos rfl, ← hcties.2, ← h.moved_ties.2] at hpointers
    exact ⟨(congrArg Tie.relocs hdtie).trans (hcties.1.trans hrelocs),
      (congrArg Tie.referencedBy hdtie).trans hpointers.symm⟩
  · rw [if_neg hheir, Chain.tie?_eq hc, Option.some.injEq] at hdtie
    rw [if_neg hheir, List.append_nil] at hpointers
    exact ⟨(congrArg Tie.relocs hdtie).trans (hcties.1.trans hrelocs),
      (congrArg Tie.referencedBy hdtie).trans (hcties.2.trans hpointers.symm)⟩

/-- Nothing lists what was not there yet, or is not there any more. -/
theorem targetedBy_eq {f : Instruction} (ha : s.program.chain.get? x = some a)
    (hf : u.program.chain.get? x = some f) : f.targetedBy = a.targetedBy := by
  obtain ⟨f', hf', hbeside⟩ := h.bypasses.get? (h.ne_new (h.mem ha)) ha
  obtain rfl := Option.some.inj (hf.symm.trans hf')
  refine hbeside.targetedBy_eq (fun hnew => ?_) (fun hnew => ?_)
  · obtain ⟨source, hsource, -⟩ := h.answered.1 x a new ha hnew
    rw [h.gains.fresh] at hsource
    cases hsource
  · obtain ⟨source, hsource, -⟩ := h.answered.2 x f new hf hnew
    rw [h.slidBack.chain.get?_eq_none h.loses.gone] at hsource
    cases hsource

/-- What has no displacement to write before has none while `new` is there. -/
theorem landing?_gained {b : Instruction} (ha : s.program.chain.get? x = some a)
    (hb : m.program.chain.get? x = some b) (hnone : s.program.landing? x a = none) :
    m.program.landing? x b = none := by
  have hx := h.ne_new (h.mem ha)
  obtain ⟨b', hb', hbeside⟩ := h.gains.bypasses.get? hx ha
  obtain rfl := Option.some.inj (hb.symm.trans hb')
  refine Option.eq_none_iff_forall_ne_some.mpr fun physical hland => ?_
  obtain ⟨hdirect, logical, htarget, hget, hsec⟩ := Program.landing?_eq_some.mp hland
  rw [hbeside.isDirectTransfer] at hdirect
  rw [hbeside.target] at htarget
  rw [hbeside.sec] at hsec
  have hlands := h.lands x logical hx
    (h.untargeted x a ha logical (by simp [Instruction.references, htarget]))
  have hsome : ∃ physical, s.program.landing? x a = some physical := by
    by_cases hnew : m.program.redirects.resolve x logical = new
    · rw [hnew, swap_self] at hlands
      rw [hnew, h.gains.placed, Option.some.injEq] at hget
      refine ⟨found, Program.landing?_eq_some.mpr ⟨hdirect, logical, htarget, hlands ▸ h.getHeir, ?_⟩⟩
      rw [← h.gains.akin.1, hget, hsec]
    · rw [swap_of_ne hnew] at hlands
      obtain ⟨before, hbefore, hbeside'⟩ := h.gains.bypasses.get?_of hnew hget
      refine ⟨before, Program.landing?_eq_some.mpr ⟨hdirect, logical, htarget, hlands ▸ hbefore, ?_⟩⟩
      rw [← hbeside'.sec, hsec]
  obtain ⟨physical, hsome⟩ := hsome
  rw [hnone] at hsome
  cases hsome

/-- Nor has it one when `new` is gone. -/
theorem landing?_lost {d : Instruction} (ha : s.program.chain.get? x = some a)
    (hd : e.program.chain.get? x = some d) (hnone : s.program.landing? x a = none) :
    e.program.landing? x d = none := by
  obtain ⟨d', hd', hbeside⟩ := h.bypassesLost.get? (h.ne_new (h.mem ha)) ha
  obtain rfl := Option.some.inj (hd.symm.trans hd')
  refine Option.eq_none_iff_forall_ne_some.mpr fun physical hland => ?_
  obtain ⟨hdirect, logical, htarget, hget, hsec⟩ := Program.landing?_eq_some.mp hland
  rw [h.same.resolve] at hget
  have hne : s.program.redirects.resolve x logical ≠ new := by
    intro hnew
    rw [hnew, h.loses.gone] at hget
    cases hget
  obtain ⟨before, hbefore, hbeside'⟩ := h.bypassesLost.get?_of hne hget
  have hsome : s.program.landing? x a = some before := Program.landing?_eq_some.mpr
    ⟨hbeside.isDirectTransfer.symm.trans hdirect, logical, hbeside.target.symm.trans htarget, hbefore,
      by rw [← hbeside'.sec, hsec, hbeside.sec]⟩
  rw [hnone] at hsome
  cases hsome

/-- A jumper that is written twice is written as it was, since it has as many bytes and as far to go. -/
theorem bytes_eq {f : Instruction} (ha : s.program.chain.get? x = some a) (hf : u.program.chain.get? x = some f) :
    f.bytes = a.bytes := by
  obtain ⟨b, c, d, f', hb, hc, hd, hf', hab, -, hlength, hcd, -, hlength', haddr⟩ := h.stages ha
  obtain rfl := Option.some.inj (hf.symm.trans hf')
  obtain ⟨c', hc', -, hcoded, hkept⟩ := h.recodes.1.chain.get? hb
  obtain rfl := Option.some.inj (hc.symm.trans hc')
  obtain ⟨f', hf', -, hcoded', hkept'⟩ := h.recodes.2.chain.get? hd
  obtain rfl := Option.some.inj (hf.symm.trans hf')
  -- only what lands in its own section is written; everything else keeps its bytes
  cases hland : s.program.landing? x a with
  | none =>
    rw [(hkept' (h.landing?_lost ha hd hland)).1, hcd.bytes, (hkept (h.landing?_gained ha hb hland)).1, hab.bytes]
  | some physical =>
    obtain ⟨hdirect, logical, htarget, hget, hsec⟩ := Program.landing?_eq_some.mp hland
    have hlengths : f.bytes.length = a.bytes.length := by
      rw [hlength', hcd.bytes, hlength, hab.bytes]
    have hcodes : a.Coded f :=
      (Instruction.Coded.of_alike hab).trans (hcoded.trans ((Instruction.Coded.of_alike hcd).trans hcoded'))
    obtain ⟨f', hf', hbeside⟩ := h.bypasses.get? (h.ne_new (h.mem ha)) ha
    obtain rfl := Option.some.inj (hf.symm.trans hf')
    obtain ⟨-, -, -, physical', -, -, -, hget', -, -, -, -, -, -, haddr'⟩ := h.stages hget
    obtain ⟨physical'', hget'', hbeside'⟩ := h.bypasses.get? (h.ne_new (h.mem hget)) hget
    obtain rfl := Option.some.inj (hget'.symm.trans hget'')
    obtain ⟨before, hbefore, hencodes⟩ := h.encodes.1 x (h.mem ha) a logical ha htarget hdirect
    obtain rfl := Option.some.inj (hget.symm.trans hbefore)
    have hresolve : u.program.redirects.resolve x logical = s.program.redirects.resolve x logical := by
      rw [h.slidBack.redirects, h.same.resolve]
    obtain ⟨after, hafter, hencodes'⟩ := h.encodes.2 x (h.mem ha) f logical hf
      (hbeside.target.trans htarget) (hbeside.isDirectTransfer.trans hdirect)
    rw [hresolve, hget', Option.some.injEq] at hafter
    subst hafter
    have hdisp := Instruction.displacement?_of_encodes (hencodes hsec)
    have hdisp' := Instruction.displacement?_of_encodes
      (hencodes' (by rw [hbeside'.sec, hsec, hbeside.sec]))
    -- all addresses between here and there come back, so the distance does
    have hsame : f.displacementTo physical' = a.displacementTo physical := by
      have hsize : f.size = a.size := congrArg UInt64.ofNat hlengths
      rw [Instruction.displacementTo, Instruction.displacementTo, Instruction.endAddr, Instruction.endAddr,
        haddr, haddr', hsize]
    rw [hsame] at hdisp'
    exact ((Instruction.Coded.refl a).encoding_eq hcodes hlengths hdisp hdisp').1

/-- Each instruction is what it was: it has gone as far back as it had come, and what it listed it lists
again. -/
theorem get?_eq (x : InstrId) : u.program.chain.get? x = s.program.chain.get? x := by
  cases ha : s.program.chain.get? x with
  | none =>
    by_cases hx : x = new
    · rw [hx]
      exact h.slidBack.chain.get?_eq_none h.loses.gone
    · cases hf : u.program.chain.get? x with
      | none => rfl
      | some f =>
        obtain ⟨a, ha', -⟩ := h.bypasses.get?_of hx hf
        rw [ha] at ha'
        cases ha'
  | some a =>
    obtain ⟨f, hf, hbeside⟩ := h.bypasses.get? (h.ne_new (h.mem ha)) ha
    obtain ⟨-, -, d, f', -, -, hd, hf', -, -, -, -, hdf, -, haddr⟩ := h.stages ha
    obtain rfl := Option.some.inj (hf.symm.trans hf')
    have hties : f.relocs = a.relocs ∧ f.referencedBy = a.referencedBy := by
      have hlost := h.lost_ties ha hd
      rw [hdf]
      exact hlost
    rw [hf, hbeside.eq, haddr, h.bytes_eq ha hf, hties.1, hties.2, h.targetedBy_eq ha hf]

/-! ### Records -/

/-- What follows an instruction there follows it back. -/
theorem drift_cancels (ha : s.program.chain.get? x = some a) (n : Nat) :
    UInt64.ofNat n * (t.program.chain.addrOf x - m.program.chain.addrOf x)
      + UInt64.ofNat n * (u.program.chain.addrOf x - e.program.chain.addrOf x) = 0 := by
  obtain ⟨b, c, d, f, hb, hc, hd, hf, hab, -, -, hcd, -, -, haddr⟩ := h.stages ha
  rw [Chain.addrOf_eq hb, Chain.addrOf_eq hc, Chain.addrOf_eq hd, Chain.addrOf_eq hf, haddr, hcd.addr, hab.addr]
  grind

/-- What was put in is not among the code that moves. -/
theorem moved_addr : moved.addr = made.addr := by
  obtain ⟨moved', hmoved', -, -, haddr⟩ := h.slid.chain.get? h.gains.placed
  obtain rfl := Option.some.inj (h.getMoved.symm.trans hmoved')
  have hnot : new ∉ m.program.chain.reach there := by
    rw [h.reaches.1]
    intro hmem
    exact h.gains.spells.not_mem_rest (List.mem_append_right _ ((List.takeWhile_sublist _).subset hmem))
  rw [haddr, if_neg hnot, UInt64.add_zero]

/-- How far records were taken along by what they patch cancels out over both moves. -/
theorem patchedDrift_cancels (symbol : SymbolId) (x : InstrId) :
    m.patchedDrift t symbol x + e.patchedDrift u symbol x = 0 := by
  rw [Session.patchedDrift, Session.patchedDrift, Chain.patches, Chain.patches]
  by_cases hx : x = new
  · subst hx
    rw [h.gains.placed, h.loses.gone, Option.map_some, h.made_ties.1]
    simp
  · cases ha : s.program.chain.get? x with
    | some a =>
      obtain ⟨b, -, d, -, hb, -, hd, -⟩ := h.stages ha
      rw [hb, hd, Option.map_some, Option.map_some, (h.gained_ties ha hb).1, (h.lost_ties ha hd).1]
      exact h.drift_cancels ha _
    | none =>
      rw [h.gains.bypasses.get?_eq_none hx ha, h.bypassesLost.get?_eq_none hx ha]
      simp

/-- At the heir this is so of records that were not passed on, and elsewhere of all records. -/
theorem pointedDrift_cancels {symbol : SymbolId} (hx : x ≠ heir ∨ symbol ∉ passed) :
    m.pointedDrift t symbol x + e.pointedDrift u symbol x = 0 := by
  rw [Session.pointedDrift, Session.pointedDrift, Chain.pointers, Chain.pointers]
  by_cases hnew : x = new
  · subst hnew
    rw [h.loses.gone, Chain.addrOf_eq h.getMoved, Chain.addrOf_eq h.gains.placed, h.moved_addr]
    simp
  · cases ha : s.program.chain.get? x with
    | some a =>
      obtain ⟨b, -, d, -, hb, -, hd, -⟩ := h.stages ha
      have hcount : a.referencedBy.count symbol = b.referencedBy.count symbol := by
        rw [(h.gained_ties ha hb).2.1, List.count_append]
        rcases hx with hx | hx
        · rw [if_neg hx, List.count_nil, Nat.add_zero]
        · split
          · rw [List.count_eq_zero_of_not_mem hx, Nat.add_zero]
          · rw [List.count_nil, Nat.add_zero]
      rw [hb, hd, Option.map_some, Option.map_some, (h.lost_ties ha hd).2, hcount]
      exact h.drift_cancels ha _
    | none =>
      rw [h.gains.bypasses.get?_eq_none hnew ha, h.bypassesLost.get?_eq_none hnew ha]
      simp

/-- A record that was passed on follows the heir back from where that had moved. -/
theorem passedDrift_cancels {symbol : SymbolId} (hpassed : symbol ∈ passed) (hnodup : passed.Nodup) :
    m.pointedDrift t symbol new + (kept.addr - moved.addr) + e.pointedDrift u symbol heir = 0 := by
  have hnear := h.gains.near (List.ne_nil_of_mem hpassed)
  obtain ⟨b, c, d, f, hb, hc, hd, hf, hab, -, -, hcd, -, -, haddr⟩ := h.stages h.getHeir
  obtain rfl := Option.some.inj (hc.symm.trans h.getKept)
  have hleft : b.referencedBy = [] :=
    ((h.gained_ties h.getHeir hb).2.2 rfl).resolve_right (List.ne_nil_of_mem hpassed)
  have hcount : d.referencedBy.count symbol = 1 := by
    rw [(h.lost_ties h.getHeir hd).2, (h.gained_ties h.getHeir hb).2.1, hleft, if_pos rfl, List.nil_append]
    rw [hnodup.count, if_pos hpassed]
  rw [Session.pointedDrift, Session.pointedDrift, Chain.pointers, Chain.pointers, hd, Option.map_some,
    Option.getD_some, hcount, Chain.addrOf_eq h.getMoved, Chain.addrOf_eq h.gains.placed, Chain.addrOf_eq hd,
    Chain.addrOf_eq hf, h.moved_addr, haddr, hcd.addr, hnear]
  grind

/-- Records come back if what was passed on was listed once, and by no record that names `new` already. -/
theorem records_eq (hnodup : passed.Nodup)
    (hunnamed : ∀ symbol ∈ passed, ∀ record, s.program.symbols.get? symbol = some record →
      record.instr ≠ some new ∧ ∀ reloc, record.reloc = some reloc → reloc.target ≠ some new)
    (symbol : SymbolId) : u.program.symbols.get? symbol = s.program.symbols.get? symbol := by
  rw [h.slidBack.follows.records, h.loses.records, h.moved_ties.2, h.slid.follows.records, h.gains.records]
  cases hrecord : s.program.symbols.get? symbol with
  | none => split <;> rfl
  | some record =>
    by_cases hpassed : symbol ∈ passed
    · obtain ⟨hinstr, htarget⟩ := hunnamed symbol hpassed record hrecord
      rw [if_pos hpassed, if_pos hpassed]
      simp only [Option.map_some]
      rw [Symbol.drifted_between hinstr htarget, Symbol.drifted_drifted]
      have hself : ∀ x, diverted heir new (kept.addr - moved.addr).toInt64.toUInt64 (m.pointedDrift t symbol) x
          + e.pointedDrift u symbol x = 0 := by
        intro x
        unfold diverted
        split
        next hx =>
          rw [UInt64.toUInt64_toInt64, hx]
          exact h.passedDrift_cancels hpassed hnodup
        next hx => exact h.pointedDrift_cancels (.inl hx)
      rw [funext hself, funext (h.patchedDrift_cancels symbol), Symbol.drifted_zero]
    · rw [if_neg hpassed, if_neg hpassed]
      simp only [Option.map_some]
      rw [Symbol.drifted_drifted, funext fun x => h.pointedDrift_cancels (x := x) (.inr hpassed),
        funext (h.patchedDrift_cancels symbol), Symbol.drifted_zero]

/-! ### Functions -/

theorem moved_akin : moved.sec = found.sec ∧ moved.func = found.func := by
  obtain ⟨moved', hmoved', hsame, -⟩ := h.slid.chain.get? h.gains.placed
  obtain rfl := Option.some.inj (h.getMoved.symm.trans hmoved')
  rw [hsame]
  exact h.gains.akin

/-- The kin of what was put in is that of its heir. -/
theorem kin_eq {o : Option InstrId} (ho : ∀ x, o = some x → x ∈ xs ++ ys) :
    o.filter (t.program.chain.akin moved) = o.filter (s.program.chain.akin found) := by
  cases o with
  | none => rfl
  | some x =>
    rw [Option.filter_some, Option.filter_some,
      h.bypassesSlid.akin (h.ne_new (ho x rfl)) h.moved_akin]

/-- A function at the five moments. Only what is put in front of its first instruction becomes its first
instruction for a while. -/
theorem function_stages {owner : FuncId} {function : Function}
    (hfunction : s.program.functions.get? owner = some function)
    (hbounds : found.func = some owner → function.first ≠ some new ∧ function.last ≠ some new) :
    ∃ fm ft fe fu, m.program.functions.get? owner = some fm ∧ t.program.functions.get? owner = some ft
      ∧ e.program.functions.get? owner = some fe ∧ u.program.functions.get? owner = some fu
      ∧ fm.addr = function.addr ∧ fm.size = function.size
      ∧ (fm.first = function.first ∨ fm.first = some new ∧ function.first = some heir
        ∧ found.func = some owner ∧ ys.head? = some heir ∧ made.addr = found.addr)
      ∧ fm.Resited ft ∧ fe.addr = ft.addr ∧ fe.size = ft.size ∧ function.Resited fe ∧ fe.Resited fu := by
  have hafter : ys.head?.filter (t.program.chain.akin moved) = ys.head?.filter (s.program.chain.akin found) :=
    h.kin_eq fun x hx => List.mem_append_right _ (List.mem_of_head? hx)
  have hbefore : xs.getLast?.filter (t.program.chain.akin moved)
      = xs.getLast?.filter (s.program.chain.akin found) :=
    h.kin_eq fun x hx => List.mem_append_left _ (List.mem_of_getLast? hx)
  have he : e.program.functions.get? owner = _ :=
    (congrArg (FunctionTable.get? · owner) h.loses.functions).trans (get?_withOwner owner)
  rw [hafter, hbefore, h.moved_akin.2] at he
  -- what is done to the function that owns the heir, and that it is undone
  have hturned : ∃ f : Function → Function,
      m.program.functions = (withOwner s found.func f).program.functions
      ∧ (f function).addr = function.addr ∧ (f function).size = function.size
      ∧ ((f function).first = function.first ∨ (f function).first = some new ∧ function.first = some heir
        ∧ ys.head? = some heir ∧ made.addr = found.addr)
      ∧ (found.func = some owner → ∀ b : Function, (f function).Resited b → function.Resited (boundedBy new
        (ys.head?.filter (s.program.chain.akin found)) (xs.getLast?.filter (s.program.chain.akin found)) b)) := by
    rcases h.gains.functions with ⟨hnext, hplace, hm⟩ | ⟨hnext, hlast, hm⟩
    · have hhead : ys.head? = some heir := (Option.filter_eq_some_iff.mp hnext).1
      refine ⟨beginningAt heir new, hm, ?_, ?_, ?_, fun howner b hb => ?_⟩
      · unfold beginningAt; split <;> rfl
      · unfold beginningAt; split <;> rfl
      · unfold beginningAt
        split
        next hfirst => exact .inr ⟨rfl, hfirst, hhead, hplace⟩
        next => exact .inl rfl
      · rw [hnext]
        exact Function.bounded_beginning (hbounds howner).1 (hbounds howner).2 hb
    · refine ⟨endingAt heir new, hm, ?_, ?_, .inl ?_, fun howner b hb => ?_⟩
      · unfold endingAt; split <;> rfl
      · unfold endingAt; split <;> rfl
      · unfold endingAt; split <;> rfl
      · rw [hlast]
        exact Function.bounded_ending (hbounds howner).1 (hbounds howner).2 hb
  obtain ⟨f, hm, haddr, hsize, hfirst, hback⟩ := hturned
  replace hm : m.program.functions.get? owner = _ :=
    (congrArg (FunctionTable.get? · owner) hm).trans (get?_withOwner owner)
  rw [hfunction] at hm
  by_cases howner : found.func = some owner
  · rw [if_pos howner] at hm he
    obtain ⟨ft, hft, hresited⟩ := h.slid.functions.get? hm
    rw [hft] at he
    obtain ⟨fu, hfu, hresited'⟩ := h.slidBack.functions.get? he
    exact ⟨f function, ft, _, fu, hm, hft, he, hfu, haddr, hsize,
      hfirst.imp_right fun ⟨hnew, hheir, hhead, hplace⟩ => ⟨hnew, hheir, howner, hhead, hplace⟩, hresited,
      rfl, rfl, hback howner ft hresited, hresited'⟩
  · rw [if_neg howner] at hm he
    obtain ⟨ft, hft, hresited⟩ := h.slid.functions.get? hm
    rw [hft] at he
    obtain ⟨fu, hfu, hresited'⟩ := h.slidBack.functions.get? he
    exact ⟨function, ft, ft, fu, hm, hft, he, hfu, rfl, rfl, .inl rfl, hresited, rfl, rfl, hresited, hresited'⟩

/-- A function is as large as it was: it has lost what it gained. -/
theorem size_eq {owner : FuncId} {function fu : Function}
    (hfunction : s.program.functions.get? owner = some function)
    (hbounds : found.func = some owner → function.first ≠ some new ∧ function.last ≠ some new)
    (hfu : u.program.functions.get? owner = some fu) : fu.size = function.size := by
  obtain ⟨fm, ft, fe, fu', hm, ht, he, hu, -, hsize, -, -, -, hsize', -, -⟩ := h.function_stages hfunction hbounds
  obtain rfl := Option.some.inj (hfu.symm.trans hu)
  have hthere := h.slid.size_eq hm ht
  have hback := h.slidBack.size_eq he hu
  rw [hback, hsize', hthere, hsize, h.site.2.2, h.siteBack.2.2, UInt64.add_assoc]
  split
  · rw [h.delta, UInt64.add_zero]
  · rw [UInt64.add_zero, UInt64.add_zero]

/-- A function that begins at an instruction of its own is where that instruction is, also if the one that
was put in front of it was its first for a while. -/
theorem anchored {owner : FuncId} (hbegins : s.program.BeginsAt owner x)
    (hbounds : ∀ function, s.program.functions.get? owner = some function → found.func = some owner →
      function.first ≠ some new ∧ function.last ≠ some new)
    (hanchored : s.program.Anchored owner) : u.program.Anchored owner := by
  obtain ⟨hstamps, function, hfunction, hx⟩ := hbegins
  obtain ⟨a, ha, hfunc⟩ := Chain.stamps_eq_true.mp hstamps
  obtain ⟨fm, ft, fe, fu, hm, ht, he, -, haddr, -, hfirst, hresited, haddr', -, hback, -⟩ :=
    h.function_stages hfunction (hbounds function hfunction)
  obtain ⟨b, c, d, f, hb, hc, hd, hf, hab, hbc, -, hcd, -, -, hsame⟩ := h.stages ha
  have hstart : function.addr = a.addr := hanchored function x a hfunction hx ha hfunc
  have hgained : m.program.Anchored owner := by
    intro function' y instr hfunction' hy hinstr _
    obtain rfl := Option.some.inj (hfunction'.symm.trans hm)
    rcases hfirst with hkept | ⟨hnew, hheir, -, -, hplace⟩
    · obtain rfl := Option.some.inj (hy.symm.trans (hkept.trans hx))
      rw [haddr, hstart, Option.some.inj (hinstr.symm.trans hb), hab.addr]
    · obtain rfl := Option.some.inj (hy.symm.trans hnew)
      obtain rfl := Option.some.inj (hx.symm.trans hheir)
      rw [haddr, hstart, Option.some.inj (hinstr.symm.trans h.gains.placed), hplace,
        Option.some.inj (ha.symm.trans h.getHeir)]
  have hslid := h.slid.anchored owner (.inl hgained)
  have hfirst' : ft.first = fm.first ∧ fe.first = some x := by
    rw [hresited, hback]
    exact ⟨rfl, hx⟩
  refine h.slidBack.anchored owner ?_
  -- the function kept its first instruction, or `new` was its first until it was taken out again
  rcases hfirst with hkept | ⟨hnew, hheir, howner, hhead, hplace⟩
  · refine .inl fun function' y instr hfunction' hy hinstr _ => ?_
    obtain rfl := Option.some.inj (hfunction'.symm.trans he)
    obtain rfl := Option.some.inj (hy.symm.trans hfirst'.2)
    have hcfunc : c.func = some owner := by
      rw [hbc, ← hfunc]
      exact hab.func
    rw [haddr', hslid ft y c ht (hfirst'.1.trans (hkept.trans hx)) hc hcfunc,
      Option.some.inj (hinstr.symm.trans hd), hcd.addr]
  · obtain rfl := Option.some.inj (hx.symm.trans hheir)
    obtain rfl := Option.some.inj (ha.symm.trans h.getHeir)
    -- the way back moves the function along with its heir, unless there is nothing to go back
    by_cases hdelta : back.delta = 0
    · refine .inl fun function' y instr hfunction' hy hinstr _ => ?_
      obtain rfl := Option.some.inj (hfunction'.symm.trans he)
      obtain rfl := Option.some.inj (hy.symm.trans hfirst'.2)
      obtain ⟨f', hf', -, -, hshift⟩ := h.slidBack.chain.get? hd
      obtain rfl := Option.some.inj (hf.symm.trans hf')
      have hzero : back.delta.toUInt64 = 0 := by rw [hdelta]; rfl
      rw [hzero, ite_self, UInt64.add_zero, hsame] at hshift
      rw [haddr', hslid ft new moved ht (hfirst'.1.trans hnew) h.getMoved (h.moved_akin.2.trans howner),
        h.moved_addr, hplace, Option.some.inj (hinstr.symm.trans hd), hshift]
    · refine .inr ⟨hdelta, fe, x, he, hfirst'.2, ?_⟩
      obtain ⟨rest, rfl⟩ := List.head?_eq_some_iff.mp hhead
      rw [h.reaches.2, List.takeWhile_cons, if_pos ((Chain.inSection_iff h.getHeir).mpr rfl)]
      exact List.mem_cons_self ..

/-- What begins while the instruction is there began before, if at its heir. -/
theorem begins_of_gained {owner : FuncId} {function : Function} {y : InstrId}
    (hfunction : s.program.functions.get? owner = some function)
    (hbounds : found.func = some owner → function.first ≠ some new ∧ function.last ≠ some new)
    (hbegins : m.program.BeginsAt owner y) : ∃ x, s.program.BeginsAt owner x := by
  obtain ⟨fm, ft, fe, fu, hm, -, -, -, -, -, hfirst, -⟩ := h.function_stages hfunction hbounds
  obtain ⟨hstamps, function', hfunction', hy⟩ := hbegins
  obtain rfl := Option.some.inj (hfunction'.symm.trans hm)
  obtain ⟨b, hb, hfunc⟩ := Chain.stamps_eq_true.mp hstamps
  rcases hfirst with hkept | ⟨-, hheir, howner, -, -⟩
  · have hne : y ≠ new := by
      rintro rfl
      rw [Option.some.inj (hb.symm.trans h.gains.placed), h.gains.akin.2] at hfunc
      exact (hbounds hfunc).1 (hkept.symm.trans hy)
    obtain ⟨a, ha, hbeside⟩ := h.gains.bypasses.get?_of hne hb
    exact ⟨y, Chain.stamps_eq_true.mpr ⟨a, ha, hbeside.func.symm.trans hfunc⟩, function, hfunction,
      hkept.symm.trans hy⟩
  · exact ⟨heir, Chain.stamps_eq_true.mpr ⟨found, h.getHeir, howner⟩, function, hfunction, hheir⟩

/-- What begins when the instruction is gone again began before. -/
theorem begins_of_lost {owner : FuncId} {function : Function} {y : InstrId}
    (hfunction : s.program.functions.get? owner = some function)
    (hbounds : found.func = some owner → function.first ≠ some new ∧ function.last ≠ some new)
    (hbegins : e.program.BeginsAt owner y) : s.program.BeginsAt owner y := by
  obtain ⟨fm, ft, fe, fu, -, -, he, -, -, -, -, -, -, -, hback, -⟩ := h.function_stages hfunction hbounds
  obtain ⟨hstamps, function', hfunction', hy⟩ := hbegins
  obtain rfl := Option.some.inj (hfunction'.symm.trans he)
  obtain ⟨d, hd, hfunc⟩ := Chain.stamps_eq_true.mp hstamps
  have hne : y ≠ new := by
    rintro rfl
    rw [h.loses.gone] at hd
    cases hd
  obtain ⟨a, ha, hbeside⟩ := h.bypassesLost.get?_of hne hd
  refine ⟨Chain.stamps_eq_true.mpr ⟨a, ha, hbeside.func.symm.trans hfunc⟩, function, hfunction, ?_⟩
  rw [hback] at hy
  exact hy

/-- A function begins where it did. If it began at the anchor, the new first instruction did not stay; any
other beginning moved by the same distance there and back. -/
theorem addr_eq {owner : FuncId} {function fu : Function}
    (hfunction : s.program.functions.get? owner = some function)
    (hbounds : found.func = some owner → function.first ≠ some new ∧ function.last ≠ some new)
    (hanchored : s.program.Anchored owner) (hfu : u.program.functions.get? owner = some fu) :
    fu.addr = function.addr := by
  obtain ⟨fm, ft, fe, fu', hm, ht, he, hu, haddr, -, -, -, haddr', -, hback, hback'⟩ :=
    h.function_stages hfunction hbounds
  obtain rfl := Option.some.inj (hfu.symm.trans hu)
  have hsame := Function.Resited.trans hback hback'
  by_cases hbegins : ∃ x, s.program.BeginsAt owner x
  · obtain ⟨x, hbegins⟩ := hbegins
    have hend := h.anchored hbegins (fun function' hfunction' => by
      rw [Option.some.inj (hfunction'.symm.trans hfunction)]
      exact hbounds) hanchored
    obtain ⟨hstamps, function', hfunction', hx⟩ := hbegins
    obtain rfl := Option.some.inj (hfunction'.symm.trans hfunction)
    obtain ⟨a, ha, hfunc⟩ := Chain.stamps_eq_true.mp hstamps
    rw [hend fu x a hfu (by rw [hsame]; exact hx) ((h.get?_eq x).trans ha) hfunc,
      hanchored function' x a hfunction hx ha hfunc]
  -- a function that begins nowhere in the code is moved by neither shift
  · have hthere := h.slid.still owner fun _ y _ hy => hbegins (h.begins_of_gained hfunction hbounds hy)
    have hback := h.slidBack.still owner fun _ y _ hy => hbegins ⟨y, h.begins_of_lost hfunction hbounds hy⟩
    simp only [FunctionTable.addr?, hm, ht, he, hfu, Option.map_some, Option.some.injEq] at hthere hback
    rw [hback, haddr', hthere, haddr]

/-- Functions have the bounds, addresses and sizes that they had. -/
theorem functions_eq
    (hbounds : ∀ owner function, s.program.functions.get? owner = some function → found.func = some owner →
      function.first ≠ some new ∧ function.last ≠ some new)
    (hanchored : ∀ owner, s.program.Anchored owner) : u.program.functions = s.program.functions := by
  refine FunctionTable.ext_get? fun owner => ?_
  cases hfunction : s.program.functions.get? owner with
  | some function =>
    obtain ⟨fm, ft, fe, fu, -, -, -, hfu, -, -, -, -, -, -, hback, hback'⟩ :=
      h.function_stages hfunction (hbounds owner function hfunction)
    have haddr := h.addr_eq hfunction (hbounds owner function hfunction) (hanchored owner) hfu
    have hsize := h.size_eq hfunction (hbounds owner function hfunction) hfu
    have hsame : fu = { function with addr := fu.addr, size := fu.size } := hback.trans hback'
    rw [hfu, hsame, haddr, hsize]
  | none =>
    have hgained : m.program.functions.get? owner = none := by
      rcases h.gains.functions with ⟨-, -, hm⟩ | ⟨-, -, hm⟩
      all_goals
        rw [hm]
        refine (get?_withOwner owner).trans ?_
        rw [hfunction]
        exact ite_self none
    have hlost : e.program.functions.get? owner = none := by
      rw [h.loses.functions]
      refine (get?_withOwner owner).trans ?_
      rw [h.slid.functions.get?_eq_none hgained]
      exact ite_self none
    exact h.slidBack.functions.get?_eq_none hlost

theorem symbols_eq (hgraph : s.program.graph = none) (hnodup : passed.Nodup)
    (hunnamed : ∀ symbol ∈ passed, ∀ record, s.program.symbols.get? symbol = some record →
      record.instr ≠ some new ∧ ∀ reloc, record.reloc = some reloc → reloc.target ≠ some new) :
    u.program.symbols = s.program.symbols := by
  refine SymbolTable.ext_get? (h.records_eq hnodup hunnamed) ?_ ?_
  all_goals rw [h.setting hgraph]

/-- After the trip all is as it was, except for the log and for the names given out. -/
theorem restored (hgraph : s.program.graph = none) (hnodup : passed.Nodup)
    (hunnamed : ∀ symbol ∈ passed, ∀ record, s.program.symbols.get? symbol = some record →
      record.instr ≠ some new ∧ ∀ reloc, record.reloc = some reloc → reloc.target ≠ some new)
    (hbounds : ∀ owner function, s.program.functions.get? owner = some function → found.func = some owner →
      function.first ≠ some new ∧ function.last ≠ some new)
    (hanchored : ∀ owner, s.program.Anchored owner) : s.program.Restored u.program where
  nodes := Chain.Spells.node?_eq h.spells h.spellsBack h.attached h.get?_eq
  head := h.spellsBack.head.trans h.spells.head.symm
  tail := h.spellsBack.tail.trans h.spells.tail.symm
  length := h.spellsBack.length.trans h.spells.length.symm
  redirects := h.slidBack.redirects ▸ h.same
  rest := by
    rw [h.setting hgraph, h.functions_eq hbounds hanchored, ← h.symbols_eq hgraph hnodup hunnamed]

end Trip

end EngineM

end Splice
