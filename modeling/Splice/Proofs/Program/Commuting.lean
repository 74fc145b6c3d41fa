import Mathlib.Logic.Equiv.Basic
import Splice.Proofs.Program.Agreement
import Splice.Proofs.Program.Pointing

/-!
# Insertions commute

Whether an instruction is put in front of one place first and another one in front of another place
next, or the other way round, makes no difference but for the names that the two are given
(`insertions_commute`).

On the way there the programs differ: what the first insertion does not widen yet, the second
one may have to. In the end both have received the same plan (`Program.Receives`), and two programs
that have received the same plan agree up to the names of what was put in (`Receives.agrees`):
the code because no more is widened than has to be, functions and symbols because they are where
the instructions are that they go along with.

The insertions are at different anchors, of instructions without targets. What differs in the
end are the two names that were handed out; the statement gives the map from names to names and
says that everything else is the same under it.
-/

namespace Splice

/-! ## Programs that agree -/

/-- The programs are the same, but that `names` leads from the names of the instructions in the first to
those in the other one. -/
structure Program.AgreesUpTo (program other : Program) (names : InstrId → InstrId) : Prop where
  order : other.chain.ids = program.chain.ids.map names
  code : ∀ id ∈ program.chain.ids, ∃ a b, program.chain.get? id = some a
    ∧ other.chain.get? (names id) = some b ∧ a.Alike b ∧ b.target = a.target.map names
  /-- Every transfer lands on the same instruction. -/
  landings : ∀ {id a logical}, program.chain.get? id = some a → a.target = some logical →
    other.redirects.resolve (names id) (names logical) = names (program.redirects.resolve id logical)
  functions : ∀ owner, Option.Rel (fun f g => g.first = f.first.map names ∧ g.last = f.last.map names
      ∧ g.addr = f.addr ∧ g.size = f.size)
    (program.functions.get? owner) (other.functions.get? owner)
  symbols : ∀ symbol, other.symbols.get? symbol
    = (program.symbols.get? symbol).map (·.renamed fun id => some (names id))

/-- Functions and records name no instruction whose name has not been given out yet. -/
def Program.LinksIssued (program : Program) : Prop :=
  program.functions.Within program.chain.Issued ∧ program.symbols.Within program.chain.Issued

instance (program : Program) : Decidable program.LinksIssued := inferInstanceAs (Decidable (_ ∧ _))

/-! ## Plans -/

namespace Plan

variable {plan : Plan} {names names' : InstrId → InstrId} {redirects : Redirects} {addition : Addition}
  {anchor new id : InstrId}

/-- Where a function begins that began at the instruction. -/
def front (plan : Plan) (names : InstrId → InstrId) (id : InstrId) : InstrId :=
  if (plan id).isSome then names id else id

/-- Jumpers enter only where something is put in. -/
theorem isSome_of_enters (h : plan.enters redirects id = true) : (plan id).isSome = true := by
  cases hplan : plan id with
  | none =>
    rw [enters_of_none hplan] at h
    cases h
  | some _ => rfl

/-- A second anchor is no landing of the first plan unless it is the anchor itself. -/
theorem entry_ne (hnames : ∀ id, (plan id).isSome = true → names id ≠ anchor)
    (hid : id ≠ anchor) : plan.entry names redirects id ≠ anchor := by
  rw [entry]
  split
  next henters => exact hnames id (isSome_of_enters henters)
  next => exact hid

/-- Putting one more instruction in front leads function starts on as the longer plan does. -/
theorem headed_front (hnone : plan anchor = none)
    (hnames : ∀ id, (plan id).isSome = true → names id ≠ anchor) :
    EngineM.headed anchor new ∘ plan.front names
      = (plan.put anchor addition).front (name names anchor new) := by
  funext id
  rw [Function.comp_apply, front, front]
  by_cases hid : id = anchor
  · subst hid
    rw [hnone, put_self]
    exact name_self.trans name_self.symm
  · rw [put_ne hid, name_ne hid]
    split
    next hplan => exact name_ne (hnames id hplan)
    next => exact name_ne hid

/-- Putting one more instruction in front leads jumpers on as the longer plan does. -/
theorem leading_entry {given : Instruction} {retarget : Retarget} {redirects' : Redirects}
    (hnone : plan anchor = none) (hnames : ∀ id, (plan id).isSome = true → names id ≠ anchor)
    (hredirects : redirects'.targetOf? anchor = redirects.targetOf? anchor) :
    EngineM.leading redirects' anchor new retarget ∘ plan.entry names redirects
      = (plan.put anchor ⟨given, retarget⟩).entry (name names anchor new) redirects := by
  funext id
  rw [Function.comp_apply, EngineM.leading, hredirects]
  by_cases hid : id = anchor
  · subst hid
    rw [entry_of_none hnone, entry, enters, put_self, name_self, Option.any_some]
    simp only [and_true, Bool.and_eq_true, decide_eq_true_eq, Option.isNone_iff_eq_none]
  · rw [entry_put hid, if_neg fun hled => entry_ne hnames hid hled.2.2]

/-- The order in which two additions are made does not show in the plan. -/
theorem put_comm {other : InstrId} {addition' : Addition} (h : anchor ≠ other) :
    (plan.put anchor addition).put other addition' = (plan.put other addition').put anchor addition := by
  funext id
  by_cases hid : id = anchor
  · rw [hid, put_ne h, put_self, put_self]
  · rw [put_ne hid]
    unfold put
    rw [if_neg hid]

end Plan

/-- A function begins where its first instruction did, with the room in front of what lies there. -/
theorem Program.Extends.startOf_front {program after : Program} {plan : Plan} {names : InstrId → InstrId}
    {id : InstrId} {a : Instruction} (h : program.Extends after plan names)
    (hl : program.chain.Spells program.chain.ids) (hl' : after.chain.Spells after.chain.ids)
    (ha : program.chain.get? id = some a) (hid : id ∈ program.chain.ids) :
    after.startOf (plan.front names id) = program.offsetIn a.sec (plan.spans after.lengths) id := by
  rw [Plan.front]
  cases hplan : plan id with
  | none =>
    obtain ⟨b, hb, hkept⟩ := h.kept ha
    rw [Option.isSome_none, if_neg Bool.false_ne_true, startOf_eq hb, hkept.sec, h.offsetIn hl hl' ha hid,
      Plan.room_of_none hplan, Nat.add_zero]
  | some addition =>
    obtain ⟨b, hb, hplaced⟩ := h.placed ha hplan
    rw [Option.isSome_some, if_pos rfl, startOf_eq hb, hplaced.sec, h.offsetIn_name hl hl' hid hplan]

/-! ## Programs that received a plan -/

/-- The plan is realized, functions begin at what was put in front of their first instructions, and
records are led on where jumpers are. -/
structure Program.Receives (program after : Program) (plan : Plan) (names : InstrId → InstrId) : Prop
    extends program.Realizes after plan names where
  bounds : program.Bounds after (plan.front names)
  draws : program.Draws after (plan.entry names program.redirects)

namespace Program.Receives

open EngineM

section

variable {program after : Program} {s t : Session} {plan : Plan} {names : InstrId → InstrId}
  {given : Instruction} {retarget : Retarget} {anchor new : InstrId}

/-- A program receives the empty plan as it is. -/
theorem refl (h : program.Checked) (names : InstrId → InstrId) :
    program.Receives program (fun _ => none) names where
  toRealizes := .refl h names
  bounds := .refl program
  draws := .of_same (fun _ hid => hid) (fun _ _ => rfl) rfl

/-- Function starts are led to names that are given out. -/
theorem front_issued (h : program.Receives after plan names) {id : InstrId} (hid : program.chain.Issued id) :
    after.chain.Issued (plan.front names id) := by
  rw [Plan.front]
  split
  next hplan => exact (h.fresh id hplan).2
  next => exact Nat.lt_of_lt_of_le hid h.issued

/-- Functions begin where names have been given out, if they did before. -/
theorem first_issued (h : program.Receives after plan names) (hlinks : program.LinksIssued)
    {owner : FuncId} {function : Function} {first : InstrId}
    (hfunction : after.functions.get? owner = some function) (hfirst : function.first = some first) :
    after.chain.Issued first := by
  cases hf : program.functions.get? owner with
  | none =>
    rw [h.bounds.missing owner hf] at hfunction
    cases hfunction
  | some f =>
    obtain ⟨g, hg, -, hbegin⟩ := h.bounds.carried hf
    obtain rfl := Option.some.inj (hg.symm.trans hfunction)
    rw [hfirst] at hbegin
    obtain ⟨id, hid, rfl⟩ := Option.map_eq_some_iff.mp hbegin.symm
    have hissued := (hlinks.1 f (Array.mem_of_getElem? hf)).1 id hid
    split
    · exact h.front_issued hissued
    · exact Nat.lt_of_lt_of_le hissued h.issued

/-- An insertion adds to the plan. -/
theorem insert (h : program.Receives s.program plan names) (hp : program.Tidy program.chain.ids)
    (hlinks : program.LinksIssued) (hanchor : anchor ∈ program.chain.ids) (hnone : plan anchor = none)
    (htarget : given.target = none) (htable : given.jumpTable = []) (hgiven : given.bytes ≠ [])
    (hinsert : insertBefore anchor given retarget s = .ok new t)
    (hsize : ∀ sec, t.program.bytesIn sec t.program.lengths t.program.chain.ids < 2 ^ 63) :
    program.Receives t.program (plan.put anchor ⟨given, retarget⟩) (Plan.name names anchor new) := by
  have hnames : ∀ id, (plan id).isSome = true → names id ≠ anchor := fun id hid =>
    h.name_ne_mem hp hid hanchor
  have hbounds := insert_bounds h.tidy h.sited (fun hf hfirst => h.first_issued hlinks hf hfirst) htarget htable
    hgiven hinsert hsize
  have hdraws := insert_draws h.tidy htarget htable (h.draws.within hlinks.2) hinsert
  refine ⟨h.toRealizes.insert hp hanchor hnone htarget htable hinsert, ?_, ?_⟩
  · rw [← Plan.headed_front hnone hnames]
    exact h.bounds.trans hbounds
  · rw [← Plan.leading_entry hnone hnames (h.unplanned anchor hanchor hnone)]
    exact h.draws.trans hdraws hlinks.2

end

/-! ## No two programs receive the same plan -/

section

variable {program first second : Program} {plan : Plan} {names names' across : InstrId → InstrId}
  {id : InstrId} {a : Instruction} (h : program.Receives first plan names)
  (k : program.Receives second plan names') (hp : program.Tidy program.chain.ids)
  (hsize : ∀ sec, first.bytesIn sec first.lengths first.chain.ids < 2 ^ 63)

include h k hp hsize

/-! ### Code -/

/-- An old instruction is the same in both programs, with the target that it had. -/
theorem alike (hid : id ∈ program.chain.ids) : ∃ a b c, program.chain.get? id = some a
    ∧ first.chain.get? id = some b ∧ second.chain.get? id = some c ∧ b.Alike c
    ∧ b.target = a.target ∧ c.target = a.target := by
  obtain ⟨a, ha⟩ := hp.spells.get?_isSome hid
  obtain ⟨b, hb, hkept⟩ := h.kept ha
  obtain ⟨c, hc, hkept'⟩ := k.kept ha
  obtain ⟨hbytes, hopcode⟩ := h.toRealizes.encoding_eq k.toRealizes hp hsize ha hb hc
  exact ⟨a, b, c, ha, hb, hc,
    ⟨h.toRealizes.addr_eq k.toRealizes hp hsize ha hb hc, hkept'.sec.trans hkept.sec.symm, hbytes,
      hopcode, hkept'.flags.trans hkept.flags.symm, hkept'.func.trans hkept.func.symm⟩,
    hkept.target, hkept'.target⟩

/-- A new instruction is the same in both programs, under its name in each. -/
theorem alike_name (hid : id ∈ program.chain.ids) (hplan : (plan id).isSome = true) :
    ∃ b c, first.chain.get? (names id) = some b ∧ second.chain.get? (names' id) = some c ∧ b.Alike c
      ∧ b.target = none ∧ c.target = none := by
  obtain ⟨a, ha⟩ := hp.spells.get?_isSome hid
  obtain ⟨addition, hadd⟩ := Option.isSome_iff_exists.mp hplan
  obtain ⟨b, hb, hplaced⟩ := h.placed ha hadd
  obtain ⟨c, hc, hplaced'⟩ := k.placed ha hadd
  exact ⟨b, c, hb, hc,
    ⟨h.toRealizes.addr_name_eq k.toRealizes hp hsize ha hadd hb hc,
      hplaced'.sec.trans hplaced.sec.symm, hplaced'.bytes.trans hplaced.bytes.symm,
      hplaced'.opcodeSize.trans hplaced.opcodeSize.symm, hplaced'.flags.trans hplaced.flags.symm,
      hplaced'.func.trans hplaced.func.symm⟩, hplaced.target, hplaced'.target⟩

theorem addrOf_eq (hid : id ∈ program.chain.ids) : second.chain.addrOf id = first.chain.addrOf id := by
  obtain ⟨-, b, c, -, hb, hc, halike, -⟩ := alike h k hp hsize hid
  rw [Chain.addrOf_eq hb, Chain.addrOf_eq hc, halike.addr]

theorem addrOf_name_eq (hid : id ∈ program.chain.ids) (hplan : (plan id).isSome = true) :
    second.chain.addrOf (names' id) = first.chain.addrOf (names id) := by
  obtain ⟨b, c, hb, hc, halike, -⟩ := alike_name h k hp hsize hid hplan
  rw [Chain.addrOf_eq hb, Chain.addrOf_eq hc, halike.addr]

/-- Code begins at the same address in both. -/
theorem addrOf_front_eq (hid : id ∈ program.chain.ids) :
    second.chain.addrOf (plan.front names' id) = first.chain.addrOf (plan.front names id) := by
  rw [Plan.front, Plan.front]
  split
  next hplan => exact addrOf_name_eq h k hp hsize hid hplan
  next => exact addrOf_eq h k hp hsize hid

/-- Jumpers land at the same address in both. -/
theorem addrOf_entry_eq (hid : id ∈ program.chain.ids) :
    second.chain.addrOf (plan.entry names' program.redirects id)
      = first.chain.addrOf (plan.entry names program.redirects id) := by
  rw [Plan.entry, Plan.entry]
  split
  next henters => exact addrOf_name_eq h k hp hsize hid (Plan.isSome_of_enters henters)
  next => exact addrOf_eq h k hp hsize hid

/-! ### Functions -/

/-- Code begins at the same offset of its section in both. -/
theorem startOf_front_eq (hid : id ∈ program.chain.ids) :
    second.startOf (plan.front names' id) = first.startOf (plan.front names id) := by
  obtain ⟨a, ha⟩ := hp.spells.get?_isSome hid
  rw [h.startOf_front hp.spells h.tidy.spells ha hid, k.startOf_front hp.spells k.tidy.spells ha hid,
    h.toRealizes.starts_eq k.toRealizes hp hsize hid]

/-- Functions are at the same address in both: each begins where the code of one old instruction does. -/
theorem functions_addr_eq (owner : FuncId) : second.functions.addr? owner = first.functions.addr? owner := by
  by_cases hbegun : ∃ id, program.BeginsAt owner id
  · obtain ⟨id, hid⟩ := hbegun
    obtain ⟨a, ha, -⟩ := Chain.stamps_eq_true.mp hid.1
    have hmem := hp.attached.mem ha
    have hfirst := h.bounds.begun owner id hid
    have hsecond := k.bounds.begun owner id hid
    have hstart := startOf_front_eq h k hp hsize hmem
    -- it has moved in both or in none of them
    by_cases hstill : first.startOf (plan.front names id) = program.startOf id
    · rw [(hfirst.still hstill).1, (hsecond.still (hstart.trans hstill)).1]
    · rw [hfirst.moved hstill, hsecond.moved (hstart ▸ hstill), addrOf_front_eq h k hp hsize hmem]
  · have hnone : ∀ id, ¬ program.BeginsAt owner id := fun id hid => hbegun ⟨id, hid⟩
    rw [(h.bounds.unbegun owner hnone).2, (k.bounds.unbegun owner hnone).2]

/-- Functions hold as many bytes in both. -/
theorem held_eq (owner : FuncId) : second.held owner = first.held owner := by
  rw [Extends.held_eq h.toExtends hp.spells, Extends.held_eq k.toExtends hp.spells]
  refine congrArg List.sum (List.map_congr_left fun id hid => ?_)
  rw [h.toRealizes.spans_eq k.toRealizes hp hsize hid]

/-- Functions have one size in both: each is what it holds, and the slack that it had. -/
theorem size_eq (owner : FuncId) : second.functions.size? owner = first.functions.size? owner := by
  have hslack := (k.bounds.slack owner).trans (h.bounds.slack owner).symm
  rw [slack?, slack?, held_eq h k hp hsize owner] at hslack
  refine Option.map_injective (fun x y hxy => ?_) hslack
  exact (UInt64.sub_left_inj _).mp hxy

/-! ### All of it -/

omit h k hsize in
theorem issued_of_mem (hid : id ∈ program.chain.ids) : program.chain.Issued id := by
  obtain ⟨a, ha⟩ := hp.spells.get?_isSome hid
  exact Chain.index_lt_of_contains (by rw [Chain.contains_eq_isSome_get?, ha]; rfl)

omit h k hsize in
theorem target_mem (ha : program.chain.get? id = some a) {logical : InstrId} (htarget : a.target = some logical) :
    logical ∈ program.chain.ids := by
  have hrefers : logical ∈ a.references := by simp [Instruction.references, htarget]
  exact (hp.listed id (hp.attached.mem ha) a ha logical hrefers).1

variable (hlinks : program.LinksIssued) (hkeeps : ∀ id, program.chain.Issued id → across id = id)
  (hacross : ∀ id, (plan id).isSome = true → across (names id) = names' id)

include hkeeps in
omit h k hp hsize in
/-- Swapping the two new names leaves names that were given out before. -/
theorem across_map {o : Option InstrId} (ho : ∀ id ∈ o, program.chain.Issued id) : o.map across = o := by
  cases o with
  | none => rfl
  | some id => rw [Option.map_some, hkeeps id (ho id rfl)]

include hlinks hkeeps hacross

omit h k hp hsize hlinks in
/-- Swapping the new names turns one program's function starts into the other's. -/
theorem across_front (hid : program.chain.Issued id) : across (plan.front names id) = plan.front names' id := by
  rw [Plan.front, Plan.front]
  split
  next hplan => exact hacross id hplan
  next => exact hkeeps id hid

omit h k hp hsize hlinks in
/-- Swapping the new names turns where one program's records point into where the other's do. -/
theorem across_aim {symbol : SymbolId} (hid : program.chain.Issued id) :
    across (program.aim (plan.entry names program.redirects) symbol id)
      = program.aim (plan.entry names' program.redirects) symbol id := by
  rw [aim, aim]
  split
  · exact hkeeps id hid
  · rw [Plan.entry, Plan.entry]
    split
    next henters => exact hacross id (Plan.isSome_of_enters henters)
    next => exact hkeeps id hid

omit h k hsize hlinks in
/-- Swapping the new names turns the landings of one program's jumpers into those of the other's. -/
theorem across_arrival {place : InstrId} (jumper : InstrId) (hplace : place ∈ program.chain.ids) :
    across (program.arrival plan names jumper place) = program.arrival plan names' jumper place := by
  rw [arrival, arrival]
  split
  next hentering =>
    rw [entering, Bool.and_eq_true] at hentering
    exact hacross place (Plan.isSome_of_enters hentering.2)
  next => exact hkeeps place (issued_of_mem hp hplace)

omit h k hsize hlinks in
/-- Swapping the new names turns the order around an old instruction into that of the other program. -/
theorem across_around (hid : id ∈ program.chain.ids) :
    (plan.around names id).map across = plan.around names' id := by
  have hkept := hkeeps id (issued_of_mem hp hid)
  rw [Plan.around, Plan.around]
  split
  next hplan => rw [List.map_cons, List.map_singleton, hacross id hplan, hkept]
  next => rw [List.map_singleton, hkept]

/-- A record names the same instructions, and is taken along by them to the same place. -/
theorem drawn_eq {symbol : SymbolId} {record : Symbol} (hrecord : program.symbols.get? symbol = some record) :
    program.drawn second (plan.entry names' program.redirects) symbol record
      = (program.drawn first (plan.entry names program.redirects) symbol record).renamed
        fun id => some (across id) := by
  have hnamed := hlinks.2 record (Array.mem_of_getElem? hrecord)
  rw [drawn, drawn, Symbol.renamed_aimed]
  · refine Symbol.aimed_congr hnamed (fun id _ => ?_) (fun id _ => ?_) fun id hid =>
      (across_aim hkeeps hacross hid).symm
    · rw [pull, pull]
      by_cases hzero : program.chain.pointers symbol id = 0
      · rw [hzero]
        exact UInt64.zero_mul.trans UInt64.zero_mul.symm
      · rw [addrOf_entry_eq h k hp hsize (hp.attached id (Chain.contains_of_pointers hzero))]
    · rw [push, push]
      by_cases hzero : program.chain.patches symbol id = 0
      · rw [hzero]
        exact UInt64.zero_mul.trans UInt64.zero_mul.symm
      · rw [addrOf_eq h k hp hsize (hp.attached id (Chain.contains_of_patches hzero))]
  · intro reloc hreloc id hid
    obtain ⟨before, hbefore, rfl⟩ := Option.map_eq_some_iff.mp hreloc
    exact hkeeps id ((hnamed.2 before hbefore).1 id hid)

/-- Functions agree but for the new names of their bounds. -/
theorem functions_rel (owner : FuncId) :
    Option.Rel (fun f g => g.first = f.first.map across ∧ g.last = f.last.map across
        ∧ g.addr = f.addr ∧ g.size = f.size)
      (first.functions.get? owner) (second.functions.get? owner) := by
  cases hfunction : program.functions.get? owner with
  | none =>
    rw [h.bounds.missing owner hfunction, k.bounds.missing owner hfunction]
    exact .none
  | some function =>
    obtain ⟨hfirst, hlast⟩ := hlinks.1 function (Array.mem_of_getElem? hfunction)
    obtain ⟨f, hf, hflast, hffirst⟩ := h.bounds.carried hfunction
    obtain ⟨g, hg, hglast, hgfirst⟩ := k.bounds.carried hfunction
    have haddr := functions_addr_eq h k hp hsize owner
    have hbytes := size_eq h k hp hsize owner
    rw [FunctionTable.addr?, FunctionTable.addr?, hf, hg] at haddr
    rw [FunctionTable.size?, FunctionTable.size?, hf, hg] at hbytes
    rw [hf, hg]
    refine .some ⟨?_, ?_, Option.some.inj haddr, Option.some.inj hbytes⟩
    · rw [hgfirst, hffirst, Option.map_map]
      refine Option.map_congr fun id hid => ?_
      rw [Function.comp_apply]
      split
      · exact (across_front hkeeps hacross (hfirst id hid)).symm
      · exact (hkeeps id (hfirst id hid)).symm
    · rw [hglast, hflast, across_map hkeeps hlast]

/-- Programs that received the same plan agree, but for the names of what was put in. -/
theorem agrees : first.AgreesUpTo second across where
  order := by
    rw [k.code, h.code, Plan.code, Plan.code, List.map_flatMap, List.flatMap_def, List.flatMap_def]
    refine congrArg List.flatten (List.map_congr_left fun id hid => ?_)
    exact (across_around hp hkeeps hacross hid).symm
  code id hid := by
    rw [h.code, Plan.mem_code] at hid
    -- what was there before has one name in both, what was put in has the name of its anchor's addition
    rcases hid with hold | ⟨x, hx, hplan, rfl⟩
    · obtain ⟨a, b, c, ha, hb, hc, halike, htarget, htarget'⟩ := alike h k hp hsize hold
      rw [hkeeps id (issued_of_mem hp hold)]
      refine ⟨b, c, hb, hc, halike, ?_⟩
      rw [htarget', htarget, across_map hkeeps fun logical hlogical =>
        issued_of_mem hp (target_mem hp ha hlogical)]
    · obtain ⟨b, c, hb, hc, halike, hnone, hnone'⟩ := alike_name h k hp hsize hx hplan
      rw [hacross x hplan]
      refine ⟨b, c, hb, hc, halike, ?_⟩
      rw [hnone, hnone']
      rfl
  landings {id b logical} hb htarget := by
    have hid := h.tidy.attached.mem hb
    rw [h.code, Plan.mem_code] at hid
    rcases hid with hold | ⟨x, hx, hplan, rfl⟩
    · obtain ⟨a, _, c, ha, hfound, -, -, hsame, -⟩ := alike h k hp hsize hold
      obtain rfl := Option.some.inj (hb.symm.trans hfound)
      have hlogical := target_mem hp ha (hsame.symm.trans htarget)
      obtain ⟨-, -, -, hplace, harrives, -⟩ := h.arrives hp hlogical id
      obtain ⟨-, -, -, -, harrives', -⟩ := k.arrives hp hlogical id
      rw [hkeeps id (issued_of_mem hp hold), hkeeps logical (issued_of_mem hp hlogical), harrives, harrives',
        across_arrival hp hkeeps hacross id hplace]
    · -- what was put in has no target
      obtain ⟨_, -, hfound, -, -, hnone, -⟩ := alike_name h k hp hsize hx hplan
      obtain rfl := Option.some.inj (hb.symm.trans hfound)
      rw [hnone] at htarget
      cases htarget
  functions := functions_rel h k hp hsize hlinks hkeeps hacross
  symbols symbol := by
    rw [h.draws.records, k.draws.records, Option.map_map]
    exact Option.map_congr fun record hrecord => drawn_eq h k hp hsize hlinks hkeeps hacross hrecord

end

end Program.Receives

/-! ## Two insertions -/

namespace EngineM

variable {s t t₁ t₂ v₁ v₂ : Session} {a b x y x' y' anchor new : InstrId} {X Y given : Instruction}
  {retarget rX rY : Retarget}

/-- An insertion gives out the next name and no other. -/
theorem insertBefore_named (hs : s.program.Tidy s.program.chain.ids) (htarget : given.target = none)
    (htable : given.jumpTable = []) (h : insertBefore anchor given retarget s = .ok new t) :
    new = ⟨s.program.chain.slots.size⟩
      ∧ t.program.chain.slots.size = s.program.chain.slots.size + 1 := by
  obtain ⟨shift, m, summary, hsplice, hsettle⟩ := insertBefore_run h
  obtain ⟨found, hfound⟩ := spliceBefore_present hsplice
  obtain ⟨xs, ys, hsplit⟩ := List.append_of_mem (hs.attached.mem hfound)
  have hl := hs.spells
  rw [hsplit] at hl
  obtain ⟨hname, hsize, -⟩ := spliceBefore_named htarget htable hl hsplice
  refine ⟨hname, ?_⟩
  obtain ⟨f, hf, -⟩ := (Session.Carries.updateRelation.settle hsettle).chain
  rw [hf, Chain.size_slots_adjust, hsize]

theorem insertBefore_present (h : insertBefore anchor given retarget s = .ok new t) :
    ∃ found, s.program.chain.get? anchor = some found := by
  obtain ⟨shift, m, summary, hsplice, -⟩ := insertBefore_run h
  exact spliceBefore_present hsplice

/-- `X` in front of `a`, and `Y` in front of `b`. -/
abbrev both (a b : InstrId) (X Y : Instruction) (rX rY : Retarget) : Plan :=
  (Plan.put (fun _ => none) a ⟨X, rX⟩).put b ⟨Y, rY⟩

theorem both_comm (hne : a ≠ b) : both b a Y X rY rX = both a b X Y rX rY := Plan.put_comm hne.symm

section

variable (hs : s.program.Checked) (hne : a ≠ b) (hXtarget : X.target = none) (hXtable : X.jumpTable = [])
  (hYtarget : Y.target = none) (hYtable : Y.jumpTable = [])
  (hx : insertBefore a X rX s = .ok x t₁) (hy : insertBefore b Y rY t₁ = .ok y t₂)

include hs hne hXtarget hXtable hYtarget hYtable hx hy

/-- Two insertions one after the other realize the plan that puts in both. -/
theorem realizes_both (hb : b ∈ s.program.chain.ids) :
    s.program.Realizes t₁.program (Plan.put (fun _ => none) a ⟨X, rX⟩) (Plan.name (fun id => id) a x)
      ∧ s.program.Realizes t₂.program (both a b X Y rX rY) (Plan.name (Plan.name (fun id => id) a x) b y) := by
  have hp := hs.coherent.tidy
  obtain ⟨_, hfound⟩ := insertBefore_present hx
  have hfirst := (Program.Realizes.refl hs fun id => id).insert hp (hp.attached.mem hfound) rfl hXtarget hXtable hx
  exact ⟨hfirst, hfirst.insert hp hb (Plan.put_ne hne.symm) hYtarget hYtable hy⟩

/-- Two insertions one after the other leave what receives the plan of both, provided that sections stay
below half of the addresses. -/
theorem receives_both (hb : b ∈ s.program.chain.ids) (hlinks : s.program.LinksIssued) (hX : X.bytes ≠ [])
    (hY : Y.bytes ≠ [])
    (hsize : ∀ sec, t₂.program.bytesIn sec t₂.program.lengths t₂.program.chain.ids < 2 ^ 63) :
    s.program.Receives t₂.program (both a b X Y rX rY)
      (Plan.name (Plan.name (fun id => id) a x) b y) := by
  have hp := hs.coherent.tidy
  obtain ⟨_, hfound⟩ := insertBefore_present hx
  have ha := hp.attached.mem hfound
  have hfree : Plan.put (fun _ => none) a ⟨X, rX⟩ b = none := Plan.put_ne hne.symm
  obtain ⟨hfirst, hsecond⟩ := realizes_both hs hne hXtarget hXtable hYtarget hYtable hx hy hb
  -- no section was longer on the way
  have hsize₁ : ∀ sec, t₁.program.bytesIn sec t₁.program.lengths t₁.program.chain.ids < 2 ^ 63 :=
    fun sec => Nat.lt_of_le_of_lt (hsecond.bytesIn_le hfirst hp hsize (Plan.within_put hfree) sec) (hsize sec)
  have hone := (Program.Receives.refl hs fun id => id).insert hp hlinks ha rfl hXtarget hXtable hX hx hsize₁
  exact hone.insert hp hlinks hb hfree hYtarget hYtable hY hy hsize

omit hne in
/-- The two insertions take the next two names, in the order in which they are made. -/
theorem names_both : x = ⟨s.program.chain.slots.size⟩ ∧ y = ⟨s.program.chain.slots.size + 1⟩ := by
  have hp := hs.coherent.tidy
  obtain ⟨_, hfound⟩ := insertBefore_present hx
  obtain ⟨hname, hsize⟩ := insertBefore_named hp hXtarget hXtable hx
  have hfirst := (Program.Realizes.refl hs fun id => id).insert hp (hp.attached.mem hfound) rfl hXtarget hXtable hx
  obtain ⟨hname', -⟩ := insertBefore_named hfirst.tidy hYtarget hYtable hy
  exact ⟨hname, hsize ▸ hname'⟩

end

end EngineM

/-- Two insertions in front of different instructions lead to the same program in either order, but that
what comes first gets the name that is given out first. -/
theorem insertions_commute {s t₁ t₂ v₁ v₂ : Session} {a b x y x' y' : InstrId} {X Y : Instruction}
    {rX rY : Retarget} (hs : s.program.Checked) (hlinks : s.program.LinksIssued) (hne : a ≠ b)
    (hX : X.bytes ≠ []) (hXtarget : X.target = none) (hXtable : X.jumpTable = [])
    (hY : Y.bytes ≠ []) (hYtarget : Y.target = none) (hYtable : Y.jumpTable = [])
    (hx : EngineM.insertBefore a X rX s = .ok x t₁) (hy : EngineM.insertBefore b Y rY t₁ = .ok y t₂)
    (hy' : EngineM.insertBefore b Y rY s = .ok y' v₁) (hx' : EngineM.insertBefore a X rX v₁ = .ok x' v₂)
    (hsize : ∀ sec, t₂.program.bytesIn sec t₂.program.lengths t₂.program.chain.ids < 2 ^ 63) :
    x' = y ∧ y' = x ∧ t₂.program.AgreesUpTo v₂.program (Equiv.swap x y) := by
  have hp := hs.coherent.tidy
  obtain ⟨_, hi⟩ := EngineM.insertBefore_present hx
  obtain ⟨_, hj⟩ := EngineM.insertBefore_present hy'
  have ha := hp.attached.mem hi
  have hb := hp.attached.mem hj
  obtain ⟨-, hreal⟩ := EngineM.realizes_both hs hne hXtarget hXtable hYtarget hYtable hx hy hb
  obtain ⟨-, hreal'⟩ := EngineM.realizes_both hs hne.symm hYtarget hYtable hXtarget hXtable hy' hx' ha
  -- either order puts in both additions, and the plan of both is one and the same
  rw [EngineM.both_comm hne] at hreal'
  have hsize' : ∀ sec, v₂.program.bytesIn sec v₂.program.lengths v₂.program.chain.ids < 2 ^ 63 :=
    fun sec => Nat.lt_of_le_of_lt (hreal.bytesIn_le hreal' hp hsize (fun _ => .inr rfl) sec) (hsize sec)
  have h := EngineM.receives_both hs hne hXtarget hXtable hYtarget hYtable hx hy hb hlinks hX hY hsize
  have k := EngineM.receives_both hs hne.symm hYtarget hYtable hXtarget hXtable hy' hx' ha hlinks hY hX hsize'
  rw [EngineM.both_comm hne] at k
  obtain ⟨hname, hname'⟩ := EngineM.names_both hs hXtarget hXtable hYtarget hYtable hx hy
  obtain ⟨hother, hother'⟩ := EngineM.names_both hs hYtarget hYtable hXtarget hXtable hy' hx'
  obtain rfl : x' = y := hother'.trans hname'.symm
  obtain rfl : y' = x := hother.trans hname.symm
  refine ⟨rfl, rfl, h.agrees k hp hsize hlinks (fun id hid => ?_) fun id hplan => ?_⟩
  · -- neither name had been given out
    refine Equiv.swap_apply_of_ne_of_ne ?_ ?_
    · rintro rfl
      rw [hname] at hid
      exact Nat.lt_irrefl _ hid
    · rintro rfl
      rw [hname'] at hid
      exact Nat.not_succ_lt_self hid
  · by_cases hida : id = a
    · rw [hida, Plan.name_ne hne, Plan.name_self, Plan.name_self, Equiv.swap_apply_left]
    · by_cases hidb : id = b
      · rw [hidb, Plan.name_self, Plan.name_ne hne.symm, Plan.name_self, Equiv.swap_apply_right]
      · rw [EngineM.both, Plan.put_ne hidb, Plan.put_ne hida] at hplan
        cases hplan

/-- Far more code between the jump and its target than it can pass over while it is short. -/
def gap : Instruction := .synthetic (List.replicate 200 0x90) 1 .nop

/-- In one order the jump is widened for the first insertion, in the other one for the second. -/
theorem insertions_commute_hop : ∃ x y x' y' t₁ t₂ v₁ v₂,
    hop.program.Checked ∧ hop.program.LinksIssued
      ∧ EngineM.insertBefore ⟨1⟩ gap .keep hop = .ok x t₁
      ∧ EngineM.insertBefore ⟨2⟩ (.synthetic [0x90] 1 .nop) .inserted t₁ = .ok y t₂
      ∧ EngineM.insertBefore ⟨2⟩ (.synthetic [0x90] 1 .nop) .inserted hop = .ok y' v₁
      ∧ EngineM.insertBefore ⟨1⟩ gap .keep v₁ = .ok x' v₂
      ∧ x' = y ∧ y' = x ∧ t₂.program.AgreesUpTo v₂.program (Equiv.swap x y) := by
  have hx : Succeeds (EngineM.insertBefore ⟨1⟩ gap .keep) hop = true := by decide +kernel
  have hy' : Succeeds (EngineM.insertBefore ⟨2⟩ (.synthetic [0x90] 1 .nop) .inserted) hop = true := by
    decide +kernel
  have hy : Succeeds (EngineM.insertBefore ⟨2⟩ (.synthetic [0x90] 1 .nop) .inserted)
      (outcome (EngineM.insertBefore ⟨1⟩ gap .keep) hop) = true := by
    decide +kernel
  have hx' : Succeeds (EngineM.insertBefore ⟨1⟩ gap .keep)
      (outcome (EngineM.insertBefore ⟨2⟩ (.synthetic [0x90] 1 .nop) .inserted) hop) = true := by
    decide +kernel
  have hsize : ((outcome (EngineM.insertBefore ⟨2⟩ (.synthetic [0x90] 1 .nop) .inserted)
      (outcome (EngineM.insertBefore ⟨1⟩ gap .keep) hop)).program.chain.ids.map
        (outcome (EngineM.insertBefore ⟨2⟩ (.synthetic [0x90] 1 .nop) .inserted)
          (outcome (EngineM.insertBefore ⟨1⟩ gap .keep) hop)).program.lengths).sum < 2 ^ 63 := by
    decide +kernel
  obtain ⟨x, hx⟩ := Succeeds.ok hx
  obtain ⟨y, hy⟩ := Succeeds.ok hy
  obtain ⟨y', hy'⟩ := Succeeds.ok hy'
  obtain ⟨x', hx'⟩ := Succeeds.ok hx'
  have hlinks : hop.program.LinksIssued := by decide
  obtain ⟨hfirst, hsecond, hagrees⟩ := insertions_commute hop_checked hlinks (by decide) (by decide) rfl rfl
    (by decide) rfl rfl hx hy hy' hx' fun sec => Nat.lt_of_le_of_lt Program.bytesIn_le_sum hsize
  exact ⟨x, y, x', y', _, _, _, _, hop_checked, hlinks, hx, hy, hy', hx', hfirst, hsecond, hagrees⟩

/-- A record is tied to the name that is given out next. -/
def adrift : Session :=
  { hop with
    program.symbols := (SymbolTable.empty.push
      { Symbol.ofRaw ⟨0⟩ 0 ⟨"", 0, 0, 0, 0⟩ with instr := some ⟨3⟩ }).2 }

/-- The code with a record tied to a name that is yet to be given out passes all checks. -/
theorem adrift_checked : adrift.program.Checked where
  verified := isOk_iff.mp (by decide +kernel)
  attached := hop_coherent.attached
  consecutive := hop_regular.consecutive
  keyed := hop_coherent.keyed
  acyclic := hop_coherent.acyclic
  linked := hop_coherent.linked

/-- The record names what was put in first, and not the same code in either order. -/
theorem adrift_names_first :
    adrift.program.Checked ∧ adrift.program.graph = none
      ∧ (∀ id ∈ adrift.program.chain.ids, ∀ instr, adrift.program.chain.get? id = some instr →
        instr.isShortJump = true → instr.opcodeSize < 255)
      ∧ ∃ t₁ t₂ v₁ v₂, EngineM.insertBefore ⟨1⟩ (.synthetic [0x90] 1 .nop) .keep adrift = .ok ⟨3⟩ t₁
        ∧ EngineM.insertBefore ⟨2⟩ (.synthetic [0x66, 0x90] 2 .nop) .keep t₁ = .ok ⟨4⟩ t₂
        ∧ EngineM.insertBefore ⟨2⟩ (.synthetic [0x66, 0x90] 2 .nop) .keep adrift = .ok ⟨3⟩ v₁
        ∧ EngineM.insertBefore ⟨1⟩ (.synthetic [0x90] 1 .nop) .keep v₁ = .ok ⟨4⟩ v₂
        ∧ ¬ t₂.program.AgreesUpTo v₂.program (Equiv.swap ⟨3⟩ ⟨4⟩) := by
  have hx : Succeeds (EngineM.insertBefore ⟨1⟩ (.synthetic [0x90] 1 .nop) .keep) adrift = true := by
    decide +kernel
  have hy : Succeeds (EngineM.insertBefore ⟨2⟩ (.synthetic [0x66, 0x90] 2 .nop) .keep)
      (outcome (EngineM.insertBefore ⟨1⟩ (.synthetic [0x90] 1 .nop) .keep) adrift) = true := by
    decide +kernel
  have hy' : Succeeds (EngineM.insertBefore ⟨2⟩ (.synthetic [0x66, 0x90] 2 .nop) .keep) adrift = true := by
    decide +kernel
  have hx' : Succeeds (EngineM.insertBefore ⟨1⟩ (.synthetic [0x90] 1 .nop) .keep)
      (outcome (EngineM.insertBefore ⟨2⟩ (.synthetic [0x66, 0x90] 2 .nop) .keep) adrift) = true := by
    decide +kernel
  obtain ⟨x, hx⟩ := Succeeds.ok hx
  obtain ⟨y, hy⟩ := Succeeds.ok hy
  obtain ⟨y', hy'⟩ := Succeeds.ok hy'
  obtain ⟨x', hx'⟩ := Succeeds.ok hx'
  obtain ⟨rfl, rfl⟩ := EngineM.names_both adrift_checked rfl rfl rfl rfl hx hy
  obtain ⟨rfl, rfl⟩ := EngineM.names_both adrift_checked rfl rfl rfl rfl hy' hx'
  refine ⟨adrift_checked, rfl, fun id hid instr hinstr _ => ?_, _, _, _, _, hx, hy, hy', hx', fun hagrees => ?_⟩
  · have hsmall : ∀ x ∈ adrift.program.chain.ids, ∀ i ∈ adrift.program.chain.get? x, i.opcodeSize < 255 := by
      decide +kernel
    exact hsmall id hid instr hinstr
  · have hrecord := congrArg (Option.map (·.instr)) (hagrees.symbols ⟨0⟩)
    revert hrecord
    decide +kernel

end Splice
