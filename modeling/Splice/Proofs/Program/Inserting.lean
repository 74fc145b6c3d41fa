import Splice.Proofs.Chain.CrossReferences
import Splice.Proofs.Program.Insertions

/-!
# Insertions one after the other

A program is realized by another one (`Program.Realizes`) if that is what becomes of it by a
plan: the code of the plan is put in, everything is laid out and encoded, and no jump is widened
that does not have to be. An insertion takes what realizes one plan to what realizes the plan
with one addition more (`Realizes.insert`), so whatever insertions lead to a plan, they lead to
the same code.

The splice puts in the code (`Extends.splice`). Of the settling that comes next nothing has to be
known but that it widens no other jumps than those that do not reach with every instruction
in its place: jumps that an earlier insertion has widened would have to be widened now, too,
because more code is put in now.

`Realizes` is the relation on which all of this rests: it mentions neither the order in which
insertions were made nor what was widened when. Two programs that realize one plan have their
old instructions in the same places with the same lengths (`lengths_eq`, `starts_eq`).
-/

namespace Splice

namespace Plan

variable {plan : Plan} {names : InstrId → InstrId} {redirects : Redirects} {addition : Addition}
  {ids : List InstrId} {anchor new id : InstrId}

/-- The plan with an addition in front of `anchor`. -/
def put (plan : Plan) (anchor : InstrId) (addition : Addition) : Plan := fun id =>
  if id = anchor then some addition else plan id

/-- The names with a name for what is put in front of `anchor`. -/
def name (names : InstrId → InstrId) (anchor new : InstrId) : InstrId → InstrId := fun id =>
  if id = anchor then new else names id

theorem put_self : plan.put anchor addition anchor = some addition := if_pos rfl

theorem put_ne (h : id ≠ anchor) : plan.put anchor addition id = plan id := if_neg h

theorem name_self : name names anchor new anchor = new := if_pos rfl

theorem name_ne (h : id ≠ anchor) : name names anchor new id = names id := if_neg h

/-- A plan with one more addition puts in all that it did. -/
theorem within_put (h : plan anchor = none) : plan.Within (plan.put anchor addition) := by
  intro id
  by_cases hid : id = anchor
  · exact .inl (hid ▸ h)
  · exact .inr (put_ne hid)

theorem around_put (h : id ≠ anchor) :
    (plan.put anchor addition).around (name names anchor new) id = plan.around names id := by
  rw [around, around, put_ne h, name_ne h]

/-- An addition in front of an instruction that is not among them is not in their code. -/
theorem code_put (h : anchor ∉ ids) :
    (plan.put anchor addition).code (name names anchor new) ids = plan.code names ids := by
  rw [code, code, List.flatMap_def, List.flatMap_def]
  refine congrArg List.flatten (List.map_congr_left fun id hid => around_put ?_)
  intro he
  exact h (he ▸ hid)

theorem code_open {xs ys : List InstrId} (h : plan anchor = none) :
    plan.code names (xs ++ anchor :: ys) = plan.code names xs ++ anchor :: plan.code names ys := by
  rw [code_split, around, h]
  rfl

theorem code_put_open {xs ys : List InstrId} (hxs : anchor ∉ xs) (hys : anchor ∉ ys) :
    (plan.put anchor addition).code (name names anchor new) (xs ++ anchor :: ys)
      = plan.code names xs ++ [new] ++ anchor :: plan.code names ys := by
  rw [code_split, code_put hxs, code_put hys, around, put_self, name_self, List.append_assoc]
  rfl

theorem entry_put (h : id ≠ anchor) : (plan.put anchor addition).entry (name names anchor new) redirects id
    = plan.entry names redirects id := by
  rw [entry, entry, enters, enters, put_ne h, name_ne h]

theorem entry_of_none (h : plan id = none) : plan.entry names redirects id = id := by
  rw [entry, enters_of_none h]
  rfl

end Plan

namespace Program

variable {program middle after : Program} {wide : List InstrId}

/-- What has become longer did so on one of two ways. -/
theorem widened_subset_trans (hids : program.chain.ids ⊆ middle.chain.ids)
    (h : program.widened middle ⊆ wide) (k : middle.widened after ⊆ wide) : program.widened after ⊆ wide := by
  intro id hid
  rw [widened, List.mem_filter, bne_iff_ne] at hid
  by_cases hbefore : middle.lengths id = program.lengths id
  · refine k ?_
    rw [widened, List.mem_filter, bne_iff_ne, hbefore]
    exact ⟨hids hid.1, hid.2⟩
  · refine h ?_
    rw [widened, List.mem_filter, bne_iff_ne]
    exact ⟨hid.1, hbefore⟩

end Program

namespace EngineM

variable {s t m : Session} {xs ys : List InstrId} {given : Instruction} {retarget : Retarget}
  {anchor new : InstrId} {shift : Shift}

/-- An instruction without targets is not linked to any. -/
theorem linkInserted_plain (htarget : given.target = none) (htable : given.jumpTable = []) {u : Unit}
    (h : linkInserted new given s = .ok u t) : t = s := by
  simp only [linkInserted, htarget, htable] at h
  exact (pure_ok.mp h).2.symm

/-- What is put in gets the next name that is free, and has no target if it was given without one. -/
theorem spliceBefore_named (htarget : given.target = none) (htable : given.jumpTable = [])
    (hl : s.program.chain.Spells (xs ++ anchor :: ys))
    (h : spliceBefore anchor given retarget s = .ok (new, shift) t) :
    new = ⟨s.program.chain.slots.size⟩ ∧ t.program.chain.slots.size = s.program.chain.slots.size + 1
      ∧ ∃ b, t.program.chain.get? new = some b ∧ b.target = none := by
  obtain ⟨found, block, c₁, s₂, s₄, entering, s₅, -, -, hinsert, hlink, hextend, henter, ht, -⟩ :=
    spliceBefore_run h
  obtain rfl := linkInserted_plain htarget htable hlink
  have hs₄ := (forBlock_regraphed (fun _ => extendBlockBefore_regraphed) hextend).sameCode
  have hins := ChainM.insertBefore_inserted hl hinsert
  have hsize := ChainM.insertBefore_size hinsert
  have hchain₄ : s₄.program.chain = c₁ := by rw [hs₄.chain, chain_withOwner]; rfl
  have hretied := (enteringJumpers_ok henter).1
  rw [hchain₄, ← ht] at hretied
  refine ⟨hins.name, ?_, ?_⟩
  · obtain ⟨f, hf, -⟩ := hretied
    rw [hf, Chain.size_slots_adjust, hsize]
  · obtain ⟨b, hb, hrel⟩ := hretied.get? ((hins.get? new).trans (if_pos rfl))
    exact ⟨b, hb, hrel.target⟩

/-- What was there stays, but for the symbols that are tied to it. -/
theorem spliceBefore_kept {l : List InstrId} (hs : s.program.Tidy l)
    (h : spliceBefore anchor given retarget s = .ok (new, shift) t) {id : InstrId} {b : Instruction}
    (hb : s.program.chain.get? id = some b) :
    ∃ c, t.program.chain.get? id = some c ∧ b.Alike c ∧ c.target = b.target := by
  obtain ⟨found, hfound⟩ := spliceBefore_present h
  obtain ⟨xs, ys, rfl⟩ := List.append_of_mem (hs.mem_of_get? hfound)
  obtain ⟨_, -, hplaced, -⟩ := spliceBefore_ok hs.spells hs.attached hs.listed h
  obtain ⟨c, hc, halike, hlinked⟩ := hplaced.kept.get? (hs.mem_of_get? hb) hb
  exact ⟨c, hc, halike, hlinked.trans (Option.map_id_fun ▸ rfl)⟩

/-- An insertion splices and then settles its shift. -/
theorem insertBefore_run (h : insertBefore anchor given retarget s = .ok new t) :
    ∃ shift m summary, spliceBefore anchor given retarget s = .ok (new, shift) m
      ∧ settle shift m = .ok summary t := by
  simp only [insertBefore, bind_ok, discard_ok, pure_ok] at h
  obtain ⟨⟨name, shift⟩, m, hsplice, _, u, ⟨summary, hsettle⟩, rfl, rfl⟩ := h
  exact ⟨shift, m, summary, hsplice, hsettle⟩

end EngineM

namespace Program.Extends

open EngineM

variable {program : Program} {s t : Session} {plan : Plan} {names : InstrId → InstrId}
  {given : Instruction} {retarget : Retarget} {anchor new : InstrId} {shift : Shift}

/-- The names of what was put in are none of the program. -/
theorem name_ne_mem {after : Program} (h : program.Extends after plan names)
    (hp : program.Tidy program.chain.ids) {id x : InstrId} (hplan : (plan id).isSome = true)
    (hx : x ∈ program.chain.ids) : names id ≠ x := by
  intro he
  obtain ⟨a, ha⟩ := hp.spells.get?_isSome hx
  have hlt : x.index < program.chain.slots.size :=
    Chain.index_lt_of_contains (by rw [Chain.contains_eq_isSome_get?, ha]; rfl)
  have hle := (h.fresh id hplan).1
  rw [he] at hle
  omega

/-- Jumpers that land elsewhere are not taken to an instruction of the program. -/
theorem entry_ne {after : Program} (h : program.Extends after plan names)
    (hp : program.Tidy program.chain.ids) {place x : InstrId} (hx : x ∈ program.chain.ids) (hne : place ≠ x) :
    plan.entry names program.redirects place ≠ x := by
  rw [Plan.entry]
  split
  next henter =>
    refine h.name_ne_mem hp ?_ hx
    cases hplan : plan place with
    | none =>
      rw [Plan.enters_of_none hplan] at henter
      cases henter
    | some _ => rfl
  next => exact hne

/-- The redirect that an insertion adds leads jumpers to what was put in for them, and no others. -/
theorem landing_enters {after : Redirects} {id : InstrId} (h : program.Extends s.program plan names)
    (hp : program.Tidy program.chain.ids) (hs : s.program.Tidy s.program.chain.ids)
    (hanchor : anchor ∈ program.chain.ids) (hnone : plan anchor = none) (hnew : new ∉ s.program.chain.ids)
    (hfresh : new ≠ anchor) (henters : s.program.redirects.Enters anchor new retarget after)
    (hid : id ∈ program.chain.ids) :
    after.landing id = (plan.put anchor ⟨given, retarget⟩).entry (Plan.name names anchor new)
      program.redirects (program.redirects.landing id) := by
  have hbefore := h.landings id hid
  have hredirected := h.unplanned anchor hanchor hnone
  have hend := hp.acyclic.landing_end id
  generalize program.redirects.landing id = place at hbefore hend
  rcases henters with ⟨hstays, rfl⟩ | ⟨hinserted, hopen, hredirect⟩
  · rw [hbefore]
    by_cases hat : place = anchor
    · subst hat
      rw [Plan.entry_of_none hnone, Plan.entry, Plan.enters, Plan.put_self, Option.any_some]
      -- it would have been redirected if jumpers were to enter what is put in
      have hkeep : retarget ≠ .inserted := by
        intro hinserted
        have hsome := hstays hinserted
        rw [hredirected, hend] at hsome
        cases hsome
      rw [decide_eq_false hkeep, Bool.false_and]
      rfl
    · rw [Plan.entry_put hat]
  · have hunused : s.program.redirects.targetOf? new = none :=
      (hs.not_redirected hnew).targetOf?_eq_none
    rw [hs.acyclic.landing_redirect hopen hunused hfresh hredirect, hbefore]
    by_cases hat : place = anchor
    · subst hat
      rw [Plan.entry_of_none hnone, if_pos rfl, Plan.entry, Plan.enters, Plan.put_self, Option.any_some,
        Plan.name_self, hend, decide_eq_true hinserted]
      rfl
    · rw [if_neg (h.entry_ne hp hanchor hat), Plan.entry_put hat]

/-- A splice puts in what it was asked to. -/
theorem splice (h : program.Extends s.program plan names) (hp : program.Tidy program.chain.ids)
    (hs : s.program.Tidy s.program.chain.ids) (hanchor : anchor ∈ program.chain.ids)
    (hnone : plan anchor = none) (htarget : given.target = none) (htable : given.jumpTable = [])
    (hsplice : spliceBefore anchor given retarget s = .ok (new, shift) t) :
    program.Extends t.program (plan.put anchor ⟨given, retarget⟩) (Plan.name names anchor new) := by
  obtain ⟨xs, ys, hsplit⟩ := List.append_of_mem hanchor
  have hnodup : anchor ∉ xs ∧ anchor ∉ ys := by
    have hall := hp.spells.nodup
    rw [hsplit] at hall
    exact ⟨fun hmem => not_mem_of_nodup hall (List.mem_append_left _ hmem),
      fun hmem => not_mem_of_nodup hall (List.mem_append_right _ hmem)⟩
  have hids := h.code
  rw [hsplit, Plan.code_open hnone] at hids
  have hs' := hs
  rw [hids] at hs'
  obtain ⟨hname, hsize, hplain⟩ := spliceBefore_named htarget htable hs'.spells hsplice
  obtain ⟨found, hfound, hplaced, -, henters, -⟩ :=
    spliceBefore_ok hs'.spells hs'.attached hs'.listed hsplice
  obtain ⟨a, ha⟩ := hp.spells.get?_isSome hanchor
  obtain ⟨b, hb, hanchored⟩ := h.kept ha
  obtain rfl := Option.some.inj (hb.symm.trans hfound)
  have hunused := hplaced.fresh new (List.mem_singleton_self new)
  have hnew : new ∉ s.program.chain.ids := by
    intro hmem
    obtain ⟨_, hsome⟩ := hs.spells.get?_isSome hmem
    rw [hunused] at hsome
    cases hsome
  have hfresh : new ≠ anchor := by
    rintro rfl
    rw [hunused] at hfound
    cases hfound
  exact {
    sites := by
      intro id hid
      by_cases hsame : id = anchor
      · exact hsame ▸ hanchor
      · rw [Plan.put_ne hsame] at hid
        exact h.sites id hid
    code := by rw [hplaced.spells.ids_eq, hsplit, Plan.code_put_open hnodup.1 hnodup.2]
    kept := by
      intro id i hi
      obtain ⟨j, hj, hkept⟩ := h.kept hi
      obtain ⟨k, hk, halike, hlinked⟩ := spliceBefore_kept hs hsplice hj
      exact ⟨k, hk, hkept.alike halike hlinked⟩
    placed := by
      intro id i addition hi hplan
      by_cases hsame : id = anchor
      · subst hsame
        rw [Plan.put_self, Option.some.injEq] at hplan
        subst hplan
        obtain rfl := Option.some.inj (ha.symm.trans hi)
        obtain ⟨c, hc, halike⟩ := hplaced.placed
        obtain ⟨c', hc', hbare⟩ := hplain
        obtain rfl := Option.some.inj (hc.symm.trans hc')
        rw [Plan.name_self]
        exact ⟨c, hc, halike.sec.trans hanchored.sec, halike.func.trans hanchored.func, halike.flags, hbare,
          halike.bytes, halike.opcodeSize⟩
      · rw [Plan.put_ne hsame] at hplan
        rw [Plan.name_ne hsame]
        obtain ⟨j, hj, hput⟩ := h.placed hi hplan
        obtain ⟨k, hk, halike, hlinked⟩ := spliceBefore_kept hs hsplice hj
        exact ⟨k, hk, hput.alike halike hlinked⟩
    overrides := by
      intro jumper
      rw [← h.overrides]
      rcases henters with ⟨-, hkeep⟩ | ⟨-, -, hredirect⟩
      · rw [hkeep]
      · exact Redirects.overrideOf?_redirect hredirect jumper
    landings := fun id hid => h.landing_enters hp hs hanchor hnone hnew hfresh henters hid
    unplanned := by
      intro id hid hplan
      have hsame : id ≠ anchor := by
        rintro rfl
        rw [Plan.put_self] at hplan
        cases hplan
      rw [Plan.put_ne hsame] at hplan
      rw [← h.unplanned id hid hplan]
      rcases henters with ⟨-, hkeep⟩ | ⟨-, -, hredirect⟩
      · rw [hkeep]
      · rw [Redirects.targetOf?_redirect_eq hredirect, if_neg hsame]
    bases := hplaced.bases.trans h.bases
    issued := by
      rw [hsize]
      exact Nat.le_succ_of_le h.issued
    fresh := by
      intro id hid
      rw [hsize]
      by_cases hsame : id = anchor
      · rw [hsame, Plan.name_self, hname]
        exact ⟨h.issued, Nat.lt_succ_self _⟩
      · rw [Plan.put_ne hsame] at hid
        rw [Plan.name_ne hsame]
        obtain ⟨hge, hlt⟩ := h.fresh id hid
        exact ⟨hge, Nat.lt_succ_of_lt hlt⟩ }

end Program.Extends

/-! ## Programs that realize a plan -/

/-- The program with the code of the plan put in, everything in its place and every direct transfer
encoding where it lands. Of the jumps that suffice for the plan none but those are widened that are in
every such set. -/
structure Program.Realizes (program after : Program) (plan : Plan) (names : InstrId → InstrId) : Prop
    extends program.Extends after plan names where
  tidy : after.Tidy after.chain.ids
  sited : after.Sited after.chain.ids []
  encodes : ∀ id ∈ after.chain.ids, after.Encodes id
  least : ∀ wide, program.SufficesFor plan wide → program.widened after ⊆ wide

namespace Program.Realizes

open EngineM

variable {program after : Program} {s t : Session} {plan : Plan} {names : InstrId → InstrId}
  {given : Instruction} {retarget : Retarget} {anchor new : InstrId} {wide : List InstrId}

theorem laidOut (h : program.Realizes after plan names) : after.LaidOut after.chain.ids :=
  owing_nil.mp h.sited.owing

/-- A program in order realizes the plan of nothing. -/
theorem refl (h : program.Checked) (names : InstrId → InstrId) :
    program.Realizes program (fun _ => none) names where
  toExtends := .refl program names
  tidy := h.coherent.tidy
  sited := h.sited
  encodes := fun id hid => by
    have hsound : Sound ⟨program, .empty⟩ := Coherent.sound (s := ⟨program, .empty⟩) h.coherent
    obtain ⟨l, htidy, hencodes⟩ := hsound
    exact hencodes id (htidy.spells.ids_eq ▸ hid)
  least wide _ id hid := by
    rw [widened, List.mem_filter, bne_self_eq_false] at hid
    exact absurd hid.2 Bool.false_ne_true

/-- One more insertion realizes the plan with one more addition. The splice extends the program, and the
update widens only what is in every set that suffices, so a set that suffices for the longer plan suffices
for the shorter one. -/
theorem insert (h : program.Realizes s.program plan names) (hp : program.Tidy program.chain.ids)
    (hanchor : anchor ∈ program.chain.ids) (hnone : plan anchor = none) (htarget : given.target = none)
    (htable : given.jumpTable = []) (hinsert : insertBefore anchor given retarget s = .ok new t) :
    program.Realizes t.program (plan.put anchor ⟨given, retarget⟩) (Plan.name names anchor new) := by
  obtain ⟨shift, m, summary, hsplice, hsettle⟩ := insertBefore_run hinsert
  have hm := h.toExtends.splice hp h.tidy hanchor hnone htarget htable hsplice
  -- what the splice leaves behind for the settling
  obtain ⟨l, hsited⟩ := (SpliceRun.before hsplice).sited rfl h.sited
  obtain ⟨l', htidy, hunsettled⟩ := (SpliceRun.before hsplice).unsettled rfl ⟨_, h.tidy, h.encodes⟩
  obtain rfl : l = m.program.chain.ids := hsited.gapless.spells.ids_eq.symm
  obtain rfl : l' = m.program.chain.ids := htidy.spells.ids_eq.symm
  have hrecodes := settle_recodes htidy.spells hsettle
  have hcarries := Session.Carries.updateRelation.settle hsettle
  have hids : t.program.chain.ids = m.program.chain.ids := hrecodes.chain.ids
  refine ⟨hm.recode hp rfl hrecodes, ?_, ?_, ?_, fun wide hwide => ?_⟩
  · rw [hids]
    exact htidy.carry hcarries
  · rw [hids]
    exact hsited.carry hcarries (settle_owing hsited.gapless hsettle hsited.owing)
  · rw [hids]
    exact settle_encodes htidy.spells htidy.listed hsettle hunsettled
  · have hin : program.chain.ids ⊆ m.program.chain.ids := fun id hid => by
      rw [hm.code, Plan.mem_code]
      exact .inl hid
    -- what was widened before has to be widened for more code, too
    have hbefore : program.widened m.program ⊆ wide := by
      intro id hid
      refine h.least wide (hwide.mono (Plan.within_put hnone) hp.spells) ?_
      rw [widened, List.mem_filter, bne_iff_ne] at hid ⊢
      refine ⟨hid.1, fun he => hid.2 ?_⟩
      obtain ⟨a, ha⟩ := hp.spells.get?_isSome hid.1
      obtain ⟨b, hb, -⟩ := h.kept ha
      obtain ⟨c, hc, halike, -⟩ := spliceBefore_kept h.tidy hsplice hb
      rw [← he, lengths_eq hb, lengths_eq hc, halike.bytes]
    refine widened_subset_trans hin hbefore (settle_widened hsited hsettle fun k hk hlaid hwidened => ?_)
    have hk' := hm.recode hp rfl hk
    have hsame : k.program.chain.ids = m.program.chain.ids := hk.chain.ids
    rw [← hsame] at hlaid
    intro jumper source physical hover
    refine hk'.mem_of_overflows hp ?_ ?_ hlaid (widened_subset_trans hin hbefore hwidened) hwide hover
    · rw [hsame]
      exact hk.chain.spells htidy.spells
    · rw [hsame]
      exact hk.chain.attached htidy.attached

/-- What lands in its section encodes the way there. -/
theorem displacement?_eq (h : program.Realizes after plan names) (hp : program.Tidy program.chain.ids)
    {id logical : InstrId} {a b physical : Instruction} (ha : program.chain.get? id = some a)
    (hb : after.chain.get? id = some b) (hland : program.landing? id a = some physical)
    (htarget : a.target = some logical) : logical ∈ program.chain.ids
      ∧ ∃ land, after.chain.get? (after.redirects.resolve id logical) = some land
        ∧ b.displacement? = some (b.displacementTo land) := by
  have hid := hp.attached.mem ha
  obtain ⟨_, hfound, hkept⟩ := h.kept ha
  obtain rfl := Option.some.inj (hb.symm.trans hfound)
  obtain ⟨hdirect, _, htarget', hphysical, hsec⟩ := landing?_eq_some.mp hland
  obtain rfl := Option.some.inj (htarget.symm.trans htarget')
  have hrefers : logical ∈ a.references := by simp [Instruction.references, htarget]
  have hlogical := (hp.listed id hid a ha logical hrefers).1
  obtain ⟨_, land, hphysical', -, -, hget, -, hsame⟩ := h.arrives hp hlogical id
  obtain rfl := Option.some.inj (hphysical.symm.trans hphysical')
  have hmem : id ∈ after.chain.ids := by
    rw [h.code, Plan.mem_code]
    exact .inl hid
  have hdirect' : b.isDirectTransfer = true := by
    rw [Instruction.isDirectTransfer, hkept.flags, hkept.target]
    exact hdirect
  obtain ⟨land', hget', hencoded⟩ := h.encodes id hmem b logical hb (hkept.target.trans htarget) hdirect'
  obtain rfl := Option.some.inj (hget.symm.trans hget')
  exact ⟨hlogical, land, hget,
    Instruction.displacement?_of_encodes (hencoded (hsame.trans (hsec.trans hkept.sec.symm)))⟩

/-! ## No two programs realize the same plan -/

section

variable {first second : Program} {names names' : InstrId → InstrId} {id : InstrId} {a b c : Instruction}
  {sec : SectionId}

/-- No instruction is longer where less is put in. -/
theorem lengths_le_of_within {other : Plan} (h : program.Realizes first other names)
    (k : program.Realizes second plan names') (hp : program.Tidy program.chain.ids)
    (hsize : ∀ sec, first.bytesIn sec first.lengths first.chain.ids < 2 ^ 63)
    (hwithin : plan.Within other) (hid : id ∈ program.chain.ids) :
    second.lengths id ≤ first.lengths id := by
  have hsuffices := h.suffices_widened hp h.tidy.spells h.laidOut h.encodes hsize
  obtain ⟨a, ha⟩ := hp.spells.get?_isSome hid
  obtain ⟨b, hb, hkept⟩ := h.kept ha
  have hlengths := k.lengths_le (k.least _ (hsuffices.mono hwithin hp.spells)) hid ha
  rw [← eq_lengthsWith ha hkept.coded.sized ((mem_widened ha hb).trans (and_iff_right hid))] at hlengths
  rw [Program.lengths_eq hb]
  exact hlengths

/-- No section is longer either. -/
theorem bytesIn_le {other : Plan} (h : program.Realizes first other names)
    (k : program.Realizes second plan names') (hp : program.Tidy program.chain.ids)
    (hsize : ∀ sec, first.bytesIn sec first.lengths first.chain.ids < 2 ^ 63)
    (hwithin : plan.Within other) (sec : SectionId) :
    second.bytesIn sec second.lengths second.chain.ids ≤ first.bytesIn sec first.lengths first.chain.ids := by
  rw [k.code, h.code, k.bytesIn_code fun x hx => hp.spells.get?_isSome hx,
    h.bytesIn_code fun x hx => hp.spells.get?_isSome hx]
  exact bytesIn_mono fun x hx =>
    Nat.add_le_add (hwithin.room_le x) (lengths_le_of_within h k hp hsize hwithin hx)

variable (h : program.Realizes first plan names) (k : program.Realizes second plan names')
  (hp : program.Tidy program.chain.ids)
  (hsize : ∀ sec, first.bytesIn sec first.lengths first.chain.ids < 2 ^ 63)

include h k hp hsize

/-- Two programs that realize one plan have old instructions of the same length, since both have widened
the least there is. -/
theorem lengths_eq (hid : id ∈ program.chain.ids) : second.lengths id = first.lengths id := by
  have hwithin : plan.Within plan := fun _ => .inr rfl
  have hsize' : ∀ sec, second.bytesIn sec second.lengths second.chain.ids < 2 ^ 63 := fun sec =>
    Nat.lt_of_le_of_lt (bytesIn_le h k hp hsize hwithin sec) (hsize sec)
  exact Nat.le_antisymm (lengths_le_of_within h k hp hsize hwithin hid)
    (lengths_le_of_within k h hp hsize' hwithin hid)

theorem spans_eq (hid : id ∈ program.chain.ids) :
    plan.spans second.lengths id = plan.spans first.lengths id := by
  rw [Plan.spans, Plan.spans, lengths_eq h k hp hsize hid]

/-- Two programs that realize one plan have the code of an old instruction start at the same place. -/
theorem starts_eq (hid : id ∈ program.chain.ids) :
    program.offsetIn sec (plan.spans second.lengths) id
      = program.offsetIn sec (plan.spans first.lengths) id := by
  have hspans : ∀ x ∈ program.chain.ids, plan.spans second.lengths x = plan.spans first.lengths x :=
    fun x hx => spans_eq h k hp hsize hx
  have hl := hp.spells
  obtain ⟨xs, ys, hsplit⟩ := List.append_of_mem hid
  rw [hsplit] at hl hspans
  rw [offsetIn_eq hl, offsetIn_eq hl]
  refine congrArg List.sum (List.map_congr_left fun x hx => ?_)
  rw [hspans x (List.mem_append_left _ hx)]

/-- An instruction of the program is at the same address in both. -/
theorem addr_eq (ha : program.chain.get? id = some a) (hb : first.chain.get? id = some b)
    (hc : second.chain.get? id = some c) : c.addr = b.addr := by
  have hid := hp.attached.mem ha
  rw [h.addr_eq_start hp.spells h.tidy.spells h.laidOut ha hid hb,
    k.addr_eq_start hp.spells k.tidy.spells k.laidOut ha hid hc,
    starts_eq h k hp hsize hid]

/-- So is what was put in front of it. -/
theorem addr_name_eq {addition : Addition} (ha : program.chain.get? id = some a)
    (hplan : plan id = some addition) (hb : first.chain.get? (names id) = some b)
    (hc : second.chain.get? (names' id) = some c) : c.addr = b.addr := by
  have hid := hp.attached.mem ha
  rw [h.addr_name_eq_start hp.spells h.tidy.spells h.laidOut ha hid hplan hb,
    k.addr_name_eq_start hp.spells k.tidy.spells k.laidOut ha hid hplan hc, starts_eq h k hp hsize hid]

/-- A jumper lands at the same address in both. -/
theorem landing_eq (jumper : InstrId) {logical : InstrId} (hlogical : logical ∈ program.chain.ids)
    (hb : first.chain.get? (first.redirects.resolve jumper logical) = some b)
    (hc : second.chain.get? (second.redirects.resolve jumper logical) = some c) : c.addr = b.addr := by
  obtain ⟨physical, -, hphysical, -, harrives, -⟩ := h.arrives hp hlogical jumper
  obtain ⟨-, -, -, -, harrives', -⟩ := k.arrives hp hlogical jumper
  rw [harrives, arrival] at hb
  rw [harrives', arrival] at hc
  by_cases hentering : program.entering plan jumper (program.redirects.resolve jumper logical) = true
  · rw [if_pos hentering] at hb hc
    cases hplan : plan (program.redirects.resolve jumper logical) with
    | none =>
      rw [entering, Plan.enters_of_none hplan, Bool.and_false] at hentering
      cases hentering
    | some addition => exact addr_name_eq h k hp hsize hphysical hplan hb hc
  · rw [if_neg hentering] at hb hc
    exact addr_eq h k hp hsize hphysical hb hc

/-- An instruction of the program has the same encoding in both. -/
theorem encoding_eq (ha : program.chain.get? id = some a) (hb : first.chain.get? id = some b)
    (hc : second.chain.get? id = some c) : c.bytes = b.bytes ∧ c.opcodeSize = b.opcodeSize := by
  have hid := hp.attached.mem ha
  obtain ⟨_, hfound, hkept⟩ := h.kept ha
  obtain rfl := Option.some.inj (hb.symm.trans hfound)
  obtain ⟨_, hfound', hkept'⟩ := k.kept ha
  obtain rfl := Option.some.inj (hc.symm.trans hfound')
  cases hland : program.landing? id a with
  | none =>
    obtain ⟨hbytes, hopcode⟩ := hkept.fixed hland
    obtain ⟨hbytes', hopcode'⟩ := hkept'.fixed hland
    exact ⟨hbytes'.trans hbytes.symm, hopcode'.trans hopcode.symm⟩
  | some physical =>
    obtain ⟨-, logical, htarget, -⟩ := landing?_eq_some.mp hland
    obtain ⟨hlogical, land, hget, hdisp⟩ := h.displacement?_eq hp ha hb hland htarget
    obtain ⟨-, land', hget', hdisp'⟩ := k.displacement?_eq hp ha hc hland htarget
    have hlength : c.bytes.length = b.bytes.length := by
      rw [← Program.lengths_eq hb, ← Program.lengths_eq hc]
      exact lengths_eq h k hp hsize hid
    have hsame : c.displacementTo land' = b.displacementTo land := by
      rw [Instruction.displacementTo, Instruction.displacementTo, Instruction.endAddr, Instruction.endAddr,
        Instruction.size, Instruction.size, hlength, addr_eq h k hp hsize ha hb hc,
        landing_eq h k hp hsize id hlogical hget hget']
    rw [hsame] at hdisp'
    exact hkept.coded.encoding_eq hkept'.coded hlength hdisp hdisp'

end

end Program.Realizes

end Splice
