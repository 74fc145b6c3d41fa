import Splice.Proofs.Program.Agreement
import Splice.Proofs.Program.Destinations
import Splice.Proofs.Program.Removal
import Splice.Proofs.Program.Undoing
import Splice.Proofs.Program.Widening

/-!
# Withdrawing an insertion

An instruction that is put in and then removed leaves a program without blocks as it was,
if neither step had to widen a jump (`remove_insertion`). What `Splice.Proofs.Program.Undoing`
shows of two splices and the two shifts that settle them is shown here of the edits: an
insertion ends in a state from which the splice can be taken back (`PutIn`), whether it
comes in front of its anchor or behind it. The heir of the removed instruction is the one
that it was put next to, the redirects merge into what they were, and no jump but its own
leads to it.

The checks do not look at everything that comes into play. That a function without an end
begins where its first instruction is has to be asked for, and that the records that an
insertion passes on are listed once and do not name the new instruction already
(`Program.Yields`); without that, something stays behind (`removal_leaves_traces`).
-/

namespace Splice

/-! ## The redirects of an insertion -/

namespace Redirects.Enters

variable {r after : Redirects} {anchor new : InstrId} {retarget : Retarget}
  (h : r.Enters anchor new retarget after) (hr : r.Acyclic) (hwithin : r.Within (· ≠ new))

include h hr hwithin

theorem replaced (hkeys : r.Keyed) : r.Same (after.replace new anchor) := by
  rcases h with ⟨-, rfl⟩ | ⟨-, hanchor, hredirect⟩
  · exact replace_of_within hkeys hr hwithin anchor
  · exact replace_redirect hkeys hr hwithin hanchor hredirect

/-- Putting the anchor in the place of what was inserted turns the new landings into the old ones. -/
theorem swap_resolve (hne : new ≠ anchor) (jumper : InstrId) {logical : InstrId} (hlogical : logical ≠ new) :
    swap new anchor (after.resolve jumper logical) = r.resolve jumper logical := by
  rw [h.resolve hr hwithin.targetOf?_eq_none hne]
  split
  next hland => rw [swap_self, hland.2.2]
  next => exact swap_of_ne (hwithin.resolve hlogical jumper)

end Redirects.Enters

namespace EngineM

/-! ## Insertions -/

/-- An instruction `new` has been put in, and the code behind it is still to make room for it. -/
structure PutIn (s m : Session) (xs ys : List InstrId) (new heir : InstrId) (found made : Instruction)
    (passed : List SymbolId) (there : Shift) : Prop where
  gains : Gains s m xs ys new heir found made passed
  getHeir : s.program.chain.get? heir = some found
  tidy : m.program.Tidy (xs ++ new :: ys)
  unsettled : Unsettled m (xs ++ new :: ys) there.edited
  answered : m.program.chain.Answered
  shift : there = ⟨ys.head?, found.sec, found.func, made.size.toInt64, there.edited⟩

variable {s m t e u : Session} {xs ys : List InstrId} {new heir anchor : InstrId} {given : Instruction}
  {found made freed : Instruction} {passed : List SymbolId} {there back : Shift} {summary summary' : UpdateSummary}

theorem mutual_of_checked {l : List InstrId} (hs : s.program.Checked) (hids : s.program.chain.ids = l) :
    Mutual s.program l := by
  subst hids
  have htidy := hs.coherent.tidy
  exact ⟨htidy.spells, htidy.attached, htidy.listed,
    ((Program.verifyReferences_ok htidy.spells htidy.attached).mp hs.coherent.references).2.1⟩

/-- An insertion in front puts an instruction in, which takes over what pointed at the anchor if jumpers
enter it. -/
theorem spliceBefore_putIn {retarget : Retarget} (hs : s.program.Checked) (hgraph : s.program.graph = none)
    (h : spliceBefore anchor given retarget s = .ok (new, there) m) :
    ∃ xs ys found made passed, s.program.chain.ids = xs ++ ys
      ∧ PutIn s m xs ys new anchor found made passed there ∧ made.bytes = given.bytes
      ∧ (passed ≠ [] → retarget = .inserted ∧ s.program.redirects.targetOf? anchor = none
        ∧ passed = found.referencedBy) := by
  obtain ⟨found, hfound⟩ := spliceBefore_present h
  have htidy := hs.coherent.tidy
  have hencodes := Program.verifyDisplacements_ok.mp hs.coherent.displacements
  obtain ⟨xs, ys, hids⟩ := List.append_of_mem (htidy.mem_of_get? hfound)
  rw [hids] at htidy hencodes
  obtain ⟨made, passed, hgains, hbytes, hpassed, hshift⟩ :=
    spliceBefore_gains hgraph htidy.spells htidy.attached htidy.listed hfound h
  obtain ⟨l, hl, hunsettled⟩ := spliceBefore_unsettled htidy hencodes h
  obtain rfl := hl.spells.ids_eq.symm.trans hgains.spells.ids_eq
  refine ⟨xs, anchor :: ys, found, made, passed, hids, ⟨hgains, hfound, hl, hunsettled,
    spliceBefore_answered htidy.spells (mutual_of_checked hs hids).answered h, ?_⟩, hbytes, hpassed⟩
  rw [Instruction.size, hbytes]
  exact hshift

/-- An insertion at the end of a run puts an instruction in, which takes nothing over. -/
theorem appendAfter_putIn (hs : s.program.Checked) (hgraph : s.program.graph = none)
    (hfollower : follower? s.program.chain anchor = none)
    (h : appendAfter anchor given s = .ok (new, there) m) :
    ∃ xs ys found made, s.program.chain.ids = xs ++ ys
      ∧ PutIn s m xs ys new anchor found made [] there ∧ made.bytes = given.bytes := by
  obtain ⟨found, hfound⟩ := appendAfter_present h
  have htidy := hs.coherent.tidy
  have hencodes := Program.verifyDisplacements_ok.mp hs.coherent.displacements
  obtain ⟨xs, ys, hids⟩ := List.append_of_mem (htidy.mem_of_get? hfound)
  rw [hids] at htidy hencodes
  obtain ⟨made, hgains, hbytes, hshift⟩ :=
    appendAfter_gains hgraph htidy.spells htidy.attached htidy.listed hfound hfollower h
  obtain ⟨l, hl, hunsettled⟩ := appendAfter_unsettled htidy hencodes h
  obtain rfl := hl.spells.ids_eq.symm.trans hgains.spells.ids_eq
  refine ⟨xs ++ [anchor], ys, found, made, by rw [hids, List.append_cons], ⟨hgains, hfound, hl, hunsettled,
    appendAfter_answered htidy.spells (mutual_of_checked hs hids).answered h, ?_⟩, hbytes⟩
  rw [Instruction.size, hbytes]
  exact hshift

theorem insertAfter_run (h : insertAfter anchor given s = .ok new t) :
    ∃ there m summary, spliceAfter anchor given s = .ok (new, there) m ∧ settle there m = .ok summary t := by
  simp only [insertAfter, bind_ok, discard_ok, pure_ok] at h
  obtain ⟨⟨new', there⟩, m, hsplice, _, t', ⟨summary, hsettle⟩, rfl, rfl⟩ := h
  exact ⟨there, m, summary, hsplice, hsettle⟩

/-- Records are passed only to what is put in front of their instruction for jumpers to enter it. -/
theorem insertion_putIn {retarget : Retarget} (hs : s.program.Checked) (hgraph : s.program.graph = none)
    (h : insertBefore anchor given retarget s = .ok new t ∨ insertAfter anchor given s = .ok new t) :
    ∃ xs ys heir found made passed there m summary, s.program.chain.ids = xs ++ ys
      ∧ PutIn s m xs ys new heir found made passed there ∧ made.bytes = given.bytes
      ∧ settle there m = .ok summary t
      ∧ (passed = [] ∨ retarget = .inserted ∧ s.program.redirects.targetOf? anchor = none
        ∧ s.program.chain.get? anchor = some found ∧ passed = found.referencedBy) := by
  rcases h with h | h
  · obtain ⟨there, m, summary, hsplice, hsettle⟩ := insertBefore_run h
    obtain ⟨xs, ys, found, made, passed, hids, hput, hbytes, hpassed⟩ := spliceBefore_putIn hs hgraph hsplice
    refine ⟨xs, ys, anchor, found, made, passed, there, m, summary, hids, hput, hbytes, hsettle, ?_⟩
    refine (Decidable.em (passed = [])).imp_right fun hne => ?_
    obtain ⟨hretarget, hanchor, hall⟩ := hpassed hne
    exact ⟨hretarget, hanchor, hput.getHeir, hall⟩
  · obtain ⟨there, m, summary, hsplice, hsettle⟩ := insertAfter_run h
    rcases spliceAfter_ok hsplice with ⟨next, -, hsplice⟩ | ⟨hfollower, hsplice⟩
    · obtain ⟨xs, ys, found, made, passed, hids, hput, hbytes, hpassed⟩ := spliceBefore_putIn hs hgraph hsplice
      refine ⟨xs, ys, next, found, made, passed, there, m, summary, hids, hput, hbytes, hsettle, .inl ?_⟩
      exact Decidable.byContradiction fun hne => nomatch (hpassed hne).1
    · obtain ⟨xs, ys, found, made, hids, hput, hbytes⟩ := appendAfter_putIn hs hgraph hfollower hsplice
      exact ⟨xs, ys, anchor, found, made, [], there, m, summary, hids, hput, hbytes, hsettle, .inl rfl⟩

namespace PutIn

theorem settled (h : PutIn s m xs ys new heir found made passed there)
    (hthere : settle there m = .ok summary t) : Mutual t.program (xs ++ new :: ys) :=
  Mutual.carry ⟨h.tidy.spells, h.tidy.attached, h.tidy.listed, h.answered⟩
    (Session.Carries.updateRelation.settle hthere)

theorem mutual_lost (h : PutIn s m xs ys new heir found made passed there)
    (hthere : settle there m = .ok summary t) (hexcise : excise new t = .ok (freed, back) e) :
    Mutual e.program (xs ++ ys) := by
  have hsettled := h.settled hthere
  obtain ⟨_, _, -, -, hspliced, -⟩ := excise_ok hsettled.spells hsettled.listed hexcise
  have hmutual : Mutual t.program (xs ++ [new] ++ ys) := by simpa using hsettled
  simpa using hmutual.spliced hspliced (excise_answered hsettled.spells hsettled.answered hexcise)

variable (h : PutIn s m xs ys new heir found made passed there) (hs : s.program.Checked)
  (hids : s.program.chain.ids = xs ++ ys) (hthere : settle there m = .ok summary t)
  (hlengths : ∀ x ∈ xs ++ ys, t.program.lengths x = s.program.lengths x)
  (hmade : t.program.lengths new = made.bytes.length)

include h hs hids

theorem untargeted {x : InstrId} {a : Instruction} (ha : s.program.chain.get? x = some a) :
    ∀ logical ∈ a.references, logical ≠ new := by
  rintro logical hlogical rfl
  have hmutual := mutual_of_checked hs hids
  exact h.gains.spells.not_mem_rest (hmutual.listed x (hmutual.mem_of_get? ha) a ha logical hlogical).1

theorem within : s.program.redirects.Within (· ≠ new) := by
  have htidy := hs.coherent.tidy
  rw [hids] at htidy
  exact htidy.not_redirected h.gains.spells.not_mem_rest

/-- Where a jumper lands after the insertion is where it landed, up to the instruction put in. -/
theorem lands (jumper : InstrId) {logical : InstrId} (hlogical : logical ≠ new) :
    swap new heir (m.program.redirects.resolve jumper logical)
      = s.program.redirects.resolve jumper logical := by
  obtain ⟨retarget, henters⟩ := h.gains.redirects
  have hne : new ≠ heir := by
    rintro rfl
    have hget := h.getHeir
    rw [h.gains.fresh] at hget
    cases hget
  exact henters.swap_resolve hs.acyclic (h.within hs hids) hne jumper hlogical

include hthere hlengths hmade

/-- The settling of an insertion that widens nothing is one shift. -/
theorem slid : Slid m t there := by
  refine settle_slid h.tidy.spells hthere (promoted_of_lengths h.tidy.spells hthere fun x => ?_)
  cases hb : m.program.chain.get? x with
  | none =>
    rw [Program.lengths_of_absent ((Session.Carries.updateRelation.settle hthere).chain.get?_eq_none hb)]
    exact Nat.zero_le _
  | some b =>
    rw [Program.lengths_eq hb]
    rcases mem_site_iff.mp (h.tidy.mem_of_get? hb) with rfl | hx
    · refine Nat.le_of_eq ?_
      rw [hmade, Option.some.inj (hb.symm.trans h.gains.placed)]
    · obtain ⟨a, ha⟩ := (mutual_of_checked hs hids).spells.get?_isSome hx
      obtain ⟨b', hb', halike⟩ := h.gains.alike.get? hx ha
      refine Nat.le_of_eq ?_
      rw [hlengths x hx, Program.lengths_eq ha, Option.some.inj (hb.symm.trans hb'), halike.bytes]

theorem bypasses : s.program.chain.Bypasses t.program.chain new :=
  h.gains.bypasses.trans ((h.slid hs hids hthere hlengths hmade).bypasses new)

theorem references_ne {x : InstrId} {c : Instruction} (hx : x ≠ new) (hc : t.program.chain.get? x = some c) :
    ∀ logical ∈ c.references, logical ≠ new := by
  obtain ⟨a, ha, hbeside⟩ := (h.bypasses hs hids hthere hlengths hmade).get?_of hx hc
  rw [hbeside.references]
  exact h.untargeted hs hids ha

/-- The instruction put in is there after the settling, at its size and tied to nothing that patches
it. -/
theorem placed_settled : ∃ moved, t.program.chain.get? new = some moved ∧ moved.size = made.size
    ∧ moved.relocs = [] ∧ moved.sec = found.sec ∧ moved.func = found.func := by
  obtain ⟨moved, hmoved, hsame, hlength, -⟩ := (h.slid hs hids hthere hlengths hmade).chain.get? h.gains.placed
  obtain ⟨left, -, -, hties⟩ := h.gains.ties
  have htie := hties new
  rw [if_pos rfl, Chain.tie?_eq h.gains.placed, Option.some.injEq] at htie
  refine ⟨moved, hmoved, congrArg UInt64.ofNat hlength, ?_, ?_⟩
  · rw [hsame]
    exact congrArg Tie.relocs htie
  · rw [hsame]
    exact h.gains.akin

/-- Only what was put in can jump to itself. -/
theorem selfTargeted {moved : Instruction} (hmoved : t.program.chain.get? new = some moved) :
    ∀ jumper ∈ moved.targetedBy, jumper = new := by
  intro jumper hjumper
  obtain ⟨source, hsource, hrefers⟩ := (h.settled hthere).answered new moved jumper hmoved hjumper
  exact Decidable.byContradiction fun hne => h.references_ne hs hids hthere hlengths hmade hne hsource new hrefers rfl

/-- What it was put next to is its heir. -/
theorem heir_eq : heir? t.program.chain new = some heir := by
  have hspells := (h.settled hthere).spells
  obtain ⟨moved, hmoved, -, -, hakin⟩ := h.placed_settled hs hids hthere hlengths hmade
  obtain ⟨instr, hnode⟩ := hspells.links.node?
  have hinstr : instr = moved := by
    rw [Chain.get?, hnode] at hmoved
    exact Option.some.inj hmoved
  have hkin : ∀ o : Option InstrId, (∀ x, o = some x → x ∈ xs ++ ys) →
      o.filter (t.program.chain.akin instr) = o.filter (s.program.chain.akin found) := by
    intro o ho
    cases o with
    | none => rfl
    | some x =>
      have hne : x ≠ new := by
        rintro rfl
        exact h.gains.spells.not_mem_rest (ho x rfl)
      rw [Option.filter_some, Option.filter_some, hinstr,
        (h.bypasses hs hids hthere hlengths hmade).akin hne hakin]
  rw [heir?, hnode, Option.bind_some, kin_eq hspells hnode,
    hkin _ fun x hx => List.mem_append_right _ (List.mem_of_head? hx),
    hkin _ fun x hx => List.mem_append_left _ (List.mem_of_getLast? hx)]
  rcases h.gains.functions with ⟨hnext, -⟩ | ⟨hnext, hlast, -⟩
  · rw [hnext]
    rfl
  · rw [hnext, hlast]
    rfl

theorem redirects_same : s.program.redirects.Same (t.program.redirects.replace new heir) := by
  obtain ⟨retarget, henters⟩ := h.gains.redirects
  rw [(h.slid hs hids hthere hlengths hmade).redirects]
  exact henters.replaced hs.acyclic (h.within hs hids) hs.keyed

theorem mergeInto : t.program.MergeInto new heir := by
  intro jumper source logical _ hjumper hsource _ htarget
  have hlogical : logical ≠ new :=
    h.references_ne hs hids hthere hlengths hmade hjumper hsource logical (by simp [Instruction.references, htarget])
  rw [swap_of_ne hlogical, (h.redirects_same hs hids hthere hlengths hmade).resolve,
    (h.slid hs hids hthere hlengths hmade).redirects]
  exact (h.lands hs hids jumper hlogical).symm

variable (hexcise : excise new t = .ok (freed, back) e)

include hexcise

/-- The removal of what was put in loses it to the instruction it was put in for. -/
theorem lost (hgraph : s.program.graph = none) : ∃ moved kept, t.program.chain.get? new = some moved
    ∧ t.program.chain.get? heir = some kept ∧ Loses t e xs ys new heir moved kept
    ∧ back = ⟨ys.head?, found.sec, found.func, (-made.size).toInt64, back.edited⟩ := by
  have hslid := h.slid hs hids hthere hlengths hmade
  have hsettled := h.settled hthere
  obtain ⟨moved, hmoved, hsize, hrelocs, hsec, hfunc⟩ := h.placed_settled hs hids hthere hlengths hmade
  obtain ⟨before, hbefore, -⟩ := h.gains.alike.get? ((mutual_of_checked hs hids).mem_of_get? h.getHeir) h.getHeir
  obtain ⟨kept, hkept, -⟩ := hslid.chain.get? hbefore
  obtain ⟨hloses, hshift⟩ := excise_loses (hslid.setting.graph (h.gains.setting.graph hgraph)) hsettled.spells
    hsettled.listed hmoved (h.heir_eq hs hids hthere hlengths hmade) hkept hrelocs
    (h.selfTargeted hs hids hthere hlengths hmade hmoved) hexcise
  rw [hsec, hfunc, hsize] at hshift
  exact ⟨moved, kept, hmoved, hkept, hloses, hshift⟩

/-- The redirects merge, so that only jumpers of what was taken out are left to be written. -/
theorem unsettled_lost : Unsettled e (xs ++ ys) back.edited := by
  have hsettled := h.settled hthere
  exact excise_unsettled hsettled.spells hsettled.listed
    (h.tidy.carry (Session.Carries.updateRelation.settle hthere)).within
    (settle_encodes h.tidy.spells h.tidy.listed hthere h.unsettled) (h.heir_eq hs hids hthere hlengths hmade)
    (h.mergeInto hs hids hthere hlengths hmade) hexcise

/-- An insertion and the removal of what it put in make a trip. Each of the four stages is read off its
run, and the third one needs that nothing refers to the new name but what the first one led there. -/
theorem trip (hgraph : s.program.graph = none) (hback : settle back e = .ok summary' u)
    (hlengths' : ∀ x ∈ xs ++ ys, u.program.lengths x = s.program.lengths x) :
    ∃ moved kept, Trip s m t e u xs ys new heir found made moved kept passed there back := by
  have hmutual := mutual_of_checked hs hids
  have hlost := h.mutual_lost hthere hexcise
  obtain ⟨moved, kept, hmoved, hkept, hloses, hshift⟩ := h.lost hs hids hthere hlengths hmade hexcise hgraph
  -- on the way back, too, no jump is widened, as lengths come back to what they were
  have hslidBack : Slid e u back := by
    refine settle_slid hlost.spells hback (promoted_of_lengths hlost.spells hback fun x => ?_)
    cases hd : e.program.chain.get? x with
    | none =>
      rw [Program.lengths_of_absent ((Session.Carries.updateRelation.settle hback).chain.get?_eq_none hd)]
      exact Nat.zero_le _
    | some d =>
      have hx := hlost.mem_of_get? hd
      obtain ⟨c, hc⟩ := (h.settled hthere).spells.get?_isSome (mem_site_iff.mpr (.inr hx))
      obtain ⟨d', hd', halike⟩ := hloses.alike.get? hx hc
      refine Nat.le_of_eq ?_
      rw [hlengths' x hx, ← hlengths x hx, Program.lengths_eq hc, Program.lengths_eq hd,
        Option.some.inj (hd.symm.trans hd'), halike.bytes]
  exact ⟨moved, kept, {
    spells := hmutual.spells
    attached := hmutual.attached
    gains := h.gains
    slid := h.slid hs hids hthere hlengths hmade
    loses := hloses
    slidBack := hslidBack
    getHeir := h.getHeir
    getMoved := hmoved
    getKept := hkept
    site := by
      rw [h.shift]
      exact ⟨rfl, rfl, rfl⟩
    siteBack := by
      rw [hshift]
      exact ⟨rfl, rfl, rfl⟩
    delta := by
      rw [h.shift, hshift, UInt64.toUInt64_toInt64, UInt64.toUInt64_toInt64]
      grind
    untargeted := fun x a ha => h.untargeted hs hids ha
    same := hloses.redirects ▸ h.redirects_same hs hids hthere hlengths hmade
    lands := fun jumper logical _ hlogical => h.lands hs hids jumper hlogical
    answered := ⟨hmutual.answered, (hlost.carry (Session.Carries.updateRelation.settle hback)).answered⟩
    recodes := ⟨settle_recodes h.tidy.spells hthere, settle_recodes hlost.spells hback⟩
    encodes := ⟨hids ▸ Program.verifyDisplacements_ok.mp hs.coherent.displacements,
      settle_encodes hlost.spells hlost.listed hback
        (h.unsettled_lost hs hids hthere hlengths hmade hexcise)⟩ }⟩

end PutIn

end EngineM

/-! ## Bounds -/

/-- A function with an instruction in its run is not bounded by one that is not there. -/
theorem Program.ne_bounds_of_absent {program : Program} {owner : FuncId} {function : Function} {id absent : InstrId}
    (hverified : program.verifyFunctions = .ok ())
    (hfunction : program.functions.get? owner = some function)
    (hid : id ∈ function.instructions program.chain) (hne : id ≠ absent)
    (habsent : program.chain.get? absent = none) :
    function.first ≠ some absent ∧ function.last ≠ some absent := by
  have hwalk : id ∈ program.chain.walk function.first := (program.chain.run_sublist _ _).subset hid
  refine ⟨fun hfirst => ?_, fun hlast => ?_⟩
  · have hnext : program.chain.next? absent = none := by
      rw [Chain.next?, Chain.get?_eq_none_iff_node?.mp habsent, Option.bind_none]
    have hsingle : program.chain.walk (some absent) = [absent] := by
      rw [Chain.walk, Chain.follow, hnext]
      cases program.chain.slots.size <;> rfl
    rw [hfirst, hsingle] at hwalk
    exact hne (List.mem_singleton.mp hwalk)
  · cases hfirst : function.first with
    | none =>
      rw [hfirst] at hwalk
      cases hwalk
    | some first =>
      obtain ⟨hstamped, hreached, -⟩ :=
        verifyFunction_ok.mp (verifyFunctions_ok.mp hverified owner function hfunction) first absent hfirst hlast
      obtain ⟨instr, hinstr, -⟩ := hstamped absent hreached
      rw [habsent] at hinstr
      cases hinstr

/-- The check of functions looks at where they are if they have an end. -/
theorem Program.anchored_of_verified {program : Program} {owner : FuncId}
    (hverified : program.verifyFunctions = .ok ())
    (hbounded : ∀ function, program.functions.get? owner = some function → function.isDefined = true →
      function.last.isSome = true) : program.Anchored owner := by
  intro function first instr hfunction hfirst hinstr _
  obtain ⟨last, hlast⟩ := Option.isSome_iff_exists.mp (hbounded function hfunction (by
    rw [Function.isDefined, hfirst]
    rfl))
  obtain ⟨-, -, ⟨instr', hinstr', haddr⟩, -⟩ :=
    verifyFunction_ok.mp (verifyFunctions_ok.mp hverified owner function hfunction) first last hfirst hlast
  rw [haddr, Option.some.inj (hinstr.symm.trans hinstr')]

/-! ## Taking out what was put in -/

/-- Instructions are stamped with a function exactly if they lie in its run. -/
def Program.RunStamped (program : Program) : Prop :=
  ∀ id ∈ program.chain.ids, ∀ instr owner, program.chain.get? id = some instr →
    (instr.func = some owner ↔ ∃ function, program.functions.get? owner = some function
      ∧ id ∈ function.instructions program.chain)

/-- The records that point at `anchor` can be passed to `new` and back: each is listed once, and none names
`new` yet. -/
def Program.Yields (program : Program) (anchor new : InstrId) : Prop :=
  ∀ found, program.chain.get? anchor = some found → found.referencedBy.Nodup
    ∧ ∀ symbol ∈ found.referencedBy, ∀ record, program.symbols.get? symbol = some record →
      record.instr ≠ some new ∧ ∀ reloc, record.reloc = some reloc → reloc.target ≠ some new

/-- Nothing is left of an insertion when its instruction is removed again, if neither of the two widened
anything: the code, the back references, the functions, the symbols and the redirects are what they were. -/
theorem remove_insertion {s t u : Session} {anchor new : InstrId} {given freed : Instruction}
    {retarget : Retarget} (hs : s.program.Checked) (hgraph : s.program.graph = none)
    (hstamped : s.program.RunStamped)
    (hanchored : ∀ owner, s.program.Anchored owner)
    (hyields : retarget = .inserted → s.program.redirects.targetOf? anchor = none →
      s.program.Yields anchor new)
    (hinsert : EngineM.insertBefore anchor given retarget s = .ok new t
      ∨ EngineM.insertAfter anchor given s = .ok new t)
    (hwidened : s.program.widened t.program = [] ∧ t.program.lengths new = given.bytes.length)
    (hremove : EngineM.remove new t = .ok freed u) (hwidened' : s.program.widened u.program = []) :
    s.program.Restored u.program := by
  have hlengths : ∀ {after : Program}, s.program.widened after = [] → ∀ x ∈ s.program.chain.ids,
      after.lengths x = s.program.lengths x := by
    intro after hnone x hx
    have hkept := List.filter_eq_nil_iff.mp hnone x hx
    simpa using hkept
  simp only [EngineM.remove, bind_ok, discard_ok, pure_ok] at hremove
  obtain ⟨⟨freed', back⟩, e, hexcise, _, _, ⟨summary', hback⟩, -, rfl⟩ := hremove
  obtain ⟨xs, ys, heir, found, made, passed, there, m, summary, hids, hput, hbytes, hthere, hpassed⟩ :=
    EngineM.insertion_putIn hs hgraph hinsert
  have hback' : passed.Nodup ∧ ∀ symbol ∈ passed, ∀ record, s.program.symbols.get? symbol = some record →
      record.instr ≠ some new ∧ ∀ reloc, record.reloc = some reloc → reloc.target ≠ some new := by
    rcases hpassed with rfl | ⟨hretarget, hanchor, hfound, rfl⟩
    · exact ⟨List.nodup_nil, fun _ hsymbol => (List.not_mem_nil hsymbol).elim⟩
    · exact hyields hretarget hanchor found hfound
  obtain ⟨moved, kept, htrip⟩ := hput.trip hs hids hthere (hids ▸ hlengths hwidened.1)
    (hbytes ▸ hwidened.2) hexcise hgraph hback (hids ▸ hlengths hwidened')
  refine htrip.restored hgraph hback'.1 hback'.2 (fun owner function hfunction howner => ?_) hanchored
  obtain ⟨function', hfunction', hrun⟩ :=
    (hstamped heir (hids ▸ htrip.mem htrip.getHeir) found owner htrip.getHeir).mp howner
  obtain rfl := Option.some.inj (hfunction.symm.trans hfunction')
  exact Program.ne_bounds_of_absent (Program.verify_parts hs.verified).2.2.1 hfunction hrun
    (htrip.ne_new (htrip.mem htrip.getHeir)) htrip.gains.fresh

/-- An instruction that the jump is to land on is put in and removed again. -/
theorem remove_insertion_hop : ∃ t freed u,
    hop.program.Checked ∧ hop.program.graph = none ∧ hop.program.RunStamped
      ∧ (∀ owner, hop.program.Anchored owner) ∧ hop.program.Yields ⟨2⟩ ⟨3⟩
      ∧ EngineM.insertBefore ⟨2⟩ (.synthetic [0x90] 1 .nop) .inserted hop = .ok ⟨3⟩ t
      ∧ hop.program.widened t.program = [] ∧ t.program.lengths ⟨3⟩ = 1
      ∧ EngineM.remove ⟨3⟩ t = .ok freed u ∧ hop.program.widened u.program = []
      ∧ hop.program.Restored u.program := by
  have hinsert : Returns (EngineM.insertBefore ⟨2⟩ (.synthetic [0x90] 1 .nop) .inserted) hop ⟨3⟩ = true := by
    decide +kernel
  have hremove : Succeeds (EngineM.remove ⟨3⟩)
      (outcome (EngineM.insertBefore ⟨2⟩ (.synthetic [0x90] 1 .nop) .inserted) hop) = true := by
    decide +kernel
  obtain ⟨freed, hremove⟩ := Succeeds.ok hremove
  have hinsert := Returns.ok hinsert
  have hanchored : ∀ owner, hop.program.Anchored owner := fun owner =>
    Program.anchored_of_verified hop_regular.functions (hop_regular.bounded owner)
  have hyields : hop.program.Yields ⟨2⟩ ⟨3⟩ := by
    intro found hfound
    obtain rfl := Option.some.inj hfound
    exact ⟨List.nodup_nil, fun _ hsymbol => (List.not_mem_nil hsymbol).elim⟩
  have hthere : hop.program.widened (outcome (EngineM.insertBefore ⟨2⟩ (.synthetic [0x90] 1 .nop) .inserted)
      hop).program = [] := by
    decide +kernel
  have hback : hop.program.widened (outcome (EngineM.remove ⟨3⟩)
      (outcome (EngineM.insertBefore ⟨2⟩ (.synthetic [0x90] 1 .nop) .inserted) hop)).program = [] := by
    decide +kernel
  have hmade : (outcome (EngineM.insertBefore ⟨2⟩ (.synthetic [0x90] 1 .nop) .inserted)
      hop).program.lengths ⟨3⟩ = 1 := by
    decide +kernel
  exact ⟨_, freed, _, hop_checked, rfl, hop_regular.stamped, hanchored, hyields, hinsert, hthere, hmade, hremove,
    hback, remove_insertion hop_checked rfl hop_regular.stamped hanchored (fun _ _ => hyields) (.inl hinsert)
      ⟨hthere, hmade⟩ hremove hback⟩

/-- A function of two instructions, of which the first one lists records that point at it. -/
def ledger (function : Function) (record : Symbol) (listed : List SymbolId) : Session :=
  { hop with
    program :=
      { hop.program with
        chain := .ofList
          [{ Instruction.decoded 0 [0x90] 1 .nop with sec := 1, func := some ⟨0⟩, referencedBy := listed },
            { Instruction.decoded 1 [0x90] 1 .nop with sec := 1, func := some ⟨0⟩ }]
        functions := ⟨#[function]⟩
        symbols := ⟨#[record], [[⟨0⟩]], 1⟩ } }

/-- What is put in front of the first instruction, for jumpers and symbols to come to, leaves something behind
when it is removed. -/
def Session.Lingers (s : Session) : Prop :=
  s.program.Checked ∧ s.program.graph = none
    ∧ s.program.RunStamped
    ∧ ∃ t freed u, EngineM.insertBefore ⟨0⟩ (.synthetic [0x90] 1 .nop) .inserted s = .ok ⟨2⟩ t
      ∧ s.program.widened t.program = [] ∧ t.program.lengths ⟨2⟩ = 1
      ∧ EngineM.remove ⟨2⟩ t = .ok freed u ∧ s.program.widened u.program = []
      ∧ ¬ s.program.Restored u.program

section Traces

variable {function : Function} {record : Symbol} {listed : List SymbolId}

/-- The code of the ledger is its two instructions. -/
theorem mem_ids_ledger {id : InstrId} (h : id ∈ (ledger function record listed).program.chain.ids) :
    id = ⟨0⟩ ∨ id = ⟨1⟩ := by
  rw [show (ledger function record listed).program.chain.ids = [⟨0⟩, ⟨1⟩] from
    (Chain.spells_ofList _).ids_eq] at h
  simpa using h

/-- The ledger passes the remaining checks if it passes the verification. -/
theorem ledger_checked (hverified : (ledger function record listed).program.verify.isOk = true) :
    (ledger function record listed).program.Checked where
  verified := isOk_iff.mp hverified
  attached := Chain.attached_ofList _
  consecutive := .of_section 1 fun id hid => by
    rcases mem_ids_ledger hid with rfl | rfl <;> rfl
  keyed := hop_coherent.keyed
  acyclic := hop_coherent.acyclic
  linked := fun _ h => (List.not_mem_nil h).elim

/-- The ledger is stamped as its function runs. -/
theorem ledger_stamped
    (hrun : function.instructions (ledger function record listed).program.chain = [⟨0⟩, ⟨1⟩]) :
    (ledger function record listed).program.RunStamped := by
  intro id hid instr owner hinstr
  have hown : instr.func = some ⟨0⟩ := by
    rcases mem_ids_ledger hid with rfl | rfl
    all_goals
      obtain rfl := Option.some.inj hinstr
      rfl
  rw [hown]
  constructor
  · intro howner
    obtain rfl := Option.some.inj howner
    refine ⟨function, rfl, ?_⟩
    rw [hrun]
    rcases mem_ids_ledger hid with rfl | rfl
    · exact List.mem_cons_self ..
    · exact List.mem_cons_of_mem _ (List.mem_cons_self ..)
  · rintro ⟨f, hf, -⟩
    obtain ⟨index⟩ := owner
    cases index with
    | zero => rfl
    | succ index => cases hf

/-- The function of the ledger begins at its first instruction, if it has been verified. -/
theorem ledger_anchored (hverified : (ledger function record listed).program.verify.isOk = true)
    (hlast : function.last.isSome = true) (owner : FuncId) :
    (ledger function record listed).program.Anchored owner := by
  refine Program.anchored_of_verified (Program.verify_parts (isOk_iff.mp hverified)).2.2.1
    fun found hfound _ => ?_
  obtain ⟨_ | index⟩ := owner
  · obtain rfl := Option.some.inj hfound
    exact hlast
  · cases hfound

end Traces

/-- The program after the insertion. -/
def Session.withInsertion (s : Session) : Session :=
  outcome (EngineM.insertBefore ⟨0⟩ (.synthetic [0x90] 1 .nop) .inserted) s

/-- The program after the insertion and the removal. -/
def Session.withdrawn (s : Session) : Session := outcome (EngineM.remove ⟨2⟩) s.withInsertion

/-- What an insertion and a removal leave behind, read off a run that succeeds. -/
theorem lingers_of_run {s : Session} (hs : s.program.Checked) (hgraph : s.program.graph = none)
    (hstamped : s.program.RunStamped)
    (hinsert : Returns (EngineM.insertBefore ⟨0⟩ (.synthetic [0x90] 1 .nop) .inserted) s ⟨2⟩ = true)
    (hremove : Succeeds (EngineM.remove ⟨2⟩) s.withInsertion = true)
    (hkept : s.program.widened s.withInsertion.program = [] ∧ s.withInsertion.program.lengths ⟨2⟩ = 1
      ∧ s.program.widened s.withdrawn.program = [])
    (hdiffers : s.withdrawn.program.functions ≠ s.program.functions
      ∨ s.withdrawn.program.symbols ≠ s.program.symbols) : s.Lingers := by
  obtain ⟨freed, hremove⟩ := Succeeds.ok hremove
  refine ⟨hs, hgraph, hstamped, s.withInsertion, freed, s.withdrawn, Returns.ok hinsert, hkept.1, hkept.2.1, hremove,
    hkept.2.2, fun hrestored => ?_⟩
  rcases hdiffers with hfunctions | hsymbols
  · exact hfunctions hrestored.functions
  · exact hsymbols hrestored.symbols

/-- The function has no last instruction, so that nothing has checked where it is. -/
def unmoored : Session :=
  ledger ⟨"unmoored", 1, some ⟨0⟩, none, 5, 5, 2, none⟩ (.ofRaw ⟨0⟩ 0 ⟨"", 0, 0, 0, 0⟩) []

/-- The record refers to the name that is given out next. -/
def forestalled : Session :=
  ledger { Function.declared "forestalled" 1 (some (⟨0⟩, ⟨1⟩)) 0 with size := 2 }
    { Symbol.ofRaw ⟨0⟩ 0 ⟨"", 0, 0, 1, 0⟩ with
      instr := some ⟨0⟩
      reloc := some ⟨1, 0, 0, ⟨2⟩, .explicit, none, some ⟨2⟩⟩ } [⟨0⟩]

/-- The record is listed twice. -/
def doubled : Session :=
  ledger { Function.declared "doubled" 1 (some (⟨0⟩, ⟨1⟩)) 0 with size := 2 }
    { Symbol.ofRaw ⟨0⟩ 0 ⟨"", 0, 0, 1, 0⟩ with instr := some ⟨0⟩ } [⟨0⟩, ⟨0⟩]

/-- Each of the conditions on functions and on records that a check does not look at is needed: a function
without an end is not where its first instruction is, a record names what is put in before that is there, or it
is listed twice, and the removal does not undo the insertion. -/
theorem removal_leaves_traces :
    (unmoored.Lingers ∧ unmoored.program.Yields ⟨0⟩ ⟨2⟩)
      ∧ (forestalled.Lingers ∧ ∀ owner, forestalled.program.Anchored owner)
      ∧ doubled.Lingers ∧ ∀ owner, doubled.program.Anchored owner := by
  refine ⟨⟨?_, fun found hfound => ?_⟩, ⟨?_, fun owner => ?_⟩, ?_, fun owner => ?_⟩
  · exact lingers_of_run (ledger_checked (by decide +kernel)) rfl (ledger_stamped (by decide +kernel))
      (by decide +kernel) (by decide +kernel) (by decide +kernel) (by decide +kernel)
  · obtain rfl := Option.some.inj hfound
    exact ⟨List.nodup_nil, fun _ hsymbol => (List.not_mem_nil hsymbol).elim⟩
  · exact lingers_of_run (ledger_checked (by decide +kernel)) rfl (ledger_stamped (by decide +kernel))
      (by decide +kernel) (by decide +kernel) (by decide +kernel) (by decide +kernel)
  · exact ledger_anchored (by decide +kernel) rfl owner
  · exact lingers_of_run (ledger_checked (by decide +kernel)) rfl (ledger_stamped (by decide +kernel))
      (by decide +kernel) (by decide +kernel) (by decide +kernel) (by decide +kernel)
  · exact ledger_anchored (by decide +kernel) rfl owner

end Splice
