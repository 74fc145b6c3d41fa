import Splice.Proofs.Program.Inserting

/-!
# Where jumps land after an insertion

An insertion in front of an instruction leaves every target as it is, so where a jumper lands
is a matter of the redirects alone, and of those the insertion adds one at most
(`Redirects.Enters`). What that one does is said once about the redirects
(`Acyclic.resolve_redirect`): whoever landed on the anchor and has no override lands on what
was put in, and nobody else notices.

The redirect does not tell the jumpers that were there from those that come later. If what
is put in is itself a jump that leads back to the anchor, it is caught by the redirect like
any other and lands on itself (`insertBefore_lands_on_itself`). `insertBefore_lands` says
that this is the only case in which it does not land where it was sent.

What is put in may be any instruction, with a target of its own or none. For both retargeting
modes the anchor's redirect, if it has one, is left as it is: then nothing is caught, and
jumpers land where they landed (`Redirects.Catches`).
-/

namespace Splice

namespace Redirects

variable {r after : Redirects} {anchor new : InstrId} {retarget : Retarget}

/-- What landed on the source of the new redirect without an override lands where that leads. -/
theorem Acyclic.resolve_redirect (hr : r.Acyclic) (hanchor : r.targetOf? anchor = none)
    (hnew : r.targetOf? new = none) (hne : new ≠ anchor)
    (h : r.redirect anchor new = .ok after) (jumper logical : InstrId) :
    after.resolve jumper logical
      = if r.overrideOf? jumper = none ∧ r.resolve jumper logical = anchor then new
        else r.resolve jumper logical := by
  rw [resolve, resolve, overrideOf?_redirect h]
  cases hoverride : r.overrideOf? jumper with
  | some physical =>
    rw [if_neg fun hcaught => Option.some_ne_none physical hcaught.1]
    rfl
  | none =>
    rw [Option.getD_none, Option.getD_none, hr.landing_redirect hanchor hnew hne h]
    simp only [true_and]

/-- An insertion in front of `anchor` is to catch the jumpers that land there, and there is no redirect
yet that leads them on. -/
def Catches (r : Redirects) (anchor : InstrId) (retarget : Retarget) : Prop :=
  retarget = .inserted ∧ r.targetOf? anchor = none

instance (r : Redirects) (anchor : InstrId) (retarget : Retarget) :
    Decidable (r.Catches anchor retarget) :=
  inferInstanceAs (Decidable (_ ∧ _))

/-- Where the redirects lead after an insertion, in terms of where they led before. -/
theorem Enters.resolve (h : r.Enters anchor new retarget after) (hr : r.Acyclic)
    (hnew : r.targetOf? new = none) (hne : new ≠ anchor) (jumper logical : InstrId) :
    after.resolve jumper logical
      = if r.Catches anchor retarget ∧ r.overrideOf? jumper = none
          ∧ r.resolve jumper logical = anchor then new
        else r.resolve jumper logical := by
  rcases h with ⟨hstays, rfl⟩ | ⟨hinserted, hopen, hredirect⟩
  · rw [if_neg]
    intro hcaught
    -- jumpers are caught only where there is no redirect, and then one is added
    have hsome := hstays hcaught.1.1
    rw [hcaught.1.2] at hsome
    cases hsome
  · have hcatches : r.Catches anchor retarget := ⟨hinserted, hopen⟩
    rw [hr.resolve_redirect hopen hnew hne hredirect]
    simp only [hcatches, true_and]

end Redirects

/-- The target of an instruction, if it has one. -/
def Chain.target? (chain : Chain) (id : InstrId) : Option InstrId := (chain.get? id).bind (·.target)

theorem Chain.target?_eq {chain : Chain} {id : InstrId} {instr : Instruction}
    (h : chain.get? id = some instr) : chain.target? id = instr.target := by
  rw [target?, h, Option.bind_some]

theorem Chain.target?_of_absent {chain : Chain} {id : InstrId} (h : chain.get? id = none) :
    chain.target? id = none := by
  rw [target?, h, Option.bind_none]

/-- The instruction on which `jumper` lands, if it has a target. -/
def Program.land? (program : Program) (jumper : InstrId) : Option InstrId :=
  (program.chain.target? jumper).map (program.redirects.resolve jumper)

namespace EngineM

variable {s t : Session} {anchor new : InstrId} {given : Instruction} {retarget : Retarget} {u : Unit}

/-- What was put in without a target is pointed at the one that it was given with. -/
theorem linkInserted_target {i : Instruction} (hi : s.program.chain.get? new = some i)
    (htarget : i.target = none) (h : linkInserted new given s = .ok u t) :
    ∃ j, t.program.chain.get? new = some j ∧ j.target = given.target := by
  obtain ⟨middle, chain, rfl, hmiddle, hchain⟩ := linkInserted_run h
  have hm : ∃ j, middle.get? new = some j ∧ j.target = given.target := by
    rcases hmiddle with ⟨hgiven, rfl⟩ | ⟨target, hgiven, hrun⟩
    · exact ⟨i, hi, htarget.trans hgiven.symm⟩
    · obtain ⟨found, -, -, rfl⟩ := ChainM.linkTarget_ok hrun
      refine ⟨_, (Chain.get?_adjust ..).trans (congrArg _ hi), ?_⟩
      rw [hgiven, ChainM.targeted]
      split <;> simp [Instruction.noting]
  -- the table is set last and leaves the target alone
  obtain ⟨j, hj, htarget'⟩ := hm
  rcases hchain with rfl | hrun
  · exact ⟨j, hj, htarget'⟩
  · obtain ⟨found, -, -, rfl⟩ := ChainM.setJumpTable_ok hrun
    refine ⟨_, (Chain.get?_adjust ..).trans (congrArg _ hj), ?_⟩
    exact ChainM.tabled_relinked.2.trans htarget'

/-- What is put in front of an instruction has the target that it was given with, and everything else
keeps its own. -/
theorem insertBefore_target? (hs : s.program.Coherent) (h : insertBefore anchor given retarget s = .ok new t)
    (id : InstrId) :
    t.program.chain.target? id = if id = new then given.target else s.program.chain.target? id := by
  obtain ⟨shift, m, summary, hsplice, hsettle⟩ := insertBefore_run h
  have hcarries := Session.Carries.updateRelation.settle hsettle
  obtain ⟨found, hfound⟩ := spliceBefore_present hsplice
  obtain ⟨xs, ys, hids⟩ := List.append_of_mem (hs.tidy.mem_of_get? hfound)
  have htidy := hs.tidy
  rw [hids] at htidy
  obtain ⟨_, -, hplaced, -⟩ := spliceBefore_ok htidy.spells htidy.attached htidy.listed hsplice
  by_cases hid : id = new
  · rw [if_pos hid, hid]
    obtain ⟨_, block, c₁, s₂, s₄, entering, s₅, -, -, hinsert, hlink, hextend, henter, ht, -⟩ :=
      spliceBefore_run hsplice
    have hins := ChainM.insertBefore_inserted htidy.spells hinsert
    obtain ⟨a, ha, htarget⟩ := linkInserted_target ((hins.get? new).trans (if_pos rfl)) rfl hlink
    have hs₄ := (forBlock_regraphed (fun _ => extendBlockBefore_regraphed) hextend).sameCode
    rw [← chain_withOwner, ← hs₄.chain] at ha
    obtain ⟨b, hb, hretied⟩ := (enteringJumpers_ok henter).1.get? ha
    obtain ⟨c, hc, hcarried⟩ := hcarries.chain.get? (ht ▸ hb)
    rw [Chain.target?_eq hc, hcarried.target, hretied.target, htarget]
  · rw [if_neg hid]
    cases hsource : s.program.chain.get? id with
    | some source =>
      obtain ⟨b, hb, -, htarget⟩ := hplaced.kept.get? (htidy.mem_of_get? hsource) hsource
      obtain ⟨c, hc, hcarried⟩ := hcarries.chain.get? hb
      rw [Chain.target?_eq hc, Chain.target?_eq hsource, hcarried.target, htarget, Option.map_id_fun]
      rfl
    | none =>
      -- only what was put in is new
      rw [Chain.target?_of_absent hsource]
      refine Chain.target?_of_absent (Option.not_isSome_iff_eq_none.mp fun hpresent => ?_)
      rw [hcarries.chain.isSome_get?, ← Chain.contains_eq_isSome_get?] at hpresent
      rcases mem_mid_iff.mp (hplaced.attached (by simpa using htidy.attached) id hpresent) with
        hmid | hold
      · exact hid (List.mem_singleton.mp hmid)
      · obtain ⟨_, hget⟩ := htidy.spells.get?_isSome hold
        rw [hsource] at hget
        cases hget

/-- Where the redirects lead after an insertion in front of an instruction. -/
theorem insertBefore_resolve (hs : s.program.Coherent)
    (h : insertBefore anchor given retarget s = .ok new t) :
    s.program.chain.get? new = none ∧ new ≠ anchor ∧ s.program.redirects.overrideOf? new = none
      ∧ ∀ jumper logical, t.program.redirects.resolve jumper logical
        = if s.program.redirects.Catches anchor retarget
            ∧ s.program.redirects.overrideOf? jumper = none
            ∧ s.program.redirects.resolve jumper logical = anchor then new
          else s.program.redirects.resolve jumper logical := by
  obtain ⟨shift, m, summary, hsplice, hsettle⟩ := insertBefore_run h
  obtain ⟨found, hfound⟩ := spliceBefore_present hsplice
  obtain ⟨xs, ys, hids⟩ := List.append_of_mem (hs.tidy.mem_of_get? hfound)
  have htidy := hs.tidy
  rw [hids] at htidy
  obtain ⟨_, -, hplaced, -, henters, -⟩ :=
    spliceBefore_ok htidy.spells htidy.attached htidy.listed hsplice
  have hfresh : s.program.chain.get? new = none := hplaced.fresh new (List.mem_singleton_self new)
  have hnew : new ∉ xs ++ anchor :: ys := htidy.spells.not_mem hfresh
  have hne : new ≠ anchor := by
    rintro rfl
    exact hnew (by simp)
  have hwithin := htidy.not_redirected hnew
  refine ⟨hfresh, hne, hwithin.overrideOf?_eq_none, fun jumper logical => ?_⟩
  rw [(Session.Carries.updateRelation.settle hsettle).redirects]
  exact henters.resolve htidy.acyclic hwithin.targetOf?_eq_none hne jumper logical

end EngineM

/-- After an insertion in front of an instruction, a jumper that was there before lands where it
landed, unless it is caught: then it lands on what was put in. What was put in lands where it was
sent, unless it is caught as well: then it lands on itself. -/
theorem insertBefore_lands {s t : Session} {anchor new : InstrId} {given : Instruction}
    {retarget : Retarget} (hs : s.program.Coherent)
    (h : EngineM.insertBefore anchor given retarget s = .ok new t) :
    s.program.chain.get? new = none
      ∧ (∀ jumper, jumper ≠ new → t.program.land? jumper
          = if s.program.redirects.Catches anchor retarget
              ∧ s.program.redirects.overrideOf? jumper = none
              ∧ s.program.land? jumper = some anchor then some new
            else s.program.land? jumper)
      ∧ ∀ logical, given.target = some logical →
          (t.program.land? new = some (s.program.redirects.resolve new logical)
            ↔ ¬ (s.program.redirects.Catches anchor retarget
                ∧ s.program.redirects.resolve new logical = anchor))
          ∧ (s.program.redirects.Catches anchor retarget
              → s.program.redirects.resolve new logical = anchor → t.program.land? new = some new) := by
  obtain ⟨hfresh, hne, hoverride, hresolve⟩ := EngineM.insertBefore_resolve hs h
  have htarget := EngineM.insertBefore_target? hs h
  refine ⟨hfresh, fun jumper hjumper => ?_, fun logical hlogical => ?_⟩
  · rw [Program.land?, Program.land?, htarget, if_neg hjumper]
    cases s.program.chain.target? jumper with
    | none => simp
    | some logical =>
      rw [Option.map_some, Option.map_some, hresolve]
      simp only [Option.some.injEq]
      exact apply_ite some _ _ _
  · have hland : t.program.land? new
        = some (if s.program.redirects.Catches anchor retarget
            ∧ s.program.redirects.resolve new logical = anchor then new
          else s.program.redirects.resolve new logical) := by
      rw [Program.land?, htarget, if_pos rfl, hlogical, Option.map_some, hresolve, hoverride]
      simp only [true_and]
    rw [hland, Option.some.injEq, Option.some.injEq]
    refine ⟨⟨fun hsame hcaught => ?_, fun hfree => if_neg hfree⟩, fun hcatches hback =>
      if_pos ⟨hcatches, hback⟩⟩
    rw [if_pos hcaught, hcaught.2] at hsame
    exact hne hsame

/-- The jump over an instruction lands on what is inserted in front of its target. -/
theorem insertBefore_lands_hop : ∃ t,
    hop.program.Coherent
      ∧ EngineM.insertBefore ⟨2⟩ (.synthetic [0x90] 1 .nop) .inserted hop = .ok ⟨3⟩ t
      ∧ hop.program.land? ⟨0⟩ = some ⟨2⟩ ∧ t.program.land? ⟨0⟩ = some ⟨3⟩ := by
  have hrun : Returns (EngineM.insertBefore ⟨2⟩ (.synthetic [0x90] 1 .nop) .inserted) hop ⟨3⟩ = true := by
    decide +kernel
  have h := Returns.ok hrun
  have hbefore : hop.program.land? ⟨0⟩ = some ⟨2⟩ := by decide
  obtain ⟨-, hothers, -⟩ := insertBefore_lands hop_coherent h
  refine ⟨_, hop_coherent, h, hbefore, (hothers ⟨0⟩ (by decide)).trans (if_pos ⟨?_, rfl, hbefore⟩)⟩
  exact ⟨rfl, rfl⟩

/-- A jump to the anchor that is put in front of it for the jumpers of the anchor to run through is
caught by its own redirect, and jumps to itself forever. -/
theorem insertBefore_lands_on_itself : ∃ t,
    hop.program.verify = .ok () ∧ hop.program.Coherent
      ∧ EngineM.insertBefore ⟨2⟩ { Instruction.synthetic [0xEB, 0x00] 1 .jump with target := some ⟨2⟩ }
          .inserted hop = .ok ⟨3⟩ t
      ∧ hop.program.redirects.resolve ⟨3⟩ ⟨2⟩ = ⟨2⟩ ∧ t.program.land? ⟨3⟩ = some ⟨3⟩ := by
  have hrun : Returns (EngineM.insertBefore ⟨2⟩
      { Instruction.synthetic [0xEB, 0x00] 1 .jump with target := some ⟨2⟩ } .inserted) hop ⟨3⟩ = true := by
    decide +kernel
  exact ⟨_, rfl, hop_coherent, Returns.ok hrun, rfl, by decide +kernel⟩

end Splice
