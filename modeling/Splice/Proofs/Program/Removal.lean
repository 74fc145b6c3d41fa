import Splice.Proofs.Program.Edits
import Splice.Proofs.Program.Excision

/-!
# Removals

A removal merges the redirects of the instruction with those of its heir. It writes anew
the displacements of the jumpers that land on the heir afterwards, but the merge may also
send jumpers of the heir away from it, to where a redirect of the removed instruction
leads, and those it does not touch.

`remove_lands_iff` says when that does not happen: removing an instruction leaves all
displacements right, and all landings where they were but for the heir in the place of the
instruction, exactly if the redirects `MergeInto` the heir. That is so in particular if
neither of the two is redirected (`mergeInto_of_unredirected`).

The heir is the next instruction of the same function and section, or the one in front. That the
merge may lead jumpers of the heir on comes from a redirect of the removed instruction to a
third place: the two names become one, and the redirect then holds for both.
-/

namespace Splice

/-- With `heir` in the place of `id`, the redirects lead every other direct transfer where they led it,
or to `heir` if they led to `id`. -/
def Program.MergeInto (program : Program) (id heir : InstrId) : Prop :=
  ∀ jumper source logical, program.chain.isLinked jumper = true → jumper ≠ id →
    program.chain.get? jumper = some source → source.isDirectTransfer = true →
    source.target = some logical →
    (program.redirects.replace id heir).resolve jumper (swap id heir logical)
      = swap id heir (program.redirects.resolve jumper logical)

namespace EngineM

variable {s t : Session} {id heir : InstrId} {xs ys : List InstrId}

/-- Where the redirects merge, only jumpers that landed on what was taken out are left to be written,
and those are named. -/
theorem excise_unsettled {freed : Instruction} {shift : Shift}
    (hl : s.program.chain.Spells (xs ++ id :: ys))
    (hlisted : s.program.chain.Listed (xs ++ id :: ys))
    (hwithin : s.program.redirects.Within (· ∈ xs ++ id :: ys))
    (hs : ∀ jumper ∈ xs ++ id :: ys, s.program.Encodes jumper)
    (hheir : heir? s.program.chain id = some heir) (hmerge : s.program.MergeInto id heir)
    (h : excise id s = .ok (freed, shift) t) : Unsettled t (xs ++ ys) shift.edited := by
  obtain ⟨found, heir', hfound, hheir', hsplice, -, hredirects, edited, hedited, rfl⟩ :=
    excise_ok hl hlisted h
  obtain rfl := Option.some.inj (hheir.symm.trans hheir')
  have heq : xs ++ [] ++ ys = xs ++ ys := by rw [List.append_nil]
  intro jumper hjumper
  obtain ⟨hmem, hne⟩ := hl.mem_rest_iff.mp hjumper
  obtain ⟨source, hsource⟩ := hl.get?_isSome hmem
  -- a jumper that landed elsewhere lands there still, and is written already
  by_cases hpasses : ∃ logical, source.target = some logical ∧ source.isDirectTransfer = true
      ∧ s.program.redirects.resolve jumper logical = id
  · -- it lands on the heir now, which is how the shift comes to name it
    obtain ⟨logical, htarget, hdirect, hland⟩ := hpasses
    obtain ⟨source', hsource', halike, hturned⟩ := hsplice.kept.get? hjumper hsource
    have hmerged := hmerge jumper source logical (hl.isLinked_iff.mpr hmem) hne hsource hdirect htarget
    rw [hland, swap_self, ← hredirects] at hmerged
    refine .inr (Program.mem_jumpersInto (heq ▸ hsplice.listed) hjumper hsource' ?_ ?_ hedited
      (.inr (List.mem_singleton.mpr hmerged)))
    · rw [Instruction.isDirectTransfer, hturned, Option.isSome_map, halike.flags]
      exact hdirect
    · rw [hturned, htarget]
      rfl
  · refine .inl (encodes_of_spliced hjumper (hs jumper hmem) hsplice
      fun source' logical physical hsource' htarget hdirect hphysical => ?_)
    obtain rfl := Option.some.inj (hsource.symm.trans hsource')
    have hland : s.program.redirects.resolve jumper logical ≠ id := fun hland =>
      hpasses ⟨logical, htarget, hdirect, hland⟩
    have hmerged := hmerge jumper source logical (hl.isLinked_iff.mpr hmem) hne hsource hdirect htarget
    rw [swap_of_ne hland] at hmerged
    rw [hredirects, hmerged]
    have hlogical : logical ∈ xs ++ id :: ys :=
      (hlisted jumper hmem source hsource logical (by simp [Instruction.references, htarget])).1
    have hplace := hl.mem_rest_iff.mpr ⟨hwithin.resolve hlogical jumper, hland⟩
    obtain ⟨physical', hphysical', halike, -⟩ := hsplice.kept.get? hplace hphysical
    exact ⟨physical', hphysical', halike.sec, halike.addr⟩

end EngineM

/-- Every direct transfer that remains after `id` was removed lands where it landed before, or on
`heir` if it landed on `id`. -/
def Session.LandsAlike (s t : Session) (id heir : InstrId) : Prop :=
  ∀ jumper source logical, t.program.chain.isLinked jumper = true →
    s.program.chain.get? jumper = some source → source.isDirectTransfer = true →
    source.target = some logical →
    ∃ source' logical', t.program.chain.get? jumper = some source'
      ∧ source'.isDirectTransfer = true ∧ source'.target = some logical'
      ∧ t.program.redirects.resolve jumper logical'
        = swap id heir (s.program.redirects.resolve jumper logical)

theorem Program.verify_ok {program : Program} (h : program.verify = .ok ()) :
    program.verifyReferences = .ok () ∧ program.verifyDisplacements = .ok () := by
  obtain ⟨-, -, -, hreferences, hdisplacements⟩ := verify_parts h
  exact ⟨hreferences, hdisplacements⟩

/-- Removing an instruction leaves the displacements right and the landings where they were, exactly if
the redirects merge into its heir. -/
theorem remove_lands_iff {s t : Session} {id : InstrId} {freed : Instruction}
    (hwf : s.program.chain.WellFormed) (hverify : s.program.verify = .ok ())
    (hlinked : s.program.redirects.Within fun x => s.program.chain.isLinked x = true)
    (h : EngineM.remove id s = .ok freed t) :
    ∃ heir, EngineM.heir? s.program.chain id = some heir
      ∧ (t.program.verifyDisplacements = .ok () ∧ s.LandsAlike t id heir
        ↔ s.program.MergeInto id heir) := by
  simp only [EngineM.remove, bind_ok, discard_ok, pure_ok] at h
  obtain ⟨⟨freed', shift⟩, m, hexcise, _, t, ⟨summary, hsettle⟩, -, rfl⟩ := h
  obtain ⟨hreferences, hdisplacements⟩ := Program.verify_ok hverify
  obtain ⟨heir, hheir⟩ := EngineM.excise_heir hexcise
  have hl := hwf.spells
  obtain ⟨xs, ys, hids⟩ := List.append_of_mem (EngineM.heir?_linked hl hheir)
  have hlisted := Program.verifyReferences_listed hl hreferences
  have hs := Program.verifyDisplacements_ok.mp hdisplacements
  have hwithin : s.program.redirects.Within (· ∈ s.program.chain.ids) := fun entry hentry =>
    ⟨hl.isLinked_iff.mp (hlinked entry hentry).1, hl.isLinked_iff.mp (hlinked entry hentry).2⟩
  rw [hids] at hl hlisted hs hwithin
  obtain ⟨_, heir', -, hheir', hsplice, -, hredirects, -⟩ := EngineM.excise_ok hl hlisted hexcise
  obtain rfl := Option.some.inj (hheir.symm.trans hheir')
  have hspells : m.program.chain.Spells (xs ++ ys) := by simpa using hsplice.spells
  have hlisted' : m.program.chain.Listed (xs ++ ys) := by simpa using hsplice.listed
  have hcarries := Session.Carries.updateRelation.settle hsettle
  have hspells' := hcarries.chain.spells hspells
  have hrest : ∀ x, x ∈ xs ++ ys ↔ x ∈ xs ++ id :: ys ∧ x ≠ id := fun _ => hl.mem_rest_iff
  -- the target of every transfer that remains is renamed, and so are the redirects
  have hturned : ∀ jumper ∈ xs ++ ys, ∀ source, s.program.chain.get? jumper = some source →
      ∃ source', t.program.chain.get? jumper = some source'
        ∧ source'.isDirectTransfer = source.isDirectTransfer
        ∧ source'.target = source.target.map (swap id heir) := by
    intro jumper hjumper source hsource
    obtain ⟨middle, hmiddle, halike, htarget⟩ := hsplice.kept.get? hjumper hsource
    obtain ⟨source', hsource', hcarried⟩ := hcarries.chain.get? hmiddle
    refine ⟨source', hsource', ?_, hcarried.target.trans htarget⟩
    rw [hcarried.isDirectTransfer, Instruction.isDirectTransfer, Instruction.isDirectTransfer, htarget,
      Option.isSome_map, halike.flags]
  refine ⟨heir, hheir, fun hlands jumper source logical hjumper hne hsource hdirect htarget => ?_,
    fun hmerge => ⟨?_, fun jumper source logical hjumper hsource hdirect htarget => ?_⟩⟩
  · have hmem := (hrest jumper).mpr ⟨hl.isLinked_iff.mp hjumper, hne⟩
    obtain ⟨source', hsource', -, htarget'⟩ := hturned jumper hmem source hsource
    obtain ⟨found, logical', hfound, -, hlogical', hland⟩ :=
      hlands.2 jumper source logical (hspells'.isLinked_iff.mpr hmem) hsource hdirect htarget
    rw [hsource', Option.some.injEq] at hfound
    rw [← hfound, htarget', htarget, Option.map_some, Option.some.injEq] at hlogical'
    rw [hlogical', ← hland, hcarries.redirects, hredirects]
  · have hunsettled := EngineM.excise_unsettled hl hlisted hwithin hs hheir hmerge hexcise
    have hencodes := EngineM.settle_encodes hspells hlisted' hsettle hunsettled
    refine Program.verifyDisplacements_ok.mpr fun jumper hjumper => ?_
    rw [hspells'.ids_eq] at hjumper
    exact hencodes jumper hjumper
  · have hmem := hspells'.isLinked_iff.mp hjumper
    obtain ⟨hold, hne⟩ := (hrest jumper).mp hmem
    obtain ⟨source', hsource', hdirect', htarget'⟩ := hturned jumper hmem source hsource
    refine ⟨source', swap id heir logical, hsource', hdirect'.trans hdirect, ?_, ?_⟩
    · rw [htarget', htarget]
      rfl
    · rw [hcarries.redirects, hredirects]
      exact hmerge jumper source logical (hl.isLinked_iff.mpr hold) hne hsource hdirect htarget

/-- Redirects merge if neither of the two instructions is redirected and what is taken out is not an
overridden jumper. -/
theorem mergeInto_of_unredirected {program : Program} {id heir : InstrId}
    (hkeys : program.redirects.Keyed) (hacyclic : program.redirects.Acyclic)
    (hid : program.redirects.targetOf? id = none) (hheir : program.redirects.targetOf? heir = none)
    (hoverride : program.redirects.overrideOf? id = none) : program.MergeInto id heir := by
  intro jumper source logical _ hjumper _ _ _
  exact Redirects.resolve_merge hkeys hacyclic hid hheir hoverride hjumper

/-- An instruction between a jump and its target is removed, and the jump still lands where it did. -/
theorem remove_lands_iff_hop : ∃ freed t,
    hop.program.chain.WellFormed ∧ hop.program.verify = .ok ()
      ∧ (hop.program.redirects.Within fun x => hop.program.chain.isLinked x = true)
      ∧ EngineM.remove ⟨1⟩ hop = .ok freed t
      ∧ t.program.verifyDisplacements = .ok () ∧ hop.LandsAlike t ⟨1⟩ ⟨2⟩ := by
  have hrun : Succeeds (EngineM.remove ⟨1⟩) hop = true := by decide +kernel
  obtain ⟨freed, h⟩ := Succeeds.ok hrun
  have hlinked : hop.program.redirects.Within fun x => hop.program.chain.isLinked x = true :=
    fun _ h => (List.not_mem_nil h).elim
  obtain ⟨heir, hheir, hiff⟩ := remove_lands_iff hop_coherent.wellFormed rfl hlinked h
  have htwo : EngineM.heir? hop.program.chain ⟨1⟩ = some ⟨2⟩ := by decide
  obtain rfl := Option.some.inj (htwo.symm.trans hheir)
  have hmerge : hop.program.MergeInto ⟨1⟩ ⟨2⟩ :=
    mergeInto_of_unredirected hop_coherent.keyed hop_coherent.acyclic rfl rfl rfl
  exact ⟨freed, _, hop_coherent.wellFormed, rfl, hlinked, h, hiff.mpr hmerge⟩

/-- An instruction that jumps now run through is removed with the anchor of its insertion still
redirected to it: jumpers of the heir are sent there too, and keep the displacement to the heir. -/
theorem remove_strays : ∃ s freed t,
    (Edit.insertBefore ⟨1⟩ (.synthetic [0x90] 1 .nop) .inserted).run hop = .ok () s
      ∧ s.program.verify = .ok () ∧ s.program.redirects.Acyclic
      ∧ (s.program.redirects.Within fun x => s.program.chain.isLinked x = true)
      ∧ EngineM.remove ⟨1⟩ s = .ok freed t ∧ t.program.verifyDisplacements ≠ .ok () := by
  have hinsert : Succeeds (Edit.insertBefore ⟨1⟩ (.synthetic [0x90] 1 .nop) .inserted).run hop = true := by
    decide +kernel
  obtain ⟨_, h⟩ := Succeeds.ok hinsert
  obtain ⟨l, htidy, -⟩ := EngineM.edit_sound rfl hop_coherent.sound h
  have hremove : Succeeds (EngineM.remove ⟨1⟩)
      (outcome (Edit.insertBefore ⟨1⟩ (.synthetic [0x90] 1 .nop) .inserted).run hop) = true := by
    decide +kernel
  obtain ⟨freed, hrun⟩ := Succeeds.ok hremove
  refine ⟨_, freed, _, h, ?_, htidy.acyclic, fun entry hentry => ?_, hrun, fun hok => ?_⟩
  · exact isOk_iff.mp (by decide +kernel)
  · exact ⟨htidy.spells.isLinked_iff.mpr (htidy.within entry hentry).1,
      htidy.spells.isLinked_iff.mpr (htidy.within entry hentry).2⟩
  · have hbad : (outcome (EngineM.remove ⟨1⟩)
        (outcome (Edit.insertBefore ⟨1⟩ (.synthetic [0x90] 1 .nop) .inserted).run
          hop)).program.verifyDisplacements.isOk = false := by
      decide +kernel
    rw [isOk_iff.mpr hok] at hbad
    cases hbad

end Splice
