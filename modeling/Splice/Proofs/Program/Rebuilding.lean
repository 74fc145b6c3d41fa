import Splice.Proofs.Chain.Packing
import Splice.Proofs.Program.Landing

/-!
# Blocks that are built anew

Whatever was done to a program, and in its forks as well, the blocks that are built follow the
logical targets: the block of a direct jump or call leads to the block that begins at its target
(`transfers_of_build`). Redirects are not looked at. So the graph leads to where the jumper
lands exactly if that is where its target is (`transfers_of_rebuild`), and a graph that followed
the landings loses them when it is built anew (`rebuild_passes_landing`).

The graph before and the graph that is built anew are graphs of the same code. So this is where
a graph that is kept through edits and one that is built after them can differ: the first leads
transfers to where jumpers land, by `transfers_of_insertions`, the second to their targets.
-/

namespace Splice

/-! ## Forks -/

/-- The same instructions in the same order under other names are ordered as well. -/
theorem Chain.Ordered.renamed {chain after : Chain} {l l' : List InstrId} (h : chain.Ordered l)
    (hl : after.Spells l') (hsame : ∀ (index : Nat) (y : InstrId), l'[index]? = some y →
      ∃ x a b, l[index]? = some x ∧ chain.get? x = some a ∧ after.get? y = some b ∧ a.Alike b) : after.Ordered l' where
  spells := hl
  -- each clause is read back through `hsame`, index by index
  consecutive i j k a b c sec hij hjk ha hb hc hasec hcsec := by
    obtain ⟨a', _, _, ha', haget, haget', hasame⟩ := hsame i a ha
    obtain ⟨b', _, _, hb', hbget, hbget', hbsame⟩ := hsame j b hb
    obtain ⟨c', _, _, hc', hcget, hcget', hcsame⟩ := hsame k c hc
    rw [inSection_iff haget', hasame.sec, ← inSection_iff haget] at hasec
    rw [inSection_iff hcget', hcsame.sec, ← inSection_iff hcget] at hcsec
    rw [inSection_iff hbget', hbsame.sec, ← inSection_iff hbget]
    exact h.consecutive i j k a' b' c' sec hij hjk ha' hb' hc' hasec hcsec
  filled id hid instr hinstr := by
    obtain ⟨index, hindex⟩ := List.mem_iff_getElem?.mp hid
    obtain ⟨old, found, instr', hold, hfound, hinstr', halike⟩ := hsame index id hindex
    obtain rfl := Option.some.inj (hinstr.symm.trans hinstr')
    rw [halike.bytes]
    exact h.filled old (List.mem_of_getElem? hold) found hfound
  ends id hid instr hinstr := by
    obtain ⟨index, hindex⟩ := List.mem_iff_getElem?.mp hid
    obtain ⟨old, found, instr', hold, hfound, hinstr', halike⟩ := hsame index id hindex
    obtain rfl := Option.some.inj (hinstr.symm.trans hinstr')
    rw [halike.bytes, halike.addr]
    exact h.ends old (List.mem_of_getElem? hold) found hfound
  ascending := by
    refine List.pairwise_iff_getElem.mpr fun i j hi hj hlt a ha b hb hsec => ?_
    obtain ⟨x, found, a', hx, hfound, ha', halike⟩ := hsame i _ (List.getElem?_eq_getElem hi)
    obtain ⟨y, other, b', hy, hother, hb', halike'⟩ := hsame j _ (List.getElem?_eq_getElem hj)
    obtain rfl := Option.some.inj (Eq.symm ha |>.trans ha')
    obtain rfl := Option.some.inj (Eq.symm hb |>.trans hb')
    obtain ⟨hi', rfl⟩ := List.getElem?_eq_some_iff.mp hx
    obtain ⟨hj', rfl⟩ := List.getElem?_eq_some_iff.mp hy
    rw [halike.sec, halike'.sec] at hsec
    rw [halike.addr, halike.bytes, halike'.addr]
    exact List.pairwise_iff_getElem.mp h.ascending i j hi' hj' hlt found hfound other hother hsec

/-- A fork of ordered code is in the same order. -/
theorem Chain.Ordered.fork {program after : Program} {version : VersionInfo}
    (h : program.chain.Ordered program.chain.ids) (hrun : program.fork version = .ok after) :
    after.chain.Ordered after.chain.ids := by
  simp only [Program.fork, bind_eq_ok, mapError_eq_ok, pure_eq_ok] at hrun
  obtain ⟨⟨chain, names⟩, hcompact, functions, -, rfl⟩ := hrun
  obtain ⟨-, hspells, -, hpacked⟩ := compact_ok h.spells hcompact
  rw [hspells.ids_eq]
  refine h.renamed hspells fun index new hnew => ?_
  rw [List.getElem?_map, Option.map_eq_some_iff] at hnew
  obtain ⟨_, hrange, rfl⟩ := hnew
  obtain ⟨hlt, rfl⟩ := List.getElem?_eq_some_iff.mp hrange
  rw [List.length_range] at hlt
  rw [List.getElem_range]
  have hold := List.getElem?_eq_getElem hlt
  obtain ⟨instr, hinstr⟩ := h.spells.get?_isSome (List.getElem_mem hlt)
  obtain ⟨packed, hget, happly⟩ := hpacked index _ instr hold hinstr
  exact ⟨_, instr, packed, hold, hinstr, hget, (Renaming.apply_relinked happly).alike⟩

namespace EngineM

open BlockGraph

variable {s t m : Session} {graph : BlockGraph} {edit : Edit} {edits : List Edit} {shift : Shift}
  {l : List InstrId} {jumper logical first : InstrId} {instr : Instruction} {after : Session} {u : Unit}

/-! ## Edits -/

/-- A splice leaves no instruction empty if it puts none in that is. -/
theorem SpliceRun.filled (h : SpliceRun s edit shift t) (hkind : edit.resizes = false)
    (hgiven : ∀ instr ∈ edit.given, instr.bytes ≠ []) (hs : s.program.Sited l [])
    (hfilled : s.program.chain.Filled l) :
    ∃ l, t.program.Sited l [shift] ∧ t.program.chain.Filled l := by
  obtain ⟨xs, site, ys, rfl, hrun⟩ := h.site hkind hs.gapless.spells hs.attached
  rcases hrun with ⟨given, _, _, heq, run⟩ | ⟨given, _, heq, run⟩ | ⟨_, run⟩ | ⟨-, _, run⟩
  · obtain ⟨_, hfits, -, -, hattached, hlisted⟩ := spliceBefore_fits hs run
    exact ⟨_, sited_of_fits hs hfits hattached hlisted,
      spliceBefore_filled hs hfilled (hgiven given (by simp [heq])) run⟩
  · obtain ⟨_, hfits, -, -, hattached, hlisted⟩ := appendAfter_fits hs run
    exact ⟨_, sited_of_fits hs hfits hattached hlisted,
      appendAfter_filled hs hfilled (hgiven given (by simp [heq])) run⟩
  · obtain ⟨_, _, _, hfits, -, -, -, hattached, hlisted⟩ := spliceInstead_fits hs run
    exact ⟨_, sited_of_fits hs hfits hattached hlisted, spliceInstead_filled hs hfilled hgiven run⟩
  · obtain ⟨_, _, -, hfits, -, -, hattached, hlisted⟩ := excise_fits hs run
    exact ⟨_, sited_of_fits hs hfits hattached hlisted, excise_filled hs hfilled run⟩

/-- An edit leaves the code in place, and no instruction empty. -/
theorem edit_filled (hkind : edit.resizes = false) (hgiven : ∀ instr ∈ edit.given, instr.bytes ≠ [])
    (hs : ∃ l, s.program.Sited l []
      ∧ s.program.chain.Filled l)
    (h : edit.run s = .ok u t) : ∃ l, t.program.Sited l []
      ∧ t.program.chain.Filled l := by
  obtain ⟨l, hs, hfilled⟩ := hs
  obtain ⟨shift, m, summary, hsplice, hsettle⟩ := edit_ok h
  obtain ⟨l', hm, hfilled'⟩ := hsplice.filled hkind hgiven hs hfilled
  refine ⟨l', hm.carry (Session.Carries.updateRelation.settle hsettle)
    (settle_owing hm.gapless hsettle hm.owing), fun id hid => ?_⟩
  obtain ⟨before, hbefore, hne⟩ := hfilled' id hid
  obtain ⟨instr, hinstr, hkept⟩ := (Session.Sustains.updateRelation.settle hsettle).filled.get? hbefore
  exact ⟨instr, hinstr, hkept hne⟩

/-- A program that was ready is ordered after any edits. -/
theorem ordered_of_edits (hs : s.program.Ready) (hkinds : ∀ edit ∈ edits, edit.resizes = false)
    (hgiven : ∀ edit ∈ edits, ∀ instr ∈ edit.given, instr.bytes ≠ [])
    (h : edits.forM Edit.run s = .ok u t) (hunwrapped : t.program.chain.Unwrapped) :
    t.program.chain.Ordered t.program.chain.ids := by
  suffices hrun : ∀ {s : Session}, (∃ l, s.program.Sited l []
      ∧ s.program.chain.Filled l) →
      edits.forM Edit.run s = .ok u t → ∃ l, t.program.Sited l []
        ∧ t.program.chain.Filled l by
    obtain ⟨l, ht, hfilled⟩ := hrun ⟨_, hs.sited, hs.filled⟩ h
    rw [ht.gapless.spells.ids_eq]
    exact ht.ordered hfilled hunwrapped
  clear h hs
  intro s hs h
  induction edits generalizing s with
  | nil =>
    rw [forM_nil_ok] at h
    exact h ▸ hs
  | cons edit edits ih =>
    obtain ⟨m, hedit, hrest⟩ := forM_cons_ok.mp h
    exact ih (fun e he => hkinds e (List.mem_cons_of_mem _ he)) (fun e he => hgiven e (List.mem_cons_of_mem _ he))
      (edit_filled (hkinds edit (List.mem_cons_self ..)) (hgiven edit (List.mem_cons_self ..)) hs hedit) hrest

/-! ## What is built -/

/-- Built blocks lead each direct jump and call to its target, by an edge of a jump or a call, and nowhere
else. -/
theorem transfers_of_build (h : s.program.chain.Ordered s.program.chain.ids)
    (hbuild : buildBlocks s = .ok graph t) (hjumper : s.program.chain.isLinked jumper = true)
    (hinstr : s.program.chain.get? jumper = some instr)
    (htransfer : instr.flags.isJump = true ∨ instr.flags.isCall = true)
    (hdirect : instr.flags.isIndirect = false) (htarget : instr.target = some logical) :
    (∃ kind ∈ [EdgeKind.goto, .taken, .call], graph.Transfers s.program.chain kind jumper first)
      ↔ first = logical := by
  obtain ⟨parts, hbuilt⟩ := build_built h.toAscending (buildBlocks_ok hbuild).1
  rw [← hbuilt.transfers_direct_iff h.spells (h.spells.isLinked_iff.mp hjumper) hinstr htransfer hdirect htarget]
  refine exists_congr fun kind => and_congr_right fun _ => ?_
  exact transfers_iff (hbuilt.code.symm ▸ h.spells) hbuilt.cuts hbuilt.wired

/-- After any edits, and in any fork, the blocks that are built lead each direct jump and call to its
target. They lead to where it lands if and only if it lands on its target. -/
theorem transfers_of_rebuild (hs : s.program.Ready) (hkinds : ∀ edit ∈ edits, edit.resizes = false)
    (hgiven : ∀ edit ∈ edits, ∀ instr ∈ edit.given, instr.bytes ≠ [])
    (hedits : edits.forM Edit.run s = .ok u m) (hunwrapped : m.program.chain.Unwrapped)
    (hversion : t.program = m.program ∨ ∃ version, m.program.fork version = .ok t.program)
    (hbuild : buildBlocks t = .ok graph after) (hjumper : t.program.chain.isLinked jumper = true)
    (hinstr : t.program.chain.get? jumper = some instr)
    (htransfer : instr.flags.isJump = true ∨ instr.flags.isCall = true)
    (hdirect : instr.flags.isIndirect = false) (htarget : instr.target = some logical) :
    (∃ kind ∈ [EdgeKind.goto, .taken, .call], graph.Transfers t.program.chain kind jumper logical)
      ∧ ((∃ kind ∈ [EdgeKind.goto, .taken, .call], graph.Transfers t.program.chain kind jumper
            (t.program.redirects.resolve jumper logical))
          ↔ t.program.redirects.resolve jumper logical = logical) := by
  have hm := ordered_of_edits hs hkinds hgiven hedits hunwrapped
  have ht : t.program.chain.Ordered t.program.chain.ids := by
    rcases hversion with hsame | ⟨version, hfork⟩
    · exact hsame ▸ hm
    · exact hm.fork hfork
  exact ⟨(transfers_of_build ht hbuild hjumper hinstr htransfer hdirect htarget).mpr rfl,
    transfers_of_build ht hbuild hjumper hinstr htransfer hdirect htarget⟩

/-- Edits of `hop` that leave its jump a direct one to the last of its instructions. -/
theorem hop_rebuilt (hruns : Succeeds (edits.forM Edit.run) hop = true)
    (hbuilds : Succeeds buildBlocks (outcome (edits.forM Edit.run) hop) = true)
    (hlinked : (outcome (edits.forM Edit.run) hop).program.chain.isLinked ⟨0⟩ = true)
    (hjump : ((outcome (edits.forM Edit.run) hop).program.chain.get? ⟨0⟩).map (fun instr =>
      (instr.flags.isJump, instr.flags.isIndirect, instr.target)) = some (true, false, some ⟨2⟩)) :
    ∃ graph m after instr, m = outcome (edits.forM Edit.run) hop
      ∧ edits.forM Edit.run hop = .ok () m ∧ buildBlocks m = .ok graph after
      ∧ m.program.chain.isLinked ⟨0⟩ = true ∧ m.program.chain.get? ⟨0⟩ = some instr
      ∧ instr.flags.isJump = true ∧ instr.flags.isIndirect = false ∧ instr.target = some ⟨2⟩ := by
  obtain ⟨⟨⟩, hedits⟩ := Succeeds.ok hruns
  obtain ⟨graph, hbuild⟩ := Succeeds.ok hbuilds
  obtain ⟨instr, hinstr, hfields⟩ := Option.map_eq_some_iff.mp hjump
  simp only [Prod.mk.injEq] at hfields
  exact ⟨graph, _, _, instr, rfl, hedits, hbuild, hlinked, hinstr, hfields⟩

/-- A jump that enters no inserted code has an edge to its target's block after the blocks are built
anew. -/
theorem transfers_of_rebuild_hop : ∃ graph m after instr,
    hop.program.Ready
      ∧ [Edit.insertBefore ⟨2⟩ (.synthetic [0x90] 1 .nop) .keep,
          .insertBefore ⟨2⟩ (.synthetic [0x90] 1 .nop) .inserted,
          .substitute ⟨1⟩ [.synthetic [0x90] 1 .nop]].forM Edit.run hop = .ok () m
      ∧ m.program.chain.Unwrapped ∧ buildBlocks m = .ok graph after
      ∧ m.program.chain.isLinked ⟨0⟩ = true ∧ m.program.chain.get? ⟨0⟩ = some instr
      ∧ instr.flags.isJump = true ∧ instr.flags.isIndirect = false ∧ instr.target = some ⟨2⟩
      ∧ ∃ kind ∈ [EdgeKind.goto, .taken, .call], graph.Transfers m.program.chain kind ⟨0⟩ ⟨2⟩ := by
  obtain ⟨graph, m, after, instr, hm, hedits, hbuild, hlinked, hinstr, hjump, hdirect, htarget⟩ :=
    @hop_rebuilt [.insertBefore ⟨2⟩ (.synthetic [0x90] 1 .nop) .keep,
      .insertBefore ⟨2⟩ (.synthetic [0x90] 1 .nop) .inserted, .substitute ⟨1⟩ [.synthetic [0x90] 1 .nop]]
      (by decide +kernel) (by decide +kernel) (by decide +kernel) (by decide +kernel)
  have hunwrapped : m.program.chain.Unwrapped := by
    rw [hm]
    decide +kernel
  have hready := hop_divisible.toReady
  exact ⟨graph, m, after, instr, hready, hedits, hunwrapped, hbuild, hlinked, hinstr, hjump, hdirect, htarget,
    (transfers_of_rebuild hready (by decide) (by decide) hedits hunwrapped (.inl rfl) hbuild hlinked hinstr
      (.inl hjump) hdirect htarget).1⟩

/-- A jump that lands on an instruction put in front of its target is led past it by blocks built anew. -/
theorem rebuild_passes_landing : ∃ graph m after instr,
    hop.program.verify = .ok ()
      ∧ [Edit.insertBefore ⟨2⟩ (.synthetic [0x90] 1 .nop) .inserted].forM Edit.run hop = .ok () m
      ∧ m.program.verify = .ok () ∧ buildBlocks m = .ok graph after
      ∧ m.program.chain.isLinked ⟨0⟩ = true ∧ m.program.chain.get? ⟨0⟩ = some instr
      ∧ instr.flags.isJump = true ∧ instr.flags.isIndirect = false ∧ instr.target = some ⟨2⟩
      ∧ m.program.redirects.resolve ⟨0⟩ ⟨2⟩ = ⟨3⟩
      ∧ ¬ ∃ kind ∈ [EdgeKind.goto, .taken, .call], graph.Transfers m.program.chain kind ⟨0⟩ ⟨3⟩ := by
  obtain ⟨graph, m, after, instr, hm, hedits, hbuild, hlinked, hinstr, hjump, hdirect, htarget⟩ :=
    @hop_rebuilt [.insertBefore ⟨2⟩ (.synthetic [0x90] 1 .nop) .inserted]
      (by decide +kernel) (by decide +kernel) (by decide +kernel) (by decide +kernel)
  have hverified : m.program.verify = .ok () := by
    rw [hm]
    exact isOk_iff.mp (by decide +kernel)
  have hlands : m.program.redirects.resolve ⟨0⟩ ⟨2⟩ = ⟨3⟩ := by
    rw [hm]
    decide +kernel
  have hordered := ordered_of_edits hop_divisible.toReady (by decide) (by decide) hedits (by
    rw [hm]
    decide +kernel)
  refine ⟨graph, m, after, instr, hop_divisible.verified, hedits, hverified, hbuild, hlinked, hinstr, hjump, hdirect,
    htarget, hlands, fun htransfers => ?_⟩
  exact absurd ((transfers_of_build hordered hbuild hlinked hinstr (.inl hjump) hdirect htarget).mp htransfers)
    (by decide)

end EngineM

end Splice
