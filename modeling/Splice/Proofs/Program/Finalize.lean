import Splice.Proofs.Program.Edits
import Splice.Proofs.Program.Widening

/-!
# Finalizing

`finalize` lays out the code and makes passes until one of them widens nothing. What it
leaves is `Final`: the code is laid out and measured, and every displacement stays, so to
finalize it again changes nothing. On the way only jumps are widened that are in every set
that suffices, so those that are widened in the end are the least such set
(`finalize_widens_least`).

> `finalize_widens_least`: what is left is laid out and measured, every displacement is right,
> the jumps that were widened are those of the least set that suffices, and to finalize again
> changes nothing.

`Underway` is the invariant between two passes. That a pass widens nothing which some set that
suffices leaves out needs no knowledge of the order in which it goes: with all of the set
widened, distances are no shorter, and even then the jump reaches.
-/

namespace Splice

theorem UpdateSummary.zero_add (summary : UpdateSummary) : .zero + summary = summary := by
  show add .zero summary = summary
  simp only [add, zero, Nat.zero_add]

namespace EngineM

variable {s m t : Session} {l : List InstrId} {summary : UpdateSummary}

/-! ## Between two passes -/

/-- The code is laid out and the functions are measured. -/
structure Surveyed (program : Program) (l : List InstrId) : Prop where
  laid : program.LaidOut l
  measured : ∀ id function, program.functions.get? id = some function →
    EngineM.measured program.chain function = .ok function

theorem Surveyed.updateAddresses (h : Surveyed s.program l) (hl : s.program.chain.Spells l) :
    updateAddresses s = .ok .zero s :=
  updateAddresses_still (hl.ids_eq.symm ▸ h.laid) h.measured

/-- A pass that widens nothing keeps all sizes. -/
theorem Passed.sizes (h : Passed s t 0) : s.program.chain.Evolves
    (fun _ a b => b.addr = a.addr ∧ b.sec = a.sec ∧ b.size = a.size) t.program.chain := by
  obtain ⟨f, hchain, hf⟩ := h.settles.chain
  refine ⟨f, hchain, fun id source hsource => ?_⟩
  obtain ⟨hcarried, haddr, -⟩ := hf id source hsource
  refine ⟨haddr, hcarried.sec, ?_⟩
  have hafter : t.program.chain.get? id = some (f id source) := by
    rw [hchain, Chain.get?_adjust, hsource]
    rfl
  by_cases hlength : (f id source).bytes.length = source.bytes.length
  · rw [Instruction.size, Instruction.size, hlength]
  · exact absurd (h.overflows id source _ hsource hafter hlength).1 (Nat.lt_irrefl 0)

/-- A pass that widens nothing leaves the code laid out and measured. -/
theorem Passed.surveyed (h : Passed s t 0) (hs : Surveyed s.program l) : Surveyed t.program l where
  laid := by
    intro front id rest instr hsplit hinstr
    obtain ⟨old, hold, haddr, hsec, hsize⟩ := h.sizes.get?_of hinstr
    rw [haddr, hsec, hs.laid front id rest old hsplit hold]
    exact (Program.place_evolve h.sizes h.settles.bases (fun _ _ _ hab => hab.2) old.sec front).symm
  measured := by
    intro id function hfunction
    rw [h.settles.functions] at hfunction
    exact measured_evolve h.sizes (fun _ _ _ hab => ⟨hab.1, hab.2.2⟩) (hs.measured id function hfunction)

/-- The code between two passes: only direct transfers have been widened, and of these only such that
are in every set that suffices. -/
structure Underway (program after : Program) (l : List InstrId) : Prop where
  resized : program.Resized after
  surveyed : Surveyed after l
  jumpers : program.Contained program.jumpers after
  contained : ∀ wide, program.Suffices wide → program.Contained wide after

/-- Right after the layout nothing has been widened yet. -/
theorem Relaid.underway (h : Relaid s t l) : Underway s.program t.program l where
  resized := Program.resized_of_relaid h
  surveyed := ⟨h.laid, h.measured⟩
  jumpers := (Program.Contained.refl _ s.program).relaid h
  contained := fun wide _ => (Program.Contained.refl wide s.program).relaid h

/-- One pass widens direct transfers only, and only such as are in every set that suffices: outside of such
a set a jump reaches its target with all of the set widened, so the more with a part of it. -/
theorem Underway.contained_pass {widened : Nat} (h : Underway s.program m.program l)
    (hl : s.program.chain.Spells l) (hpass : Passed m t widened) :
    s.program.Contained s.program.jumpers t.program
      ∧ ∀ wide, s.program.Suffices wide → s.program.Contained wide t.program := by
  have hsame := Program.jumpers_evolve h.resized.chain fun _ _ _ hab => hab.1
  refine ⟨h.jumpers.pass hpass fun id hid _ _ _ => hsame ▸ hid, fun wide hwide => ?_⟩
  have hcontained := h.contained wide hwide
  refine hcontained.pass hpass fun id hid source physical hover => ?_
  rw [hsame, Program.mem_jumpers, hl.ids_eq] at hid
  exact hcontained.mem_of_overflows hwide hl h.surveyed.laid hid.1 hover

/-- A pass and the layout that follows it. -/
theorem Underway.step {u : Session} {written widened : Nat} {layout : UpdateSummary}
    (h : Underway s.program m.program l) (hl : s.program.chain.Spells l)
    (hpass : displacementPass m = .ok (written, widened) t)
    (hlayout : updateAddresses t = .ok layout u) : Underway s.program u.program l := by
  have hpassed := displacementPass_passed (h.resized.chain.spells hl) hpass
  have hbetween := h.resized.trans (Program.resized_of_settles hpassed.settles)
  have hrelaid := updateAddresses_ok (hbetween.chain.spells hl) hlayout
  obtain ⟨hjumpers, hcontained⟩ := h.contained_pass hl hpassed
  exact ⟨hbetween.trans (Program.resized_of_relaid hrelaid), ⟨hrelaid.laid, hrelaid.measured⟩,
    hjumpers.relaid hrelaid, fun wide hwide => (hcontained wide hwide).relaid hrelaid⟩

/-! ## What is left -/

/-- What finalizing leaves. -/
structure Final (program after : Program) (l : List InstrId) : Prop
    extends Underway program after l where
  still : ∀ jumper ∈ after.jumpers, Still after jumper
  passes : 0 < after.config.maxPasses
  verified : after.config.verify = true → after.verify = .ok ()

/-- The last pass. -/
theorem Underway.final {written : Nat} (h : Underway s.program m.program l) (hl : s.program.chain.Spells l)
    (hpass : displacementPass m = .ok (written, 0) t) :
    Underway s.program t.program l ∧ ∀ jumper ∈ t.program.jumpers, Still t.program jumper := by
  have hpassed := displacementPass_passed (h.resized.chain.spells hl) hpass
  obtain ⟨hjumpers, hcontained⟩ := h.contained_pass hl hpassed
  exact ⟨⟨h.resized.trans (Program.resized_of_settles hpassed.settles),
    hpassed.surveyed h.surveyed, hjumpers, hcontained⟩, hpassed.still rfl⟩

/-- Writing all displacements is a run of passes, after which nothing but the program is kept. -/
theorem updateDisplacements_ok : updateDisplacements s = .ok summary t →
    ∃ m, displacementPasses .zero s.program.config.maxPasses s = .ok summary m
      ∧ t.program = m.program := by
  intro h
  simp only [updateDisplacements, bind_ok, program_ok] at h
  obtain ⟨_, _, ⟨rfl, rfl⟩, total, m, hpasses, _, m', hcount, h⟩ := h
  rw [countPasses, modify_ok] at hcount
  subst hcount
  by_cases hpromoted : total.promoted > 0
  · simp only [hpromoted, if_true, bind_ok, count, modify_ok, pure_ok] at h
    obtain ⟨_, _, rfl, rfl, rfl⟩ := h
    exact ⟨m, hpasses, rfl⟩
  · simp only [hpromoted, if_false, pure_ok] at h
    obtain ⟨rfl, rfl⟩ := h
    exact ⟨m, hpasses, rfl⟩

/-- The parts of finalizing: a layout, the passes, and the checks. -/
theorem finalize_run (h : finalize s = .ok summary t) : ∃ layout m total u,
    updateAddresses s = .ok layout m
      ∧ displacementPasses .zero m.program.config.maxPasses m = .ok total u
      ∧ t.program = u.program ∧ (t.program.config.verify = true → t.program.verify = .ok ()) := by
  simp only [finalize, bind_ok, program_ok] at h
  obtain ⟨layout, m, hlayout, displacements, m', hdisplacements, _, _, ⟨rfl, rfl⟩, h⟩ := h
  obtain ⟨u, hpasses, hprogram⟩ := updateDisplacements_ok hdisplacements
  refine ⟨layout, m, displacements, u, hlayout, hpasses, ?_⟩
  by_cases hverify : m'.program.config.verify = true
  · simp only [hverify, if_true, bind_ok, liftResult_ok, pure_ok] at h
    obtain ⟨_, _, ⟨hok, rfl⟩, -, rfl⟩ := h
    exact ⟨hprogram, fun _ => hok⟩
  · rw [if_neg hverify] at h
    obtain ⟨-, rfl⟩ := pure_ok.mp h
    exact ⟨hprogram, fun he => absurd he hverify⟩

/-- Finalizing leaves every address laid out, every displacement right, and widened no more than had to
be. The layout gives the start, each pass keeps `Underway`, and the last one changes nothing. -/
theorem finalize_final (hl : s.program.chain.Spells l) (h : finalize s = .ok summary t) :
    Final s.program t.program l := by
  obtain ⟨layout, m, total, u, hlayout, hpasses, hsame, hverified⟩ := finalize_run h
  have hstart := (updateAddresses_ok hl hlayout).underway
  obtain ⟨hsteps, last, written, hlast, hpass⟩ := displacementPasses_ok
    (P := fun m => Underway s.program m.program l)
    (fun _ _ _ _ _ _ h hpass hlayout => h.step hl hpass hlayout) hstart hpasses
  obtain ⟨hunderway, hstill⟩ := hlast.final hl hpass
  rw [← hsame] at hunderway hstill
  refine ⟨hunderway, hstill, ?_, hverified⟩
  rw [hunderway.resized.config, ← hstart.resized.config]
  exact hsteps

/-- Where everything is in its place and every displacement stays, finalizing changes nothing. -/
theorem finalize_still (hlayout : updateAddresses s = .ok .zero s)
    (hstill : ∀ jumper ∈ s.program.jumpers, Still s.program jumper)
    (hpasses : 0 < s.program.config.maxPasses)
    (hverified : s.program.config.verify = true → s.program.verify = .ok ()) :
    ∃ written t, finalize s = .ok ⟨0, written, 0, 1⟩ t ∧ t.program = s.program := by
  obtain ⟨written, hpass⟩ := displacementPass_still hstill
  obtain ⟨steps, hsteps⟩ := Nat.exists_eq_succ_of_ne_zero (Nat.ne_of_gt hpasses)
  have hrun : displacementPasses .zero s.program.config.maxPasses s = .ok ⟨0, written, 0, 1⟩ s := by
    rw [hsteps]
    simp only [displacementPasses, bind_ok]
    exact ⟨_, s, hpass, pure_ok.mpr ⟨UpdateSummary.zero_add _, rfl⟩⟩
  have hcounted : updateDisplacements s = .ok ⟨0, written, 0, 1⟩
      { s with recorder := s.recorder.countPasses s.program.version.name 1 } := by
    simp only [updateDisplacements, bind_ok, program_ok]
    exact ⟨_, _, ⟨rfl, rfl⟩, _, _, hrun, ⟨⟩, _, rfl, rfl⟩
  refine ⟨written, { s with recorder := s.recorder.countPasses s.program.version.name 1 }, ?_, rfl⟩
  simp only [finalize, bind_ok, program_ok]
  refine ⟨_, _, hlayout, _, _, hcounted, _, _, ⟨rfl, rfl⟩, ?_⟩
  rw [UpdateSummary.zero_add]
  by_cases hverify : s.program.config.verify = true
  · simp only [hverify, if_true, bind_ok, liftResult_ok, pure_ok]
    exact ⟨⟨⟩, _, ⟨hverified hverify, rfl⟩, trivial, rfl⟩
  · rw [if_neg hverify]
    rfl

/-! ## What was widened -/

/-- Code of fewer than `2 ^ 63` bytes is such that the jumps that were widened suffice. -/
theorem Final.suffices (h : Final s.program t.program l) (hl : s.program.chain.Spells l)
    (hsize : ∀ sec, t.program.bytesIn sec t.program.lengths l < 2 ^ 63) :
    s.program.Suffices (s.program.widened t.program) := by
  intro jumper source physical logical hjumper hkept hlands hsec hshort htarget
  obtain ⟨source', physical', -, hlands', hsource, hphysical⟩ :=
    hlands.evolve h.resized.chain h.resized.redirects fun _ _ _ hab => hab.1
  have hlength : source'.bytes.length = source.bytes.length := by
    by_cases he : source'.bytes.length = source.bytes.length
    · exact he
    · exact absurd ((Program.mem_widened hlands.get hlands'.get).mpr ⟨hjumper, he⟩) hkept
  have hrewritten : source.Rewritten source' :=
    hsource.2.resolve_right fun hlonger => Nat.ne_of_gt hlonger.lt hlength
  have hshort' : source'.isShortJump = true := hrewritten.isShortJump.trans hshort
  have hsec' : physical'.sec = source'.sec :=
    (hphysical.1.sec.trans hsec).trans hsource.1.sec.symm
  -- it is still short, so its displacement was written into one byte
  have hstill := h.still jumper (Program.mem_jumpers.mpr
    ⟨h.resized.chain.ids ▸ hjumper, source', hlands'.get, hlands'.direct⟩)
  obtain ⟨write, hwrite, hrun⟩ := hstill
  obtain ⟨field, hfield, hfits⟩ := (writeDisplacement_ok (hrun t rfl)).fits hwrite hlands' hsec'
  have hwidth := Program.width_of_isShortJump hshort' hfield
  have hl' := h.resized.chain.spells hl
  rw [hl.ids_eq] at hjumper
  obtain ⟨found, htarget', hget, hlinked⟩ := hlands'.target
  rw [hsource.1.target, htarget, Option.some.injEq] at htarget'
  subst htarget'
  have hlanding := hl'.isLinked_iff.mp hlinked
  have hin : t.program.chain.inSection source'.sec jumper = true :=
    (Chain.inSection_iff hlands'.get).mpr rfl
  obtain ⟨hlower, hupper⟩ := Program.distance_le t.program.lengths hl' hjumper hlanding hin
  have hbound := hsize source'.sec
  rw [h.surveyed.laid.displacementTo_eq hl' hjumper hlanding hlands'.get hget hsec',
    Program.fits_iff hwidth (by omega) (by omega)] at hfits
  have hreach : t.program.Reaches source'.sec t.program.lengths jumper
      (t.program.redirects.resolve jumper logical) := hfits
  unfold Program.Reaches at hreach ⊢
  rw [h.resized.distance_eq, h.resized.redirects, hsource.1.sec] at hreach
  exact Program.Reaches.mono hreach hl hjumper (h.resized.redirects ▸ hlanding)
    ((Chain.inSection_iff hlands.get).mpr rfl) fun id hid =>
      Nat.le_of_eq (h.resized.lengths_eq_with (hl.ids_eq.symm ▸ hid)).symm

/-- Finalizing lays out all of the code and makes each direct jump and call encode where it lands. It widens
short jumps only, and no other instruction changes its length. Every list of short jumps that suffices,
in that the rest reach where they land once those are widened, contains the ones that it widens; and where
no section comes to 2^63 bytes these suffice, so they are the least such list. To finalize once more
changes nothing. -/
theorem finalize_widens_least (hchain : s.program.chain.WellFormed)
    (h : finalize s = .ok summary t) :
    t.program.LaidOut t.program.chain.ids
      ∧ (∀ jumper ∈ t.program.chain.ids, t.program.Encodes jumper)
      ∧ (∀ id ∈ s.program.widened t.program, s.program.Widenable id)
      ∧ (∀ id ∈ t.program.chain.ids,
        t.program.lengths id = s.program.lengthsWith (s.program.widened t.program) id)
      ∧ (∀ wide, s.program.Suffices wide → s.program.widened t.program ⊆ wide)
      ∧ ((∀ sec, t.program.bytesIn sec t.program.lengths t.program.chain.ids < 2 ^ 63) →
        s.program.Suffices (s.program.widened t.program))
      ∧ ∃ written u, finalize t = .ok ⟨0, written, 0, 1⟩ u ∧ u.program = t.program := by
  have hl := hchain.spells
  have hfinal := finalize_final hl h
  have hl' := hfinal.resized.chain.spells hl
  rw [hl'.ids_eq]
  refine ⟨hfinal.surveyed.laid, fun jumper hjumper => ?_, fun id hid => hfinal.jumpers.widenable hid,
    fun id hid => hfinal.resized.lengths_eq_with hid,
    fun wide hwide => (hfinal.contained wide hwide).widened_subset, hfinal.suffices hl, ?_⟩
  · intro source logical hsource htarget hdirect
    have hmem := Program.mem_jumpers.mpr ⟨hl'.ids_eq.symm ▸ hjumper, source, hsource, hdirect⟩
    exact (hfinal.still jumper hmem).encodes source logical hsource htarget hdirect
  · exact finalize_still (hfinal.surveyed.updateAddresses hl') hfinal.still hfinal.passes
      hfinal.verified

/-- As `hop`, but the jump leads over 200 bytes. -/
def leap : Session :=
  hop.withChain (hop.program.chain.adjust (Chain.only ⟨1⟩ (.withBytes (List.replicate 200 0x90))))

theorem leap_wellFormed : leap.program.chain.WellFormed := (hop_wellFormed.spells.adjust _).wellFormed

/-- A jump over 200 bytes is widened, and nothing is widened the second time. -/
theorem finalize_widens_least_leap : ∃ summary t written u,
    leap.program.chain.WellFormed
      ∧ finalize leap = .ok summary t
      ∧ leap.program.widened t.program = [⟨0⟩]
      ∧ finalize t = .ok ⟨0, written, 0, 1⟩ u
      ∧ u.program = t.program := by
  have hrun : Succeeds finalize leap = true := by
    decide +kernel
  have hwidened : leap.program.widened (outcome finalize leap).program = [⟨0⟩] := by
    decide +kernel
  obtain ⟨summary, h⟩ := Succeeds.ok hrun
  obtain ⟨-, -, -, -, -, -, written, u, hagain, hsame⟩ := finalize_widens_least leap_wellFormed h
  exact ⟨summary, _, written, u, leap_wellFormed, h, hwidened, hagain, hsame⟩

end EngineM

end Splice
