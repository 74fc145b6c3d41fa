import Splice.Proofs.Instruction.Promotion
import Splice.Proofs.Program.Relayout
import Splice.Proofs.Program.Settle

/-!
# Passes over all displacements

A pass writes the displacements of all direct transfers and widens the short jumps that do
not reach. It leaves addresses alone and each instruction `Sized` as it was or as its long
form (`Settles`), and it widens a jump only where the displacement at the addresses of the
pass does not fit. The last pass widens nothing; after it every displacement is as another
pass would write it (`displacementPass_still`).

A pass reads addresses and writes bytes, so jumpers do not disturb one another on the way: a
displacement that was right stays right until the layout after the pass moves something
(`WriteRun.still`). The last pass widens nothing, and then nothing moves.
-/

namespace Splice

/-- The direct transfers of the code, in its order. -/
def Program.jumpers (program : Program) : List InstrId :=
  (program.chain.entries.filter fun entry => entry.2.isDirectTransfer).map (·.1)

/-- The jumpers are the linked direct transfers. -/
theorem Program.jumpers_eq (program : Program) : program.jumpers
    = program.chain.ids.filter fun id => (program.chain.get? id).any (·.isDirectTransfer) := by
  rw [jumpers, Chain.entries]
  induction program.chain.ids with
  | nil => rfl
  | cons id ids ih =>
    cases hid : program.chain.get? id with
    | none =>
      rw [List.filterMap_cons_none (by rw [hid]; rfl), ih, List.filter_cons, hid]
      rfl
    | some instr =>
      rw [List.filterMap_cons_some (by rw [hid]; rfl), List.filter_cons, List.filter_cons, hid,
        Option.any_some]
      split
      next => rw [List.map_cons, ih]
      next => exact ih

theorem Program.nodup_jumpers {program : Program} {l : List InstrId}
    (hl : program.chain.Spells l) : program.jumpers.Nodup := by
  rw [jumpers_eq, hl.ids_eq]
  exact hl.nodup.sublist List.filter_sublist

/-- A step that carries instructions along leaves which of them are direct transfers. -/
theorem Program.jumpers_evolve {p q : Program} {r : InstrId → Instruction → Instruction → Prop}
    (hchain : p.chain.Evolves r q.chain) (hr : ∀ id a b, r id a b → a.Carried b) :
    q.jumpers = p.jumpers := by
  rw [jumpers_eq, jumpers_eq, hchain.ids]
  refine List.filter_congr fun id _ => ?_
  cases hid : p.chain.get? id with
  | none => rw [hchain.get?_eq_none hid]
  | some instr =>
    obtain ⟨instr', hinstr', hrel⟩ := hchain.get? hid
    rw [hinstr', Option.any_some, Option.any_some, (hr id _ _ hrel).isDirectTransfer]

/-- Instructions that land somewhere go on to do so if only addresses and encodings change. -/
theorem Program.Lands.evolve {p q : Program} {r : InstrId → Instruction → Instruction → Prop}
    {jumper : InstrId} {source physical : Instruction} (h : p.Lands jumper source physical)
    (hchain : p.chain.Evolves r q.chain) (hredirects : q.redirects = p.redirects)
    (hr : ∀ id a b, r id a b → a.Carried b) :
    ∃ source' physical' landing, q.Lands jumper source' physical' ∧ r jumper source source'
      ∧ r landing physical physical' := by
  obtain ⟨hget, hdirect, logical, htarget, hphysical, hlinked⟩ := h
  obtain ⟨source', hsource', hsource⟩ := hchain.get? hget
  obtain ⟨physical', hphysical', hland⟩ := hchain.get? hphysical
  have hcarried := hr jumper source source' hsource
  refine ⟨source', physical', _, ⟨hsource', hcarried.isDirectTransfer.trans hdirect, logical,
    hcarried.target.trans htarget, ?_, ?_⟩, hsource, hland⟩
  · rw [hredirects]
    exact hphysical'
  · rw [hredirects, hchain.isLinked]
    exact hlinked

/-- As `Lands.evolve`, in the other direction. -/
theorem Program.Lands.of_evolve {p q : Program} {r : InstrId → Instruction → Instruction → Prop}
    {jumper : InstrId} {source' physical' : Instruction} (h : q.Lands jumper source' physical')
    (hchain : p.chain.Evolves r q.chain) (hredirects : q.redirects = p.redirects)
    (hr : ∀ id a b, r id a b → a.Carried b) :
    ∃ source physical landing, p.Lands jumper source physical ∧ r jumper source source'
      ∧ r landing physical physical' := by
  obtain ⟨hget, hdirect, logical, htarget, hphysical, hlinked⟩ := h
  rw [hredirects] at hphysical hlinked
  obtain ⟨source, hsource, hsource'⟩ := hchain.get?_of hget
  obtain ⟨physical, hfound, hland⟩ := hchain.get?_of hphysical
  have hcarried := hr jumper source source' hsource'
  exact ⟨source, physical, _, ⟨hsource, hcarried.isDirectTransfer.symm.trans hdirect, logical,
    hcarried.target.symm.trans htarget, hfound, (hchain.isLinked _).symm.trans hlinked⟩, hsource',
    hland⟩

/-- A jumper lands in one place. -/
theorem Program.Lands.unique {program : Program} {jumper : InstrId} {a b x y : Instruction}
    (h : program.Lands jumper a x) (k : program.Lands jumper b y) : a = b ∧ x = y := by
  obtain ⟨hget, -, logical, htarget, hphysical, -⟩ := h
  obtain ⟨hget', -, logical', htarget', hphysical', -⟩ := k
  obtain rfl := Option.some.inj (hget.symm.trans hget')
  obtain rfl := Option.some.inj (htarget.symm.trans htarget')
  exact ⟨rfl, Option.some.inj (hphysical.symm.trans hphysical')⟩

/-- The jumper is a short direct transfer that could be widened, and its displacement to the
physical target, which is in its section, does not fit. -/
structure Program.Overflows (program : Program) (jumper : InstrId) (source physical : Instruction) :
    Prop extends program.Lands jumper source physical where
  sec : physical.sec = source.sec
  short : source.isShortJump = true
  long : ∃ long, Encoding.promote? source.bytes source.opcodeSize = some long
  overflow : ∃ field, source.displacementField? = some field
    ∧ field.fits (source.displacementTo physical) = false

namespace EngineM

variable {s t : Session} {l jumpers : List InstrId} {jumper : InstrId} {progress done : Progress}

/-! ## What a pass leaves alone -/

/-- The encodings of the instructions `ids` were written or widened. -/
structure Settles (s t : Session) (ids : List InstrId) : Prop where
  chain : s.program.chain.Evolves
    (fun id a b => a.Carried b ∧ b.addr = a.addr ∧ a.Sized b ∧ (id ∉ ids → b = a)) t.program.chain
  functions : t.program.functions = s.program.functions
  redirects : t.program.redirects = s.program.redirects
  bases : t.program.bases = s.program.bases
  config : t.program.config = s.program.config

theorem Settles.refl (s : Session) : Settles s s [] :=
  ⟨.refl (fun _ i => ⟨.refl i, rfl, .refl i, fun _ => rfl⟩) _, rfl, rfl, rfl, rfl⟩

/-- Writes for some jumpers and then for others are writes for all of them. -/
theorem Settles.trans {m : Session} {ids others : List InstrId} (h : Settles s m ids)
    (k : Settles m t others) : Settles s t (ids ++ others) where
  chain := by
    refine h.chain.comp (fun id a b c hab hbc => ?_) k.chain
    obtain ⟨hcarried, haddr, hsized, hsame⟩ := hab
    obtain ⟨hcarried', haddr', hsized', hsame'⟩ := hbc
    refine ⟨hcarried.trans hcarried', haddr'.trans haddr, hsized.trans hsized', fun hid => ?_⟩
    rw [List.mem_append, not_or] at hid
    rw [hsame' hid.2, hsame hid.1]
  functions := k.functions.trans h.functions
  redirects := k.redirects.trans h.redirects
  bases := k.bases.trans h.bases
  config := k.config.trans h.config

/-- What becomes of the encoding of one instruction. -/
theorem settles_adjust {source : Instruction} {f : Instruction → Instruction}
    (hsource : s.program.chain.get? jumper = some source)
    (hf : source.Carried (f source) ∧ (f source).addr = source.addr) (hsized : source.Sized (f source)) :
    Settles s (s.withChain (s.program.chain.adjust (Chain.only jumper f))) [jumper] where
  chain := by
    refine .of_adjust fun id instr hinstr => ?_
    by_cases hid : id = jumper
    · subst hid
      rw [hsource, Option.some.injEq] at hinstr
      subst hinstr
      rw [Chain.only_self]
      exact ⟨hf.1, hf.2, hsized, fun hnot => absurd (List.mem_singleton_self id) hnot⟩
    · rw [Chain.only_ne hid]
      exact ⟨.refl instr, rfl, .refl instr, fun _ => rfl⟩
  functions := rfl
  redirects := rfl
  bases := rfl
  config := rfl

/-- Writing one displacement settles one jumper. -/
theorem WriteRun.settles {write : DisplacementWrite} (h : WriteRun s jumper write t) :
    Settles s t [jumper] := by
  have hself : Settles s s [jumper] := by
    have hrefl := Settles.refl s
    refine ⟨hrefl.chain.mono fun id a b hab => ?_, rfl, rfl, rfl, rfl⟩
    exact ⟨hab.1, hab.2.1, hab.2.2.1, fun _ => hab.2.2.2 (List.not_mem_nil)⟩
  cases h with
  | indirect => exact hself
  | apart => exact hself
  | overflow => exact hself
  | written lands sec hfield write =>
    exact settles_adjust lands.get ⟨⟨rfl, rfl, rfl, rfl, rfl, rfl, rfl, rfl⟩, rfl⟩
      (.inl (Instruction.rewritten_of_write? hfield write))

/-- Writing a displacement keeps the length of an encoding. -/
theorem WriteRun.length {write : DisplacementWrite} {source after : Instruction}
    (h : WriteRun s jumper write t) (hsource : s.program.chain.get? jumper = some source)
    (hafter : t.program.chain.get? jumper = some after) :
    after.bytes.length = source.bytes.length := by
  have hself : s.program.chain.get? jumper = some after →
      after.bytes.length = source.bytes.length := by
    intro hget
    rw [hsource, Option.some.injEq] at hget
    rw [hget]
  cases h with
  | indirect => exact hself hafter
  | apart => exact hself hafter
  | overflow => exact hself hafter
  | written lands sec hfield write =>
    rename_i found physical field bytes
    obtain rfl := Option.some.inj (lands.get.symm.trans hsource)
    replace hafter : (s.program.chain.adjust (Chain.only jumper (.withBytes bytes))).get? jumper
      = some after := hafter
    rw [Chain.get?_adjust, hsource, Option.map_some, Option.some.injEq, Chain.only_self] at hafter
    rw [← hafter]
    exact DisplacementField.length_write? write

/-- One step of a pass settles one jumper. -/
theorem JumperRun.settles (h : JumperRun s jumper progress done t) : Settles s t [jumper] := by
  cases h with
  | written run => exact run.settles
  | skipped run => exact run.settles
  | widened lands =>
    rename_i source physical field long hsec hfield hfits hshort hlong
    exact settles_adjust lands.get ⟨⟨rfl, rfl, rfl, rfl, rfl, rfl, rfl, rfl⟩, rfl⟩
      (.inr (Instruction.lengthened_of_promote? hshort hlong))

/-- The steps of a pass settle its jumpers. -/
theorem settleJumpers_settles (h : jumpers.foldlM settleJumper progress s = .ok done t) :
    Settles s t jumpers := by
  induction jumpers generalizing s progress with
  | nil =>
    obtain ⟨-, rfl⟩ := foldlM_nil_ok.mp h
    exact .refl s
  | cons jumper jumpers ih =>
    obtain ⟨middle, m, hfirst, hrest⟩ := foldlM_cons_ok.mp h
    exact (settleJumper_ok hfirst).settles.trans (ih hrest)

/-! ## Displacements that stay -/

/-- Writing the displacement of the jumper changes nothing. -/
def Still (program : Program) (jumper : InstrId) : Prop :=
  ∃ write, (write = .written ∨ write = .skipped)
    ∧ ∀ s : Session, s.program = program → writeDisplacement jumper s = .ok write s

/-- A displacement that was written is as it would be written, as long as the jumper is left alone. -/
theorem WriteRun.again {m : Session} {write : DisplacementWrite} {ids : List InstrId}
    (h : WriteRun s jumper write m) (hwrite : write = .written ∨ write = .skipped)
    (hafter : Settles m t ids) (hjumper : jumper ∉ ids) :
    writeDisplacement jumper t = .ok write t := by
  have hget : ∀ source, m.program.chain.get? jumper = some source →
      t.program.chain.get? jumper = some source := by
    intro source hsource
    obtain ⟨source', hsource', -, -, -, hsame⟩ := hafter.chain.get? hsource
    rw [hsource', hsame hjumper]
  cases h with
  | indirect get direct => exact (WriteRun.indirect (hget _ get) direct).run
  | apart lands sec =>
    rename_i source physical
    obtain ⟨source', physical', landing, hlands, hsource, hphysical⟩ :=
      lands.evolve hafter.chain hafter.redirects fun _ _ _ h => h.1
    refine (WriteRun.apart hlands ?_).run
    rw [hsource.1.sec, hphysical.1.sec]
    exact sec
  | overflow => rcases hwrite with hwrite | hwrite <;> cases hwrite
  | written lands sec hfield write =>
    rename_i source physical field bytes
    have hwritten : t.program.chain.get? jumper = some (source.withBytes bytes) := by
      refine hget _ ?_
      show (s.program.chain.adjust _).get? jumper = _
      rw [Chain.get?_adjust, lands.get, Option.map_some, Chain.only_self]
    have hall := (WriteRun.written lands sec hfield write).settles.trans hafter
    obtain ⟨source', physical', landing, hlands, hsource, hphysical⟩ :=
      lands.evolve hall.chain hall.redirects fun _ _ _ h => h.1
    obtain rfl : source' = source.withBytes bytes :=
      Option.some.inj (hlands.get.symm.trans hwritten)
    have hlength := DisplacementField.length_write? write
    have hfield' : (source.withBytes bytes).displacementField? = some field := by
      rw [← hfield]
      exact Encoding.displacementField?_congr hlength
    have hend : (source.withBytes bytes).endAddr = source.endAddr := by
      simp only [Instruction.endAddr, Instruction.size, Instruction.withBytes, hlength]
    have hwrite' : field.write? (source.withBytes bytes).bytes
        ((source.withBytes bytes).displacementTo physical') = some bytes := by
      rw [Instruction.displacementTo, hend, hphysical.2.1]
      exact DisplacementField.write?_of_write? write
    have hsec' : physical'.sec = (source.withBytes bytes).sec :=
      hphysical.1.sec.trans sec
    rw [(WriteRun.written hlands hsec' hfield' hwrite').run]
    -- the bytes that are written are those that are there
    have hsame : t.program.chain.adjust (Chain.only jumper (.withBytes bytes)) = t.program.chain := by
      refine Chain.adjust_self fun id instr hinstr => ?_
      by_cases hid : id = jumper
      · subst hid
        rw [hwritten, Option.some.injEq] at hinstr
        rw [← hinstr, Chain.only_self]
        rfl
      · exact Chain.only_ne hid _ _
    rw [hsame]
    rfl

/-- A displacement that was written, or needed no writing, needs none later either, as long as its jumper
is left alone. -/
theorem WriteRun.still {m : Session} {write : DisplacementWrite} {ids : List InstrId}
    (h : WriteRun s jumper write m) (hwrite : write = .written ∨ write = .skipped)
    (hafter : Settles m t ids) (hjumper : jumper ∉ ids) : Still t.program jumper := by
  refine ⟨write, hwrite, fun u hu => h.again hwrite ?_ hjumper⟩
  obtain ⟨hchain, hfunctions, hredirects, hbases, hconfig⟩ := hafter
  rw [← hu] at hchain hfunctions hredirects hbases hconfig
  exact ⟨hchain, hfunctions, hredirects, hbases, hconfig⟩

/-- A displacement that stays encodes its target. -/
theorem Still.encodes (h : Still s.program jumper) : s.program.Encodes jumper := by
  obtain ⟨write, hwrite, hrun⟩ := h
  exact (writeDisplacement_ok (hrun s rfl)).encodes hwrite

/-- A displacement that is written within a section fits. -/
theorem WriteRun.fits {write : DisplacementWrite} {source physical : Instruction}
    (h : WriteRun s jumper write t) (hwrite : write = .written ∨ write = .skipped)
    (hlands : s.program.Lands jumper source physical) (hsec : physical.sec = source.sec) :
    ∃ field, source.displacementField? = some field
      ∧ field.fits (source.displacementTo physical) = true := by
  cases h with
  | indirect get direct =>
    obtain rfl := Option.some.inj (hlands.get.symm.trans get)
    rw [hlands.direct] at direct
    cases direct
  | apart lands sec =>
    obtain ⟨rfl, rfl⟩ := hlands.unique lands
    exact absurd hsec sec
  | overflow => rcases hwrite with hwrite | hwrite <;> cases hwrite
  | written lands sec hfield write =>
    obtain ⟨rfl, rfl⟩ := hlands.unique lands
    exact ⟨_, hfield, (DisplacementField.write?_eq_some.mp write).1⟩

/-- A jumper that is still adds no shift and changes nothing. -/
theorem Still.settleJumper (h : Still s.program jumper) (progress : Progress) :
    ∃ written, settleJumper progress jumper s = .ok (written, progress.2) s := by
  obtain ⟨write, hwrite, hrun⟩ := h
  unfold EngineM.settleJumper
  rcases hwrite with rfl | rfl
  · exact ⟨progress.1 + 1, bind_ok.mpr ⟨_, s, hrun s rfl, rfl⟩⟩
  · exact ⟨progress.1, bind_ok.mpr ⟨_, s, hrun s rfl, rfl⟩⟩

/-- Jumpers that are still add no shifts and change nothing. -/
theorem settleJumpers_still (h : ∀ jumper ∈ jumpers, Still s.program jumper) (progress : Progress) :
    ∃ written, jumpers.foldlM settleJumper progress s = .ok (written, progress.2) s := by
  induction jumpers generalizing progress with
  | nil => exact ⟨progress.1, rfl⟩
  | cons jumper jumpers ih =>
    obtain ⟨first, hfirst⟩ := (h jumper (List.mem_cons_self ..)).settleJumper progress
    obtain ⟨written, hrest⟩ :=
      ih (fun other hother => h other (List.mem_cons_of_mem _ hother)) (first, progress.2)
    exact ⟨written, foldlM_cons_ok.mpr ⟨_, s, hfirst, hrest⟩⟩

/-! ## What a pass widens -/

/-- A step takes no shift back. -/
theorem JumperRun.length_le (h : JumperRun s jumper progress done t) :
    progress.2.length ≤ done.2.length := by
  cases h with
  | written => exact Nat.le_refl _
  | skipped => exact Nat.le_refl _
  | widened =>
    rw [List.length_append]
    exact Nat.le_add_right ..

/-- The steps of a pass take no shift back. -/
theorem settleJumpers_length_le (h : jumpers.foldlM settleJumper progress s = .ok done t) :
    progress.2.length ≤ done.2.length := by
  induction jumpers generalizing s progress with
  | nil =>
    obtain ⟨rfl, -⟩ := foldlM_nil_ok.mp h
    exact Nat.le_refl _
  | cons jumper jumpers ih =>
    obtain ⟨middle, m, hfirst, hrest⟩ := foldlM_cons_ok.mp h
    exact Nat.le_trans (settleJumper_ok hfirst).length_le (ih hrest)

/-- Where no jumper was widened, every displacement is as it would be written. -/
theorem settleJumpers_unwidened (hnodup : jumpers.Nodup)
    (h : jumpers.foldlM settleJumper progress s = .ok done t)
    (hnone : done.2.length = progress.2.length) : ∀ jumper ∈ jumpers, Still t.program jumper := by
  -- whoever is widened adds a shift, and the number of shifts is what it was
  induction jumpers generalizing s progress with
  | nil =>
    intro jumper hjumper
    cases hjumper
  | cons jumper jumpers ih =>
    obtain ⟨middle, m, hfirst, hrest⟩ := foldlM_cons_ok.mp h
    obtain ⟨hjumper, hnodup⟩ := List.nodup_cons.mp hnodup
    have hrun := settleJumper_ok hfirst
    have hle := hrun.length_le
    have hle' := settleJumpers_length_le hrest
    have hafter := settleJumpers_settles hrest
    intro other hother
    rcases List.mem_cons.mp hother with rfl | hother
    · cases hrun with
      | written run => exact run.still (.inl rfl) hafter hjumper
      | skipped run => exact run.still (.inr rfl) hafter hjumper
      | widened =>
        rw [List.length_append, List.length_singleton] at hle'
        omega
    · exact ih hnodup hrest (by omega) other hother

/-- A jumper that is longer than it was did not fit. -/
theorem settleJumpers_overflows (hnodup : jumpers.Nodup)
    (h : jumpers.foldlM settleJumper progress s = .ok done t) {source after : Instruction}
    (hsource : s.program.chain.get? jumper = some source)
    (hafter : t.program.chain.get? jumper = some after)
    (hlength : after.bytes.length ≠ source.bytes.length) :
    progress.2.length < done.2.length
      ∧ ∃ physical, s.program.Overflows jumper source physical := by
  induction jumpers generalizing s progress with
  | nil =>
    obtain ⟨-, rfl⟩ := foldlM_nil_ok.mp h
    rw [hsource, Option.some.injEq] at hafter
    exact absurd (congrArg (·.bytes.length) hafter.symm) hlength
  | cons head jumpers ih =>
    obtain ⟨middle, m, hfirst, hrest⟩ := foldlM_cons_ok.mp h
    obtain ⟨hhead, hnodup⟩ := List.nodup_cons.mp hnodup
    have hrun := settleJumper_ok hfirst
    have hle := settleJumpers_length_le hrest
    obtain ⟨between, hbetween, -, -, -, hkept⟩ := hrun.settles.chain.get? hsource
    by_cases hid : jumper = head
    · subst hid
      -- its own turn was the last time that its encoding changed
      obtain ⟨last, hlast, -, -, -, hsame⟩ := (settleJumpers_settles hrest).chain.get? hbetween
      rw [hafter, Option.some.injEq] at hlast
      subst hlast
      rw [hsame hhead] at hlength
      cases hrun with
      | written run => exact absurd (run.length hsource hbetween) hlength
      | skipped run =>
        rw [hsource, Option.some.injEq] at hbetween
        exact absurd (congrArg (·.bytes.length) hbetween.symm) hlength
      | widened lands sec hfield fits short promote =>
        rename_i found physical field long
        obtain rfl := Option.some.inj (lands.get.symm.trans hsource)
        refine ⟨?_, physical, lands, sec, short, ⟨long, promote⟩, field, hfield, fits⟩
        rw [List.length_append, List.length_singleton] at hle
        omega
    · obtain rfl := hkept fun hmem => hid (List.mem_singleton.mp hmem)
      obtain ⟨hlt, physical', hover⟩ := ih hnodup hrest hbetween
      -- the pass leaves the target where it is
      obtain ⟨source', physical, landing, hlands, -, hphysical⟩ :=
        hover.toLands.of_evolve hrun.settles.chain hrun.settles.redirects fun _ _ _ h => h.1
      obtain rfl := Option.some.inj (hlands.get.symm.trans hsource)
      refine ⟨Nat.lt_of_le_of_lt hrun.length_le hlt, physical, hlands,
        hphysical.1.sec.symm.trans hover.sec, hover.short, hover.long, ?_⟩
      obtain ⟨field, hfield, hfits⟩ := hover.overflow
      refine ⟨field, hfield, ?_⟩
      rw [Instruction.displacementTo, ← hphysical.2.1]
      exact hfits

/-! ## Passes -/

/-- A pass goes through the jumpers once and counts what it widened. -/
theorem displacementPass_ok {written widened : Nat} :
    displacementPass s = .ok (written, widened) t
      ↔ ∃ shifts, s.program.jumpers.foldlM settleJumper (0, []) s = .ok (written, shifts) t
        ∧ widened = shifts.length := by
  simp only [displacementPass, bind_ok, program_ok, pure_ok]
  constructor
  · intro h
    obtain ⟨_, _, ⟨rfl, rfl⟩, done, _, hdone, hresult, rfl⟩ := h
    rw [Prod.mk.injEq] at hresult
    obtain ⟨rfl, rfl⟩ := hresult
    exact ⟨done.2, hdone, rfl⟩
  · intro h
    obtain ⟨shifts, hrun, rfl⟩ := h
    exact ⟨_, s, ⟨rfl, rfl⟩, _, t, hrun, rfl, rfl⟩


/-- What a pass makes of the code. -/
structure Passed (s t : Session) (widened : Nat) : Prop where
  settles : Settles s t s.program.jumpers
  overflows : ∀ jumper source after, s.program.chain.get? jumper = some source →
    t.program.chain.get? jumper = some after → after.bytes.length ≠ source.bytes.length →
    0 < widened ∧ ∃ physical, s.program.Overflows jumper source physical
  still : widened = 0 → ∀ jumper ∈ t.program.jumpers, Still t.program jumper

/-- A pass is right about the jumpers it did not widen, and if it widened none, nothing moved under those
written before. Otherwise the layout that follows puts each instruction in its place again. -/
theorem displacementPass_passed {written widened : Nat} (hl : s.program.chain.Spells l)
    (h : displacementPass s = .ok (written, widened) t) : Passed s t widened := by
  obtain ⟨shifts, hrun, rfl⟩ := displacementPass_ok.mp h
  have hnodup := Program.nodup_jumpers hl
  have hsettles := settleJumpers_settles hrun
  refine ⟨hsettles, fun jumper source after hsource hafter hlength =>
    settleJumpers_overflows hnodup hrun hsource hafter hlength, fun hnone => ?_⟩
  rw [Program.jumpers_evolve hsettles.chain fun _ _ _ h => h.1]
  exact settleJumpers_unwidened hnodup hrun hnone

/-- A pass over displacements that stay writes them again. -/
theorem displacementPass_still (h : ∀ jumper ∈ s.program.jumpers, Still s.program jumper) :
    ∃ written, displacementPass s = .ok (written, 0) s := by
  obtain ⟨written, hrun⟩ := settleJumpers_still h (0, [])
  exact ⟨written, displacementPass_ok.mpr ⟨[], hrun, rfl⟩⟩

/-- Passes end with one that widens nothing. What a pass that widens something keeps together with
the layout that follows it holds of the code that this last pass finds. -/
theorem displacementPasses_ok {P : Session → Prop} {steps : Nat} {summary total : UpdateSummary}
    (hpass : ∀ s m t written widened layout, P s →
      displacementPass s = .ok (written, widened) m → updateAddresses m = .ok layout t → P t)
    (hs : P s) (h : displacementPasses summary steps s = .ok total t) :
    0 < steps ∧ ∃ m written, P m ∧ displacementPass m = .ok (written, 0) t := by
  induction steps generalizing s summary with
  | zero =>
    simp only [displacementPasses, bind_ok] at h
    obtain ⟨_, _, -, h⟩ := h
    exact (throw_ok.mp h).elim
  | succ steps ih =>
    simp only [displacementPasses, bind_ok] at h
    obtain ⟨⟨written, widened⟩, m, hrun, h⟩ := h
    refine ⟨Nat.succ_pos steps, ?_⟩
    by_cases hwidened : widened = 0
    · simp only [hwidened, if_true, pure_ok] at h
      obtain ⟨-, rfl⟩ := h
      exact ⟨s, written, hs, hwidened ▸ hrun⟩
    · simp only [hwidened, if_false, bind_ok] at h
      obtain ⟨layout, m', hlayout, hrest⟩ := h
      exact (ih (hpass s m m' written widened layout hs hrun hlayout) hrest).2

end EngineM

end Splice
