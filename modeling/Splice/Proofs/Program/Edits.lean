import Splice.Proofs.Program.Excision
import Splice.Proofs.Program.Settle
import Splice.Proofs.Redirects.Replacement

/-!
# Edits keep displacements right

`Edit` lists the edits of the code at one place. If every direct transfer encodes the way
to its physical target before an edit, it does so afterwards, and then after any sequence
of edits (`verifyDisplacements_of_edits`). Removals are left out here: where redirects lead
to what is removed, they change where jumpers land.

The argument is the same for every edit. The splice leaves a `Tidy` program in which only
the jumpers that its shift names may be wrong (`Unsettled`): any other one is where it was
and lands at the address where it landed, on the same instruction or on the one that took
its place. Settling the shift then puts right the jumpers that are named and those that
move (`settle_encodes`).

Insertions, substitutions and changes of bytes in place are covered here, and removals apart
from these in `Splice.Proofs.Program.Removal`, since only they can leave a displacement wrong.
`Edit` and `Edit.run` are used by all later modules that speak of sequences of edits.
-/

namespace Splice

/-- An edit of the code at one place. -/
inductive Edit where
  | insertBefore (anchor : InstrId) (given : Instruction) (retarget : Retarget)
  | insertAfter (anchor : InstrId) (given : Instruction)
  | substitute (old : InstrId) (given : List Instruction)
  | remove (id : InstrId)
  /-- Other bytes for an instruction, and a shift of the code behind it. -/
  | resize (id : InstrId) (bytes : List UInt8) (opcodeSize : UInt8) (delta : Int64)
deriving DecidableEq

namespace Edit

def run : Edit → EngineM Unit
  | insertBefore anchor given retarget => discard (EngineM.insertBefore anchor given retarget)
  | insertAfter anchor given => discard (EngineM.insertAfter anchor given)
  | substitute old given => discard (EngineM.substitute old given)
  | remove id => discard (EngineM.remove id)
  | resize id bytes opcodeSize delta => do
    EngineM.updateInstr id fun instr => { instr with bytes := bytes, opcodeSize := opcodeSize }
    discard (EngineM.shiftAddresses id delta)

/-- The edit without its update: it returns the shift that is left to be settled. -/
def splice : Edit → EngineM Shift
  | insertBefore anchor given retarget => do
    let (_, shift) ← EngineM.spliceBefore anchor given retarget
    return shift
  | insertAfter anchor given => do
    let (_, shift) ← EngineM.spliceAfter anchor given
    return shift
  | substitute old given => do
    let (_, shift) ← EngineM.spliceInstead old given
    return shift
  | remove id => do
    let (_, shift) ← EngineM.excise id
    return shift
  | resize id bytes opcodeSize delta => do
    EngineM.updateInstr id fun instr => { instr with bytes := bytes, opcodeSize := opcodeSize }
    EngineM.shiftBehind id delta

/-- The edit with the full update in the place of the local one. -/
def runFull (edit : Edit) : EngineM Unit := do
  let _ ← edit.splice
  discard EngineM.finalize

/-- The instructions that the edit puts in. -/
def given : Edit → List Instruction
  | insertBefore _ given _ => [given]
  | insertAfter _ given => [given]
  | substitute _ given => given
  | remove _ => []
  | resize .. => []

/-- The edit takes an instruction out without putting another one in its place. -/
def removes : Edit → Bool
  | remove _ => true
  | _ => false

/-- The edit gives an instruction other bytes in place. -/
def resizes : Edit → Bool
  | resize .. => true
  | _ => false

end Edit

/-! ## Programs that can be edited -/

/-- The code is the list `l`, what it refers to is in the list and lists the reference, and redirects
lead from instructions of the list to instructions of the list, in no circle. -/
structure Program.Tidy (program : Program) (l : List InstrId) : Prop where
  spells : program.chain.Spells l
  attached : program.chain.Attached l
  listed : program.chain.Listed l
  keyed : program.redirects.Keyed
  acyclic : program.redirects.Acyclic
  within : program.redirects.Within (· ∈ l)

/-- A program whose instructions know their jumpers and whose direct transfers encode their targets. -/
structure Program.Coherent (program : Program) : Prop where
  wellFormed : program.chain.WellFormed
  attached : program.chain.Attached program.chain.ids
  keyed : program.redirects.Keyed
  acyclic : program.redirects.Acyclic
  linked : program.redirects.Within fun id => program.chain.isLinked id = true
  references : program.verifyReferences = .ok ()
  displacements : program.verifyDisplacements = .ok ()

/-- In a coherent program, what the edits rest on holds of the linked instructions. -/
theorem Program.Coherent.tidy {program : Program} (h : program.Coherent) :
    program.Tidy program.chain.ids where
  spells := h.wellFormed.spells
  attached := h.attached
  listed := verifyReferences_listed h.wellFormed.spells h.references
  keyed := h.keyed
  acyclic := h.acyclic
  within entry hentry := by
    obtain ⟨hsource, hdest⟩ := h.linked entry hentry
    exact ⟨h.wellFormed.spells.isLinked_iff.mp hsource, h.wellFormed.spells.isLinked_iff.mp hdest⟩

namespace Program.Tidy

variable {s t : Session} {l : List InstrId} {id jumper logical : InstrId} {source physical : Instruction}

/-- What settling leaves alone is all that makes a program tidy. -/
theorem carry (h : s.program.Tidy l) (hcarries : Session.Carries s t) : t.program.Tidy l where
  spells := hcarries.chain.spells h.spells
  attached := hcarries.chain.attached h.attached
  listed := h.listed.evolve hcarries.chain (fun _ _ _ h => h.references) (fun _ _ _ h => h.targetedBy)
  keyed := hcarries.redirects ▸ h.keyed
  acyclic := hcarries.redirects ▸ h.acyclic
  within := hcarries.redirects ▸ h.within

theorem mem_of_get? (h : s.program.Tidy l) (hget : s.program.chain.get? id = some source) :
    id ∈ l :=
  h.attached id (by rw [Chain.contains_eq_isSome_get?, hget]; rfl)

/-- A name that is not in use is not redirected. -/
theorem not_redirected (h : s.program.Tidy l) (hid : id ∉ l) :
    s.program.redirects.Within (· ≠ id) := by
  intro entry hentry
  obtain ⟨hsource, hdest⟩ := h.within entry hentry
  exact ⟨fun he => hid (he ▸ hsource), fun he => hid (he ▸ hdest)⟩

end Program.Tidy

namespace EngineM

variable {s t : Session} {xs site ys mid : List InstrId} {rename : InstrId → InstrId}
  {anchor old new : InstrId} {given : Instruction}

/-! ## What a splice leaves unsettled -/

/-- A jumper that stays encodes its target as before, if what it lands on is at the same address in the
same section. -/
theorem encodes_of_spliced {jumper : InstrId} (hjumper : jumper ∈ xs ++ ys)
    (hs : s.program.Encodes jumper) (hsplice : Session.Spliced s t xs site ys mid rename)
    (hland : ∀ source logical physical,
      s.program.chain.get? jumper = some source → source.target = some logical →
      source.isDirectTransfer = true →
      s.program.chain.get? (s.program.redirects.resolve jumper logical) = some physical →
      ∃ physical',
        t.program.chain.get? (t.program.redirects.resolve jumper (rename logical)) = some physical'
          ∧ physical'.sec = physical.sec ∧ physical'.addr = physical.addr) :
    t.program.Encodes jumper := by
  refine hs.congr fun source' logical' hsource' htarget' hdirect' => ?_
  obtain ⟨source, hsource, halike, hturned⟩ := hsplice.kept.get?_of hjumper hsource'
  rw [hturned, Option.map_eq_some_iff] at htarget'
  obtain ⟨logical, htarget, rfl⟩ := htarget'
  have hdirect : source.isDirectTransfer = true := by
    rw [Instruction.isDirectTransfer, hturned, Option.isSome_map, halike.flags] at hdirect'
    exact hdirect'
  exact ⟨source, logical, hsource, htarget, hdirect, halike.sec, halike.encodedTarget?,
    fun physical hphysical => hland source logical physical hsource htarget hdirect hphysical⟩

/-- Before the update only what came in is left to be encoded. -/
theorem unsettled_of_encodes {pending : List InstrId}
    (h : ∀ jumper ∈ xs ++ ys, t.program.Encodes jumper) (hmid : ∀ id ∈ mid, id ∈ pending) :
    Unsettled t (xs ++ mid ++ ys) pending := by
  intro jumper hjumper
  rcases mem_mid_iff.mp hjumper with hnew | hold
  · exact .inr (hmid jumper hnew)
  · exact .inl (h jumper hold)

section Insertion

variable {instr found : Instruction} {shift : Shift}

/-- Jumpers pass by an instruction that no redirect leads to. -/
theorem placed_keep (htidy : s.program.Tidy (xs ++ ys))
    (hs : ∀ jumper ∈ xs ++ ys, s.program.Encodes jumper) (hplaced : Placed s t xs ys new instr)
    (hredirects : t.program.redirects = s.program.redirects) :
    t.program.Tidy (xs ++ [new] ++ ys) ∧ ∀ jumper ∈ xs ++ ys, t.program.Encodes jumper := by
  have hsplice := hplaced.toSpliced
  constructor
  · refine ⟨hsplice.spells, hsplice.attached ?_, hsplice.listed, ?_, ?_, ?_⟩
    · simpa using htidy.attached
    · exact hredirects ▸ htidy.keyed
    · exact hredirects ▸ htidy.acyclic
    · intro entry hentry
      rw [hredirects] at hentry
      obtain ⟨hsource, hdest⟩ := htidy.within entry hentry
      exact ⟨mem_mid_iff.mpr (.inr hsource), mem_mid_iff.mpr (.inr hdest)⟩
  · intro jumper hjumper
    refine encodes_of_spliced hjumper (hs jumper hjumper) hsplice
      fun source logical physical _ _ _ hphysical => ?_
    rw [hredirects, id]
    obtain ⟨physical', hphysical', halike, -⟩ :=
      hsplice.kept.get? (htidy.mem_of_get? hphysical) hphysical
    exact ⟨physical', hphysical', halike.sec, halike.addr⟩

/-- Jumpers that landed on the anchor land on the instruction put in front of it, at the same
address. -/
theorem placed_redirect (htidy : s.program.Tidy (xs ++ anchor :: ys))
    (hs : ∀ jumper ∈ xs ++ anchor :: ys, s.program.Encodes jumper)
    (hplaced : Placed s t xs (anchor :: ys) new instr)
    (hfound : s.program.chain.get? anchor = some found) (hsec : instr.sec = found.sec)
    (haddr : instr.addr = found.addr) (hanchor : s.program.redirects.targetOf? anchor = none)
    (hredirect : s.program.redirects.redirect anchor new = .ok t.program.redirects) :
    t.program.Tidy (xs ++ [new] ++ anchor :: ys)
      ∧ ∀ jumper ∈ xs ++ anchor :: ys, t.program.Encodes jumper := by
  have hsplice := hplaced.toSpliced
  have hnew : new ∉ xs ++ anchor :: ys :=
    htidy.spells.not_mem (hsplice.fresh new (List.mem_singleton_self new))
  have hne : new ≠ anchor := by
    rintro rfl
    exact hnew (by simp)
  have hstop := (htidy.not_redirected hnew).targetOf?_eq_none
  constructor
  · refine ⟨hsplice.spells, hsplice.attached ?_, hsplice.listed, ?_, ?_, ?_⟩
    · simpa using htidy.attached
    · exact htidy.keyed.redirect hredirect
    · exact htidy.acyclic.redirect hstop hne hredirect
    · refine htidy.within.redirect hredirect (fun id hid => ?_) (by simp) (by simp)
      exact mem_mid_iff.mpr (.inr hid)
  · intro jumper hjumper
    refine encodes_of_spliced hjumper (hs jumper hjumper) hsplice
      fun source logical physical _ _ _ hphysical => ?_
    have hoverride := Redirects.overrideOf?_redirect hredirect jumper
    have hlanding := htidy.acyclic.landing_redirect hanchor hstop hne hredirect logical
    obtain ⟨physical', hphysical', halike, -⟩ :=
      hsplice.kept.get? (htidy.mem_of_get? hphysical) hphysical
    -- an override is followed as it is, and only without one does the redirect of the anchor take part
    cases hjumps : s.program.redirects.overrideOf? jumper with
    | some landing =>
      rw [Redirects.resolve, hjumps, Option.getD_some] at hphysical'
      rw [Redirects.resolve, hoverride, hjumps, Option.getD_some]
      exact ⟨physical', hphysical', halike.sec, halike.addr⟩
    | none =>
      rw [Redirects.resolve, hjumps, Option.getD_none] at hphysical hphysical'
      rw [Redirects.resolve, hoverride, hjumps, Option.getD_none, id, hlanding]
      by_cases hland : s.program.redirects.landing logical = anchor
      · obtain ⟨first, hfirst, hlike⟩ := hplaced.placed
        rw [hland, hfound, Option.some.injEq] at hphysical
        rw [if_pos hland, ← hphysical]
        exact ⟨first, hfirst, hlike.sec.trans hsec, hlike.addr.trans haddr⟩
      · rw [if_neg hland]
        exact ⟨physical', hphysical', halike.sec, halike.addr⟩

/-- An insertion in front leaves to be encoded what its shift names: the new instruction, and the jumpers
that land there now. -/
theorem spliceBefore_unsettled {retarget : Retarget}
    (htidy : s.program.Tidy (xs ++ anchor :: ys))
    (hs : ∀ jumper ∈ xs ++ anchor :: ys, s.program.Encodes jumper)
    (h : spliceBefore anchor given retarget s = .ok (new, shift) t) :
    ∃ l, t.program.Tidy l ∧ Unsettled t l shift.edited := by
  obtain ⟨found, hfound, hplaced, -, hredirects, entering, rfl⟩ :=
    spliceBefore_ok htidy.spells htidy.attached htidy.listed h
  have hmain : t.program.Tidy (xs ++ [new] ++ anchor :: ys)
      ∧ ∀ jumper ∈ xs ++ anchor :: ys, t.program.Encodes jumper := by
    rcases hredirects with ⟨-, hsame⟩ | ⟨-, hanchor, hredirect⟩
    · exact placed_keep htidy hs hplaced hsame
    · exact placed_redirect htidy hs hplaced hfound rfl rfl hanchor hredirect
  exact ⟨_, hmain.1, unsettled_of_encodes hmain.2 (by simp)⟩

/-- An insertion behind leaves the new instruction to be encoded, and every other displacement as it
was. -/
theorem appendAfter_unsettled (htidy : s.program.Tidy (xs ++ anchor :: ys))
    (hs : ∀ jumper ∈ xs ++ anchor :: ys, s.program.Encodes jumper)
    (h : appendAfter anchor given s = .ok (new, shift) t) :
    ∃ l, t.program.Tidy l ∧ Unsettled t l shift.edited := by
  obtain ⟨found, -, hplaced, -, hredirects, rfl⟩ :=
    appendAfter_ok htidy.spells htidy.attached htidy.listed h
  have heq : xs ++ anchor :: ys = (xs ++ [anchor]) ++ ys := by simp
  rw [heq] at htidy hs
  have hmain := placed_keep htidy hs hplaced hredirects
  exact ⟨_, hmain.1, unsettled_of_encodes hmain.2 (by simp)⟩

end Insertion

/-- Jumpers that landed on what was taken out land on the first of the sequence, at the same
address. -/
theorem spliceInstead_unsettled {ids : List InstrId} {given : List Instruction} {shift : Shift}
    (htidy : s.program.Tidy (xs ++ old :: ys))
    (hs : ∀ jumper ∈ xs ++ old :: ys, s.program.Encodes jumper)
    (h : spliceInstead old given s = .ok (ids, shift) t) :
    ∃ l, t.program.Tidy l ∧ Unsettled t l shift.edited := by
  obtain ⟨found, first, last, hfound, hfirst, -, hsplice, hstacked, -, hredirects, rfl⟩ :=
    spliceInstead_ok htidy.spells htidy.attached htidy.listed h
  have hids : first ∈ ids := List.mem_of_head? hfirst
  have hnew : first ∉ xs ++ old :: ys := htidy.spells.not_mem (hsplice.fresh first hids)
  have hwithin := htidy.not_redirected hnew
  have hsub : ∀ jumper ∈ xs ++ ys, jumper ∈ xs ++ old :: ys ∧ jumper ≠ old := fun jumper hjumper =>
    htidy.spells.mem_rest_iff.mp hjumper
  refine ⟨xs ++ ids ++ ys, ⟨hsplice.spells, hsplice.attached ?_, hsplice.listed, ?_, ?_, ?_⟩,
    unsettled_of_encodes ?_ fun _ hid => hid⟩
  · simpa using htidy.attached
  · rw [hredirects]
    exact .replace s.program.redirects old first
  · rw [hredirects]
    exact htidy.acyclic.replace_new htidy.keyed (fun he => hnew (by simp [he])) hwithin
  · rw [hredirects]
    refine htidy.within.replace fun id hid => ?_
    by_cases he : id = old
    · rw [he, swap_self]
      exact mem_mid_iff.mpr (.inl hids)
    · rw [swap_of_ne he]
      exact mem_mid_iff.mpr (.inr (htidy.spells.mem_rest_iff.mpr ⟨hid, he⟩))
  · intro jumper hjumper
    refine encodes_of_spliced hjumper (hs jumper (hsub jumper hjumper).1) hsplice
      fun source logical physical hsource htarget _ hphysical => ?_
    have hmem := (hsub jumper hjumper).1
    have hlogical : logical ∈ xs ++ old :: ys :=
      (htidy.listed jumper hmem source hsource logical (by simp [Instruction.references, htarget])).1
    have hresolve := Redirects.resolve_replace htidy.keyed htidy.acyclic old hwithin
      (fun he => hnew (he ▸ hmem)) (fun he => hnew (he ▸ hlogical))
    rw [swap_of_ne (hsub jumper hjumper).2] at hresolve
    rw [hredirects, hresolve]
    -- a jumper that landed on what is taken out is led on to the first of the sequence
    by_cases hland : s.program.redirects.resolve jumper logical = old
    · rw [hland, hfound, Option.some.injEq] at hphysical
      rw [hland, swap_self, ← hphysical]
      obtain ⟨rest, rfl⟩ := List.head?_eq_some_iff.mp hfirst
      obtain ⟨instr, hinstr, haddr, hsec, -, -⟩ := hstacked
      exact ⟨instr, hinstr, hsec, haddr⟩
    · have hrest := htidy.spells.mem_rest_iff.mpr ⟨htidy.mem_of_get? hphysical, hland⟩
      rw [swap_of_ne hland]
      obtain ⟨physical', hphysical', halike, -⟩ := hsplice.kept.get? hrest hphysical
      exact ⟨physical', hphysical', halike.sec, halike.addr⟩

/-! ## Edits -/

/-- An edit begins with a splice, or with other bytes for an instruction, and a shift is left to be
settled. -/
inductive SpliceRun (s : Session) : Edit → Shift → Session → Prop where
  | before {anchor new : InstrId} {given : Instruction} {retarget : Retarget} {shift : Shift}
      {t : Session} (run : spliceBefore anchor given retarget s = .ok (new, shift) t) :
      SpliceRun s (.insertBefore anchor given retarget) shift t
  | after {anchor next new : InstrId} {given : Instruction} {shift : Shift} {t : Session}
      (run : spliceBefore next given .keep s = .ok (new, shift) t) :
      SpliceRun s (.insertAfter anchor given) shift t
  | behind {anchor new : InstrId} {given : Instruction} {shift : Shift} {t : Session}
      (run : appendAfter anchor given s = .ok (new, shift) t) :
      SpliceRun s (.insertAfter anchor given) shift t
  | instead {old : InstrId} {ids : List InstrId} {given : List Instruction} {shift : Shift}
      {t : Session} (run : spliceInstead old given s = .ok (ids, shift) t) :
      SpliceRun s (.substitute old given) shift t
  | out {id : InstrId} {freed : Instruction} {shift : Shift} {t : Session}
      (run : excise id s = .ok (freed, shift) t) : SpliceRun s (.remove id) shift t
  | resized {id : InstrId} {bytes : List UInt8} {opcodeSize : UInt8} {delta : Int64} {shift : Shift}
      {t : Session} (run : shiftBehind id delta (s.withChain (s.program.chain.adjust
        (Chain.only id fun instr => { instr with bytes := bytes, opcodeSize := opcodeSize })))
          = .ok shift t) : SpliceRun s (.resize id bytes opcodeSize delta) shift t

/-- An edit is its splice and the local update. -/
theorem edit_splice {edit : Edit} {u : Unit} (h : edit.run s = .ok u t) :
    ∃ shift m summary, edit.splice s = .ok shift m ∧ settle shift m = .ok summary t := by
  cases edit with
  | insertBefore anchor given retarget =>
    simp only [Edit.run, insertBefore, bind_ok, discard_ok, pure_ok] at h
    obtain ⟨_, ⟨new, shift⟩, m, hsplice, _, _, ⟨summary, hsettle⟩, -, rfl⟩ := h
    exact ⟨shift, m, summary, bind_ok.mpr ⟨_, _, hsplice, rfl⟩, hsettle⟩
  | insertAfter anchor given =>
    simp only [Edit.run, insertAfter, bind_ok, discard_ok, pure_ok] at h
    obtain ⟨_, ⟨new, shift⟩, m, hsplice, _, _, ⟨summary, hsettle⟩, -, rfl⟩ := h
    exact ⟨shift, m, summary, bind_ok.mpr ⟨_, _, hsplice, rfl⟩, hsettle⟩
  | substitute old given =>
    simp only [Edit.run, substitute, bind_ok, discard_ok, pure_ok] at h
    obtain ⟨_, ⟨ids, shift⟩, m, hsplice, _, _, ⟨summary, hsettle⟩, -, rfl⟩ := h
    exact ⟨shift, m, summary, bind_ok.mpr ⟨_, _, hsplice, rfl⟩, hsettle⟩
  | remove id =>
    simp only [Edit.run, remove, bind_ok, discard_ok, pure_ok] at h
    obtain ⟨_, ⟨freed, shift⟩, m, hsplice, _, _, ⟨summary, hsettle⟩, -, rfl⟩ := h
    exact ⟨shift, m, summary, bind_ok.mpr ⟨_, _, hsplice, rfl⟩, hsettle⟩
  | resize id bytes opcodeSize delta =>
    simp only [Edit.run, bind_ok, discard_ok, shiftAddresses] at h
    obtain ⟨_, m, hbytes, summary, shift, m', hshift, hsettle⟩ := h
    exact ⟨shift, m', summary, bind_ok.mpr ⟨_, _, hbytes, hshift⟩, hsettle⟩

/-- An edit that gets to its shift did so by one of the ways of `SpliceRun`, each with all that is known
of it. -/
theorem splice_run {edit : Edit} {shift : Shift} (h : edit.splice s = .ok shift t) :
    SpliceRun s edit shift t := by
  cases edit with
  | insertBefore anchor given retarget =>
    simp only [Edit.splice, bind_ok, pure_ok] at h
    obtain ⟨⟨new, shift⟩, _, hsplice, rfl, rfl⟩ := h
    exact .before hsplice
  | insertAfter anchor given =>
    simp only [Edit.splice, bind_ok, pure_ok] at h
    obtain ⟨⟨new, shift⟩, _, hsplice, rfl, rfl⟩ := h
    rcases spliceAfter_ok hsplice with ⟨next, -, hbefore⟩ | ⟨-, happend⟩
    · exact .after hbefore
    · exact .behind happend
  | substitute old given =>
    simp only [Edit.splice, bind_ok, pure_ok] at h
    obtain ⟨⟨ids, shift⟩, _, hsplice, rfl, rfl⟩ := h
    exact .instead hsplice
  | remove id =>
    simp only [Edit.splice, bind_ok, pure_ok] at h
    obtain ⟨⟨freed, shift⟩, _, hsplice, rfl, rfl⟩ := h
    exact .out hsplice
  | resize id bytes opcodeSize delta =>
    simp only [Edit.splice, bind_ok, updateInstr_ok] at h
    obtain ⟨_, _, ⟨-, rfl⟩, hshift⟩ := h
    exact .resized hshift

theorem edit_ok {edit : Edit} {u : Unit} (h : edit.run s = .ok u t) :
    ∃ shift m summary, SpliceRun s edit shift m ∧ settle shift m = .ok summary t := by
  obtain ⟨shift, m, summary, hsplice, hsettle⟩ := edit_splice h
  exact ⟨shift, m, summary, splice_run hsplice, hsettle⟩

/-- A tidy program whose direct transfers all encode their targets. -/
def Sound (s : Session) : Prop :=
  ∃ l, s.program.Tidy l ∧ ∀ jumper ∈ l, s.program.Encodes jumper

/-- After a splice that is no removal only the jumpers named by its shift are left to be written. -/
theorem SpliceRun.unsettled {edit : Edit} {shift : Shift} (h : SpliceRun s edit shift t)
    (hkind : edit.removes = false) (hs : Sound s) :
    ∃ l, t.program.Tidy l ∧ Unsettled t l shift.edited := by
  obtain ⟨l, htidy, hencodes⟩ := hs
  cases h with
  | before run =>
    obtain ⟨found, hfound⟩ := spliceBefore_present run
    obtain ⟨xs, ys, rfl⟩ := List.append_of_mem (htidy.mem_of_get? hfound)
    exact spliceBefore_unsettled htidy hencodes run
  | after run =>
    obtain ⟨found, hfound⟩ := spliceBefore_present run
    obtain ⟨xs, ys, rfl⟩ := List.append_of_mem (htidy.mem_of_get? hfound)
    exact spliceBefore_unsettled htidy hencodes run
  | behind run =>
    obtain ⟨found, hfound⟩ := appendAfter_present run
    obtain ⟨xs, ys, rfl⟩ := List.append_of_mem (htidy.mem_of_get? hfound)
    exact appendAfter_unsettled htidy hencodes run
  | instead run =>
    obtain ⟨found, hfound⟩ := spliceInstead_present run
    obtain ⟨xs, ys, rfl⟩ := List.append_of_mem (htidy.mem_of_get? hfound)
    exact spliceInstead_unsettled htidy hencodes run
  | out => cases hkind
  | resized run =>
    rename_i id bytes opcodeSize delta
    obtain ⟨_, -, rfl, rfl⟩ := shiftBehind_ok run
    -- other bytes concern no jumper but itself until the code behind it is shifted
    have hcarries : Session.Carries s (s.withChain (s.program.chain.adjust
        (Chain.only id fun instr => { instr with bytes := bytes, opcodeSize := opcodeSize }))) := by
      refine Session.carries_withChain fun x i => ?_
      unfold Chain.only
      split <;> exact ⟨rfl, rfl, rfl, rfl, rfl, rfl, rfl, rfl⟩
    refine ⟨l, htidy.carry hcarries, fun jumper hjumper => ?_⟩
    by_cases hid : jumper = id
    · exact .inr (List.mem_singleton.mpr hid)
    · exact .inl (encodes_of_ne (fun _ => ⟨rfl, rfl⟩) hid (hencodes jumper hjumper))

/-- No edit but a removal leaves a jumper with the way to somewhere else. -/
theorem edit_sound {edit : Edit} {u : Unit} (hkind : edit.removes = false) (hs : Sound s)
    (h : edit.run s = .ok u t) : Sound t := by
  obtain ⟨shift, m, summary, hsplice, hsettle⟩ := edit_ok h
  obtain ⟨l, htidy, hpending⟩ := hsplice.unsettled hkind hs
  exact ⟨l, htidy.carry (Session.Carries.updateRelation.settle hsettle),
    settle_encodes htidy.spells htidy.listed hsettle hpending⟩

/-- Edits that remove nothing keep the displacements right, one after the other: each leaves what the next
one asks for. -/
theorem edits_sound {edits : List Edit} {u : Unit} (hkinds : ∀ edit ∈ edits, edit.removes = false)
    (hs : Sound s) (h : edits.forM Edit.run s = .ok u t) : Sound t := by
  induction edits generalizing s with
  | nil =>
    rw [forM_nil_ok] at h
    exact h ▸ hs
  | cons edit edits ih =>
    obtain ⟨m, hedit, hrest⟩ := forM_cons_ok.mp h
    exact ih (fun e he => hkinds e (List.mem_cons_of_mem _ he))
      (edit_sound (hkinds edit (List.mem_cons_self ..)) hs hedit) hrest

end EngineM

/-! ## A program with a jump

The theorems about edits are about programs in which a good deal holds; `hop` is one of them: a
function that jumps over one of its instructions. -/

/-- A jump over one instruction, and the instruction that it lands on. -/
def hop : Session where
  program :=
    { arch := .x86_64
      chain := .ofList
        [{ Instruction.decoded 0 [0xEB, 0x01] 1 .jump with
            sec := 1, target := some ⟨2⟩, func := some ⟨0⟩ },
          { Instruction.decoded 2 [0x90] 1 .nop with sec := 1, func := some ⟨0⟩ },
          { Instruction.decoded 3 [0x90] 1 .nop with
            sec := 1, targetedBy := [⟨0⟩], func := some ⟨0⟩ }]
      functions := ⟨#[{ Function.declared "hop" 1 (some (⟨0⟩, ⟨2⟩)) 0 with size := 4 }]⟩
      symbols := default
      graph := none
      redirects := .empty
      warnings := []
      config := ⟨8, true, true, false⟩
      version := ⟨0, "base"⟩
      bases := [(1, 0)] }
  recorder := .empty

theorem hop_wellFormed : hop.program.chain.WellFormed := (Chain.spells_ofList _).wellFormed

/-- The jump over an instruction is coherent. -/
theorem hop_coherent : hop.program.Coherent where
  wellFormed := hop_wellFormed
  attached := Chain.attached_ofList _
  keyed := ⟨by decide, by decide⟩
  acyclic := Redirects.acyclic_empty
  linked := fun _ h => (List.not_mem_nil h).elim
  references := rfl
  displacements := rfl

theorem Program.Coherent.sound {s : Session} (h : s.program.Coherent) : EngineM.Sound s :=
  ⟨_, h.tidy, verifyDisplacements_ok.mp h.displacements⟩

/-- After any sequence of edits other than removals, every direct transfer within a section encodes
the address of the instruction on which it lands. -/
theorem verifyDisplacements_of_edits {s t : Session} {edits : List Edit} {u : Unit}
    (hs : s.program.Coherent) (hkinds : ∀ edit ∈ edits, edit.removes = false)
    (h : edits.forM Edit.run s = .ok u t) :
    t.program.verifyDisplacements = .ok ()
      ∧ ∀ jumper source logical physical, t.program.chain.isLinked jumper = true →
        t.program.chain.get? jumper = some source → source.isDirectTransfer = true →
        source.target = some logical →
        t.program.chain.get? (t.program.redirects.resolve jumper logical) = some physical →
        physical.sec = source.sec → source.encodedTarget? = some physical.addr := by
  obtain ⟨l, htidy, hencodes⟩ := EngineM.edits_sound hkinds hs.sound h
  refine ⟨Program.verifyDisplacements_ok.mpr fun jumper hjumper => ?_, ?_⟩
  · rw [htidy.spells.ids_eq] at hjumper
    exact hencodes jumper hjumper
  · intro jumper source logical physical hlinked hsource hdirect htarget hphysical hsec
    have hmem := htidy.spells.isLinked_iff.mp hlinked
    obtain ⟨found, hfound, hway⟩ := hencodes jumper hmem source logical hsource htarget hdirect
    rw [hphysical, Option.some.injEq] at hfound
    subst hfound
    exact hway hsec

/-- Each kind of edit but the removal once, the last of which makes the jump too far for one byte. -/
theorem verifyDisplacements_of_edits_hop : ∃ t,
    hop.program.Coherent
      ∧ [Edit.insertBefore ⟨2⟩ (.synthetic [0x90] 1 .nop) .inserted,
          .insertAfter ⟨0⟩ (.synthetic [0x90] 1 .nop),
          .substitute ⟨1⟩ [.synthetic [0x90] 1 .nop, .synthetic [0x90] 1 .nop],
          .resize ⟨4⟩ (List.replicate 200 0x90) 1 199].forM Edit.run hop = .ok () t
      ∧ t.program.verifyDisplacements = .ok () := by
  have hrun : Succeeds ([Edit.insertBefore ⟨2⟩ (.synthetic [0x90] 1 .nop) .inserted,
      .insertAfter ⟨0⟩ (.synthetic [0x90] 1 .nop),
      .substitute ⟨1⟩ [.synthetic [0x90] 1 .nop, .synthetic [0x90] 1 .nop],
      .resize ⟨4⟩ (List.replicate 200 0x90) 1 199].forM Edit.run) hop = true := by
    decide +kernel
  obtain ⟨_, h⟩ := Succeeds.ok hrun
  exact ⟨_, hop_coherent, h, (verifyDisplacements_of_edits hop_coherent (by decide) h).1⟩

end Splice
