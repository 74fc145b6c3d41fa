import Splice.Proofs.Chain.CrossReferences
import Splice.Proofs.Chain.ShortJumps
import Splice.Proofs.Program.Agreement
import Splice.Proofs.Program.Edits
import Splice.Proofs.Redirects.Sources

/-!
# The jumpers that moved code affects

When code moves, the displacements of the jumpers that move or land on it have to be written
anew. `jumpersInto` looks for them where the redirects come from: it asks the landing and all of
its sources for their jumpers. What it needs of the program is little. Where linked jumpers are
listed by what they refer to (`Chain.ListsJumpers`) and nothing but present instructions is
redirected, it has an answer (`jumpersInto_succeeds`), and no direct transfer that moves or lands
on what moves is missing from it (`jumpersInto_by_sources`). Cycles in the redirects do no harm.

> `jumpersInto_by_sources`: in every state that is reached, the index mirrors the redirects, the
> search for sources ends and finds exactly what leads to a place, and the jumpers
> collected for moved code include all that move or land on what moves, each once.
-/

namespace Splice

/-- Whatever a linked instruction refers to lists it as a jumper, as far as it is present. -/
def Chain.ListsJumpers (chain : Chain) : Prop :=
  ∀ jumper source, chain.isLinked jumper = true → chain.get? jumper = some source →
    ∀ target ∈ source.references, ∀ found, chain.get? target = some found →
      jumper ∈ found.targetedBy

/-- Records that list each other stay complete: what an instruction refers to knows of it, if it is
present. -/
theorem Chain.Listed.listsJumpers {chain : Chain} {l : List InstrId} (h : chain.Listed l)
    (hl : chain.Spells l) : chain.ListsJumpers := by
  intro jumper source hlinked hsource target htarget found hfound
  obtain ⟨-, found', hfound', hlisted⟩ := h jumper (hl.isLinked_iff.mp hlinked) source hsource target htarget
  rw [hfound, Option.some.injEq] at hfound'
  exact hfound' ▸ hlisted

namespace Program

variable {program : Program} {moved affected : List InstrId} {id : InstrId}

/-- Collecting what lands on an instruction succeeds: what is redirected to it is present, so its jumpers
can be read. -/
theorem jumpersOnto_succeeds
    (hredirected : ∀ entry ∈ program.redirects.targets, program.chain.contains entry.1 = true)
    (hid : program.chain.contains id = true) : ∃ onto, program.jumpersOnto id = .ok onto := by
  have hpresent : ∀ logical ∈ id :: program.redirects.sourcesOf id,
      ∃ found, program.chain.get? logical = some found := by
    intro logical hlogical
    rw [← Chain.contains_iff_get?]
    rcases List.mem_cons.mp hlogical with rfl | hsource
    · exact hid
    · obtain ⟨entry, hentry, rfl⟩ := List.mem_map.mp (Redirects.mem_keys_of_mem_sourcesOf hsource)
      exact hredirected entry hentry
  have hlists : ∀ logical ∈ id :: program.redirects.sourcesOf id, ∃ jumpers,
      (do return (← program.chain.get logical).targetedBy.filter fun jumper =>
        program.redirects.resolve jumper logical == id : Except ChainError (List InstrId))
      = .ok jumpers := by
    intro logical hlogical
    obtain ⟨found, hfound⟩ := hpresent logical hlogical
    exact ⟨_, bind_eq_ok.mpr ⟨found, Chain.get_ok.mpr hfound, rfl⟩⟩
  obtain ⟨instr, hinstr⟩ := hpresent id (List.mem_cons_self ..)
  obtain ⟨landing, hlanding, -⟩ := mapM_succeeds hlists
  exact ⟨_, bind_eq_ok.mpr ⟨instr, Chain.get_ok.mpr hinstr, bind_eq_ok.mpr ⟨landing, hlanding, rfl⟩⟩⟩

theorem jumpersInto_succeeds
    (hredirected : ∀ entry ∈ program.redirects.targets, program.chain.contains entry.1 = true)
    (hmoved : ∀ id ∈ moved, program.chain.contains id = true) :
    ∃ affected, program.jumpersInto moved = .ok affected := by
  obtain ⟨lists, hlists, -⟩ := mapM_succeeds fun id hid => jumpersOnto_succeeds hredirected (hmoved id hid)
  exact ⟨_, bind_eq_ok.mpr ⟨lists, hlists, rfl⟩⟩

/-- No jumper is collected twice, so none is encoded twice in one round. -/
theorem nodup_jumpersInto (h : program.jumpersInto moved = .ok affected) : affected.Nodup := by
  simp only [jumpersInto, bind_eq_ok, pure_eq_ok] at h
  obtain ⟨lists, -, rfl⟩ := h
  exact EngineM.nodup_eraseDups _

/-- Whatever is done to redirects, their index lists each logical target once, under the place that it is
redirected to now, and nothing else; going by it, the search for sources ends with what leads to
a place in one or more redirects, each once. So where linked jumpers are listed by what they refer
to and only present instructions are redirected, the jumpers that moved code affects are found,
each once, and none is missing that moves or whose landing moves. -/
theorem jumpersInto_by_sources :
    (∀ r : IndexedRedirects, r.Reached →
        (∀ logical, r.sources.placesOf logical = (r.targetOf? logical).toList)
          ∧ ∀ physical, ∃ found,
            (∀ steps, r.targets.length < steps → r.sourcesOf? steps physical = some found)
              ∧ found.Nodup ∧ (∀ logical, logical ∈ found ↔ r.Leads logical physical)
              ∧ found.Perm (r.sourcesOf physical))
      ∧ ∀ (program : Program) (moved : List InstrId), program.chain.ListsJumpers →
        (∀ entry ∈ program.redirects.targets, program.chain.contains entry.1 = true) →
        (∀ id ∈ moved, program.chain.isLinked id = true) →
        ∃ affected, program.jumpersInto moved = .ok affected ∧ affected.Nodup
          ∧ ∀ jumper source, program.chain.isLinked jumper = true →
            program.chain.get? jumper = some source → source.isDirectTransfer = true →
            (jumper ∈ moved ∨ ∃ logical, source.target = some logical
              ∧ program.redirects.resolve jumper logical ∈ moved) →
            jumper ∈ affected := by
  constructor
  · intro r hreached
    have hr := hreached.mirrored
    refine ⟨hr.mirrors.placesOf hr.keyed.targets, fun physical => ?_⟩
    obtain ⟨found, hsearch, hperm⟩ := hr.sourcesOf?_eq physical
    refine ⟨found, hsearch, hperm.nodup_iff.mpr (hr.keyed.nodup_sourcesOf physical), fun logical => ?_, hperm⟩
    rw [hperm.mem_iff, hr.keyed.mem_sourcesOf_iff]
  · intro program moved hlists hredirected hmoved
    have hpresent : ∀ id ∈ moved, program.chain.contains id = true := fun id hid =>
      (Chain.isLinked_iff.mp (hmoved id hid)).1
    obtain ⟨affected, haffected⟩ := jumpersInto_succeeds hredirected hpresent
    refine ⟨affected, haffected, nodup_jumpersInto haffected, ?_⟩
    intro jumper source hlinked hsource hdirect
    exact mem_jumpersInto_of_listed hsource hdirect (hlists jumper source hlinked hsource) haffected

/-- i1 was redirected to i2 and i3 to i1, and then i1 to i3: what is listed under i2 is gone. -/
def roundabout : IndexedRedirects where
  targets := [(⟨3⟩, ⟨1⟩), (⟨1⟩, ⟨3⟩)]
  jumpers := []
  log := [⟨.target, ⟨1⟩, none, some ⟨2⟩⟩, ⟨.target, ⟨3⟩, none, some ⟨1⟩⟩,
    ⟨.target, ⟨1⟩, some ⟨2⟩, some ⟨3⟩⟩]
  sources := ⟨[(⟨1⟩, [⟨3⟩]), (⟨3⟩, [⟨1⟩])]⟩

theorem roundabout_reached : roundabout.Reached :=
  .redirect (.redirect (.redirect .empty ⟨1⟩ ⟨2⟩ rfl) ⟨3⟩ ⟨1⟩ rfl) ⟨1⟩ ⟨3⟩ rfl

/-- The jump over an instruction, made to land on that instruction. -/
def hopDropped : Program := { hop.program with redirects := ⟨[(⟨2⟩, ⟨1⟩)], [], []⟩ }

theorem hopDropped_lists : hopDropped.chain.ListsJumpers :=
  (verifyReferences_listed hop_wellFormed.spells (by decide +kernel)).listsJumpers hop_wellFormed.spells

/-- On the roundabout i1 is a source of itself. The jump is affected if what it lands on moves. -/
theorem jumpersInto_by_sources_roundabout :
    roundabout.Reached ∧ roundabout.sources.placesOf ⟨1⟩ = [⟨3⟩]
      ∧ (∃ found, roundabout.sourcesOf? 3 ⟨1⟩ = some found ∧ found.Nodup ∧ ⟨1⟩ ∈ found)
      ∧ hopDropped.chain.ListsJumpers
      ∧ (∀ entry ∈ hopDropped.redirects.targets, hopDropped.chain.contains entry.1 = true)
      ∧ (∀ id ∈ [⟨1⟩], hopDropped.chain.isLinked id = true)
      ∧ ∃ affected, hopDropped.jumpersInto [⟨1⟩] = .ok affected ∧ affected.Nodup ∧ ⟨0⟩ ∈ affected := by
  have hredirected : ∀ entry ∈ hopDropped.redirects.targets, hopDropped.chain.contains entry.1 = true := by
    decide
  have hmoved : ∀ id ∈ [⟨1⟩], hopDropped.chain.isLinked id = true := by decide
  obtain ⟨hlisted, hsearch⟩ := jumpersInto_by_sources.1 roundabout roundabout_reached
  obtain ⟨found, hfound, hnodup, hmem, -⟩ := hsearch ⟨1⟩
  have hround : roundabout.Leads ⟨1⟩ ⟨1⟩ :=
    .tail (.single (show roundabout.targetOf? ⟨1⟩ = some ⟨3⟩ by decide)) (by decide)
  obtain ⟨affected, haffected, honce, hcomplete⟩ :=
    jumpersInto_by_sources.2 hopDropped [⟨1⟩] hopDropped_lists hredirected hmoved
  refine ⟨roundabout_reached, hlisted ⟨1⟩, ⟨found, hfound 3 (by decide), hnodup, (hmem ⟨1⟩).mpr hround⟩,
    hopDropped_lists, hredirected, hmoved, affected, haffected, honce, ?_⟩
  exact hcomplete ⟨0⟩ _ (by decide) rfl (by decide) (.inr ⟨⟨2⟩, rfl, by decide⟩)

end Program

end Splice
