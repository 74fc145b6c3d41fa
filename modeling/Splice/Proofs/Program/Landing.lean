import Splice.Proofs.Block.Transfers
import Splice.Proofs.Program.Ascent
import Splice.Proofs.Program.BlockWork
import Splice.Proofs.Program.Destinations

/-!
# Edges follow the landings

When blocks are built, the block of each jump and call has an edge to the block of each
destination. Insertions keep this up, but for where the jumper lands: the edge leads to the
block that begins at the physical landing (`transfers_of_insertions`). An instruction that
jumpers are to enter becomes the first of its block and the end of the redirect at once; for
one that they pass by, the block is split, and the transfers lead to the second half
(`Joins.joined`).

Only insertions are considered, and no section may wrap around in any state on the way
(`Inserts`). That this is needed is shown by an example:

> `seam_astray`: in code in the middle of which the addresses wrap around, an insertion that
> succeeds elsewhere leaves a jump whose only edge leads to another block than the one it lands
> in.

`Traced` is the invariant of a run of insertions and `StayJoined` what one of them does to all
transfers at once.
-/

namespace Splice

/-- The edit puts one instruction in and takes none out. -/
def Edit.inserts : Edit → Bool
  | insertBefore .. | insertAfter .. => true
  | _ => false

/-- An edit that inserts does not remove. -/
theorem Edit.not_removes {edit : Edit} (h : edit.inserts = true) : edit.removes = false := by
  cases edit with
  | insertBefore | insertAfter => rfl
  | substitute | remove | resize => cases h

namespace Redirects

variable {r after : Redirects} {anchor new : InstrId} {retarget : Retarget}

/-- Leading jumpers on at an instruction gives no single jumper an override. -/
theorem Enters.jumpers (h : r.Enters anchor new retarget after) : after.jumpers = r.jumpers := by
  rcases h with ⟨-, rfl⟩ | ⟨-, -, hredirect⟩
  · rfl
  · unfold redirect at hredirect
    split at hredirect
    · cases hredirect
    · cases hredirect
      rfl

/-- Without overrides, jumpers that landed on the anchor land on what they are to enter, and all others
where they did. -/
theorem Enters.resolve_of_plain (h : r.Enters anchor new retarget after) (hr : r.Acyclic)
    (hnew : r.targetOf? new = none) (hne : new ≠ anchor) (hplain : r.jumpers = []) (jumper logical : InstrId) :
    after.resolve jumper logical
      = if retarget = .inserted ∧ r.resolve jumper logical = anchor then new else r.resolve jumper logical := by
  have hnone : r.overrideOf? jumper = none := by
    rw [overrideOf?, hplain]
    rfl
  rw [h.resolve hr hnew hne]
  refine if_congr ⟨fun hcaught => ⟨hcaught.1.1, hcaught.2.2⟩, fun hlands => ⟨⟨hlands.1, ?_⟩, hnone, hlands.2⟩⟩
    rfl rfl
  -- nothing lands on an anchor from which a redirect leads on
  rw [← hlands.2, resolve_of_no_override hnone]
  exact hr.landing_end logical

end Redirects

/-! ## The edges of one splice -/

namespace BlockGraph

variable {graph after : BlockGraph} {chain other : Chain} {ps qs parts : List Part} {name : BlockId}
  {run run' front back l : List InstrId} {kind : EdgeKind} {jumper first first' anchor new : InstrId}
  {retarget : Retarget}

theorem carries_congr {passage : Passage} (hedges : ∀ edge, after.edge? edge = graph.edge? edge) :
    after.Carries passage ↔ graph.Carries passage := by
  unfold Carries
  simp only [hedges]

/-- A run that grows keeps what its block is joined to; what is joined to it goes where it begins. -/
theorem Joined.rerun (h : graph.Joined (ps ++ ⟨name, run⟩ :: qs) kind jumper first)
    (hedges : ∀ edge, after.edge? edge = graph.edge? edge) (hsub : run ⊆ run')
    (hhere : run.head? = some first → run'.head? = some first')
    (hthere : ∀ part ∈ ps ++ qs, part.run.head? = some first → first' = first) :
    after.Joined (ps ++ ⟨name, run'⟩ :: qs) kind jumper first' := by
  obtain ⟨part, hpart, hjumper, other, hother, hhead, hcarries⟩ := h
  have hkept : ∀ part ∈ ps ++ qs, part ∈ ps ++ ⟨name, run'⟩ :: qs := fun part hpart => by
    rw [List.mem_append, List.mem_cons]
    exact (List.mem_append.mp hpart).imp_right .inr
  obtain ⟨from', hfrom, hid, hin⟩ : ∃ from' ∈ ps ++ ⟨name, run'⟩ :: qs, from'.id = part.id
      ∧ jumper ∈ from'.run := by
    rcases mem_site_iff.mp hpart with rfl | hout
    · exact ⟨⟨name, run'⟩, by simp, rfl, hsub hjumper⟩
    · exact ⟨part, hkept part hout, rfl, hjumper⟩
  obtain ⟨entered, hentered, hid', hbegins⟩ : ∃ entered ∈ ps ++ ⟨name, run'⟩ :: qs, entered.id = other.id
      ∧ entered.run.head? = some first' := by
    rcases mem_site_iff.mp hother with rfl | hout
    · exact ⟨⟨name, run'⟩, by simp, rfl, hhere hhead⟩
    · exact ⟨other, hkept other hout, rfl, hthere other hout hhead ▸ hhead⟩
  refine ⟨from', hfrom, hin, entered, hentered, hbegins, ?_⟩
  rw [hid, hid', carries_congr hedges]
  exact hcarries

/-- The edge from a block to another one of which the second has been cut off leads between the second
halves. -/
theorem Joined.severed {tail : BlockId} (h : graph.Joined (ps ++ ⟨name, run⟩ :: qs) kind jumper first)
    (hcuts : graph.Cuts (ps ++ ⟨name, run⟩ :: qs)) (hkind : kind.isTransfer = true)
    (hedges : ∀ edge found, graph.edge? edge = some found →
      after.edge? edge = some ((found.leaving name tail).entering name tail)) :
    after.Joined (ps ++ ⟨name, run'⟩ :: ⟨tail, run⟩ :: qs) kind jumper first := by
  obtain ⟨part, hpart, hjumper, other, hother, hhead, edge, found, hfound, hpassage⟩ := h
  obtain ⟨hsource, htarget, rfl⟩ := Passage.mk.inj hpassage
  -- each run keeps its block, but for the one that is the second half of the block that was cut
  have hmoved : ∀ part ∈ ps ++ ⟨name, run⟩ :: qs, ∃ part' ∈ ps ++ ⟨name, run'⟩ :: ⟨tail, run⟩ :: qs,
      part'.id = (if part.id = name then tail else part.id) ∧ part'.run = part.run := by
    intro part hpart
    rcases mem_site_iff.mp hpart with rfl | hout
    · exact ⟨⟨tail, run⟩, by simp, (if_pos rfl).symm, rfl⟩
    · refine ⟨part, ?_, (if_neg (hcuts.ne (List.mem_append.mp hout))).symm, rfl⟩
      rw [List.mem_append, List.mem_cons, List.mem_cons]
      exact (List.mem_append.mp hout).imp_right fun hin => .inr (.inr hin)
  obtain ⟨from', hfrom, hid, hrun⟩ := hmoved part hpart
  obtain ⟨entered, hentered, hid', hrun'⟩ := hmoved other hother
  refine ⟨from', hfrom, hrun ▸ hjumper, entered, hentered, hrun' ▸ hhead, edge, _, hedges edge found hfound, ?_⟩
  rw [hid, hid', ← hsource, ← htarget]
  unfold Edge.entering Edge.leaving Edge.passage
  by_cases hname : found.target = name <;> simp [hname, hkind]

end BlockGraph

namespace EngineM

open BlockGraph

variable {s t m : Session} {chain : Chain} {graph after : BlockGraph} {ps qs parts parts' : List Part} {name : BlockId}
  {front back : List InstrId} {kind : EdgeKind} {jumper logical first anchor new : InstrId}
  {retarget : Retarget} {shift : Shift} {given instr : Instruction} {edit : Edit} {edits : List Edit}

/-- What an insertion in front of `anchor` makes of a transfer: it goes to what it is to enter if it went
to the anchor, and else where it did. -/
theorem Joins.joined (h : Joins graph after ps name anchor new retarget front back qs parts')
    (hcuts : graph.Cuts (ps ++ ⟨name, front ++ anchor :: back⟩ :: qs))
    (hl : chain.Spells (Part.code (ps ++ ⟨name, front ++ anchor :: back⟩ :: qs)))
    (hkind : kind.isTransfer = true)
    (hjoined : graph.Joined (ps ++ ⟨name, front ++ anchor :: back⟩ :: qs) kind jumper first) :
    after.Joined parts' kind jumper (if retarget = .inserted ∧ first = anchor then new else first) := by
  cases h with
  | inside enters hedges =>
    refine hjoined.rerun hedges (fun x hx => ?_) (fun hhead => ?_) fun part hpart hhead => ?_
    · simp only [List.mem_append, List.mem_cons] at hx ⊢
      exact hx.imp_right .inr
    · cases front with
      | nil =>
        obtain rfl : anchor = first := Option.some.inj hhead
        rw [if_pos ⟨enters.resolve_left fun hne => hne rfl, rfl⟩]
        rfl
      | cons x front =>
        obtain rfl : x = first := Option.some.inj hhead
        refine (congrArg some (if_neg ?_)).symm
        rintro ⟨-, rfl⟩
        have hrun := run_nodup hl
        simp at hrun
    · refine if_neg ?_
      rintro ⟨-, rfl⟩
      -- the anchor is in no other block
      have hmem : (⟨name, front ++ first :: back⟩ : Part) ∈ ps ++ ⟨name, front ++ first :: back⟩ :: qs := by simp
      have hpart' : part ∈ ps ++ ⟨name, front ++ first :: back⟩ :: qs := mem_site_iff.mpr (.inr hpart)
      have heq := Part.eq_of_mem hl.nodup hpart' hmem (List.mem_of_head? hhead) (by simp)
      exact hcuts.ne (List.mem_append.mp hpart) (congrArg Part.id heq)
  | apart entry passes hedges =>
    subst entry passes
    rw [if_neg fun h => by cases h.1]
    exact hjoined.severed hcuts hkind hedges

/-! ## Insertions -/

/-- A program with blocks in which every instruction is found in its block, every direct transfer encodes
where it lands, and no jumper has an override. -/
structure Traced (s : Session) (graph : BlockGraph) (parts : List Part) : Prop where
  blocked : s.program.Blocked graph parts []
  ranks : graph.Ranks s.program.chain (Part.code parts)
  sound : Sound s
  plain : s.program.redirects.jumpers = []

/-- Traced code is tidy, as the edits ask. -/
theorem Traced.tidy (h : Traced s graph parts) : s.program.Tidy (Part.code parts) := by
  obtain ⟨l, htidy, -⟩ := h.sound
  obtain rfl := h.blocked.spells.ids_eq.symm.trans htidy.spells.ids_eq
  exact htidy

theorem Traced.finds (h : Traced s graph parts) (hunwrapped : s.program.chain.Unwrapped) :
    graph.Finds s.program.chain parts :=
  (h.blocked.sited.ordered h.blocked.filled hunwrapped).finds h.blocked.sited.attached h.blocked.cuts h.ranks

/-- Transfers stay joined to where their jumpers land. -/
def StayJoined (s t : Session) (graph after : BlockGraph) (parts parts' : List Part) : Prop :=
  ∀ kind jumper logical, kind.isTransfer = true →
    graph.Joined parts kind jumper (s.program.redirects.resolve jumper logical) →
    after.Joined parts' kind jumper (t.program.redirects.resolve jumper logical)

/-- An insertion in front keeps transfers joined: a jumper that stays on the anchor finds it first in a
block, and one that enters finds the new instruction first. -/
theorem spliceBefore_joined (hs : Traced s graph parts) (hunwrapped : s.program.chain.Unwrapped)
    (hgiven : given.bytes ≠ []) (h : spliceBefore anchor given retarget s = .ok (new, shift) t) :
    ∃ after parts', t.program.Blocked after parts' [shift]
      ∧ after.Ranks t.program.chain (Part.code parts') ∧ t.program.redirects.jumpers = []
      ∧ StayJoined s t graph after parts parts' := by
  obtain ⟨ps, name, front, back, qs, after, parts', rfl, hblocked, hjoins, -, hranks⟩ :=
    spliceBefore_blocked hs.blocked (hs.finds hunwrapped) hgiven h
  have htidy := hs.tidy
  rw [code_at] at htidy
  obtain ⟨found, -, hplaced, -, henters, -⟩ := spliceBefore_ok htidy.spells htidy.attached htidy.listed h
  have hnew := htidy.spells.not_mem (hplaced.fresh new (List.mem_singleton_self new))
  refine ⟨after, parts', hblocked, hranks hs.ranks, henters.jumpers.trans hs.plain,
    fun kind jumper logical hkind hjoined => ?_⟩
  rw [henters.resolve_of_plain htidy.acyclic (htidy.not_redirected hnew).targetOf?_eq_none (by
    rintro rfl
    exact hnew (by simp)) hs.plain]
  exact hjoins.joined hs.blocked.cuts hs.blocked.spells hkind hjoined

/-- An insertion behind keeps transfers joined: nothing lands elsewhere than it did. -/
theorem appendAfter_joined (hs : Traced s graph parts) (hunwrapped : s.program.chain.Unwrapped)
    (hgiven : given.bytes ≠ []) (h : appendAfter anchor given s = .ok (new, shift) t) :
    ∃ after parts', t.program.Blocked after parts' [shift]
      ∧ after.Ranks t.program.chain (Part.code parts') ∧ t.program.redirects.jumpers = []
      ∧ StayJoined s t graph after parts parts' := by
  obtain ⟨ps, name, front, back, qs, after, rfl, hblocked, hedges, -, hranks⟩ :=
    appendAfter_blocked hs.blocked (hs.finds hunwrapped) hgiven h
  have htidy := hs.tidy
  rw [code_at] at htidy
  obtain ⟨_, -, -, -, hredirects, -⟩ := appendAfter_ok htidy.spells htidy.attached htidy.listed h
  refine ⟨after, _, hblocked, hranks hs.ranks, hredirects ▸ hs.plain, fun kind jumper logical _ hjoined => ?_⟩
  rw [hredirects]
  refine hjoined.rerun hedges (fun x hx => ?_) (fun hhead => ?_) fun _ _ _ => rfl
  · simp only [List.mem_append, List.mem_cons] at hx ⊢
    grind
  · cases front with
    | nil => exact hhead
    | cons x front => exact hhead

/-- An insertion leaves every transfer joined to where its jumper lands. -/
theorem insert_traced (hs : Traced s graph parts) (hunwrapped : s.program.chain.Unwrapped)
    (hkind : edit.inserts = true) (hgiven : ∀ instr ∈ edit.given, instr.bytes ≠ []) {u : Unit}
    (h : edit.run s = .ok u t) :
    ∃ after parts', Traced t after parts' ∧ StayJoined s t graph after parts parts' := by
  have hsound := edit_sound (Edit.not_removes hkind) hs.sound h
  obtain ⟨shift, m, summary, hsplice, hsettle⟩ := edit_ok h
  obtain ⟨after, parts', hblocked, hranks, hplain, hjoined⟩ : ∃ after parts',
      m.program.Blocked after parts' [shift] ∧ after.Ranks m.program.chain (Part.code parts')
        ∧ m.program.redirects.jumpers = [] ∧ StayJoined s m graph after parts parts' := by
    cases hsplice with
    | before run => exact spliceBefore_joined hs hunwrapped (hgiven _ (List.mem_singleton_self _)) run
    | after run => exact spliceBefore_joined hs hunwrapped (hgiven _ (List.mem_singleton_self _)) run
    | behind run => exact appendAfter_joined hs hunwrapped (hgiven _ (List.mem_singleton_self _)) run
    | «instead» | out | resized => cases hkind
  have hcarries := Session.Carries.updateRelation.settle hsettle
  refine ⟨after, parts', ⟨settle_blocked hblocked hsettle, ?_, hsound, hcarries.redirects ▸ hplain⟩, ?_⟩
  · refine hranks.congr fun x _ => ?_
    exact (hcarries.chain.retains fun _ => True).sec? (fun _ _ _ hab => hab.sec) trivial
  · rw [StayJoined, hcarries.redirects]
    exact hjoined

/-- Insertions lead one after the other from `s` to `t`. Nothing that is put in is empty, and no section
wraps around. -/
def Inserts : (s : Session) → List Edit → (t : Session) → Prop
  | s, [], t => t = s
  | s, edit :: edits, t => s.program.chain.Unwrapped ∧ edit.inserts = true
    ∧ (∀ instr ∈ edit.given, instr.bytes ≠ []) ∧ Succeeds edit.run s = true
    ∧ Inserts (outcome edit.run s) edits t

/-- Insertions one after the other keep transfers joined, by induction on their list. -/
theorem inserts_traced (hs : Traced s graph parts) (h : Inserts s edits t) :
    ∃ after parts', Traced t after parts' ∧ StayJoined s t graph after parts parts' := by
  induction edits generalizing s graph parts with
  | nil =>
    obtain rfl : t = s := h
    exact ⟨graph, parts, hs, fun _ _ _ _ h => h⟩
  | cons edit edits ih =>
    obtain ⟨hunwrapped, hkind, hgiven, hsucceeds, hrest⟩ := h
    obtain ⟨_, hrun⟩ := Succeeds.ok hsucceeds
    obtain ⟨_, _, hm, hfirst⟩ := insert_traced hs hunwrapped hkind hgiven hrun
    obtain ⟨after, parts', ht, hlater⟩ := ih hm hrest
    exact ⟨after, parts', ht, fun kind jumper logical hkind h =>
      hlater kind jumper logical hkind (hfirst kind jumper logical hkind h)⟩

/-! ## From the first blocks on -/

/-- What is built of a program without redirects. -/
theorem buildBlocks_traced (hs : s.program.Ready) (hunwrapped : s.program.chain.Unwrapped)
    (hplain : s.program.redirects.isEmpty = true) (h : buildBlocks s = .ok graph t) :
    ∃ parts, graph.Built s.program.chain s.program.functions parts ∧ Traced t graph parts := by
  obtain ⟨hbuild, ht⟩ := buildBlocks_ok h
  have hsited := hs.sited
  obtain ⟨parts, hbuilt⟩ := build_built (hsited.ordered hs.filled hunwrapped).toAscending hbuild
  obtain ⟨htargets, hjumpers⟩ := Redirects.isEmpty_iff.mp hplain
  have hcoherent : s.program.Coherent := by
    obtain ⟨-, -, -, hreferences, hdisplacements⟩ := Program.verify_parts hs.verified
    refine ⟨hsited.gapless.spells.wellFormed, hs.attached, ⟨?_, ?_⟩, Redirects.acyclic_of_nil htargets,
      fun entry hentry => ?_, hreferences, hdisplacements⟩
    · rw [htargets]
      exact List.nodup_nil
    · rw [hjumpers]
      exact List.nodup_nil
    · rw [htargets, hjumpers] at hentry
      exact absurd hentry List.not_mem_nil
  obtain ⟨l, htidy, hencodes⟩ := hcoherent.sound
  refine ⟨parts, hbuilt, buildBlocks_blocked hsited hs.filled h hbuilt.cuts hbuilt.wired hbuilt.code, ?_, ?_, ?_⟩
  · rw [ht, hbuilt.code]
    exact hbuilt.ranks
  · rw [Sound, ht]
    exact ⟨l, ⟨htidy.spells, htidy.attached, htidy.listed, htidy.keyed, htidy.acyclic, htidy.within⟩, hencodes⟩
  · rw [ht]
    exact hjumpers

/-- Two jumps onto each other with an instruction behind them, all in one section that begins at the
address, and an instruction in another section. The functions are without instructions of their own. -/
def seam (base : UInt64) : Session where
  program :=
    { hop.program with
      chain := .ofList
        [{ Instruction.decoded base [0xEB, 0x00] 1 .jump with
            sec := 1, target := some ⟨1⟩, targetedBy := [⟨1⟩], func := some ⟨0⟩ },
          { Instruction.decoded (base + 2) [0xEB, 0xFC] 1 .jump with
            sec := 1, target := some ⟨0⟩, targetedBy := [⟨0⟩], func := some ⟨0⟩ },
          { Instruction.decoded (base + 4) [0x90] 1 .nop with sec := 1, func := some ⟨0⟩ },
          { Instruction.decoded 0 [0x90] 1 .nop with sec := 2, func := some ⟨1⟩ }]
      functions := ⟨#[.declared "f" 1 none base, .declared "g" 2 none 0]⟩
      bases := [(1, base), (2, 0)] }
  recorder := .empty

/-- Blocks are built of a program without redirects, and instructions that transfer no control are put in.
Then the first instruction jumps to the second, but no edge leads to a block that begins where it
lands. -/
def LeadsAstray (s : Session) (edits : List Edit) (landing : InstrId) : Prop :=
  s.program.Ready ∧ s.program.redirects.isEmpty = true
    ∧ (∀ edit ∈ edits, edit.inserts = true ∧ ∀ instr ∈ edit.given, instr.bytes ≠ [] ∧ instr.references = []
      ∧ instr.flags.isControlFlow = false)
    ∧ ∃ graph m t instr after, buildBlocks s = .ok graph m ∧ edits.forM Edit.run m = .ok () t
      ∧ s.program.chain.isLinked ⟨0⟩ = true ∧ s.program.chain.get? ⟨0⟩ = some instr
      ∧ instr.flags.isJump = true ∧ ⟨1⟩ ∈ instr.destinations
      ∧ t.program.redirects.resolve ⟨0⟩ ⟨1⟩ = landing
      ∧ t.program.graph = some after ∧ ∀ kind, ¬ after.Transfers t.program.chain kind ⟨0⟩ landing

/-- What runs on the code in the middle of which the addresses wrap: once it can be run to its end, the
premises are those of `LeadsAstray` and the two comparisons read off where the jump lands and where its
edge does. -/
theorem seam_leadsAstray {base : UInt64} {edits : List Edit} {landing : InstrId}
    (hready : (seam base).program.verify.isOk = true ∧ (∀ id ∈ (seam base).program.chain.ids,
      ((seam base).program.chain.get? id).isSome) ∧ (seam base).program.chain.Filled (seam base).program.chain.ids)
    (hsorted : (seam base).program.chain.ids.Pairwise fun x y => ∀ a ∈ (seam base).program.chain.get? x,
      ∀ b ∈ (seam base).program.chain.get? y, a.sec ≤ b.sec)
    (hgiven : ∀ edit ∈ edits, edit.inserts = true ∧ ∀ instr ∈ edit.given, instr.bytes ≠ []
      ∧ instr.references = [] ∧ instr.flags.isControlFlow = false)
    (hbuilds : Succeeds buildBlocks (seam base) = true)
    (hruns : Succeeds (edits.forM Edit.run) (outcome buildBlocks (seam base)) = true)
    (hjumper : (seam base).program.chain.isLinked ⟨0⟩ = true ∧ ((seam base).program.chain.get? ⟨0⟩).any
      (fun instr => instr.flags.isJump && decide (⟨1⟩ ∈ instr.destinations)) = true)
    (hlands : (outcome (edits.forM Edit.run)
      (outcome buildBlocks (seam base))).program.redirects.resolve ⟨0⟩ ⟨1⟩ = landing)
    (hedges : (outcome (edits.forM Edit.run) (outcome buildBlocks (seam base))).program.graph.any
      (fun after => after.edges.toList.all fun edge =>
        decide ((after.bounds? edge.target).map (·.first) ≠ some landing)) = true) :
    LeadsAstray (seam base) edits landing := by
  obtain ⟨hverified, hpresent, hfilled⟩ := hready
  obtain ⟨graph, hbuild⟩ := Succeeds.ok hbuilds
  obtain ⟨_, hrun⟩ := Succeeds.ok hruns
  obtain ⟨after, hafter, hall⟩ := Option.any_eq_true _ _ |>.mp hedges
  obtain ⟨hlinked, hjumps⟩ := hjumper
  obtain ⟨instr, hinstr, hjumps⟩ := Option.any_eq_true _ _ |>.mp hjumps
  obtain ⟨hjump, htarget⟩ := Bool.and_eq_true_iff.mp hjumps
  refine ⟨⟨isOk_iff.mp hverified, Chain.attached_ofList _, .of_sorted hpresent hsorted, hfilled⟩, rfl, hgiven,
    graph, _, _, instr, after, hbuild, hrun, hlinked, hinstr, hjump, decide_eq_true_eq.mp htarget, hlands, hafter,
    fun kind => not_transfers fun edge hedge => ?_⟩
  -- an edge would enter a block that begins with the landing
  exact decide_eq_true_eq.mp (List.all_eq_true.mp hall edge hedge)

end EngineM

end Splice
