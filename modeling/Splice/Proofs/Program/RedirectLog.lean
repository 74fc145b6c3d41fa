import Mathlib.Data.List.Induction
import Splice.Proofs.Program.Edits
import Splice.Proofs.Redirects.Log

/-!
# The log of the redirects and the edits

An insertion leaves the redirects alone, or it redirects its anchor by a call that is logged. A
substitution and a removal put another instruction in the place of one that is gone, in the
redirects too, and write nothing about it (`edit_redirects`). So along any calls and edits the log
tells how the redirects came about exactly as long as no edit takes out an instruction that they
take notice of, and all that it does not tell is what was put in the place of what
(`log_along_works`).

A log is compared with the maps it tells about by replaying it (`Splice.Proofs.Redirects.Log`).
`Redirects.Step` lists how the redirects change at a time: not at all, by a call, or by one
instruction taking the place of another. The last one is not logged, and the statement says that
nothing else is missing.
-/

namespace Splice

/-- The instruction that the edit takes out of the program. -/
def Edit.takesOut? : Edit → Option InstrId
  | substitute old _ => some old
  | remove id => some id
  | insertBefore .. | insertAfter .. | resize .. => none

/-! ## One edit -/

/-- How the redirects change at a time: they stay as they are, a call is made, or an instruction takes the
place of one that is taken out. -/
inductive Redirects.Step (r : Redirects) : Option InstrId → Redirects → Prop where
  | kept : r.Step none r
  | called (made : RedirectCall) : r.Step none (r.call made)
  | replaced {old new : InstrId} (hne : old ≠ new) : r.Step (some old) (r.replace old new)

namespace Redirects.Step

variable {start r after : Redirects} {taken : Option InstrId}

/-- No step gives two targets to one instruction. -/
theorem keyed (h : r.Step taken after) (hkeys : r.Keyed) : after.Keyed := by
  cases h with
  | kept => exact hkeys
  | called made => exact hkeys.call made
  | replaced => exact .replace r _ _

/-- Where everything was logged, it still is exactly if the redirects take no notice of what is taken
out. -/
theorem logged_iff (h : r.Step taken after) (hkeys : r.Keyed) (hstart : start.Logged r) :
    start.Logged after ↔ ∀ id, taken = some id → r.Ignores id := by
  cases h with
  | kept => exact iff_of_true hstart nofun
  | called made => exact iff_of_true (hstart.trans (logged_call made)) nofun
  | replaced hne =>
    rw [logged_replace_iff hkeys hne hstart]
    simp

/-- What a step takes out goes in front of what the rest takes out, and the log accounts for both. -/
theorem accounted {last : Redirects} {rest : List (InstrId × InstrId)} (h : r.Step taken after)
    (hrest : after.Accounted rest last) :
    ∃ replaced, r.Accounted replaced last ∧ replaced.map (·.1) = taken.toList ++ rest.map (·.1) := by
  cases h with
  | kept => exact ⟨rest, hrest, rfl⟩
  | called made => exact ⟨rest, (logged_call made).accounted hrest, rfl⟩
  | @replaced old new _ => exact ⟨(old, new) :: rest, .replaced (.refl r) hrest, rfl⟩

end Redirects.Step

/-- Collecting the jumpers of an instruction fails if that is absent. -/
theorem Program.jumpersInto_present {program : Program} {id : InstrId} {affected : List InstrId}
    (h : program.jumpersInto [id] = .ok affected) : ∃ instr, program.chain.get? id = some instr := by
  simp only [jumpersInto, bind_eq_ok] at h
  obtain ⟨_, honto, -⟩ := h
  obtain ⟨_, -, hrun⟩ := exists_of_mapM_eq_ok honto (List.mem_singleton.mpr rfl)
  simp only [jumpersOnto, bind_eq_ok, Chain.get_ok] at hrun
  obtain ⟨instr, hinstr, -⟩ := hrun
  exact ⟨instr, hinstr⟩

namespace EngineM

variable {s t : Session} {anchor old id new : InstrId} {ids : List InstrId} {given : Instruction} {u : Unit}

/-- An insertion in front makes at most one call, that of the redirect. -/
theorem spliceBefore_step {retarget : Retarget} {shift : Shift}
    (h : spliceBefore anchor given retarget s = .ok (new, shift) t) :
    s.program.redirects.Step none t.program.redirects := by
  obtain ⟨found, block, c₁, s₂, s₄, entering, s₅, -, -, -, hlink, hextend, henter, ht, -⟩ := spliceBefore_run h
  obtain ⟨c₂, rfl, -⟩ := linkInserted_ok hlink
  have hs₄ : s₄.program.redirects = s.program.redirects := by
    rw [(forBlock_regraphed (fun _ => extendBlockBefore_regraphed) hextend).sameCode.redirects,
      redirects_withOwner]
    rfl
  obtain ⟨-, -, -, -, henters⟩ := enteringJumpers_ok henter
  rw [ht]
  rw [hs₄] at henters
  rcases henters with ⟨-, hsame⟩ | ⟨-, -, hredirect⟩
  · rw [hsame]
    exact .kept
  · rw [← Redirects.call_redirect_of_ok hredirect]
    exact .called _

/-- An insertion behind leaves the redirects. -/
theorem appendAfter_step {shift : Shift} (h : appendAfter anchor given s = .ok (new, shift) t) :
    s.program.redirects.Step none t.program.redirects := by
  obtain ⟨found, block, c₁, s₂, s₄, -, -, -, hlink, hextend, ht, -⟩ := appendAfter_run h
  obtain ⟨c₂, rfl, -⟩ := linkInserted_ok hlink
  rw [ht, (updateBlock_regraphed hextend).sameCode.redirects, redirects_withOwner]
  exact .kept

/-- Placing instructions leaves the redirects. -/
theorem placeInserted_redirects {pieces : List (InstrId × Instruction)} {addr : UInt64} :
    Keeps (fun s t => t.program.redirects = s.program.redirects) (placeInserted addr pieces) := by
  have hr : StepRelation fun s t : Session => t.program.redirects = s.program.redirects :=
    ⟨fun _ => rfl, fun h k => k.trans h⟩
  induction pieces generalizing addr with
  | nil => exact .pure hr ()
  | cons piece pieces ih =>
    refine .bind hr (fun {s _ t} h => ?_) fun _ => .bind hr (fun {s _ t} h => ?_) fun _ => ih
    · rw [(updateInstr_ok.mp h).2]
      rfl
    · obtain ⟨chain, rfl, -⟩ := linkInserted_ok h
      rfl

/-- A substitution puts the first new instruction in the place of the old one. -/
theorem spliceInstead_step {pieces : List Instruction} {shift : Shift}
    (h : spliceInstead old pieces s = .ok (ids, shift) t) :
    s.program.redirects.Step (some old) t.program.redirects := by
  obtain ⟨found, block, freed, c₁, first, last, s₂, head, s₃, s₄, s₆, -, -, hreplace, hfirst, -, hplace, -,
    hrepoint, hrehome, hblocks, ht, -⟩ := spliceInstead_run h
  obtain ⟨others, rfl⟩ := List.head?_eq_some_iff.mp hfirst
  have hs₂ : s₂.program.redirects = s.program.redirects := (placeInserted_redirects hplace).trans rfl
  have hs₄ : s₄.program.redirects = s₂.program.redirects :=
    (rehomeRelocations_retied hrehome).redirects.trans (repointSymbols_sameCode hrepoint).redirects
  rw [ht, (updateBlock_regraphed hblocks).sameCode.redirects, redirects_withOwner]
  show s.program.redirects.Step (some old) (s₄.program.redirects.replace old first)
  rw [hs₄, hs₂]
  exact .replaced (ChainM.replace_ne hreplace)

/-- A removal puts the heir in the place of the instruction. -/
theorem excise_step {freed : Instruction} {shift : Shift} (h : excise id s = .ok (freed, shift) t) :
    s.program.redirects.Step (some id) t.program.redirects := by
  obtain ⟨node, block, heir, s₂, s₃, s₄, c, edited, -, -, hcheck, -, hpass, hblocks, hfree, rfl, hedited, -⟩ :=
    excise_run h
  -- the heir is still there when the jumpers onto it are looked up, so it was not the one to go
  have hne : id ≠ heir := by
    rintro rfl
    obtain ⟨instr, hinstr⟩ := Program.jumpersInto_present hedited
    have hgone : c.get? id = none := ChainM.free_gone hfree
    have hpresent : c.get? id = some instr := hinstr
    rw [hgone] at hpresent
    cases hpresent
  obtain ⟨_, -, -, -, hreplaced, -⟩ := passOn_retied hpass
  show s.program.redirects.Step (some id) s₄.program.redirects
  rw [(forBlock_regraphed (fun _ => shrinkBlock_regraphed) hblocks).sameCode.redirects, redirects_withOwner,
    hreplaced, (checkRemovable_regraphed hcheck).sameCode.redirects]
  exact .replaced hne

/-- What an edit makes of the redirects. -/
theorem edit_redirects {change : Edit} (h : change.run s = .ok u t) :
    s.program.redirects.Step change.takesOut? t.program.redirects := by
  obtain ⟨shift, m, summary, hsplice, hsettle⟩ := edit_ok h
  rw [(Session.Carries.updateRelation.settle hsettle).redirects]
  cases hsplice with
  | before run => exact spliceBefore_step run
  | after run => exact spliceBefore_step run
  | behind run => exact appendAfter_step run
  | «instead» run => exact spliceInstead_step run
  | out run => exact excise_step run
  | resized run =>
    simp only [shiftBehind, bind_ok, node_ok, pure_ok] at run
    obtain ⟨_, _, ⟨-, rfl⟩, -, rfl⟩ := run
    exact .kept

end EngineM

/-! ## Calls and edits -/

/-- What changes the redirects of a program: a call, or an edit of the code. -/
inductive RedirectWork where
  | call (made : RedirectCall)
  | edit (change : Edit)

namespace RedirectWork

def run : RedirectWork → EngineM Unit
  | call made => EngineM.updateProgram fun program => { program with redirects := program.redirects.call made }
  | edit change => change.run

def takesOut? : RedirectWork → Option InstrId
  | call _ => none
  | edit change => change.takesOut?

/-- The redirects take no notice of what is taken out. -/
def Spares (work : RedirectWork) (redirects : Redirects) : Prop :=
  ∀ id, work.takesOut? = some id → redirects.Ignores id

/-- What one thing after the other makes of a program. -/
def reached (s : Session) (works : List RedirectWork) : Session :=
  works.foldl (fun s work => outcome work.run s) s

/-- Nothing of it is refused. -/
def Granted : (s : Session) → List RedirectWork → Prop
  | _, [] => True
  | s, work :: rest => Succeeds work.run s = true ∧ Granted (outcome work.run s) rest

def decideGranted : (s : Session) → (works : List RedirectWork) → Decidable (Granted s works)
  | _, [] => .isTrue trivial
  | s, work :: rest =>
    have := decideGranted (outcome work.run s) rest
    inferInstanceAs (Decidable (_ ∧ _))

instance (s : Session) (works : List RedirectWork) : Decidable (Granted s works) := decideGranted s works

variable {s : Session} {work : RedirectWork} {works rest : List RedirectWork}

theorem reached_concat (s : Session) (works : List RedirectWork) (work : RedirectWork) :
    reached s (works ++ [work]) = outcome work.run (reached s works) := by
  rw [reached, List.foldl_append]
  rfl

/-- Works are granted if the first ones are, and then the rest. -/
theorem granted_append : Granted s (works ++ rest) ↔ Granted s works ∧ Granted (reached s works) rest := by
  induction works generalizing s with
  | nil => exact (and_iff_right trivial).symm
  | cons work works ih =>
    show _ ∧ Granted (outcome work.run s) (works ++ rest) ↔ (_ ∧ _) ∧ _
    rw [ih, and_assoc]
    rfl

/-- Each of the granted works succeeds where those before it lead. -/
theorem Granted.last {front : List RedirectWork} (h : Granted s works) (hfront : front ++ [work] <+: works) :
    Succeeds work.run (reached s front) = true := by
  obtain ⟨rest, rfl⟩ := hfront
  rw [List.append_assoc, granted_append] at h
  exact h.2.1

/-- A work that succeeds is one step, with what it takes out. -/
theorem step (h : Succeeds work.run s = true) :
    s.program.redirects.Step work.takesOut? (outcome work.run s).program.redirects := by
  cases work with
  | call made => exact .called made
  | edit change =>
    obtain ⟨_, hrun⟩ := Succeeds.ok h
    exact EngineM.edit_redirects hrun

/-- No instruction has two targets, however far the works have come. -/
theorem keyed_along (hkeys : s.program.redirects.Keyed) (h : Granted s works) {front : List RedirectWork}
    (hfront : front <+: works) : (reached s front).program.redirects.Keyed := by
  induction front using List.reverseRecOn with
  | nil => exact hkeys
  | append_singleton front work ih =>
    rw [reached_concat]
    exact (step (h.last hfront)).keyed (ih ((List.prefix_append front [work]).trans hfront))

/-- The log is complete all along exactly if nothing is taken out that the redirects take notice of. -/
theorem logged_along_iff (hkeys : s.program.redirects.Keyed) (h : Granted s works) :
    (∀ front, front <+: works → s.program.redirects.Logged (reached s front).program.redirects)
      ↔ ∀ front work, front ++ [work] <+: works → work.Spares (reached s front).program.redirects := by
  have hstep : ∀ front work, front ++ [work] <+: works →
      s.program.redirects.Logged (reached s front).program.redirects →
      (s.program.redirects.Logged (reached s (front ++ [work])).program.redirects
        ↔ work.Spares (reached s front).program.redirects) := by
    intro front work hfront hlogged
    rw [reached_concat]
    exact (step (h.last hfront)).logged_iff
      (keyed_along hkeys h ((List.prefix_append front [work]).trans hfront)) hlogged
  constructor
  · intro hall front work hfront
    exact (hstep front work hfront (hall front ((List.prefix_append front [work]).trans hfront))).mp
      (hall _ hfront)
  · intro hspares front hfront
    induction front using List.reverseRecOn with
    | nil => exact .refl _
    | append_singleton front work ih =>
      exact (hstep front work hfront (ih ((List.prefix_append front [work]).trans hfront))).mpr
        (hspares front work hfront)

/-- The log accounts for the works but for what was taken out. The induction is on the works, from the
first one on: what a step takes out goes in front of what the rest takes out. -/
theorem accounted_along (h : Granted s works) :
    ∃ replaced, s.program.redirects.Accounted replaced (reached s works).program.redirects
      ∧ replaced.map (·.1) = works.filterMap (·.takesOut?) := by
  induction works generalizing s with
  | nil => exact ⟨[], .logged (.refl _), rfl⟩
  | cons work works ih =>
    obtain ⟨hfirst, hrest⟩ := h
    obtain ⟨replaced, haccounted, hnames⟩ := ih hrest
    obtain ⟨all, hall, heq⟩ := (step hfirst).accounted haccounted
    refine ⟨all, hall, ?_⟩
    rw [heq, hnames, List.filterMap_cons]
    cases work.takesOut? <;> rfl

/-- Whatever calls are made and whatever edits succeed, what the log has gained tells how the redirects
and overrides came about, each entry with the value that it replaced, all along exactly if each
substitution and removal takes out an instruction that no redirect or override names at that time, while
nothing is redirected to itself. In any case the log accounts for everything but the instructions
that were put in the place of those taken out. -/
theorem log_along_works (hkeys : s.program.redirects.Keyed) (h : Granted s works) :
    ((∀ front, front <+: works → s.program.redirects.Logged (reached s front).program.redirects)
        ↔ ∀ front work, front ++ [work] <+: works → work.Spares (reached s front).program.redirects)
      ∧ ∃ replaced, s.program.redirects.Accounted replaced (reached s works).program.redirects
        ∧ replaced.map (·.1) = works.filterMap (·.takesOut?) :=
  ⟨logged_along_iff hkeys h, accounted_along h⟩

/-- A fork of the jump over an instruction, where the log is empty. -/
def forkedHop : Session :=
  { hop with program := (hop.program.fork ⟨1, "fork"⟩).toOption.getD hop.program }

theorem forkedHop_fork : hop.program.fork ⟨1, "fork"⟩ = .ok forkedHop.program := by decide +kernel

theorem forkedHop_keyed : forkedHop.program.redirects.Keyed :=
  ⟨by decide +kernel, by decide +kernel⟩

/-- What is taken out first is named by no redirect any more when it goes. What is taken out last is where the
jump lands. -/
def passages : List RedirectWork :=
  [.call (.redirect ⟨1⟩ ⟨0⟩), .edit (.insertBefore ⟨2⟩ (.synthetic [0x90] 1 .nop) .inserted),
    .call (.redirectJumper ⟨0⟩ ⟨2⟩), .call (.restore ⟨1⟩), .edit (.remove ⟨1⟩),
    .edit (.substitute ⟨3⟩ [.synthetic [0x90] 1 .nop])]

theorem log_along_works_passages :
    forkedHop.program.redirects.Keyed ∧ Granted forkedHop passages
      ∧ ((∀ front, front <+: passages →
            forkedHop.program.redirects.Logged (reached forkedHop front).program.redirects)
          ↔ ∀ front work, front ++ [work] <+: passages →
            work.Spares (reached forkedHop front).program.redirects)
      ∧ ∃ replaced, forkedHop.program.redirects.Accounted replaced (reached forkedHop passages).program.redirects
          ∧ replaced.map (·.1) = passages.filterMap (·.takesOut?) := by
  have hgranted : Granted forkedHop passages := by decide +kernel
  exact ⟨forkedHop_keyed, hgranted, log_along_works forkedHop_keyed hgranted⟩

/-- An instruction is put in front of the landing of the jump, and taken out again. -/
def detour : List RedirectWork :=
  [.edit (.insertBefore ⟨2⟩ (.synthetic [0x90] 1 .nop) .inserted), .edit (.remove ⟨3⟩)]

/-- The redirect to what was put in front is gone when that is taken out, but the log does not say so. -/
theorem detour_unlogged :
    hop.program.fork ⟨1, "fork"⟩ = .ok forkedHop.program
      ∧ forkedHop.program.redirects.log = [] ∧ Granted forkedHop detour
      ∧ (reached forkedHop detour).program.redirects.targetOf? ⟨2⟩ = none
      ∧ (forkedHop.program.redirects.bindings.replay (reached forkedHop detour).program.redirects.log).map
          (·.target ⟨2⟩) = some (some ⟨3⟩)
      ∧ ¬ forkedHop.program.redirects.Logged (reached forkedHop detour).program.redirects := by
  have hlog : forkedHop.program.redirects.log = [] := by decide +kernel
  have hgranted : Granted forkedHop detour := by decide +kernel
  have htarget : (reached forkedHop detour).program.redirects.targetOf? ⟨2⟩ = none := by decide +kernel
  have hreplay : (forkedHop.program.redirects.bindings.replay
      (reached forkedHop detour).program.redirects.log).map (·.target ⟨2⟩) = some (some ⟨3⟩) := by
    decide +kernel
  refine ⟨forkedHop_fork, hlog, hgranted, htarget, hreplay, ?_⟩
  generalize (reached forkedHop detour).program.redirects = after at htarget hreplay ⊢
  rintro ⟨entries, hentries, hlogged⟩
  rw [hlog, List.nil_append] at hentries
  rw [hentries, hlogged, Option.map_some, Option.some.injEq] at hreplay
  have hstill : after.targetOf? ⟨2⟩ = some ⟨3⟩ := hreplay
  rw [htarget] at hstill
  cases hstill

end RedirectWork

end Splice
