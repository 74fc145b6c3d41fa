import Splice.Proofs.Program.Finalize
import Splice.Proofs.Program.Following
import Splice.Proofs.Program.InPlace
import Splice.Proofs.Program.Removal
import Splice.Proofs.Program.Rewriting

/-!
# The two updates agree

After a splice the local update and the full one end in the same code. They run abreast: as
often as the local update has shifts to carry out, the full one lays out the code, and since
both put every instruction in its place they leave the same addresses. Then the local
update settles the jumpers that it takes to be affected, and the full one all jumpers. Those
that the local update leaves out encode their targets, so settling them would change
nothing, and both leave the same encodings. If nothing was widened, both end; else both go
on from the same code (`Abreast.round`, `Abreast.run`).

The two updates go different ways: the local one shifts and writes what is affected, in rounds,
and the full one lays out and writes everything, in passes. They widen the same jumps because
both widen the least set that suffices, and then they agree on addresses, hence on displacements
and on symbols. Functions agree as far as what is stamped for them is their run
(`Program.Stamped`); where that is not so, the local update lets a function grow for code that
lies outside of it.
-/

namespace Splice

namespace EngineM

/-- What is left after doubles are dropped has none. -/
theorem nodup_eraseDups {α : Type} [BEq α] [LawfulBEq α] (xs : List α) : xs.eraseDups.Nodup := by
  match xs with
  | [] => simp
  | x :: xs =>
    have hshorter : (xs.filter fun y => !y == x).length < xs.length + 1 :=
      Nat.lt_succ_of_le (List.length_filter_le _ xs)
    rw [List.eraseDups_cons, List.nodup_cons, List.mem_eraseDups, List.mem_filter]
    refine ⟨fun h => ?_, nodup_eraseDups _⟩
    simp at h
termination_by xs.length

variable {s t v w x : Session} {l ids : List InstrId} {progress done : Progress}

/-! ## All jumpers at once -/

/-- To settle only some jumpers is to settle all of them, if the others stay as they are. -/
theorem Rewrites.whole (h : Rewrites s t ids progress done)
    (hrest : ∀ id instr, s.program.chain.get? id = some instr → id ∉ ids →
      s.program.rewritten id instr = instr) :
    t.program.chain = s.program.chain.adjust s.program.rewritten
      ∧ (done.2.length = progress.2.length ↔ ∀ id instr, s.program.chain.get? id = some instr →
        (s.program.rewritten id instr).bytes.length = instr.bytes.length) := by
  constructor
  · have hchain : t.program.chain = s.program.chain.adjust fun id instr =>
        if id ∈ ids then s.program.rewritten id instr else instr :=
      congrArg (·.program.chain) h.session
    rw [hchain]
    refine Chain.adjust_congr fun id instr hinstr => ?_
    by_cases hid : id ∈ ids
    · rw [if_pos hid]
    · rw [if_neg hid, hrest id instr hinstr hid]
  · rw [h.unwidened]
    constructor
    · intro hall id instr hinstr
      by_cases hid : id ∈ ids
      · exact hall id hid instr hinstr
      · rw [hrest id instr hinstr hid]
    · intro hall id _ instr hinstr
      exact hall id instr hinstr

/-- What is left to be settled by a round is all that settling would change. -/
theorem Unsettled.rewritten {pending : List InstrId} {id : InstrId} {instr : Instruction}
    (h : Unsettled s l pending) (hattached : s.program.chain.Attached l)
    (hinstr : s.program.chain.get? id = some instr) (hid : id ∉ pending) :
    s.program.rewritten id instr = instr := by
  have hmem := hattached id (by rw [Chain.contains_eq_isSome_get?, hinstr]; rfl)
  exact Program.rewritten_of_encodes ((h id hmem).resolve_right hid) hinstr

/-- What is no direct transfer stays as it is. -/
theorem rewritten_of_not_jumper {id : InstrId} {instr : Instruction}
    (hl : s.program.chain.Spells l) (hattached : s.program.chain.Attached l)
    (hinstr : s.program.chain.get? id = some instr) (hid : id ∉ s.program.jumpers) :
    s.program.rewritten id instr = instr := by
  have hmem := hattached id (by rw [Chain.contains_eq_isSome_get?, hinstr]; rfl)
  by_cases hdirect : instr.isDirectTransfer = true
  · rw [Program.mem_jumpers, hl.ids_eq] at hid
    exact absurd ⟨hmem, instr, hinstr, hdirect⟩ hid
  · exact Program.rewritten_of_indirect (Bool.not_eq_true _ ▸ hdirect)

/-! ## The same addresses -/

/-- Shifts change addresses and nothing else. -/
theorem applyAll_relocates {round : List Shift} {moved : List (List InstrId)}
    (hl : s.program.chain.Spells l) (h : round.mapM applyShift s = .ok moved t) :
    s.program.chain.Evolves (fun _ a b => b = a.relocated b.addr) t.program.chain := by
  induction round generalizing s moved with
  | nil =>
    obtain ⟨-, rfl⟩ := mapM_nil_ok.mp h
    exact .refl (r := fun _ a b => b = a.relocated b.addr) (fun _ _ => rfl) _
  | cons shift round ih =>
    obtain ⟨ids, m, rest, hfirst, hrest, -⟩ := mapM_cons_ok.mp h
    have hshift := (applyShift_applied hl hfirst).evolves
    refine hshift.comp (fun id a b c hab hbc => ?_) (ih (hshift.spells hl) hrest)
    rw [hbc, hab]
    split <;> rfl

/-- Where all instructions are in place, they are at addresses that depend on sections and sizes. -/
theorem laidOut_addr {r q : InstrId → Instruction → Instruction → Prop} {id : InstrId}
    (ht : s.program.chain.Evolves r t.program.chain) (hv : s.program.chain.Evolves q v.program.chain)
    (hr : ∀ id a b, r id a b → b.sec = a.sec ∧ b.size = a.size)
    (hq : ∀ id a b, q id a b → b.sec = a.sec ∧ b.size = a.size)
    (hbases : t.program.bases = s.program.bases) (hbases' : v.program.bases = s.program.bases)
    (hlaid : t.program.LaidOut l) (hlaid' : v.program.LaidOut l) (hid : id ∈ l) :
    (t.program.chain.get? id).map (·.addr) = (v.program.chain.get? id).map (·.addr) := by
  obtain ⟨front, rest, hsplit⟩ := List.append_of_mem hid
  cases hget : s.program.chain.get? id with
  | none => rw [ht.get?_eq_none hget, hv.get?_eq_none hget]
  | some instr =>
    obtain ⟨a, ha, hra⟩ := ht.get? hget
    obtain ⟨b, hb, hqb⟩ := hv.get? hget
    rw [ha, hb, Option.map_some, Option.map_some, hlaid front id rest a hsplit ha,
      hlaid' front id rest b hsplit hb, Program.place_evolve ht hbases hr,
      Program.place_evolve hv hbases' hq, (hr id instr a hra).1, (hq id instr b hqb).1]

/-- Two ways of putting every instruction in its place come to the same. -/
theorem laidOut_unique (hattached : s.program.chain.Attached l)
    (ht : s.program.chain.Evolves (fun _ a b => b = a.relocated b.addr) t.program.chain)
    (hv : s.program.chain.Evolves (fun _ a b => b = a.relocated b.addr) v.program.chain)
    (hbases : t.program.bases = s.program.bases) (hbases' : v.program.bases = s.program.bases)
    (hlaid : t.program.LaidOut l) (hlaid' : v.program.LaidOut l) :
    t.program.chain = v.program.chain := by
  have hlike : ∀ (_ : InstrId) (a b : Instruction), b = a.relocated b.addr →
      b.sec = a.sec ∧ b.size = a.size := by
    intro _ a b hab
    rw [hab]
    exact ⟨rfl, rfl⟩
  refine ht.eq_of_get? hv fun id => ?_
  cases hid : s.program.chain.get? id with
  | none => rw [ht.get?_eq_none hid, hv.get?_eq_none hid]
  | some instr =>
    obtain ⟨a, ha, hinstr⟩ := ht.get? hid
    obtain ⟨b, hb, hinstr'⟩ := hv.get? hid
    have hmem := hattached id (by rw [Chain.contains_eq_isSome_get?, hid]; rfl)
    have haddr := laidOut_addr ht hv hlike hlike hbases hbases' hlaid hlaid' hmem
    rw [ha, hb, Option.map_some, Option.map_some, Option.some.injEq] at haddr
    rw [ha, hb, hinstr, hinstr', haddr]

/-! ## Abreast -/

/-- The local update is about to carry out a round of shifts, and the full one to lay out the same
code. -/
structure Abreast (s v : Session) (l : List InstrId) (round : List Shift) : Prop where
  chain : v.program.chain = s.program.chain
  redirects : v.program.redirects = s.program.redirects
  bases : v.program.bases = s.program.bases
  sited : s.program.Sited l round
  unsettled : Unsettled s l (round.flatMap (·.edited))

/-- A round of the local update leaves the same code as a layout and a pass of the full one, and if
either of them widened nothing, neither did. -/
theorem Abreast.round {round next : List Shift} {summary layout : UpdateSummary}
    {written widened : Nat} (h : Abreast s v l round)
    (hround : settleRound round s = .ok (summary, next) t)
    (hlayout : updateAddresses v = .ok layout w)
    (hpass : displacementPass w = .ok (written, widened) x) :
    Abreast t x l next ∧ (next = [] ↔ widened = 0) := by
  have hl := h.sited.gapless.spells
  have hl' : v.program.chain.Spells l := h.chain ▸ hl
  have hcarries := Session.Carries.updateRelation.settleRound hround
  obtain ⟨moved, m, affected, count, hshifts, haffected, hjumpers⟩ := settleRound_run hround
  obtain ⟨shifts, hfull, rfl⟩ := displacementPass_ok.mp hpass
  -- after the shifts and after the layout every instruction is in its place
  have hmoved := Keeps.mapM Session.Carries.stepRelation
    (fun _ _ => Session.Carries.updateRelation.applyShift) hshifts
  have hrelaid := updateAddresses_ok hl' hlayout
  have howing : m.program.Gapless l ∧ m.program.Owing l [] := by
    refine owing_invariant.applyAll hshifts ?_
    rw [List.append_nil]
    exact ⟨h.sited.gapless, h.sited.owing⟩
  have hsame : m.program.chain = w.program.chain := by
    refine laidOut_unique h.sited.attached (applyAll_relocates hl hshifts) ?_ hmoved.bases
      (hrelaid.bases.trans h.bases) (Program.owing_nil.mp howing.2) hrelaid.laid
    rw [← h.chain]
    exact hrelaid.chain
  have hredirects : w.program.redirects = m.program.redirects :=
    (hrelaid.redirects.trans h.redirects).trans hmoved.redirects.symm
  have hrewritten : w.program.rewritten = m.program.rewritten := by
    funext id instr
    refine Program.rewritten_evolve (r := fun _ a b => b = a) ?_ hredirects
      (fun _ _ _ hab => hab ▸ ⟨rfl, rfl⟩) id instr
    rw [← hsame]
    exact .refl (r := fun _ a b => b = a) (fun _ _ => rfl) _
  -- settling the affected jumpers is settling all of them, and so is the pass
  have hlm := hmoved.chain.spells hl
  have hattached := hmoved.chain.attached h.sited.attached
  have hunsettled := applyAll_unsettled hl h.sited.listed hshifts haffected h.unsettled
  obtain ⟨hchain, hlocal⟩ := (settleAll_rewrites hlm hattached (nodup_eraseDups _) hjumpers).whole
    fun id instr hinstr hid => hunsettled.rewritten hattached hinstr hid
  have hlw : w.program.chain.Spells l := hsame ▸ hlm
  obtain ⟨hchain', hglobal⟩ :=
    (settleJumpers_rewrites (Program.nodup_jumpers hlw) hfull).whole
      fun id instr hinstr hid => rewritten_of_not_jumper hlw (hsame ▸ hattached) hinstr hid
  rw [hrewritten, ← hsame] at hchain' hglobal
  have hsettles := settleJumpers_settles hfull
  refine ⟨⟨hchain'.trans hchain.symm, ?_, ?_, ?_, ?_⟩, ?_⟩
  · exact (hsettles.redirects.trans (hrelaid.redirects.trans h.redirects)).trans
      hcarries.redirects.symm
  · exact (hsettles.bases.trans (hrelaid.bases.trans h.bases)).trans hcarries.bases.symm
  · exact h.sited.carry hcarries (owing_invariant.round hround ⟨h.sited.gapless, h.sited.owing⟩).2
  · exact settleRound_ok hl h.sited.listed hround h.unsettled
  · have hnext : next.length = 0 ↔ shifts.length = 0 := hlocal.trans hglobal.symm
    rwa [List.length_eq_zero_iff] at hnext

/-- Updates that run abreast end with the same code. -/
theorem Abreast.run {steps steps' : Nat} {shift : Shift} {round : List Shift}
    {summary total summary' total' layout : UpdateSummary} (h : Abreast s v l (shift :: round))
    (hsettle : settleRounds summary steps (shift :: round) s = .ok total t)
    (hlayout : updateAddresses v = .ok layout w)
    (hpasses : displacementPasses summary' steps' w = .ok total' x) : Abreast t x l [] := by
  -- round for round: either both end here, or both go on
  induction steps generalizing s v w shift round summary summary' layout steps' with
  | zero =>
    simp only [settleRounds, bind_ok, throw_ok] at hsettle
    obtain ⟨_, _, _, hfalse⟩ := hsettle
    exact hfalse.elim
  | succ steps ih =>
    simp only [settleRounds, bind_ok] at hsettle
    obtain ⟨⟨done, next⟩, m, hround, hsettle⟩ := hsettle
    cases steps' with
    | zero =>
      simp only [displacementPasses, bind_ok, throw_ok] at hpasses
      obtain ⟨_, _, _, hfalse⟩ := hpasses
      exact hfalse.elim
    | succ steps' =>
      simp only [displacementPasses, bind_ok] at hpasses
      obtain ⟨⟨written, widened⟩, m', hpass, hpasses⟩ := hpasses
      obtain ⟨hafter, hend⟩ := h.round hround hlayout hpass
      cases next with
      | nil =>
        simp only [hend.mp rfl, if_true, pure_ok] at hpasses
        obtain ⟨-, rfl⟩ := hpasses
        simp only [settleRounds, pure_ok] at hsettle
        obtain ⟨-, rfl⟩ := hsettle
        exact hafter
      | cons shift' next =>
        have hwidened : widened ≠ 0 := fun he => List.cons_ne_nil _ _ (hend.mpr he)
        simp only [hwidened, if_false, bind_ok] at hpasses
        obtain ⟨layout', m'', hlayout', hpasses⟩ := hpasses
        exact ih hafter hsettle hlayout' hpasses

/-! ## Functions -/

end EngineM

/-- The addresses that a function takes up: where it begins, and its number of bytes. -/
def Function.range (function : Function) : UInt64 × UInt64 := (function.addr, function.size)

def FunctionTable.range? (table : FunctionTable) (id : FuncId) : Option (UInt64 × UInt64) :=
  (table.get? id).map (·.range)

namespace EngineM

/-- Nothing in the code belongs to the function. -/
def Unstamped (s : Session) (owner : FuncId) : Prop :=
  ∀ id instr, s.program.chain.get? id = some instr → instr.func ≠ some owner

/-- A function to which nothing belongs gains nothing from what only moves code. -/
theorem Unstamped.carry {owner : FuncId} (h : Unstamped s owner) (hcarries : Session.Carries s t) :
    Unstamped t owner := by
  intro id instr hinstr
  obtain ⟨old, hold, hcarried⟩ := hcarries.chain.get?_of hinstr
  rw [hcarried.func]
  exact h id old hold

/-- A shift of other code leaves a function alone to which nothing belongs. -/
theorem applyShift_unstamped {owner : FuncId} {shift : Shift} {moved : List InstrId}
    (hshift : shift.func ≠ some owner) (hs : Unstamped s owner)
    (h : applyShift shift s = .ok moved t) :
    t.program.functions.get? owner = s.program.functions.get? owner := by
  have hstep : StepRelation fun s t : Session => Unstamped s owner →
      t.program.functions.get? owner = s.program.functions.get? owner ∧ Unstamped t owner :=
    ⟨fun _ hs => ⟨rfl, hs⟩, fun h k hs => ⟨(k (h hs).2).1.trans (h hs).1, (k (h hs).2).2⟩⟩
  simp only [applyShift, bind_ok] at h
  obtain ⟨_, m, howner, h⟩ := h
  obtain rfl := updateOwner_ok howner
  have hm : (withOwner s shift.func fun function =>
      { function with size := function.size + shift.delta.toUInt64 }).program.functions.get? owner
        = s.program.functions.get? owner := by
    rw [get?_withOwner, if_neg hshift]
  by_cases hzero : shift.delta = 0
  · rw [if_pos hzero, pure_ok] at h
    rw [← h.2]
    exact hm
  · rw [if_neg hzero] at h
    simp only [bind_ok, program_ok, pure_ok] at h
    obtain ⟨_, _, ⟨rfl, rfl⟩, _, t, hmoves, -, rfl⟩ := h
    refine Eq.trans (And.left (Keeps.forM hstep (fun id _ => ?_) hmoves fun id instr hinstr => ?_)) hm
    · intro s u t h hs
      obtain ⟨found, hfound, hsame⟩ := shiftInstruction_ok h
      refine ⟨?_, hs.carry (Session.Carries.updateRelation.shiftInstruction h)⟩
      rw [hsame.functions, get?_withOwner, if_neg (hs id found hfound)]
      rfl
    · rw [chain_withOwner] at hinstr
      exact hs id instr hinstr

/-- A function to which nothing belongs is what it was, and no shift that is left makes it grow. -/
structure Idle (owner : FuncId) (function : Function) (s : Session) (pending : List Shift) :
    Prop where
  get? : s.program.functions.get? owner = some function
  unstamped : Unstamped s owner
  shifts : ∀ shift ∈ pending, shift.func ≠ some owner

/-- The pass of shifts leaves such a function alone: no shift is made on its behalf. -/
theorem idle_invariant (owner : FuncId) (function : Function) :
    SettleInvariant (Idle owner function) where
  carried := by
    intro s t shift pending moved h hs
    have hshift := hs.shifts shift (List.mem_cons_self ..)
    exact ⟨(applyShift_unstamped hshift hs.unstamped h).trans hs.get?,
      hs.unstamped.carry (Session.Carries.updateRelation.applyShift h),
      fun other hother => hs.shifts other (List.mem_cons_of_mem _ hother)⟩
  jumper := by
    intro s t jumper progress done h hs
    have hunstamped := hs.unstamped.carry (Session.Carries.updateRelation.settleLinked h)
    simp only [settleLinked, bind_ok, program_ok] at h
    obtain ⟨_, _, ⟨rfl, rfl⟩, h⟩ := h
    split at h
    · cases settleJumper_ok h with
      | written run =>
        cases run with
        | written => exact ⟨hs.get?, hunstamped, hs.shifts⟩
      | skipped => exact hs
      -- widened lands|a jump that is widened belongs to some function, and this one has no instruction
      | widened lands =>
        refine ⟨hs.get?, hunstamped, fun shift hshift => ?_⟩
        rcases List.mem_append.mp hshift with hshift | hshift
        · exact hs.shifts shift hshift
        · rw [List.mem_singleton.mp hshift]
          exact hs.unstamped _ _ lands.get
    · obtain ⟨rfl, rfl⟩ := pure_ok.mp h
      exact hs
  same := by
    intro s t pending h hs
    refine ⟨by rw [h]; exact hs.get?, ?_, hs.shifts⟩
    unfold Unstamped
    rw [h]
    exact hs.unstamped

/-- Measuring leaves a function without instructions alone, and so does the whole full update. -/
theorem finalize_undefined {owner : FuncId} {function : Function} {summary : UpdateSummary}
    (hl : s.program.chain.Spells l) (hfunction : s.program.functions.get? owner = some function)
    (hfirst : function.first = none) (h : finalize s = .ok summary t) :
    t.program.functions.get? owner = some function := by
  have hlayout : ∀ {a b : Session} {layout : UpdateSummary}, a.program.chain.Spells l →
      a.program.functions.get? owner = some function → updateAddresses a = .ok layout b →
      b.program.functions.get? owner = some function := by
    intro a b layout ha hget hrun
    obtain ⟨m, functions, -, -, hmeasured, rfl⟩ := updateAddresses_run ha hrun
    obtain ⟨after, hafter, hfound⟩ := rel_some (get?_of_mapM hmeasured owner) hget
    refine hafter.trans ?_
    rcases measured_ok hfound with ⟨-, hsame⟩ | ⟨first, _, hsome, -⟩
    · rw [hsame]
    · rw [hfirst] at hsome
      cases hsome
  obtain ⟨layout, m, total, u, hstart, hpasses, hsame, -⟩ := finalize_run h
  have hm := Session.Carries.updateRelation.updateAddresses hstart
  obtain ⟨-, last, written, hlast, hpass⟩ := displacementPasses_ok
    (P := fun m => m.program.chain.Spells l ∧ m.program.functions.get? owner = some function)
    (fun a b c written widened layout ha hpass hrun => by
      have hb := displacementPass_passed ha.1 hpass
      have hspells := hb.settles.chain.spells ha.1
      have hc := (Session.Carries.updateRelation.updateAddresses hrun).chain.spells hspells
      exact ⟨hc, hlayout hspells (hb.settles.functions ▸ ha.2) hrun⟩)
    ⟨hm.chain.spells hl, hlayout hl hfunction hstart⟩ hpasses
  rw [hsame, (displacementPass_passed hlast.1 hpass).settles.functions]
  exact hlast.2

/-- Both updates leave every function at its first instruction and with the size of its run. -/
theorem ranges_agree {shift : Shift} {summary summary' : UpdateSummary}
    (hm : s.program.InPlace l [shift])
    (hput : ∃ id instr, s.program.chain.get? id = some instr ∧ instr.func = shift.func)
    (ht : settle shift s = .ok summary t) (hv : finalize s = .ok summary' v)
    (hchain : t.program.chain = v.program.chain) (owner : FuncId) :
    t.program.functions.range? owner = v.program.functions.range? owner := by
  have hl := hm.orderly.spells
  have hcarries := Session.Carries.updateRelation.settle ht
  have hcarries' := Session.Carries.updateRelation.finalize hv
  have hplace : t.program.InPlace l [] :=
    ⟨hm.orderly.carry hcarries, hcarries.chain.attached hm.attached,
      hm.listed.evolve hcarries.chain (fun _ _ _ h => h.references) (fun _ _ _ h => h.targetedBy),
      settle_pending hm.orderly ht hm.pending⟩
  have hfinal := finalize_final hl hv
  cases hfunction : s.program.functions.get? owner with
  | none =>
    rw [FunctionTable.range?, FunctionTable.range?, rel_none (hcarries.functions owner) hfunction,
      rel_none (hcarries'.functions owner) hfunction]
  | some function =>
    cases hfirst : function.first with
    | none =>
      -- nothing belongs to it, so neither update touches it
      obtain ⟨run, ⟨_, _, -, hhead, -⟩, hstamped⟩ := hm.orderly.owned owner function hfunction
      rw [hfirst, eq_comm, List.head?_eq_none_iff] at hhead
      subst hhead
      have hunstamped : Unstamped s owner := by
        intro id instr hinstr howner
        have hmem := hm.attached id (by rw [Chain.contains_eq_isSome_get?, hinstr]; rfl)
        exact List.not_mem_nil ((hstamped id hmem instr hinstr).mp howner)
      have hidle : Idle owner function s [shift] := by
        refine ⟨hfunction, hunstamped, fun other hother => ?_⟩
        obtain ⟨id, instr, hinstr, hfunc⟩ := hput
        rw [List.mem_singleton.mp hother, ← hfunc]
        exact hunstamped id instr hinstr
      have hsettled := ((idle_invariant owner function).settled ht hidle).get?
      rw [FunctionTable.range?, FunctionTable.range?, hsettled, finalize_undefined hl hfunction hfirst hv]
    | some first =>
      obtain ⟨after, ha, hcarried⟩ := hcarries.functions.get? hfunction
      obtain ⟨after', hb, hcarried'⟩ := hcarries'.functions.get? hfunction
      rw [FunctionTable.range?, FunctionTable.range?, ha, hb, Option.map_some, Option.map_some]
      obtain ⟨hstart, hsize, -⟩ := hplace.function ha
      obtain ⟨instr, hinstr, haddr⟩ := hstart first (hcarried.first.trans hfirst)
      have hdefined : after.isDefined = true := by
        rw [Function.isDefined, hcarried.first, hfirst]
        rfl
      rcases measured_ok (hfinal.surveyed.measured owner after' hb) with
        ⟨hnone, -⟩ | ⟨first', instr', hfirst', hinstr', -, hfound⟩
      · rw [hcarried'.first, hfirst] at hnone
        cases hnone
      · rw [hcarried'.first, hfirst, Option.some.injEq] at hfirst'
        subst hfirst'
        rw [← hchain, hinstr, Option.some.injEq] at hinstr'
        subst hinstr'
        rw [hcarried'.instructions, ← hchain, ← hcarried.instructions t.program.chain] at hfound
        rw [Function.range, Function.range, haddr, hsize hdefined, hfound]

end EngineM

/-! ## The updates after an edit -/

/-- A program that passes all checks, in which every instruction is linked, no section has gaps, and
redirects lead from linked instructions to linked ones, in no circle. -/
structure Program.Checked (program : Program) : Prop where
  verified : program.verify = .ok ()
  attached : program.chain.Attached program.chain.ids
  consecutive : program.chain.Consecutive program.chain.ids
  keyed : program.redirects.Keyed
  acyclic : program.redirects.Acyclic
  linked : program.redirects.Within fun id => program.chain.isLinked id = true

/-- Instructions are stamped with a function exactly if they lie in its run, and the run of a defined
function has an end. -/
structure Program.Stamped (program : Program) : Prop where
  stamped : ∀ id ∈ program.chain.ids, ∀ instr owner, program.chain.get? id = some instr →
    (instr.func = some owner ↔ ∃ function, program.functions.get? owner = some function
      ∧ id ∈ function.instructions program.chain)
  bounded : ∀ owner function, program.functions.get? owner = some function →
    function.isDefined = true → function.last.isSome = true

namespace Program

variable {program : Program}

theorem Checked.wellFormed (h : program.Checked) : program.chain.WellFormed :=
  verifyChain_wellFormed (verify_parts h.verified).1 h.attached

/-- The checks, gaplessness and the condition on redirects are all that the displacements rest on. -/
theorem Checked.coherent (h : program.Checked) : program.Coherent where
  wellFormed := h.wellFormed
  attached := h.attached
  keyed := h.keyed
  acyclic := h.acyclic
  linked := h.linked
  references := (verify_ok h.verified).1
  displacements := (verify_ok h.verified).2

/-- No section has gaps, so every address is that of the layout, with nothing left to shift. -/
theorem Checked.sited (h : program.Checked) : program.Sited program.chain.ids [] where
  gapless := ⟨h.wellFormed.spells, h.consecutive⟩
  attached := h.attached
  listed := verifyReferences_listed h.wellFormed.spells h.coherent.references
  owing := owing_nil.mpr (verifyAddresses_ok.mp (verify_parts h.verified).2.1)

/-- Stamps that agree with the runs make the functions those of the layout. -/
theorem Checked.regular (h : program.Checked) (hstamped : program.Stamped) : program.Regular where
  wellFormed := h.wellFormed
  attached := h.attached
  addresses := (verify_parts h.verified).2.1
  functions := (verify_parts h.verified).2.2.1
  references := h.coherent.references
  consecutive := h.consecutive
  stamped := hstamped.stamped
  bounded := hstamped.bounded

end Program

/-- An insertion or a substitution and the same splice with everything laid out and encoded anew leave
the same code and the same symbols, and functions in the same places if the instructions that are
stamped with a function are those of its run. -/
theorem edit_agrees {s t v : Session} {edit : Edit} {a b : Unit} (hs : s.program.Checked)
    (hremoves : edit.removes = false) (hresizes : edit.resizes = false) (h : edit.run s = .ok a t)
    (k : edit.runFull s = .ok b v) :
    t.program.chain = v.program.chain ∧ t.program.symbols = v.program.symbols
      ∧ (s.program.Stamped → ∀ owner,
        t.program.functions.range? owner = v.program.functions.range? owner) := by
  obtain ⟨shift, m, summary, hsplice, hsettle⟩ := EngineM.edit_splice h
  simp only [Edit.runFull, bind_ok, discard_ok] at k
  obtain ⟨_, _, hsplice', summary', hfinalize⟩ := k
  rw [hsplice] at hsplice'
  injection hsplice' with hshift hm
  subst hshift hm
  have hrun := EngineM.splice_run hsplice
  obtain ⟨l, hsited⟩ := hrun.sited hresizes hs.sited
  obtain ⟨l', htidy, hunsettled⟩ := hrun.unsettled hremoves hs.coherent.sound
  obtain rfl : l' = l := htidy.spells.ids_eq.symm.trans hsited.gapless.spells.ids_eq
  obtain ⟨t', hrounds, hsame⟩ := EngineM.settle_run hsettle
  obtain ⟨layout, w, total, v', hlayout, hpasses, hsame', -⟩ := EngineM.finalize_run hfinalize
  have hstart : EngineM.Abreast m m l' [shift] :=
    ⟨rfl, rfl, rfl, hsited, by simpa using hunsettled⟩
  have hend := hstart.run hrounds hlayout hpasses
  have hchain : t.program.chain = v.program.chain := by rw [hsame, hsame', hend.chain]
  refine ⟨hchain, ?_, fun hstamped owner => ?_⟩
  · refine Session.Follows.unique (Session.Follows.updateRelation.settle hsettle)
      (Session.Follows.updateRelation.finalize hfinalize) fun id => ?_
    rw [hchain]
  · obtain ⟨l, hplace⟩ := hrun.inPlace hresizes (hs.regular hstamped).inPlace
    exact EngineM.ranges_agree hplace (hrun.owner hremoves hresizes hs.sited) hsettle hfinalize hchain
      owner

/-- The jump over an instruction passes all checks. -/
theorem hop_checked : hop.program.Checked where
  verified := isOk_iff.mp (by decide +kernel)
  attached := hop_coherent.attached
  consecutive := hop_regular.consecutive
  keyed := hop_coherent.keyed
  acyclic := hop_coherent.acyclic
  linked := hop_coherent.linked

/-- An insertion under the jump that makes it too far for one byte, carried out both ways. -/
theorem edit_agrees_hop : ∃ t v,
    hop.program.Checked ∧ hop.program.Stamped
      ∧ (Edit.insertBefore ⟨2⟩ (.synthetic (List.replicate 200 0x90) 1 .nop) .keep).run hop = .ok () t
      ∧ (Edit.insertBefore ⟨2⟩ (.synthetic (List.replicate 200 0x90) 1 .nop) .keep).runFull hop
        = .ok () v
      ∧ t.program.chain = v.program.chain ∧ t.program.symbols = v.program.symbols
      ∧ t.program.functions.range? ⟨0⟩ = v.program.functions.range? ⟨0⟩ := by
  have hrun : Succeeds
      (Edit.insertBefore ⟨2⟩ (.synthetic (List.replicate 200 0x90) 1 .nop) .keep).run hop = true := by
    decide +kernel
  have hfull : Succeeds
      (Edit.insertBefore ⟨2⟩ (.synthetic (List.replicate 200 0x90) 1 .nop) .keep).runFull hop
        = true := by
    decide +kernel
  have hstamped : hop.program.Stamped := ⟨hop_regular.stamped, hop_regular.bounded⟩
  obtain ⟨_, h⟩ := Succeeds.ok hrun
  obtain ⟨_, k⟩ := Succeeds.ok hfull
  obtain ⟨hchain, hsymbols, hranges⟩ := edit_agrees hop_checked rfl rfl h k
  exact ⟨_, _, hop_checked, hstamped, h, k, hchain, hsymbols, hranges hstamped ⟨0⟩⟩

/-- Two instructions that are stamped with a function, of which only the first lies in its run. -/
def stray : Session where
  program :=
    { hop.program with
      chain := .ofList
        [{ Instruction.decoded 0 [0x90] 1 .nop with sec := 1, func := some ⟨0⟩ },
          { Instruction.decoded 1 [0x90] 1 .nop with sec := 1, func := some ⟨0⟩ }]
      functions := ⟨#[{ Function.declared "stray" 1 (some (⟨0⟩, ⟨0⟩)) 0 with size := 1 }]⟩ }
  recorder := .empty

/-- Two stamped instructions pass the checks though the run of their function holds one of them. -/
theorem stray_checked : stray.program.Checked where
  verified := isOk_iff.mp (by decide +kernel)
  attached := Chain.attached_ofList _
  consecutive := .of_section 1 (by decide)
  keyed := ⟨by decide, by decide⟩
  acyclic := Redirects.acyclic_empty
  linked := fun _ h => (List.not_mem_nil h).elim

/-- What is inserted in front of an instruction outside of the run of its function makes the function
grow until it is measured again. -/
theorem stray_ranges_differ :
    stray.program.Checked
      ∧ (∀ id ∈ stray.program.chain.ids, ∀ instr, stray.program.chain.get? id = some instr →
        instr.isShortJump = true → instr.opcodeSize < 255)
      ∧ ∃ t v, (Edit.insertBefore ⟨1⟩ (.synthetic [0x90] 1 .nop) .keep).run stray = .ok () t
        ∧ (Edit.insertBefore ⟨1⟩ (.synthetic [0x90] 1 .nop) .keep).runFull stray = .ok () v
        ∧ t.program.functions.range? ⟨0⟩ = some (0, 2)
        ∧ v.program.functions.range? ⟨0⟩ = some (0, 1) := by
  have hrun : Succeeds (Edit.insertBefore ⟨1⟩ (.synthetic [0x90] 1 .nop) .keep).run stray = true := by
    decide +kernel
  have hfull : Succeeds (Edit.insertBefore ⟨1⟩ (.synthetic [0x90] 1 .nop) .keep).runFull stray
      = true := by
    decide +kernel
  obtain ⟨_, h⟩ := Succeeds.ok hrun
  obtain ⟨_, k⟩ := Succeeds.ok hfull
  refine ⟨stray_checked, fun id hid instr hinstr _ => ?_, _, _, h, k, by decide +kernel,
    by decide +kernel⟩
  have hsmall : ∀ x ∈ stray.program.chain.ids, ∀ i ∈ stray.program.chain.get? x,
      i.opcodeSize < 255 := by
    decide +kernel
  exact hsmall id hid instr hinstr

end Splice
