import Splice.Proofs.Program.Arrangement
import Splice.Proofs.Program.Edits
import Splice.Proofs.Program.Relayout

/-!
# Edits keep the layout

Where every section is laid out back to back and every function is at the address of its
first instruction, has the size of its instructions and owns them, that is so after any
sequence of insertions, substitutions and removals, whatever jumps they widen
(`layout_of_edits`).

Each splice is one that `Fits`: it leaves the program `InPlace` but for its own shift, and
settling carries out that shift and those of the jumps that are widened (`settle_pending`).

> `openEnd_misplaced`: a function without a last instruction passes the check of functions
> wherever it is, and laying out anew then changes it; so `Program.Regular` asks for an end of
> each run.
-/

namespace Splice

/-- Sections have no gaps, and every instruction is where it belongs but for what the shifts are about
to do. -/
structure Program.Sited (program : Program) (l : List InstrId) (shifts : List Shift) : Prop where
  gapless : program.Gapless l
  attached : program.chain.Attached l
  listed : program.chain.Listed l
  owing : program.Owing l shifts

/-- Sections have no gaps, functions own their runs, and everything is where it belongs but for what the
shifts are about to do. -/
structure Program.InPlace (program : Program) (l : List InstrId) (shifts : List Shift) : Prop where
  orderly : program.Orderly l
  attached : program.chain.Attached l
  listed : program.chain.Listed l
  pending : program.Pending l shifts

/-- What an update leaves alone is what sites rely on besides what is owed. -/
theorem Program.Sited.carry {s t : Session} {l : List InstrId} {shifts left : List Shift}
    (h : s.program.Sited l shifts) (hcarries : Session.Carries s t)
    (howing : t.program.Owing l left) : t.program.Sited l left where
  gapless := h.gapless.carry hcarries
  attached := hcarries.chain.attached h.attached
  listed := h.listed.evolve hcarries.chain (fun _ _ _ h => h.references) (fun _ _ _ h => h.targetedBy)
  owing := howing

theorem Program.InPlace.sited {program : Program} {l : List InstrId} {shifts : List Shift}
    (h : program.InPlace l shifts) : program.Sited l shifts :=
  ⟨h.orderly.toGapless, h.attached, h.listed, h.pending.toOwing⟩

namespace EngineM

variable {s t : Session} {anchor old new id heir : InstrId} {found given : Instruction} {shift : Shift}
  {xs ys mid gone placed rest ids : List InstrId} {f : Function → Function} {function : Function}

/-! ## Bounds -/

/-- Bounds moved onto an instruction put in front are those of the run with that instruction. -/
theorem beginningAt_bounded (front behind : List InstrId) :
    (function.bounded anchor [new, anchor] behind front).Carried (beginningAt anchor new function) := by
  have hlast : (if function.last = some anchor then (front ++ [new, anchor]).getLast?
      else function.last) = function.last := by
    split
    next hlast => rw [hlast, List.getLast?_append]; rfl
    next => rfl
  unfold beginningAt Function.bounded
  rw [hlast]
  split <;> exact ⟨rfl, rfl, rfl, rfl⟩

/-- Bounds moved onto an instruction put behind are those of the run with that instruction. -/
theorem endingAt_bounded (front behind : List InstrId) :
    (function.bounded anchor [anchor, new] behind front).Carried (endingAt anchor new function) := by
  have hfirst : (if function.first = some anchor then ([anchor, new] ++ behind).head?
      else function.first) = function.first := by
    split
    next hfirst => rw [hfirst]; rfl
    next => rfl
  unfold endingAt Function.bounded
  rw [hfirst, List.getLast?_append]
  split <;> exact ⟨rfl, rfl, rfl, rfl⟩

/-- Bounds moved onto what replaces an instruction are those of the run with the replacement. -/
theorem replacingBounds_bounded {first last : InstrId} (hfirst : ids.head? = some first)
    (hlast : ids.getLast? = some last) (front behind : List InstrId) :
    (function.bounded old ids behind front).Carried (replacingBounds old first last function) := by
  unfold Function.bounded replacingBounds
  rw [List.head?_append, hfirst, List.getLast?_append, hlast]
  exact ⟨rfl, rfl, rfl, rfl⟩

/-- Bounds moved off an instruction that is removed are those of the run without it. -/
theorem boundedBy_bounded {front behind : List InstrId} {after before : Option InstrId}
    (hfirst : function.first = some id → behind.head? = after)
    (hlast : function.last = some id → front.getLast? = before) :
    (function.bounded id [] behind front).Carried (boundedBy id after before function) := by
  unfold Function.bounded boundedBy
  rw [List.append_nil]
  refine ⟨?_, ?_, rfl, rfl⟩
  · split
    next hid => exact (hfirst hid).symm
    next => rfl
  · show (if function.last = some id then before else function.last)
      = if function.last = some id then front.getLast? else function.last
    split
    next hid => exact (hlast hid).symm
    next => rfl

/-- The function of a splice changes its bounds, and no other one does. -/
theorem rebounds_of_withOwner
    (hfunctions : t.program.functions = (withOwner s found.func f).program.functions)
    (hfixed : ∀ function, (f function).addr = function.addr ∧ (f function).size = function.size)
    (hbounds : ∀ id function front behind, found.func = some id →
      s.program.functions.get? id = some function →
      function.Spans (xs ++ old :: ys) (front ++ old :: behind) →
      (function.bounded old mid behind front).Carried (f function)) :
    Program.Rebounds s.program t.program xs ys mid old found f where
  get? id := by rw [hfunctions, get?_withOwner]
  fixed := hfixed
  bounds := hbounds

/-- The bytes that were added are those that the shift makes room for. -/
theorem add_size (addr size total : UInt64) : addr + total = addr + size + (total - size).toInt64.toUInt64 := by
  rw [UInt64.toUInt64_toInt64]
  grind

/-! ## Splices that fit -/

/-- What a splice that fits leaves: the code with `mid` in the place of the site, and the shift. -/
theorem sited_of_fits (hs : s.program.Sited (xs ++ old :: ys) [])
    (hfits : Program.Fits s.program t.program xs ys mid old found gone placed rest shift)
    (hattached : t.program.chain.Attached (xs ++ mid ++ ys))
    (hlisted : t.program.chain.Listed (xs ++ mid ++ ys)) :
    t.program.Sited (xs ++ mid ++ ys) [shift] :=
  ⟨hfits.gapless hs.gapless, hattached, hlisted, hfits.owing hs.gapless hs.owing⟩

theorem inPlace_of_fits (hs : s.program.InPlace (xs ++ old :: ys) [])
    (hfits : Program.FitsOwned s.program t.program xs ys mid old found f gone placed rest shift)
    (hattached : t.program.chain.Attached (xs ++ mid ++ ys))
    (hlisted : t.program.chain.Listed (xs ++ mid ++ ys)) :
    t.program.InPlace (xs ++ mid ++ ys) [shift] :=
  ⟨hfits.orderly hs.orderly, hattached, hlisted, hfits.pending hs.orderly hs.pending⟩

/-- The shift for an insertion in front is just the difference that it makes. -/
theorem spliceBefore_fits {retarget : Retarget} (hs : s.program.Sited (xs ++ anchor :: ys) [])
    (h : spliceBefore anchor given retarget s = .ok (new, shift) t) :
    ∃ found, Program.Fits s.program t.program xs ys [new, anchor] anchor found [] [new]
        (anchor :: ys) shift
      ∧ t.program.functions = (withOwner s found.func (beginningAt anchor new)).program.functions
      ∧ (∃ instr, t.program.chain.get? new = some instr ∧ instr.addr = found.addr)
      ∧ t.program.chain.Attached (xs ++ [new, anchor] ++ ys)
      ∧ t.program.chain.Listed (xs ++ [new, anchor] ++ ys) := by
  obtain ⟨found, hfound, hplaced, hfunctions, -, entering, rfl⟩ :=
    spliceBefore_ok hs.gapless.spells hs.attached hs.listed h
  have hsplice := hplaced.toSpliced
  obtain ⟨instr, hinstr, halike⟩ := hplaced.placed
  have heq : xs ++ [new] ++ anchor :: ys = xs ++ [new, anchor] ++ ys := by simp
  refine ⟨found, ⟨hfound, heq ▸ hsplice.spells, .inl rfl, rfl, rfl,
    hsplice.kept.mono (fun _ _ _ _ h => h.1) fun _ h => h, hsplice.bases, rfl, rfl, rfl, ?_⟩,
    hfunctions, ⟨instr, hinstr, halike.addr⟩, heq ▸ hsplice.attached (by simpa using hs.attached),
    heq ▸ hsplice.listed⟩
  refine ⟨instr, hinstr, halike.addr, halike.sec, halike.func, ?_⟩
  have hnone : s.program.chain.extent found.sec [] = 0 := rfl
  show found.addr + instr.size = _
  rw [halike.size, hnone, UInt64.toUInt64_toInt64, UInt64.add_zero]
  rfl

/-- An insertion in front leaves everything in place but for its shift; its function begins at the new
instruction if it began at the anchor. -/
theorem spliceBefore_inPlace {retarget : Retarget}
    (hs : s.program.InPlace (xs ++ anchor :: ys) [])
    (h : spliceBefore anchor given retarget s = .ok (new, shift) t) :
    ∃ l, t.program.InPlace l [shift] := by
  obtain ⟨found, hfits, hfunctions, ⟨instr, hinstr, haddr⟩, hattached, hlisted⟩ :=
    spliceBefore_fits hs.sited h
  refine ⟨_, inPlace_of_fits (f := beginningAt anchor new) hs ⟨hfits, ?_, ?_⟩ hattached hlisted⟩
  · refine rebounds_of_withOwner hfunctions (fun function => ?_) fun _ _ front behind _ _ _ =>
      beginningAt_bounded front behind
    unfold beginningAt
    split <;> exact ⟨rfl, rfl⟩
  · intro _ _ _ x instr' _ _ _ hx hinstr'
    obtain rfl := Option.some.inj hx
    rw [hinstr, Option.some.injEq] at hinstr'
    exact .inl (hinstr' ▸ haddr)

/-- The shift for an insertion behind is just the difference that it makes. -/
theorem appendAfter_fits (hs : s.program.Sited (xs ++ anchor :: ys) [])
    (h : appendAfter anchor given s = .ok (new, shift) t) :
    ∃ found, Program.Fits s.program t.program xs ys [anchor, new] anchor found [anchor] [anchor, new]
        ys shift
      ∧ t.program.functions = (withOwner s found.func (endingAt anchor new)).program.functions
      ∧ (∃ instr, t.program.chain.get? anchor = some instr ∧ instr.addr = found.addr)
      ∧ t.program.chain.Attached (xs ++ [anchor, new] ++ ys)
      ∧ t.program.chain.Listed (xs ++ [anchor, new] ++ ys) := by
  obtain ⟨found, hfound, hplaced, hfunctions, -, rfl⟩ :=
    appendAfter_ok hs.gapless.spells hs.attached hs.listed h
  have hsplice := hplaced.toSpliced
  obtain ⟨instr, hinstr, halike⟩ := hplaced.placed
  obtain ⟨instr₀, hinstr₀, halike₀, -⟩ := hsplice.kept.get? (by simp) hfound
  have heq : xs ++ [anchor] ++ [new] ++ ys = xs ++ [anchor, new] ++ ys := by simp
  refine ⟨found, ⟨hfound, heq ▸ hsplice.spells, .inr rfl, rfl, rfl,
    hsplice.kept.mono (fun _ _ _ _ h => h.1) fun x hx => ?_, hsplice.bases, rfl, rfl, rfl, ?_⟩,
    hfunctions, ⟨instr₀, hinstr₀, halike₀.addr⟩, heq ▸ hsplice.attached (by simpa using hs.attached),
    heq ▸ hsplice.listed⟩
  · exact mem_mid_iff.mpr (.inr hx)
  · refine ⟨instr₀, hinstr₀, halike₀.addr, halike₀.sec, halike₀.func, instr, hinstr, ?_,
      halike.sec, halike.func, ?_⟩
    · rw [halike.addr, halike₀.size]
      rfl
    · show found.addr + instr₀.size + instr.size = _
      rw [halike.size, halike₀.size, Chain.extent_singleton hfound, if_pos rfl,
        UInt64.toUInt64_toInt64]
      rfl

/-- An insertion behind leaves everything in place but for its shift; its function ends at the new
instruction if it ended at the anchor. -/
theorem appendAfter_inPlace (hs : s.program.InPlace (xs ++ anchor :: ys) [])
    (h : appendAfter anchor given s = .ok (new, shift) t) :
    ∃ l, t.program.InPlace l [shift] := by
  obtain ⟨found, hfits, hfunctions, ⟨instr, hinstr, haddr⟩, hattached, hlisted⟩ :=
    appendAfter_fits hs.sited h
  refine ⟨_, inPlace_of_fits (f := endingAt anchor new) hs ⟨hfits, ?_, ?_⟩ hattached hlisted⟩
  · refine rebounds_of_withOwner hfunctions (fun function => ?_) fun _ _ front behind _ _ _ =>
      endingAt_bounded front behind
    unfold endingAt
    split <;> exact ⟨rfl, rfl⟩
  · intro _ _ _ x instr' _ _ _ hx hinstr'
    obtain rfl := Option.some.inj hx
    rw [hinstr, Option.some.injEq] at hinstr'
    exact .inl (hinstr' ▸ haddr)

/-- The shift for a substitution is just the difference that it makes. -/
theorem spliceInstead_fits {given : List Instruction} (hs : s.program.Sited (xs ++ old :: ys) [])
    (h : spliceInstead old given s = .ok (ids, shift) t) :
    ∃ found first last, Program.Fits s.program t.program xs ys ids old found [old] ids ys shift
      ∧ ids.head? = some first ∧ ids.getLast? = some last
      ∧ t.program.functions
          = (withOwner s found.func (replacingBounds old first last)).program.functions
      ∧ t.program.chain.Attached (xs ++ ids ++ ys) ∧ t.program.chain.Listed (xs ++ ids ++ ys) := by
  obtain ⟨found, first, last, hfound, hfirst, hlast, hsplice, hstacked, hfunctions, -, rfl⟩ :=
    spliceInstead_ok hs.gapless.spells hs.attached hs.listed h
  refine ⟨found, first, last, ⟨hfound, hsplice.spells, .inr rfl, rfl, rfl,
    hsplice.kept.mono (fun _ _ _ _ h => h.1) fun _ h => h, hsplice.bases, rfl, rfl, rfl, ?_⟩, hfirst,
    hlast, hfunctions, hsplice.attached (by simpa using hs.attached), hsplice.listed⟩
  rw [Chain.extent_singleton hfound, if_pos rfl, ← add_size]
  exact hstacked

/-- A substitution leaves everything in place but for its shift. -/
theorem spliceInstead_inPlace {given : List Instruction}
    (hs : s.program.InPlace (xs ++ old :: ys) [])
    (h : spliceInstead old given s = .ok (ids, shift) t) : ∃ l, t.program.InPlace l [shift] := by
  obtain ⟨found, first, last, hfits, hfirst, hlast, hfunctions, hattached, hlisted⟩ :=
    spliceInstead_fits hs.sited h
  refine ⟨_, inPlace_of_fits (f := replacingBounds old first last) hs ⟨hfits, ?_, ?_⟩ hattached hlisted⟩
  · exact rebounds_of_withOwner hfunctions (fun _ => ⟨rfl, rfl⟩) fun _ _ front behind _ _ _ =>
      replacingBounds_bounded hfirst hlast front behind
  · intro _ _ _ x instr _ _ _ hx hinstr
    obtain ⟨tail, rfl⟩ := List.head?_eq_some_iff.mp hfirst
    obtain rfl := Option.some.inj hx
    obtain ⟨head, hhead, haddr, -⟩ := hfits.given
    rw [hhead, Option.some.injEq] at hinstr
    exact .inl (hinstr ▸ haddr)

/-! ## Removals -/

theorem heir?_eq (hl : s.program.chain.Spells (xs ++ id :: ys))
    (hfound : s.program.chain.get? id = some found) :
    heir? s.program.chain id = (ys.head?.filter (s.program.chain.akin found)
      <|> xs.getLast?.filter (s.program.chain.akin found)) := by
  obtain ⟨node, hnode, rfl⟩ := Option.map_eq_some_iff.mp hfound
  rw [heir?, hnode, Option.bind_some, kin_eq hl hnode]

/-- A neighbour that is akin to an instruction is in the run of its function. -/
theorem mem_run_of_akin {owner : FuncId} {front behind : List InstrId} {x : InstrId}
    (hs : s.program.Orderly (xs ++ id :: ys)) (hfunc : found.func = some owner)
    (hfunction : s.program.functions.get? owner = some function)
    (hspans : function.Spans (xs ++ id :: ys) (front ++ id :: behind)) (hx : x ∈ xs ++ ys)
    (hakin : s.program.chain.akin found x = true) : x ∈ front ∨ x ∈ behind := by
  obtain ⟨instr, hinstr, hsame, -⟩ := Chain.akin_iff.mp hakin
  obtain ⟨hmem, hne⟩ := hs.spells.mem_rest_iff.mp hx
  have hrun := (hs.owned.stamped hs.spells hfunction hspans hmem hinstr).mp (hsame.trans hfunc)
  exact List.mem_append.mp ((mem_site_iff.mp hrun).resolve_left hne)

/-- Where what is taken out is a bound of its function, the heir is the bound that takes its place. -/
theorem akin_bounds {owner : FuncId} {front behind : List InstrId}
    (hs : s.program.Orderly (xs ++ id :: ys)) (hfound : s.program.chain.get? id = some found)
    (hheir : heir? s.program.chain id = some heir) (hfunc : found.func = some owner)
    (hfunction : s.program.functions.get? owner = some function)
    (hspans : function.Spans (xs ++ id :: ys) (front ++ id :: behind)) :
    (function.first = some id → behind.head? = ys.head?.filter (s.program.chain.akin found))
      ∧ (function.last = some id → front.getLast? = xs.getLast?.filter (s.program.chain.akin found)) := by
  have hfront := hspans.first_iff hs.spells.nodup
  have hbehind := hspans.last_iff hs.spells.nodup
  obtain ⟨us, vs, hxs, hys⟩ := hspans.sides hs.spells.nodup
  rw [heir?_eq hs.spells hfound] at hheir
  have hdisjoint : ∀ x ∈ xs, x ∉ ys := fun x hx hy =>
    (List.nodup_append.mp hs.spells.nodup).2.2 x hx x (List.mem_cons_of_mem _ hy) rfl
  have hbefore : front = [] → xs.getLast?.filter (s.program.chain.akin found) = none := by
    intro hnil
    rw [Option.filter_eq_none_iff]
    intro x hx hakin
    have hmem := List.mem_of_getLast? hx
    rcases mem_run_of_akin hs hfunc hfunction hspans (List.mem_append_left _ hmem) hakin with hin | hin
    · rw [hnil] at hin
      cases hin
    · exact hdisjoint x hmem (hys ▸ List.mem_append_left _ hin)
  have hafter : behind = [] → ys.head?.filter (s.program.chain.akin found) = none := by
    intro hnil
    rw [Option.filter_eq_none_iff]
    intro x hx hakin
    have hmem := List.mem_of_head? hx
    rcases mem_run_of_akin hs hfunc hfunction hspans (List.mem_append_right _ hmem) hakin with hin | hin
    · exact hdisjoint x (hxs ▸ List.mem_append_right _ hin) hmem
    · rw [hnil] at hin
      cases hin
  -- the heir is of the same function and on the one side or the other; at a bound there is but one side
  constructor
  · intro hfirst
    rw [hbefore (hfront.mp hfirst)] at hheir
    cases behind with
    | nil => exact (hafter rfl).symm
    | cons x behind =>
      cases hhead : ys.head?.filter (s.program.chain.akin found) with
      | none =>
        rw [hhead] at hheir
        cases hheir
      | some next =>
        rw [← (Option.filter_eq_some_iff.mp hhead).1, hys]
        rfl
  · intro hlast
    rw [hafter (hbehind.mp hlast)] at hheir
    cases hend : xs.getLast?.filter (s.program.chain.akin found) with
    | none =>
      rw [hend] at hheir
      cases hheir
    | some prev =>
      have hprev := (Option.filter_eq_some_iff.mp hend).1
      rw [hxs, List.getLast?_append] at hprev
      cases hx : front.getLast? with
      | none =>
        rw [hbefore (List.getLast?_eq_none_iff.mp hx)] at hend
        cases hend
      | some x =>
        rw [hx] at hprev
        exact hprev

/-- The shift for a removal is just the difference that it makes. -/
theorem excise_fits {freed : Instruction} (hs : s.program.Sited (xs ++ id :: ys) [])
    (h : excise id s = .ok (freed, shift) t) :
    ∃ found heir, heir? s.program.chain id = some heir
      ∧ Program.Fits s.program t.program xs ys [] id found [id] [] ys shift
      ∧ shift.delta = (-found.size).toInt64
      ∧ t.program.functions = (withOwner s found.func
          (boundedBy id (ys.head?.filter (s.program.chain.akin found))
            (xs.getLast?.filter (s.program.chain.akin found)))).program.functions
      ∧ t.program.chain.Attached (xs ++ [] ++ ys) ∧ t.program.chain.Listed (xs ++ [] ++ ys) := by
  obtain ⟨found, heir, hfound, hheir, hsplice, hfunctions, -, edited, -, rfl⟩ :=
    excise_ok hs.gapless.spells hs.listed h
  refine ⟨found, heir, hheir, ⟨hfound, hsplice.spells, .inr rfl, rfl, rfl,
    hsplice.kept.mono (fun _ _ _ _ h => h.1) fun _ h => h, hsplice.bases, rfl, rfl, rfl, ?_⟩, rfl,
    hfunctions, hsplice.attached (by simpa using hs.attached), hsplice.listed⟩
  rw [Chain.extent_singleton hfound, if_pos rfl, UInt64.toUInt64_toInt64]
  show found.addr = _
  grind

/-- A removal leaves everything in place but for its shift. If the function began at the instruction, it
begins at the next one, which the shift takes to the address that the function has. -/
theorem excise_inPlace {freed : Instruction} (hs : s.program.InPlace (xs ++ id :: ys) [])
    (h : excise id s = .ok (freed, shift) t) : ∃ l, t.program.InPlace l [shift] := by
  obtain ⟨found, heir, hheir, hfits, hdelta, hfunctions, hattached, hlisted⟩ := excise_fits hs.sited h
  have hfound := hfits.get?
  -- both bounds of the function pass to neighbours in it, and so does the start
  refine ⟨_, inPlace_of_fits hs ⟨hfits, rebounds_of_withOwner hfunctions (fun _ => ⟨rfl, rfl⟩) ?_, ?_⟩
    hattached hlisted⟩
  · intro owner function front behind hfunc hfunction hspans
    obtain ⟨hfirst, hlast⟩ := akin_bounds hs.orderly hfound hheir hfunc hfunction hspans
    exact boundedBy_bounded hfirst hlast
  · intro owner function behind x instr hfunc hfunction hspans hx hinstr
    have hspans' : function.Spans (xs ++ id :: ys) ([] ++ id :: behind) := hspans
    obtain ⟨hfirst, -⟩ := akin_bounds hs.orderly hfound hheir hfunc hfunction hspans'
    have hid : function.first = some id := by
      obtain ⟨_, _, -, hhead, -⟩ := hspans
      exact hhead
    rw [List.nil_append, hfirst hid] at hx
    obtain ⟨hhead, hakin⟩ := Option.filter_eq_some_iff.mp hx
    obtain ⟨tail, rfl⟩ := List.head?_eq_some_iff.mp hhead
    obtain ⟨next, hnext, halike⟩ := hfits.kept.get?_of (by simp) hinstr
    obtain ⟨next', hnext', -, hsec⟩ := Chain.akin_iff.mp hakin
    rw [hnext, Option.some.injEq] at hnext'
    subst hnext'
    by_cases hzero : (-found.size).toInt64 = 0
    · -- an instruction without bytes leaves no gap
      have hlaid := (Program.pending_nil.mp hs.pending).1
      have haddr := hlaid (xs ++ [id]) x tail next (by simp) hnext
      have hsize : found.size = 0 := by
        have hneg := congrArg Int64.toUInt64 hzero
        rw [UInt64.toUInt64_toInt64] at hneg
        have hnone : (0 : Int64).toUInt64 = 0 := rfl
        grind
      left
      rw [halike.addr, haddr, hlaid xs id (x :: tail) found rfl hfound, hsec, Program.place_append,
        Chain.extent_singleton hfound, if_pos rfl, hsize, UInt64.add_zero]
    · refine .inr ⟨hdelta ▸ hzero, ?_⟩
      have hspells : t.program.chain.Spells (xs ++ x :: tail) := by simpa using hfits.spells
      rw [Chain.reach_eq hspells hfits.first, List.takeWhile_cons,
        if_pos ((Chain.inSection_iff hinstr).mpr (halike.sec.trans (hsec.trans hfits.sec.symm)))]
      exact List.mem_cons_self ..

/-! ## Edits -/

/-- What is edited is in the code, where that can be cut. -/
theorem SpliceRun.site {edit : Edit} {l : List InstrId} (h : SpliceRun s edit shift t)
    (hkind : edit.resizes = false) (hl : s.program.chain.Spells l)
    (hattached : s.program.chain.Attached l) : ∃ xs site ys, l = xs ++ site :: ys
      ∧ ((∃ given new retarget, edit.given = [given]
          ∧ spliceBefore site given retarget s = .ok (new, shift) t)
        ∨ (∃ given new, edit.given = [given] ∧ appendAfter site given s = .ok (new, shift) t)
        ∨ (∃ ids, spliceInstead site edit.given s = .ok (ids, shift) t)
        ∨ edit.removes = true ∧ ∃ freed, excise site s = .ok (freed, shift) t) := by
  have hsplit : ∀ {id : InstrId} {instr : Instruction}, s.program.chain.get? id = some instr →
      ∃ xs ys, l = xs ++ id :: ys := by
    intro id instr hget
    exact List.append_of_mem (hattached id (by rw [Chain.contains_eq_isSome_get?, hget]; rfl))
  cases h with
  | before run =>
    obtain ⟨found, hfound⟩ := spliceBefore_present run
    obtain ⟨xs, ys, hcut⟩ := hsplit hfound
    exact ⟨xs, _, ys, hcut, .inl ⟨_, _, _, rfl, run⟩⟩
  | after run =>
    obtain ⟨found, hfound⟩ := spliceBefore_present run
    obtain ⟨xs, ys, hcut⟩ := hsplit hfound
    exact ⟨xs, _, ys, hcut, .inl ⟨_, _, _, rfl, run⟩⟩
  | behind run =>
    obtain ⟨found, hfound⟩ := appendAfter_present run
    obtain ⟨xs, ys, hcut⟩ := hsplit hfound
    exact ⟨xs, _, ys, hcut, .inr (.inl ⟨_, _, rfl, run⟩)⟩
  | instead run =>
    obtain ⟨found, hfound⟩ := spliceInstead_present run
    obtain ⟨xs, ys, hcut⟩ := hsplit hfound
    exact ⟨xs, _, ys, hcut, .inr (.inr (.inl ⟨_, run⟩))⟩
  | out run =>
    obtain ⟨heir, hheir⟩ := excise_heir run
    obtain ⟨xs, ys, hcut⟩ := List.append_of_mem (heir?_linked hl hheir)
    exact ⟨xs, _, ys, hcut, .inr (.inr (.inr ⟨rfl, _, run⟩))⟩
  | resized => cases hkind

/-- A splice leaves every instruction in place but for what its shift is about to move. -/
theorem SpliceRun.sited {edit : Edit} {l : List InstrId} (h : SpliceRun s edit shift t)
    (hkind : edit.resizes = false) (hs : s.program.Sited l []) :
    ∃ l, t.program.Sited l [shift] := by
  obtain ⟨xs, site, ys, rfl, hrun⟩ := h.site hkind hs.gapless.spells hs.attached
  rcases hrun with ⟨_, _, _, -, run⟩ | ⟨_, _, -, run⟩ | ⟨_, run⟩ | ⟨-, _, run⟩
  · obtain ⟨_, hfits, -, -, hattached, hlisted⟩ := spliceBefore_fits hs run
    exact ⟨_, sited_of_fits hs hfits hattached hlisted⟩
  · obtain ⟨_, hfits, -, -, hattached, hlisted⟩ := appendAfter_fits hs run
    exact ⟨_, sited_of_fits hs hfits hattached hlisted⟩
  · obtain ⟨_, _, _, hfits, -, -, -, hattached, hlisted⟩ := spliceInstead_fits hs run
    exact ⟨_, sited_of_fits hs hfits hattached hlisted⟩
  · obtain ⟨_, _, -, hfits, -, -, hattached, hlisted⟩ := excise_fits hs run
    exact ⟨_, sited_of_fits hs hfits hattached hlisted⟩

/-- The shift of an insertion or a substitution makes the function of something that was put in grow. -/
theorem SpliceRun.owner {edit : Edit} {l : List InstrId} (h : SpliceRun s edit shift t)
    (hremoves : edit.removes = false) (hresizes : edit.resizes = false) (hs : s.program.Sited l []) :
    ∃ id instr, t.program.chain.get? id = some instr ∧ instr.func = shift.func := by
  obtain ⟨xs, site, ys, rfl, hrun⟩ := h.site hresizes hs.gapless.spells hs.attached
  rcases hrun with ⟨_, _, _, -, run⟩ | ⟨_, _, -, run⟩ | ⟨_, run⟩ | ⟨hout, -⟩
  · obtain ⟨_, hfits, -⟩ := spliceBefore_fits hs run
    exact hfits.owner (List.cons_ne_nil _ _)
  · obtain ⟨_, hfits, -⟩ := appendAfter_fits hs run
    exact hfits.owner (List.cons_ne_nil _ _)
  · obtain ⟨_, first, _, hfits, hfirst, -⟩ := spliceInstead_fits hs run
    refine hfits.owner ?_
    rintro rfl
    cases hfirst
  · exact absurd hout (Bool.eq_false_iff.mp hremoves)

/-- A splice leaves everything in place but for what its shift is about to move. -/
theorem SpliceRun.inPlace {edit : Edit} {l : List InstrId} (h : SpliceRun s edit shift t)
    (hkind : edit.resizes = false) (hs : s.program.InPlace l []) :
    ∃ l, t.program.InPlace l [shift] := by
  obtain ⟨xs, site, ys, rfl, hrun⟩ := h.site hkind hs.orderly.spells hs.attached
  rcases hrun with ⟨_, _, _, -, run⟩ | ⟨_, _, -, run⟩ | ⟨_, run⟩ | ⟨-, _, run⟩
  · exact spliceBefore_inPlace hs run
  · exact appendAfter_inPlace hs run
  · exact spliceInstead_inPlace hs run
  · exact excise_inPlace hs run

/-- An edit leaves everything in place: its update carries out the shift and those of the jumps it
widens. -/
theorem edit_inPlace {edit : Edit} {u : Unit} (hkind : edit.resizes = false)
    (hs : ∃ l, s.program.InPlace l []) (h : edit.run s = .ok u t) :
    ∃ l, t.program.InPlace l [] := by
  obtain ⟨l, hs⟩ := hs
  obtain ⟨shift, m, summary, hsplice, hsettle⟩ := edit_ok h
  obtain ⟨l', hm⟩ := hsplice.inPlace hkind hs
  have hcarries := Session.Carries.updateRelation.settle hsettle
  refine ⟨l', hm.orderly.carry hcarries, hcarries.chain.attached hm.attached, ?_,
    settle_pending hm.orderly hsettle hm.pending⟩
  exact hm.listed.evolve hcarries.chain (fun _ _ _ h => h.references) (fun _ _ _ h => h.targetedBy)

/-- Edits one after the other leave everything in place. -/
theorem edits_inPlace {edits : List Edit} {u : Unit} (hkinds : ∀ edit ∈ edits, edit.resizes = false)
    (hs : ∃ l, s.program.InPlace l []) (h : edits.forM Edit.run s = .ok u t) :
    ∃ l, t.program.InPlace l [] := by
  induction edits generalizing s with
  | nil =>
    rw [forM_nil_ok] at h
    exact h ▸ hs
  | cons edit edits ih =>
    obtain ⟨m, hedit, hrest⟩ := forM_cons_ok.mp h
    exact ih (fun e he => hkinds e (List.mem_cons_of_mem _ he))
      (edit_inPlace (hkinds edit (List.mem_cons_self ..)) hs hedit) hrest

end EngineM

/-! ## What is checked -/

/-- A program that passes the checks of its layout and its functions, in which no section has gaps and
the instructions stamped with a function are those of its run. -/
structure Program.Vetted (program : Program) : Prop where
  wellFormed : program.chain.WellFormed
  attached : program.chain.Attached program.chain.ids
  addresses : program.verifyAddresses = .ok ()
  functions : program.verifyFunctions = .ok ()
  references : program.verifyReferences = .ok ()
  consecutive : program.chain.Consecutive program.chain.ids
  stamped : ∀ id ∈ program.chain.ids, ∀ instr owner, program.chain.get? id = some instr →
    (instr.func = some owner ↔ ∃ function, program.functions.get? owner = some function
      ∧ id ∈ function.instructions program.chain)

/-- A vetted program in which the run of every function that is defined has an end. The check passes over
functions without one. -/
structure Program.Regular (program : Program) : Prop extends program.Vetted where
  bounded : ∀ owner function, program.functions.get? owner = some function →
    function.isDefined = true → function.last.isSome = true

namespace Program

variable {program : Program} {l : List InstrId}

/-- Where the instructions stamped with a function are those of its run, they are a piece of the code that
its bounds enclose. -/
theorem Regular.spans (h : program.Regular) {owner : FuncId} {function : Function}
    (hfunction : program.functions.get? owner = some function) :
    function.Spans program.chain.ids (function.instructions program.chain) := by
  have hl := h.wellFormed.spells
  cases hfirst : function.first with
  | none =>
    have hspans : function.Spans program.chain.ids [] :=
      ⟨[], program.chain.ids, rfl, hfirst, fun hne => absurd rfl hne⟩
    rw [hspans.instructions hl]
    exact hspans
  | some first =>
    have hdefined : function.isDefined = true := by rw [Function.isDefined, hfirst]; rfl
    obtain ⟨last, hlast⟩ := Option.isSome_iff_exists.mp (h.bounded owner function hfunction hdefined)
    have hcheck := verifyFunctions_ok.mp h.functions owner function hfunction
    obtain ⟨-, hreached, ⟨instr, hinstr, -⟩, -⟩ := verifyFunction_ok.mp hcheck first last hfirst hlast
    have hmem := h.attached first (by rw [Chain.contains_eq_isSome_get?, hinstr]; rfl)
    obtain ⟨xs, rest, hsplit⟩ := List.append_of_mem hmem
    rw [Function.instructions, hfirst, hlast] at hreached
    rw [hsplit] at hl
    obtain ⟨run, ys, hcut, hend, hrun⟩ := hl.run_split hreached
    rw [Function.instructions, hfirst, hlast, hrun]
    refine ⟨xs, ys, by rw [hsplit, hcut, List.append_assoc], ?_, fun _ => hlast.trans hend.symm⟩
    cases run with
    | nil => cases hend
    | cons head run =>
      rw [hfirst, (List.cons.inj hcut).1]
      rfl

/-- A regular program has everything in place, which the checks of its layout and functions come to. -/
theorem Regular.inPlace (h : program.Regular) : program.InPlace program.chain.ids [] := by
  have hl := h.wellFormed.spells
  have hcheck : ∀ owner function, program.functions.get? owner = some function →
      ∀ first, function.first = some first →
      (∃ instr, program.chain.get? first = some instr ∧ function.addr = instr.addr)
        ∧ function.size = ((function.instructions program.chain).map program.chain.sizeOf).sum := by
    intro owner function hfunction first hfirst
    have hdefined : function.isDefined = true := by rw [Function.isDefined, hfirst]; rfl
    obtain ⟨last, hlast⟩ := Option.isSome_iff_exists.mp (h.bounded owner function hfunction hdefined)
    have hcheck := verifyFunctions_ok.mp h.functions owner function hfunction
    exact (verifyFunction_ok.mp hcheck first last hfirst hlast).2.2
  have howned : program.Owned program.chain.ids := by
    intro owner function hfunction
    refine ⟨_, h.spans hfunction, fun x hx instr hinstr => ?_⟩
    rw [h.stamped x hx instr owner hinstr]
    constructor
    · intro hin
      obtain ⟨function', hfunction', hmem⟩ := hin
      rw [hfunction, Option.some.injEq] at hfunction'
      exact hfunction' ▸ hmem
    · intro hmem
      exact ⟨function, hfunction, hmem⟩
  refine ⟨⟨⟨hl, h.consecutive⟩, howned⟩, h.attached, verifyReferences_listed hl h.references, ?_⟩
  -- nothing is pending, so the checks of the functions say all that is left
  refine pending_nil.mpr ⟨verifyAddresses_ok.mp h.addresses, fun owner function hfunction hdefined => ?_,
    fun owner function first instr hfunction hfirst hinstr _ => ?_⟩
  · obtain ⟨first, hfirst⟩ := Option.isSome_iff_exists.mp hdefined
    exact (hcheck owner function hfunction first hfirst).2
  · obtain ⟨⟨found, hfound, haddr⟩, -⟩ := hcheck owner function hfunction first hfirst
    rw [hinstr, Option.some.injEq] at hfound
    rw [haddr, hfound]

/-- Where nothing is pending, a function is at its first instruction, has the size of its instructions
and owns them. -/
theorem InPlace.function (h : program.InPlace l []) {owner : FuncId} {function : Function}
    (hfunction : program.functions.get? owner = some function) :
    (∀ first, function.first = some first →
        ∃ instr, program.chain.get? first = some instr ∧ function.addr = instr.addr)
      ∧ (function.isDefined = true →
        function.size = ((function.instructions program.chain).map program.chain.sizeOf).sum)
      ∧ (∀ id ∈ function.instructions program.chain, id ∈ l)
      ∧ ∀ id ∈ l, ∀ instr, program.chain.get? id = some instr →
        (instr.func = some owner ↔ id ∈ function.instructions program.chain) := by
  obtain ⟨-, hmeasured, hanchored⟩ := pending_nil.mp h.pending
  obtain ⟨run, hspans, hstamped⟩ := h.orderly.owned owner function hfunction
  rw [hspans.instructions h.orderly.spells]
  refine ⟨fun first hfirst => ?_, fun hdefined => ?_, fun id hid => hspans.subset hid, hstamped⟩
  · have hmem : first ∈ run := by
      obtain ⟨_, _, -, hhead, -⟩ := hspans
      exact List.mem_of_head? (hhead.symm.trans hfirst)
    obtain ⟨instr, hinstr⟩ := h.orderly.spells.get?_isSome (hspans.subset hmem)
    exact ⟨instr, hinstr, hanchored owner function first instr hfunction hfirst hinstr
      ((hstamped first (hspans.subset hmem) instr hinstr).mpr hmem)⟩
  · rw [← hspans.instructions h.orderly.spells]
    exact hmeasured owner function hfunction hdefined

/-- A program with everything in place passes the check of functions. -/
theorem InPlace.verifyFunctions (h : program.InPlace l []) : program.verifyFunctions = .ok () := by
  refine verifyFunctions_ok.mpr fun owner function hfunction => ?_
  obtain ⟨hstart, hsize, hsub, hstamped⟩ := h.function hfunction
  refine verifyFunction_ok.mpr fun first last hfirst hlast =>
    ⟨fun x hx => ?_, ?_, hstart first hfirst, hsize (by rw [Function.isDefined, hfirst]; rfl)⟩
  · obtain ⟨instr, hinstr⟩ := h.orderly.spells.get?_isSome (hsub x hx)
    exact ⟨instr, hinstr, (hstamped x (hsub x hx) instr hinstr).mpr hx⟩
  · obtain ⟨run, hspans, -⟩ := h.orderly.owned owner function hfunction
    rw [hspans.instructions h.orderly.spells]
    exact hspans.last_mem hfirst hlast

/-- In a program with everything in place the layout finds nothing to move. -/
theorem InPlace.updateAddresses {s : Session} (h : s.program.InPlace l []) :
    EngineM.updateAddresses s = .ok .zero s := by
  obtain ⟨hlaid, -, -⟩ := pending_nil.mp h.pending
  refine EngineM.updateAddresses_still (h.orderly.spells.ids_eq.symm ▸ hlaid)
    fun owner function hfunction => ?_
  obtain ⟨hstart, hsize, hsub, -⟩ := h.function hfunction
  exact EngineM.measured_still hstart (fun id hid => h.orderly.spells.get?_isSome (hsub id hid)) hsize

end Program

/-- After any sequence of insertions, substitutions and removals every section is laid out back to back
from its base, every function is at the address of its first instruction, has the size of its
instructions and owns them, and laying out anew would move nothing and change no function. -/
theorem layout_of_edits {s t : Session} {edits : List Edit} {u : Unit} (hs : s.program.Regular)
    (hkinds : ∀ edit ∈ edits, edit.resizes = false) (h : edits.forM Edit.run s = .ok u t) :
    t.program.verifyAddresses = .ok () ∧ t.program.verifyFunctions = .ok ()
      ∧ t.program.LaidOut t.program.chain.ids
      ∧ (∀ owner function, t.program.functions.get? owner = some function →
        (∀ first, function.first = some first →
            ∃ instr, t.program.chain.get? first = some instr ∧ function.addr = instr.addr)
          ∧ (function.isDefined = true →
            function.size = ((function.instructions t.program.chain).map t.program.chain.sizeOf).sum)
          ∧ ∀ id ∈ t.program.chain.ids, ∀ instr, t.program.chain.get? id = some instr →
            (instr.func = some owner ↔ id ∈ function.instructions t.program.chain))
      ∧ EngineM.updateAddresses t = .ok .zero t := by
  obtain ⟨l, hplace⟩ := EngineM.edits_inPlace hkinds ⟨_, hs.inPlace⟩ h
  have hl := hplace.orderly.spells.ids_eq
  obtain ⟨hlaid, -, -⟩ := Program.pending_nil.mp hplace.pending
  rw [Program.verifyAddresses_ok, hl]
  refine ⟨hlaid, hplace.verifyFunctions, hlaid, fun owner function hfunction => ?_,
    hplace.updateAddresses⟩
  obtain ⟨hstart, hsize, -, hstamped⟩ := hplace.function hfunction
  exact ⟨hstart, hsize, hstamped⟩

/-- Where one function is all of the code, the instructions stamped with it are those of its run. -/
theorem Program.stamped_of_whole {program : Program} {function : Function}
    (honly : program.functions = ⟨#[function]⟩)
    (hids : function.instructions program.chain = program.chain.ids)
    (hstamps : ∀ id ∈ program.chain.ids, (program.chain.get? id).map (·.func) = some (some ⟨0⟩)) :
    ∀ id ∈ program.chain.ids, ∀ instr owner, program.chain.get? id = some instr →
      (instr.func = some owner ↔ ∃ function, program.functions.get? owner = some function
        ∧ id ∈ function.instructions program.chain) := by
  intro id hid instr owner hinstr
  have hown := hstamps id hid
  rw [hinstr, Option.map_some, Option.some.injEq] at hown
  rw [hown, honly]
  constructor
  · intro howner
    obtain rfl := Option.some.inj howner
    exact ⟨function, rfl, hids ▸ hid⟩
  · rintro ⟨other, hother, -⟩
    obtain ⟨index⟩ := owner
    cases index with
    | zero => rfl
    | succ index => cases hother

/-- The jump over an instruction is regular. -/
theorem hop_regular : hop.program.Regular where
  wellFormed := hop_wellFormed
  attached := hop_coherent.attached
  addresses := isOk_iff.mp (by decide +kernel)
  functions := isOk_iff.mp (by decide +kernel)
  references := rfl
  consecutive := .of_section 1 (by decide)
  stamped := Program.stamped_of_whole rfl (by decide) (by decide)
  bounded := by
    intro owner function hfunction _
    obtain ⟨index⟩ := owner
    cases index with
    | zero =>
      obtain rfl := Option.some.inj hfunction
      rfl
    | succ index => cases hfunction

/-- Each kind of edit once, with an insertion that makes the jump too far for one byte. -/
theorem layout_of_edits_hop : ∃ t,
    hop.program.Regular
      ∧ [Edit.insertBefore ⟨2⟩ (.synthetic (List.replicate 200 0x90) 1 .nop) .inserted,
          .insertAfter ⟨2⟩ (.synthetic [0x90] 1 .nop),
          .substitute ⟨1⟩ [.synthetic [0x90] 1 .nop, .synthetic [0x90] 1 .nop],
          .remove ⟨0⟩].forM Edit.run hop = .ok () t
      ∧ t.program.verifyAddresses = .ok () ∧ t.program.verifyFunctions = .ok () := by
  have hrun : Succeeds ([Edit.insertBefore ⟨2⟩ (.synthetic (List.replicate 200 0x90) 1 .nop) .inserted,
      .insertAfter ⟨2⟩ (.synthetic [0x90] 1 .nop),
      .substitute ⟨1⟩ [.synthetic [0x90] 1 .nop, .synthetic [0x90] 1 .nop],
      .remove ⟨0⟩].forM Edit.run) hop = true := by
    decide +kernel
  obtain ⟨_, h⟩ := Succeeds.ok hrun
  obtain ⟨haddresses, hfunctions, -⟩ := layout_of_edits hop_regular (by decide) h
  exact ⟨_, hop_regular, h, haddresses, hfunctions⟩

/-- Two instructions of a function that has no last one, and is neither at the address of the first one nor
of the size of the two. -/
def openEnd : Session where
  program :=
    { hop.program with
      chain := .ofList
        [{ Instruction.decoded 0 [0x90] 1 .nop with sec := 1, func := some ⟨0⟩ },
          { Instruction.decoded 1 [0x90] 1 .nop with sec := 1, func := some ⟨0⟩ }]
      functions := ⟨#[{ Function.declared "open" 1 none 0 with first := some ⟨0⟩, addr := 5, size := 7 }]⟩ }
  recorder := .empty

/-- Two instructions with an open-ended function pass the checks. -/
theorem openEnd_vetted : openEnd.program.Vetted where
  wellFormed := (Chain.spells_ofList _).wellFormed
  attached := Chain.attached_ofList _
  addresses := isOk_iff.mp (by decide +kernel)
  functions := isOk_iff.mp (by decide +kernel)
  references := rfl
  consecutive := .of_section 1 (by decide)
  stamped := Program.stamped_of_whole rfl (by decide) (by decide)

/-- A function without a last instruction is not where it begins and not as large as it is, before an
insertion and behind it, and laying out anew changes it. -/
theorem openEnd_misplaced : ∃ t u,
    openEnd.program.Vetted
      ∧ [Edit.insertAfter ⟨1⟩ (.synthetic [0x90] 1 .nop)].forM Edit.run openEnd = .ok () t
      ∧ (t.program.functions.get? ⟨0⟩).map (fun function => (function.first, function.addr, function.size))
        = some (some ⟨0⟩, 5, 8)
      ∧ (t.program.chain.get? ⟨0⟩).map (·.addr) = some 0
      ∧ EngineM.updateAddresses t = .ok .zero u
      ∧ (u.program.functions.get? ⟨0⟩).map (fun function => (function.first, function.addr, function.size))
        = some (some ⟨0⟩, 0, 3) := by
  have hrun : Succeeds ([Edit.insertAfter ⟨1⟩ (.synthetic [0x90] 1 .nop)].forM Edit.run) openEnd = true := by
    decide +kernel
  obtain ⟨_, h⟩ := Succeeds.ok hrun
  have hupdate : Returns EngineM.updateAddresses
      (outcome ([Edit.insertAfter ⟨1⟩ (.synthetic [0x90] 1 .nop)].forM Edit.run) openEnd) .zero = true := by
    decide +kernel
  exact ⟨_, _, openEnd_vetted, h, by decide +kernel, by decide +kernel, Returns.ok hupdate, by decide +kernel⟩

end Splice
