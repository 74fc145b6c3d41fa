import Splice.Proofs.Program.Layout
import Splice.Proofs.Program.Session

/-!
# Runs of functions

A function owns the instructions between its bounds. `Function.Spans` says which stretch of
the code that is, and a program whose instructions are stamped with a function exactly if
they lie in its stretch is `Owned`. `verifyFunctions_ok` says what the check establishes on
top of that: each function is at the address of its first instruction, and its size is that
of its run.

`Function.Spans.splice` follows the bounds through a splice: wherever instructions are put
in the place of another one, the run of its function has them in the place of that, and its
bounds change only where the instruction was one.

A function without a last instruction owns what follows its first one as far as the code goes,
and the check passes over it. So an equivalence with the check is stated for functions that have
both bounds, and `Program.Owned` covers the others only where that is supposed.
-/

namespace Splice

namespace Function

/-- The stretch `run` of the code is what lies between the bounds of the function; it is empty if the
function is not defined. -/
def Spans (function : Function) (l run : List InstrId) : Prop :=
  ∃ xs ys, l = xs ++ run ++ ys ∧ function.first = run.head?
    ∧ (run ≠ [] → function.last = run.getLast?)

variable {function : Function} {chain : Chain} {l run : List InstrId}

/-- The instructions between the bounds are the stretch that the function spans. -/
theorem Spans.instructions (h : function.Spans l run) (hl : chain.Spells l) :
    function.instructions chain = run := by
  obtain ⟨xs, ys, rfl, hfirst, hlast⟩ := h
  cases hrun : run with
  | nil =>
    rw [hrun] at hfirst
    rw [Function.instructions, hfirst]
    rfl
  | cons first rest =>
    obtain ⟨last, hend⟩ := Option.isSome_iff_exists.mp
      (List.getLast?_isSome.mpr (List.cons_ne_nil first rest))
    have hne : run ≠ [] := by rw [hrun]; exact List.cons_ne_nil first rest
    rw [← hrun] at hend ⊢
    rw [Function.instructions, hfirst, hlast hne, hend]
    have hhead : run.head? = some first := by rw [hrun]; rfl
    rw [hhead]
    exact hl.run_eq hhead hend

/-- A stretch given by where it begins and how many instructions it has. -/
theorem spans_slice (start count : Nat) (hfirst : function.first = ((l.drop start).take count).head?)
    (hlast : function.last = ((l.drop start).take count).getLast?) :
    function.Spans l ((l.drop start).take count) := by
  refine ⟨l.take start, (l.drop start).drop count, ?_, hfirst, fun _ => hlast⟩
  rw [List.append_assoc, List.take_append_drop, List.take_append_drop]

theorem Carried.spans {a b : Function} (h : Carried a b) (hspans : a.Spans l run) : b.Spans l run := by
  obtain ⟨xs, ys, hsplit, hfirst, hlast⟩ := hspans
  exact ⟨xs, ys, hsplit, h.first.trans hfirst, fun hrun => h.last.trans (hlast hrun)⟩

/-! ## Splices -/

/-- What a function spans is a piece of the code. -/
theorem Spans.subset (h : function.Spans l run) {x : InstrId} (hx : x ∈ run) : x ∈ l := by
  obtain ⟨us, vs, hsplit, -, -⟩ := h
  rw [hsplit]
  exact List.mem_append_left _ (List.mem_append_right _ hx)

/-- The last instruction of a function that is defined is one of its run. -/
theorem Spans.last_mem (h : function.Spans l run) {first last : InstrId}
    (hfirst : function.first = some first) (hlast : function.last = some last) : last ∈ run := by
  obtain ⟨_, _, -, hhead, hend⟩ := h
  have hne : run ≠ [] := by
    rintro rfl
    rw [hfirst] at hhead
    cases hhead
  exact List.mem_of_getLast? ((hend hne).symm.trans hlast)

/-- The parts of a run in front of an instruction and behind it lie next to that. -/
theorem Spans.sides {xs ys front behind : List InstrId} {site : InstrId}
    (h : function.Spans (xs ++ site :: ys) (front ++ site :: behind))
    (hnodup : (xs ++ site :: ys).Nodup) : ∃ us vs, xs = us ++ front ∧ ys = behind ++ vs := by
  obtain ⟨us, vs, hsplit, -, -⟩ := h
  have heq : xs ++ site :: ys = (us ++ front) ++ site :: (behind ++ vs) := by simp [hsplit]
  obtain ⟨hxs, hys⟩ := cut_inj hnodup heq
  exact ⟨us, vs, hxs.symm, hys.symm⟩

section

variable {xs ys front behind mid : List InstrId} {site x : InstrId}

/-- What stands beside the site in its run stands beside it in the code. -/
theorem Spans.mem_rest (h : function.Spans (xs ++ site :: ys) (front ++ site :: behind))
    (hnodup : (xs ++ site :: ys).Nodup) (hx : x ∈ front ∨ x ∈ behind) : x ∈ xs ++ ys := by
  obtain ⟨us, vs, rfl, rfl⟩ := h.sides hnodup
  rcases hx with hx | hx
  · exact List.mem_append_left _ (List.mem_append_right _ hx)
  · exact List.mem_append_right _ (List.mem_append_left _ hx)

theorem Spans.ne_site (h : function.Spans (xs ++ site :: ys) (front ++ site :: behind))
    (hnodup : (xs ++ site :: ys).Nodup) (hx : x ∈ front ∨ x ∈ behind) : x ≠ site := by
  rintro rfl
  exact not_mem_of_nodup hnodup (h.mem_rest hnodup hx)

/-- The first instruction of a function has nothing of it in front. -/
theorem Spans.first_iff (h : function.Spans (xs ++ site :: ys) (front ++ site :: behind))
    (hnodup : (xs ++ site :: ys).Nodup) : function.first = some site ↔ front = [] := by
  have hfirst : function.first = (front ++ site :: behind).head? := by
    obtain ⟨_, _, -, hfirst, -⟩ := h
    exact hfirst
  cases front with
  | nil => exact ⟨fun _ => rfl, fun _ => hfirst⟩
  | cons x front =>
    have hne := h.ne_site hnodup (.inl (List.mem_cons_self ..))
    rw [hfirst]
    constructor
    · intro he
      exact absurd (Option.some.inj he) hne
    · intro he
      cases he

/-- The last instruction of a function has nothing of it behind. -/
theorem Spans.last_iff (h : function.Spans (xs ++ site :: ys) (front ++ site :: behind))
    (hnodup : (xs ++ site :: ys).Nodup) : function.last = some site ↔ behind = [] := by
  have hlast : function.last = (front ++ site :: behind).getLast? := by
    obtain ⟨_, _, -, -, hlast⟩ := h
    exact hlast (List.append_ne_nil_of_right_ne_nil front (List.cons_ne_nil site behind))
  rw [hlast, List.getLast?_append, List.getLast?_cons]
  cases hend : behind.getLast? with
  | none =>
    rw [List.getLast?_eq_none_iff] at hend
    exact ⟨fun _ => hend, fun _ => rfl⟩
  | some y =>
    have hne := h.ne_site hnodup (.inr (List.mem_of_getLast? hend))
    constructor
    · intro he
      exact absurd (Option.some.inj he) hne
    · intro he
      rw [he] at hend
      cases hend

/-- The bounds of a function whose run has `mid` in the place of `site`. -/
def bounded (site : InstrId) (mid behind front : List InstrId) (function : Function) : Function :=
  { function with
    first := if function.first = some site then (mid ++ behind).head? else function.first
    last := if function.last = some site then (front ++ mid).getLast? else function.last }

/-- A splice within the run leaves a function with the bounds of the new run spanning it: bounds at the
site pass to the ends of what takes its place, or to its neighbours. -/
theorem Spans.splice (h : function.Spans (xs ++ site :: ys) (front ++ site :: behind))
    (hnodup : (xs ++ site :: ys).Nodup) :
    (function.bounded site mid behind front).Spans (xs ++ mid ++ ys) (front ++ mid ++ behind) := by
  have hfront := h.first_iff hnodup
  have hbehind := h.last_iff hnodup
  obtain ⟨us, vs, rfl, rfl⟩ := h.sides hnodup
  obtain ⟨_, _, -, hfirst, hlast⟩ := h
  replace hlast := hlast (List.append_ne_nil_of_right_ne_nil front (List.cons_ne_nil site behind))
  refine ⟨us, vs, by simp, ?_, fun _ => ?_⟩
  · show (if function.first = some site then (mid ++ behind).head? else function.first) = _
    cases front with
    | nil => rw [if_pos (hfront.mpr rfl), List.nil_append]
    | cons x front =>
      rw [if_neg fun he => List.cons_ne_nil x front (hfront.mp he), hfirst]
      rfl
  · show (if function.last = some site then (front ++ mid).getLast? else function.last) = _
    cases hend : behind.getLast? with
    | none =>
      rw [List.getLast?_eq_none_iff] at hend
      rw [if_pos (hbehind.mpr hend), hend, List.append_nil]
    | some y =>
      have hne : behind ≠ [] := by
        rintro rfl
        cases hend
      rw [if_neg fun he => hne (hbehind.mp he), hlast, List.getLast?_append, List.getLast?_cons,
        List.getLast?_append, hend]
      rfl

end

/-- A run that does not hold the instruction stays what it is. -/
theorem Spans.aside {xs ys mid : List InstrId} {site : InstrId}
    (h : function.Spans (xs ++ site :: ys) run) (hnodup : (xs ++ site :: ys).Nodup)
    (hnot : site ∉ run) : function.Spans (xs ++ mid ++ ys) run := by
  obtain ⟨us, vs, hsplit, hfirst, hlast⟩ := h
  have hmem : site ∈ us ++ run ++ vs := hsplit ▸ List.mem_append_right _ (List.mem_cons_self ..)
  rw [List.mem_append, List.mem_append] at hmem
  rcases hmem with (hus | hrun) | hvs
  · obtain ⟨before, behind, rfl⟩ := List.append_of_mem hus
    have heq : xs ++ site :: ys = before ++ site :: (behind ++ run ++ vs) := by simp [hsplit]
    obtain ⟨rfl, rfl⟩ := cut_inj hnodup heq
    exact ⟨before ++ mid ++ behind, vs, by simp, hfirst, hlast⟩
  · exact absurd hrun hnot
  · obtain ⟨before, behind, rfl⟩ := List.append_of_mem hvs
    have heq : xs ++ site :: ys = (us ++ run ++ before) ++ site :: behind := by simp [hsplit]
    obtain ⟨rfl, rfl⟩ := cut_inj hnodup heq
    exact ⟨us, before ++ mid ++ behind, by simp, hfirst, hlast⟩

end Function

/-! ## Owned programs -/

/-- Every function spans a stretch of the code, and the instructions of that are those stamped with
it. -/
def Program.Owned (program : Program) (l : List InstrId) : Prop :=
  ∀ id function, program.functions.get? id = some function →
    ∃ run, function.Spans l run ∧ ∀ x ∈ l, ∀ instr, program.chain.get? x = some instr →
      (instr.func = some id ↔ x ∈ run)

/-- Whatever run a function is found to span, it is the one that it owns. -/
theorem Program.Owned.stamped {program : Program} {l run : List InstrId} {id : FuncId}
    {function : Function} {x : InstrId} {instr : Instruction} (h : program.Owned l)
    (hl : program.chain.Spells l) (hfunction : program.functions.get? id = some function)
    (hspans : function.Spans l run) (hx : x ∈ l) (hinstr : program.chain.get? x = some instr) :
    instr.func = some id ↔ x ∈ run := by
  obtain ⟨own, hown, hstamped⟩ := h id function hfunction
  rw [hstamped x hx instr hinstr, ← hspans.instructions hl, ← hown.instructions hl]

/-- Every defined function has the size of its instructions. -/
def Program.Measured (program : Program) : Prop :=
  ∀ id function, program.functions.get? id = some function → function.isDefined = true →
    function.size = ((function.instructions program.chain).map program.chain.sizeOf).sum

/-- The entries of a table are its functions with their numbers. -/
theorem FunctionTable.mem_entries {table : FunctionTable} {id : FuncId} {function : Function} :
    (id, function) ∈ table.entries ↔ table.get? id = some function := by
  rw [entries, List.mem_map]
  constructor
  · intro h
    obtain ⟨⟨found, index⟩, hmem, h⟩ := h
    rw [Prod.mk.injEq] at h
    obtain ⟨rfl, rfl⟩ := h
    rw [List.mk_mem_zipIdx_iff_getElem?] at hmem
    rw [get?, ← Array.getElem?_toList]
    exact hmem
  · intro h
    refine ⟨(function, id.index), ?_, rfl⟩
    rw [List.mk_mem_zipIdx_iff_getElem?, Array.getElem?_toList]
    exact h

namespace Program

variable {program : Program} {l : List InstrId} {id : FuncId} {function : Function} {x : InstrId}

/-- An instruction passes if it is stamped with the function, and then counts with its size. -/
theorem checkOwner_ok {size : UInt64} : checkOwner program.chain id function x = .ok size
    ↔ ∃ instr, program.chain.get? x = some instr ∧ instr.func = some id ∧ size = instr.size := by
  simp only [checkOwner, bind_eq_ok, mapError_eq_ok, Chain.get_ok, ensure_ok, pure_eq_ok, beq_iff_eq]
  constructor
  · intro h
    obtain ⟨instr, hinstr, _, hfunc, rfl⟩ := h
    exact ⟨instr, hinstr, hfunc, rfl⟩
  · intro h
    obtain ⟨instr, hinstr, hfunc, rfl⟩ := h
    exact ⟨instr, hinstr, ⟨⟩, hfunc, rfl⟩

/-- A function passes if its run is stamped with it and ends at its last instruction, and address and size
are those of the run. One without an end is passed over. -/
theorem verifyFunction_ok : verifyFunction program.chain id function = .ok ()
    ↔ ∀ first last, function.first = some first → function.last = some last →
      (∀ x ∈ function.instructions program.chain, ∃ instr,
        program.chain.get? x = some instr ∧ instr.func = some id)
      ∧ last ∈ function.instructions program.chain
      ∧ (∃ instr, program.chain.get? first = some instr ∧ function.addr = instr.addr)
      ∧ function.size = ((function.instructions program.chain).map program.chain.sizeOf).sum := by
  -- the check of an owner hands on the size, so the sum comes with the check of all of them
  have hsizes : ∀ x size, checkOwner program.chain id function x = .ok size →
      size = program.chain.sizeOf x := by
    intro x size h
    obtain ⟨instr, hinstr, -, rfl⟩ := checkOwner_ok.mp h
    exact (Chain.sizeOf_eq hinstr).symm
  have howner : ∀ x, checkOwner program.chain id function x = .ok (program.chain.sizeOf x)
      ↔ ∃ instr, program.chain.get? x = some instr ∧ instr.func = some id := by
    intro x
    rw [checkOwner_ok]
    constructor
    · intro h
      obtain ⟨instr, hinstr, hfunc, -⟩ := h
      exact ⟨instr, hinstr, hfunc⟩
    · intro h
      obtain ⟨instr, hinstr, hfunc⟩ := h
      exact ⟨instr, hinstr, hfunc, Chain.sizeOf_eq hinstr⟩
  unfold verifyFunction
  cases hfirst : function.first with
  | none => simp [pure_eq_ok]
  | some first =>
    cases hlast : function.last with
    | none => simp [pure_eq_ok]
    | some last =>
      simp only [bind_eq_ok, mapM_eq_ok_map hsizes, ensure_ok, mapError_eq_ok, Chain.get_ok,
        List.contains_iff_mem, beq_iff_eq, howner]
      constructor
      · intro h a b ha hb
        obtain rfl := Option.some.inj ha
        obtain rfl := Option.some.inj hb
        obtain ⟨_, ⟨howners, rfl⟩, _, hmem, instr, hinstr, _, haddr, hsize⟩ := h
        exact ⟨howners, hmem, ⟨instr, hinstr, haddr⟩, hsize⟩
      · intro h
        obtain ⟨howners, hmem, ⟨instr, hinstr, haddr⟩, hsize⟩ := h first last rfl rfl
        exact ⟨_, ⟨howners, rfl⟩, ⟨⟩, hmem, instr, hinstr, ⟨⟩, haddr, hsize⟩

/-- The check of functions is the check of each one. -/
theorem verifyFunctions_ok : program.verifyFunctions = .ok ()
    ↔ ∀ id function, program.functions.get? id = some function →
      verifyFunction program.chain id function = .ok () := by
  rw [verifyFunctions, forM_eq_ok]
  constructor
  · intro h id function hfunction
    exact h (id, function) (FunctionTable.mem_entries.mpr hfunction)
  · intro h entry hentry
    exact h entry.1 entry.2 (FunctionTable.mem_entries.mp hentry)

end Program

end Splice
