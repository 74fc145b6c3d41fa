import Splice.Proofs.Chain.References
import Splice.Proofs.Program.Ownership

/-!
# Stamping

The functions of a program that is loaded go through the code one after the other: each stamps the
instructions between its bounds and takes their size. A later function stamps over what an
earlier one did, so the instructions of every function keep its stamp if no two functions share
one (`FunctionTable.Apart`, `assign_ok`). What a function takes as its size does not depend on the
others (`assign_sized`).

The operations are `stamp`, for one function, and `FunctionTable.assign`, for all of them in
their order. `Stamps` is the invariant of the pass: the functions that are done have their
stamps on the code. An instruction that lies in two runs keeps the stamp of the later function,
which is why the runs have to lie apart for the earlier one; two such runs are not refused when
code is loaded, and the check of functions reports them.
-/

namespace Splice

/-- The instruction stamped with a function. -/
def Instruction.stampedWith (owner : FuncId) (instr : Instruction) : Instruction :=
  { instr with func := some owner }

/-- The instruction with another stamp. -/
def Instruction.Restamped (a b : Instruction) : Prop := ∃ owner, b = { a with func := owner }

theorem Instruction.Restamped.refl (a : Instruction) : a.Restamped a := ⟨a.func, rfl⟩

/-- Another stamp twice is another stamp. -/
theorem Instruction.Restamped.trans {a b c : Instruction} (hab : a.Restamped b) (hbc : b.Restamped c) :
    a.Restamped c := by
  obtain ⟨_, rfl⟩ := hab
  obtain ⟨owner, rfl⟩ := hbc
  exact ⟨owner, rfl⟩

theorem Instruction.Restamped.size {a b : Instruction} (h : a.Restamped b) : b.size = a.size := by
  obtain ⟨_, rfl⟩ := h
  rfl

/-- The function with the size of its instructions. -/
def Function.sized (chain : Chain) (function : Function) : Function :=
  { function with size := ((function.instructions chain).map chain.sizeOf).sum }

/-- The size of a function does not depend on the stamps in the code. -/
theorem Function.sized_evolve {chain after : Chain} {r : InstrId → Instruction → Instruction → Prop}
    (h : chain.Evolves r after) (hr : ∀ id a b, r id a b → b.size = a.size) (function : Function) :
    function.sized after = function.sized chain := by
  have hsizes : after.sizeOf = chain.sizeOf :=
    funext fun id => (h.retains fun _ => True).sizeOf hr trivial
  rw [sized, sized, hsizes, instructions, instructions, h.run]

namespace FunctionTable

/-- Every function spans a stretch of the code, and no two functions share an instruction. -/
structure Apart (table : FunctionTable) (chain : Chain) : Prop where
  spans : ∀ id function, table.get? id = some function → ∃ run, function.Spans chain.ids run
  disjoint : ∀ id other a b, table.get? id = some a → table.get? other = some b → id ≠ other →
    ∀ x ∈ a.instructions chain, x ∉ b.instructions chain

variable {table : FunctionTable} {chain c after : Chain} {id : FuncId} {function found : Function}
  {done : List (FuncId × Function)}

/-- Stamping the instructions of a list and taking their sizes stamps each of them. -/
theorem stampAll_ok {ids : List InstrId} {sizes : List UInt64}
    (h : ids.mapM (fun instrId => do
      ChainM.update instrId fun instr => { instr with func := some id }
      return (← ChainM.instr instrId).size : InstrId → ChainM UInt64) chain = .ok sizes after) :
    after = chain.adjust fun x instr => if x ∈ ids then instr.stampedWith id else instr := by
  have hupdates : ids.forM (fun instrId => ChainM.update instrId (.stampedWith id)) chain = .ok ⟨⟩ after := by
    induction ids generalizing chain sizes with
    | nil => exact forM_nil_ok.mpr (mapM_nil_ok.mp h).2.symm
    | cons first ids ih =>
      obtain ⟨size, m, rest, hfirst, hrest, -⟩ := mapM_cons_ok.mp h
      obtain ⟨_, m', hupdate, hfirst⟩ := bind_ok.mp hfirst
      obtain ⟨instr, m'', hinstr, hfirst⟩ := bind_ok.mp hfirst
      rw [(ChainM.instr_ok.mp hinstr).2, pure_ok] at hfirst
      exact forM_cons_ok.mpr ⟨m, hfirst.2 ▸ hupdate, ih hrest⟩
  exact (ChainM.updates_ok (f := Instruction.stampedWith id) (fun _ => rfl) hupdates).2

/-- The sizes that are taken are those of the instructions. -/
theorem stampAll_sizes {ids : List InstrId} {sizes : List UInt64}
    (h : ids.mapM (fun instrId => do
      ChainM.update instrId fun instr => { instr with func := some id }
      return (← ChainM.instr instrId).size : InstrId → ChainM UInt64) chain = .ok sizes after) :
    sizes = ids.map chain.sizeOf := by
  induction ids generalizing chain sizes with
  | nil => exact (mapM_nil_ok.mp h).1
  | cons first ids ih =>
    obtain ⟨size, m, rest, hfirst, hrest, rfl⟩ := mapM_cons_ok.mp h
    obtain ⟨_, c, hupdate, hread⟩ := bind_ok.mp hfirst
    obtain ⟨instr, c', hget, hsize⟩ := bind_ok.mp hread
    obtain ⟨hinstr, hsame⟩ := ChainM.instr_ok.mp hget
    obtain ⟨rfl, hsame'⟩ := pure_ok.mp hsize
    rw [← hsame', hsame] at hrest
    have hc : chain.Evolves (fun _ a b => b.size = a.size) c := by
      rw [(ChainM.update_ok.mp hupdate).2]
      refine .of_adjust fun x i _ => ?_
      unfold Chain.only
      split <;> rfl
    have hsizes : c.sizeOf = chain.sizeOf :=
      funext fun x => (hc.retains fun _ => True).sizeOf (fun _ _ _ hab => hab) trivial
    rw [List.map_cons, ih hrest, ← Chain.sizeOf_eq hinstr, hsizes]

/-- Stamping returns the function with the size of its instructions. -/
theorem stamp_sized (h : stamp id function chain = .ok found after) : found = function.sized chain := by
  unfold stamp at h
  obtain ⟨_, _, hget, hstamps⟩ := bind_ok.mp h
  obtain ⟨rfl, rfl⟩ := get_ok.mp hget
  obtain ⟨sizes, m, hsizes, hfound⟩ := bind_ok.mp hstamps
  obtain ⟨rfl, -⟩ := pure_ok.mp hfound
  rw [stampAll_sizes hsizes]
  rfl

/-- Stamping marks the instructions of the function and leaves the others. -/
theorem stamp_ok (h : stamp id function chain = .ok found after) :
    function.Carried found ∧ after = chain.adjust fun x instr =>
      if x ∈ function.instructions chain then instr.stampedWith id else instr := by
  unfold stamp at h
  obtain ⟨current, start, hget, h⟩ := bind_ok.mp h
  obtain ⟨hcurrent, hstart⟩ := get_ok.mp hget
  rw [hcurrent, hstart] at h
  obtain ⟨sizes, m, hsizes, h⟩ := bind_ok.mp h
  obtain ⟨rfl, rfl⟩ := pure_ok.mp h
  exact ⟨⟨rfl, rfl, rfl, rfl⟩, stampAll_ok hsizes⟩

/-- Stamping changes stamps alone. -/
theorem stamp_restamped (h : stamp id function chain = .ok found after) :
    chain.Evolves (fun _ a b => a.Restamped b) after := by
  rw [(stamp_ok h).2]
  refine .of_adjust fun x instr _ => ?_
  split
  · exact ⟨some id, rfl⟩
  · exact .refl instr

/-- The functions of `done` have their stamps on the code `c` that has become of `chain`. -/
structure Stamps (chain c : Chain) (done : List (FuncId × Function)) : Prop where
  evolves : chain.Evolves (fun _ a b => a.Restamped b) c
  stamped : ∀ {id function x instr}, (id, function) ∈ done → x ∈ function.instructions chain →
    c.get? x = some instr → instr.func = some id

/-- One function more stamps its instructions. -/
theorem Stamps.step (h : Stamps chain c done)
    (hdisjoint : ∀ other b, (other, b) ∈ done → other ≠ id →
      ∀ x ∈ b.instructions chain, x ∉ function.instructions chain)
    (hrun : stamp id function c = .ok found after) : Stamps chain after (done ++ [(id, function)]) := by
  have hrestamped := stamp_restamped hrun
  obtain ⟨-, rfl⟩ := stamp_ok hrun
  have hsame : function.instructions c = function.instructions chain := h.evolves.run ..
  refine ⟨h.evolves.trans (fun _ _ _ _ => .trans) hrestamped, fun {other b x instr} hother hx hinstr => ?_⟩
  rw [hsame, Chain.get?_adjust, Option.map_eq_some_iff] at hinstr
  obtain ⟨before, hbefore, rfl⟩ := hinstr
  rcases List.mem_append.mp hother with hmem | hlast
  · have hkept := h.stamped hmem hx hbefore
    split
    next hover =>
      by_cases heq : other = id
      · rw [heq]
        rfl
      · exact absurd hover (hdisjoint other b hmem heq x hx)
    next => exact hkept
  · obtain ⟨rfl, rfl⟩ := Prod.mk.inj (List.mem_singleton.mp hlast)
    rw [if_pos hx]
    rfl

/-- All functions of a list stamp their instructions. -/
theorem Stamps.steps {entries : List (FuncId × Function)} {stamped : List Function}
    (h : Stamps chain c done)
    (hdisjoint : ∀ id other a b, (id, a) ∈ done ++ entries → (other, b) ∈ done ++ entries → id ≠ other →
      ∀ x ∈ a.instructions chain, x ∉ b.instructions chain)
    (hrun : (entries.mapM (fun (id, function) => stamp id function) : ChainM (List Function)) c
      = .ok stamped after) :
    Stamps chain after (done ++ entries) := by
  induction entries generalizing c done stamped with
  | nil =>
    obtain ⟨-, rfl⟩ := mapM_nil_ok.mp hrun
    rw [List.append_nil]
    exact h
  | cons entry entries ih =>
    obtain ⟨id, function⟩ := entry
    obtain ⟨first, m, rest, hfirst, hrest, -⟩ := mapM_cons_ok.mp hrun
    have hstep := h.step (fun other b hother hne => hdisjoint other id b function
      (List.mem_append_left _ hother) (List.mem_append_right _ (List.mem_cons_self ..)) hne) hfirst
    rw [List.append_cons] at hdisjoint ⊢
    exact ih hstep hdisjoint hrest

/-- All functions of a list take the sizes of their instructions. -/
theorem stamps_sized {entries : List (FuncId × Function)} {stamped : List Function}
    (hc : chain.Evolves (fun _ a b => a.Restamped b) c)
    (hrun : (entries.mapM (fun (id, function) => stamp id function) : ChainM (List Function)) c
      = .ok stamped after) :
    stamped = entries.map (·.2.sized chain) := by
  induction entries generalizing c stamped with
  | nil => exact (mapM_nil_ok.mp hrun).1
  | cons entry entries ih =>
    obtain ⟨first, m, rest, hfirst, hrest, rfl⟩ := mapM_cons_ok.mp hrun
    have hm := hc.trans (fun _ _ _ _ => .trans) (stamp_restamped hfirst)
    have hsized : first = entry.2.sized chain :=
      (stamp_sized hfirst).trans (Function.sized_evolve hc (fun _ _ _ hab => hab.size) _)
    rw [List.map_cons, ih hm hrest, hsized]

/-- Each function takes the size of its instructions. -/
theorem assign_sized {assigned : FunctionTable} (h : table.assign chain = .ok assigned after) :
    assigned = ⟨table.functions.map (·.sized chain)⟩ := by
  obtain ⟨functions, m, hfunctions, h⟩ := bind_ok.mp h
  obtain ⟨rfl, rfl⟩ := pure_ok.mp h
  have hentries : table.entries.map (·.2.sized chain) = (table.functions.map (·.sized chain)).toList := by
    rw [entries, List.map_map]
    show table.functions.toList.zipIdx.map ((·.sized chain) ∘ Prod.fst) = _
    rw [← List.map_map, List.zipIdx_map_fst, Array.toList_map]
  rw [stamps_sized (.refl (fun _ => .refl) chain) hfunctions, hentries, Array.toArray_toList]

/-- Each instruction of a function carries the stamp of this function. -/
theorem assign_ok {assigned : FunctionTable} (hapart : table.Apart chain)
    (h : table.assign chain = .ok assigned after) :
    chain.Evolves (fun _ a b => a.Restamped b) after ∧ table.Carries assigned
      ∧ ∀ id function, table.get? id = some function → ∀ x ∈ function.instructions chain,
        ∀ instr, after.get? x = some instr → instr.func = some id := by
  have hcarries : table.Carries assigned := by
    rw [assign_sized h]
    exact carries_map fun _ => ⟨rfl, rfl, rfl, rfl⟩
  obtain ⟨functions, m, hfunctions, h⟩ := bind_ok.mp h
  obtain ⟨rfl, rfl⟩ := pure_ok.mp h
  have hstart : Stamps chain chain [] := ⟨.refl (fun _ => .refl) chain, fun hnil => absurd hnil List.not_mem_nil⟩
  have hstamps := hstart.steps (fun id other a b ha hb =>
    hapart.disjoint id other a b (mem_entries.mp ha) (mem_entries.mp hb)) hfunctions
  exact ⟨hstamps.evolves, hcarries, fun id function hfunction x hx instr hinstr =>
    hstamps.stamped (mem_entries.mpr hfunction) hx hinstr⟩

end FunctionTable

end Splice
