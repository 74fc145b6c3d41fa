import Splice.Proofs.Block.Leaders

/-!
# The control flow of a graph

The edges of a graph that was built are the passages of control (`Built.draws`). Read from one
block they say where control goes from it: within the function to the destinations of a jump and
to the next block, as far as the end of the block lets it (`localSuccessors_iff`), by a call to
the callees (`carries_call`), and from an exit back to the blocks behind the calls
(`carries_ret`).

> `controlFlow_of_build`: in a graph that was built of ascending code, the edges that leave each
> block are the flow of control from the instruction at its end, no more and no less.

No bound on addresses is asked for. Where the end of a section wraps around a destination may
not be found, and then the graph is not built; what is found is right in any case
(`Splice.Proofs.Block.Ordered`). It is asked that no instruction is flagged as two of jump, call
and return, as these are told apart in that order.
-/

namespace Splice

/-- At most one of a jump, a call and a return. -/
def Flags.Exclusive (flags : Flags) : Prop :=
  (flags.isJump = true → flags.isCall = false) ∧ (flags.isJump = true → flags.isReturn = false)
    ∧ (flags.isCall = true → flags.isReturn = false)

instance (flags : Flags) : Decidable flags.Exclusive := inferInstanceAs (Decidable (_ ∧ _ ∧ _))

namespace Flags

variable {flags : Flags}

/-- A jump does not leave its function by the kind of its edge, whatever its flags are. -/
theorem jumpKind_local : flags.jumpKind.isInterprocedural = false := by
  unfold jumpKind
  split
  · rfl
  · split <;> rfl

/-- No edge of a jump is mistaken for one of a call. -/
theorem call_ne_jumpKind : EdgeKind.call ≠ flags.jumpKind := fun h => by
  have hlocal := @jumpKind_local flags
  rw [← h] at hlocal
  cases hlocal

end Flags

namespace BlockGraph

variable {graph : BlockGraph} {chain : Chain} {functions : FunctionTable} {parts : List Part}
  {id next entered : BlockId} {instr : Instruction} {kind : EdgeKind}

/-- Passages from a block are carried by the edges that leave it. -/
theorem carries_iff (hwired : graph.Wired) :
    graph.Carries ⟨id, entered, kind⟩ ↔ ∃ edge ∈ graph.edgesOut id, edge.kind = kind ∧ edge.target = entered := by
  have hout : ∀ edge, edge ∈ ((graph.block? id).map (·.outEdges)).getD [] ↔ graph.sourceOf edge = some id := by
    intro edge
    have hcount := hwired.out id edge
    rw [outOf] at hcount
    rw [← List.count_pos_iff, hcount]
    split <;> simp [*]
  constructor
  · rintro ⟨edge, found, hfound, hpassage⟩
    obtain ⟨rfl, rfl, rfl⟩ := Passage.mk.inj hpassage
    exact ⟨found, List.mem_filterMap.mpr ⟨edge, (hout edge).mpr (by rw [sourceOf, hfound]; rfl), hfound⟩, rfl, rfl⟩
  · rintro ⟨found, hmem, rfl, rfl⟩
    obtain ⟨edge, hedge, hfound⟩ := List.mem_filterMap.mp hmem
    have hsource := (hout edge).mp hedge
    rw [sourceOf, hfound, Option.map_some, Option.some.injEq] at hsource
    exact ⟨edge, found, hfound, by rw [Edge.passage, hsource]⟩

/-- Control returns to the next block of the function from a call whose callee is known. -/
theorem returnSite_iff (hwired : graph.Wired) (hheaded : graph.Headed chain) (howned : graph.Owned chain) :
    graph.returnSite? id = some next
      ↔ (∃ entered, graph.Carries ⟨id, entered, .call⟩) ∧ graph.Follows chain id next := by
  have hcalls : (graph.edgesOut id).any (fun edge => edge.kind == .call) = true
      ↔ ∃ entered, graph.Carries ⟨id, entered, .call⟩ := by
    simp only [carries_iff hwired, List.any_eq_true, beq_iff_eq]
    constructor
    · rintro ⟨edge, hedge, hkind⟩
      exact ⟨edge.target, edge, hedge, hkind, rfl⟩
    · rintro ⟨_, edge, hedge, hkind, -⟩
      exact ⟨edge, hedge, hkind⟩
  rw [← hcalls]
  unfold returnSite?
  cases hblock : graph.block? id with
  | none =>
    constructor
    · intro h
      cases h
    · rintro ⟨-, bounds, -, hbounds, -⟩
      rw [bounds?, hblock] at hbounds
      cases hbounds
  | some block =>
    -- from here on both sides compute from the same block and its edges
    rw [← follower_eq_some hheaded howned hblock, follower?]
    cases hany : (graph.edgesOut id).any fun edge => edge.kind == .call with
    | false => simp
    | true =>
      cases hnext : block.next with
      | none => simp [hnext]
      | some other =>
        cases hother : graph.block? other with
        | none =>
          have hnot : other = next → (graph.block? next).any (fun found => found.func == block.func) = false := by
            rintro rfl
            rw [hother]
            rfl
          simpa [hnext, hother] using hnot
        | some found => simp [hnext, hother, Option.filter]

/-- A block has another one for a successor inside the function if an edge that stays inside leads there,
or if a call returns there. -/
theorem mem_localSuccessors (hwired : graph.Wired) :
    next ∈ graph.localSuccessors id
      ↔ (∃ kind : EdgeKind, kind.isInterprocedural = false ∧ graph.Carries ⟨id, next, kind⟩)
        ∨ graph.returnSite? id = some next := by
  simp only [carries_iff hwired]
  rw [localSuccessors, List.mem_append, Option.mem_toList, List.mem_map]
  refine or_congr ⟨?_, ?_⟩ Iff.rfl
  · rintro ⟨edge, hedge, rfl⟩
    obtain ⟨hmem, hlocal⟩ := List.mem_filter.mp hedge
    exact ⟨edge.kind, by simpa using hlocal, edge, hmem, rfl, rfl⟩
  · rintro ⟨_, hlocal, edge, hmem, rfl, rfl⟩
    exact ⟨edge, List.mem_filter.mpr ⟨hmem, by simpa using hlocal⟩, rfl⟩

/-- Only returns are made by another block than the one that they leave. -/
theorem Passes.source {passage : Passage} (h : graph.Passes chain id passage) (hkind : passage.kind ≠ .ret) :
    passage.source = id := by
  cases h with
  | jump | notTaken | pastCall | call | fallthrough => rfl
  | ret => exact absurd rfl hkind

namespace Built

variable (h : graph.Built chain functions parts)

include h

/-- Every passage but a return is carried by an edge of the block itself, so these edges are known from
the last instruction alone. -/
theorem carries (hkind : kind ≠ .ret) :
    graph.Carries ⟨id, entered, kind⟩ ↔ graph.Passes chain id ⟨id, entered, kind⟩ := by
  rw [h.draws]
  constructor
  · rintro ⟨source, hpasses⟩
    obtain rfl : id = source := hpasses.source hkind
    exact hpasses
  · exact fun hpasses => ⟨id, hpasses⟩

theorem headed (hl : chain.Spells chain.ids) : graph.Headed chain := h.cuts.headed (h.code.symm ▸ hl)

/-- The last instruction of a block is linked. -/
theorem mem_of_endsIn (hend : graph.EndsIn chain id instr) : ∃ last ∈ chain.ids, chain.get? last = some instr := by
  obtain ⟨part, hpart, -, last, hlast, hget⟩ := h.cuts.endsIn_iff.mp hend
  exact ⟨last, h.code ▸ Part.mem_code.mpr ⟨part, hpart, List.mem_of_getLast? hlast⟩, hget⟩

/-- Each destination of a block begins a block. -/
theorem headedBy_of_destination (hend : graph.EndsIn chain id instr) {target : InstrId}
    (htarget : target ∈ instr.destinations) : ∃ entered, graph.HeadedBy entered target := by
  obtain ⟨last, hmem, hlast⟩ := h.mem_of_endsIn hend
  obtain ⟨part, hpart, hhead⟩ := Part.mem_starts.mp
    (h.targets last hmem instr hlast target (Instruction.destinations_subset htarget))
  exact ⟨part.id, h.cuts.headedBy_iff.mpr ⟨part, hpart, rfl, hhead⟩⟩

/-- The calls of a block lead to its callees. -/
theorem carries_call (hplain : instr.flags.Exclusive) (hend : graph.EndsIn chain id instr) :
    graph.Carries ⟨id, entered, .call⟩ ↔ instr.flags.isCall = true ∧ ∃ callee ∈ instr.destinations,
      graph.HeadedBy entered callee := by
  rw [h.carries (by decide)]
  cases hjump : instr.flags.isJump with
  | true =>
    rw [passes_jump hend hjump, hplain.1 hjump]
    simp [Flags.call_ne_jumpKind]
  | false =>
    cases hcall : instr.flags.isCall with
    | true =>
      rw [passes_call hend hjump hcall]
      simp
    | false =>
      rw [passes_other hend hjump hcall]
      simp

/-- Within the function, control passes from a block to the destinations of the jump at its end, and on to
the next block unless the end transfers control for good. -/
theorem localSuccessors_iff (hl : chain.Spells chain.ids) (hplain : instr.flags.Exclusive)
    (hend : graph.EndsIn chain id instr) : next ∈ graph.localSuccessors id
      ↔ (instr.flags.isJump = true ∧ ∃ target ∈ instr.destinations, graph.HeadedBy next target)
        ∨ instr.flags.isUnconditionalTransfer = false ∧ graph.Follows chain id next := by
  have hlocal : ∀ kind : EdgeKind, kind.isInterprocedural = false ∧ graph.Carries ⟨id, next, kind⟩
      ↔ kind.isInterprocedural = false ∧ graph.Passes chain id ⟨id, next, kind⟩ := fun kind =>
    and_congr_right fun hkind => h.carries (by rintro rfl; cases hkind)
  rw [mem_localSuccessors h.wired, returnSite_iff h.wired (h.headed hl) h.owned]
  simp only [hlocal, h.carries_call hplain hend]
  -- one case for each way in which the instruction may pass control on: a jump, a call, neither
  cases hjump : instr.flags.isJump with
  | true =>
    rw [hplain.1 hjump, Flags.isUnconditionalTransfer, hjump, hplain.2.1 hjump]
    simp only [passes_jump hend hjump]
    constructor
    · rintro (⟨_, -, ⟨target, htarget, entered, hentered, he⟩ | ⟨hcond, other, hother, he⟩⟩ | ⟨⟨_, hcall, -⟩, -⟩)
      · obtain ⟨-, rfl, -⟩ := Passage.mk.inj he
        exact .inl ⟨trivial, target, htarget, hentered⟩
      · obtain ⟨-, rfl, -⟩ := Passage.mk.inj he
        exact .inr ⟨by rw [hcond]; rfl, hother⟩
      · cases hcall
    · rintro (⟨-, target, htarget, hentered⟩ | ⟨hcond, hnext⟩)
      · exact .inl ⟨_, Flags.jumpKind_local, .inl ⟨target, htarget, next, hentered, rfl⟩⟩
      · exact .inl ⟨.notTaken, rfl, .inr ⟨by simpa using hcond, next, hnext, rfl⟩⟩
  | false =>
    cases hcall : instr.flags.isCall with
    | true =>
      rw [Flags.isUnconditionalTransfer, hjump, hplain.2.2 hcall]
      simp only [passes_call hend hjump hcall]
      constructor
      · rintro (⟨_, hkind, ⟨-, other, hother, he⟩ | ⟨_, -, ⟨_, -, he⟩ | ⟨_, _, _, -, -, -, -, he⟩⟩⟩ | ⟨-, hnext⟩)
        · obtain ⟨-, rfl, -⟩ := Passage.mk.inj he
          exact .inr ⟨rfl, hother⟩
        · obtain ⟨-, -, rfl⟩ := Passage.mk.inj he
          cases hkind
        · obtain ⟨-, -, rfl⟩ := Passage.mk.inj he
          cases hkind
        · exact .inr ⟨rfl, hnext⟩
      · rintro (⟨hnot, -⟩ | ⟨-, hnext⟩)
        · cases hnot
        · -- past a callee that is not known, or back from one that is
          by_cases hnone : instr.destinations = []
          · exact .inl ⟨.pastCall, rfl, .inl ⟨hnone, next, hnext, rfl⟩⟩
          · obtain ⟨callee, hcallee⟩ := List.exists_mem_of_ne_nil _ hnone
            obtain ⟨entered, hentered⟩ := h.headedBy_of_destination hend hcallee
            exact .inr ⟨⟨entered, trivial, callee, hcallee, hentered⟩, hnext⟩
    | false =>
      rw [Flags.isUnconditionalTransfer, hjump]
      simp only [passes_other hend hjump hcall]
      constructor
      · rintro (⟨_, -, hreturn, other, hother, he⟩ | ⟨⟨_, hnot, -⟩, -⟩)
        · obtain ⟨-, rfl, -⟩ := Passage.mk.inj he
          exact .inr ⟨by rw [hreturn]; rfl, hother⟩
        · cases hnot
      · rintro (⟨hnot, -⟩ | ⟨hreturn, hnext⟩)
        · cases hnot
        · exact .inl ⟨.fallthrough, rfl, by simpa using hreturn, next, hnext, rfl⟩

/-- A return leads from an exit of a callee to the block behind the call. -/
theorem carries_ret {exit : BlockId}
    (hplain : ∀ id instr, graph.EndsIn chain id instr → instr.flags.Exclusive) :
    graph.Carries ⟨exit, next, .ret⟩
      ↔ ∃ last, graph.EndsIn chain exit last ∧ last.flags.isReturn = true
        ∧ ∃ call instr, graph.EndsIn chain call instr ∧ instr.flags.isCall = true ∧ graph.Follows chain call next
          ∧ ∃ target ∈ instr.destinations, ∃ callee func, chain.get? target = some callee
            ∧ callee.func = some func ∧ graph.OwnedBy chain exit (some func) := by
  rw [h.draws]
  constructor
  · rintro ⟨call, hpasses⟩
    generalize hpassage : (⟨exit, next, .ret⟩ : Passage) = passage at hpasses
    cases hpasses with
    | jump =>
      have hlocal := congrArg (·.kind.isInterprocedural) hpassage
      rw [Flags.jumpKind_local] at hlocal
      cases hlocal
    | notTaken | pastCall | call | fallthrough => cases hpassage
    | ret hend _ hcall hmem hcallee hfunc hown hexit hreturn hnext =>
      obtain ⟨rfl, rfl, -⟩ := Passage.mk.inj hpassage
      exact ⟨_, hexit, hreturn, call, _, hend, hcall, hnext, _, hmem, _, _, hcallee, hfunc, hown⟩
  · rintro ⟨last, hexit, hreturn, call, instr, hend, hcall, hnext, target, hmem, callee, func, hcallee, hfunc, hown⟩
    have hjump : instr.flags.isJump = false := by
      cases hjump : instr.flags.isJump with
      | false => rfl
      | true => rw [(hplain call instr hend).1 hjump] at hcall; cases hcall
    exact ⟨call, .ret hend hjump hcall hmem hcallee hfunc hown hexit hreturn hnext⟩

end Built

end BlockGraph

end Splice
