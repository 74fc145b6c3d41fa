import Splice.Proofs.Block.ControlFlow

/-!
# Transfers

Where an instruction jumps or calls, its block has an edge of the `transferKind` to the block
that begins where control is transferred to (`BlockGraph.Transfers`). In a graph that was built
this is so for every destination of every jump and call (`Built.transfers`), and for nothing
else (`Built.transfers_direct_iff`).

Returns and falling through are no transfers: they lead to where the code goes on, and nothing
that is put in front of a place for jumpers to enter is meant for them. So it is transfers that
have to follow when code is inserted (`Splice.Proofs.Program.Landing`).

> `Built.transfers_direct_iff`: the block of a direct jump or call leads by a transfer to the
> block of its logical target and nowhere else.
-/

namespace Splice

/-- How a jump or a call leads to its destinations. -/
def Flags.transferKind (flags : Flags) : EdgeKind := if flags.isJump then flags.jumpKind else .call

/-- An edge of a jump or a call is a transfer. -/
theorem Flags.isTransfer_transferKind (flags : Flags) : flags.transferKind.isTransfer = true := by
  unfold transferKind jumpKind
  split
  · split
    · rfl
    · split <;> rfl
  · rfl

/-- A jump or a call ends its block. -/
theorem Flags.endsBlock_of_transfer {flags : Flags} (h : flags.isJump = true ∨ flags.isCall = true) :
    flags.endsBlock = true := by
  unfold endsBlock isControlFlow
  rcases h with hjump | hcall
  · rw [hjump]
    rfl
  · rw [hcall, Bool.or_true]
    rfl

namespace BlockGraph

/-- The block that holds the jumper has an edge of the kind to the block that begins with `first`. -/
def Transfers (graph : BlockGraph) (chain : Chain) (kind : EdgeKind) (jumper first : InstrId) : Prop :=
  ∃ id run, graph.instructions chain id = .ok run ∧ jumper ∈ run
    ∧ ∃ edge ∈ graph.edgesOut id, edge.kind = kind ∧ graph.HeadedBy edge.target first

/-- In the runs `parts`, an edge of the kind leads from that of the jumper to that headed by `first`. -/
def Joined (graph : BlockGraph) (parts : List Part) (kind : EdgeKind) (jumper first : InstrId) : Prop :=
  ∃ part ∈ parts, jumper ∈ part.run ∧ ∃ other ∈ parts, other.run.head? = some first
    ∧ graph.Carries ⟨part.id, other.id, kind⟩

variable {graph : BlockGraph} {chain : Chain} {functions : FunctionTable} {parts : List Part}
  {id : BlockId} {kind : EdgeKind} {instr : Instruction} {jumper first target : InstrId}

/-- That an edge leads from the block of a jumper to one that begins with an instruction can be told from
the runs. -/
theorem transfers_iff (hl : chain.Spells (Part.code parts)) (hcuts : graph.Cuts parts) (hwired : graph.Wired) :
    graph.Transfers chain kind jumper first ↔ graph.Joined parts kind jumper first := by
  constructor
  · rintro ⟨id, run, hrun, hjumper, edge, hedge, rfl, hhead⟩
    obtain ⟨other, hother, hid, hfirst⟩ := hcuts.headedBy_iff.mp hhead
    have hpart := (GraphM.instructions_iff hl hcuts).mp hrun
    exact ⟨_, hpart, hjumper, other, hother, hfirst, (carries_iff hwired).mpr ⟨edge, hedge, rfl, hid.symm⟩⟩
  · rintro ⟨part, hpart, hjumper, other, hother, hfirst, hcarries⟩
    obtain ⟨edge, hedge, hkind, htarget⟩ := (carries_iff hwired).mp hcarries
    exact ⟨part.id, part.run, GraphM.instructions_of_cuts hl hcuts hpart, hjumper, edge, hedge, hkind,
      hcuts.headedBy_iff.mpr ⟨other, hother, htarget.symm, hfirst⟩⟩

/-- No transfer leads to an instruction that begins none of the blocks that edges enter. -/
theorem not_transfers
    (h : ∀ edge ∈ graph.edges.toList, (graph.bounds? edge.target).map (·.first) ≠ some first) :
    ¬ graph.Transfers chain kind jumper first := by
  rintro ⟨id, _, -, -, edge, hedge, -, bounds, hbounds, rfl⟩
  obtain ⟨name, -, hfound⟩ := List.mem_filterMap.mp hedge
  rw [edge?, ← Array.getElem?_toList] at hfound
  exact h edge (List.mem_of_getElem? hfound) (by rw [hbounds]; rfl)

namespace Built

variable (h : graph.Built chain functions parts)

include h

/-- An instruction that ends a block stands at the end of its own. -/
theorem last_of_endsBlock (hl : chain.Spells chain.ids) (hjumper : jumper ∈ chain.ids)
    (hinstr : chain.get? jumper = some instr) (hends : instr.flags.endsBlock = true) :
    ∃ part ∈ parts, part.run.getLast? = some jumper := by
  rw [← h.code] at hl
  obtain ⟨part, hpart, hin⟩ := Part.mem_code.mp (h.code ▸ hjumper)
  refine ⟨part, hpart, ?_⟩
  obtain ⟨front, back, hrun⟩ := List.append_of_mem hin
  cases back with
  | nil => rw [hrun, List.getLast?_concat]
  | cons next back =>
    -- blocks are made to begin behind the instruction, and none begins inside of another
    obtain ⟨ps, qs, hparts⟩ := List.append_of_mem hpart
    have hcode : Part.code parts = (Part.code ps ++ front) ++ jumper :: (next :: back ++ Part.code qs) := by
      rw [hparts, Part.code_append, Part.code_cons, hrun]
      simp
    have hnext : chain.next? jumper = some next := (hcode ▸ hl).next?_eq
    have hmem : next ∈ chain.ids := by
      rw [← h.code, hcode]
      simp
    have hstart : next ∈ Part.starts parts := (h.starts next hmem).mpr <| .inr <| .inr ⟨jumper, hjumper, instr,
      hinstr, List.mem_append_left _ (by rw [if_pos hends, hnext]; exact List.mem_singleton_self next)⟩
    obtain ⟨head, rest, hhead⟩ := List.exists_cons_of_ne_nil (List.ne_nil_of_mem hin)
    have hrest : next ∈ rest := by
      rw [hrun] at hhead
      cases front with
      | nil =>
        rw [List.nil_append, List.cons.injEq] at hhead
        rw [← hhead.2]
        exact List.mem_cons_self ..
      | cons head front =>
        rw [List.cons_append, List.cons.injEq] at hhead
        rw [← hhead.2]
        simp
    exact absurd hstart (Part.not_mem_starts hl.nodup hpart hhead hrest)

/-- A jump or a call stands at the end of a block, and control passes to each destination. -/
theorem transfers (hl : chain.Spells chain.ids) (hjumper : jumper ∈ chain.ids)
    (hinstr : chain.get? jumper = some instr) (htransfer : instr.flags.isJump = true ∨ instr.flags.isCall = true)
    (htarget : target ∈ instr.destinations) :
    graph.Joined parts instr.flags.transferKind jumper target := by
  obtain ⟨part, hpart, hlast⟩ := h.last_of_endsBlock hl hjumper hinstr (Flags.endsBlock_of_transfer htransfer)
  have hend : graph.EndsIn chain part.id instr := h.cuts.endsIn_iff.mpr ⟨part, hpart, rfl, jumper, hlast, hinstr⟩
  obtain ⟨entered, hentered⟩ := h.headedBy_of_destination hend htarget
  obtain ⟨other, hother, rfl, hhead⟩ := h.cuts.headedBy_iff.mp hentered
  refine ⟨part, hpart, List.mem_of_getLast? hlast, other, hother, hhead, (h.draws _).mpr ⟨part.id, ?_⟩⟩
  unfold Flags.transferKind
  cases hjump : instr.flags.isJump with
  | true => exact .jump hend hjump htarget hentered
  | false =>
    rw [hjump] at htransfer
    exact .call hend hjump (htransfer.resolve_left Bool.false_ne_true) htarget hentered

/-- The block of a direct jump or call leads by a jump or a call to its target and nowhere else. -/
theorem transfers_direct_iff (hl : chain.Spells chain.ids) (hjumper : jumper ∈ chain.ids)
    (hinstr : chain.get? jumper = some instr) (htransfer : instr.flags.isJump = true ∨ instr.flags.isCall = true)
    (hdirect : instr.flags.isIndirect = false) (htarget : instr.target = some target) :
    (∃ kind ∈ [EdgeKind.goto, .taken, .call], graph.Joined parts kind jumper first) ↔ first = target := by
  have hdestinations : instr.destinations = [target] := by
    rw [Instruction.destinations, hdirect, htarget]
    rfl
  constructor
  · rintro ⟨kind, hkind, part, hpart, hin, other, hother, hhead, hcarries⟩
    obtain ⟨own, hown, hlast⟩ := h.last_of_endsBlock hl hjumper hinstr (Flags.endsBlock_of_transfer htransfer)
    obtain rfl := Part.eq_of_mem (h.code.symm ▸ hl.nodup) hpart hown hin (List.mem_of_getLast? hlast)
    have hend : graph.EndsIn chain part.id instr :=
      h.cuts.endsIn_iff.mpr ⟨part, hpart, rfl, jumper, hlast, hinstr⟩
    have hheaded : graph.HeadedBy other.id first := h.cuts.headedBy_iff.mpr ⟨other, hother, rfl, hhead⟩
    have hpasses := (h.carries (by rintro rfl; exact absurd hkind (by decide))).mp hcarries
    -- of what the jumper makes of the flow of control, only its transfers are of these kinds
    have hto : ∀ entered, (∃ known ∈ instr.destinations, graph.HeadedBy entered known) → other.id = entered
        → first = target := by
      rintro _ ⟨known, hknown, hentered⟩ rfl
      rw [hdestinations, List.mem_singleton] at hknown
      exact hknown ▸ hheaded.unique hentered
    cases hjump : instr.flags.isJump with
    | true =>
      rcases (passes_jump hend hjump).mp hpasses with ⟨known, hknown, entered, hheads, he⟩ | ⟨-, next, -, he⟩
      · exact hto entered ⟨known, hknown, hheads⟩ (Passage.mk.inj he).2.1
      · rw [(Passage.mk.inj he).2.2] at hkind
        exact absurd hkind (by decide)
    | false =>
      rw [hjump] at htransfer
      have hcall := htransfer.resolve_left Bool.false_ne_true
      rcases (passes_call hend hjump hcall).mp hpasses with ⟨-, next, -, he⟩
        | ⟨known, hknown, ⟨entered, hheads, he⟩ | ⟨_, _, _, -, -, -, -, he⟩⟩
      · rw [(Passage.mk.inj he).2.2] at hkind
        exact absurd hkind (by decide)
      · exact hto entered ⟨known, hknown, hheads⟩ (Passage.mk.inj he).2.1
      · rw [(Passage.mk.inj he).2.2] at hkind
        exact absurd hkind (by decide)
  · rintro rfl
    refine ⟨instr.flags.transferKind, ?_, h.transfers hl hjumper hinstr htransfer (by rw [hdestinations]; simp)⟩
    unfold Flags.transferKind Flags.jumpKind
    rw [hdirect]
    cases instr.flags.isJump <;> cases instr.flags.isConditional <;> decide

end Built

end BlockGraph

end Splice
