import Splice.Proofs.Block.Flow

/-!
# Drawing the edges

Once the code is cut, edges are drawn for what the last instruction of each block does: the step
`linkEdges` of the construction. It pairs each block with the instruction at its end
(`ends_run`), lists the passages of control from there (`passages_run`), and adds an edge for each
of them (`addEdges_run`). It looks up the block of each destination, and is refused where none is
found.

> `linkEdges_yields`: if a destination is found nowhere but at the beginning of its block, the
> edges that are drawn are those of the passages of control, no more and no less; and if every
> destination is found, they are drawn.

The two suppositions are one, `Aims`, with a proposition that says whether the step may be refused.
-/

namespace Splice

namespace BlockGraph

variable {graph after : BlockGraph} {chain : Chain} {id next : BlockId} {block : Block}
  {parts : List Part} {instr : InstrId} {first : InstrId} {func : Option FuncId}
  {ends : List BlockEnd} {exit : BlockEnd}

/-! ## What is found of a block -/

/-- The ends of the blocks are read without refusal in a graph that cuts up the code, and each block is
listed with the instruction that it ends in. -/
theorem ends_run (hl : chain.Spells (Part.code parts)) (hcuts : graph.Cuts parts) :
    ∃ ends, graph.ends chain = .ok ends ∧ ∀ exit, exit ∈ ends
      ↔ graph.block? exit.id = some exit.block ∧ chain.get? exit.block.last = some exit.instr := by
  -- what is found for a block is its last instruction, and nothing is found for what is no block
  have hrun : ∀ id exit, (do
      let block ← graph.block id
      let instr ← (chain.get block.last).mapError .chain
      return ⟨id, block, instr⟩ : Except GraphError BlockEnd) = .ok exit
        ↔ exit.id = id ∧ graph.block? exit.id = some exit.block
          ∧ chain.get? exit.block.last = some exit.instr := by
    rintro id ⟨id', block, instr⟩
    cases hblock : graph.block? id with
    | none =>
      rw [BlockGraph.block, hblock]
      constructor
      · intro h
        cases h
      · rintro ⟨rfl, hsome, -⟩
        rw [hblock] at hsome
        cases hsome
    | some found =>
      simp only [block_eq hblock, bind_eq_ok, mapError_eq_ok, Chain.get_ok, pure_eq_ok, Except.ok.injEq,
        BlockEnd.mk.injEq]
      constructor
      · rintro ⟨_, rfl, _, hinstr, rfl, rfl, rfl⟩
        exact ⟨rfl, hblock, hinstr⟩
      · rintro ⟨rfl, hfound, hinstr⟩
        rw [hblock, Option.some.injEq] at hfound
        subst hfound
        exact ⟨_, rfl, _, hinstr, rfl, rfl, rfl⟩
  obtain ⟨ends, hends, hmem⟩ := mapM_succeeds (f := fun id => do
      let block ← graph.block id
      let instr ← (chain.get block.last).mapError .chain
      return (⟨id, block, instr⟩ : BlockEnd)) fun id (hid : id ∈ graph.ids) => by
    rw [hcuts.ids] at hid
    obtain ⟨part, hpart, rfl⟩ := List.mem_map.mp hid
    obtain ⟨ps, qs, rfl⟩ := List.append_of_mem hpart
    obtain ⟨block, hblock, hfits⟩ := hcuts.bounds
    obtain ⟨instr, hinstr⟩ := hl.get?_isSome
      (Part.mem_code.mpr ⟨part, hpart, List.mem_of_getLast? hfits.last⟩)
    exact ⟨⟨part.id, block, instr⟩, (hrun _ _).mpr ⟨rfl, hblock, hinstr⟩⟩
  refine ⟨ends, hends, fun exit => (hmem exit).trans ⟨?_, fun h => ?_⟩⟩
  · rintro ⟨id, -, h⟩
    exact ((hrun _ _).mp h).2
  · refine ⟨exit.id, ?_, (hrun _ _).mpr ⟨rfl, h⟩⟩
    rw [hcuts.ids]
    exact hcuts.listed exit.id (by rw [h.1]; rfl)

/-- The first instruction of every block is present. -/
def Headed (graph : BlockGraph) (chain : Chain) : Prop :=
  ∀ id block, graph.block? id = some block → ∃ instr, chain.get? block.first = some instr

/-- In a graph that cuts up code that is there, the first instruction of each block is there. -/
theorem Cuts.headed (h : graph.Cuts parts) (hl : chain.Spells (Part.code parts)) : graph.Headed chain := by
  intro id block hblock
  obtain ⟨ps, run, qs, rfl⟩ := h.part_of (by rw [hblock]; rfl)
  obtain ⟨block', hblock', hfits⟩ := h.bounds
  obtain rfl := Option.some.inj (hblock.symm.trans hblock')
  exact hl.get?_isSome (Part.mem_code.mpr ⟨⟨id, run⟩, by simp, List.mem_of_head? hfits.first⟩)

/-- Where blocks are stamped with the functions of their first instructions, the stamp of a block tells
whose it is. -/
theorem ownedBy_iff (hheaded : graph.Headed chain) (howned : graph.Owned chain)
    (hblock : graph.block? id = some block) : graph.OwnedBy chain id func ↔ block.func = func := by
  obtain ⟨instr, hinstr⟩ := hheaded id block hblock
  have hfunc : block.func = instr.func := by rw [howned id block hblock, hinstr, Option.bind_some]
  rw [hfunc]
  constructor
  · rintro ⟨bounds, instr', hbounds, hinstr', rfl⟩
    obtain rfl := Option.some.inj (hbounds.symm.trans (bounds?_eq hblock))
    rw [show instr' = instr from Option.some.inj (hinstr'.symm.trans hinstr)]
  · intro h
    exact ⟨block.bounds, instr, bounds?_eq hblock, hinstr, h⟩

/-- What follows a block in its function is what comes behind it, if the stamps are the same. -/
theorem follower_eq_some (hheaded : graph.Headed chain) (howned : graph.Owned chain)
    (hblock : graph.block? id = some block) :
    graph.follower? block = some next ↔ graph.Follows chain id next := by
  rw [follower?, Option.filter_eq_some_iff, Option.any_eq_true]
  constructor
  · rintro ⟨hnext, found, hfound, hfunc⟩
    refine ⟨block.bounds, block.func, bounds?_eq hblock, hnext, (ownedBy_iff hheaded howned hblock).mpr rfl,
      (ownedBy_iff hheaded howned hfound).mpr (beq_iff_eq.mp hfunc)⟩
  · rintro ⟨bounds, func, hbounds, hnext, hown, hownNext⟩
    obtain rfl := Option.some.inj (hbounds.symm.trans (bounds?_eq hblock))
    have hsome : (graph.block? next).isSome := by
      obtain ⟨bounds, -, hbounds, -⟩ := hownNext
      rw [← isSome_bounds?, hbounds]
      rfl
    obtain ⟨found, hfound⟩ := Option.isSome_iff_exists.mp hsome
    refine ⟨hnext, found, hfound, beq_iff_eq.mpr ?_⟩
    rw [(ownedBy_iff hheaded howned hblock).mp hown, (ownedBy_iff hheaded howned hfound).mp hownNext]

/-- A block ends in the instruction that is found at its end. -/
theorem endsIn_iff {found : Instruction} (hblock : graph.block? id = some block) :
    graph.EndsIn chain id found ↔ chain.get? block.last = some found := by
  constructor
  · rintro ⟨bounds, hbounds, hlast⟩
    obtain rfl := Option.some.inj (hbounds.symm.trans (bounds?_eq hblock))
    exact hlast
  · exact fun h => ⟨block.bounds, bounds?_eq hblock, h⟩

/-- The exits of a function are its blocks that end in a return. -/
theorem mem_exits {owner : FuncId} (hheaded : graph.Headed chain) (howned : graph.Owned chain)
    (hends : ∀ exit, exit ∈ ends
      ↔ graph.block? exit.id = some exit.block ∧ chain.get? exit.block.last = some exit.instr) :
    id ∈ exits ends owner ↔ graph.OwnedBy chain id (some owner)
      ∧ ∃ last, graph.EndsIn chain id last ∧ last.flags.isReturn = true := by
  rw [exits, List.mem_map]
  constructor
  · rintro ⟨exit, hexit, rfl⟩
    obtain ⟨hmem, hboth⟩ := List.mem_filter.mp hexit
    obtain ⟨hfunc, hreturn⟩ := Bool.and_eq_true_iff.mp hboth
    obtain ⟨hblock, hinstr⟩ := (hends exit).mp hmem
    exact ⟨(ownedBy_iff hheaded howned hblock).mpr (beq_iff_eq.mp hfunc), exit.instr,
      (endsIn_iff hblock).mpr hinstr, hreturn⟩
  · rintro ⟨hown, last, hlast, hreturn⟩
    obtain ⟨bounds, hbounds, hend⟩ := hlast
    obtain ⟨block, hblock, rfl⟩ := block_of_bounds? hbounds
    refine ⟨⟨_, block, last⟩, List.mem_filter.mpr ⟨?_, ?_⟩, rfl⟩
    · exact (hends _).mpr ⟨hblock, hend⟩
    · rw [Bool.and_eq_true_iff, beq_iff_eq]
      exact ⟨(ownedBy_iff hheaded howned hblock).mp hown, hreturn⟩

/-- Each destination is found at the beginning of its block. -/
def Lands (graph : BlockGraph) (chain : Chain) (instr : Instruction) : Prop :=
  ∀ target ∈ instr.destinations, ∃ id, graph.find chain target = .ok (some id) ∧ graph.HeadedBy id target

/-- Each destination is found at the beginning of its block. If edges may be refused, it is enough that
it is found nowhere else. -/
def Aims (refusable : Prop) (graph : BlockGraph) (chain : Chain) (instr : Instruction) : Prop :=
  graph.Lands chain instr
    ∨ refusable ∧ ∀ target ∈ instr.destinations, ∀ id, graph.find chain target = .ok (some id) →
      graph.HeadedBy id target

theorem blockOfTarget_eq {source target : InstrId} (h : graph.find chain target = .ok (some id)) :
    graph.blockOfTarget chain source target = .ok id := by
  rw [blockOfTarget, h]
  rfl

/-- A block that an edge is drawn to was found at the address of the target. -/
theorem find_of_blockOfTarget {source target : InstrId} (h : graph.blockOfTarget chain source target = .ok id) :
    graph.find chain target = .ok (some id) := by
  rw [blockOfTarget, bind_eq_ok] at h
  obtain ⟨found, hfind, h⟩ := h
  cases found with
  | none => cases h
  | some found => rw [hfind, pure_eq_ok.mp h]

/-! ## What is drawn for a block -/

/-- The passage to the next block of the function. -/
def onward (graph : BlockGraph) (exit : BlockEnd) (kind : EdgeKind) : List Passage :=
  (graph.follower? exit.block).toList.map fun next => ⟨exit.id, next, kind⟩

theorem mem_onward {kind : EdgeKind} {passage : Passage} (hheaded : graph.Headed chain)
    (howned : graph.Owned chain) (hblock : graph.block? exit.id = some exit.block) :
    passage ∈ graph.onward exit kind
      ↔ ∃ next, graph.Follows chain exit.id next ∧ passage = ⟨exit.id, next, kind⟩ := by
  simp only [onward, List.mem_map, Option.mem_toList,
    follower_eq_some hheaded howned hblock, eq_comm]

/-- The passages of a jump: one to each of its destinations, and one to the next block if it is
conditional. -/
theorem passages_jump (hjump : exit.instr.flags.isJump = true) :
    graph.passages chain ends exit = (do
      let jumps ← exit.instr.destinations.mapM fun target => do
        return ⟨exit.id, ← graph.blockOfTarget chain exit.block.last target, exit.instr.flags.jumpKind⟩
      return jumps ++ if exit.instr.flags.isConditional then graph.onward exit .notTaken else []) := by
  unfold passages
  simp only [hjump, if_true]
  rfl

/-- The passages of a call: one to the next block if it leads to nothing that is known, else those of its
callees. -/
theorem passages_call (hjump : exit.instr.flags.isJump = false) (hcall : exit.instr.flags.isCall = true) :
    graph.passages chain ends exit = (do
      if exit.instr.destinations.isEmpty then
        return graph.onward exit .pastCall
      return (← exit.instr.destinations.mapM
        (graph.callPassages chain ends exit (graph.follower? exit.block))).flatten) := by
  unfold passages
  simp only [hjump, hcall]
  rfl

/-- The passages of any other instruction: one to the next block, unless it returns. -/
theorem passages_other (hjump : exit.instr.flags.isJump = false)
    (hcall : exit.instr.flags.isCall = false) :
    graph.passages chain ends exit
      = .ok (if exit.instr.flags.isReturn then [] else graph.onward exit .fallthrough) := by
  unfold passages
  simp only [hjump, hcall]
  cases exit.instr.flags.isReturn <;> rfl

/-- A call leads to its callee, and from the exits of the callee to the block behind. -/
theorem callPassages_run {callee : InstrId} {target : BlockId} (hl : chain.Spells (Part.code parts))
    (hcuts : graph.Cuts parts) (howned : graph.Owned chain)
    (hends : ∀ exit, exit ∈ ends
      ↔ graph.block? exit.id = some exit.block ∧ chain.get? exit.block.last = some exit.instr)
    (hblock : graph.block? exit.id = some exit.block) (hfind : graph.find chain callee = .ok (some target))
    (htarget : graph.HeadedBy target callee) :
    ∃ drawn, graph.callPassages chain ends exit (graph.follower? exit.block) callee = .ok drawn
      ∧ ∀ passage, passage ∈ drawn
        ↔ (∃ entered, graph.HeadedBy entered callee ∧ passage = ⟨exit.id, entered, .call⟩)
          ∨ ∃ next func source, graph.Follows chain exit.id next
            ∧ (chain.get? callee).bind (·.func) = some func ∧ graph.OwnedBy chain source (some func)
            ∧ (∃ last, graph.EndsIn chain source last ∧ last.flags.isReturn = true)
            ∧ passage = ⟨source, next, .ret⟩ := by
  have hheaded := hcuts.headed hl
  unfold callPassages
  rw [blockOfTarget_eq hfind]
  refine ⟨_, rfl, fun passage => ?_⟩
  rw [List.mem_cons]
  refine or_congr ⟨?_, ?_⟩ ?_
  · rintro rfl
    exact ⟨target, htarget, rfl⟩
  · rintro ⟨entered, hentered, rfl⟩
    rw [hcuts.headed_inj hl.nodup hentered htarget]
  · simp only [← follower_eq_some hheaded howned hblock, ← and_assoc, ← mem_exits hheaded howned hends]
    cases graph.follower? exit.block with
    | none => simp
    | some next =>
      cases (chain.get? callee).bind (·.func) with
      | none => simp
      | some func => simp [eq_comm, and_assoc]

/-- A jump leads to each of its destinations, and a conditional one to the block behind as well. -/
theorem passages_run_jump (hl : chain.Spells (Part.code parts)) (hcuts : graph.Cuts parts)
    (howned : graph.Owned chain) (hblock : graph.block? exit.id = some exit.block)
    (hlast : chain.get? exit.block.last = some exit.instr) (hjump : exit.instr.flags.isJump = true)
    (hlands : graph.Lands chain exit.instr) :
    ∃ drawn, graph.passages chain ends exit = .ok drawn
      ∧ ∀ passage, passage ∈ drawn ↔ graph.Passes chain exit.id passage := by
  have hend : graph.EndsIn chain exit.id exit.instr := (endsIn_iff hblock).mpr hlast
  obtain ⟨jumps, hjumps, hmem⟩ := mapM_succeeds (f := fun target => do
      return (⟨exit.id, ← graph.blockOfTarget chain exit.block.last target,
        exit.instr.flags.jumpKind⟩ : Passage)) fun target (htarget : target ∈ exit.instr.destinations) => by
    obtain ⟨id, hfind, -⟩ := hlands target htarget
    exact ⟨_, by rw [blockOfTarget_eq hfind]; rfl⟩
  refine ⟨_, (passages_jump hjump).trans (bind_eq_ok.mpr ⟨jumps, hjumps, rfl⟩), fun passage => ?_⟩
  rw [passes_jump hend hjump, List.mem_append, hmem]
  refine or_congr (exists_congr fun target => and_congr_right fun htarget => ?_) ?_
  · obtain ⟨id, hfind, hid⟩ := hlands target htarget
    rw [blockOfTarget_eq hfind]
    constructor
    · intro h
      exact ⟨id, hid, (Except.ok.inj h).symm⟩
    · rintro ⟨entered, hentered, rfl⟩
      rw [hcuts.headed_inj hl.nodup hentered hid]
      rfl
  · cases exit.instr.flags.isConditional with
    | true => simpa using mem_onward (hcuts.headed hl) howned hblock
    | false => simp

/-- The edges of a call are those of all its callees together. -/
theorem passages_run_call (hl : chain.Spells (Part.code parts)) (hcuts : graph.Cuts parts)
    (howned : graph.Owned chain)
    (hends : ∀ exit, exit ∈ ends
      ↔ graph.block? exit.id = some exit.block ∧ chain.get? exit.block.last = some exit.instr)
    (hexit : exit ∈ ends) (hjump : exit.instr.flags.isJump = false) (hcall : exit.instr.flags.isCall = true)
    (hlands : graph.Lands chain exit.instr) :
    ∃ drawn, graph.passages chain ends exit = .ok drawn
      ∧ ∀ passage, passage ∈ drawn ↔ graph.Passes chain exit.id passage := by
  obtain ⟨hblock, hlast⟩ := (hends exit).mp hexit
  have hend : graph.EndsIn chain exit.id exit.instr := (endsIn_iff hblock).mpr hlast
  by_cases hnone : exit.instr.destinations = []
  · refine ⟨graph.onward exit .pastCall, ?_, fun passage => ?_⟩
    · rw [passages_call hjump hcall, hnone]
      rfl
    · rw [passes_call hend hjump hcall, mem_onward (hcuts.headed hl) howned hblock, hnone]
      simp
  · have hruns := fun target (htarget : target ∈ exit.instr.destinations) =>
      have hland := (hlands target htarget).choose_spec
      callPassages_run hl hcuts howned hends hblock hland.1 hland.2
    obtain ⟨drawn, hdrawn, hmem⟩ := mapM_succeeds fun target htarget =>
      (hruns target htarget).imp fun _ hrun => hrun.1
    refine ⟨drawn.flatten, ?_, fun passage => ?_⟩
    · rw [passages_call hjump hcall, List.isEmpty_eq_false_iff.mpr hnone, hdrawn]
      rfl
    · rw [passes_call hend hjump hcall, List.mem_flatten, or_iff_right fun h => hnone h.1]
      constructor
      · rintro ⟨list, hlist, hin⟩
        obtain ⟨target, htarget, hrun⟩ := (hmem list).mp hlist
        obtain ⟨list', hrun', hiff⟩ := hruns target htarget
        obtain rfl := Except.ok.inj (hrun.symm.trans hrun')
        exact ⟨target, htarget, (hiff passage).mp hin⟩
      · rintro ⟨target, htarget, h⟩
        obtain ⟨list, hrun, hiff⟩ := hruns target htarget
        exact ⟨list, (hmem list).mpr ⟨target, htarget, hrun⟩, (hiff passage).mpr h⟩

/-- The passages from the end of a block are those that its last instruction makes. -/
theorem passages_run (hl : chain.Spells (Part.code parts)) (hcuts : graph.Cuts parts)
    (howned : graph.Owned chain)
    (hends : ∀ exit, exit ∈ ends
      ↔ graph.block? exit.id = some exit.block ∧ chain.get? exit.block.last = some exit.instr)
    (hexit : exit ∈ ends)
    (hlands : exit.instr.flags.isJump = true ∨ exit.instr.flags.isCall = true → graph.Lands chain exit.instr) :
    ∃ drawn, graph.passages chain ends exit = .ok drawn
      ∧ ∀ passage, passage ∈ drawn ↔ graph.Passes chain exit.id passage := by
  obtain ⟨hblock, hlast⟩ := (hends exit).mp hexit
  cases hjump : exit.instr.flags.isJump with
  | true => exact passages_run_jump hl hcuts howned hblock hlast hjump (hlands (.inl hjump))
  | false =>
    cases hcall : exit.instr.flags.isCall with
    | true => exact passages_run_call hl hcuts howned hends hexit hjump hcall (hlands (.inr hcall))
    | false =>
      refine ⟨_, passages_other hjump hcall, fun passage => ?_⟩
      rw [passes_other ((endsIn_iff hblock).mpr hlast) hjump hcall]
      cases exit.instr.flags.isReturn with
      | true => simp
      | false => simpa using mem_onward (hcuts.headed hl) howned hblock

/-- Where the passages of a jump or a call can be listed, each of its destinations is found. -/
theorem find_of_passages {drawn : List Passage} {target : InstrId} (h : graph.passages chain ends exit = .ok drawn)
    (htransfer : exit.instr.flags.isJump = true ∨ exit.instr.flags.isCall = true)
    (htarget : target ∈ exit.instr.destinations) : ∃ id, graph.find chain target = .ok (some id) := by
  cases hjump : exit.instr.flags.isJump with
  | true =>
    rw [passages_jump hjump, bind_eq_ok] at h
    obtain ⟨jumps, hjumps, -⟩ := h
    obtain ⟨_, -, hrun⟩ := exists_of_mapM_eq_ok hjumps htarget
    obtain ⟨id, hid, -⟩ := bind_eq_ok.mp hrun
    exact ⟨id, find_of_blockOfTarget hid⟩
  | false =>
    have hcall := htransfer.resolve_left (by rw [hjump]; exact Bool.false_ne_true)
    have hsome : exit.instr.destinations.isEmpty = false :=
      List.isEmpty_eq_false_iff.mpr (List.ne_nil_of_mem htarget)
    rw [passages_call hjump hcall, hsome] at h
    obtain ⟨lists, hlists, -⟩ := bind_eq_ok.mp h
    obtain ⟨_, -, hrun⟩ := exists_of_mapM_eq_ok hlists htarget
    obtain ⟨id, hid, -⟩ := bind_eq_ok.mp hrun
    exact ⟨id, find_of_blockOfTarget hid⟩

/-- What is listed for a block are the passages that its last instruction makes. -/
theorem passages_ok {refusable : Prop} {drawn : List Passage} (hl : chain.Spells (Part.code parts))
    (hcuts : graph.Cuts parts) (howned : graph.Owned chain)
    (hends : ∀ exit, exit ∈ ends
      ↔ graph.block? exit.id = some exit.block ∧ chain.get? exit.block.last = some exit.instr)
    (hexit : exit ∈ ends) (haims : graph.Aims refusable chain exit.instr)
    (h : graph.passages chain ends exit = .ok drawn) (passage : Passage) :
    passage ∈ drawn ↔ graph.Passes chain exit.id passage := by
  obtain ⟨drawn', hrun, hiff⟩ := passages_run hl hcuts howned hends hexit fun htransfer => by
    rcases haims with hlands | ⟨-, hhits⟩
    · exact hlands
    · intro target htarget
      obtain ⟨id, hfind⟩ := find_of_passages h htransfer htarget
      exact ⟨id, hfind, hhits target htarget id hfind⟩
  obtain rfl := Except.ok.inj (h.symm.trans hrun)
  exact hiff passage

end BlockGraph

namespace GraphM

open BlockGraph

variable {graph after : BlockGraph} {chain : Chain} {source target : BlockId} {parts : List Part}

/-! ## Drawing -/

/-- To draw an edge leaves each block stamped as it was. -/
theorem addEdge_owned {kind : EdgeKind} {new : EdgeId} (h : addEdge source target kind graph = .ok new after)
    (howned : graph.Owned chain) : after.Owned chain := by
  simp only [addEdge, bind_ok, block_ok, get_ok, modify_ok, updateBlock_ok] at h
  obtain ⟨_, _, ⟨-, rfl⟩, _, _, ⟨-, rfl⟩, _, _, ⟨rfl, rfl⟩, _, _, rfl, _, _, ⟨-, rfl⟩, _, _, ⟨-, rfl⟩, h⟩ := h
  obtain ⟨-, rfl⟩ := pure_ok.mp h
  exact owned_withBlock (fun _ => ⟨rfl, rfl⟩) (owned_withBlock (fun _ => ⟨rfl, rfl⟩) howned)

/-- Edges are drawn for a list of passages. -/
theorem addEdges_run {passages : List Passage} (hwired : graph.Wired)
    (hends : ∀ passage ∈ passages, (graph.block? passage.source).isSome ∧ (graph.block? passage.target).isSome) :
    ∃ after, passages.forM (fun passage => discard (addEdge passage.source passage.target passage.kind))
        graph = .ok () after
      ∧ graph.SameCut after ∧ after.Wired ∧ (∀ chain, graph.Owned chain → after.Owned chain)
      ∧ ∀ passage, after.Carries passage ↔ graph.Carries passage ∨ passage ∈ passages := by
  induction passages generalizing graph with
  | nil =>
    exact ⟨graph, rfl, SameCut.stepRelation.refl graph, hwired, fun _ h => h, fun passage => by simp⟩
  | cons first passages ih =>
    obtain ⟨hsource, htarget⟩ := hends first (List.mem_cons_self ..)
    obtain ⟨m, hadd, hcut, hwired', hedge⟩ := Wired.addEdge hwired first.kind hsource htarget
    obtain ⟨after, hrun, hcut', hwired'', howned, hcarries⟩ := ih hwired' fun passage hpassage => by
      rw [hcut.isSome, hcut.isSome]
      exact hends passage (List.mem_cons_of_mem _ hpassage)
    refine ⟨after, forM_cons_ok.mpr ⟨m, discard_ok.mpr ⟨_, hadd⟩, hrun⟩,
      SameCut.stepRelation.trans hcut hcut', hwired'',
      fun chain h => howned chain (addEdge_owned hadd h), fun passage => ?_⟩
    · rw [hcarries, List.mem_cons, ← or_assoc]
      refine or_congr ⟨?_, ?_⟩ Iff.rfl
      · rintro ⟨edge, found, hfound, rfl⟩
        rw [hedge] at hfound
        split at hfound
        next =>
          obtain rfl := Option.some.inj hfound
          exact .inr rfl
        next => exact .inl ⟨edge, found, hfound, rfl⟩
      · rintro (⟨edge, found, hfound, rfl⟩ | rfl)
        · refine ⟨edge, found, ?_, rfl⟩
          rw [hedge, if_neg]
          · exact hfound
          · rintro rfl
            rw [edge?_fresh] at hfound
            cases hfound
        · exact ⟨_, _, by rw [hedge, if_pos rfl], rfl⟩

/-- Once the passages of each block are listed, an edge is drawn for each of them. -/
theorem linkEdges_eq {ends : List BlockEnd} (hends : graph.ends chain = .ok ends) :
    linkEdges chain graph = (match ends.mapM (graph.passages chain ends) with
      | .error cause => throw cause
      | .ok passages => passages.flatten.forM fun passage =>
        discard (addEdge passage.source passage.target passage.kind) : GraphM Unit) graph := by
  have hboth : (do
      let ends ← graph.ends chain
      ends.mapM (graph.passages chain ends)) = ends.mapM (graph.passages chain ends) := by
    rw [hends]
    rfl
  unfold linkEdges
  refine (bind_run (get_ok.mpr ⟨rfl, rfl⟩)).trans ?_
  exact congrArg (fun drawn => (match drawn with
    | .error cause => throw cause
    | .ok passages => passages.flatten.forM fun passage =>
      discard (addEdge passage.source passage.target passage.kind) : GraphM Unit) graph) hboth

/-- What is listed for all blocks together are the passages of the code. -/
theorem mem_passages_iff {refusable : Prop} {ends : List BlockEnd} {lists : List (List Passage)}
    (hl : chain.Spells (Part.code parts)) (hcuts : graph.Cuts parts) (howned : graph.Owned chain)
    (hends : ∀ exit, exit ∈ ends
      ↔ graph.block? exit.id = some exit.block ∧ chain.get? exit.block.last = some exit.instr)
    (haims : ∀ exit ∈ ends, graph.Aims refusable chain exit.instr)
    (h : ends.mapM (graph.passages chain ends) = .ok lists) (passage : Passage) :
    passage ∈ lists.flatten ↔ ∃ id, graph.Passes chain id passage := by
  rw [List.mem_flatten]
  constructor
  · rintro ⟨list, hlist, hin⟩
    obtain ⟨exit, hexit, hrun⟩ := exists_of_mem_mapM h hlist
    exact ⟨exit.id, (passages_ok hl hcuts howned hends hexit (haims exit hexit) hrun passage).mp hin⟩
  · rintro ⟨id, hpasses⟩
    obtain ⟨instr, bounds, hbounds, hlast⟩ := hpasses.endsIn
    obtain ⟨block, hblock, rfl⟩ := block_of_bounds? hbounds
    have hexit : (⟨id, block, instr⟩ : BlockEnd) ∈ ends := (hends _).mpr ⟨hblock, hlast⟩
    obtain ⟨list, hlist, hrun⟩ := exists_of_mapM_eq_ok h hexit
    exact ⟨list, hlist, (passages_ok hl hcuts howned hends hexit (haims _ hexit) hrun passage).mpr hpasses⟩

/-- The edges are drawn for the passages of control. Only a destination that is not found makes this be
refused. -/
theorem linkEdges_yields {refusable : Prop} (hl : chain.Spells (Part.code parts)) (hcuts : graph.Cuts parts)
    (hwired : graph.Wired) (howned : graph.Owned chain) (hnone : ∀ edge, graph.edge? edge = none)
    (haims : ∀ id instr, graph.EndsIn chain id instr → graph.Aims refusable chain instr) :
    Yields refusable (linkEdges chain) graph fun _ after =>
      graph.SameCut after ∧ after.Wired ∧ after.Owned chain ∧ after.Draws chain := by
  obtain ⟨ends, hends, hmem⟩ := ends_run hl hcuts
  have haims : ∀ exit ∈ ends, graph.Aims refusable chain exit.instr := fun exit hexit =>
    haims exit.id exit.instr ((endsIn_iff ((hmem exit).mp hexit).1).mpr ((hmem exit).mp hexit).2)
  have hlink := linkEdges_eq hends
  cases hlists : ends.mapM (graph.passages chain ends) with
  | error cause =>
    rw [hlists] at hlink
    refine .of_error hlink ?_
    -- where each destination is found nothing is refused
    refine Classical.byContradiction fun hnot => ?_
    obtain ⟨lists, hrun, -⟩ := mapM_succeeds fun exit (hexit : exit ∈ ends) =>
      (passages_run hl hcuts howned hmem hexit fun _ =>
        (haims exit hexit).resolve_right fun h => hnot h.1).imp fun _ h => h.1
    rw [hrun] at hlists
    cases hlists
  | ok lists =>
    have hdrawn := mem_passages_iff hl hcuts howned hmem haims hlists
    obtain ⟨after, hadd, hcut, hwired', howned', hcarries⟩ := addEdges_run hwired fun passage hpassage =>
      ((hdrawn passage).mp hpassage).elim fun _ h => h.isSome
    rw [hlists] at hlink
    refine .of_ok (hlink.trans hadd) ⟨hcut, hwired', howned' chain howned, fun passage => ?_⟩
    rw [hcarries, hdrawn, or_iff_right]
    · exact exists_congr fun id => hcut.passes_iff.symm
    · rintro ⟨edge, found, hfound, -⟩
      rw [hnone] at hfound
      cases hfound

end GraphM

end Splice
