import Splice.Proofs.Block.Construction

/-!
# Flow of control between blocks

What the last instruction of a block makes of the flow of control is said in terms of the code and
of where it is cut, without any search (`Passes`). An edge stands for one passage of control, and
a graph draws the flow if its edges are those of the passages (`Draws`).

A passage is a pair of blocks with the kind of edge that is to join them. The constructors of
`Passes` are the ways in which control goes on: jumps to destinations, calls to callees, returns
from a callee's exits to the block behind the call, and falling through. `passes_jump`,
`passes_call` and `passes_other` turn them into equations for one last instruction, which is how
the step that draws edges is compared with them.
-/

namespace Splice

/-- The passage of control that the edge stands for. -/
def Edge.passage (edge : Edge) : BlockGraph.Passage := ⟨edge.source, edge.target, edge.kind⟩

/-- Where a jump or a call may lead: to the entries of its table if it is indirect, else to its
target. -/
def Instruction.destinations (instr : Instruction) : List InstrId :=
  if instr.flags.isIndirect then instr.jumpTable else instr.target.toList

/-- How a jump leads to its destinations. -/
def Flags.jumpKind (flags : Flags) : EdgeKind :=
  if flags.isIndirect then .indirect else if flags.isConditional then .taken else .goto

/-- What a jump or a call may lead to is among its references. -/
theorem Instruction.destinations_subset {instr : Instruction} {target : InstrId}
    (h : target ∈ instr.destinations) : target ∈ instr.references := by
  unfold destinations at h
  split at h
  · exact List.mem_append_right _ h
  · exact List.mem_append_left _ h

namespace BlockGraph

/-- The block begins with the instruction. -/
def HeadedBy (graph : BlockGraph) (id : BlockId) (first : InstrId) : Prop :=
  ∃ bounds, graph.bounds? id = some bounds ∧ bounds.first = first

/-- The block ends with such an instruction. -/
def EndsIn (graph : BlockGraph) (chain : Chain) (id : BlockId) (instr : Instruction) : Prop :=
  ∃ bounds, graph.bounds? id = some bounds ∧ chain.get? bounds.last = some instr

/-- The block begins with an instruction of the function. -/
def OwnedBy (graph : BlockGraph) (chain : Chain) (id : BlockId) (func : Option FuncId) : Prop :=
  ∃ bounds instr, graph.bounds? id = some bounds ∧ chain.get? bounds.first = some instr
    ∧ instr.func = func

/-- The block is followed by a block of the same function. -/
def Follows (graph : BlockGraph) (chain : Chain) (id next : BlockId) : Prop :=
  ∃ bounds func, graph.bounds? id = some bounds ∧ bounds.next = some next
    ∧ graph.OwnedBy chain id func ∧ graph.OwnedBy chain next func

/-- What the last instruction of the block `id` makes of the flow of control. The return from a callee
is made by the call, though it leads from another block. -/
inductive Passes (graph : BlockGraph) (chain : Chain) (id : BlockId) : Passage → Prop where
  | jump {instr : Instruction} {target : InstrId} {entered : BlockId} :
    graph.EndsIn chain id instr → instr.flags.isJump = true → target ∈ instr.destinations →
    graph.HeadedBy entered target → Passes graph chain id ⟨id, entered, instr.flags.jumpKind⟩
  | notTaken {instr : Instruction} {next : BlockId} :
    graph.EndsIn chain id instr → instr.flags.isJump = true → instr.flags.isConditional = true →
    graph.Follows chain id next → Passes graph chain id ⟨id, next, .notTaken⟩
  | pastCall {instr : Instruction} {next : BlockId} :
    graph.EndsIn chain id instr → instr.flags.isJump = false → instr.flags.isCall = true →
    instr.destinations = [] → graph.Follows chain id next → Passes graph chain id ⟨id, next, .pastCall⟩
  | call {instr : Instruction} {target : InstrId} {entered : BlockId} :
    graph.EndsIn chain id instr → instr.flags.isJump = false → instr.flags.isCall = true →
    target ∈ instr.destinations → graph.HeadedBy entered target → Passes graph chain id ⟨id, entered, .call⟩
  | ret {instr callee last : Instruction} {target : InstrId} {func : FuncId} {exit next : BlockId} :
    graph.EndsIn chain id instr → instr.flags.isJump = false → instr.flags.isCall = true →
    target ∈ instr.destinations → chain.get? target = some callee → callee.func = some func →
    graph.OwnedBy chain exit (some func) → graph.EndsIn chain exit last → last.flags.isReturn = true →
    graph.Follows chain id next → Passes graph chain id ⟨exit, next, .ret⟩
  | fallthrough {instr : Instruction} {next : BlockId} :
    graph.EndsIn chain id instr → instr.flags.isJump = false → instr.flags.isCall = false →
    instr.flags.isReturn = false → graph.Follows chain id next →
    Passes graph chain id ⟨id, next, .fallthrough⟩

/-- Some edge stands for the passage. -/
def Carries (graph : BlockGraph) (passage : Passage) : Prop :=
  ∃ edge found, graph.edge? edge = some found ∧ found.passage = passage

/-- The edges are those of the passages of control. -/
def Draws (graph : BlockGraph) (chain : Chain) : Prop :=
  ∀ passage, graph.Carries passage ↔ ∃ id, graph.Passes chain id passage

/-- Every block is stamped with the function of its first instruction. -/
def Owned (graph : BlockGraph) (chain : Chain) : Prop :=
  ∀ id block, graph.block? id = some block → block.func = (chain.get? block.first).bind (·.func)

variable {graph after : BlockGraph} {chain : Chain} {id next : BlockId} {block : Block}
  {parts : List Part} {instr : InstrId} {first : InstrId} {func : Option FuncId}
  {ends : List BlockEnd} {exit : BlockEnd}

/-! ## Graphs that are cut alike -/

theorem SameCut.endsIn {found : Instruction} (h : graph.SameCut after) :
    after.EndsIn chain id found ↔ graph.EndsIn chain id found := by
  unfold EndsIn
  rw [h.bounds]

theorem SameCut.headedBy (h : graph.SameCut after) : after.HeadedBy id first ↔ graph.HeadedBy id first := by
  unfold HeadedBy
  rw [h.bounds]

theorem SameCut.ownedBy (h : graph.SameCut after) :
    after.OwnedBy chain id func ↔ graph.OwnedBy chain id func := by
  unfold OwnedBy
  rw [h.bounds]

theorem SameCut.follows (h : graph.SameCut after) :
    after.Follows chain id next ↔ graph.Follows chain id next := by
  unfold Follows
  simp only [h.bounds, h.ownedBy]

theorem SameCut.symm (h : graph.SameCut after) : after.SameCut graph :=
  ⟨fun id => (h.bounds id).symm, h.size.symm, h.head.symm, h.tail.symm, h.tree.symm, h.sections.symm⟩

/-- Graphs that cut the code alike have the same passages. -/
theorem SameCut.passes {passage : Passage} (h : graph.SameCut after) (hpasses : graph.Passes chain id passage) :
    after.Passes chain id passage := by
  cases hpasses with
  | jump hend hjump hmem hhead => exact .jump (h.endsIn.mpr hend) hjump hmem (h.headedBy.mpr hhead)
  | notTaken hend hjump hcond hnext => exact .notTaken (h.endsIn.mpr hend) hjump hcond (h.follows.mpr hnext)
  | pastCall hend hjump hcall hnone hnext =>
    exact .pastCall (h.endsIn.mpr hend) hjump hcall hnone (h.follows.mpr hnext)
  | call hend hjump hcall hmem hhead =>
    exact .call (h.endsIn.mpr hend) hjump hcall hmem (h.headedBy.mpr hhead)
  | ret hend hjump hcall hmem hcallee hfunc howned hexit hreturn hnext =>
    exact .ret (h.endsIn.mpr hend) hjump hcall hmem hcallee hfunc (h.ownedBy.mpr howned)
      (h.endsIn.mpr hexit) hreturn (h.follows.mpr hnext)
  | fallthrough hend hjump hcall hreturn hnext =>
    exact .fallthrough (h.endsIn.mpr hend) hjump hcall hreturn (h.follows.mpr hnext)

theorem Passes.endsIn {passage : Passage} (h : graph.Passes chain id passage) :
    ∃ found, graph.EndsIn chain id found := by
  cases h with
  | jump hend | notTaken hend | pastCall hend | call hend | ret hend | fallthrough hend => exact ⟨_, hend⟩

/-- A passage joins blocks of the graph. -/
theorem Passes.isSome {passage : Passage} (h : graph.Passes chain id passage) :
    (graph.block? passage.source).isSome ∧ (graph.block? passage.target).isSome := by
  have hbounds : ∀ {block bounds}, graph.bounds? block = some bounds → (graph.block? block).isSome :=
    fun h => by
      rw [← isSome_bounds?, h]
      rfl
  have hfollows : ∀ {next}, graph.Follows chain id next → (graph.block? next).isSome := by
    rintro next ⟨_, _, -, -, -, _, _, h, -⟩
    exact hbounds h
  have hends : ∀ {block found}, graph.EndsIn chain block found → (graph.block? block).isSome := by
    rintro block found ⟨_, h, -⟩
    exact hbounds h
  have hheaded : ∀ {block first}, graph.HeadedBy block first → (graph.block? block).isSome := by
    rintro block first ⟨_, h, -⟩
    exact hbounds h
  cases h with
  | jump hend _ _ hentered | call hend _ _ _ hentered => exact ⟨hends hend, hheaded hentered⟩
  | notTaken hend _ _ hnext | pastCall hend _ _ _ hnext | fallthrough hend _ _ _ hnext =>
    exact ⟨hends hend, hfollows hnext⟩
  | ret _ _ _ _ _ _ _ hexit _ hnext => exact ⟨hends hexit, hfollows hnext⟩

theorem SameCut.passes_iff {passage : Passage} (h : graph.SameCut after) :
    after.Passes chain id passage ↔ graph.Passes chain id passage :=
  ⟨h.symm.passes, h.passes⟩

/-! ## Blocks of cut code -/

theorem bounds?_eq (h : graph.block? id = some block) : graph.bounds? id = some block.bounds := by
  rw [bounds?, h]
  rfl

theorem block_of_bounds? {bounds : Bounds} (h : graph.bounds? id = some bounds) :
    ∃ block, graph.block? id = some block ∧ block.bounds = bounds := Option.map_eq_some_iff.mp h

/-- The bounds of the block of a part. -/
theorem Cuts.bounds? (h : graph.Cuts parts) {part : Part} (hpart : part ∈ parts) :
    ∃ bounds, graph.bounds? part.id = some bounds ∧ part.run.head? = some bounds.first
      ∧ part.run.getLast? = some bounds.last := by
  obtain ⟨ps, qs, rfl⟩ := List.append_of_mem hpart
  obtain ⟨block, hblock, hfits⟩ := h.bounds
  exact ⟨block.bounds, bounds?_eq hblock, hfits.first, hfits.last⟩

/-- A block is that of a part. -/
theorem Cuts.part_of_bounds (h : graph.Cuts parts) {bounds : Bounds} (hbounds : graph.bounds? id = some bounds) :
    ∃ part ∈ parts, part.id = id ∧ part.run.head? = some bounds.first
      ∧ part.run.getLast? = some bounds.last := by
  obtain ⟨ps, run, qs, rfl⟩ := h.part_of (by rw [← isSome_bounds?, hbounds]; rfl)
  have hmem : (⟨id, run⟩ : Part) ∈ ps ++ ⟨id, run⟩ :: qs := by simp
  obtain ⟨bounds', hbounds', hfirst, hlast⟩ := h.bounds? hmem
  obtain rfl := Option.some.inj (hbounds.symm.trans hbounds')
  exact ⟨_, hmem, rfl, hfirst, hlast⟩

/-- A block begins with an instruction exactly if its run does. -/
theorem Cuts.headedBy_iff (h : graph.Cuts parts) :
    graph.HeadedBy id first ↔ ∃ part ∈ parts, part.id = id ∧ part.run.head? = some first := by
  constructor
  · rintro ⟨bounds, hbounds, rfl⟩
    obtain ⟨part, hpart, hid, hfirst, -⟩ := h.part_of_bounds hbounds
    exact ⟨part, hpart, hid, hfirst⟩
  · rintro ⟨part, hpart, rfl, hfirst⟩
    obtain ⟨bounds, hbounds, hhead, -⟩ := h.bounds? hpart
    exact ⟨bounds, hbounds, Option.some.inj (hhead.symm.trans hfirst)⟩

/-- A block ends in an instruction exactly if its run does. -/
theorem Cuts.endsIn_iff (h : graph.Cuts parts) {found : Instruction} : graph.EndsIn chain id found
    ↔ ∃ part ∈ parts, part.id = id ∧ ∃ last, part.run.getLast? = some last ∧ chain.get? last = some found := by
  constructor
  · rintro ⟨bounds, hbounds, hget⟩
    obtain ⟨part, hpart, hid, -, hlast⟩ := h.part_of_bounds hbounds
    exact ⟨part, hpart, hid, _, hlast, hget⟩
  · rintro ⟨part, hpart, rfl, last, hlast, hget⟩
    obtain ⟨bounds, hbounds, -, hend⟩ := h.bounds? hpart
    obtain rfl := Option.some.inj (hend.symm.trans hlast)
    exact ⟨bounds, hbounds, hget⟩

/-- Two blocks do not begin with the same instruction. -/
theorem Cuts.headed_inj (h : graph.Cuts parts) (hnodup : (Part.code parts).Nodup) {a b : BlockId}
    (ha : graph.HeadedBy a first) (hb : graph.HeadedBy b first) : a = b := by
  obtain ⟨part, hpart, rfl, hhead⟩ := h.headedBy_iff.mp ha
  obtain ⟨other, hother, rfl, hhead'⟩ := h.headedBy_iff.mp hb
  exact congrArg Part.id
    (Part.eq_of_mem hnodup hpart hother (List.mem_of_head? hhead) (List.mem_of_head? hhead'))
/-! ## The passages from one block -/

/-- A block begins with one instruction. -/
theorem HeadedBy.unique {other : InstrId} (h : graph.HeadedBy id first) (h' : graph.HeadedBy id other) :
    first = other := by
  obtain ⟨bounds, hbounds, rfl⟩ := h
  obtain ⟨bounds', hbounds', rfl⟩ := h'
  rw [Option.some.inj (hbounds.symm.trans hbounds')]

/-- A block ends in one instruction. -/
theorem EndsIn.unique {found other : Instruction} (h : graph.EndsIn chain id found)
    (h' : graph.EndsIn chain id other) : other = found := by
  obtain ⟨bounds, hbounds, hlast⟩ := h
  obtain ⟨bounds', hbounds', hlast'⟩ := h'
  obtain rfl := Option.some.inj (hbounds.symm.trans hbounds')
  exact Option.some.inj (hlast'.symm.trans hlast)

/-- What a jump makes of the flow of control. -/
theorem passes_jump {found : Instruction} {passage : Passage} (hend : graph.EndsIn chain id found)
    (hjump : found.flags.isJump = true) : graph.Passes chain id passage
      ↔ (∃ target ∈ found.destinations, ∃ entered, graph.HeadedBy entered target
          ∧ passage = ⟨id, entered, found.flags.jumpKind⟩)
        ∨ found.flags.isConditional = true ∧ ∃ next, graph.Follows chain id next
          ∧ passage = ⟨id, next, .notTaken⟩ := by
  constructor
  · intro h
    cases h with
    | jump hend' _ htarget hentered =>
      obtain rfl := hend.unique hend'
      exact .inl ⟨_, htarget, _, hentered, rfl⟩
    | notTaken hend' _ hcond hnext =>
      obtain rfl := hend.unique hend'
      exact .inr ⟨hcond, _, hnext, rfl⟩
    | pastCall hend' hnot | call hend' hnot | ret hend' hnot | fallthrough hend' hnot =>
      obtain rfl := hend.unique hend'
      rw [hjump] at hnot
      cases hnot
  · rintro (⟨target, htarget, entered, hentered, rfl⟩ | ⟨hcond, next, hnext, rfl⟩)
    · exact .jump hend hjump htarget hentered
    · exact .notTaken hend hjump hcond hnext

/-- What a call makes of the flow of control. -/
theorem passes_call {found : Instruction} {passage : Passage} (hend : graph.EndsIn chain id found)
    (hjump : found.flags.isJump = false) (hcall : found.flags.isCall = true) :
    graph.Passes chain id passage
      ↔ (found.destinations = [] ∧ ∃ next, graph.Follows chain id next ∧ passage = ⟨id, next, .pastCall⟩)
        ∨ ∃ target ∈ found.destinations, (∃ entered, graph.HeadedBy entered target ∧ passage = ⟨id, entered, .call⟩)
          ∨ ∃ next func exit, graph.Follows chain id next
            ∧ (chain.get? target).bind (·.func) = some func ∧ graph.OwnedBy chain exit (some func)
            ∧ (∃ last, graph.EndsIn chain exit last ∧ last.flags.isReturn = true)
            ∧ passage = ⟨exit, next, .ret⟩ := by
  constructor
  · intro h
    -- of the six ways on, the flags leave three
    cases h with
    | jump hend' hnot | notTaken hend' hnot =>
      obtain rfl := hend.unique hend'
      rw [hjump] at hnot
      cases hnot
    | pastCall hend' _ _ hnone hnext =>
      obtain rfl := hend.unique hend'
      exact .inl ⟨hnone, _, hnext, rfl⟩
    | call hend' _ _ htarget hentered =>
      obtain rfl := hend.unique hend'
      exact .inr ⟨_, htarget, .inl ⟨_, hentered, rfl⟩⟩
    | ret hend' _ _ htarget hcallee hfunc hown hexit hreturn hnext =>
      obtain rfl := hend.unique hend'
      exact .inr ⟨_, htarget, .inr ⟨_, _, _, hnext, by rw [hcallee]; exact hfunc, hown, ⟨_, hexit, hreturn⟩, rfl⟩⟩
    | fallthrough hend' _ hnot =>
      obtain rfl := hend.unique hend'
      rw [hcall] at hnot
      cases hnot
  · rintro (⟨hnone, next, hnext, rfl⟩ | ⟨target, htarget, ⟨entered, hentered, rfl⟩ |
      ⟨next, func, exit, hnext, hfunc, hown, ⟨last, hlast, hreturn⟩, rfl⟩⟩)
    · exact .pastCall hend hjump hcall hnone hnext
    · exact .call hend hjump hcall htarget hentered
    · obtain ⟨callee, hcallee, hfunc⟩ := Option.bind_eq_some_iff.mp hfunc
      exact .ret hend hjump hcall htarget hcallee hfunc hown hlast hreturn hnext

/-- What any other instruction makes of the flow of control. -/
theorem passes_other {found : Instruction} {passage : Passage} (hend : graph.EndsIn chain id found)
    (hjump : found.flags.isJump = false) (hcall : found.flags.isCall = false) :
    graph.Passes chain id passage
      ↔ found.flags.isReturn = false ∧ ∃ next, graph.Follows chain id next
        ∧ passage = ⟨id, next, .fallthrough⟩ := by
  constructor
  · intro h
    cases h with
    | jump hend' hnot | notTaken hend' hnot =>
      obtain rfl := hend.unique hend'
      rw [hjump] at hnot
      cases hnot
    | pastCall hend' _ hnot | call hend' _ hnot | ret hend' _ hnot =>
      obtain rfl := hend.unique hend'
      rw [hcall] at hnot
      cases hnot
    | fallthrough hend' _ _ hreturn hnext =>
      obtain rfl := hend.unique hend'
      exact ⟨hreturn, _, hnext, rfl⟩
  · rintro ⟨hreturn, next, hnext, rfl⟩
    exact .fallthrough hend hjump hcall hreturn hnext

/-! ## Owners -/

/-- To change what a block is not stamped with leaves every block stamped with its function. -/
theorem owned_withBlock {f : Block → Block}
    (hf : ∀ block, (f block).first = block.first ∧ (f block).func = block.func) (h : graph.Owned chain) :
    (graph.withBlock next f).Owned chain := by
  intro id block hblock
  rw [block?_withBlock] at hblock
  split at hblock
  next he =>
    obtain ⟨found, hfound, rfl⟩ := Option.map_eq_some_iff.mp hblock
    rw [(hf found).1, (hf found).2, h next found hfound]
  next => exact h id block hblock

end BlockGraph

end Splice
