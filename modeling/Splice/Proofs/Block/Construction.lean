import Splice.Proofs.Block.Division
import Splice.Proofs.Block.Upkeep

/-!
# Cutting the code into blocks

While the graph is built, blocks begin at the head of the code, at the borders of the
functions, behind the instructions that end blocks and at the targets that were seen so far
(`Begins`), and nowhere else. This holds of whatever the cuts end in; that none of them is
refused is a matter of finding the block of each instruction (`Locates`), which is left to
those who know how the code is laid out.

The invariant of the cuts is `BlockGraph.Marked`: the blocks cut the code, begin at what is
marked, and have no edges yet. A cut adds one mark (`splitAt_yields`), functions add their
borders and instructions add theirs; `build_eq` says that building a graph is to start from the
whole chain as one block and to go through these in turn. A cut may be asked for twice, at a
target of several jumps for example, and the second one changes nothing.
-/

namespace Splice

/-- Where a function makes blocks begin: at its first instruction and behind its last one, if it has
both. -/
def Function.borders (chain : Chain) (function : Function) : List InstrId :=
  match function.first, function.last with
  | some first, some last => first :: (chain.next? last).toList
  | _, _ => []

/-- Where an instruction makes blocks begin: behind it if it ends a block, and at its targets. -/
def Instruction.borders (chain : Chain) (id : InstrId) (instr : Instruction) : List InstrId :=
  (if instr.flags.endsBlock then (chain.next? id).toList else []) ++ instr.references

/-- Blocks begin at the head of the code and at the borders of functions and of instructions. -/
def Begins (chain : Chain) (l : List InstrId) (functions : List Function)
    (instrs : List (InstrId × Instruction)) (x : InstrId) : Prop :=
  l.head? = some x ∨ (∃ function ∈ functions, x ∈ function.borders chain)
    ∨ ∃ entry ∈ instrs, x ∈ entry.2.borders chain entry.1

/-- The blocks cut the code `l`, and begin at the instructions that are marked. No edge is drawn yet. -/
structure BlockGraph.Marked (graph : BlockGraph) (l : List InstrId) (sections : List SectionId)
    (marks : InstrId → Prop) (parts : List Part) : Prop where
  cuts : graph.Cuts parts
  wired : graph.Wired
  sections : graph.sections = sections
  code : Part.code parts = l
  starts : ∀ x, x ∈ Part.starts parts ↔ marks x
  bare : ∀ edge, graph.edge? edge = none

/-- The block that is found for an instruction holds it. If cuts may be refused, it is enough that none
is made elsewhere. -/
def Locates (refusable : Prop) (chain : Chain) (graph : BlockGraph) (parts : List Part)
    (instr : InstrId) (mode : SplitMode) : Prop :=
  (∃ part ∈ parts, graph.find chain instr = .ok (some part.id) ∧ instr ∈ part.run)
    ∨ refusable ∧ ∀ part ∈ parts, graph.find chain instr = .ok (some part.id) →
      instr ∈ part.run ∨ (mode = .last → chain.next? instr ≠ part.run.head?)

namespace GraphM

open BlockGraph

variable {refusable : Prop} {chain : Chain} {graph : BlockGraph} {l : List InstrId}
  {sections : List SectionId} {marks marks' : InstrId → Prop} {parts : List Part} {instr id : InstrId}
  {mode : SplitMode} {functions : List Function} {instrs : List (InstrId × Instruction)}

theorem Marked.congr (h : graph.Marked l sections marks parts) (hmarks : ∀ x, marks x ↔ marks' x) :
    graph.Marked l sections marks' parts :=
  { h with starts := fun x => (h.starts x).trans (hmarks x) }

/-- A split leads to a graph that is marked at one more place: in front of the instruction, or behind it
where it is to end its block. It may be refused only if its block may be misplaced. -/
theorem splitAt_yields (hl : chain.Spells l) (h : graph.Marked l sections marks parts)
    (hlocates : Locates refusable chain graph parts instr mode) :
    Yields refusable (splitAt chain instr mode) graph fun _ after =>
      ∃ parts', after.Marked l sections (fun x => marks x ∨ mode.start? chain instr = some x) parts'
        ∧ ∀ part ∈ parts', ∃ old ∈ parts, part.run ⊆ old.run := by
  have hcode : chain.Spells (Part.code parts) := h.code.symm ▸ hl
  have hmarked : ∀ {after parts'}, Divided graph parts (mode.start? chain instr) after parts' →
      after.Marked l sections (fun x => marks x ∨ mode.start? chain instr = some x) parts' := by
    intro after parts' hdivided
    exact ⟨hdivided.cuts, hdivided.wired, hdivided.sections.trans h.sections,
      hdivided.code.trans h.code, fun x => (hdivided.starts x).trans (or_congr (h.starts x) Iff.rfl),
      fun edge => hdivided.edge? edge (h.bare edge)⟩
  rcases hlocates with ⟨part, hpart, hfind, hinstr⟩ | ⟨hrefusable, hfind⟩
  · obtain ⟨id, run⟩ := part
    obtain ⟨ps, qs, rfl⟩ := List.append_of_mem hpart
    obtain ⟨kept, after, parts', hrun, hdivided⟩ := split_run hcode h.cuts h.wired hinstr mode
    exact .of_ok ((splitAt_found hfind).trans hrun) ⟨parts', hmarked hdivided, hdivided.pieces⟩
  · rcases splitAt_divides hcode h.cuts h.wired hfind with ⟨cause, hrun⟩ | ⟨kept, after, parts', hrun, hdivided⟩
    · exact .of_error hrun hrefusable
    · exact .of_ok hrun ⟨parts', hmarked hdivided, hdivided.pieces⟩

/-- A function adds its borders. -/
theorem splitFunction_yields {function : Function} (hl : chain.Spells l)
    (h : graph.Marked l sections marks parts)
    (hfirst : ∀ first last, function.first = some first → function.last = some last →
      Locates refusable chain graph parts first .first)
    (hlast : ∀ first last after parts', function.first = some first → function.last = some last →
      after.Marked l sections (fun x => marks x ∨ x = first) parts' →
      Locates refusable chain after parts' last .last) :
    Yields refusable (splitFunction chain function) graph fun _ after =>
      ∃ parts', after.Marked l sections (fun x => marks x ∨ x ∈ function.borders chain) parts' := by
  unfold splitFunction
  cases hbegin : function.first with
  | none =>
    exact .of_ok rfl ⟨parts, Marked.congr h fun x => by simp [Function.borders, hbegin]⟩
  | some first =>
    cases hend : function.last with
    | none => exact .of_ok rfl ⟨parts, Marked.congr h fun x => by simp [Function.borders, hbegin, hend]⟩
    | some last =>
      refine .bind (.discard ((splitAt_yields hl h (hfirst first last hbegin hend)).imp ?_))
      rintro _ m ⟨parts₁, h₁, -⟩
      have h₁ : m.Marked l sections (fun x => marks x ∨ x = first) parts₁ :=
        Marked.congr h₁ fun x => by simp [SplitMode.start?, eq_comm]
      refine .discard ((splitAt_yields hl h₁ (hlast first last m parts₁ hbegin hend h₁)).imp ?_)
      rintro _ after ⟨parts₂, h₂, -⟩
      exact ⟨parts₂, Marked.congr h₂ fun x => by
        simp [Function.borders, hbegin, hend, SplitMode.start?, or_assoc]⟩

theorem begins_function {function : Function} (x : InstrId) :
    (Begins chain l functions [] x ∨ x ∈ function.borders chain)
      ↔ Begins chain l (functions ++ [function]) [] x := by
  simp only [Begins, List.mem_append, List.mem_singleton, List.not_mem_nil, false_and, exists_false,
    or_false, or_and_right, exists_or, exists_eq_left, or_assoc]

theorem begins_instr {entry : InstrId × Instruction} (x : InstrId) :
    (Begins chain l functions instrs x ∨ x ∈ entry.2.borders chain entry.1)
      ↔ Begins chain l functions (instrs ++ [entry]) x := by
  simp only [Begins, List.mem_append, List.mem_singleton, or_and_right, exists_or, exists_eq_left,
    or_assoc]

/-- All functions add their borders. -/
theorem splitFunctions_yields (hl : chain.Spells l)
    (h : ∃ parts, graph.Marked l sections (Begins chain l [] []) parts)
    (hfirst : ∀ done function rest first last graph parts, functions = done ++ function :: rest →
      function.first = some first → function.last = some last →
      graph.Marked l sections (Begins chain l done []) parts →
      Locates refusable chain graph parts first .first)
    (hlast : ∀ done function rest first last graph parts, functions = done ++ function :: rest →
      function.first = some first → function.last = some last →
      graph.Marked l sections (fun x => Begins chain l done [] x ∨ x = first) parts →
      Locates refusable chain graph parts last .last) :
    Yields refusable (functions.forM (splitFunction chain)) graph fun _ after =>
      ∃ parts, after.Marked l sections (Begins chain l functions []) parts := by
  refine .forM (p := fun done (graph : BlockGraph) =>
    ∃ parts, graph.Marked l sections (Begins chain l done []) parts) h ?_
  rintro done function rest graph hsplit ⟨parts, hparts⟩
  refine (splitFunction_yields hl hparts
    (fun first last hbegin hend => hfirst done function rest first last graph parts hsplit hbegin hend hparts)
    fun first last after parts' hbegin hend =>
      hlast done function rest first last after parts' hsplit hbegin hend).imp ?_
  rintro _ after ⟨parts', hparts'⟩
  exact ⟨parts', Marked.congr hparts' begins_function⟩

/-- An instruction adds its borders, given that the block of each instruction is found among parts of
the kind at hand. -/
theorem splitTransfer_yields (kind : List Part → Prop) {found : Instruction} (hl : chain.Spells l)
    (hkind : ∀ parts parts', (∀ part ∈ parts', ∃ old ∈ parts, part.run ⊆ old.run) → kind parts →
      kind parts')
    (hlocates : ∀ marks graph parts instr mode, graph.Marked l sections marks parts → kind parts →
      instr ∈ l → Locates refusable chain graph parts instr mode)
    (hid : id ∈ l) (hlinked : ∀ target ∈ found.references, refusable ∨ target ∈ l)
    (h : graph.Marked l sections marks parts) (hparts : kind parts) :
    Yields refusable (splitTransfer chain id found) graph fun _ after =>
      ∃ parts', after.Marked l sections (fun x => marks x ∨ x ∈ found.borders chain id) parts'
        ∧ kind parts' := by
  -- what is left after the cut behind the instruction: one cut in front of each target
  have htargets : ∀ marks graph parts, graph.Marked l sections marks parts → kind parts →
      Yields refusable (found.references.forM fun target => do
        if !chain.isLinked target then
          throw (.brokenTarget id target)
        discard (splitAt chain target .first)) graph fun _ after =>
          ∃ parts', after.Marked l sections (fun x => marks x ∨ x ∈ found.references) parts'
            ∧ kind parts' := by
    intro marks graph parts h hparts
    refine .forM (p := fun done (graph : BlockGraph) => ∃ parts,
      graph.Marked l sections (fun x => marks x ∨ x ∈ done) parts ∧ kind parts)
      ⟨parts, Marked.congr h fun x => by simp, hparts⟩ ?_
    rintro done target rest graph hsplit ⟨parts, h, hparts⟩
    have htarget : refusable ∨ target ∈ l := hlinked target (by rw [hsplit]; simp)
    by_cases hmem : target ∈ l
    · rw [hl.isLinked_iff.mpr hmem]
      refine .discard ((splitAt_yields hl h (hlocates _ _ _ _ .first h hparts hmem)).imp ?_)
      rintro _ after ⟨parts', hparts', hpieces⟩
      exact ⟨parts', Marked.congr hparts' fun x => by simp [SplitMode.start?, or_assoc, eq_comm],
        hkind _ _ hpieces hparts⟩
    · rw [Bool.eq_false_iff.mpr fun hlinked => hmem (hl.isLinked_iff.mp hlinked)]
      exact .of_error (bind_error rfl) (htarget.resolve_right hmem)
  unfold splitTransfer
  by_cases hends : found.flags.endsBlock
  · simp only [hends, if_true]
    refine .bind (.discard ((splitAt_yields hl h (hlocates _ _ _ _ .last h hparts hid)).imp ?_))
    rintro _ m ⟨parts₁, h₁, hpieces⟩
    refine (htargets _ m parts₁ h₁ (hkind _ _ hpieces hparts)).imp ?_
    rintro _ after ⟨parts₂, h₂, hparts₂⟩
    exact ⟨parts₂, Marked.congr h₂ fun x => by
      simp [Instruction.borders, hends, SplitMode.start?, or_assoc], hparts₂⟩
  · simp only [hends]
    refine (htargets _ graph parts h hparts).imp ?_
    rintro _ after ⟨parts₂, h₂, hparts₂⟩
    exact ⟨parts₂, Marked.congr h₂ fun x => by simp [Instruction.borders, hends], hparts₂⟩

/-- All instructions add their borders. -/
theorem splitTransfers_yields (kind : List Part → Prop) (hl : chain.Spells l)
    (hkind : ∀ parts parts', (∀ part ∈ parts', ∃ old ∈ parts, part.run ⊆ old.run) → kind parts →
      kind parts')
    (hlocates : ∀ marks graph parts instr mode, graph.Marked l sections marks parts → kind parts →
      instr ∈ l → Locates refusable chain graph parts instr mode)
    (hids : ∀ entry ∈ instrs, entry.1 ∈ l)
    (hlinked : ∀ entry ∈ instrs, ∀ target ∈ entry.2.references, refusable ∨ target ∈ l)
    (h : ∃ parts, graph.Marked l sections (Begins chain l functions []) parts ∧ kind parts) :
    Yields refusable (instrs.forM fun (id, instr) => splitTransfer chain id instr) graph fun _ after =>
      ∃ parts, after.Marked l sections (Begins chain l functions instrs) parts ∧ kind parts := by
  refine .forM (p := fun done (graph : BlockGraph) =>
    ∃ parts, graph.Marked l sections (Begins chain l functions done) parts ∧ kind parts) h ?_
  rintro done entry rest graph hsplit ⟨parts, h, hparts⟩
  have hentry : entry ∈ instrs := by rw [hsplit]; simp
  refine (splitTransfer_yields kind hl hkind hlocates (hids entry hentry) (hlinked entry hentry) h hparts).imp ?_
  rintro _ after ⟨parts', h', hparts'⟩
  exact ⟨parts', Marked.congr h' begins_instr, hparts'⟩

/-- The cuts of all functions, those of all instructions, and what is done to the blocks afterwards. -/
def construct (chain : Chain) (functions : List Function) (instrs : List (InstrId × Instruction)) :
    GraphM Unit := do
  functions.forM (splitFunction chain)
  instrs.forM fun (id, instr) => splitTransfer chain id instr
  stampFunctions chain
  linkEdges chain
  discard discoverLoops

/-! ## The graphs to begin with -/

theorem wired_of_empty (hin : ∀ id, graph.intoOf id = []) (hout : ∀ id, graph.outOf id = [])
    (hedges : graph.edges = #[]) : graph.Wired := by
  have hnone : ∀ edge, graph.edge? edge = none := fun edge => by simp [edge?, hedges]
  exact ⟨fun id edge => by simp [hout, sourceOf, hnone], fun id edge => by simp [hin, targetOf, hnone]⟩

/-- The graph that the construction begins with has one block, which is all of the code. -/
theorem whole_block? {head tail : InstrId} {count : Nat} (other : BlockId) :
    (whole head tail count sections).block? other
      = if other = ⟨0⟩ then some ⟨head, tail, count, .generic, [], [], none, none, none⟩ else none := by
  obtain ⟨index⟩ := other
  cases index with
  | zero => rfl
  | succ index => simp [block?, whole]

theorem whole_wired {head tail : InstrId} {count : Nat} : (whole head tail count sections).Wired :=
  wired_of_empty (fun id => by rw [intoOf, whole_block?]; split <;> rfl)
    (fun id => by rw [outOf, whole_block?]; split <;> rfl) rfl

/-- The whole chain is one block. -/
theorem whole_marked (hl : chain.Spells l) {head tail : InstrId} (hhead : chain.head = some head)
    (htail : chain.tail = some tail) :
    (whole head tail chain.length sections).Marked l sections (Begins chain l [] []) [⟨⟨0⟩, l⟩] where
  cuts := by
    refine ⟨⟨⟨⟨head, tail, chain.length, none, none⟩, rfl, ?_, ?_, hl.length, rfl, rfl⟩, trivial⟩, rfl, rfl,
      BlockTree.sound_singleton _, fun other hother => ?_⟩
    · rw [← hl.head, hhead]
    · rw [← hl.tail, htail]
    · rw [whole_block?] at hother
      by_cases he : other = ⟨0⟩
      · simp [he]
      · rw [if_neg he] at hother
        cases hother
  wired := whole_wired
  sections := rfl
  code := by simp [Part.code]
  starts x := by
    have hsome : l.head? = some head := by rw [← hl.head, hhead]
    simp [Part.starts, Begins, hsome, eq_comm]
  bare edge := by simp [edge?, whole]

/-- The graph without blocks cuts up the empty code. -/
theorem cuts_empty : BlockGraph.empty.Cuts [] where
  blocks := trivial
  head := rfl
  tail := rfl
  tree := ⟨⟨.leaf, trivial, rfl, trivial, rfl⟩, List.nodup_nil,
    fun block h => by simp [empty, BlockTree.empty, BlockTree.node?] at h, rfl⟩
  listed id h := by simp [empty, block?] at h

theorem wired_empty : BlockGraph.empty.Wired :=
  wired_of_empty (fun id => by simp [intoOf, empty, block?]) (fun id => by simp [outOf, empty, block?]) rfl

end GraphM

namespace BlockGraph

variable {chain : Chain} {functions : FunctionTable} {instrs : List (InstrId × Instruction)}
  {head tail : InstrId} {graph : BlockGraph}

/-- An instruction with its name, if it belongs to a function. -/
def mapped (chain : Chain) (id : InstrId) : Except GraphError (InstrId × Instruction) :=
  match chain.get? id with
  | none => throw (.chain (.missingInstruction id))
  | some instr => do
    if instr.func.isNone then
      throw (.unmappedInstruction instr.inputAddr)
    return (id, instr)

theorem mappedInstructions_eq : mappedInstructions chain = chain.ids.mapM (mapped chain) := rfl

/-- An instruction gets its name if it is there and belongs to a function. -/
theorem mapped_ok {id : InstrId} {entry : InstrId × Instruction} : mapped chain id = .ok entry
    ↔ entry.1 = id ∧ chain.get? id = some entry.2 ∧ entry.2.func.isSome := by
  obtain ⟨id', instr'⟩ := entry
  unfold mapped
  cases hget : chain.get? id with
  | none => simp [throw, throwThe, MonadExceptOf.throw]
  | some instr =>
    cases hfunc : instr.func with
    | none =>
      simp only [hfunc, Option.isNone_none, if_true]
      constructor
      · intro h
        cases h
      · rintro ⟨-, hinstr, hsome⟩
        rw [← Option.some.inj hinstr, hfunc] at hsome
        cases hsome
    | some func =>
      simp only [hfunc, Option.isNone_some, Bool.false_eq_true, if_false]
      constructor
      · rintro ⟨⟩
        exact ⟨rfl, rfl, by rw [hfunc]; rfl⟩
      · rintro ⟨rfl, hinstr, -⟩
        rw [Option.some.inj hinstr]
        rfl

/-- Each linked instruction is paired with its name. -/
theorem mappedInstructions_ok (h : mappedInstructions chain = .ok instrs) :
    (∀ entry ∈ instrs, entry.1 ∈ chain.ids ∧ chain.get? entry.1 = some entry.2)
      ∧ ∀ id ∈ chain.ids, ∃ instr, (id, instr) ∈ instrs := by
  refine ⟨fun entry hentry => ?_, fun id hid => ?_⟩
  · obtain ⟨id, hid, hrun⟩ := exists_of_mem_mapM h hentry
    obtain ⟨rfl, hget, -⟩ := mapped_ok.mp hrun
    exact ⟨hid, hget⟩
  · obtain ⟨⟨_, instr⟩, hentry, hrun⟩ := exists_of_mapM_eq_ok h hid
    obtain ⟨rfl, -, -⟩ := mapped_ok.mp hrun
    exact ⟨instr, hentry⟩

/-- The instructions that are paired with their names are those of the code, in its order. -/
theorem map_mappedInstructions (h : mappedInstructions chain = .ok instrs) :
    instrs.map (·.2) = chain.ids.filterMap chain.get? := by
  rw [mappedInstructions_eq] at h
  generalize chain.ids = ids at h ⊢
  induction ids generalizing instrs with
  | nil =>
    rw [List.mapM_nil, pure_eq_ok] at h
    rw [← h]
    rfl
  | cons id ids ih =>
    rw [List.mapM_cons, bind_eq_ok] at h
    obtain ⟨entry, hentry, h⟩ := h
    obtain ⟨rest, hrest, h⟩ := bind_eq_ok.mp h
    obtain rfl := pure_eq_ok.mp h
    rw [List.map_cons, List.filterMap_cons, (mapped_ok.mp hentry).2.1, ih hrest]

/-- A graph is built by constructing it from the whole chain as one block. -/
theorem build_eq (hhead : chain.head = some head) (htail : chain.tail = some tail)
    (hinstrs : mappedInstructions chain = .ok instrs) :
    build chain functions
      = match GraphM.construct chain functions.functions.toList instrs
          (whole head tail chain.length (sectionOrder (instrs.map (·.2)))) with
        | .ok _ graph => .ok graph
        | .error cause _ => .error cause := by
  unfold build
  rw [hhead, htail, hinstrs]
  show (match GraphM.construct chain functions.functions.toList instrs
      (whole head tail chain.length (sectionOrder (instrs.map (·.2)))) with
    | .ok _ graph => pure graph
    | .error cause _ => throw cause) = _
  split <;> rfl

/-- Of a chain without instructions the graph without blocks is built. -/
theorem build_empty (hl : chain.Spells []) : build chain functions = .ok empty := by
  unfold build
  rw [hl.head]
  rfl

/-- A graph that was built is that of an empty chain, or was constructed. -/
theorem build_ok {l : List InstrId} (hl : chain.Spells l) (h : build chain functions = .ok graph) :
    l = [] ∧ graph = empty
      ∨ ∃ head tail instrs u, chain.head = some head ∧ chain.tail = some tail
        ∧ mappedInstructions chain = .ok instrs
        ∧ GraphM.construct chain functions.functions.toList instrs
            (whole head tail chain.length (sectionOrder (instrs.map (·.2)))) = .ok u graph := by
  cases l with
  | nil =>
    rw [build_empty hl, Except.ok.injEq] at h
    exact .inl ⟨rfl, h.symm⟩
  | cons head rest =>
    have hhead : chain.head = some head := hl.head
    obtain ⟨tail, htail⟩ : ∃ tail, chain.tail = some tail :=
      ⟨_, hl.tail.trans (List.getLast?_eq_some_getLast (List.cons_ne_nil head rest))⟩
    cases hinstrs : mappedInstructions chain with
    | error cause =>
      unfold build at h
      rw [hhead, htail, hinstrs] at h
      cases h
    | ok instrs =>
      rw [build_eq hhead htail hinstrs] at h
      split at h
      next u graph' hrun =>
        obtain rfl := Except.ok.inj h
        exact .inr ⟨head, tail, instrs, u, hhead, htail, rfl, hrun⟩
      next => cases h

end BlockGraph

end Splice
