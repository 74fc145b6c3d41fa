import Splice.Proofs.Block.Linking
import Splice.Proofs.Block.Tagging
import Splice.Proofs.Block.Ordered

/-!
# The blocks of ordered code

In ordered code whose references are linked no cut is refused: every instruction is found in
its block, whatever was cut before. So the graph can be built, and its blocks begin at the
leaders of the code and nowhere else (`build_partitions`). Of any graph that could be built of
ascending code it is known where its blocks begin and what its edges are (`build_built`).

The two parts of the result need different things. To be built, the code must have no end that
wraps around, since a lookup may fail there. To be cut at its leaders and nowhere else, it is
enough that it could be built. Functions count by both of their bounds: one that has a first and
no last instruction marks nothing.

> `brink_refused_opening_uncut`: code that ends with the last address is refused although all of
> it belongs to a function, and no block begins at the first instruction of a function without a
> last one.

`Built` is what other modules take from here: the cuts, the owners of the blocks and the
passages that the edges stand for.
-/

namespace Splice

/-- Blocks are made to begin at the instruction: it is the head of the code, or a border of a function
or of an instruction. -/
def Chain.Bordered (chain : Chain) (functions : FunctionTable) (x : InstrId) : Prop :=
  chain.head = some x
    ∨ (∃ function ∈ functions.functions.toList, x ∈ function.borders chain)
    ∨ ∃ id ∈ chain.ids, ∃ instr, chain.get? id = some instr ∧ x ∈ instr.borders chain id

/-- What is known of the graph of a chain: it cuts the code at its borders, each block belongs to the
function of its first instruction, and the edges are the passages of control. -/
structure BlockGraph.Built (graph : BlockGraph) (chain : Chain) (functions : FunctionTable)
    (parts : List Part) : Prop where
  cuts : graph.Cuts parts
  wired : graph.Wired
  ranks : graph.Ranks chain chain.ids
  code : Part.code parts = chain.ids
  starts : ∀ x ∈ chain.ids, x ∈ Part.starts parts ↔ chain.Bordered functions x
  targets : ∀ id ∈ chain.ids, ∀ instr ∈ chain.get? id, ∀ target ∈ instr.references, target ∈ Part.starts parts
  owned : graph.Owned chain
  draws : graph.Draws chain

namespace GraphM

open BlockGraph

variable {graph : BlockGraph} {chain : Chain} {parts : List Part} {l : List InstrId}
  {functions : List Function} {instrs : List (InstrId × Instruction)}

/-- Destinations are found at the beginning of their blocks, since the code was cut there. -/
theorem aims_of_marked {refusable : Prop} {sections : List SectionId} (h : chain.Ascending l)
    (hordered : refusable ∨ chain.Ordered l) (hsections : sections = sectionOrder (l.filterMap chain.get?))
    (hmarked : graph.Marked l sections (Begins chain l functions instrs) parts)
    (hinstrs : ∀ entry ∈ instrs, chain.get? entry.1 = some entry.2)
    (hall : ∀ id ∈ l, ∃ instr, (id, instr) ∈ instrs) {id : BlockId} {instr : Instruction}
    (hend : graph.EndsIn chain id instr) : graph.Aims refusable chain instr := by
  obtain ⟨part, hpart, -, last, hlast, hget⟩ := hmarked.cuts.endsIn_iff.mp hend
  obtain ⟨found, hentry⟩ := hall last
    (hmarked.code ▸ Part.mem_code.mpr ⟨part, hpart, List.mem_of_getLast? hlast⟩)
  obtain rfl := Option.some.inj ((hinstrs _ hentry).symm.trans hget)
  have hranks := hmarked.sections.trans hsections
  have hheads : ∀ target ∈ found.destinations, ∃ entered ∈ parts, entered.run.head? = some target :=
    fun target htarget => Part.mem_starts.mp <| (hmarked.starts target).mpr <|
      .inr (.inr ⟨_, hentry, List.mem_append_right _ (Instruction.destinations_subset htarget)⟩)
  rcases hordered with hrefusable | hordered
  · refine .inr ⟨hrefusable, fun target htarget name hfind => ?_⟩
    -- what is found holds the destination, and the block that begins there does as well
    obtain ⟨entered, hentered, hhead⟩ := hheads target htarget
    obtain ⟨other, hother, rfl⟩ := List.mem_map.mp (find_ok hmarked.cuts hfind).1
    have hin := List.mem_of_head? hhead
    have hholds := h.of_find hmarked.code hmarked.cuts hranks hother
      (hmarked.code ▸ Part.mem_code.mpr ⟨entered, hentered, hin⟩) hfind
    obtain rfl := Part.eq_of_mem (hmarked.code ▸ h.spells.nodup) hother hentered hholds hin
    exact hmarked.cuts.headedBy_iff.mpr ⟨other, hother, rfl, hhead⟩
  · refine .inl fun target htarget => ?_
    obtain ⟨entered, hentered, hhead⟩ := hheads target htarget
    exact ⟨entered.id, hordered.find_eq hmarked.code hmarked.cuts hranks hentered
      (List.mem_of_head? hhead), hmarked.cuts.headedBy_iff.mpr ⟨entered, hentered, rfl, hhead⟩⟩

/-- Stamping gives each block the function of its first instruction and touches no edge. -/
theorem stampFunctions_run : ∃ after, stampFunctions chain graph = .ok () after ∧ after.Owned chain
    ∧ ∀ edge, after.edge? edge = graph.edge? edge := by
  refine ⟨_, rfl, fun id block hblock => ?_, fun edge => rfl⟩
  obtain ⟨found, -, rfl⟩ := Option.map_eq_some_iff.mp ((Array.getElem?_map ..).symm.trans hblock)
  rfl

/-- What the construction of the graph of ascending code ends in. Only a bound of a function or a
reference that is not linked, or code that is not ordered, makes it be refused. -/
theorem construct_yields {refusable : Prop} {head tail : InstrId} (h : chain.Ascending l)
    (hordered : refusable ∨ chain.Ordered l) (hhead : chain.head = some head) (htail : chain.tail = some tail)
    (hinstrs : ∀ entry ∈ instrs, entry.1 ∈ l ∧ chain.get? entry.1 = some entry.2)
    (hall : ∀ id ∈ l, ∃ instr, (id, instr) ∈ instrs)
    (hbounds : ∀ function ∈ functions, ∀ first last, function.first = some first →
      function.last = some last → refusable ∨ first ∈ l ∧ last ∈ l)
    (htargets : ∀ entry ∈ instrs, ∀ target ∈ entry.2.references, refusable ∨ target ∈ l) :
    Yields refusable (construct chain functions instrs)
      (whole head tail chain.length (sectionOrder (l.filterMap chain.get?))) fun _ graph =>
        ∃ parts, graph.Cuts parts ∧ graph.Wired ∧ graph.Ranks chain l ∧ Part.code parts = l
          ∧ (∀ x, x ∈ Part.starts parts ↔ Begins chain l functions instrs x)
          ∧ graph.Owned chain ∧ graph.Draws chain := by
  have hsplit : ∀ done function rest first last, functions = done ++ function :: rest →
      function.first = some first → function.last = some last → refusable ∨ first ∈ l ∧ last ∈ l :=
    fun done function rest first last hfunctions => hbounds function (by rw [hfunctions]; simp) first last
  refine .bind ((splitFunctions_yields h.spells ⟨_, whole_marked h.spells hhead htail⟩
    (fun done function rest first last graph parts hfunctions hfirst hlast hmarked =>
      h.locates hordered rfl hmarked
        ((hsplit done function rest first last hfunctions hfirst hlast).imp_right (·.1)))
    fun done function rest first last graph parts hfunctions hfirst hlast hmarked =>
      h.locates hordered rfl hmarked
        ((hsplit done function rest first last hfunctions hfirst hlast).imp_right (·.2))).imp ?_)
  rintro _ g₁ ⟨parts₁, h₁⟩
  refine .bind ((splitTransfers_yields (fun _ => True) h.spells (fun _ _ _ _ => trivial)
    (fun marks graph parts instr mode hmarked _ hinstr => h.locates hordered rfl hmarked (.inr hinstr))
    (fun entry hentry => (hinstrs entry hentry).1) htargets ⟨parts₁, h₁, trivial⟩).imp ?_)
  rintro _ g₂ ⟨parts, h₂, -⟩
  -- the blocks are stamped, edges drawn and loops tagged; of these only the second may be refused
  obtain ⟨g₃, hstamp, howned, hedges⟩ := @stampFunctions_run g₂ chain
  obtain ⟨hcut, hwired⟩ := stampFunctions_leaves.keeps hstamp h₂.wired
  have h₃ : g₃.Marked l (sectionOrder (l.filterMap chain.get?)) (Begins chain l functions instrs) parts :=
    ⟨h₂.cuts.congr hcut, hwired, hcut.sections.trans h₂.sections, h₂.code, h₂.starts, fun edge =>
      (hedges edge).trans (h₂.bare edge)⟩
  refine .bind (.of_ok hstamp (.bind ((linkEdges_yields (h₃.code.symm ▸ h.spells) h₃.cuts h₃.wired howned h₃.bare
    fun id instr hend => aims_of_marked h hordered rfl h₃ (fun entry hentry => (hinstrs entry hentry).2) hall
      hend).imp ?_)))
  rintro _ g₄ ⟨hcut₄, hwired₄, howned₄, hdraws⟩
  obtain ⟨count, g₅, hloops, hcut₅, hwired₅, htags⟩ := discoverLoops_run (h₃.cuts.congr hcut₄) hwired₄
  refine .of_ok (a := ⟨⟩) (discard_ok.mpr ⟨count, hloops⟩)
    ⟨parts, (h₃.cuts.congr hcut₄).congr hcut₅, hwired₅, ?_, h₃.code, h₃.starts, htags.owned howned₄,
      fun passage => ?_⟩
  · exact hcut₅.sections.trans (hcut₄.sections.trans h₃.sections)
  · rw [htags.carries, hdraws passage]
    exact exists_congr fun id => hcut₅.passes_iff.symm

end GraphM

namespace BlockGraph

variable {graph : BlockGraph} {chain : Chain} {functions : FunctionTable} {parts : List Part}
  {instrs : List (InstrId × Instruction)}

/-- What makes blocks begin, told from the chain alone. -/
theorem begins_iff (hl : chain.Spells chain.ids) (h : mappedInstructions chain = .ok instrs) (x : InstrId) :
    Begins chain chain.ids functions.functions.toList instrs x ↔ chain.Bordered functions x := by
  obtain ⟨hentries, hall⟩ := mappedInstructions_ok h
  unfold Begins Chain.Bordered
  rw [hl.head]
  refine or_congr Iff.rfl (or_congr Iff.rfl ⟨?_, ?_⟩)
  · rintro ⟨entry, hentry, hx⟩
    obtain ⟨hid, hget⟩ := hentries entry hentry
    exact ⟨entry.1, hid, entry.2, hget, hx⟩
  · rintro ⟨id, hid, instr, hinstr, hx⟩
    obtain ⟨found, hentry⟩ := hall id hid
    rw [Option.some.inj (hinstr.symm.trans (hentries _ hentry).2)] at hx
    exact ⟨_, hentry, hx⟩

/-- What a graph is like that was built of ascending code. -/
theorem build_built (h : chain.Ascending chain.ids) (hbuild : build chain functions = .ok graph) :
    ∃ parts, graph.Built chain functions parts := by
  rcases build_ok h.spells hbuild with ⟨hnil, rfl⟩ | ⟨head, tail, instrs, u, hhead, htail, hinstrs, hrun⟩
  · refine ⟨[], GraphM.cuts_empty, GraphM.wired_empty, ?_, hnil.symm, fun x hx => ?_, fun id hid => ?_,
      fun id block hblock => ?_, fun passage => ⟨?_, ?_⟩⟩
    · rw [Ranks, hnil]
      rfl
    · rw [hnil] at hx
      exact absurd hx List.not_mem_nil
    · rw [hnil] at hid
      exact absurd hid List.not_mem_nil
    · simp [empty, block?] at hblock
    · rintro ⟨edge, found, hfound, -⟩
      simp [empty, edge?] at hfound
    · rintro ⟨id, hpasses⟩
      have hsome := hpasses.isSome.1
      simp [empty, block?] at hsome
  · obtain ⟨hentries, hall⟩ := mappedInstructions_ok hinstrs
    rw [map_mappedInstructions hinstrs] at hrun
    obtain ⟨parts, hcuts, hwired, hranks, hcode, hstarts, howned, hdraws⟩ := (GraphM.construct_yields h
      (.inl trivial) hhead htail hentries hall (fun _ _ _ _ _ _ => .inl trivial) fun _ _ _ _ => .inl trivial).ok hrun
    have hbordered : ∀ x, x ∈ Part.starts parts ↔ chain.Bordered functions x := fun x =>
      (hstarts x).trans (begins_iff h.spells hinstrs x)
    exact ⟨parts, hcuts, hwired, hranks, hcode, fun x _ => hbordered x, fun id hid instr hinstr target htarget =>
      (hbordered target).mpr (.inr (.inr ⟨id, hid, instr, hinstr, List.mem_append_right _ htarget⟩)),
      howned, hdraws⟩

end BlockGraph

/-! ## Building -/

/-- Blocks have to begin at the instruction: it is the head of the code, the first of a function or
behind its last, behind an instruction that ends a block, or the target of one. Of the functions
only those count that have both bounds. -/
def Chain.Leader (chain : Chain) (functions : FunctionTable) (x : InstrId) : Prop :=
  chain.head = some x
    ∨ (∃ function ∈ functions.functions.toList, ∃ first last, function.first = some first
      ∧ function.last = some last ∧ (x = first ∨ chain.next? last = some x))
    ∨ (∃ id ∈ chain.ids, ∃ instr, chain.get? id = some instr ∧ instr.flags.endsBlock = true
      ∧ chain.next? id = some x)
    ∨ ∃ id ∈ chain.ids, ∃ instr, chain.get? id = some instr ∧ x ∈ instr.references

/-- The bounds of each function that has both are linked. -/
def FunctionTable.Linked (functions : FunctionTable) (chain : Chain) : Prop :=
  ∀ function ∈ functions.functions.toList, ∀ first last, function.first = some first →
    function.last = some last → chain.isLinked first = true ∧ chain.isLinked last = true

namespace BlockGraph

variable {graph : BlockGraph} {chain : Chain} {functions : FunctionTable} {parts : List Part}
  {instrs : List (InstrId × Instruction)}

/-- The places where the construction is told to cut are the leaders. They are listed by functions and
instructions there, and asked for at each instruction here. -/
theorem leader_iff (x : InstrId) : chain.Bordered functions x ↔ chain.Leader functions x := by
  have hfunctions : (∃ function ∈ functions.functions.toList, x ∈ function.borders chain)
      ↔ ∃ function ∈ functions.functions.toList, ∃ first last, function.first = some first
        ∧ function.last = some last ∧ (x = first ∨ chain.next? last = some x) := by
    refine exists_congr fun function => and_congr_right fun _ => ?_
    cases hfirst : function.first with
    | none => simp [Function.borders, hfirst]
    | some first =>
      cases hlast : function.last with
      | none => simp [Function.borders, hfirst, hlast]
      | some last => simp [Function.borders, hfirst, hlast]
  have hinstrs : (∃ id ∈ chain.ids, ∃ instr, chain.get? id = some instr ∧ x ∈ instr.borders chain id)
      ↔ (∃ id ∈ chain.ids, ∃ instr, chain.get? id = some instr ∧ instr.flags.endsBlock = true
          ∧ chain.next? id = some x)
        ∨ ∃ id ∈ chain.ids, ∃ instr, chain.get? id = some instr ∧ x ∈ instr.references := by
    rw [← exists_or]
    refine exists_congr fun id => ?_
    rw [← and_or_left, ← exists_or]
    refine and_congr_right fun _ => exists_congr fun instr => ?_
    rw [← and_or_left, Instruction.borders, List.mem_append]
    refine and_congr_right fun _ => or_congr ?_ Iff.rfl
    split
    next hends => simp [hends]
    next hends => simp [hends]
  unfold Chain.Bordered Chain.Leader
  rw [hfunctions, hinstrs]

/-- An instruction that belongs to no function is reported with the address that it was decoded at. -/
theorem mapped_error {id : InstrId} {instr : Instruction} (hinstr : chain.get? id = some instr)
    (hfunc : instr.func = none) : mapped chain id = .error (.unmappedInstruction instr.inputAddr) := by
  unfold mapped
  rw [hinstr]
  simp only [hfunc]
  rfl

/-- The first instruction without a function is reported. -/
theorem mappedInstructions_error (hl : chain.Spells chain.ids)
    (h : ∃ id ∈ chain.ids, ∃ instr, chain.get? id = some instr ∧ instr.func = none) :
    ∃ id ∈ chain.ids, ∃ instr, chain.get? id = some instr ∧ instr.func = none
      ∧ mappedInstructions chain = .error (.unmappedInstruction instr.inputAddr) := by
  have hpresent : ∀ id ∈ chain.ids, ∃ instr, chain.get? id = some instr := fun id hid => hl.get?_isSome hid
  rw [mappedInstructions_eq]
  generalize chain.ids = ids at h hpresent ⊢
  -- the instructions in front of the first one without a function are mapped
  induction ids with
  | nil =>
    obtain ⟨id, hid, -⟩ := h
    exact absurd hid List.not_mem_nil
  | cons first ids ih =>
    obtain ⟨instr, hinstr⟩ := hpresent first (List.mem_cons_self ..)
    cases hfunc : instr.func with
    | none =>
      refine ⟨first, List.mem_cons_self .., instr, hinstr, hfunc, ?_⟩
      rw [List.mapM_cons, mapped_error hinstr hfunc]
      rfl
    | some func =>
      obtain ⟨id, hid, found, hfound, hnone, hrun⟩ := ih (by
        obtain ⟨id, hid, found, hfound, hnone⟩ := h
        rcases List.mem_cons.mp hid with rfl | hrest
        · rw [Option.some.inj (hinstr.symm.trans hfound), hnone] at hfunc
          cases hfunc
        · exact ⟨id, hrest, found, hfound, hnone⟩) fun id hid => hpresent id (List.mem_cons_of_mem _ hid)
      refine ⟨id, List.mem_cons_of_mem _ hid, found, hfound, hnone, ?_⟩
      have hfirst : mapped chain first = .ok (first, instr) :=
        mapped_ok.mpr ⟨rfl, hinstr, by rw [hfunc]; rfl⟩
      rw [List.mapM_cons, hfirst, hrun]
      rfl

/-- Ordered code whose functions and references are linked can be built, if all of it belongs to functions. -/
theorem build_succeeds (h : chain.Ordered chain.ids) (hfunctions : functions.Linked chain)
    (hreferences : ∀ id ∈ chain.ids, ∀ instr ∈ chain.get? id, ∀ target ∈ instr.references,
      chain.isLinked target = true)
    (hfuncs : ∀ id ∈ chain.ids, ∀ instr ∈ chain.get? id, instr.func.isSome) :
    ∃ graph, build chain functions = .ok graph := by
  have hlinked : ∀ {x}, chain.isLinked x = true ↔ x ∈ chain.ids := h.spells.isLinked_iff
  by_cases hids : chain.ids = []
  · exact ⟨empty, build_empty (hids ▸ h.spells)⟩
  have hhead := h.spells.head.trans (List.head?_eq_some_head hids)
  have htail := h.spells.tail.trans (List.getLast?_eq_some_getLast hids)
  obtain ⟨instrs, hinstrs, -⟩ := mapM_succeeds (f := mapped chain) fun id (hid : id ∈ chain.ids) => by
    obtain ⟨instr, hinstr⟩ := h.spells.get?_isSome hid
    exact ⟨(id, instr), mapped_ok.mpr ⟨rfl, hinstr, hfuncs id hid instr hinstr⟩⟩
  obtain ⟨hentries, hall⟩ := mappedInstructions_ok hinstrs
  -- nothing that the construction is told to cut at lies outside of the code
  obtain ⟨u, graph, hrun, -⟩ := (GraphM.construct_yields h.toAscending (.inr h) hhead htail hentries hall
    (fun function hfunction first last hfirst hlast => .inr <|
      (hfunctions function hfunction first last hfirst hlast).imp hlinked.mp hlinked.mp)
    fun entry hentry target htarget => .inr <| hlinked.mp
      (hreferences _ (hentries entry hentry).1 _ (hentries entry hentry).2 target htarget)).succeeds
  refine ⟨graph, ?_⟩
  rw [build_eq hhead htail hinstrs, map_mappedInstructions hinstrs, hrun]

/-- The graph of ascending code whose functions and references are linked, if all of it belongs to
functions, can be built if no end wraps around; and one that was built cuts the code into the runs
from one leader to the next. Else an instruction that belongs to no function is reported. -/
theorem build_partitions (h : chain.Ascending chain.ids) (hfunctions : functions.Linked chain)
    (hreferences : ∀ id ∈ chain.ids, ∀ instr ∈ chain.get? id, ∀ target ∈ instr.references,
      chain.isLinked target = true) :
    ((∀ id ∈ chain.ids, ∀ instr ∈ chain.get? id, instr.func.isSome) →
      (chain.Unwrapped → ∃ graph, build chain functions = .ok graph)
        ∧ ∀ graph, build chain functions = .ok graph → ∃ parts, graph.Cuts parts
          ∧ Part.code parts = chain.ids ∧ ∀ x ∈ chain.ids, x ∈ Part.starts parts ↔ chain.Leader functions x)
    ∧ ((∃ id ∈ chain.ids, ∃ instr, chain.get? id = some instr ∧ instr.func = none) →
      ∃ id ∈ chain.ids, ∃ instr, chain.get? id = some instr ∧ instr.func = none
        ∧ build chain functions = .error (.unmappedInstruction instr.inputAddr)) := by
  refine ⟨fun hfuncs => ⟨fun hunwrapped => ?_, fun graph hbuild => ?_⟩, fun hnone => ?_⟩
  · exact build_succeeds ⟨h, hunwrapped⟩ hfunctions hreferences hfuncs
  · obtain ⟨parts, hbuilt⟩ := build_built h hbuild
    exact ⟨parts, hbuilt.cuts, hbuilt.code, fun x hx => (hbuilt.starts x hx).trans (leader_iff x)⟩
  -- without a function for each instruction the construction is not begun
  · obtain ⟨id, hid, instr, hinstr, hfunc, hrun⟩ := mappedInstructions_error h.spells hnone
    have hne := List.ne_nil_of_mem hid
    refine ⟨id, hid, instr, hinstr, hfunc, ?_⟩
    unfold build
    rw [h.spells.head, h.spells.tail, List.head?_eq_some_head hne, List.getLast?_eq_some_getLast hne, hrun]
    rfl

end BlockGraph

/-- A function that calls another one, which is in a section of its own. -/
def visit : Chain := .ofList
  [{ Instruction.decoded 0 [0xE8, 0, 0, 0, 0] 1 .call with
      sec := 1, target := some ⟨2⟩, func := some ⟨0⟩ },
    { Instruction.decoded 5 [0xC3] 1 .ret with sec := 1, func := some ⟨0⟩ },
    { Instruction.decoded 0 [0xC3] 1 .ret with
      sec := 2, targetedBy := [⟨0⟩], func := some ⟨1⟩ }]

/-- The functions of `visit`. -/
def visitors : FunctionTable :=
  ⟨#[.declared "caller" 1 (some (⟨0⟩, ⟨1⟩)) 0, .declared "callee" 2 (some (⟨2⟩, ⟨2⟩)) 0]⟩

/-- The code of `visit` is in order. -/
theorem visit_ordered : visit.Ordered visit.ids where
  spells := (Chain.spells_ofList _).wellFormed.spells
  consecutive := .of_sorted (by decide) (by decide)
  filled := by decide
  ends := by decide
  ascending := by decide

/-- Both functions of `visit` have their bounds in it. -/
theorem visitors_linked : visitors.Linked visit := by
  intro function hfunction
  rcases List.mem_cons.mp hfunction with rfl | hrest
  · rintro _ _ ⟨⟩ ⟨⟩
    exact ⟨by decide, by decide⟩
  · obtain rfl := List.mem_singleton.mp hrest
    rintro _ _ ⟨⟩ ⟨⟩
    exact ⟨by decide, by decide⟩

/-- An instruction at the last address, so that its end has none. -/
def brink : Chain := .ofList
  [{ Instruction.decoded 0xFFFFFFFFFFFFFFFF [0x90] 1 .nop with sec := 1, func := some ⟨0⟩ }]

/-- The function of `brink`. -/
def edging : FunctionTable := ⟨#[.declared "edge" 1 (some (⟨0⟩, ⟨0⟩)) 0xFFFFFFFFFFFFFFFF]⟩

/-- Two instructions of a function that begins at the second of them and has no last one. -/
def opening : Chain := .ofList
  [{ Instruction.decoded 0 [0x90] 1 .nop with sec := 1, func := some ⟨0⟩ },
    { Instruction.decoded 1 [0x90] 1 .nop with sec := 1, func := some ⟨0⟩ }]

/-- The function of `opening`. -/
def opener : FunctionTable := ⟨#[{ Function.declared "open" 1 none 1 with first := some ⟨1⟩ }]⟩

namespace BlockGraph

theorem build_partitions_visit : ∃ graph parts,
    visit.Ascending visit.ids ∧ visitors.Linked visit
      ∧ (∀ id ∈ visit.ids, ∀ instr ∈ visit.get? id, ∀ target ∈ instr.references, visit.isLinked target = true)
      ∧ (∀ id ∈ visit.ids, ∀ instr ∈ visit.get? id, instr.func.isSome) ∧ visit.Unwrapped
      ∧ build visit visitors = .ok graph ∧ graph.Cuts parts
      ∧ ∀ x ∈ visit.ids, x ∈ Part.starts parts ↔ visit.Leader visitors x := by
  have hreferences : ∀ id ∈ visit.ids, ∀ instr ∈ visit.get? id, ∀ target ∈ instr.references,
      visit.isLinked target = true := by decide
  have hfuncs : ∀ id ∈ visit.ids, ∀ instr ∈ visit.get? id, instr.func.isSome := by decide
  have hunwrapped : visit.Unwrapped := by decide
  obtain ⟨hbuilds, hcut⟩ := (build_partitions visit_ordered.toAscending visitors_linked hreferences).1 hfuncs
  obtain ⟨graph, hbuild⟩ := hbuilds hunwrapped
  obtain ⟨parts, hcuts, -, hstarts⟩ := hcut graph hbuild
  exact ⟨graph, parts, visit_ordered.toAscending, visitors_linked, hreferences, hfuncs, hunwrapped, hbuild, hcuts,
    hstarts⟩

/-- Code that ends with the last address is refused although all of it belongs to a function, and no block
begins at the first instruction of a function that has no last one. -/
theorem brink_refused_opening_uncut :
    (brink.Ascending brink.ids
      ∧ (∀ function ∈ edging.functions.toList, (∀ id ∈ function.first, brink.isLinked id = true)
        ∧ ∀ id ∈ function.last, brink.isLinked id = true)
      ∧ (∀ id ∈ brink.ids, ∀ instr ∈ brink.get? id, instr.func.isSome ∧ instr.references = [])
      ∧ build brink edging = .error (.unmappedInstruction 0xFFFFFFFFFFFFFFFF))
    ∧ opening.Ascending opening.ids
      ∧ (∀ function ∈ opener.functions.toList, (∀ id ∈ function.first, opening.isLinked id = true)
        ∧ ∀ id ∈ function.last, opening.isLinked id = true)
      ∧ (∀ id ∈ opening.ids, ∀ instr ∈ opening.get? id, instr.func.isSome ∧ instr.references = [])
      ∧ opening.Unwrapped ∧ (∃ function ∈ opener.functions.toList, function.first = some ⟨1⟩)
      ∧ ∃ graph, build opening opener = .ok graph ∧ ∀ block ∈ graph.blocks.toList, block.first ≠ ⟨1⟩ := by
  refine ⟨⟨⟨(Chain.spells_ofList _).wellFormed.spells, .of_section 1 (by decide), by decide, by decide⟩, by decide,
    by decide, by decide +kernel⟩, ⟨(Chain.spells_ofList _).wellFormed.spells, .of_section 1 (by decide), by decide,
    by decide⟩, by decide, by decide, by decide, ⟨_, List.mem_singleton_self _, rfl⟩, ?_⟩
  have hbuilds : (build opening opener).toOption.any (fun graph =>
      graph.blocks.toList.all fun block => block.first != ⟨1⟩) = true := by decide +kernel
  obtain ⟨graph, hbuild, hfirst⟩ := Option.any_eq_true _ _ |>.mp hbuilds
  cases hrun : build opening opener with
  | error cause =>
    rw [hrun] at hbuild
    cases hbuild
  | ok built =>
    rw [hrun] at hbuild
    obtain rfl := Option.some.inj hbuild
    exact ⟨built, rfl, fun block hblock => by simpa using List.all_eq_true.mp hfirst block hblock⟩

end BlockGraph

end Splice
