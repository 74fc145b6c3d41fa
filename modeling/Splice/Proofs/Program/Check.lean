import Splice.Program.Check
import Splice.Proofs.Chain.References

/-!
# What the checks establish

A check that passes says that some property holds of every instruction.
`verifyChain_wellFormed`, `verifyDisplacements_ok` and `verifyReferences_listed` put the
property in words: the links spell out a list, each direct transfer `Encodes` the way to its
physical target, and what instructions refer to is `Listed`.

Each lemma is an equivalence where the property can be said without the check, so it serves both
ways: what is assumed of a program that was verified, and what has to be shown for one that is
to pass.

> `verifyDisplacement_ok`: the check of a displacement passes exactly if the instruction is no
> direct transfer, or its physical target is there and in another section, or its bytes encode
> the way to the physical target.

The checks of addresses, functions, symbols and blocks have their equivalences in `Layout`,
`Ownership`, `Splice.Proofs.Symbol.Grouping` and `Blocks`.
-/

namespace Splice

variable {chain : Chain} {program : Program} {id : InstrId} {instr : Instruction}

/-- The check goes through the linked instructions, each with its record. -/
theorem Chain.mem_entries : (id, instr) ∈ chain.entries
    ↔ id ∈ chain.ids ∧ chain.get? id = some instr := by
  rw [Chain.entries, List.mem_filterMap]
  constructor
  · intro h
    obtain ⟨other, hother, h⟩ := h
    rw [Option.map_eq_some_iff] at h
    obtain ⟨found, hfound, h⟩ := h
    rw [Prod.mk.injEq] at h
    obtain ⟨rfl, rfl⟩ := h
    exact ⟨hother, hfound⟩
  · intro h
    exact ⟨id, h.1, by rw [h.2]; rfl⟩

namespace Program

theorem ensure_ok {condition : Bool} {violation : Violation} {u : Unit} :
    ensure condition violation = .ok u ↔ condition = true := by
  unfold ensure
  cases condition <;> simp

/-- What passes all checks passes each of them. -/
theorem verify_parts (h : program.verify = .ok ()) :
    program.verifyChain = .ok () ∧ program.verifyAddresses = .ok () ∧ program.verifyFunctions = .ok ()
      ∧ program.verifyReferences = .ok () ∧ program.verifyDisplacements = .ok () := by
  simp only [verify, bind_eq_ok] at h
  obtain ⟨_, hchain, _, haddresses, _, hfunctions, _, hreferences, _, hdisplacements, -⟩ := h
  exact ⟨hchain, haddresses, hfunctions, hreferences, hdisplacements⟩

/-- One of the checks that make up the whole. -/
theorem verifySymbols_of_verify (h : program.verify = .ok ()) : program.verifySymbols = .ok () := by
  simp only [verify, bind_eq_ok] at h
  obtain ⟨_, -, _, -, _, -, _, -, _, -, _, hsymbols, -⟩ := h
  exact hsymbols

/-! ## Links -/

/-- What is walked over and passes the check of its links is a segment. It ends where the code ends,
unless the steps ran out before that. -/
theorem checkLinks_segment {steps : Nat} {prev start last : Option InstrId}
    (h : checkLinks chain prev (chain.follow steps start) = .ok last) :
    ∃ next, chain.Segment prev (chain.follow steps start) next
      ∧ start = (chain.follow steps start).head?.or next
      ∧ last = (chain.follow steps start).getLast?.or prev
      ∧ ((chain.follow steps start).length < steps → next = none) := by
  -- the walk and the check go on together, so what was checked is the segment in front
  induction steps generalizing prev start with
  | zero =>
    obtain rfl := Except.ok.inj h
    exact ⟨start, trivial, rfl, rfl, fun hlt => absurd hlt (Nat.lt_irrefl 0)⟩
  | succ steps ih =>
    cases start with
    | none =>
      obtain rfl := Except.ok.inj h
      exact ⟨none, trivial, rfl, rfl, fun _ => rfl⟩
    | some id =>
      rw [Chain.follow] at h ⊢
      unfold checkLinks at h
      cases hnode : chain.node? id with
      | none =>
        rw [hnode] at h
        cases h
      | some node =>
        rw [hnode] at h
        by_cases hprev : node.prev = prev
        · simp only [hprev, if_true] at h
          obtain ⟨next, hsegment, hstart, hlast, hend⟩ := ih h
          rw [Chain.next?, hnode, Option.bind_some] at hsegment hstart hlast hend ⊢
          refine ⟨next, ⟨⟨node.instr, ?_⟩, hsegment⟩, rfl, ?_, fun hlt => hend ?_⟩
          · rw [← hstart, ← hprev]
            exact hnode
          · rw [hlast, List.getLast?_cons]
            cases (chain.follow steps node.next).getLast? <;> rfl
          · rw [List.length_cons] at hlt
            omega
        · simp only [hprev, if_false] at h
          cases h

/-- Each instruction of a segment names the one in front of it, so none comes twice. -/
theorem segment_nodup {l : List InstrId} {next : Option InstrId} (h : chain.Segment none l next) :
    l.Nodup := by
  have hprev : ∀ (i : Nat) x, l[i]? = some x →
      chain.prev? x = if i = 0 then none else l[i - 1]? := by
    intro i x hx
    obtain ⟨hlt, hget⟩ := List.getElem?_eq_some_iff.mp hx
    have hcut : l = l.take i ++ x :: l.drop (i + 1) := by
      rw [← hget, List.getElem_cons_drop, List.take_append_drop]
    rw [hcut] at h
    obtain ⟨instr, hnode⟩ := h.node?
    rw [Chain.prev?, hnode, Option.bind_some, Option.or_none, List.getLast?_take]
    by_cases hi : i = 0
    · rw [if_pos hi, if_pos hi]
    · obtain ⟨y, hy⟩ : ∃ y, l[i - 1]? = some y := ⟨_, List.getElem?_eq_getElem (by omega)⟩
      rw [if_neg hi, if_neg hi, hy]
      rfl
  -- two places of one instruction would have it follow itself back to the head
  have hplaces : ∀ (i j : Nat) x, i < j → l[i]? = some x → l[j]? ≠ some x := by
    intro i
    induction i with
    | zero =>
      intro j x hj hx hx'
      have hboth := (hprev 0 x hx).symm.trans (hprev j x hx')
      rw [if_pos rfl, if_neg (by omega), eq_comm, List.getElem?_eq_none_iff] at hboth
      obtain ⟨hlt, -⟩ := List.getElem?_eq_some_iff.mp hx'
      omega
    | succ i ih =>
      intro j x hj hx hx'
      have hboth := (hprev (i + 1) x hx).symm.trans (hprev j x hx')
      obtain ⟨hlt, -⟩ := List.getElem?_eq_some_iff.mp hx
      obtain ⟨y, hy⟩ : ∃ y, l[i]? = some y := ⟨_, List.getElem?_eq_getElem (by omega)⟩
      rw [if_neg (by omega), if_neg (by omega), Nat.add_sub_cancel, hy] at hboth
      exact ih (j - 1) y (by omega) hy hboth.symm
  rw [List.Nodup, List.pairwise_iff_getElem]
  intro i j hi hj hij he
  refine hplaces i j l[i] hij (List.getElem?_eq_getElem hi) ?_
  rw [he]
  exact List.getElem?_eq_getElem hj

/-- The check of the order says that its links lead along the list from head to tail, and that the length
is that of the list. -/
theorem verifyChain_threaded (h : program.verifyChain = .ok ()) : program.chain.Threaded
    ∧ program.chain.head = program.chain.ids.head? ∧ program.chain.tail = program.chain.ids.getLast?
    ∧ program.chain.length = program.chain.ids.length := by
  simp only [verifyChain, bind_eq_ok, ensure_ok, beq_iff_eq] at h
  obtain ⟨last, hlinks, _, htail, hlength⟩ := h
  obtain ⟨next, hsegment, hhead, hlast, hend⟩ := checkLinks_segment hlinks
  have hnodup := segment_nodup hsegment
  have hle := Chain.length_le_of_present hnodup fun id hid => hsegment.present hid
  have hnext : next = none := hend (by omega)
  subst hnext
  rw [Option.or_none] at hhead hlast
  exact ⟨⟨hnodup, hsegment⟩, hhead, htail.trans hlast, hlength.symm⟩

/-- A chain that passes the check of its links and has all of its instructions in the list is well
formed. -/
theorem verifyChain_wellFormed (h : program.verifyChain = .ok ())
    (hlinked : ∀ id, program.chain.contains id = true → id ∈ program.chain.ids) :
    program.chain.WellFormed := by
  obtain ⟨hthreaded, hhead, htail, hlength⟩ := verifyChain_threaded h
  refine ⟨program.chain.ids, hthreaded.nodup, hthreaded.links, hhead, htail, hlength, ?_⟩
  intro id node hid hnode
  exact absurd (hlinked id (by rw [Chain.contains, hnode]; rfl)) hid

/-- The links of a segment pass their check. -/
theorem checkLinks_of_segment {prev next : Option InstrId} {l : List InstrId}
    (h : chain.Segment prev l next) : checkLinks chain prev l = .ok (l.getLast?.or prev) := by
  induction l generalizing prev with
  | nil => rfl
  | cons id rest ih =>
    obtain ⟨⟨instr, hnode⟩, hrest⟩ := h
    rw [checkLinks, hnode]
    simp only [if_true]
    rw [ih hrest, List.getLast?_cons]
    cases rest.getLast? <;> rfl

/-- Links that spell out a list pass their check. -/
theorem verifyChain_ok {l : List InstrId} (hl : program.chain.Spells l) :
    program.verifyChain = .ok () := by
  simp only [verifyChain, bind_eq_ok, ensure_ok, beq_iff_eq]
  refine ⟨l.getLast?, ?_, (), hl.tail, ?_⟩
  · rw [hl.ids_eq, checkLinks_of_segment hl.links, Option.or_none]
  · rw [hl.ids_eq, hl.length]

/-- All checks pass if each of them does; that of the blocks is made of a graph only. -/
theorem verify_of_parts (hchain : program.verifyChain = .ok ())
    (haddresses : program.verifyAddresses = .ok ()) (hfunctions : program.verifyFunctions = .ok ())
    (hreferences : program.verifyReferences = .ok ())
    (hdisplacements : program.verifyDisplacements = .ok ())
    (hsymbols : program.verifySymbols = .ok ())
    (hblocks : program.graph.isSome = true → program.verifyBlocks = .ok ()) :
    program.verify = .ok () := by
  simp only [verify, bind_eq_ok]
  refine ⟨(), hchain, (), haddresses, (), hfunctions, (), hreferences, (), hdisplacements, (), hsymbols, ?_⟩
  split
  next hgraph => exact hblocks hgraph
  next => rfl

/-! ## Displacements -/

/-- The physical target of a direct transfer is present, and if it is in the same section the
displacement leads to its address. -/
def Encodes (program : Program) (jumper : InstrId) : Prop :=
  ∀ instr logical, program.chain.get? jumper = some instr → instr.target = some logical →
    instr.isDirectTransfer = true →
    ∃ physical, program.chain.get? (program.redirects.resolve jumper logical) = some physical
      ∧ (physical.sec = instr.sec → instr.encodedTarget? = some physical.addr)

/-- The check of one displacement compares the bytes with what the target asks for, if it is in the
section. -/
theorem verifyDisplacement_ok (hinstr : program.chain.get? id = some instr) :
    verifyDisplacement program id instr = .ok () ↔ program.Encodes id := by
  unfold verifyDisplacement
  -- what is no direct transfer is not checked, and has nothing to encode
  cases htarget : instr.target with
  | none =>
    refine ⟨fun _ found logical hfound hlogical _ => ?_, fun _ => rfl⟩
    rw [hinstr, Option.some.injEq] at hfound
    rw [← hfound, htarget] at hlogical
    cases hlogical
  | some logical =>
    by_cases hdirect : instr.isDirectTransfer = true
    · simp only [hdirect, if_true, bind_eq_ok, mapError_eq_ok, Chain.get_ok]
      constructor
      · intro h found logical' hfound hlogical _
        rw [hinstr, Option.some.injEq] at hfound
        subst hfound
        rw [htarget, Option.some.injEq] at hlogical
        subst hlogical
        obtain ⟨physical, hphysical, h⟩ := h
        refine ⟨physical, hphysical, fun hsec => ?_⟩
        rw [if_pos (beq_iff_eq.mpr hsec), ensure_ok, beq_iff_eq] at h
        exact h
      · intro h
        obtain ⟨physical, hphysical, hencoded⟩ := h instr logical hinstr htarget hdirect
        refine ⟨physical, hphysical, ?_⟩
        by_cases hsec : physical.sec = instr.sec
        · rw [if_pos (beq_iff_eq.mpr hsec), ensure_ok, beq_iff_eq]
          exact hencoded hsec
        · rw [if_neg fun he => hsec (beq_iff_eq.mp he)]
          rfl
    · simp only [hdirect]
      refine ⟨fun _ found logical' hfound _ hdirect' => ?_, fun _ => rfl⟩
      rw [hinstr, Option.some.injEq] at hfound
      exact absurd (hfound ▸ hdirect') hdirect

/-- The check as a whole is the check of each linked instruction. -/
theorem verifyDisplacements_ok : program.verifyDisplacements = .ok ()
    ↔ ∀ jumper ∈ program.chain.ids, program.Encodes jumper := by
  rw [verifyDisplacements, forM_eq_ok]
  constructor
  · intro h jumper hjumper instr logical hinstr
    have hcheck := h (jumper, instr) (Chain.mem_entries.mpr ⟨hjumper, hinstr⟩)
    exact (verifyDisplacement_ok hinstr).mp hcheck instr logical hinstr
  · intro h entry hentry
    obtain ⟨jumper, instr⟩ := entry
    rw [Chain.mem_entries] at hentry
    exact (verifyDisplacement_ok hentry.2).mpr (h jumper hentry.1)

/-! ## References -/

/-- The check of references is the check of each linked instruction. -/
theorem verifyReferences_iff : program.verifyReferences = .ok ()
    ↔ ∀ id ∈ program.chain.ids, ∀ instr, program.chain.get? id = some instr →
      verifyReference program id instr = .ok () := by
  rw [verifyReferences, forM_eq_ok]
  constructor
  · intro h id hid instr hinstr
    exact h (id, instr) (Chain.mem_entries.mpr ⟨hid, hinstr⟩)
  · intro h entry hentry
    obtain ⟨hid, hinstr⟩ := Chain.mem_entries.mp hentry
    exact h entry.1 hid entry.2 hinstr

theorem checkTarget_ok {target : InstrId} : checkTarget chain id target = .ok ()
    ↔ chain.isLinked target = true ∧ ∃ found, chain.get? target = some found ∧ id ∈ found.targetedBy := by
  simp only [checkTarget, bind_eq_ok, ensure_ok, mapError_eq_ok, Chain.get_ok, List.contains_iff_mem,
    exists_const]

/-- Code that passes the check has every reference listed by its target. -/
theorem verifyReferences_listed {l : List InstrId} (hl : program.chain.Spells l)
    (h : program.verifyReferences = .ok ()) : program.chain.Listed l := by
  intro jumper hjumper instr hinstr target htarget
  have hcheck := verifyReferences_iff.mp h jumper (hl.ids_eq.symm ▸ hjumper) instr hinstr
  simp only [verifyReference, bind_eq_ok] at hcheck
  obtain ⟨_, hrefs, -⟩ := hcheck
  obtain ⟨hlinked, hfound⟩ := checkTarget_ok.mp (forM_eq_ok.mp hrefs target htarget)
  exact ⟨hl.isLinked_iff.mp hlinked, hfound⟩

end Program

end Splice
