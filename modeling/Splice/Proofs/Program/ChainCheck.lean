import Splice.Proofs.Program.Check

/-!
# The check of the links

The links of a chain may be damaged in any way: they may lead in circles, to slots that are
empty, or forth but not back. `verifyChain` follows them from the head, and what it walks over is
cut off at the number of slots. `Checks` is the loop itself, which goes on for as long as there is
a next instruction, and stops early at the first instruction that is missing or that does not
name the one it was reached from. Nothing bounds it but that.

It comes to an end on every chain (`checks_follow`): what it has passed is a segment that begins
behind no instruction, so no instruction stands in it twice (`segment_nodup`), and a circle is
left at the first instruction that would come again. The bound of the walk therefore cuts
nothing off, and `verifyChain_iff` says what the outcome means: the check passes if and only if
the instructions reached from the head are a doubly linked list.
-/

namespace Splice

namespace Chain

/-- The instructions that the links lead to from the head, present or not. -/
inductive Reached (chain : Chain) : InstrId → Prop where
  | head {id : InstrId} (h : chain.head = some id) : Reached chain id
  | next {id next : InstrId} (h : Reached chain id) (hnext : chain.next? id = some next) :
    Reached chain next

/-- The list holds the instructions reached from the head, each of them once, and each of them is
present and names the two that it stands between; the tail is the last one and the length is
their number. -/
structure LinkedList (chain : Chain) (l : List InstrId) : Prop where
  reached : ∀ id, id ∈ l ↔ chain.Reached id
  nodup : l.Nodup
  linked : ∀ before id behind, l = before ++ id :: behind →
    ∃ instr, chain.node? id = some ⟨instr, before.getLast?, behind.head?⟩
  head : chain.head = l.head?
  tail : chain.tail = l.getLast?
  length : chain.length = l.length

variable {chain : Chain} {l : List InstrId} {id : InstrId} {prev next : Option InstrId}

/-- Instructions that name their neighbours are a segment. -/
theorem segment_of_linked (h : ∀ before id behind, l = before ++ id :: behind →
    ∃ instr, chain.node? id = some ⟨instr, before.getLast?.or prev, behind.head?.or next⟩) :
    chain.Segment prev l next := by
  induction l generalizing prev with
  | nil => exact trivial
  | cons id rest ih =>
    refine ⟨h [] id rest rfl, ih ?_⟩
    intro before other behind hrest
    obtain ⟨instr, hnode⟩ := h (id :: before) other behind (by rw [hrest, List.cons_append])
    refine ⟨instr, ?_⟩
    rw [hnode, List.getLast?_cons]
    cases before.getLast? <;> rfl

/-- If the first instruction of a segment is reached, so is each of them. -/
theorem Segment.reached (h : chain.Segment prev l next)
    (hfirst : ∀ first, l.head? = some first → chain.Reached first) (hid : id ∈ l) :
    chain.Reached id := by
  induction l generalizing prev with
  | nil => cases hid
  | cons first rest ih =>
    obtain ⟨⟨instr, hnode⟩, hrest⟩ := h
    have hreached := hfirst first rfl
    rcases List.mem_cons.mp hid with rfl | hid
    · exact hreached
    · refine ih hrest (fun second hsecond => .next hreached ?_) hid
      rw [next?, hnode, Option.bind_some, hsecond]
      rfl

/-- What the links lead to from the head is the list that they spell out. -/
theorem Segment.mem_iff_reached (h : chain.Segment none l none) (hhead : chain.head = l.head?) :
    id ∈ l ↔ chain.Reached id := by
  constructor
  · intro hid
    exact h.reached (fun first hfirst => .head (hhead.trans hfirst)) hid
  · intro hid
    induction hid with
    | head hid =>
      rw [hhead] at hid
      exact List.mem_of_head? hid
    | next _ hnext ih =>
      obtain ⟨before, behind, rfl⟩ := List.append_of_mem ih
      obtain ⟨instr, hnode⟩ := h.node?
      rw [next?, hnode, Option.bind_some, Option.or_none, Option.or_none] at hnext
      exact List.mem_append_right _ (List.mem_cons_of_mem _ (List.mem_of_head? hnext))

end Chain

namespace Program

open Chain

/-- How far the check has come: the last instruction that it has passed, and how many. -/
abbrev Passed := Option InstrId × Nat

/-- The loop of the check: the instruction that comes next has to be present and to name the last one
that was passed. The loop ends with the code, or with an error. -/
inductive Checks (chain : Chain) : Passed → (current : Option InstrId) → Except Error Passed → Prop where
  | done {passed : Passed} : Checks chain passed none (.ok passed)
  | missing {passed : Passed} {id : InstrId} (h : chain.node? id = none) :
    Checks chain passed (some id) (.error (.chain (.missingInstruction id)))
  | stale {passed : Passed} {id : InstrId} {node : Node} (h : chain.node? id = some node)
    (hprev : node.prev ≠ passed.1) :
    Checks chain passed (some id) (.error (.violation (.stalePrev id)))
  | passes {passed : Passed} {id : InstrId} {node : Node} {result : Except Error Passed}
    (h : chain.node? id = some node) (hprev : node.prev = passed.1)
    (rest : Checks chain (some id, passed.2 + 1) node.next result) :
    Checks chain passed (some id) result

/-- What the check says of the code that it has passed to its end. -/
def verdict (chain : Chain) (passed : Passed) : Except Error Unit := do
  ensure (chain.tail == passed.1) .wrongTail
  ensure (passed.2 == chain.length) (.wrongLength passed.2 chain.length)

variable {chain : Chain} {program : Program} {passed : Passed} {current : Option InstrId}
  {result other : Except Error Passed} {l : List InstrId}

/-- The loop has one outcome at most. -/
theorem Checks.unique (h : Checks chain passed current result)
    (hother : Checks chain passed current other) : other = result := by
  -- what is in the slot decides which of the ways it is
  induction h with
  | done => cases hother; rfl
  | missing h =>
    cases hother with
    | missing => rfl
    | stale h' => rw [h] at h'; cases h'
    | passes h' => rw [h] at h'; cases h'
  | stale h hprev =>
    cases hother with
    | missing h' => rw [h] at h'; cases h'
    | stale => rfl
    | passes h' hprev' =>
      rw [h] at h'
      cases h'
      exact absurd hprev' hprev
  | passes h hprev _ ih =>
    cases hother with
    | missing h' => rw [h] at h'; cases h'
    | stale h' hprev' =>
      rw [h] at h'
      cases h'
      exact absurd hprev hprev'
    | passes h' _ rest =>
      rw [h] at h'
      cases h'
      exact ih rest

/-- The loop comes to an end behind every segment that begins behind no instruction, with what the
walk over the rest finds. The segment has each of its instructions in a slot of its own,
so as many steps as there are slots left, and one to find the end, are all that it takes. -/
theorem checks_follow {steps : Nat} (hsegment : chain.Segment none l current)
    (hsteps : chain.slots.size < l.length + steps) :
    Checks chain (l.getLast?, l.length) current
      ((checkLinks chain l.getLast? (chain.follow steps current)).map
        fun last => (last, l.length + (chain.follow steps current).length)) := by
  have hle : l.length ≤ chain.slots.size :=
    length_le_of_present (segment_nodup hsegment) fun id hid => hsegment.present hid
  induction steps generalizing l current with
  | zero => omega
  | succ steps ih =>
    cases current with
    | none => exact .done
    | some id =>
      rw [Chain.follow, checkLinks]
      cases hnode : chain.node? id with
      | none => exact .missing hnode
      | some node =>
        simp only
        by_cases hprev : node.prev = l.getLast?
        · -- the segment goes on with the instruction
          have hlonger : chain.Segment none (l ++ [id]) node.next := by
            refine segment_append.mpr ⟨?_, ⟨node.instr, ?_⟩, trivial⟩
            · exact hsegment
            · rw [hnode, Option.or_none, ← hprev]
              rfl
          have hlength : (l ++ [id]).length = l.length + 1 := List.length_append
          have hfits := length_le_of_present (segment_nodup hlonger) fun _ h => hlonger.present h
          have hrest := ih hlonger (by omega) hfits
          rw [List.getLast?_append, List.getLast?_singleton, Option.some_or, hlength] at hrest
          rw [if_pos hprev, Chain.next?, hnode, Option.bind_some, List.length_cons,
            Nat.add_comm _ 1, ← Nat.add_assoc]
          exact .passes hnode hprev hrest
        · rw [if_neg hprev]
          exact .stale hnode hprev

/-- The loop from the head comes to an end, with what the walk finds. -/
theorem checks_ids (chain : Chain) : Checks chain (none, 0) chain.head
    ((checkLinks chain none chain.ids).map fun last => (last, chain.ids.length)) := by
  have hempty : chain.Segment none [] chain.head := trivial
  have hsteps : chain.slots.size < ([] : List InstrId).length + (chain.slots.size + 1) := by
    rw [List.length_nil]
    omega
  have hloop := checks_follow hempty hsteps
  simp only [List.length_nil, Nat.zero_add] at hloop
  exact hloop

/-- The check is the loop from the head, and what it says of the end. -/
theorem verifyChain_eq (program : Program) : program.verifyChain
    = ((checkLinks program.chain none program.chain.ids).map
        fun last => (last, program.chain.ids.length)).bind (verdict program.chain) := by
  unfold verifyChain
  simp only
  cases checkLinks program.chain none program.chain.ids with
  | error cause => rfl
  | ok last => rfl

/-- The check passes if and only if the links are those of a list. -/
theorem verifyChain_iff : program.verifyChain = .ok () ↔ ∃ l, program.chain.LinkedList l := by
  constructor
  · intro h
    obtain ⟨hthreaded, hhead, htail, hlength⟩ := verifyChain_threaded h
    refine ⟨program.chain.ids, fun id => hthreaded.links.mem_iff_reached hhead, hthreaded.nodup, ?_,
      hhead, htail, hlength⟩
    intro before id behind hids
    have hlinks := hthreaded.links
    rw [hids] at hlinks
    obtain ⟨instr, hnode⟩ := hlinks.node?
    rw [Option.or_none, Option.or_none] at hnode
    exact ⟨instr, hnode⟩
  · rintro ⟨l, hl⟩
    have hsegment : program.chain.Segment none l none := by
      apply segment_of_linked
      intro before id behind hcut
      rw [Option.or_none, Option.or_none]
      exact hl.linked before id behind hcut
    have hids : program.chain.ids = l := by
      have hempty : program.chain.Segment none ([] ++ l) none := hsegment
      rw [Chain.ids, hl.head]
      exact hempty.walk_append hl.nodup
    simp only [verifyChain, bind_eq_ok, ensure_ok, beq_iff_eq]
    refine ⟨l.getLast?, ?_, (), hl.tail, ?_⟩
    · rw [hids, checkLinks_of_segment hsegment, Option.or_none]
    · rw [hids, hl.length]

/-- Whatever the links are, the loop of the check comes to an end, and to one only; `verifyChain` says
what that is. The check passes if and only if the instructions reached from the head are a doubly
linked list. -/
theorem chain_check_decides (program : Program) :
    (∃ result, Checks program.chain (none, 0) program.chain.head result
      ∧ (∀ other, Checks program.chain (none, 0) program.chain.head other → other = result)
      ∧ program.verifyChain = result.bind (verdict program.chain))
    ∧ (program.verifyChain = .ok () ↔ ∃ l, program.chain.LinkedList l) := by
  have hloop := checks_ids program.chain
  refine ⟨⟨_, hloop, fun other hother => hloop.unique hother, verifyChain_eq program⟩, verifyChain_iff⟩

/-- Two instructions in a circle: the check is back at the first one, and stops there. -/
example : Program.verifyChain { (default : Program) with
    chain := ⟨#[some ⟨default, none, some ⟨1⟩⟩, some ⟨default, some ⟨0⟩, some ⟨0⟩⟩],
      some ⟨0⟩, some ⟨1⟩, 2⟩ } = .error (.violation (.stalePrev ⟨0⟩)) := by
  rfl

end Program

end Splice
