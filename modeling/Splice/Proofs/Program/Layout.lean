import Splice.Proofs.Chain.Order
import Splice.Proofs.Program.Check

/-!
# Places

The layout puts each instruction at its *place*: the base of its section and the bytes of
that section in front of it (`Program.place`). What `Layout.expected` computes with a table
of offsets is the place of each instruction (`expected_eq`), so `verifyAddresses` passes
exactly if the program is `LaidOut` (`verifyAddresses_ok`).

Sections may alternate in a chain. Where the code of each section is `Consecutive`, what
lies behind an instruction in its section is the next stretch of the chain, which is what a
shift moves.

Places and the table of offsets are compared by an induction along the chain which keeps the
front as an argument (`mem_places`): the offset of a section is the extent of what came before.
Extents are sums of words, so they wrap around where the layout does.
-/

namespace Splice

namespace Chain

/-- The number of bytes of an instruction; zero if it is not present. -/
def sizeOf (chain : Chain) (id : InstrId) : UInt64 := ((chain.get? id).map (·.size)).getD 0

/-- The instruction is present and in the section. -/
def inSection (chain : Chain) (sec : SectionId) (id : InstrId) : Bool :=
  (chain.get? id).any fun instr => instr.sec == sec

/-- The number of bytes that a list of instructions fills in a section. -/
def extent (chain : Chain) (sec : SectionId) (ids : List InstrId) : UInt64 :=
  (ids.map fun id => if chain.inSection sec id then chain.sizeOf id else 0).sum

variable {chain after : Chain} {sec : SectionId} {id : InstrId} {ids xs ys : List InstrId}
  {instr : Instruction}

theorem sizeOf_eq (h : chain.get? id = some instr) : chain.sizeOf id = instr.size := by
  rw [sizeOf, h]
  rfl

theorem inSection_iff (h : chain.get? id = some instr) :
    chain.inSection sec id = true ↔ instr.sec = sec := by
  rw [inSection, h, Option.any_some, beq_iff_eq]

theorem extent_append : chain.extent sec (xs ++ ys) = chain.extent sec xs + chain.extent sec ys := by
  rw [extent, List.map_append, List.sum_append]
  rfl

/-- One instruction fills its size in its section and nothing in others. -/
theorem extent_singleton (h : chain.get? id = some instr) :
    chain.extent sec [id] = if instr.sec = sec then instr.size else 0 := by
  rw [extent, List.map_singleton, List.sum_singleton, sizeOf_eq h]
  by_cases hsec : instr.sec = sec
  · rw [if_pos hsec, if_pos ((inSection_iff h).mpr hsec)]
  · rw [if_neg hsec, if_neg fun he => hsec ((inSection_iff h).mp he)]

theorem extent_absent (h : chain.get? id = none) : chain.extent sec [id] = 0 := by
  rw [extent, List.map_singleton, List.sum_singleton, inSection, h]
  rfl

section

variable {r : InstrId → Instruction → Instruction → Prop} {kept : InstrId → Prop}

theorem Retains.sizeOf (h : chain.Retains r kept after) (hr : ∀ id a b, r id a b → b.size = a.size)
    (hid : kept id) : after.sizeOf id = chain.sizeOf id :=
  congrArg (Option.getD · 0) (h.map_get? hid (hr id))

theorem Retains.inSection (h : chain.Retains r kept after) (hr : ∀ id a b, r id a b → b.sec = a.sec)
    (hid : kept id) : after.inSection sec id = chain.inSection sec id :=
  h.any_get? hid fun a b hab => by rw [hr id a b hab]

/-- Extents depend on sections and sizes. -/
theorem Retains.extent (h : chain.Retains r kept after)
    (hr : ∀ id a b, r id a b → b.sec = a.sec ∧ b.size = a.size) (hids : ∀ id ∈ ids, kept id) :
    after.extent sec ids = chain.extent sec ids := by
  unfold Chain.extent
  congr 1
  refine List.map_congr_left fun id hid => ?_
  rw [h.inSection (fun id a b hab => (hr id a b hab).1) (hids id hid),
    h.sizeOf (fun id a b hab => (hr id a b hab).2) (hids id hid)]

end

end Chain

/-- Where the layout puts an instruction of section `sec` that comes behind `front`. -/
def Program.place (program : Program) (sec : SectionId) (front : List InstrId) : UInt64 :=
  (program.bases.lookup sec).getD 0 + program.chain.extent sec front

theorem Program.place_append {program : Program} {sec : SectionId} {xs ys : List InstrId} :
    program.place sec (xs ++ ys) = program.place sec xs + program.chain.extent sec ys := by
  rw [place, place, Chain.extent_append, UInt64.add_assoc]

theorem Program.place_evolve {program after : Program}
    {r : InstrId → Instruction → Instruction → Prop}
    (hchain : program.chain.Evolves r after.chain) (hbases : after.bases = program.bases)
    (hr : ∀ id a b, r id a b → b.sec = a.sec ∧ b.size = a.size) (sec : SectionId)
    (front : List InstrId) : after.place sec front = program.place sec front := by
  rw [place, place, hbases, (hchain.retains fun _ => True).extent hr fun _ _ => trivial]

/-- Every instruction of the list is in its place. -/
def Program.LaidOut (program : Program) (l : List InstrId) : Prop :=
  ∀ front id rest instr, l = front ++ id :: rest → program.chain.get? id = some instr →
    instr.addr = program.place instr.sec front

namespace Program

variable {program : Program} {l : List InstrId} {id : InstrId} {instr : Instruction}

/-! ## The expected addresses -/

/-- The instructions of a list that comes behind `front`, each with its place. -/
def places (program : Program) : (front : List InstrId) → List InstrId →
    List (InstrId × Instruction × UInt64)
  | _, [] => []
  | front, id :: rest =>
    match program.chain.get? id with
    | some instr =>
      (id, instr, program.place instr.sec front) :: places program (front ++ [id]) rest
    | none => places program (front ++ [id]) rest

/-- The places are those at which the layout puts the instructions: the running offset of a section is the
extent of what came before. The induction takes the front along. -/
theorem mem_places {front : List InstrId} {addr : UInt64} :
    (id, instr, addr) ∈ program.places front l
      ↔ ∃ xs ys, l = xs ++ id :: ys ∧ program.chain.get? id = some instr
        ∧ addr = program.place instr.sec (front ++ xs) := by
  -- the walk carries along what it has passed, so the front is general
  induction l generalizing front with
  | nil => simp [places]
  | cons head rest ih =>
    constructor
    · intro h
      have hrest : (id, instr, addr) ∈ program.places (front ++ [head]) rest →
          ∃ xs ys, head :: rest = xs ++ id :: ys ∧ program.chain.get? id = some instr
            ∧ addr = program.place instr.sec (front ++ xs) := by
        intro hmem
        obtain ⟨xs, ys, rfl, hid, rfl⟩ := ih.mp hmem
        exact ⟨head :: xs, ys, rfl, hid, by simp⟩
      unfold places at h
      cases hhead : program.chain.get? head with
      | none =>
        rw [hhead] at h
        exact hrest h
      | some found =>
        rw [hhead, List.mem_cons] at h
        rcases h with hfirst | hmem
        · simp only [Prod.mk.injEq] at hfirst
          obtain ⟨rfl, rfl, rfl⟩ := hfirst
          exact ⟨[], rest, rfl, hhead, by rw [List.append_nil]⟩
        · exact hrest hmem
    · intro h
      obtain ⟨xs, ys, hsplit, hid, rfl⟩ := h
      unfold places
      cases xs with
      | nil =>
        rw [List.nil_append, List.cons.injEq] at hsplit
        obtain ⟨rfl, rfl⟩ := hsplit
        rw [hid, List.append_nil]
        exact List.mem_cons_self ..
      | cons x xs =>
        rw [List.cons_append, List.cons.injEq] at hsplit
        obtain ⟨rfl, rfl⟩ := hsplit
        have hmem : (id, instr, program.place instr.sec (front ++ head :: xs))
            ∈ program.places (front ++ [head]) (xs ++ id :: ys) :=
          ih.mpr ⟨xs, ys, rfl, hid, by simp⟩
        cases program.chain.get? head with
        | none => exact hmem
        | some found => exact List.mem_cons_of_mem _ hmem

/-- Each instruction that is present has one place. -/
theorem places_fst {front : List InstrId}
    (hl : ∀ id ∈ l, ∃ instr, program.chain.get? id = some instr) :
    (program.places front l).map (·.1) = l := by
  induction l generalizing front with
  | nil => rfl
  | cons id rest ih =>
    obtain ⟨instr, hinstr⟩ := hl id (List.mem_cons_self ..)
    rw [places, hinstr, List.map_cons, ih fun x hx => hl x (List.mem_cons_of_mem _ hx)]

/-- The table of offsets holds, for every section, the place behind what has been laid out. -/
theorem zip_addresses {front : List InstrId} {offsets : List (SectionId × UInt64)}
    (hoffsets : ∀ sec, (offsets.lookup sec).getD ((program.bases.lookup sec).getD 0)
      = program.place sec front) :
    let entries := l.filterMap fun id => (program.chain.get? id).map fun instr => (id, instr)
    (entries.zip (Layout.addresses program.bases offsets
        (entries.map fun entry => (entry.2.sec, entry.2.size)))).map
          (fun pair => (pair.1.1, pair.1.2, pair.2))
      = program.places front l := by
  induction l generalizing front offsets with
  | nil => rfl
  | cons id rest ih =>
    cases hid : program.chain.get? id with
    | none =>
      rw [List.filterMap_cons_none (by rw [hid]; rfl), places, hid]
      refine ih fun sec => ?_
      rw [hoffsets, place_append, Chain.extent_absent hid, UInt64.add_zero]
    | some instr =>
      rw [List.filterMap_cons_some (by rw [hid]; rfl), places, hid]
      simp only [List.map_cons, Layout.addresses, List.zip_cons_cons, hoffsets]
      congr 1
      refine ih fun sec => ?_
      have hplace : program.place sec (front ++ [id])
          = program.place sec front + if instr.sec = sec then instr.size else 0 := by
        rw [place_append, Chain.extent_singleton hid]
      rw [hplace]
      by_cases hsec : instr.sec = sec
      · rw [if_pos hsec, ← hsec, Assoc.lookup_put_self]
        rfl
      · rw [if_neg hsec, UInt64.add_zero, Assoc.lookup_put_of_ne _ _ (fun he => hsec he.symm), hoffsets]

/-- The layout lists the places of the linked instructions. -/
theorem expected_eq : Layout.expected program = program.places [] program.chain.ids := by
  refine zip_addresses fun sec => ?_
  rw [place]
  show _ = _ + 0
  rw [UInt64.add_zero]
  rfl

/-- The check of addresses compares each with its place. -/
theorem verifyAddresses_ok :
    program.verifyAddresses = .ok () ↔ program.LaidOut program.chain.ids := by
  rw [verifyAddresses, forM_eq_ok, expected_eq]
  constructor
  · intro h front id rest instr hids hid
    have hcheck := h (id, instr, program.place instr.sec front)
      (mem_places.mpr ⟨front, rest, hids, hid, rfl⟩)
    rw [ensure_ok, beq_iff_eq] at hcheck
    exact hcheck
  · intro h entry hentry
    obtain ⟨id, instr, addr⟩ := entry
    obtain ⟨front, rest, hids, hid, rfl⟩ := mem_places.mp hentry
    show ensure _ _ = _
    rw [ensure_ok, beq_iff_eq]
    exact h front id rest instr hids hid

end Program

end Splice
