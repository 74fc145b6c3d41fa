import Splice.Proofs.Chain.Replacement

/-!
# Bystanders

When one instruction is pointed at its targets, gives up its jumpers or is taken out, the others
are bystanders: they may come to list it as a jumper or cease to, and nothing else of what they
say about control flow changes (`Instruction.Beside`). What a bystander lists apart from that
one instruction is the same before and after, in the same order.

> `free_bypasses`: an instruction that is freed takes nothing from the others but its own name
> in their lists.

`Bypasses` is a relation on chains, so a sequence of operations on one instruction is described
by the transitivity of that (`Bypasses.trans`). It is what lets an insertion and the removal of
what was inserted be compared place by place: all others are bystanders of both
(`Splice.Proofs.Program.GainAndLoss`).
-/

namespace Splice

/-- The instruction as one that stands beside `other`: it keeps everything that is not about addresses, bytes
or symbols, and the list of its jumpers but for `other`. -/
structure Instruction.Beside (other : InstrId) (a b : Instruction) : Prop where
  eq : b = { a with
    addr := b.addr
    bytes := b.bytes
    relocs := b.relocs
    referencedBy := b.referencedBy
    targetedBy := b.targetedBy }
  jumpers : b.targetedBy.filter (· != other) = a.targetedBy.filter (· != other)

/-- Without the jumper, a list is the same whether the jumper was added to it or not. -/
theorem filter_addReferrer (jumper : InstrId) (referrers : List InstrId) :
    (addReferrer jumper referrers).filter (· != jumper) = referrers.filter (· != jumper) := by
  unfold addReferrer
  split
  · rfl
  · simp

namespace Instruction.Beside

variable {a b c : Instruction} {other : InstrId}

theorem refl (other : InstrId) (a : Instruction) : Beside other a a := ⟨rfl, rfl⟩

/-- To stand beside an instruction holds across two changes. -/
theorem trans (hab : Beside other a b) (hbc : Beside other b c) : Beside other a c := by
  refine ⟨?_, hbc.jumpers.trans hab.jumpers⟩
  have heq := hbc.eq
  rw [hab.eq] at heq
  exact heq

theorem noting (other : InstrId) (a : Instruction) : Beside other a (a.noting other) :=
  ⟨rfl, filter_addReferrer other a.targetedBy⟩

theorem striking (other : InstrId) (a : Instruction) : Beside other a (a.striking other) :=
  ⟨rfl, by simp [Instruction.striking]⟩

/-- A bystander that does not list `other` lists what it listed before. -/
theorem targetedBy_eq (h : Beside other a b) (ha : other ∉ a.targetedBy) (hb : other ∉ b.targetedBy) :
    b.targetedBy = a.targetedBy := by
  have hkept : ∀ ids : List InstrId, other ∉ ids → ids.filter (· != other) = ids := by
    intro ids hids
    refine List.filter_eq_self.mpr fun x hx => bne_iff_ne.mpr fun he => hids (he ▸ hx)
  rw [← hkept _ hb, ← hkept _ ha]
  exact h.jumpers

theorem sec (h : Beside other a b) : b.sec = a.sec := by
  rw [h.eq]

theorem func (h : Beside other a b) : b.func = a.func := by
  rw [h.eq]

theorem target (h : Beside other a b) : b.target = a.target := by
  rw [h.eq]

theorem isDirectTransfer (h : Beside other a b) : b.isDirectTransfer = a.isDirectTransfer := by
  rw [h.eq]
  rfl

theorem references (h : Beside other a b) : b.references = a.references := by
  rw [h.eq]
  rfl

end Instruction.Beside

namespace Chain

variable {chain after middle : Chain} {other id : InstrId}

/-- Every instruction but `other` is a bystander of a change of the chain. -/
def Bypasses (chain after : Chain) (other : InstrId) : Prop :=
  chain.Retains (fun _ a b => a.Beside other b) (· ≠ other) after

theorem Bypasses.refl (chain : Chain) (other : InstrId) : chain.Bypasses chain other :=
  .of_get?_eq (fun _ => .refl other) fun _ _ => rfl

theorem Bypasses.trans (h : chain.Bypasses middle other) (k : middle.Bypasses after other) :
    chain.Bypasses after other :=
  Retains.trans (fun _ _ _ _ => .trans) h k

theorem Bypasses.of_adjust {f : InstrId → Instruction → Instruction}
    (h : ∀ x (i : Instruction), x ≠ other → i.Beside other (f x i)) : chain.Bypasses (chain.adjust f) other :=
  .of_map (f := f) (fun _ _ => get?_adjust) fun x i hx _ => h x i hx

theorem Bypasses.get? {a : Instruction} (h : chain.Bypasses after other) (hid : id ≠ other)
    (ha : chain.get? id = some a) : ∃ b, after.get? id = some b ∧ a.Beside other b :=
  Retains.get? h hid ha

theorem Bypasses.get?_of {b : Instruction} (h : chain.Bypasses after other) (hid : id ≠ other)
    (hb : after.get? id = some b) : ∃ a, chain.get? id = some a ∧ a.Beside other b :=
  Retains.get?_of h hid hb

/-- What is not there before a change that passes it by is not there afterwards. -/
theorem Bypasses.get?_eq_none (h : chain.Bypasses after other) (hid : id ≠ other)
    (hnone : chain.get? id = none) : after.get? id = none := by
  cases hb : after.get? id with
  | none => rfl
  | some b =>
    obtain ⟨a, ha, -⟩ := h.get?_of hid hb
    rw [hnone] at ha
    cases ha

end Chain

namespace ChainM

variable {chain after : Chain} {id dest x : InstrId} {found i : Instruction} {u : Unit}

/-- Where a jumper loses its target, every other instruction stands beside it: at most it loses the jumper
from its list. -/
theorem untargeted_beside (hx : x ≠ id) : i.Beside id (untargeted id found x i) := by
  simp only [untargeted, if_neg hx]
  split
  · exact .striking id i
  · exact .refl id i

/-- Where a jumper gets a target, every other instruction stands beside it: at most it lists the jumper
now. -/
theorem targeted_beside {target : InstrId} (hx : x ≠ id) : i.Beside id (targeted id target found x i) := by
  simp only [targeted, if_neg hx]
  split
  · exact (untargeted_beside hx).trans (.noting id _)
  · exact untargeted_beside hx

/-- Where a jumper gets a table, every other instruction stands beside it, however often the jumper is
struck off and added. -/
theorem tabled_beside {entries : List InstrId} (hx : x ≠ id) :
    i.Beside id (tabled id entries found x i) := by
  have hstruck : i.Beside id (if x ∈ found.jumpTable ∧ found.target ≠ some x then i.striking id else i) := by
    split
    · exact .striking id i
    · exact .refl id i
  simp only [tabled, if_neg hx]
  split
  · exact hstruck.trans (.noting id _)
  · exact hstruck

theorem linkTarget_bypasses {target : InstrId} (h : linkTarget id target chain = .ok u after) :
    chain.Bypasses after id := by
  obtain ⟨found, -, -, rfl⟩ := linkTarget_ok h
  exact .of_adjust fun _ _ => targeted_beside

theorem setJumpTable_bypasses {entries : List InstrId} (h : setJumpTable id entries chain = .ok u after) :
    chain.Bypasses after id := by
  obtain ⟨found, -, -, rfl⟩ := setJumpTable_ok h
  exact .of_adjust fun _ _ => tabled_beside

/-- An instruction that only itself jumps to passes nothing on to its heir but itself. -/
theorem retargetAll_bypasses (hne : id ≠ dest) (h : retargetAll id dest chain = .ok u after)
    (hself : ∀ found, chain.get? id = some found → ∀ jumper ∈ found.targetedBy, jumper = id) :
    chain.Bypasses after id := by
  obtain ⟨found, hfound, -, rfl⟩ := retargetAll_ok hne h
  refine .of_adjust fun x i hx => ?_
  have hmem : x ∉ found.targetedBy := fun hx' => hx (hself found hfound x hx')
  have hnoted : ∀ (jumpers : List InstrId) (i : Instruction), (∀ jumper ∈ jumpers, jumper = id) →
      i.Beside id (jumpers.foldl (fun i jumper => i.noting jumper) i) := by
    intro jumpers
    induction jumpers with
    | nil => exact fun i _ => .refl id i
    | cons jumper jumpers ih =>
      intro i hall
      obtain rfl := hall jumper (List.mem_cons_self ..)
      exact (Instruction.Beside.noting jumper i).trans
        (ih _ fun other hother => hall other (List.mem_cons_of_mem _ hother))
  simp only [movedOver, retargeted, if_neg hmem, Chain.only_ne hx]
  split
  · exact hnoted _ i (hself found hfound)
  · exact .refl id i

/-- An instruction that is freed takes nothing from the others but its own name in their lists. -/
theorem free_bypasses {xs ys : List InstrId} {freed : Instruction}
    (hl : chain.Spells (xs ++ id :: ys)) (h : free id chain = .ok freed after) :
    chain.Bypasses after id := by
  obtain ⟨c₁, c₂, c₃, old, found, found', -, -, -, -, -, hget₃, hget'⟩ := free_run hl h
  refine .of_map (f := fun x i => tabled id [] found' x (untargeted id found x i))
    (fun x hx => ?_) (fun x i hx _ => (untargeted_beside hx).trans (tabled_beside hx))
  rw [hget', if_neg hx, hget₃]

end ChainM

end Splice
