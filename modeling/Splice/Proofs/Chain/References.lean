import Splice.Chain.Edit
import Splice.Proofs.Chain.Order
import Splice.Proofs.Instruction.Likeness

/-!
# Targets and back references

`Listed chain l` says of the instructions of a list that what they refer to is in the list and
lists them as jumpers. Each operation on references is an adjustment of the chain in closed
form (`unlinkTarget_ok`, `linkTarget_ok`, `setJumpTable_ok`, `retargetAll_ok`), and keeps
what is referred to listed (`linkTarget_listed`, `setJumpTable_listed`, `retargetAll_listed`).

The closed forms say where a jumper is struck off and where it is noted. The cases that matter
are those in which it refers to a place in two ways: to clear the target of a jumper that has
the same place in its table leaves it listed there, and to replace its table leaves it listed at
its target.

> `retargetAll_listed`: moving the jumpers of one instruction over to another turns every
> reference to the one into a reference to the other.
-/

namespace Splice

/-- A list has the jumper afterwards, and whom it had before. -/
theorem mem_addReferrer {jumper other : InstrId} {referrers : List InstrId} :
    other ∈ addReferrer jumper referrers ↔ other = jumper ∨ other ∈ referrers := by
  unfold addReferrer
  split
  next h =>
    rw [List.contains_iff_mem] at h
    constructor
    · exact .inr
    · intro h'
      rcases h' with rfl | h'
      · exact h
      · exact h'
  next h => simp [or_comm]

/-- To add a jumper twice is to add it once. -/
theorem addReferrer_idem (jumper : InstrId) (referrers : List InstrId) :
    addReferrer jumper (addReferrer jumper referrers) = addReferrer jumper referrers := by
  have hmem : (addReferrer jumper referrers).contains jumper = true := by
    rw [List.contains_iff_mem, mem_addReferrer]
    exact .inl rfl
  rw [addReferrer, if_pos hmem]

namespace Instruction

/-- The instruction with `jumper` among its jumpers. -/
def noting (jumper : InstrId) (instr : Instruction) : Instruction :=
  { instr with targetedBy := addReferrer jumper instr.targetedBy }

/-- The instruction without `jumper` among its jumpers. -/
def striking (jumper : InstrId) (instr : Instruction) : Instruction :=
  { instr with targetedBy := instr.targetedBy.filter (· != jumper) }

@[simp]
theorem noting_noting (jumper : InstrId) (instr : Instruction) :
    (instr.noting jumper).noting jumper = instr.noting jumper := by
  simp [noting, addReferrer_idem]

@[simp]
theorem striking_striking (jumper : InstrId) (instr : Instruction) :
    (instr.striking jumper).striking jumper = instr.striking jumper := by
  simp [striking]

/-- An instruction refers to exactly what is among its references. -/
theorem refersTo_iff {instr : Instruction} {id : InstrId} :
    instr.refersTo id = true ↔ id ∈ instr.references := by
  cases htarget : instr.target with
  | none => simp [refersTo, references, htarget]
  | some target => simp [refersTo, references, htarget, eq_comm (a := target)]

@[simp]
theorem references_noting (jumper : InstrId) (instr : Instruction) :
    (instr.noting jumper).references = instr.references := rfl

@[simp]
theorem references_striking (jumper : InstrId) (instr : Instruction) :
    (instr.striking jumper).references = instr.references := rfl

/-- To swap one reference for another twice is to do it once. -/
@[simp]
theorem redirectedTo_redirectedTo (instr : Instruction) (source dest : InstrId) :
    (instr.redirectedTo source dest).redirectedTo source dest
      = instr.redirectedTo source dest := by
  have hswap : ∀ id : InstrId, (if (if id = source then dest else id) = source then dest
      else if id = source then dest else id) = if id = source then dest else id := by
    intro id
    by_cases hid : id = source
    · simp [hid]
    · simp [hid]
  cases htarget : instr.target <;>
    simp [redirectedTo, htarget, Function.comp_def, hswap]

@[simp]
theorem redirectedTo_noting (instr : Instruction) (source dest jumper : InstrId) :
    (instr.noting jumper).redirectedTo source dest
      = (instr.redirectedTo source dest).noting jumper := rfl

theorem references_redirectedTo (instr : Instruction) (source dest : InstrId) :
    (instr.redirectedTo source dest).references
      = instr.references.map (swap source dest) := by
  cases htarget : instr.target <;> simp [references, redirectedTo, htarget, swap]

end Instruction

namespace ChainM

variable {chain after : Chain} {jumper target source dest : InstrId} {u : Unit}

/-! ## Closed forms -/

theorem noteReferrer_ok : noteReferrer target jumper chain = .ok u after
    ↔ chain.contains target = true
      ∧ after = chain.adjust (Chain.only target (·.noting jumper)) := by
  rw [noteReferrer, update_ok]
  rfl

/-- A jumper is struck off the list of an instruction that it does not refer to any more. It stays listed
where it still refers to the instruction in another way. -/
theorem dropReferrer_ok (h : dropReferrer target jumper chain = .ok u after) :
    ∃ instr, chain.get? jumper = some instr
      ∧ after = chain.adjust fun x i =>
          if x = target ∧ x ∉ instr.references then i.striking jumper else i := by
  unfold dropReferrer at h
  rw [bind_ok] at h
  obtain ⟨instr, c, hinstr, h⟩ := h
  rw [instr_ok] at hinstr
  obtain ⟨hinstr, rfl⟩ := hinstr
  refine ⟨instr, hinstr, ?_⟩
  by_cases hrefers : instr.refersTo target = true
  · rw [if_pos hrefers, pure_ok] at h
    rw [← h.2]
    refine (Chain.adjust_self fun x i _ => if_neg fun hx => hx.2 ?_).symm
    rw [hx.1]
    exact Instruction.refersTo_iff.mp hrefers
  · rw [if_neg hrefers, modify_ok] at h
    rw [h, Chain.update_eq_adjust (fun i => { i with
      targetedBy := i.targetedBy.filter (· != jumper) })]
    rw [Instruction.refersTo_iff] at hrefers
    refine Chain.adjust_congr fun x i _ => ?_
    by_cases hx : x = target
    · subst hx
      rw [Chain.only_self, if_pos ⟨rfl, hrefers⟩]
      rfl
    · rw [Chain.only_ne hx, if_neg fun h => hx h.1]

/-- Striking a jumper from several lists. -/
theorem dropReferrers_ok {targets : List InstrId} {instr : Instruction}
    (hjumper : chain.get? jumper = some instr)
    (h : targets.forM (fun target => dropReferrer target jumper) chain = .ok u after) :
    after = chain.adjust fun x i =>
      if x ∈ targets ∧ x ∉ instr.references then i.striking jumper else i := by
  induction targets generalizing chain instr with
  | nil =>
    rw [forM_nil_ok] at h
    rw [h]
    exact (Chain.adjust_self fun x i _ => by simp).symm
  | cons target targets ih =>
    rw [forM_cons_ok] at h
    obtain ⟨c, hdrop, h⟩ := h
    obtain ⟨instr', hinstr', rfl⟩ := dropReferrer_ok hdrop
    rw [hjumper, Option.some.injEq] at hinstr'
    subst hinstr'
    -- striking changes neither the target nor the table of the jumper
    have hrefs : ∀ x (i : Instruction),
        (if x = target ∧ x ∉ instr.references then i.striking jumper else i).references
          = i.references := by
      intro x i
      split <;> rfl
    have hjumper' : (chain.adjust fun x i =>
        if x = target ∧ x ∉ instr.references then i.striking jumper else i).get? jumper
        = some (if jumper = target ∧ jumper ∉ instr.references then instr.striking jumper
          else instr) := by
      rw [Chain.get?_adjust, hjumper]
      rfl
    rw [ih hjumper' h, Chain.adjust_adjust, hrefs]
    refine Chain.adjust_congr fun x i _ => ?_
    by_cases hx : x ∈ instr.references
    · simp [hx]
    · by_cases htarget : x = target
      · subst htarget
        simp [hx]
      · simp [htarget]

/-- A change that does nothing more when it is made again reaches each instruction of a list once. -/
theorem updates_ok {f : Instruction → Instruction} {ids : List InstrId} (hf : ∀ instr, f (f instr) = f instr)
    (h : ids.forM (fun id => update id f) chain = .ok u after) :
    (∀ id ∈ ids, chain.contains id = true)
      ∧ after = chain.adjust fun x i => if x ∈ ids then f i else i := by
  induction ids generalizing chain with
  | nil =>
    rw [forM_nil_ok] at h
    refine ⟨fun id hid => absurd hid List.not_mem_nil, ?_⟩
    rw [h]
    exact (Chain.adjust_self fun x i _ => by simp).symm
  | cons id ids ih =>
    rw [forM_cons_ok] at h
    obtain ⟨c, hfirst, h⟩ := h
    rw [update_ok] at hfirst
    obtain ⟨hid, rfl⟩ := hfirst
    obtain ⟨hids, rfl⟩ := ih h
    refine ⟨fun other hother => ?_, ?_⟩
    · rcases List.mem_cons.mp hother with rfl | hin
      · exact hid
      · rw [← Chain.contains_adjust]
        exact hids other hin
    · rw [Chain.adjust_adjust]
      refine Chain.adjust_congr fun x i _ => ?_
      by_cases hx : x = id <;> by_cases hin : x ∈ ids <;> simp [Chain.only, hx, hin, hf]

/-- Noting a jumper in several lists. -/
theorem noteReferrers_ok {targets : List InstrId}
    (h : targets.forM (fun target => noteReferrer target jumper) chain = .ok u after) :
    after = chain.adjust fun x i => if x ∈ targets then i.noting jumper else i :=
  (updates_ok (Instruction.noting_noting jumper) h).2

/-- What becomes of the instructions when the target of `jumper` is cleared. -/
def untargeted (jumper : InstrId) (found : Instruction) (x : InstrId) (i : Instruction) :
    Instruction :=
  let i := if x = jumper then { i with target := none } else i
  if found.target = some x ∧ x ∉ found.jumpTable then i.striking jumper else i

/-- When a target is cleared, the jumper is struck off at that target unless its table leads there too. -/
theorem unlinkTarget_ok {old : Option InstrId} (h : unlinkTarget jumper chain = .ok old after) :
    ∃ found, chain.get? jumper = some found ∧ old = found.target
      ∧ after = chain.adjust (untargeted jumper found) := by
  simp only [unlinkTarget, bind_ok, instr_ok, update_ok] at h
  obtain ⟨found, _, ⟨hfound, rfl⟩, _, c₁, ⟨-, rfl⟩, h⟩ := h
  refine ⟨found, hfound, ?_⟩
  cases htarget : found.target with
  | none =>
    rw [htarget] at h
    obtain ⟨rfl, rfl⟩ := pure_ok.mp h
    refine ⟨rfl, Chain.adjust_congr fun x i _ => ?_⟩
    simp [Chain.only, untargeted, htarget]
  | some target =>
    rw [htarget] at h
    simp only [bind_ok, pure_ok] at h
    obtain ⟨_, _, hdrop, rfl, rfl⟩ := h
    obtain ⟨instr, hinstr, rfl⟩ := dropReferrer_ok hdrop
    rw [Chain.get?_adjust, hfound, Option.map_some, Option.some.injEq, Chain.only_self] at hinstr
    subst hinstr
    refine ⟨rfl, ?_⟩
    rw [Chain.adjust_adjust]
    refine Chain.adjust_congr fun x i _ => ?_
    simp [Chain.only, untargeted, htarget, Instruction.references, eq_comm]

/-- What becomes of the instructions when `jumper` is pointed at `target`. -/
def targeted (jumper target : InstrId) (found : Instruction) (x : InstrId) (i : Instruction) :
    Instruction :=
  let i := untargeted jumper found x i
  let i := if x = jumper then { i with target := some target } else i
  if x = target then i.noting jumper else i

/-- When a jumper is pointed at a target, it is struck off at the old target and noted at the new one. -/
theorem linkTarget_ok (h : linkTarget jumper target chain = .ok u after) :
    ∃ found, chain.get? jumper = some found ∧ chain.contains target = true
      ∧ after = chain.adjust (targeted jumper target found) := by
  simp only [linkTarget, bind_ok, node_ok, update_ok, noteReferrer_ok] at h
  obtain ⟨node, _, ⟨hnode, rfl⟩, old, c₁, hunlink, _, c₂, ⟨-, rfl⟩, -, rfl⟩ := h
  obtain ⟨found, hfound, -, rfl⟩ := unlinkTarget_ok hunlink
  refine ⟨found, hfound, by simp [Chain.contains, hnode], ?_⟩
  rw [Chain.adjust_adjust, Chain.adjust_adjust]
  rfl

/-- What becomes of the instructions when the table of `jumper` is replaced. -/
def tabled (jumper : InstrId) (entries : List InstrId) (found : Instruction) (x : InstrId)
    (i : Instruction) : Instruction :=
  let i := if x ∈ found.jumpTable ∧ found.target ≠ some x then i.striking jumper else i
  let i := if x ∈ entries then i.noting jumper else i
  if x = jumper then { i with jumpTable := entries } else i

/-- Asking for several instructions that have to be present. -/
theorem nodes_ok {entries : List InstrId}
    (h : entries.forM (fun entry => discard (node entry)) chain = .ok u after) :
    after = chain ∧ ∀ entry ∈ entries, chain.contains entry = true := by
  induction entries with
  | nil => exact ⟨forM_nil_ok.mp h, by simp⟩
  | cons entry entries ih =>
    simp only [forM_cons_ok, discard_ok, node_ok] at h
    obtain ⟨_, ⟨node, hnode, rfl⟩, h⟩ := h
    obtain ⟨hafter, hrest⟩ := ih h
    refine ⟨hafter, fun other hother => ?_⟩
    rcases List.mem_cons.mp hother with hentry | hother
    · simp [hentry, Chain.contains, hnode]
    · exact hrest other hother

/-- When a table is replaced, the jumper is struck off at the entries of the old table, unless it is its
target, and noted at those of the new one. -/
theorem setJumpTable_ok {entries : List InstrId}
    (h : setJumpTable jumper entries chain = .ok u after) :
    ∃ found, chain.get? jumper = some found ∧ (∀ entry ∈ entries, chain.contains entry = true)
      ∧ after = chain.adjust (tabled jumper entries found) := by
  simp only [setJumpTable, bind_ok, instr_ok, update_ok] at h
  obtain ⟨_, c₀, hpresent, found, c₀', ⟨hfound, heq⟩, _, c₁, ⟨-, rfl⟩, _, c₂, hdrop, _, c₃, hnote,
    -, rfl⟩ := h
  subst heq
  obtain ⟨rfl, hentries⟩ := nodes_ok hpresent
  refine ⟨found, hfound, hentries, ?_⟩
  have hjumper : (c₀'.adjust (Chain.only jumper fun i => { i with jumpTable := [] })).get? jumper
      = some { found with jumpTable := [] } := by
    rw [Chain.get?_adjust, hfound]
    simp [Chain.only]
  rw [noteReferrers_ok hnote, dropReferrers_ok hjumper hdrop, Chain.adjust_adjust,
    Chain.adjust_adjust, Chain.adjust_adjust]
  refine Chain.adjust_congr fun x i _ => ?_
  have hrefs : x ∉ ({ found with jumpTable := [] } : Instruction).references
      ↔ found.target ≠ some x := by
    simp [Instruction.references]
  simp only [hrefs, tabled, Chain.only]
  by_cases hx : x = jumper
  · subst hx
    by_cases hold : x ∈ found.jumpTable ∧ found.target ≠ some x <;>
      by_cases hnew : x ∈ entries <;>
      simp [hold, hnew, Instruction.striking, Instruction.noting]
  · simp [hx]

/-- What becomes of the instructions when `jumpers` are moved over to `dest`. -/
def retargeted (source dest : InstrId) (jumpers : List InstrId) (x : InstrId) (i : Instruction) :
    Instruction :=
  let i := if x ∈ jumpers then i.redirectedTo source dest else i
  if x = dest then jumpers.foldl (fun i jumper => i.noting jumper) i else i

/-- The loop that moves jumpers over redirects each of them and notes it, one at a time. The induction is
on the jumpers. -/
theorem retargetLoop_ok {jumpers : List InstrId}
    (h : (jumpers.forM fun jumper => do
      update jumper (·.redirectedTo source dest)
      noteReferrer dest jumper : ChainM Unit) chain = .ok u after) :
    after = chain.adjust (retargeted source dest jumpers) := by
  -- `dest` collects the jumpers, all others are redirected; it may be one of them
  induction jumpers generalizing chain with
  | nil =>
    rw [forM_nil_ok] at h
    rw [h]
    exact (Chain.adjust_self fun x i _ => by simp [retargeted]).symm
  | cons jumper jumpers ih =>
    simp only [forM_cons_ok, bind_ok, update_ok, noteReferrer_ok] at h
    obtain ⟨_, ⟨_, _, ⟨-, rfl⟩, -, rfl⟩, h⟩ := h
    rw [ih h, Chain.adjust_adjust, Chain.adjust_adjust]
    refine Chain.adjust_congr fun x i _ => ?_
    by_cases hdest : x = dest
    · subst hdest
      by_cases hx : x = jumper <;> by_cases hrest : x ∈ jumpers <;>
        simp [retargeted, Chain.only, hx, hrest]
    · by_cases hx : x = jumper
      · subst hx
        by_cases hrest : x ∈ jumpers <;> simp [retargeted, Chain.only, hrest, hdest]
      · simp [retargeted, Chain.only, hx, hdest]

/-- What becomes of the instructions when all jumpers of `source`, which are `jumpers`, are moved over to
`dest`. -/
def movedOver (source dest : InstrId) (jumpers : List InstrId) (x : InstrId) (i : Instruction) :
    Instruction :=
  retargeted source dest jumpers x (Chain.only source (fun i => { i with targetedBy := [] }) x i)

/-- When jumpers are moved over, the instruction that they referred to has nobody left on its list. -/
theorem retargetAll_ok (hne : source ≠ dest) (h : retargetAll source dest chain = .ok u after) :
    ∃ found, chain.get? source = some found ∧ chain.contains dest = true
      ∧ after = chain.adjust (movedOver source dest found.targetedBy) := by
  simp only [retargetAll, if_neg hne, bind_ok, node_ok, instr_ok, update_ok] at h
  obtain ⟨node, _, ⟨hnode, rfl⟩, found, _, ⟨hfound, rfl⟩, _, c, ⟨-, rfl⟩, h⟩ := h
  rw [retargetLoop_ok h, Chain.adjust_adjust]
  exact ⟨found, hfound, by simp [Chain.contains, hnode], rfl⟩

end ChainM

/-! ## Jumpers that are listed -/

namespace Chain

/-- What the instructions of a list refer to is in the list, and lists them as jumpers. -/
def Listed (chain : Chain) (l : List InstrId) : Prop :=
  ∀ jumper ∈ l, ∀ instr, chain.get? jumper = some instr → ∀ target ∈ instr.references,
    target ∈ l ∧ ∃ found, chain.get? target = some found ∧ jumper ∈ found.targetedBy

variable {chain after : Chain} {l l' : List InstrId} {f : InstrId → Instruction → Instruction}
  {r : InstrId → Instruction → Instruction → Prop}

/-- An adjustment keeps a list closed and noted if whatever its members refer to afterwards is in it and
lists them. -/
theorem listed_adjust (h : ∀ jumper ∈ l, ∀ instr, chain.get? jumper = some instr →
      ∀ target ∈ (f jumper instr).references, target ∈ l
        ∧ ∃ found, chain.get? target = some found ∧ jumper ∈ (f target found).targetedBy) :
    (chain.adjust f).Listed l := by
  intro jumper hjumper instr hinstr target htarget
  rw [get?_adjust, Option.map_eq_some_iff] at hinstr
  obtain ⟨old, hold, rfl⟩ := hinstr
  obtain ⟨hmem, found, hfound, hby⟩ := h jumper hjumper old hold target htarget
  exact ⟨hmem, f target found, by rw [get?_adjust, hfound]; rfl, hby⟩

theorem eq_of_get? {id other : InstrId} {found instr : Instruction} (hfound : chain.get? id = some found)
    (hinstr : chain.get? other = some instr) (he : other = id) : instr = found := by
  rw [he, hfound] at hinstr
  exact (Option.some.inj hinstr).symm

/-- Changes that concern neither side. -/
theorem Listed.evolve (h : chain.Listed l) (he : Evolves r chain after)
    (hrefs : ∀ id a b, r id a b → b.references = a.references)
    (hby : ∀ id a b, r id a b → b.targetedBy = a.targetedBy) : after.Listed l := by
  obtain ⟨f, rfl, hf⟩ := he
  refine listed_adjust fun jumper hjumper instr hinstr target htarget => ?_
  rw [hrefs _ _ _ (hf jumper instr hinstr)] at htarget
  obtain ⟨hmem, found, hfound, hin⟩ := h jumper hjumper instr hinstr target htarget
  refine ⟨hmem, found, hfound, ?_⟩
  rw [hby _ _ _ (hf target found hfound)]
  exact hin

/-- A new instruction refers to nothing yet. -/
theorem Listed.insert (h : chain.Listed l) {new : InstrId} {instr : Instruction}
    (hget : ∀ x, after.get? x = if x = new then some instr else chain.get? x)
    (hrefs : instr.references = []) (hnew : new ∉ l)
    (hl : ∀ x, x ∈ l' ↔ x = new ∨ x ∈ l) : after.Listed l' := by
  intro jumper hjumper i hi target htarget
  rw [hget] at hi
  by_cases hj : jumper = new
  · rw [if_pos hj, Option.some.injEq] at hi
    rw [← hi, hrefs] at htarget
    cases htarget
  · rw [if_neg hj] at hi
    have hold : jumper ∈ l := ((hl jumper).mp hjumper).resolve_left hj
    obtain ⟨hmem, found, hfound, hby⟩ := h jumper hold i hi target htarget
    have hne : target ≠ new := fun he => hnew (he ▸ hmem)
    exact ⟨(hl target).mpr (.inr hmem), found, by rw [hget, if_neg hne, hfound], hby⟩

/-- An instruction that nothing else refers to is taken out. -/
theorem Listed.without (h : chain.Listed l) {id : InstrId}
    (hget : ∀ x, after.get? x = if x = id then none else chain.get? x)
    (hunused : ∀ jumper ∈ l, jumper ≠ id → ∀ instr, chain.get? jumper = some instr →
      id ∉ instr.references)
    (hl : ∀ x, x ∈ l' ↔ x ∈ l ∧ x ≠ id) : after.Listed l' := by
  intro jumper hjumper instr hinstr target htarget
  obtain ⟨hold, hne⟩ := (hl jumper).mp hjumper
  rw [hget, if_neg hne] at hinstr
  obtain ⟨hmem, found, hfound, hby⟩ := h jumper hold instr hinstr target htarget
  have htarget' : target ≠ id := fun he => hunused jumper hold hne instr hinstr (he ▸ htarget)
  exact ⟨(hl target).mpr ⟨hmem, htarget'⟩, found, by rw [hget, if_neg htarget', hfound], hby⟩

end Chain

namespace ChainM

variable {chain after : Chain} {l : List InstrId} {jumper target source dest x t : InstrId}
  {entries jumpers : List InstrId} {found i ti : Instruction} {u : Unit}

/-- Without a target, a jumper refers to the entries of its table only. -/
theorem references_untargeted : (untargeted jumper found x i).references
    = if x = jumper then i.jumpTable else i.references := by
  unfold untargeted
  by_cases hx : x = jumper
  · simp only [hx, if_true]
    split <;> rfl
  · simp only [hx, if_false]
    split <;> rfl

/-- When a target is cleared, nothing changes on any list but that of the target, which loses the jumper
if its table does not lead there. -/
theorem mem_targetedBy_untargeted {other : InstrId} :
    other ∈ (untargeted jumper found x i).targetedBy
      ↔ other ∈ i.targetedBy
        ∧ ¬ (other = jumper ∧ found.target = some x ∧ x ∉ found.jumpTable) := by
  have hby : (untargeted jumper found x i).targetedBy
      = if found.target = some x ∧ x ∉ found.jumpTable then i.targetedBy.filter (· != jumper)
        else i.targetedBy := by
    unfold untargeted
    split <;> split <;> rfl
  rw [hby]
  split <;> grind

/-- To clear a target adds no reference. -/
theorem mem_references_untargeted (h : t ∈ (untargeted jumper found x i).references) :
    t ∈ i.references := by
  rw [references_untargeted] at h
  split at h
  · exact List.mem_append_right _ h
  · exact h

/-- What an instruction still refers to when the target of `jumper` is cleared keeps it listed. -/
theorem listed_untargeted (hself : x = jumper → i = found)
    (h : t ∈ (untargeted jumper found x i).references) (hby : x ∈ ti.targetedBy) :
    x ∈ (untargeted jumper found t ti).targetedBy := by
  rw [references_untargeted] at h
  rw [mem_targetedBy_untargeted]
  refine ⟨hby, fun hstruck => hstruck.2.2 ?_⟩
  rwa [if_pos hstruck.1, hself hstruck.1] at h

/-- The instructions that list what refers to them still do when a target was cleared. -/
theorem unlinkTarget_listed {old : Option InstrId} (hl : chain.Listed l)
    (h : unlinkTarget jumper chain = .ok old after) : after.Listed l := by
  obtain ⟨found, hfound, -, rfl⟩ := unlinkTarget_ok h
  refine Chain.listed_adjust fun other hother instr hinstr t ht => ?_
  obtain ⟨hmem, ti, hti, hby⟩ := hl other hother instr hinstr t (mem_references_untargeted ht)
  exact ⟨hmem, ti, hti, listed_untargeted (Chain.eq_of_get? hfound hinstr) ht hby⟩

/-- A jumper that was given a target refers to it in front of its table. -/
theorem references_targeted : (targeted jumper target found x i).references
    = if x = jumper then target :: i.jumpTable else i.references := by
  unfold targeted untargeted
  by_cases hx : x = jumper
  · simp only [hx, if_true]
    split <;> split <;> rfl
  · simp only [hx, if_false]
    split <;> split <;> rfl

/-- When a jumper is pointed at a target, the lists change at two places: the old target loses it, and the
new one has it. -/
theorem mem_targetedBy_targeted {other : InstrId} :
    other ∈ (targeted jumper target found x i).targetedBy
      ↔ (other = jumper ∧ x = target) ∨ (other ∈ i.targetedBy
        ∧ ¬ (other = jumper ∧ found.target = some x ∧ x ∉ found.jumpTable)) := by
  have hset : (targeted jumper target found x i).targetedBy
      = if x = target then addReferrer jumper (untargeted jumper found x i).targetedBy
        else (untargeted jumper found x i).targetedBy := by
    unfold targeted
    split <;> split <;> rfl
  rw [hset]
  split
  next hx =>
    rw [mem_addReferrer, mem_targetedBy_untargeted]
    grind
  next hx =>
    rw [mem_targetedBy_untargeted]
    grind

/-- A jumper that was given a target refers to that, and else to what it referred to before. -/
theorem mem_references_targeted (h : t ∈ (targeted jumper target found x i).references) :
    t = target ∨ t ∈ i.references := by
  rw [references_targeted] at h
  split at h
  · exact (List.mem_cons.mp h).imp_right (List.mem_append_right _)
  · exact .inr h

/-- What an instruction refers to when `jumper` is pointed at `target` lists it. -/
theorem listed_targeted (hself : x = jumper → i = found)
    (h : t ∈ (targeted jumper target found x i).references) (hby : t ∈ i.references → x ∈ ti.targetedBy) :
    x ∈ (targeted jumper target found t ti).targetedBy := by
  rw [references_targeted] at h
  rw [mem_targetedBy_targeted]
  by_cases hx : x = jumper
  · rw [if_pos hx] at h
    rcases List.mem_cons.mp h with htarget | hentry
    · exact .inl ⟨hx, htarget⟩
    · refine .inr ⟨hby (List.mem_append_right _ hentry), fun hstruck => hstruck.2.2 ?_⟩
      rwa [← hself hx]
  · rw [if_neg hx] at h
    exact .inr ⟨hby h, fun hstruck => hx hstruck.1⟩

/-- The instructions that list what refers to them still do when a jumper was pointed at a target among
them. -/
theorem linkTarget_listed (hl : chain.Listed l) (htarget : target ∈ l)
    (h : linkTarget jumper target chain = .ok u after) : after.Listed l := by
  obtain ⟨found, hfound, hpresent, rfl⟩ := linkTarget_ok h
  refine Chain.listed_adjust fun other hother instr hinstr t ht => ?_
  have hself := Chain.eq_of_get? hfound hinstr
  by_cases hrefers : t ∈ instr.references
  · obtain ⟨hmem, ti, hti, hby⟩ := hl other hother instr hinstr t hrefers
    exact ⟨hmem, ti, hti, listed_targeted hself ht fun _ => hby⟩
  · have htt : t = target := (mem_references_targeted ht).resolve_right hrefers
    rw [Chain.contains_eq_isSome_get?, Option.isSome_iff_exists] at hpresent
    obtain ⟨ti, hti⟩ := hpresent
    exact ⟨htt ▸ htarget, ti, htt ▸ hti, listed_targeted hself ht fun h => absurd h hrefers⟩

/-- A jumper with a new table refers to its target and to the entries of that. -/
theorem references_tabled : (tabled jumper entries found x i).references
    = if x = jumper then i.target.toList ++ entries else i.references := by
  unfold tabled
  by_cases hx : x = jumper
  · simp only [hx, if_true]
    split <;> split <;> rfl
  · simp only [hx, if_false]
    split <;> split <;> rfl

/-- When a table is replaced, the entries of the old table that the jumper does not refer to any more lose
it, and those of the new one have it. -/
theorem mem_targetedBy_tabled {other : InstrId} :
    other ∈ (tabled jumper entries found x i).targetedBy
      ↔ (other = jumper ∧ x ∈ entries) ∨ (other ∈ i.targetedBy
        ∧ ¬ (other = jumper ∧ x ∈ found.jumpTable ∧ found.target ≠ some x)) := by
  have hset : (tabled jumper entries found x i).targetedBy
      = (if x ∈ entries then addReferrer jumper else id)
          (if x ∈ found.jumpTable ∧ found.target ≠ some x then i.targetedBy.filter (· != jumper)
            else i.targetedBy) := by
    unfold tabled
    split <;> split <;> split <;> rfl
  rw [hset]
  split
  next hx =>
    rw [mem_addReferrer]
    split <;> grind
  next hx =>
    rw [id_eq]
    split <;> grind

/-- A jumper with a new table refers to entries of that, and else to what it referred to before. -/
theorem mem_references_tabled (h : t ∈ (tabled jumper entries found x i).references) :
    t ∈ entries ∨ t ∈ i.references := by
  rw [references_tabled] at h
  split at h
  · exact (List.mem_append.mp h).symm.imp_right (List.mem_append_left _)
  · exact .inr h

/-- What an instruction refers to when the table of `jumper` is replaced lists it. -/
theorem listed_tabled (hself : x = jumper → i = found)
    (h : t ∈ (tabled jumper entries found x i).references) (hby : t ∈ i.references → x ∈ ti.targetedBy) :
    x ∈ (tabled jumper entries found t ti).targetedBy := by
  rw [references_tabled] at h
  rw [mem_targetedBy_tabled]
  by_cases hx : x = jumper
  · rw [if_pos hx] at h
    rcases List.mem_append.mp h with htarget | hentry
    · refine .inr ⟨hby (List.mem_append_left _ htarget), fun hstruck => hstruck.2.2 ?_⟩
      rw [← hself hx]
      exact Option.mem_toList.mp htarget
    · exact .inl ⟨hx, hentry⟩
  · rw [if_neg hx] at h
    exact .inr ⟨hby h, fun hstruck => hx hstruck.1⟩

/-- The instructions that list what refers to them still do when a table with entries among them was put
in. -/
theorem setJumpTable_listed (hl : chain.Listed l) (hentries : ∀ entry ∈ entries, entry ∈ l)
    (h : setJumpTable jumper entries chain = .ok u after) : after.Listed l := by
  obtain ⟨found, hfound, hpresent, rfl⟩ := setJumpTable_ok h
  refine Chain.listed_adjust fun other hother instr hinstr t ht => ?_
  have hself := Chain.eq_of_get? hfound hinstr
  by_cases hrefers : t ∈ instr.references
  · obtain ⟨hmem, ti, hti, hby⟩ := hl other hother instr hinstr t hrefers
    exact ⟨hmem, ti, hti, listed_tabled hself ht fun _ => hby⟩
  · have hentry : t ∈ entries := (mem_references_tabled ht).resolve_right hrefers
    have hti := hpresent t hentry
    rw [Chain.contains_eq_isSome_get?, Option.isSome_iff_exists] at hti
    obtain ⟨ti, hti⟩ := hti
    exact ⟨hentries t hentry, ti, hti, listed_tabled hself ht fun h => absurd h hrefers⟩

theorem untargeted_relinked : i.Relinked (untargeted jumper found x i)
    ∧ (x ≠ jumper → (untargeted jumper found x i).target = i.target) := by
  unfold untargeted
  split <;> split <;> exact ⟨rfl, fun _ => by first | rfl | contradiction⟩

/-- To point a jumper at a target changes no target but its own, and references only. -/
theorem targeted_relinked : i.Relinked (targeted jumper target found x i)
    ∧ (x ≠ jumper → (targeted jumper target found x i).target = i.target) := by
  have h : i.Relinked (untargeted jumper found x i)
      ∧ (x ≠ jumper → (untargeted jumper found x i).target = i.target) := untargeted_relinked
  refine ⟨h.1.trans ?_, fun hx => ?_⟩
  · unfold targeted
    split <;> split <;> exact rfl
  · rw [← h.2 hx]
    unfold targeted
    simp only [if_neg hx]
    split <;> rfl

theorem tabled_relinked : i.Relinked (tabled jumper entries found x i)
    ∧ (tabled jumper entries found x i).target = i.target := by
  unfold tabled
  split <;> split <;> split <;> exact ⟨rfl, rfl⟩

/-- Moving jumpers over changes, but for the lists of jumpers, only those that move. -/
theorem retargeted_eq : retargeted source dest jumpers x i
    = { (if x ∈ jumpers then i.redirectedTo source dest else i) with
        targetedBy := (retargeted source dest jumpers x i).targetedBy } := by
  have hfold : ∀ (list : List InstrId) (i : Instruction),
      list.foldl (fun i jumper => i.noting jumper) i
        = { i with targetedBy := (list.foldl (fun i jumper => i.noting jumper) i).targetedBy } := by
    intro list
    induction list with
    | nil => exact fun i => rfl
    | cons jumper list ih => exact fun i => ih (i.noting jumper)
  unfold retargeted
  by_cases hdest : x = dest
  · simp only [hdest, if_true]
    exact hfold jumpers _
  · simp only [hdest, if_false]

/-- When jumpers are moved over, what they refer to is what they referred to, with the one instruction
swapped for the other. -/
theorem references_retargeted : (retargeted source dest jumpers x i).references
    = if x ∈ jumpers then i.references.map (swap source dest) else i.references := by
  rw [retargeted_eq]
  split
  · exact Instruction.references_redirectedTo i source dest
  · rfl

/-- When jumpers are moved over, the list of the other instruction has them too, and no list loses
anybody. -/
theorem mem_targetedBy_retargeted {other : InstrId} :
    other ∈ (retargeted source dest jumpers x i).targetedBy
      ↔ (x = dest ∧ other ∈ jumpers) ∨ other ∈ i.targetedBy := by
  have hfold : ∀ (list : List InstrId) (i : Instruction),
      other ∈ (list.foldl (fun i jumper => i.noting jumper) i).targetedBy
        ↔ other ∈ list ∨ other ∈ i.targetedBy := by
    intro list
    induction list with
    | nil => simp
    | cons jumper list ih =>
      intro i
      rw [List.foldl_cons, ih, Instruction.noting, mem_addReferrer, List.mem_cons]
      grind
  have hby : (if x ∈ jumpers then i.redirectedTo source dest else i).targetedBy
      = i.targetedBy := by
    split <;> rfl
  unfold retargeted
  by_cases hdest : x = dest
  · simp only [hdest, if_true, true_and] at hby ⊢
    rw [hfold, hby]
  · simp only [hdest, if_false, false_and, false_or, hby]

/-- To move jumpers over changes nothing of an instruction but references. -/
theorem retargetAll_relinked (hne : source ≠ dest) (h : retargetAll source dest chain = .ok u after) :
    chain.Evolves (fun _ a b => a.Relinked b) after := by
  obtain ⟨found, -, -, rfl⟩ := retargetAll_ok hne h
  refine Chain.Evolves.of_adjust fun x i _ => ?_
  have hcleared : i.Relinked (Chain.only source (fun i => { i with targetedBy := [] }) x i) := by
    unfold Chain.only
    split <;> exact rfl
  refine hcleared.trans ?_
  rw [movedOver, retargeted_eq]
  split <;> exact rfl

/-- When all jumpers of an instruction are moved over, their references have it swapped for the
other one. -/
theorem references_movedOver : (movedOver source dest jumpers x i).references
    = if x ∈ jumpers then i.references.map (swap source dest) else i.references := by
  have hcleared : (Chain.only source (fun i => { i with targetedBy := [] }) x i).references
      = i.references := by
    unfold Chain.only
    split <;> rfl
  rw [movedOver, references_retargeted, hcleared]

/-- When all jumpers of an instruction are moved over, its own list is empty, and the list of the other
one has them too. -/
theorem mem_targetedBy_movedOver {other : InstrId} :
    other ∈ (movedOver source dest jumpers x i).targetedBy
      ↔ (x = dest ∧ other ∈ jumpers) ∨ (x ≠ source ∧ other ∈ i.targetedBy) := by
  rw [movedOver, mem_targetedBy_retargeted]
  by_cases hx : x = source
  · subst hx
    simp [Chain.only_self]
  · simp [Chain.only_ne hx, hx]

/-- If all that refer to `source` move, every reference to it becomes one to `dest`. -/
theorem references_movedOver_of_listed (hmoves : source ∈ i.references → x ∈ jumpers) :
    (movedOver source dest jumpers x i).references = i.references.map (swap source dest) := by
  rw [references_movedOver]
  split
  next => rfl
  next hnot => rw [map_swap_of_not_mem fun hrefers => hnot (hmoves hrefers)]

/-- To move jumpers over adds no reference but to the instruction that they are moved to. -/
theorem mem_references_movedOver (h : t ∈ (movedOver source dest jumpers x i).references) :
    t = dest ∨ t ∈ i.references := by
  rw [references_movedOver] at h
  split at h
  · obtain ⟨v, hv, rfl⟩ := List.mem_map.mp h
    by_cases hsource : v = source
    · rw [hsource, swap_self]
      exact .inl rfl
    · rw [swap_of_ne hsource]
      exact .inr hv
  · exact .inr h

/-- What an instruction refers to when the jumpers of `source` are moved over lists it. -/
theorem listed_movedOver (hmoves : source ∈ i.references → x ∈ jumpers)
    (h : t ∈ (movedOver source dest jumpers x i).references)
    (hby : t ∈ i.references → x ∈ ti.targetedBy) :
    x ∈ (movedOver source dest jumpers t ti).targetedBy := by
  rw [references_movedOver_of_listed hmoves, List.mem_map] at h
  obtain ⟨v, hv, rfl⟩ := h
  rw [mem_targetedBy_movedOver]
  by_cases hsource : v = source
  · rw [hsource, swap_self]
    exact .inl ⟨rfl, hmoves (hsource ▸ hv)⟩
  · rw [swap_of_ne hsource] at hby ⊢
    exact .inr ⟨hsource, hby hv⟩

/-- Moving the jumpers of `source` over turns every reference to it into one to `dest`. -/
theorem retargetAll_listed (hl : chain.Listed l) (hne : source ≠ dest) (hdest : dest ∈ l)
    (h : retargetAll source dest chain = .ok u after) :
    after.Listed l
      ∧ (∀ jumper ∈ l, ∀ instr, after.get? jumper = some instr → source ∉ instr.references)
      ∧ chain.Evolves (fun x a b => x ∈ l → b.target = a.target.map (swap source dest)) after := by
  obtain ⟨found, hfound, hpresent, rfl⟩ := retargetAll_ok hne h
  -- whatever refers to `source` is moved over, because `source` lists it
  have hmoves : ∀ jumper ∈ l, ∀ instr, chain.get? jumper = some instr →
      source ∈ instr.references → jumper ∈ found.targetedBy := by
    intro jumper hjumper instr hinstr hrefers
    obtain ⟨-, found', hfound', hby⟩ := hl jumper hjumper instr hinstr source hrefers
    exact Chain.eq_of_get? hfound hfound' rfl ▸ hby
  refine ⟨?_, ?_, ?_⟩
  · refine Chain.listed_adjust fun jumper hjumper instr hinstr t ht => ?_
    have hmove := hmoves jumper hjumper instr hinstr
    by_cases hrefers : t ∈ instr.references
    · obtain ⟨hmem, ti, hti, hby⟩ := hl jumper hjumper instr hinstr t hrefers
      exact ⟨hmem, ti, hti, listed_movedOver hmove ht fun _ => hby⟩
    · have htt : t = dest := (mem_references_movedOver ht).resolve_right hrefers
      rw [Chain.contains_eq_isSome_get?, Option.isSome_iff_exists] at hpresent
      obtain ⟨ti, hti⟩ := hpresent
      exact ⟨htt ▸ hdest, ti, htt ▸ hti, listed_movedOver hmove ht fun h => absurd h hrefers⟩
  · intro jumper hjumper instr hinstr hrefers
    rw [Chain.get?_adjust, Option.map_eq_some_iff] at hinstr
    obtain ⟨old, hold, rfl⟩ := hinstr
    rw [references_movedOver_of_listed (hmoves jumper hjumper old hold), List.mem_map] at hrefers
    obtain ⟨v, -, hv⟩ := hrefers
    exact swap_ne hne v hv
  · refine Chain.Evolves.of_adjust fun x i hi hx => ?_
    have htarget : (Chain.only source (fun i => { i with targetedBy := [] }) x i).target
        = i.target := by
      unfold Chain.only
      split <;> rfl
    rw [movedOver, retargeted_eq]
    split
    next => exact congrArg (Option.map (swap source dest)) htarget
    next hnot =>
      show (Chain.only _ _ _ _).target = _
      rw [htarget]
      cases ht : i.target with
      | none => rfl
      | some t =>
        have hts : t ≠ source := by
          intro he
          exact hnot (hmoves x hx i hi (by simp [Instruction.references, ht, he]))
        rw [Option.map_some, swap_of_ne hts]

end ChainM

end Splice
