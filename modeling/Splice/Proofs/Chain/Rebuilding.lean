import Splice.Proofs.Chain.CrossReferences

/-!
# Lists of jumpers from scratch

The lists of jumpers can be computed anew from targets and tables: all of them are emptied, and
then each instruction is noted wherever it refers to. When the instructions of `done` were noted,
exactly they are listed at what they refer to (`Renoted`); in the end both sides of all
references agree (`rebuildReferences_run`). It fails only where something is referred to that is
not present.

References are noted anew only when code is loaded: a decoder delivers targets and tables and no
lists of jumpers. `Renoted` is the invariant of the pass over the linked instructions, with
those that are done as its argument; the step notes one instruction at everything that it refers
to, target and table entries alike, and an instruction that refers to a place twice is noted
once.
-/

namespace Splice

/-- The instruction with no jumpers. -/
def Instruction.unlisted (instr : Instruction) : Instruction := { instr with targetedBy := [] }

/-- The instruction with another list of jumpers. -/
def Instruction.Relisted (a b : Instruction) : Prop :=
  ∃ jumpers, b = { a with targetedBy := jumpers }

namespace Instruction.Relisted

variable {a b c : Instruction}

theorem refl (a : Instruction) : a.Relisted a := ⟨a.targetedBy, rfl⟩

/-- Two changes of the list of jumpers are one. -/
theorem trans (hab : a.Relisted b) (hbc : b.Relisted c) : a.Relisted c := by
  obtain ⟨_, rfl⟩ := hab
  obtain ⟨jumpers, rfl⟩ := hbc
  exact ⟨jumpers, rfl⟩

theorem references (h : a.Relisted b) : b.references = a.references := by
  obtain ⟨_, rfl⟩ := h
  rfl

end Instruction.Relisted

namespace ChainM

variable {chain after : Chain} {ids done : List InstrId} {jumper : InstrId} {u : Unit}

/-- The instructions of `done`, and nobody else, are listed at what they refer to, which is present. -/
structure Renoted (chain : Chain) (done : List InstrId) : Prop where
  listed : ∀ {id instr jumper}, chain.get? id = some instr →
    (jumper ∈ instr.targetedBy ↔ jumper ∈ done ∧ ∃ source, chain.get? jumper = some source
      ∧ id ∈ source.references)
  present : ∀ {jumper source}, jumper ∈ done → chain.get? jumper = some source →
    ∀ target ∈ source.references, chain.contains target = true

/-- Where all lists are empty, nobody has been noted yet. -/
theorem Renoted.start (h : ∀ {id instr}, chain.get? id = some instr → instr.targetedBy = []) :
    Renoted chain [] where
  listed hinstr := by
    rw [h hinstr]
    simp
  present hjumper := absurd hjumper List.not_mem_nil

/-- Other lists of jumpers leave what is referred to. -/
theorem refers_relisted {id : InstrId} (h : chain.Evolves (fun _ a b => a.Relisted b) after) :
    (∃ source, after.get? jumper = some source ∧ id ∈ source.references)
      ↔ ∃ source, chain.get? jumper = some source ∧ id ∈ source.references := by
  constructor
  · intro hrefers
    obtain ⟨source', hsource', hid⟩ := hrefers
    obtain ⟨source, hsource, hsame⟩ := h.get?_of hsource'
    exact ⟨source, hsource, hsame.references ▸ hid⟩
  · intro hrefers
    obtain ⟨source, hsource, hid⟩ := hrefers
    obtain ⟨source', hsource', hsame⟩ := h.get? hsource
    exact ⟨source', hsource', hsame.references ▸ hid⟩

/-- One more instruction is noted. -/
theorem Renoted.step (h : Renoted chain done) (hrun : (do
      (← instr jumper).references.forM fun target => noteReferrer target jumper : ChainM Unit) chain
        = .ok u after) :
    chain.Evolves (fun _ a b => a.Relisted b) after ∧ Renoted after (done ++ [jumper]) := by
  obtain ⟨source, c, hfirst, hnotes⟩ := bind_ok.mp hrun
  obtain ⟨hsource, hc⟩ := instr_ok.mp hfirst
  rw [hc] at hnotes
  obtain ⟨hcontains, rfl⟩ := updates_ok (Instruction.noting_noting jumper) hnotes
  -- noting a jumper changes no reference
  have hrefs : ∀ {id : InstrId} {instr : Instruction},
      (if id ∈ source.references then instr.noting jumper else instr).references = instr.references := by
    intro id instr
    split <;> rfl
  have hevolves : chain.Evolves (fun _ a b => a.Relisted b) (chain.adjust fun id instr =>
      if id ∈ source.references then instr.noting jumper else instr) := by
    refine .of_adjust fun id instr _ => ?_
    split
    · exact ⟨_, rfl⟩
    · exact .refl instr
  -- what is listed is what referred before, or what refers through the one that was noted just now
  refine ⟨hevolves, fun {id found other} hfound => ?_, fun {other found} hother hfound target htarget => ?_⟩
  · rw [Chain.get?_adjust, Option.map_eq_some_iff] at hfound
    obtain ⟨instr, hinstr, rfl⟩ := hfound
    have hby : other ∈ (if id ∈ source.references then instr.noting jumper else instr).targetedBy
        ↔ (id ∈ source.references ∧ other = jumper) ∨ other ∈ instr.targetedBy := by
      split
      next hid => rw [Instruction.noting, mem_addReferrer, and_iff_right hid]
      next hid => rw [or_iff_right fun hnew => hid hnew.1]
    rw [refers_relisted hevolves, hby, h.listed hinstr, List.mem_append, List.mem_singleton]
    constructor
    · intro hlisted
      rcases hlisted with ⟨hid, rfl⟩ | ⟨hdone, hrefers⟩
      · exact ⟨.inr rfl, source, hsource, hid⟩
      · exact ⟨.inl hdone, hrefers⟩
    · intro hlisted
      obtain ⟨hdone | rfl, found, hother, hid⟩ := hlisted
      · exact .inr ⟨hdone, found, hother, hid⟩
      · obtain rfl := Option.some.inj (hsource.symm.trans hother)
        exact .inl ⟨hid, rfl⟩
  · rw [Chain.get?_adjust, Option.map_eq_some_iff] at hfound
    obtain ⟨instr, hinstr, rfl⟩ := hfound
    rw [hrefs] at htarget
    rw [Chain.contains_adjust]
    rcases List.mem_append.mp hother with hin | hlast
    · exact h.present hin hinstr target htarget
    · obtain rfl := List.mem_singleton.mp hlast
      obtain rfl := Option.some.inj (hsource.symm.trans hinstr)
      exact hcontains target htarget

/-- All instructions of a list are noted. -/
theorem Renoted.steps (h : Renoted chain done) (hrun : (ids.forM fun jumper => do
      (← instr jumper).references.forM fun target => noteReferrer target jumper : ChainM Unit) chain
        = .ok u after) :
    chain.Evolves (fun _ a b => a.Relisted b) after ∧ Renoted after (done ++ ids) := by
  induction ids generalizing chain done with
  | nil =>
    rw [forM_nil_ok] at hrun
    rw [hrun, List.append_nil]
    exact ⟨.refl (fun _ => .refl) chain, h⟩
  | cons id ids ih =>
    rw [forM_cons_ok] at hrun
    obtain ⟨c, hfirst, hrest⟩ := hrun
    obtain ⟨hevolves, hnoted⟩ := h.step hfirst
    obtain ⟨hevolves', hnoted'⟩ := ih hnoted hrest
    rw [List.append_assoc] at hnoted'
    exact ⟨hevolves.trans (fun _ _ _ _ => .trans) hevolves', hnoted'⟩

/-- The lists of jumpers are computed anew, and both sides of all references agree. -/
theorem rebuildReferences_run {l : List InstrId} (hl : chain.Spells l) (hpresent : ∀ id, chain.contains id = true → id ∈ l)
    (hrun : rebuildReferences chain = .ok u after) :
    chain.Evolves (fun _ a b => a.Relisted b) after ∧ after.Listed l ∧ after.Answered := by
  rw [rebuildReferences, bind_run (get_ok.mpr ⟨rfl, rfl⟩), hl.ids_eq, bind_ok] at hrun
  obtain ⟨_, cleared, hclear, hsteps⟩ := hrun
  obtain ⟨-, rfl⟩ := updates_ok (f := Instruction.unlisted) (fun _ => rfl) hclear
  have hcleared : chain.Evolves (fun _ a b => a.Relisted b) (chain.adjust fun id instr =>
      if id ∈ l then instr.unlisted else instr) := by
    refine .of_adjust fun id instr _ => ?_
    split
    · exact ⟨[], rfl⟩
    · exact .refl instr
  have hmem : ∀ {c : Chain} {id instr}, chain.Evolves (fun _ a b => a.Relisted b) c →
      c.get? id = some instr → id ∈ l := by
    intro c id instr hc hinstr
    obtain ⟨old, hold, -⟩ := hc.get?_of hinstr
    exact hpresent id (by rw [Chain.contains_eq_isSome_get?, hold]; rfl)
  -- at the start nobody is listed, as every instruction is one of the list
  have hstart := Renoted.start fun {id instr} hinstr => by
    have hid : id ∈ l := hmem hcleared hinstr
    rw [Chain.get?_adjust, Option.map_eq_some_iff] at hinstr
    obtain ⟨old, -, rfl⟩ := hinstr
    rw [if_pos hid, Instruction.unlisted]
  obtain ⟨hnoted, hdone⟩ := hstart.steps hsteps
  rw [List.nil_append] at hdone
  have hevolves := hcleared.trans (fun _ _ _ _ => .trans) hnoted
  refine ⟨hevolves, fun jumper hjumper source hsource target htarget => ?_,
    fun id instr jumper hinstr hjumper => ((hdone.listed hinstr).mp hjumper).2⟩
  have hpresent := hdone.present hjumper hsource target htarget
  rw [Chain.contains_eq_isSome_get?, Option.isSome_iff_exists] at hpresent
  obtain ⟨found, hfound⟩ := hpresent
  exact ⟨hmem hevolves hfound, found, hfound, (hdone.listed hfound).mpr ⟨hjumper, source, hsource, htarget⟩⟩

end ChainM

end Splice
