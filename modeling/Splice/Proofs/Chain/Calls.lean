import Splice.Proofs.Chain.Acceptance

/-!
# The chain under any calls

`ChainCall` lists the calls that change the chain. `refusal` says for which of them it is refused
and why: a handle names no instruction that is present, or an instruction is to be replaced
by nothing. `enrol` says what a call is to do in terms of a `Roster` alone, a list of names
in the order of the code and the number of names handed out.

The calls considered are `Proper`: what they splice in carries no references, and it is put
next to an instruction that is linked, or next to none at all. Such a call is either refused
and leaves everything as it is (`run_of_refusal`), or is accepted, and then the chain spells
out what the roster says, references agree on both sides, and no name is present that was
neither present before nor new (`Sound.run`). Along any sequence of calls from the empty
chain this gives the order of the code (`spells_along_calls`) and the references between
instructions (`crossed_along_calls`).
-/

namespace Splice

/-- A call that changes the chain. -/
inductive ChainCall where
  | push (instr : Instruction)
  | insertBefore (anchor : InstrId) (instr : Instruction)
  | insertAfter (anchor : InstrId) (instr : Instruction)
  | unlink (id : InstrId)
  | free (id : InstrId)
  | replace (old : InstrId) (instrs : List Instruction)
  | linkTarget (jumper target : InstrId)
  | unlinkTarget (jumper : InstrId)
  | setJumpTable (jumper : InstrId) (entries : List InstrId)
  | retargetAll (source dest : InstrId)

/-- The names in the order of the code, and how many were handed out. -/
structure Roster where
  order : List InstrId
  issued : Nat
deriving DecidableEq

namespace Roster

/-- The names that are handed out next. -/
def next (roster : Roster) (count : Nat) : List InstrId :=
  (List.range' roster.issued count).map Handle.mk

/-- The list with `mid` in the place of `site`. -/
def instead (site : InstrId) (mid order : List InstrId) : List InstrId :=
  order.flatMap fun id => if id = site then mid else [id]

/-- Hands out `count` names and puts `mid` in the place of `site`, if that is in the list. -/
def splice (roster : Roster) (site : InstrId) (count : Nat) (mid : List InstrId) : Roster :=
  if site ∈ roster.order ∧ count ≠ 0 then
    ⟨instead site mid roster.order, roster.issued + count⟩
  else
    roster

def without (roster : Roster) (id : InstrId) : Roster :=
  { roster with order := roster.order.filter (· != id) }

end Roster

/-- Why a call that asks for `handles` is refused, if it is: the first of them that names no instruction. -/
def Chain.missing (chain : Chain) (handles : List InstrId) : Option ChainError :=
  (handles.find? fun id => !chain.contains id).map .missingInstruction

namespace ChainCall

/-- Makes the call; the names that it hands out are returned. -/
def run : ChainCall → ChainM (List InstrId)
  | push instr => do
    return [← ChainM.push instr]
  | insertBefore anchor instr => do
    return [← ChainM.insertBefore anchor instr]
  | insertAfter anchor instr => do
    return [← ChainM.insertAfter anchor instr]
  | unlink id => do
    ChainM.unlink id
    return []
  | free id => do
    let _ ← ChainM.free id
    return []
  | replace old instrs => do
    return (← ChainM.replace old instrs).1
  | linkTarget jumper target => do
    ChainM.linkTarget jumper target
    return []
  | unlinkTarget jumper => do
    let _ ← ChainM.unlinkTarget jumper
    return []
  | setJumpTable jumper entries => do
    ChainM.setJumpTable jumper entries
    return []
  | retargetAll source dest => do
    ChainM.retargetAll source dest
    return []

/-- The handles that the call asks for, in this order. -/
def handles : ChainCall → List InstrId
  | push _ => []
  | insertBefore anchor _ => [anchor]
  | insertAfter anchor _ => [anchor]
  | unlink id => [id]
  | free id => [id]
  | replace old _ => [old]
  | linkTarget jumper target => [target, jumper]
  | unlinkTarget jumper => [jumper]
  | setJumpTable jumper entries => entries ++ [jumper]
  | retargetAll source dest => if source = dest then [] else [dest, source]

/-- Why the call is refused, if it is. -/
def refusal (chain : Chain) : ChainCall → Option ChainError
  | replace old [] => some (.emptyReplacement old)
  | made => chain.missing made.handles

/-- The instructions that the call splices in. -/
def spliced : ChainCall → List Instruction
  | push instr => [instr]
  | insertBefore _ instr => [instr]
  | insertAfter _ instr => [instr]
  | replace _ instrs => instrs
  | _ => []

/-- The instruction next to which, or in the place of which, the call splices something in. -/
def sites : ChainCall → List InstrId
  | insertBefore anchor _ => [anchor]
  | insertAfter anchor _ => [anchor]
  | replace old _ => [old]
  | _ => []

/-- What is spliced in carries no references, and no detached instruction is spliced next to. -/
def Proper (chain : Chain) (made : ChainCall) : Prop :=
  (∀ instr ∈ made.spliced, instr.Bare)
    ∧ ∀ site ∈ made.sites, chain.contains site = true → chain.isLinked site = true

instance (chain : Chain) (made : ChainCall) : Decidable (made.Proper chain) :=
  inferInstanceAs (Decidable (_ ∧ _))

/-- The call changes references alone. -/
def Relinks : ChainCall → Prop
  | linkTarget .. => True
  | unlinkTarget _ => True
  | setJumpTable .. => True
  | retargetAll .. => True
  | _ => False

/-- What only changes references splices nothing in. -/
theorem Relinks.proper {chain : Chain} {made : ChainCall} (h : made.Relinks) : made.Proper chain := by
  have hspliced : made.spliced = [] ∧ made.sites = [] := by
    cases made <;> first | exact ⟨rfl, rfl⟩ | exact h.elim
  refine ⟨fun instr hinstr => ?_, fun site hsite => ?_⟩
  · rw [hspliced.1] at hinstr
    cases hinstr
  · rw [hspliced.2] at hsite
    cases hsite

/-- What the call does to the list, if it is not refused. -/
def enrol (roster : Roster) : ChainCall → Roster
  | push _ => ⟨roster.order ++ roster.next 1, roster.issued + 1⟩
  | insertBefore anchor _ => roster.splice anchor 1 (roster.next 1 ++ [anchor])
  | insertAfter anchor _ => roster.splice anchor 1 (anchor :: roster.next 1)
  | unlink id => roster.without id
  | free id => roster.without id
  | replace old instrs => roster.splice old instrs.length (roster.next instrs.length)
  | _ => roster

/-- The names that the call hands out. -/
def given (chain : Chain) (made : ChainCall) : List InstrId :=
  match made.run chain with
  | .ok names _ => names
  | .error _ _ => []

end ChainCall

namespace Chain

variable {chain after : Chain} {roster : Roster} {made : ChainCall} {id : InstrId}

/-- What calls one after the other make of the chain; one that is refused leaves what it reaches. -/
def reached (chain : Chain) (calls : List ChainCall) : Chain :=
  calls.foldl (fun chain made => outcome made.run chain) chain

/-- The names that calls hand out, in this order. -/
def given : Chain → List ChainCall → List InstrId
  | _, [] => []
  | chain, made :: calls => made.given chain ++ given (outcome made.run chain) calls

/-- Each of the calls is proper for the chain that it is made on. -/
def Admits : Chain → List ChainCall → Prop
  | _, [] => True
  | chain, made :: calls => made.Proper chain ∧ Admits (outcome made.run chain) calls

/-- Asks each call in turn. -/
instance decidableAdmits : (chain : Chain) → (calls : List ChainCall) → Decidable (chain.Admits calls)
  | _, [] => inferInstanceAs (Decidable True)
  | chain, made :: calls =>
    have := decidableAdmits (outcome made.run chain) calls
    inferInstanceAs (Decidable (made.Proper chain ∧ Admits (outcome made.run chain) calls))

/-- What calls one after the other are to do to the list. -/
def enrolled (roster : Roster) (calls : List ChainCall) : Roster := calls.foldl ChainCall.enrol roster

/-! ## Calls that are refused -/

/-- A call that is not refused asks for instructions that are all there. -/
theorem contains_of_refusal (h : made.refusal chain = none) :
    ∀ id ∈ made.handles, chain.contains id = true := by
  unfold ChainCall.refusal at h
  split at h
  · cases h
  · intro id hid
    rw [missing, Option.map_eq_none_iff, List.find?_eq_none] at h
    simpa using h id hid

variable {cause : ChainError} {handles rest : List InstrId}

/-- The first handle that is missing is the head of the list, or it comes behind it. -/
theorem missing_cons {first : InstrId} (h : chain.missing (first :: rest) = some cause) :
    (cause = .missingInstruction first ∧ chain.contains first = false)
      ∨ (chain.contains first = true ∧ chain.missing rest = some cause) := by
  unfold missing at h
  by_cases hfirst : chain.contains first = true
  · rw [List.find?_cons_of_neg (by simp [hfirst])] at h
    exact .inr ⟨hfirst, h⟩
  · rw [Bool.not_eq_true] at hfirst
    rw [List.find?_cons_of_pos (by simp [hfirst]), Option.map_some, Option.some.injEq] at h
    exact .inl ⟨h.symm, hfirst⟩

theorem missing_singleton {only : InstrId} (h : chain.missing [only] = some cause) :
    cause = .missingInstruction only ∧ chain.contains only = false :=
  (missing_cons h).resolve_right fun hrest => by cases hrest.2

/-- The first handle that is missing is in the front part, or all of that is there and it comes behind. -/
theorem missing_append (h : chain.missing (handles ++ rest) = some cause) :
    (∃ id, handles.find? (fun id => !chain.contains id) = some id ∧ cause = .missingInstruction id)
      ∨ ((∀ id ∈ handles, chain.contains id = true) ∧ chain.missing rest = some cause) := by
  unfold missing at h
  rw [List.find?_append] at h
  cases hfound : handles.find? fun id => !chain.contains id with
  | some id =>
    rw [hfound] at h
    exact .inl ⟨id, rfl, (Option.some.inj h).symm⟩
  | none =>
    rw [hfound, Option.none_or] at h
    rw [List.find?_eq_none] at hfound
    exact .inr ⟨fun id hid => by simpa using hfound id hid, h⟩

/-- Jumpers are passed on only if both instructions are there, and of the two the one that they go to is
asked for first. -/
theorem retargetAll_refused {source dest : InstrId} (hne : source ≠ dest)
    (h : chain.missing [dest, source] = some cause) :
    ChainM.retargetAll source dest chain = .error cause chain := by
  unfold ChainM.retargetAll
  rw [if_neg hne]
  rcases missing_cons h with ⟨rfl, hmissing⟩ | ⟨hdest, h⟩
  · exact bind_error (ChainM.node_refused hmissing)
  · obtain ⟨rfl, hmissing⟩ := missing_singleton h
    obtain ⟨node, hnode⟩ := ChainM.node_succeeds hdest
    exact (bind_run hnode).trans (bind_error (ChainM.instr_refused hmissing))

/-- A call that is refused leaves the chain as it is. -/
theorem run_of_refusal (h : made.refusal chain = some cause) : made.run chain = .error cause chain := by
  -- the first name that a call looks up and does not find is the one that it reports
  cases made with
  | push instr => cases h
  | insertBefore anchor instr =>
    obtain ⟨rfl, hmissing⟩ := missing_singleton h
    exact bind_error (bind_error (ChainM.node_refused hmissing))
  | insertAfter anchor instr =>
    obtain ⟨rfl, hmissing⟩ := missing_singleton h
    exact bind_error (bind_error (ChainM.node_refused hmissing))
  | unlink id =>
    obtain ⟨rfl, hmissing⟩ := missing_singleton h
    exact bind_error (bind_error (ChainM.node_refused hmissing))
  | free id =>
    obtain ⟨rfl, hmissing⟩ := missing_singleton h
    exact bind_error (bind_error (bind_error (ChainM.node_refused hmissing)))
  | replace old instrs =>
    cases instrs with
    | nil =>
      cases h
      exact bind_error rfl
    | cons instr instrs =>
      obtain ⟨rfl, hmissing⟩ := missing_singleton h
      exact bind_error (bind_error (bind_error (ChainM.node_refused hmissing)))
  | linkTarget jumper target =>
    rcases missing_cons h with ⟨rfl, hmissing⟩ | ⟨htarget, h⟩
    · exact bind_error (bind_error (ChainM.node_refused hmissing))
    · obtain ⟨rfl, hmissing⟩ := missing_singleton h
      obtain ⟨node, hnode⟩ := ChainM.node_succeeds htarget
      exact bind_error ((bind_run hnode).trans (bind_error (bind_error (ChainM.instr_refused hmissing))))
  | unlinkTarget jumper =>
    obtain ⟨rfl, hmissing⟩ := missing_singleton h
    exact bind_error (bind_error (ChainM.instr_refused hmissing))
  | setJumpTable jumper entries =>
    rcases missing_append h with ⟨id, hid, rfl⟩ | ⟨hentries, h⟩
    · exact bind_error (bind_error (ChainM.nodes_refused hid))
    · obtain ⟨rfl, hmissing⟩ := missing_singleton h
      exact bind_error ((bind_run (ChainM.nodes_succeed hentries)).trans
        (bind_error (ChainM.instr_refused hmissing)))
  | retargetAll source dest =>
    -- moving jumpers over to the instruction itself is never refused
    have hne : source ≠ dest := by
      rintro rfl
      have hnone : chain.missing (ChainCall.retargetAll source source).handles = none := by
        rw [ChainCall.handles, if_pos rfl]
        rfl
      exact absurd (hnone.symm.trans h) (by simp)
    have hhandles : (ChainCall.retargetAll source dest).handles = [dest, source] := if_neg hne
    exact bind_error (retargetAll_refused hne (hhandles ▸ h))

/-! ## What a roster says of the chain -/

/-- The chain spells out the list of the roster in slots that were all handed out, and references agree
on both sides. -/
structure Sound (chain : Chain) (roster : Roster) : Prop where
  spells : chain.Spells roster.order
  size : chain.slots.size = roster.issued
  crossed : chain.Crossed

/-- What a call that is accepted makes of the chain. -/
structure Enters (chain after : Chain) (roster : Roster) (made : ChainCall) : Prop where
  sound : after.Sound (made.enrol roster)
  issued : (made.enrol roster).issued = roster.issued + made.spliced.length
  /-- Nothing that was gone comes back. -/
  present : ∀ x, after.contains x = true →
    x ∈ roster.next made.spliced.length ∨ chain.contains x = true

/-- The empty chain spells out the empty list. -/
theorem sound_empty : Chain.empty.Sound ⟨[], 0⟩ where
  spells := spells_ofList []
  size := rfl
  crossed := crossed_empty

end Chain

namespace Roster

variable {roster : Roster} {site : InstrId} {xs ys mid : List InstrId} {count : Nat}

theorem next_one (roster : Roster) : roster.next 1 = [⟨roster.issued⟩] := rfl

/-- In a list that names each instruction once, what comes in the place of one of them leaves the rest
where it is. -/
theorem instead_append (h : (xs ++ site :: ys).Nodup) :
    instead site mid (xs ++ site :: ys) = xs ++ mid ++ ys := by
  have hnot := not_mem_of_nodup h
  rw [List.mem_append, not_or] at hnot
  have hkept : ∀ l : List InstrId, site ∉ l → instead site mid l = l := by
    intro l hl
    induction l with
    | nil => rfl
    | cons id l ih =>
      rw [List.mem_cons, not_or] at hl
      have hrest := ih hl.2
      unfold instead at hrest ⊢
      rw [List.flatMap_cons, hrest, if_neg (Ne.symm hl.1)]
      rfl
  have hxs := hkept xs hnot.1
  have hys := hkept ys hnot.2
  unfold instead at hxs hys ⊢
  rw [List.flatMap_append, List.flatMap_cons, hxs, hys, if_pos rfl, List.append_assoc]

theorem splice_of_not_mem (h : site ∉ roster.order) (count : Nat) (mid : List InstrId) :
    roster.splice site count mid = roster :=
  if_neg fun hmem => h hmem.1

/-- To splice something in at a site of the list puts it in the place of that site and counts the names
that are handed out for it. -/
theorem splice_eq (horder : roster.order = xs ++ site :: ys) (h : roster.order.Nodup) (hcount : count ≠ 0) :
    roster.splice site count mid = ⟨xs ++ mid ++ ys, roster.issued + count⟩ := by
  have hmem : site ∈ roster.order := by simp [horder]
  rw [horder] at h
  rw [splice, if_pos ⟨hmem, hcount⟩, horder, instead_append h]

/-- To strike off what is not in the list changes nothing. -/
theorem without_of_not_mem (h : site ∉ roster.order) : roster.without site = roster := by
  have hkept : roster.order.filter (· != site) = roster.order :=
    List.filter_eq_self.mpr fun x hx => bne_iff_ne.mpr fun he => h (he ▸ hx)
  rw [without, hkept]

end Roster

namespace Chain

variable {chain after : Chain} {roster : Roster} {made : ChainCall} {id : InstrId}
  {cause : ChainError} {f : InstrId → Instruction → Instruction}

namespace Sound

/-- An instruction that is not there is not in the list. -/
theorem not_mem (hs : chain.Sound roster) (h : chain.contains id = false) : id ∉ roster.order := by
  intro hmem
  rw [ChainM.contains_of_mem hs.spells hmem] at h
  cases h

/-- A call that is refused is to do nothing to the list. -/
theorem enrol_of_refusal (hs : chain.Sound roster) (h : made.refusal chain = some cause) :
    made.enrol roster = roster := by
  cases made with
  | push instr => cases h
  | insertBefore anchor instr =>
    exact Roster.splice_of_not_mem (hs.not_mem (missing_singleton h).2) _ _
  | insertAfter anchor instr =>
    exact Roster.splice_of_not_mem (hs.not_mem (missing_singleton h).2) _ _
  | unlink id => exact Roster.without_of_not_mem (hs.not_mem (missing_singleton h).2)
  | free id => exact Roster.without_of_not_mem (hs.not_mem (missing_singleton h).2)
  | replace old instrs =>
    cases instrs with
    | nil => exact if_neg fun hmem => hmem.2 rfl
    | cons instr instrs => exact Roster.splice_of_not_mem (hs.not_mem (missing_singleton h).2) _ _
  | linkTarget jumper target => rfl
  | unlinkTarget jumper => rfl
  | setJumpTable jumper entries => rfl
  | retargetAll source dest => rfl

/-! ## Calls that are accepted -/

/-- The code around an instruction next to which something is to be spliced in. -/
theorem exists_split (hs : chain.Sound roster) (hproper : made.Proper chain) (hsite : id ∈ made.sites)
    (hpresent : chain.contains id = true) : ∃ xs ys, roster.order = xs ++ id :: ys :=
  List.append_of_mem (hs.spells.isLinked_iff.mp (hproper.2 id hsite hpresent))

/-- An instruction was put between two parts of the list. -/
theorem enters_of_inserted {instr : Instruction} {new : InstrId} (hs : chain.Sound roster)
    (made : ChainCall) (xs ys : List InstrId) (horder : roster.order = xs ++ ys)
    (hspliced : made.spliced = [instr])
    (henrol : made.enrol roster = ⟨xs ++ roster.next 1 ++ ys, roster.issued + 1⟩)
    (hproper : made.Proper chain)
    (hins : ChainM.Inserted chain after xs.getLast? ys.head? instr new)
    (hsize : after.slots.size = chain.slots.size + 1) :
    [new] = roster.next made.spliced.length ∧ Enters chain after roster made := by
  have hbare : instr.Bare := hproper.1 instr (by simp [hspliced])
  -- the slots were all handed out, so the next slot has the next name
  have hnew : [new] = roster.next 1 := by
    rw [Roster.next_one, hins.name, hs.size]
  have hspells := hins.spells (horder ▸ hs.spells)
  refine ⟨by rw [hspliced, hnew]; rfl, ⟨⟨?_, ?_, hs.crossed.insert hins.name hins.get? hsize hbare⟩, ?_,
    fun x hx => ?_⟩⟩
  · rw [henrol, ← hnew]
    simpa using hspells
  · rw [henrol, hsize, hs.size]
  · rw [henrol, hspliced]
    rfl
  · rw [contains_eq_isSome_get?, hins.get?] at hx
    split at hx
    next he =>
      rw [hspliced]
      exact .inl (hnew ▸ List.mem_singleton.mpr he)
    next => exact .inr (contains_eq_isSome_get?.trans hx)

/-- Only references were changed. -/
theorem enters_of_adjust (hs : chain.Sound roster) (henrol : made.enrol roster = roster)
    (hspliced : made.spliced = []) (hc : (chain.adjust f).Crossed) :
    Enters chain (chain.adjust f) roster made where
  sound := henrol.symm ▸ ⟨hs.spells.adjust f, by rw [size_slots_adjust, hs.size], hc⟩
  issued := by
    rw [henrol, hspliced]
    rfl
  present x hx := .inr (contains_adjust ▸ hx)

/-- One instruction was replaced by others. -/
theorem enters_of_replace {old : InstrId} {instrs : List Instruction} (hs : chain.Sound roster)
    (hproper : (ChainCall.replace old instrs).Proper chain)
    (h : (ChainCall.replace old instrs).refusal chain = none) :
    ∃ after, (ChainCall.replace old instrs).run chain = .ok (roster.next instrs.length) after
      ∧ Enters chain after roster (.replace old instrs) := by
  have hne : instrs ≠ [] := by
    rintro rfl
    cases h
  obtain ⟨xs, ys, horder⟩ := hs.exists_split hproper (List.mem_singleton.mpr rfl)
    (contains_of_refusal h old (List.mem_singleton.mpr rfl))
  have hl := horder ▸ hs.spells
  obtain ⟨ids, freed, after, hreplace⟩ := ChainM.replace_succeeds hl hs.crossed hproper.1 hne
  obtain ⟨hspells, hc, hsize, hnames, hcontains⟩ := ChainM.replace_kept hl hs.crossed hproper.1 hreplace
  rw [hs.size] at hsize hnames
  have henrol : (ChainCall.replace old instrs).enrol roster
      = ⟨xs ++ ids ++ ys, roster.issued + instrs.length⟩ := by
    rw [hnames]
    exact Roster.splice_eq horder hs.spells.nodup fun hzero => hne (List.length_eq_zero_iff.mp hzero)
  refine ⟨after, (bind_run hreplace).trans (hnames ▸ rfl), ?_, ?_, fun x hx => ?_⟩
  · rw [henrol]
    exact ⟨hspells, hsize, hc⟩
  · rw [henrol]
    rfl
  · refine (hcontains x hx).imp_left fun hmem => ?_
    rw [hnames] at hmem
    exact hmem

/-- A call that is not refused is accepted, and the chain follows the roster. -/
theorem run (hs : chain.Sound roster) (hproper : made.Proper chain) (h : made.refusal chain = none) :
    ∃ after, made.run chain = .ok (roster.next made.spliced.length) after
      ∧ Enters chain after roster made := by
  have hpresent := contains_of_refusal h
  have hnodup := hs.spells.nodup
  -- calls that splice extend the roster, those that take out shorten it, and the others leave it alone
  cases made with
  | push instr =>
    obtain ⟨new, after, hpush⟩ := ChainM.push_succeeds hs.spells instr
    obtain ⟨hnames, henters⟩ := hs.enters_of_inserted (.push instr) roster.order [] (by simp) rfl
      (by rw [List.append_nil]; rfl) hproper (ChainM.push_inserted hs.spells hpush)
      (ChainM.push_size hpush)
    exact ⟨after, (bind_run hpush).trans (hnames ▸ rfl), henters⟩
  | insertBefore anchor instr =>
    obtain ⟨xs, ys, horder⟩ := hs.exists_split hproper (List.mem_singleton.mpr rfl)
      (hpresent anchor (List.mem_singleton.mpr rfl))
    have hl := horder ▸ hs.spells
    obtain ⟨new, after, hinsert⟩ := ChainM.insertBefore_succeeds hl instr
    obtain ⟨hnames, henters⟩ := hs.enters_of_inserted (.insertBefore anchor instr) xs (anchor :: ys)
      horder rfl ((Roster.splice_eq horder hnodup (by simp)).trans (by simp)) hproper
      (ChainM.insertBefore_inserted hl hinsert) (ChainM.insertBefore_size hinsert)
    exact ⟨after, (bind_run hinsert).trans (hnames ▸ rfl), henters⟩
  | insertAfter anchor instr =>
    obtain ⟨xs, ys, horder⟩ := hs.exists_split hproper (List.mem_singleton.mpr rfl)
      (hpresent anchor (List.mem_singleton.mpr rfl))
    have hl := horder ▸ hs.spells
    obtain ⟨new, after, hinsert⟩ := ChainM.insertAfter_succeeds hl instr
    obtain ⟨hnames, henters⟩ := hs.enters_of_inserted (.insertAfter anchor instr) (xs ++ [anchor]) ys
      (by simp [horder]) rfl
      ((Roster.splice_eq horder hnodup (by simp)).trans (by simp)) hproper
      (ChainM.insertAfter_inserted hl hinsert) (ChainM.insertAfter_size hinsert)
    exact ⟨after, (bind_run hinsert).trans (hnames ▸ rfl), henters⟩
  | unlink id =>
    obtain ⟨after, hunlink⟩ := ChainM.unlink_succeeds hs.spells (hpresent id (List.mem_singleton.mpr rfl))
    obtain ⟨hspells, hget, hsize⟩ := ChainM.unlink_kept hs.spells hunlink
    refine ⟨after, (bind_run hunlink).trans rfl,
      ⟨⟨hspells, hsize.trans hs.size, hs.crossed.congr hget hsize⟩, rfl, fun x hx => .inr ?_⟩⟩
    rwa [contains_eq_isSome_get?, hget, ← contains_eq_isSome_get?] at hx
  | free id =>
    obtain ⟨freed, after, hfree⟩ :=
      ChainM.free_succeeds hs.spells (hpresent id (List.mem_singleton.mpr rfl))
    obtain ⟨hspells, hc, hsize, hcontains⟩ := ChainM.free_kept hs.spells hs.crossed hfree
    exact ⟨after, (bind_run hfree).trans rfl, ⟨⟨hspells, hsize.trans hs.size, hc⟩, rfl,
      fun x hx => .inr ((hcontains x).mp hx).2⟩⟩
  | replace old instrs => exact hs.enters_of_replace hproper h
  | linkTarget jumper target =>
    obtain ⟨after, hlink⟩ := ChainM.linkTarget_succeeds (hpresent jumper (by simp [ChainCall.handles]))
      (hpresent target (by simp [ChainCall.handles]))
    have hc := ChainM.linkTarget_crossed hs.crossed hlink
    obtain ⟨_, -, -, rfl⟩ := ChainM.linkTarget_ok hlink
    exact ⟨_, (bind_run hlink).trans rfl, hs.enters_of_adjust rfl rfl hc⟩
  | unlinkTarget jumper =>
    obtain ⟨was, after, hunlink, -⟩ :=
      ChainM.unlinkTarget_succeeds (hpresent jumper (List.mem_singleton.mpr rfl))
    have hc := ChainM.unlinkTarget_crossed hs.crossed hunlink
    obtain ⟨_, -, -, rfl⟩ := ChainM.unlinkTarget_ok hunlink
    exact ⟨_, (bind_run hunlink).trans rfl, hs.enters_of_adjust rfl rfl hc⟩
  | setJumpTable jumper entries =>
    obtain ⟨after, htable⟩ := ChainM.setJumpTable_succeeds entries
      (hpresent jumper (by simp [ChainCall.handles]))
      fun entry hentry => hpresent entry (by simp [ChainCall.handles, hentry])
    have hc := ChainM.setJumpTable_crossed hs.crossed htable
    obtain ⟨_, -, -, rfl⟩ := ChainM.setJumpTable_ok htable
    exact ⟨_, (bind_run htable).trans rfl, hs.enters_of_adjust rfl rfl hc⟩
  | retargetAll source dest =>
    by_cases hne : source = dest
    · have hrun : ChainM.retargetAll source dest chain = .ok () chain := by
        unfold ChainM.retargetAll
        rw [if_pos hne]
        rfl
      exact ⟨chain, (bind_run hrun).trans rfl, hs, rfl, fun x hx => .inr hx⟩
    · obtain ⟨after, hretarget⟩ := ChainM.retargetAll_succeeds hs.crossed.answered
        (hpresent source (by simp [ChainCall.handles, hne]))
        (hpresent dest (by simp [ChainCall.handles, hne]))
      have hc := ChainM.retargetAll_crossed hs.crossed hne hretarget
      obtain ⟨_, -, -, rfl⟩ := ChainM.retargetAll_ok hne hretarget
      exact ⟨_, (bind_run hretarget).trans rfl, hs.enters_of_adjust rfl rfl hc⟩

/-! ## Sequences of calls -/

/-- What one call makes of the chain and of the roster, whether it is refused or not. -/
theorem step (hs : chain.Sound roster) (hproper : made.Proper chain) :
    (outcome made.run chain).Sound (made.enrol roster)
      ∧ ∃ count, made.given chain = roster.next count
        ∧ (made.enrol roster).issued = roster.issued + count
        ∧ ∀ x, (outcome made.run chain).contains x = true →
          x ∈ roster.next count ∨ chain.contains x = true := by
  unfold ChainCall.given
  cases h : made.refusal chain with
  | some cause =>
    have hrun := run_of_refusal h
    rw [outcome_error hrun, hs.enrol_of_refusal h, hrun]
    exact ⟨hs, 0, rfl, rfl, fun x hx => .inr hx⟩
  | none =>
    obtain ⟨after, hrun, henters⟩ := hs.run hproper h
    rw [outcome_ok hrun, hrun]
    exact ⟨henters.sound, _, rfl, henters.issued, henters.present⟩

/-- What a sequence of calls makes of them: the names follow one on the other, and none comes back. -/
theorem reached {calls : List ChainCall} (hs : chain.Sound roster) (h : chain.Admits calls) :
    (chain.reached calls).Sound (enrolled roster calls)
      ∧ ∃ count, chain.given calls = roster.next count
        ∧ (enrolled roster calls).issued = roster.issued + count
        ∧ ∀ x, (chain.reached calls).contains x = true →
          x ∈ roster.next count ∨ chain.contains x = true := by
  induction calls generalizing chain roster with
  | nil => exact ⟨hs, 0, rfl, rfl, fun x hx => .inr hx⟩
  | cons made calls ih =>
    obtain ⟨hsound, count, hgiven, hissued, hpresent⟩ := hs.step h.1
    obtain ⟨hsound', count', hgiven', hissued', hpresent'⟩ := ih hsound h.2
    -- the rest hands out names from where the first call stopped
    have hnext : roster.next (count + count')
        = roster.next count ++ (made.enrol roster).next count' := by
      rw [Roster.next, Roster.next, Roster.next, hissued, ← List.map_append, List.range'_append_1]
    refine ⟨hsound', count + count', ?_, ?_, fun x hx => ?_⟩
    · rw [hnext, ← hgiven, ← hgiven']
      rfl
    · show (enrolled (made.enrol roster) calls).issued = _
      rw [hissued', hissued, Nat.add_assoc]
    · rw [hnext, List.mem_append]
      rcases hpresent' x hx with hnew | hold
      · exact .inl (.inr hnew)
      · exact (hpresent x hold).imp_left .inl

end Sound

theorem reached_append (chain : Chain) (front rest : List ChainCall) :
    chain.reached (front ++ rest) = (chain.reached front).reached rest :=
  List.foldl_append

/-- Calls that are admitted one after the other are admitted up to any point, and from there on. -/
theorem Admits.append {front rest : List ChainCall} (h : chain.Admits (front ++ rest)) :
    chain.Admits front ∧ (chain.reached front).Admits rest := by
  induction front generalizing chain with
  | nil => exact ⟨trivial, h⟩
  | cons made front ih => exact ⟨⟨h.1, (ih h.2).1⟩, (ih h.2).2⟩

/-- What is gone at some time is gone for good. -/
theorem gone_of_calls {front rest : List ChainCall} (h : Chain.empty.Admits (front ++ rest))
    (hid : id ∈ Chain.empty.given front) (hgone : (Chain.empty.reached front).contains id = false) :
    (Chain.empty.reached (front ++ rest)).contains id = false := by
  obtain ⟨hfront, hrest⟩ := h.append
  obtain ⟨hs, count, hgiven, hissued, -⟩ := sound_empty.reached hfront
  obtain ⟨-, count', -, -, hpresent⟩ := hs.reached hrest
  rw [reached_append]
  refine Bool.eq_false_iff.mpr fun hback => ?_
  rcases hpresent id hback with hnew | hold
  · -- names handed out later are greater
    rw [hgiven, Roster.next, List.mem_map] at hid
    rw [Roster.next, List.mem_map] at hnew
    obtain ⟨index, hindex, rfl⟩ := hid
    obtain ⟨index', hindex', he⟩ := hnew
    cases he
    rw [List.mem_range'_1] at hindex hindex'
    omega
  · rw [hgone] at hold
    cases hold

/-! ## The order of the code -/

/-- The links of the chain make up a doubly linked list, which `ids` reads from the head to the end. -/
structure DoublyLinked (chain : Chain) : Prop where
  mirror : ∀ a b, chain.next? a = some b ↔ chain.prev? b = some a
  head : chain.head = chain.ids.head? ∧ ∀ id, chain.head = some id → chain.prev? id = none
  tail : chain.tail = chain.ids.getLast? ∧ ∀ id, chain.tail = some id → chain.next? id = none
  length : chain.length = chain.ids.length
  once : chain.ids.Nodup
  /-- However far one goes on, one comes to the end. -/
  ends : ∀ steps, chain.ids.length ≤ steps → chain.follow steps chain.head = chain.ids
  linked : ∀ id, chain.isLinked id = true ↔ id ∈ chain.ids

/-- An instruction that has another one in front comes behind it in the list. -/
theorem Spells.split_of_prev? {l : List InstrId} {prev : InstrId} (h : chain.Spells l)
    (hprev : chain.prev? id = some prev) : ∃ xs ys, l = xs ++ prev :: id :: ys := by
  have hid : id ∈ l := by
    refine Classical.byContradiction fun hnot => ?_
    obtain ⟨node, hnode, hlink⟩ := Option.bind_eq_some_iff.mp hprev
    rw [(h.detached id node hnot hnode).1] at hlink
    cases hlink
  obtain ⟨xs, ys, rfl⟩ := List.append_of_mem hid
  rw [h.prev?_eq] at hprev
  obtain ⟨xs, rfl⟩ := List.getLast?_eq_some_iff.mp hprev
  exact ⟨xs, ys, by simp⟩

/-- The links of a chain that spells out a list without repetition are those of a doubly linked list: each
end has nothing beyond it, and neighbours name each other. -/
theorem Spells.doublyLinked {l : List InstrId} (h : chain.Spells l) : chain.DoublyLinked where
  mirror a b := by
    constructor
    · exact h.prev?_of_next?
    · intro hprev
      obtain ⟨xs, ys, rfl⟩ := h.split_of_prev? hprev
      rw [h.next?_eq]
      rfl
  head := by
    rw [h.ids_eq]
    refine ⟨h.head, fun id hid => ?_⟩
    rw [h.head] at hid
    obtain ⟨ys, rfl⟩ := List.head?_eq_some_iff.mp hid
    have hfront : chain.Spells ([] ++ id :: ys) := h
    exact hfront.prev?_eq
  tail := by
    rw [h.ids_eq]
    refine ⟨h.tail, fun id hid => ?_⟩
    rw [h.tail] at hid
    obtain ⟨xs, rfl⟩ := List.getLast?_eq_some_iff.mp hid
    exact h.next?_eq
  length := by rw [h.ids_eq, h.length]
  once := by
    rw [h.ids_eq]
    exact h.nodup
  ends steps hsteps := by
    rw [h.ids_eq] at hsteps ⊢
    rw [h.head]
    exact follow_segment h.links hsteps
  linked id := by rw [h.ids_eq, h.isLinked_iff]

/-- Along any calls from the empty chain, the chain is a doubly linked list of the names that the
corresponding operations on lists give. No name is handed out twice, and none that is gone is ever
present again. A call that asks for a handle that names nothing, or is to replace by
nothing, is refused for that and changes nothing; every other one is accepted. -/
theorem spells_along_calls (calls : List ChainCall) (h : Chain.empty.Admits calls) :
    (Chain.empty.reached calls).DoublyLinked
      ∧ (Chain.empty.reached calls).ids = (enrolled ⟨[], 0⟩ calls).order
      ∧ (Chain.empty.given calls).Nodup
      ∧ (∀ front, front <+: calls → ∀ id ∈ Chain.empty.given front,
        (Chain.empty.reached front).contains id = false →
        (Chain.empty.reached calls).contains id = false)
      ∧ (∀ (made : ChainCall) cause, made.refusal (Chain.empty.reached calls) = some cause →
        made.run (Chain.empty.reached calls) = .error cause (Chain.empty.reached calls))
      ∧ ∀ made : ChainCall, made.Proper (Chain.empty.reached calls) →
        made.refusal (Chain.empty.reached calls) = none →
        ∃ names after, made.run (Chain.empty.reached calls) = .ok names after := by
  obtain ⟨hs, count, hgiven, -, -⟩ := sound_empty.reached h
  refine ⟨hs.spells.doublyLinked, hs.spells.ids_eq, ?_, fun front hfront id hid hgone => ?_,
    fun made cause hrefusal => run_of_refusal hrefusal, fun made hproper haccepted => ?_⟩
  · rw [hgiven, Roster.next, List.Nodup, List.pairwise_map]
    exact (List.nodup_range' 1).imp fun hne he => hne (congrArg (·.index) he)
  · obtain ⟨rest, rfl⟩ := hfront
    exact gone_of_calls h hid hgone
  · obtain ⟨after, hrun, -⟩ := hs.run hproper haccepted
    exact ⟨_, after, hrun⟩

/-- Calls of every kind, two of them with a handle that names nothing. -/
def medley : List ChainCall :=
  let plain := Instruction.decoded 0 [0x90] 1 .nop
  [.push plain, .push plain, .insertBefore ⟨0⟩ plain, .linkTarget ⟨1⟩ ⟨0⟩, .linkTarget ⟨2⟩ ⟨2⟩,
    .setJumpTable ⟨1⟩ [⟨0⟩, ⟨2⟩, ⟨0⟩], .unlinkTarget ⟨1⟩, .replace ⟨0⟩ [plain, plain], .unlink ⟨2⟩,
    .free ⟨2⟩, .free ⟨2⟩, .insertAfter ⟨1⟩ plain, .linkTarget ⟨5⟩ ⟨3⟩, .retargetAll ⟨9⟩ ⟨3⟩]

theorem medley_admitted : Chain.empty.Admits medley := by decide +kernel

theorem spells_along_medley :
    Chain.empty.Admits medley ∧ (Chain.empty.reached medley).DoublyLinked
      ∧ (Chain.empty.reached medley).ids = [⟨3⟩, ⟨4⟩, ⟨1⟩, ⟨5⟩]
      ∧ (ChainCall.free ⟨0⟩).run (Chain.empty.reached medley)
        = .error (.missingInstruction ⟨0⟩) (Chain.empty.reached medley) := by
  obtain ⟨hlinked, hids, -, -, hrefused, -⟩ := spells_along_calls medley medley_admitted
  exact ⟨medley_admitted, hlinked, hids, hrefused (.free ⟨0⟩) _ (by decide +kernel)⟩

/-! ## References -/

/-- Along any calls from the empty chain, an instruction lists exactly the instructions that jump to it
directly or by their tables, each once, and all that it lists is present. Once all jumpers of an
instruction are moved over to another one, nothing refers to it. A call that changes
references and is refused changes nothing. -/
theorem crossed_along_calls (calls : List ChainCall) (h : Chain.empty.Admits calls) :
    (∀ jumper target source found, (Chain.empty.reached calls).get? jumper = some source →
        (Chain.empty.reached calls).get? target = some found →
        (jumper ∈ found.targetedBy ↔ source.target = some target ∨ target ∈ source.jumpTable))
      ∧ (∀ target found, (Chain.empty.reached calls).get? target = some found →
        found.targetedBy.Nodup
          ∧ ∀ jumper ∈ found.targetedBy, (Chain.empty.reached calls).contains jumper = true)
      ∧ (∀ source dest after, source ≠ dest →
        ChainM.retargetAll source dest (Chain.empty.reached calls) = .ok () after →
        ∀ jumper instr, after.get? jumper = some instr →
          instr.target ≠ some source ∧ source ∉ instr.jumpTable)
      ∧ ∀ made : ChainCall, made.Relinks → ∀ cause after,
        made.run (Chain.empty.reached calls) = .error cause after → after = Chain.empty.reached calls := by
  obtain ⟨hs, -⟩ := sound_empty.reached h
  refine ⟨fun jumper target source found hsource hfound => hs.crossed.mem_targetedBy_iff hsource hfound,
    fun target found hfound => ⟨hs.crossed.once target found hfound,
      fun jumper hjumper => hs.crossed.contains_of_mem hfound hjumper⟩,
    fun source dest after hne hretarget jumper instr hinstr => ?_, fun made hrelinks cause after hrun => ?_⟩
  · have hunused := ChainM.retargetAll_unused hs.crossed hne hretarget hinstr
    rw [Instruction.references, List.mem_append, Option.mem_toList, not_or] at hunused
    exact hunused
  · cases hrefusal : made.refusal (Chain.empty.reached calls) with
    | some cause' =>
      rw [run_of_refusal hrefusal] at hrun
      cases hrun
      rfl
    | none =>
      obtain ⟨_, haccepted, -⟩ := hs.run hrelinks.proper hrefusal
      rw [haccepted] at hrun
      cases hrun

theorem crossed_along_medley : ∃ source found after,
    Chain.empty.Admits medley ∧ (Chain.empty.reached medley).get? ⟨1⟩ = some source
      ∧ source.jumpTable = [⟨3⟩, ⟨2⟩, ⟨3⟩] ∧ (Chain.empty.reached medley).get? ⟨3⟩ = some found
      ∧ ⟨1⟩ ∈ found.targetedBy ∧ found.targetedBy.Nodup
      ∧ ChainM.retargetAll ⟨3⟩ ⟨4⟩ (Chain.empty.reached medley) = .ok () after
      ∧ ∀ jumper instr, after.get? jumper = some instr →
        instr.target ≠ some ⟨3⟩ ∧ ⟨3⟩ ∉ instr.jumpTable := by
  have hjumper : ((Chain.empty.reached medley).get? ⟨1⟩).map (·.jumpTable) = some [⟨3⟩, ⟨2⟩, ⟨3⟩] := by
    decide +kernel
  have htarget : ((Chain.empty.reached medley).get? ⟨3⟩).isSome = true := by decide +kernel
  have hmove : Succeeds (ChainM.retargetAll ⟨3⟩ ⟨4⟩) (Chain.empty.reached medley) = true := by
    decide +kernel
  obtain ⟨source, hsource, htable⟩ := Option.map_eq_some_iff.mp hjumper
  obtain ⟨found, hfound⟩ := Option.isSome_iff_exists.mp htarget
  obtain ⟨_, hretarget⟩ := Succeeds.ok hmove
  obtain ⟨hlisted, hpresent, hmoved, -⟩ := crossed_along_calls medley medley_admitted
  refine ⟨source, found, _, medley_admitted, hsource, htable, hfound, ?_, (hpresent ⟨3⟩ found hfound).1,
    hretarget, hmoved ⟨3⟩ ⟨4⟩ _ (by decide) hretarget⟩
  exact (hlisted ⟨1⟩ ⟨3⟩ source found hsource hfound).mpr (.inr (by simp [htable]))

end Chain

end Splice
