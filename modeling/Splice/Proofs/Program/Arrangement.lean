import Splice.Proofs.Program.Excision
import Splice.Proofs.Program.Pending

/-!
# Splices in a layout

A splice puts instructions in the place of one: in front of it or behind it, which is
itself among those that are put there then, or instead of it. Sections stay `Consecutive`
(`Chain.Consecutive.splice`), functions own their runs (`Rebounds.owned`), and what the shift
of the splice is about to do is all that keeps the code from being in place
(`FitsOwned.pending`).

The two structures say what a splice has to get right. `Fits`: what comes in is of the section
and the function of the site, lies back to back, and the shift is by the difference.
`FitsOwned`: the bounds of the site's function follow. Each of the four splices is shown to be
of this kind in `Splice.Proofs.Program.InPlace`, and what follows from it is proved here once.
-/

namespace Splice

namespace Chain

variable {chain after : Chain} {sec other : SectionId} {func : Option FuncId} {addr stop : UInt64}
  {site id : InstrId} {ids xs ys mid front rest : List InstrId}

/-! ## Code that lies back to back -/

theorem extent_cons : chain.extent sec (id :: ids) = chain.extent sec [id] + chain.extent sec ids :=
  show chain.extent sec ([id] ++ ids) = _ from extent_append

/-- Instructions back to back end where their bytes do. -/
theorem Stacked.stop_eq (h : chain.Stacked sec func addr ids stop) :
    stop = addr + chain.extent sec ids := by
  induction ids generalizing addr with
  | nil =>
    rw [← show addr = stop from h]
    exact (UInt64.add_zero addr).symm
  | cons id ids ih =>
    obtain ⟨instr, hinstr, -, hsec, -, hrest⟩ := h
    rw [ih hrest, extent_cons, extent_singleton hinstr, if_pos hsec, UInt64.add_assoc]

/-- The same with the sizes added up one by one. -/
theorem Stacked.sum (h : chain.Stacked sec func addr ids stop) :
    stop = addr + (ids.map chain.sizeOf).sum := by
  induction ids generalizing addr with
  | nil =>
    rw [← show addr = stop from h]
    exact (UInt64.add_zero addr).symm
  | cons id ids ih =>
    obtain ⟨instr, hinstr, -, -, -, hrest⟩ := h
    rw [ih hrest, List.map_cons, List.sum_cons, sizeOf_eq hinstr, UInt64.add_assoc]

/-- It fills no bytes of another section. -/
theorem Stacked.extent_other (h : chain.Stacked sec func addr ids stop) (hne : other ≠ sec) :
    chain.extent other ids = 0 := by
  induction ids generalizing addr with
  | nil => rfl
  | cons id ids ih =>
    obtain ⟨instr, hinstr, -, hsec, -, hrest⟩ := h
    rw [extent_cons, extent_singleton hinstr, if_neg fun he => hne (he.symm.trans hsec), ih hrest]
    rfl

/-- An instruction of code that is back to back is behind the bytes of those in front of it. -/
theorem Stacked.get? (h : chain.Stacked sec func addr (front ++ id :: rest) stop) :
    ∃ instr, chain.get? id = some instr ∧ instr.sec = sec ∧ instr.func = func
      ∧ instr.addr = addr + chain.extent sec front := by
  induction front generalizing addr with
  | nil =>
    obtain ⟨instr, hinstr, haddr, hsec, hfunc, -⟩ := h
    exact ⟨instr, hinstr, hsec, hfunc, haddr.trans (UInt64.add_zero addr).symm⟩
  | cons head front ih =>
    obtain ⟨first, hfirst, -, hsec, -, hrest⟩ := h
    obtain ⟨instr, hinstr, hinstrSec, hfunc, haddr⟩ := ih hrest
    refine ⟨instr, hinstr, hinstrSec, hfunc, ?_⟩
    rw [haddr, extent_cons, extent_singleton hfirst, if_pos hsec, UInt64.add_assoc]

/-! ## Sections -/

/-- Where an instruction was before `mid` instructions took the place of the one at `front`. -/
def contract (front mid index : Nat) : Nat :=
  if index < front then index else if index < front + mid then front else index - mid + 1

/-- Positions keep their order when a splice is undone. -/
theorem contract_mono {front mid i j : Nat} (h : i ≤ j) :
    contract front mid i ≤ contract front mid j := by
  unfold contract
  by_cases hfront : i < front
  · rw [if_pos hfront]
    split
    · omega
    · split <;> omega
  · have hbehind : ¬j < front := by omega
    rw [if_neg hfront, if_neg hbehind]
    split <;> split <;> omega

/-- Read back, what came in was where the site was, and what stayed was where it was. -/
theorem getElem?_splice (site : InstrId) {i : Nat} (h : (xs ++ mid ++ ys)[i]? = some id) :
    id ∈ mid ∧ (xs ++ site :: ys)[contract xs.length mid.length i]? = some site
      ∨ id ∈ xs ++ ys ∧ (xs ++ site :: ys)[contract xs.length mid.length i]? = some id := by
  rw [List.append_assoc] at h
  unfold contract
  by_cases hfront : i < xs.length
  · rw [List.getElem?_append_left hfront] at h
    rw [if_pos hfront, List.getElem?_append_left hfront]
    exact .inr ⟨List.mem_append_left _ (List.mem_of_getElem? h), h⟩
  · rw [List.getElem?_append_right (by omega)] at h
    rw [if_neg hfront]
    by_cases hmid : i < xs.length + mid.length
    · rw [List.getElem?_append_left (by omega)] at h
      rw [if_pos hmid, List.getElem?_append_right (by omega), Nat.sub_self]
      exact .inl ⟨List.mem_of_getElem? h, rfl⟩
    · rw [List.getElem?_append_right (by omega)] at h
      have hindex : i - mid.length + 1 - xs.length = i - xs.length - mid.length + 1 := by omega
      rw [if_neg hmid, List.getElem?_append_right (by omega), hindex, List.getElem?_cons_succ]
      exact .inr ⟨List.mem_append_right _ (List.mem_of_getElem? h), h⟩

/-- Sections have no gaps after a splice if it puts in code of the section of what it replaces. -/
theorem Consecutive.splice (h : chain.Consecutive (xs ++ site :: ys))
    (hmid : ∀ x ∈ mid, ∀ sec, after.inSection sec x = chain.inSection sec site)
    (hkept : ∀ x ∈ xs ++ ys, ∀ sec, after.inSection sec x = chain.inSection sec x) :
    after.Consecutive (xs ++ mid ++ ys) := by
  intro i j k a b c sec hij hjk ha hb hc hasec hcsec
  -- each instruction stands where one of the same section stood
  have hstood : ∀ (n : Nat) x, (xs ++ mid ++ ys)[n]? = some x →
      ∃ y, (xs ++ site :: ys)[contract xs.length mid.length n]? = some y
        ∧ after.inSection sec x = chain.inSection sec y := by
    intro n x hx
    rcases getElem?_splice site hx with ⟨hmem, hget⟩ | ⟨hmem, hget⟩
    · exact ⟨site, hget, hmid x hmem sec⟩
    · exact ⟨x, hget, hkept x hmem sec⟩
  obtain ⟨a', ha', hasec'⟩ := hstood i a ha
  obtain ⟨b', hb', hbsec'⟩ := hstood j b hb
  obtain ⟨c', hc', hcsec'⟩ := hstood k c hc
  rw [hbsec']
  exact h _ _ _ a' b' c' sec (contract_mono hij) (contract_mono hjk) ha' hb' hc'
    (hasec' ▸ hasec) (hcsec' ▸ hcsec)

/-- What is in front of instructions of the section leads them if it is of the section itself. -/
theorem Leading.cons (h : chain.Leading sec ys) (hid : chain.inSection sec id = true) :
    chain.Leading sec (id :: ys) := by
  intro front other rest hys hother x hx
  cases front with
  | nil => cases hx
  | cons head front =>
    rw [List.cons_append, List.cons.injEq] at hys
    rcases List.mem_cons.mp hx with rfl | hx
    · exact hys.1 ▸ hid
    · exact h front other rest hys.2 hother x hx

/-- Leading depends on the sections of the instructions alone. -/
theorem Leading.keep (h : chain.Leading sec ys)
    (hkept : ∀ x ∈ ys, after.inSection sec x = chain.inSection sec x) : after.Leading sec ys := by
  intro front id rest hys hid x hx
  have hmem : ∀ y, y = id ∨ y ∈ front → y ∈ ys := by
    intro y hy
    rw [hys, List.mem_append, List.mem_cons]
    rcases hy with hy | hy
    · exact .inr (.inl hy)
    · exact .inl hy
  rw [hkept x (hmem x (.inr hx))]
  exact h front id rest hys (hkept id (hmem id (.inl rfl)) ▸ hid) x hx

/-! ## Places that are taken over -/

/-- Each instruction of `ids` is in the section and in the function of one of `old`. -/
def Inherits (chain after : Chain) (old ids : List InstrId) : Prop :=
  ∀ x ∈ ids, ∃ y ∈ old, ∃ a b, chain.get? y = some a ∧ after.get? x = some b ∧ b.sec = a.sec ∧ b.func = a.func

/-- What comes of one splice and then of another comes of both. -/
theorem Inherits.trans {last : Chain} {old more : List InstrId} (h : chain.Inherits after old ids)
    (k : after.Inherits last ids more) : chain.Inherits last old more := by
  intro x hx
  obtain ⟨y, hy, b, c, hb, hc, hsec, hfunc⟩ := k x hx
  obtain ⟨z, hz, a, b', ha, hb', hsec', hfunc'⟩ := h y hy
  obtain rfl := Option.some.inj (hb.symm.trans hb')
  exact ⟨z, hz, a, c, ha, hc, hsec.trans hsec', hfunc.trans hfunc'⟩

/-- Instructions that stay come of themselves. -/
theorem Inherits.of_subset (hids : ∀ x ∈ ids, (chain.get? x).isSome) (hsub : ids ⊆ front) :
    chain.Inherits chain front ids := by
  intro x hx
  obtain ⟨a, ha⟩ := Option.isSome_iff_exists.mp (hids x hx)
  exact ⟨x, hsub hx, a, a, ha, ha, rfl, rfl⟩

/-- A step that leaves sections and functions alone lets every instruction come of itself. -/
theorem Inherits.of_evolves {r : InstrId → Instruction → Instruction → Prop} (h : chain.Evolves r after)
    (hr : ∀ id a b, r id a b → b.sec = a.sec ∧ b.func = a.func) (hids : ∀ x ∈ ids, (chain.get? x).isSome) :
    chain.Inherits after ids ids := by
  intro x hx
  obtain ⟨a, ha⟩ := Option.isSome_iff_exists.mp (hids x hx)
  obtain ⟨b, hb, hab⟩ := h.get? ha
  exact ⟨x, hx, a, b, ha, hb, hr x a b hab⟩

end Chain

/-! ## Functions -/

namespace Program

variable {program after : Program} {xs ys mid : List InstrId} {site : InstrId} {found : Instruction}
  {f : Function → Function}

/-- The functions after a splice at `site`: that of the instruction there has `mid` in the place of it
in its run, and each other one is what it was. -/
structure Rebounds (program after : Program) (xs ys mid : List InstrId) (site : InstrId)
    (found : Instruction) (f : Function → Function) : Prop where
  get? : ∀ id, after.functions.get? id
    = if found.func = some id then (program.functions.get? id).map f else program.functions.get? id
  fixed : ∀ function, (f function).addr = function.addr ∧ (f function).size = function.size
  bounds : ∀ id function front behind, found.func = some id →
    program.functions.get? id = some function →
    function.Spans (xs ++ site :: ys) (front ++ site :: behind) →
    (function.bounded site mid behind front).Carried (f function)

/-- A function after a splice is one that does not hold the site, and is what it was, or the one that
does, with `mid` in its place. -/
theorem Rebounds.cases (h : Rebounds program after xs ys mid site found f)
    (howned : program.Owned (xs ++ site :: ys)) (hnodup : (xs ++ site :: ys).Nodup)
    (hfound : program.chain.get? site = some found) {id : FuncId} {function : Function}
    (hfunction : after.functions.get? id = some function) :
    (found.func ≠ some id ∧ program.functions.get? id = some function
        ∧ ∃ run, function.Spans (xs ++ site :: ys) run ∧ function.Spans (xs ++ mid ++ ys) run
          ∧ site ∉ run)
      ∨ found.func = some id ∧ ∃ old front behind, program.functions.get? id = some old
        ∧ function = f old ∧ old.Spans (xs ++ site :: ys) (front ++ site :: behind)
        ∧ function.Spans (xs ++ mid ++ ys) (front ++ mid ++ behind) := by
  have hsite : site ∈ xs ++ site :: ys := List.mem_append_right _ (List.mem_cons_self ..)
  rw [h.get?] at hfunction
  by_cases hfunc : found.func = some id
  · rw [if_pos hfunc, Option.map_eq_some_iff] at hfunction
    obtain ⟨old, hold, rfl⟩ := hfunction
    obtain ⟨run, hspans, hstamped⟩ := howned id old hold
    obtain ⟨front, behind, rfl⟩ := List.append_of_mem ((hstamped site hsite found hfound).mp hfunc)
    exact .inr ⟨hfunc, old, front, behind, hold, rfl, hspans,
      (h.bounds id old front behind hfunc hold hspans).spans (hspans.splice hnodup)⟩
  · rw [if_neg hfunc] at hfunction
    obtain ⟨run, hspans, hstamped⟩ := howned id function hfunction
    have hnot : site ∉ run := fun hmem => hfunc ((hstamped site hsite found hfound).mpr hmem)
    exact .inl ⟨hfunc, hfunction, run, hspans, hspans.aside hnodup hnot, hnot⟩

/-- The runs of the functions after a splice are those before it, so what was stamped for a run is
still. -/
theorem Rebounds.owned (h : Rebounds program after xs ys mid site found f)
    (howned : program.Owned (xs ++ site :: ys)) (hl : program.chain.Spells (xs ++ site :: ys))
    (hl' : after.chain.Spells (xs ++ mid ++ ys)) (hfound : program.chain.get? site = some found)
    (hkept : program.chain.Retains (fun _ a b => a.Alike b) (· ∈ xs ++ ys) after.chain)
    (hmid : ∀ x ∈ mid, ∃ instr, after.chain.get? x = some instr ∧ instr.func = found.func) :
    after.Owned (xs ++ mid ++ ys) := by
  intro id function hfunction
  have hsub : ∀ x ∈ xs ++ ys, x ∈ xs ++ site :: ys ∧ x ≠ site ∧ x ∉ mid := by
    intro x hx
    refine ⟨?_, fun he => hl.not_mem_rest (he ▸ hx), fun hmem => ?_⟩
    · exact mem_site_iff.mpr (.inr hx)
    · obtain ⟨hfront, -, hbehind⟩ := List.nodup_append.mp hl'.nodup
      rcases List.mem_append.mp hx with hxs | hys
      · exact (List.nodup_append.mp hfront).2.2 x hxs x hmem rfl
      · exact hbehind x (List.mem_append_right _ hmem) x hys rfl
  -- either the function has nothing to do with the site, or the site is one of its own
  rcases h.cases howned hl.nodup hfound hfunction with
    ⟨hfunc, hold, run, hspans, hspans', hnot⟩ | ⟨hfunc, old, front, behind, hold, -, hspans, hspans'⟩
  · refine ⟨run, hspans', fun x hx instr hinstr => ?_⟩
    rcases mem_mid_iff.mp hx with hmem | hmem
    · obtain ⟨instr', hinstr', hsame⟩ := hmid x hmem
      rw [hinstr, Option.some.injEq] at hinstr'
      subst hinstr'
      rw [hsame]
      refine ⟨fun he => absurd he hfunc, fun hrun => ?_⟩
      have hx' := hspans.subset hrun
      by_cases hxsite : x = site
      · exact absurd (hxsite ▸ hrun) hnot
      · have hrest : x ∈ xs ++ ys := hl.mem_rest_iff.mpr ⟨hx', hxsite⟩
        exact absurd hmem (hsub x hrest).2.2
    · obtain ⟨before, hbefore, halike⟩ := hkept.get?_of hmem hinstr
      rw [halike.func]
      exact howned.stamped hl hold hspans (hsub x hmem).1 hbefore
  · refine ⟨front ++ mid ++ behind, hspans', fun x hx instr hinstr => ?_⟩
    rcases mem_mid_iff.mp hx with hmem | hmem
    · obtain ⟨instr', hinstr', hsame⟩ := hmid x hmem
      rw [hinstr, Option.some.injEq] at hinstr'
      subst hinstr'
      rw [hsame]
      exact ⟨fun _ => List.mem_append_left _ (List.mem_append_right _ hmem), fun _ => hfunc⟩
    · obtain ⟨before, hbefore, halike⟩ := hkept.get?_of hmem hinstr
      obtain ⟨hx', hne, hnot⟩ := hsub x hmem
      rw [halike.func, howned.stamped hl hold hspans hx' hbefore, mem_site_iff, mem_mid_iff]
      simp only [hne, hnot, false_or]

/-! ## Splices that fit -/

/-- A splice whose shift is the difference that it makes: what is `placed` lies back to back from the
address of the site on, to where the shift takes the `rest` from where it was behind what is `gone`. -/
structure Fits (program after : Program) (xs ys mid : List InstrId) (site : InstrId)
    (found : Instruction) (gone placed rest : List InstrId) (shift : Shift) : Prop where
  get? : program.chain.get? site = some found
  spells : after.chain.Spells (xs ++ mid ++ ys)
  taken : gone = [] ∨ gone = [site]
  before : gone ++ rest = site :: ys
  behind : placed ++ rest = mid ++ ys
  kept : program.chain.Retains (fun _ a b => a.Alike b) (· ∈ xs ++ rest) after.chain
  bases : after.bases = program.bases
  sec : shift.sec = found.sec
  func : shift.func = found.func
  first : shift.first = rest.head?
  given : after.chain.Stacked found.sec found.func found.addr placed
    (found.addr + program.chain.extent found.sec gone + shift.delta.toUInt64)

/-- A splice that fits and lets the function of the site follow by changing its bounds with `f`. -/
structure FitsOwned (program after : Program) (xs ys mid : List InstrId) (site : InstrId)
    (found : Instruction) (f : Function → Function) (gone placed rest : List InstrId)
    (shift : Shift) : Prop extends Fits program after xs ys mid site found gone placed rest shift where
  functions : Rebounds program after xs ys mid site found f
  /-- The function begins where it did, or at what is going to be moved there. -/
  head : ∀ id function behind x instr, found.func = some id →
    program.functions.get? id = some function →
    function.Spans (xs ++ site :: ys) (site :: behind) → (mid ++ behind).head? = some x →
    after.chain.get? x = some instr →
    instr.addr = found.addr ∨ shift.delta ≠ 0 ∧ x ∈ after.chain.reach shift

namespace Fits

variable {gone placed rest : List InstrId} {shift : Shift}

/-- What is placed belongs to the function that the shift makes grow. -/
theorem owner (h : Fits program after xs ys mid site found gone placed rest shift)
    (hplaced : placed ≠ []) :
    ∃ id instr, after.chain.get? id = some instr ∧ instr.func = shift.func := by
  obtain ⟨id, placed, rfl⟩ := List.exists_cons_of_ne_nil hplaced
  obtain ⟨instr, hinstr, -, -, hfunc, -⟩ := h.given
  exact ⟨id, instr, hinstr, hfunc.trans h.func.symm⟩

/-- What a splice takes away is of the section of the site, and no other section gets shorter. -/
theorem extent_gone (h : Fits program after xs ys mid site found gone placed rest shift)
    {sec : SectionId} (hsec : sec ≠ found.sec) : program.chain.extent sec gone = 0 := by
  rcases h.taken with hgone | hgone
  · rw [hgone]
    rfl
  · rw [hgone, Chain.extent_singleton h.get?, if_neg hsec.symm]

/-- The rest is the code behind the site, and the site itself if it stays. -/
theorem rest_eq (h : Fits program after xs ys mid site found gone placed rest shift) :
    gone = [] ∧ rest = site :: ys ∨ gone = [site] ∧ rest = ys := by
  have hbefore := h.before
  rcases h.taken with hgone | hgone
  · rw [hgone, List.nil_append] at hbefore
    exact .inl ⟨hgone, hbefore⟩
  · rw [hgone, List.singleton_append, List.cons.injEq] at hbefore
    exact .inr ⟨hgone, hbefore.2⟩

/-- The instructions on both sides keep section, function and length. -/
theorem kept_ys (h : Fits program after xs ys mid site found gone placed rest shift) :
    program.chain.Retains (fun _ a b => a.Alike b) (· ∈ xs ++ ys) after.chain := by
  refine h.kept.mono (fun _ _ _ _ h => h) fun x hx => ?_
  rcases h.rest_eq with ⟨-, hrest⟩ | ⟨-, hrest⟩
  · rw [hrest]
    exact mem_site_iff.mpr (.inr hx)
  · rw [hrest]
    exact hx

/-- What comes in is of the section and the function of the site. -/
theorem inside (h : Fits program after xs ys mid site found gone placed rest shift)
    {x : InstrId} (hx : x ∈ mid) :
    ∃ instr, after.chain.get? x = some instr ∧ instr.sec = found.sec ∧ instr.func = found.func := by
  have hmem : x ∈ placed ++ rest := h.behind ▸ List.mem_append_left _ hx
  rcases List.mem_append.mp hmem with hplaced | hrest
  · obtain ⟨front, tail, rfl⟩ := List.append_of_mem hplaced
    obtain ⟨instr, hinstr, hsec, hfunc, -⟩ := h.given.get?
    exact ⟨instr, hinstr, hsec, hfunc⟩
  · have hnot : x ∉ ys := fun hys =>
      (List.nodup_append.mp h.spells.nodup).2.2 x (List.mem_append_right _ hx) x hys rfl
    rcases h.rest_eq with ⟨-, heq⟩ | ⟨-, heq⟩
    · have hsite : x = site := (List.mem_cons.mp (heq ▸ hrest)).resolve_right hnot
      obtain ⟨instr, hinstr, halike⟩ := h.kept.get? (List.mem_append_right _ hrest) (hsite ▸ h.get?)
      exact ⟨instr, hinstr, halike.sec, halike.func⟩
    · exact absurd (heq ▸ hrest) hnot

/-- What is put in belongs where the site does, and nothing else changes its place. -/
theorem inherits (h : Fits program after xs ys mid site found gone placed rest shift) {old ids : List InstrId}
    (hids : ∀ x ∈ ids, x ∈ mid ∧ site ∈ old ∨ x ∈ xs ++ ys ∧ x ∈ old) :
    program.chain.Inherits after.chain old ids := by
  intro x hx
  rcases hids x hx with ⟨hmid, hsite⟩ | ⟨hkept, hold⟩
  · obtain ⟨instr, hinstr, hsec, hfunc⟩ := h.inside hmid
    exact ⟨site, hsite, found, instr, h.get?, hinstr, hsec, hfunc⟩
  · obtain ⟨instr, hinstr⟩ := h.spells.get?_isSome (mem_mid_iff.mpr (.inr hkept))
    obtain ⟨before, hbefore, halike⟩ := h.kept_ys.get?_of hkept hinstr
    exact ⟨x, hold, before, instr, hbefore, hinstr, halike.sec, halike.func⟩

/-- What is put in is as much longer than the site as the shift says. -/
theorem sum_mid (h : Fits program after xs ys mid site found gone placed rest shift) :
    (mid.map after.chain.sizeOf).sum = found.size + shift.delta.toUInt64 := by
  have hplaced := h.given.sum
  have hsum := congrArg (fun ids => (ids.map after.chain.sizeOf).sum) h.behind
  simp only [List.map_append, List.sum_append] at hsum
  rcases h.rest_eq with ⟨hgone, hrest⟩ | ⟨hgone, hrest⟩
  · have hsite : after.chain.sizeOf site = found.size := by
      rw [h.kept.sizeOf (fun _ a b hab => hab.size) (by simp [hrest]), Chain.sizeOf_eq h.get?]
    have hnone : program.chain.extent found.sec [] = 0 := rfl
    rw [hgone, hnone] at hplaced
    rw [hrest, List.map_cons, List.sum_cons, hsite] at hsum
    grind
  · rw [hgone, Chain.extent_singleton h.get?, if_pos rfl] at hplaced
    rw [hrest] at hsum
    grind

/-- What the shift is about to move leads the rest of its section, in the new order as in the old. -/
theorem leading (h : Fits program after xs ys mid site found gone placed rest shift)
    (hprogram : program.Gapless (xs ++ site :: ys)) : after.chain.Leading shift.sec rest := by
  have hsite : program.chain.inSection shift.sec site = true :=
    (Chain.inSection_iff h.get?).mpr h.sec.symm
  have hleading := hprogram.consecutive.leading hsite
  have hrest : program.chain.Leading shift.sec rest := by
    rcases h.rest_eq with ⟨-, heq⟩ | ⟨-, heq⟩
    · rw [heq]
      exact hleading.cons hsite
    · rw [heq]
      exact hleading
  exact hrest.keep fun x hx =>
    h.kept.inSection (fun _ a b hab => hab.sec) (List.mem_append_right _ hx)

/-- The splice leaves no gap but the one that its shift closes. -/
theorem gapless (h : Fits program after xs ys mid site found gone placed rest shift)
    (hprogram : program.Gapless (xs ++ site :: ys)) : after.Gapless (xs ++ mid ++ ys) where
  spells := h.spells
  consecutive := by
    refine hprogram.consecutive.splice (fun x hx sec => ?_) fun x hx sec => ?_
    · obtain ⟨instr, hinstr, hsec, -⟩ := h.inside hx
      rw [Chain.inSection, Chain.inSection, hinstr, h.get?, Option.any_some, Option.any_some, hsec]
    · exact h.kept_ys.inSection (fun _ a b hab => hab.sec) hx

/-! ### What is left to be done -/

/-- Every instruction is at its place in the layout once the shift is carried out. In front of the site
nothing has changed, in `mid` the code is back to back by what `Fits` says, and behind it the shift makes
up for the difference. -/
theorem place (h : Fits program after xs ys mid site found gone placed rest shift)
    (hs : program.Gapless (xs ++ site :: ys)) (hlaid : program.LaidOut (xs ++ site :: ys))
    {front tail : List InstrId} {id : InstrId} {instr : Instruction}
    (hsplit : xs ++ mid ++ ys = front ++ id :: tail) (hid : after.chain.get? id = some instr) :
    instr.addr + (if id ∈ after.chain.reach shift then shift.delta.toUInt64 else 0)
      = after.place instr.sec front := by
  have hold : xs ++ site :: ys = xs ++ gone ++ rest := by rw [List.append_assoc, h.before]
  have hnew : xs ++ mid ++ ys = xs ++ placed ++ rest := by
    rw [List.append_assoc, ← h.behind, List.append_assoc]
  have hspells := h.spells
  rw [hnew] at hsplit hspells
  have hreach : id ∈ after.chain.reach shift
      ↔ id ∈ rest ∧ after.chain.inSection shift.sec id = true :=
    Chain.mem_reach hspells h.first (h.leading hs)
  have hextent : ∀ sec ids, (∀ x ∈ ids, x ∈ xs ++ rest) →
      after.chain.extent sec ids = program.chain.extent sec ids :=
    fun sec ids hids => h.kept.extent (fun _ a b hab => ⟨hab.sec, hab.size⟩) hids
  have hplace : ∀ sec ids, after.place sec (xs ++ ids)
      = program.place sec xs + after.chain.extent sec ids := by
    intro sec ids
    rw [place_append, Program.place, Program.place, h.bases,
      hextent sec xs fun x hx => List.mem_append_left _ hx]
  have hnodup := hspells.nodup
  have hdisjoint : ∀ x ∈ xs ++ placed, x ∉ rest := fun x hx hrest =>
    (List.nodup_append.mp hnodup).2.2 x hx x hrest rfl
  have hmem : id ∈ xs ++ placed ++ rest := hsplit ▸ List.mem_append_right _ (List.mem_cons_self ..)
  rw [List.mem_append, List.mem_append] at hmem
  -- an instruction lies in front of the site, among what was put there, or behind it; only the last can
  -- be reached by the shift
  rcases hmem with (hxs | hplaced) | hrest
  · -- in front of the site nothing is different
    obtain ⟨us, vs, rfl⟩ := List.append_of_mem hxs
    have hcut : us ++ id :: (vs ++ placed ++ rest) = front ++ id :: tail := by simpa using hsplit
    have hrest : id ∉ rest := hdisjoint id (List.mem_append_left _ hxs)
    rw [if_neg fun hmem => hrest (hreach.mp hmem).1, UInt64.add_zero,
      (cut_inj (by simpa using hnodup) hcut).1]
    obtain ⟨old, hget, halike⟩ := h.kept.get?_of (List.mem_append_left _ hxs) hid
    have haddr := hlaid us id (vs ++ site :: ys) old (by simp) hget
    rw [halike.addr, halike.sec, haddr, Program.place, Program.place, h.bases,
      hextent old.sec us fun x hx => by simp [hx]]
  · obtain ⟨us, vs, rfl⟩ := List.append_of_mem hplaced
    have hcut : (xs ++ us) ++ id :: (vs ++ rest) = front ++ id :: tail := by simpa using hsplit
    have hrest : id ∉ rest := hdisjoint id (List.mem_append_right _ hplaced)
    rw [if_neg fun hmem => hrest (hreach.mp hmem).1, UInt64.add_zero,
      (cut_inj (by simpa using hnodup) hcut).1, hplace]
    obtain ⟨instr', hinstr', hsec, -, haddr⟩ := h.given.get?
    rw [hid, Option.some.injEq] at hinstr'
    subst hinstr'
    rw [haddr, hsec, hlaid xs site ys found rfl h.get?]
  · obtain ⟨us, vs, heq⟩ := List.append_of_mem hrest
    have hcut : (xs ++ placed ++ us) ++ id :: vs = front ++ id :: tail := by
      rw [← hsplit, heq, List.append_assoc]
    obtain ⟨old, hget, halike⟩ := h.kept.get?_of (List.mem_append_right _ hrest) hid
    have haddr := hlaid (xs ++ (gone ++ us)) id vs old (by simp [hold, heq]) hget
    have hus := hextent old.sec us fun x hx => List.mem_append_right _ (heq ▸ List.mem_append_left _ hx)
    have hsection : after.chain.inSection shift.sec id = true ↔ old.sec = found.sec := by
      rw [Chain.inSection_iff hid, halike.sec, h.sec]
    rw [(cut_inj (by rwa [heq, ← List.append_assoc] at hnodup) hcut).1, List.append_assoc,
      hplace, halike.addr, halike.sec, haddr, place_append, Chain.extent_append, Chain.extent_append,
      hus]
    by_cases hsec : old.sec = found.sec
    · -- what lies behind the site in its section is moved by the difference
      have hstop := h.given.stop_eq
      rw [if_pos (hreach.mpr ⟨hrest, hsection.mpr hsec⟩), hsec]
      grind
    · rw [if_neg fun hmem => hsec (hsection.mp (hreach.mp hmem).2), h.extent_gone hsec,
        h.given.extent_other hsec, UInt64.add_zero]

/-- After the splice every instruction is in place but for what the shift is about to do. -/
theorem owing (h : Fits program after xs ys mid site found gone placed rest shift)
    (hs : program.Gapless (xs ++ site :: ys)) (howing : program.Owing (xs ++ site :: ys) []) :
    after.Owing (xs ++ mid ++ ys) [shift] := by
  refine ⟨fun front id tail instr hsplit hid => ?_⟩
  rw [Chain.owed, List.map_singleton, List.sum_singleton]
  exact h.place hs (owing_nil.mp howing) hsplit hid

end Fits

namespace FitsOwned

variable {gone placed rest : List InstrId} {shift : Shift}

/-- Gaplessness and the runs of the functions outlast the splice together. -/
theorem orderly (h : FitsOwned program after xs ys mid site found f gone placed rest shift)
    (hprogram : program.Orderly (xs ++ site :: ys)) : after.Orderly (xs ++ mid ++ ys) where
  toGapless := h.gapless hprogram.toGapless
  owned := by
    refine h.functions.owned hprogram.owned hprogram.spells h.spells h.get? h.kept_ys fun x hx => ?_
    obtain ⟨instr, hinstr, -, hfunc⟩ := h.inside hx
    exact ⟨instr, hinstr, hfunc⟩

/-- The size of a function is the bytes of its run once the shift has been added: only the function of the
site has gained or lost any. -/
theorem size (h : FitsOwned program after xs ys mid site found f gone placed rest shift)
    (hs : program.Orderly (xs ++ site :: ys)) (hmeasured : program.Measured) {id : FuncId}
    {function : Function} (hfunction : after.functions.get? id = some function)
    (hdefined : function.isDefined = true) :
    function.size + (if shift.func = some id then shift.delta.toUInt64 else 0)
      = ((function.instructions after.chain).map after.chain.sizeOf).sum := by
  have hsizes : ∀ ids : List InstrId, (∀ x ∈ ids, x ∈ xs ++ ys) →
      (ids.map after.chain.sizeOf).sum = (ids.map program.chain.sizeOf).sum := by
    intro ids hids
    refine congrArg List.sum (List.map_congr_left fun x hx => ?_)
    exact h.kept_ys.sizeOf (fun _ a b hab => hab.size) (hids x hx)
  rw [h.func]
  rcases h.functions.cases hs.owned hs.spells.nodup h.get? hfunction with
    ⟨hfunc, hold, run, hspans, hspans', hnot⟩ | ⟨hfunc, old, front, behind, hold, rfl, hspans, hspans'⟩
  · have hsum := hmeasured id function hold hdefined
    rw [hspans.instructions hs.spells] at hsum
    rw [if_neg hfunc, UInt64.add_zero, hsum, hspans'.instructions h.spells, hsizes run fun x hx => ?_]
    exact hs.spells.mem_rest_iff.mpr ⟨hspans.subset hx, fun he => hnot (he ▸ hx)⟩
  · have hbegins : old.isDefined = true := by
      obtain ⟨_, _, -, hfirst, -⟩ := hspans
      rw [Function.isDefined, hfirst]
      simp
    have hsum := hmeasured id old hold hbegins
    have hsub : ∀ x, x ∈ front ∨ x ∈ behind → x ∈ xs ++ ys := fun x hx =>
      hspans.mem_rest hs.spells.nodup hx
    rw [hspans.instructions hs.spells] at hsum
    rw [if_pos hfunc, (h.functions.fixed old).2, hsum, hspans'.instructions h.spells]
    simp only [List.map_append, List.sum_append, List.map_cons, List.sum_cons, h.sum_mid,
      Chain.sizeOf_eq h.get?, hsizes front fun x hx => hsub x (.inl hx),
      hsizes behind fun x hx => hsub x (.inr hx)]
    grind

/-- A function begins at its first instruction, or the shift is about to move both. -/
theorem anchored (h : FitsOwned program after xs ys mid site found f gone placed rest shift)
    (hs : program.Orderly (xs ++ site :: ys)) (hanchored : ∀ id, program.Anchored id) (id : FuncId) :
    after.Anchored id
      ∨ shift.delta ≠ 0 ∧ after.functions.BeginsAt id (after.chain.reach shift) := by
  -- a function whose first instruction stays is where that is
  have hstays : ∀ (function old : Function) first instr, program.functions.get? id = some old →
      old.first = some first → function.addr = old.addr → first ∈ xs ++ ys →
      after.chain.get? first = some instr → instr.func = some id → function.addr = instr.addr := by
    intro function old first instr hold hfirst haddr hmem hinstr hfunc
    obtain ⟨before, hbefore, halike⟩ := h.kept_ys.get?_of hmem hinstr
    rw [haddr, halike.addr]
    exact hanchored id old first before hold hfirst hbefore (halike.func.symm.trans hfunc)
  by_cases hbegins : shift.delta ≠ 0 ∧ after.functions.BeginsAt id (after.chain.reach shift)
  · exact .inr hbegins
  · left
    intro function first instr hfunction hfirst hinstr hfunc
    rcases h.functions.cases hs.owned hs.spells.nodup h.get? hfunction with
      ⟨hother, hold, run, hspans, -, hnot⟩ | ⟨hsame, old, front, behind, hold, rfl, hspans, hspans'⟩
    · refine hstays function function first instr hold hfirst rfl ?_ hinstr hfunc
      have hrun : first ∈ run := by
        obtain ⟨_, _, -, hhead, -⟩ := hspans
        exact List.mem_of_head? (hhead.symm.trans hfirst)
      exact hs.spells.mem_rest_iff.mpr ⟨hspans.subset hrun, fun he => hnot (he ▸ hrun)⟩
    · obtain ⟨us, vs, hxs, -⟩ := hspans.sides hs.spells.nodup
      have hhead : old.first = (front ++ site :: behind).head? := by
        obtain ⟨_, _, -, hhead, -⟩ := hspans
        exact hhead
      have hhead' : (f old).first = (front ++ mid ++ behind).head? := by
        obtain ⟨_, _, -, hhead, -⟩ := hspans'
        exact hhead
      rw [hfirst] at hhead'
      cases front with
      | cons x front =>
        obtain rfl : first = x := Option.some.inj hhead'
        refine hstays (f old) old first instr hold hhead (h.functions.fixed old).1 ?_ hinstr hfunc
        simp [hxs]
      | nil =>
        have haddr : old.addr = found.addr := hanchored id old site found hold hhead h.get? hsame
        rw [(h.functions.fixed old).1, haddr]
        rcases h.head id old behind first instr hsame hold hspans hhead'.symm hinstr with hdone | hmoved
        · exact hdone.symm
        · exact absurd ⟨hmoved.1, f old, first, hfunction, hfirst, hmoved.2⟩ hbegins

/-- After the splice everything is in place but for what its shift is about to do. -/
theorem pending (h : FitsOwned program after xs ys mid site found f gone placed rest shift)
    (hs : program.Orderly (xs ++ site :: ys)) (hpending : program.Pending (xs ++ site :: ys) []) :
    after.Pending (xs ++ mid ++ ys) [shift] := by
  obtain ⟨-, hmeasured, hanchored⟩ := pending_nil.mp hpending
  refine ⟨h.owing hs.toGapless hpending.toOwing, fun id function hfunction hdefined => ?_, fun id => ?_⟩
  · rw [owedBy, List.map_singleton, List.sum_singleton]
    exact h.size hs hmeasured hfunction hdefined
  · rcases h.anchored hs hanchored id with hdone | hmoved
    · exact .inl hdone
    · exact .inr ⟨shift, List.mem_singleton_self shift, hmoved⟩

end FitsOwned

end Program

end Splice
