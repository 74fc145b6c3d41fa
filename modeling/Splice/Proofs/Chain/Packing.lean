import Mathlib.Data.List.Basic
import Splice.Chain.Compact
import Splice.Proofs.Chain.Order
import Splice.Proofs.Instruction.Likeness

/-!
# Packed chains

A chain can be packed exactly if what its linked instructions refer to is linked
(`Threaded.compact_ok_iff`). The copy holds the same instructions in the same order, each under
its position for a name (`Threaded.packsInto`), and from one instruction to another it holds
what the chain does (`PacksInto.run`).

All that is asked of the chain is that its walk is in order (`Threaded`), and what is met by
walking is what linked means here. What lies aside is dropped, even if links lead from there
into the walk.

The copy is described by what is read from it through names (`PacksInto`) and not by its slots,
so modules on forks compare the two sides name by name. `packedName` is a function on all names,
defined by the position in the list; it is injective on the names that are linked and on no
others.
-/

namespace Splice

/-! ## Lists -/

/-- To take elements while a test holds commutes with a map under which the test comes out the same. -/
theorem takeWhile_map_of_agree {α β : Type} {f : α → β} {p : β → Bool} {q : α → Bool} {l : List α}
    (h : ∀ x ∈ l, p (f x) = q x) : (l.map f).takeWhile p = (l.takeWhile q).map f := by
  induction l with
  | nil => rfl
  | cons x l ih =>
    rw [List.map_cons, List.takeWhile_cons, List.takeWhile_cons, h x (List.mem_cons_self ..)]
    cases q x with
    | false => rfl
    | true =>
      simp only [if_true, List.map_cons]
      rw [ih fun y hy => h y (List.mem_cons_of_mem _ hy)]

/-- A list can be cut in front of any of its elements, or at its end. -/
theorem exists_cut {α : Type} {l : List α} {first : Option α} (h : ∀ a ∈ first, a ∈ l) :
    ∃ xs ys, l = xs ++ ys ∧ ys.head? = first := by
  cases first with
  | none => exact ⟨l, [], (List.append_nil l).symm, rfl⟩
  | some a =>
    obtain ⟨xs, ys, hl⟩ := List.append_of_mem (h a rfl)
    exact ⟨xs, a :: ys, hl, rfl⟩

namespace Renaming

variable {names : Renaming} {old new : InstrId}

/-- Where no instruction is listed twice, the new name of a survivor says where it is listed. -/
theorem get?_eq_some_iff (hnodup : names.survivors.Nodup) :
    names.get? old = some new ↔ names.survivors[new.index]? = some old := by
  unfold get?
  rw [Option.map_eq_some_iff]
  constructor
  · rintro ⟨index, hindex, rfl⟩
    obtain ⟨hlt, hold, -⟩ := List.idxOf?_eq_some_iff.mp hindex
    exact List.getElem?_eq_some_iff.mpr ⟨hlt, hold⟩
  · intro hold
    obtain ⟨hlt, hold⟩ := List.getElem?_eq_some_iff.mp hold
    refine ⟨new.index, List.idxOf?_eq_some_iff.mpr ⟨hlt, hold, fun other hother he => ?_⟩, rfl⟩
    have := (List.getElem_inj hnodup).mp (he.trans hold.symm)
    omega

/-- Packing an instruction changes what it refers to and what refers to it. -/
theorem apply_relinked {a b : Instruction} (h : names.apply a = .ok b) : a.Relinked b := by
  simp only [apply, bind_eq_ok, pure_eq_ok] at h
  obtain ⟨target, -, table, -, rfl⟩ := h
  exact rfl

end Renaming

namespace Chain

/-- The name that a linked instruction gets by packing: its position in the order of the code. -/
def packedName (chain : Chain) (id : InstrId) : InstrId := ⟨chain.ids.idxOf id⟩

/-- The instruction as it is packed: what it refers to goes by its new name, and so do those of its
jumpers that are linked. -/
def packed (chain : Chain) (instr : Instruction) : Instruction :=
  { instr with
    target := instr.target.map chain.packedName
    jumpTable := instr.jumpTable.map chain.packedName
    targetedBy := (instr.targetedBy.filter chain.ids.contains).map chain.packedName }

/-- What linked instructions refer to is linked. -/
def Closed (chain : Chain) : Prop :=
  ∀ id ∈ chain.ids, ∀ instr ∈ chain.get? id, ∀ x ∈ instr.references, x ∈ chain.ids

instance (chain : Chain) : Decidable chain.Closed :=
  inferInstanceAs (Decidable (∀ id ∈ chain.ids, _))

variable {chain after : Chain} {names : Renaming} {id a b : InstrId} {instr packed : Instruction}

/-! ## New names -/

theorem packedName_inj (ha : a ∈ chain.ids) : chain.packedName a = chain.packedName b ↔ a = b := by
  rw [packedName, packedName, Handle.mk.injEq, List.idxOf_inj ha]

/-- The renaming of a chain renames its linked instructions, each to its position in the order of the
code. -/
theorem packedNames_get? : chain.packedNames.get? id
    = if id ∈ chain.ids then some (chain.packedName id) else none := by
  unfold Renaming.get? packedNames packedName
  rw [List.idxOf_eq_getD_idxOf?]
  cases hindex : chain.ids.idxOf? id with
  | none => rw [if_neg (List.idxOf?_eq_none_iff.mp hindex)]; rfl
  | some index =>
    have hmem : id ∈ chain.ids := by
      by_cases hmem : id ∈ chain.ids
      · exact hmem
      · rw [List.idxOf?_eq_none_iff.mpr hmem] at hindex
        cases hindex
    rw [if_pos hmem]
    rfl

/-- A link is lost only if it names an instruction that is not linked. -/
theorem bind_packedNames_iff {link : Option InstrId} :
    (link.bind chain.packedNames.get? = link.bind fun id => some (chain.packedName id))
      ↔ ∀ id ∈ link, id ∈ chain.ids := by
  cases link with
  | none => simp
  | some id => simp [packedNames_get?]

/-- To ask for the new name of an instruction succeeds exactly if that is linked. -/
theorem packedNames_get_ok {new : InstrId} :
    chain.packedNames.get id = .ok new ↔ id ∈ chain.ids ∧ new = chain.packedName id := by
  unfold Renaming.get
  rw [packedNames_get?]
  by_cases hid : id ∈ chain.ids <;> simp [hid, eq_comm]

/-- To ask for the new name of what may be missing fails only for an instruction that is not linked. -/
theorem packedNames_getOption_ok {old new : Option InstrId} :
    chain.packedNames.getOption old = .ok new
      ↔ (∀ x ∈ old, x ∈ chain.ids) ∧ new = old.map chain.packedName := by
  cases old with
  | none => simp [Renaming.getOption, eq_comm]
  | some x =>
    rw [Renaming.getOption, map_eq_pure_bind, bind_eq_ok]
    simp only [packedNames_get_ok, pure_eq_ok, Option.mem_some_iff, forall_eq', Option.map_some]
    constructor
    · intro h
      obtain ⟨_, ⟨hx, rfl⟩, rfl⟩ := h
      exact ⟨hx, rfl⟩
    · intro h
      exact ⟨_, ⟨h.1, rfl⟩, h.2.symm⟩

/-- In the order of the code the new names count up. -/
theorem map_packedName (hnodup : chain.ids.Nodup) :
    chain.ids.map chain.packedName = (List.range chain.ids.length).map Handle.mk := by
  refine List.ext_getElem (by simp) fun index hindex _ => ?_
  rw [List.length_map] at hindex
  rw [List.getElem_map, List.getElem_map, List.getElem_range, packedName, hnodup.idxOf_getElem]

/-! ## Packing -/

theorem references_packed (chain : Chain) (instr : Instruction) :
    (chain.packed instr).references = instr.references.map chain.packedName := by
  rw [Instruction.references, Instruction.references, List.map_append, packed]
  cases instr.target <;> rfl

theorem mem_targetedBy_packed : id ∈ (chain.packed instr).targetedBy
    ↔ ∃ jumper ∈ instr.targetedBy, jumper ∈ chain.ids ∧ chain.packedName jumper = id := by
  simp only [packed, List.mem_map, List.mem_filter, List.contains_iff_mem, and_assoc]

/-- An instruction is packed if what it refers to is linked. -/
theorem apply_ok : chain.packedNames.apply instr = .ok packed
    ↔ (∀ x ∈ instr.references, x ∈ chain.ids) ∧ packed = chain.packed instr := by
  have hjumpers : instr.targetedBy.filterMap chain.packedNames.get?
      = (instr.targetedBy.filter chain.ids.contains).map chain.packedName := by
    rw [← List.filterMap_eq_map, List.filterMap_filter]
    refine List.filterMap_congr fun x _ => ?_
    rw [packedNames_get?]
    simp
  have htable : ∀ table, instr.jumpTable.mapM chain.packedNames.get = .ok table
      ↔ (∀ x ∈ instr.jumpTable, x ∈ chain.ids) ∧ table = instr.jumpTable.map chain.packedName := by
    intro table
    rw [mapM_eq_ok_map fun x new h => (packedNames_get_ok.mp h).2]
    simp only [packedNames_get_ok, and_true]
  simp only [Renaming.apply, bind_eq_ok, pure_eq_ok, packedNames_getOption_ok, htable, hjumpers,
    Instruction.references, List.mem_append, Option.mem_toList, or_imp, forall_and]
  constructor
  · intro h
    obtain ⟨_, ⟨htarget, rfl⟩, _, ⟨hentries, rfl⟩, rfl⟩ := h
    exact ⟨⟨htarget, hentries⟩, rfl⟩
  · intro h
    obtain ⟨⟨htarget, hentries⟩, rfl⟩ := h
    exact ⟨_, ⟨htarget, rfl⟩, _, ⟨hentries, rfl⟩, rfl⟩

/-- The linked instructions, packed. -/
def packedInstrs (chain : Chain) : List Instruction :=
  chain.ids.map fun id => chain.packed ((chain.get? id).getD default)

/-- A chain is packed if what its instructions refer to is linked. -/
theorem Threaded.compact_ok_iff (h : chain.Threaded) : chain.compact = .ok (after, names)
    ↔ chain.Closed ∧ after = ofList chain.packedInstrs ∧ names = chain.packedNames := by
  have hone : ∀ id instr, (do chain.packedNames.apply (← chain.get id)) = Except.ok instr
      ↔ ∃ found, chain.get? id = some found ∧ (∀ x ∈ found.references, x ∈ chain.ids)
        ∧ instr = chain.packed found := by
    intro id instr
    simp only [bind_eq_ok, get_ok, apply_ok]
  have hall : ∀ instrs, (chain.ids.mapM fun id => do chain.packedNames.apply (← chain.get id)) = .ok instrs
      ↔ chain.Closed ∧ instrs = chain.packedInstrs := by
    intro instrs
    rw [mapM_eq_ok_map (g := fun id => chain.packed ((chain.get? id).getD default))]
    · refine and_congr_left fun _ => forall₂_congr fun id hid => ?_
      obtain ⟨instr, hinstr⟩ := h.get?_isSome hid
      simp [hone, hinstr]
    · intro id instr hrun
      obtain ⟨found, hfound, -, rfl⟩ := (hone id instr).mp hrun
      rw [hfound, Option.getD_some]
  simp only [compact, bind_eq_ok, pure_eq_ok, Prod.mk.injEq, hall]
  constructor
  · intro hrun
    obtain ⟨_, ⟨hclosed, rfl⟩, rfl, rfl⟩ := hrun
    exact ⟨hclosed, rfl, rfl⟩
  · intro hrun
    obtain ⟨hclosed, rfl, rfl⟩ := hrun
    exact ⟨_, ⟨hclosed, rfl⟩, rfl, rfl⟩

/-- `after` holds the linked instructions of `chain`, each of them packed and under its new name. -/
structure PacksInto (chain after : Chain) : Prop where
  spells : after.Spells (chain.ids.map chain.packedName)
  instr : ∀ id ∈ chain.ids, ∃ instr, chain.get? id = some instr
    ∧ after.get? (chain.packedName id) = some (chain.packed instr)

/-- The chain that is made of the packed instructions holds each of them under its new name. -/
theorem Threaded.packsInto (h : chain.Threaded) : chain.PacksInto (ofList chain.packedInstrs) where
  spells := by
    have hlength : chain.packedInstrs.length = chain.ids.length := List.length_map _
    rw [map_packedName h.nodup, ← hlength]
    exact spells_ofList _
  instr := by
    intro id hid
    obtain ⟨instr, hinstr⟩ := h.get?_isSome hid
    refine ⟨instr, hinstr, ?_⟩
    rw [get?_ofList, packedInstrs, List.getElem?_map, packedName, List.getElem?_idxOf hid, Option.map_some,
      hinstr, Option.getD_some]

/-- A linked instruction is found packed under its new name. -/
theorem PacksInto.get? (h : chain.PacksInto after) (hid : id ∈ chain.ids)
    (hinstr : chain.get? id = some instr) : after.get? (chain.packedName id) = some (chain.packed instr) := by
  obtain ⟨found, hfound, hpacked⟩ := h.instr id hid
  rw [hinstr, Option.some.injEq] at hfound
  rw [hpacked, hfound]

/-- Nothing is linked in the packed copy but what was packed. -/
theorem PacksInto.get?_of (h : chain.PacksInto after) {new : InstrId} (hnew : new ∈ after.ids)
    (hpacked : after.get? new = some packed) :
    ∃ id ∈ chain.ids, ∃ instr, chain.get? id = some instr ∧ new = chain.packedName id
      ∧ packed = chain.packed instr := by
  rw [h.spells.ids_eq] at hnew
  obtain ⟨id, hid, rfl⟩ := List.mem_map.mp hnew
  obtain ⟨instr, hinstr, hget⟩ := h.instr id hid
  rw [hpacked, Option.some.injEq] at hget
  exact ⟨id, hid, instr, hinstr, rfl, hget⟩

/-- A packed chain holds the linked instructions in the order of the code. -/
theorem compact_ok {l : List InstrId} (hl : chain.Spells l) (h : chain.compact = .ok (after, names)) :
    names = ⟨l⟩ ∧ after.Spells ((List.range l.length).map Handle.mk)
      ∧ (∀ id, after.contains id = true → id.index < l.length)
      ∧ ∀ index old instr, l[index]? = some old → chain.get? old = some instr →
        ∃ packed, after.get? ⟨index⟩ = some packed ∧ names.apply instr = .ok packed := by
  obtain ⟨hclosed, rfl, rfl⟩ := hl.threaded.compact_ok_iff.mp h
  have hcopy := hl.threaded.packsInto
  obtain rfl := hl.ids_eq
  refine ⟨rfl, map_packedName hl.nodup ▸ hcopy.spells, fun id hid => ?_, fun index old instr hold hinstr => ?_⟩
  · rw [Chain.contains_eq_isSome_get?, get?_ofList, Option.isSome_iff_exists] at hid
    obtain ⟨instr, hinstr⟩ := hid
    have hlt := (List.getElem?_eq_some_iff.mp hinstr).1
    rwa [packedInstrs, List.length_map] at hlt
  · have hmem : old ∈ chain.ids := List.mem_of_getElem? hold
    have hname : chain.packedName old = ⟨index⟩ := by
      obtain ⟨hlt, rfl⟩ := List.getElem?_eq_some_iff.mp hold
      rw [packedName, hl.nodup.idxOf_getElem]
    exact ⟨_, hname ▸ hcopy.get? hmem hinstr, apply_ok.mpr ⟨hclosed old hmem instr hinstr, rfl⟩⟩

/-! ## Runs -/

/-- In the packed copy, what comes between two instructions is what came between them. -/
theorem PacksInto.run (h : chain.PacksInto after) (hthreaded : chain.Threaded) {first last : Option InstrId}
    (hfirst : ∀ a ∈ first, a ∈ chain.ids) : after.run (first.map chain.packedName)
      (last.map chain.packedName) = (chain.run first last).map chain.packedName := by
  obtain ⟨xs, ys, hids, rfl⟩ := exists_cut hfirst
  have hspells := h.spells
  rw [hids, List.map_append] at hspells
  have hwalk : after.walk (ys.head?.map chain.packedName) = ys.map chain.packedName := by
    rw [← List.head?_map]
    exact Spells.walk_append _ hspells
  have hcut : (ys.map chain.packedName).takeWhile (fun id => some id != last.map chain.packedName)
      = (ys.takeWhile fun id => some id != last).map chain.packedName := by
    refine takeWhile_map_of_agree fun x hx => ?_
    have hmem : x ∈ chain.ids := hids ▸ List.mem_append_right _ hx
    rw [Bool.eq_iff_iff, bne_iff_ne, bne_iff_ne]
    refine not_congr ?_
    cases last with
    | none => simp
    | some b => simp [packedName_inj hmem]
  unfold Chain.run
  simp only [hthreaded.walk_append hids, hwalk, hcut, List.length_map, ← List.map_drop, ← List.map_take,
    List.map_append]

/-- What comes behind a linked instruction is linked. -/
theorem Threaded.run_subset (h : chain.Threaded) {first : Option InstrId}
    (hfirst : ∀ a ∈ first, a ∈ chain.ids) (last : Option InstrId) : chain.run first last ⊆ chain.ids := by
  obtain ⟨xs, ys, hids, rfl⟩ := exists_cut hfirst
  refine List.Subset.trans (chain.run_sublist ys.head? last).subset ?_
  rw [h.walk_append hids, hids]
  exact List.subset_append_right ..

end Chain

end Splice
