import Splice.Proofs.Chain.Adjust

/-!
# The order of the code

A chain keeps its order in links between slots. `Spells chain l` says that these links
spell out the list `l`: its instructions are present, each knows both neighbours, the ends
are the head and the tail, and whatever else is present is linked to nothing. A chain that
spells out some list is `WellFormed`, and the list is the one met by walking
(`Spells.ids_eq`).

With the list at hand, everything the links are asked for is a question about it: the
instructions from one on are the rest of the list (`Spells.walk_append`), a neighbour is
the neighbour in the list, and being linked is being a member (`Spells.isLinked_iff`).

`Threaded` asks less than `Spells`: only that the walk from the head is in order, whatever else
is in the slots. It is what packing and the checks can rely on, where the list may have a second
line of instructions beside it.
-/

namespace Splice

/-! ## Pieces of a list -/

section

variable {α : Type} {xs ys mid : List α} {x site : α}

theorem mem_site_iff : x ∈ xs ++ site :: ys ↔ x = site ∨ x ∈ xs ++ ys := by
  rw [List.mem_append, List.mem_cons, List.mem_append]
  exact or_left_comm

theorem mem_mid_iff : x ∈ xs ++ mid ++ ys ↔ x ∈ mid ∨ x ∈ xs ++ ys := by
  rw [List.append_assoc, List.mem_append, List.mem_append, List.mem_append]
  exact or_left_comm

/-- In a list that names each instruction once, the site is in neither of the parts beside it. -/
theorem not_mem_of_nodup (h : (xs ++ site :: ys).Nodup) : site ∉ xs ++ ys := by
  obtain ⟨-, hrest, hdisj⟩ := List.nodup_append.mp h
  intro hmem
  rcases List.mem_append.mp hmem with hmem | hmem
  · exact hdisj site hmem site (List.mem_cons_self ..) rfl
  · exact (List.nodup_cons.mp hrest).1 hmem

/-- A list without repetition can be cut at an instruction in one way only. -/
theorem cut_inj {us vs : List α} (hnodup : (xs ++ site :: ys).Nodup)
    (h : xs ++ site :: ys = us ++ site :: vs) : us = xs ∧ vs = ys := by
  have hxs : site ∉ xs := fun hmem =>
    (List.nodup_append.mp hnodup).2.2 site hmem site (List.mem_cons_self ..) rfl
  have hys : site ∉ ys := (List.nodup_cons.mp (List.nodup_append.mp hnodup).2.1).1
  rcases List.append_eq_append_iff.mp h with ⟨cut, hus, hcut⟩ | ⟨cut, hus, hcut⟩
  · cases cut with
    | nil => exact ⟨by simpa using hus, (List.cons.inj hcut).2.symm⟩
    | cons c cut =>
      rw [List.cons_append, List.cons.injEq] at hcut
      exact absurd (hcut.2 ▸ List.mem_append_right _ (List.mem_cons_self ..)) hys
  · cases cut with
    | nil => exact ⟨by simpa using hus.symm, (List.cons.inj hcut).2⟩
    | cons c cut =>
      rw [List.cons_append, List.cons.injEq] at hcut
      rw [hus, ← hcut.1] at hxs
      exact absurd (List.mem_append_right _ (List.mem_cons_self ..)) hxs

/-- Distinct names of places are no more than there are places. -/
theorem length_le_of_index_lt {kind : HandleKind} {l : List (Handle kind)} {n : Nat} (hl : l.Nodup)
    (h : ∀ id ∈ l, id.index < n) : l.length ≤ n := by
  have hsub : l ⊆ (List.range n).map Handle.mk := by
    intro id hid
    exact List.mem_map.mpr ⟨id.index, List.mem_range.mpr (h id hid), rfl⟩
  have hle := List.Nodup.length_le_of_subset hl hsub
  rwa [List.length_map, List.length_range] at hle

end

namespace Chain

/-- The instructions of a list are present and linked in this order, the first of them back to `prev`
and the last of them on to `next`. -/
def Segment (chain : Chain) :
    (prev : Option InstrId) → List InstrId → (next : Option InstrId) → Prop
  | _, [], _ => True
  | prev, id :: rest, next =>
    (∃ instr, chain.node? id = some ⟨instr, prev, rest.head?.or next⟩)
      ∧ Segment chain (some id) rest next

/-- The links of the chain spell out the list `l`. -/
structure Spells (chain : Chain) (l : List InstrId) : Prop where
  nodup : l.Nodup
  links : chain.Segment none l none
  head : chain.head = l.head?
  tail : chain.tail = l.getLast?
  length : chain.length = l.length
  detached : ∀ id node, id ∉ l → chain.node? id = some node → node.prev = none ∧ node.next = none

/-- The instructions met by walking know both neighbours, and none is met twice. What lies aside may have
links of its own. -/
structure Threaded (chain : Chain) : Prop where
  nodup : chain.ids.Nodup
  links : chain.Segment none chain.ids none

/-- The links of the chain spell out a list. -/
def WellFormed (chain : Chain) : Prop := ∃ l, chain.Spells l

variable {chain after : Chain} {l xs ys : List InstrId} {id site : InstrId} {prev next : Option InstrId}

/-! ## Segments -/

/-- A segment can be cut at any place: the last instruction of the first part leads to the first one of
the second, and back. -/
theorem segment_append : chain.Segment prev (xs ++ ys) next
    ↔ chain.Segment prev xs (ys.head?.or next) ∧ chain.Segment (xs.getLast?.or prev) ys next := by
  induction xs generalizing prev with
  | nil => simp [Segment]
  | cons x xs ih =>
    have hhead : (xs ++ ys).head?.or next = xs.head?.or (ys.head?.or next) := by
      cases xs <;> simp
    have hlast : (x :: xs).getLast?.or prev = xs.getLast?.or (some x) := by
      cases hxs : xs.getLast? <;> simp [List.getLast?_cons, hxs]
    simp only [List.cons_append, Segment, ih, hhead, hlast, and_assoc]

/-- A segment is a matter of the links of its own instructions. -/
theorem Segment.congr (h : chain.Segment prev l next)
    (hnode : ∀ id ∈ l, ∀ node, chain.node? id = some node →
      ∃ instr, after.node? id = some ⟨instr, node.prev, node.next⟩) :
    after.Segment prev l next := by
  induction l generalizing prev with
  | nil => exact trivial
  | cons id rest ih =>
    obtain ⟨⟨instr, hid⟩, hrest⟩ := h
    exact ⟨hnode id (List.mem_cons_self ..) _ hid,
      ih hrest fun other hother => hnode other (List.mem_cons_of_mem _ hother)⟩

theorem Segment.adjust (h : chain.Segment prev l next) (f : InstrId → Instruction → Instruction) :
    (chain.adjust f).Segment prev l next :=
  h.congr fun id _ node hnode => ⟨f id node.instr, by rw [node?_adjust, hnode]; rfl⟩

theorem Segment.node? (h : chain.Segment prev (xs ++ id :: ys) next) :
    ∃ instr, chain.node? id = some ⟨instr, xs.getLast?.or prev, ys.head?.or next⟩ :=
  (segment_append.mp h).2.1

/-- The instructions of a segment are there. -/
theorem Segment.present (h : chain.Segment prev l next) (hid : id ∈ l) :
    ∃ node, chain.node? id = some node := by
  obtain ⟨xs, ys, rfl⟩ := List.append_of_mem hid
  obtain ⟨instr, hnode⟩ := h.node?
  exact ⟨_, hnode⟩

/-! ## Walking -/

/-- What is there has a slot. -/
theorem index_lt_of_node? {node : Node} (h : chain.node? id = some node) :
    id.index < chain.slots.size := by
  rcases Nat.lt_or_ge id.index chain.slots.size with hlt | hge
  · exact hlt
  · simp [node?, Array.getElem?_eq_none hge] at h

/-- There are at least as many slots as distinct instructions. -/
theorem length_le_of_present (hl : l.Nodup) (h : ∀ id ∈ l, ∃ node, chain.node? id = some node) :
    l.length ≤ chain.slots.size :=
  length_le_of_index_lt hl fun id hid => (h id hid).elim fun _ hnode => index_lt_of_node? hnode

/-- Following the links of a segment that leads nowhere gives its list, given as many steps as it has
instructions. -/
theorem follow_segment (h : chain.Segment prev l none) {steps : Nat} (hsteps : l.length ≤ steps) :
    chain.follow steps l.head? = l := by
  induction l generalizing prev steps with
  | nil => cases steps <;> rfl
  | cons id rest ih =>
    obtain ⟨⟨instr, hid⟩, hrest⟩ := h
    cases steps with
    | zero => simp at hsteps
    | succ steps =>
      have hnext : chain.next? id = rest.head? := by
        rw [next?, hid]
        simp
      rw [List.head?_cons, follow, hnext, ih hrest (by simpa using hsteps)]

/-- From an instruction of the code on, the walk goes over the rest of it. -/
theorem Segment.walk_append (h : chain.Segment none (xs ++ ys) none) (hnodup : (xs ++ ys).Nodup) :
    chain.walk ys.head? = ys := by
  have hle := length_le_of_present hnodup fun id hid => h.present hid
  rw [List.length_append] at hle
  exact follow_segment (segment_append.mp h).2 (by omega)

/-- A run is part of the walk from its first instruction. -/
theorem run_sublist (chain : Chain) (first last : Option InstrId) :
    (chain.run first last).Sublist (chain.walk first) := by
  rw [run]
  generalize chain.walk first = behind
  have hsplit := List.takeWhile_append_dropWhile (p := fun id => some id != last) (l := behind)
  have hdrop := congrArg (List.drop (behind.takeWhile fun id => some id != last).length) hsplit
  rw [List.drop_left] at hdrop
  have hsub := (List.Sublist.refl (behind.takeWhile fun id => some id != last)).append
    (List.take_sublist 1 (behind.dropWhile fun id => some id != last))
  rw [hsplit, hdrop] at hsub
  exact hsub

theorem Threaded.walk_append (h : chain.Threaded) (hids : chain.ids = xs ++ ys) :
    chain.walk ys.head? = ys :=
  Segment.walk_append (hids ▸ h.links) (hids ▸ h.nodup)

theorem Threaded.get?_isSome (h : chain.Threaded) (hid : id ∈ chain.ids) :
    ∃ instr, chain.get? id = some instr := by
  obtain ⟨node, hnode⟩ := h.links.present hid
  exact ⟨node.instr, by rw [get?, hnode]; rfl⟩

namespace Spells

/-- In a chain that spells out a list, the linked instructions are those of the list. -/
theorem isLinked_iff (h : chain.Spells l) : chain.isLinked id = true ↔ id ∈ l := by
  constructor
  · intro hlinked
    by_cases hmem : id ∈ l
    · exact hmem
    · unfold isLinked at hlinked
      cases hnode : chain.node? id with
      | none => simp [hnode] at hlinked
      | some node =>
        have hprev := (h.detached id node hmem hnode).1
        rw [hnode] at hlinked
        simp only [hprev, Option.isSome_none, Bool.false_or, beq_iff_eq, h.head] at hlinked
        exact List.mem_of_head? hlinked
  · intro hmem
    obtain ⟨xs, ys, rfl⟩ := List.append_of_mem hmem
    obtain ⟨instr, hnode⟩ := h.links.node?
    unfold isLinked
    rw [hnode, h.head]
    cases xs with
    | nil => simp
    | cons x xs => simp [List.getLast?_cons]

theorem present (h : chain.Spells l) (hid : id ∈ l) : ∃ node, chain.node? id = some node :=
  h.links.present hid

theorem get?_isSome (h : chain.Spells l) (hid : id ∈ l) : ∃ instr, chain.get? id = some instr := by
  obtain ⟨node, hnode⟩ := h.present hid
  exact ⟨node.instr, by simp [get?, hnode]⟩

theorem walk_append (xs : List InstrId) (h : chain.Spells (xs ++ ys)) : chain.walk ys.head? = ys :=
  h.links.walk_append h.nodup

theorem ids_eq (h : chain.Spells l) : chain.ids = l := by
  have hwalk : chain.walk l.head? = l := walk_append [] h
  rw [ids, h.head, hwalk]

theorem threaded (h : chain.Spells l) : chain.Threaded := by
  obtain rfl := h.ids_eq
  exact ⟨h.nodup, h.links⟩

theorem next?_eq (h : chain.Spells (xs ++ id :: ys)) : chain.next? id = ys.head? := by
  obtain ⟨instr, hnode⟩ := h.links.node?
  simp [next?, hnode]

theorem prev?_eq (h : chain.Spells (xs ++ id :: ys)) : chain.prev? id = xs.getLast? := by
  obtain ⟨instr, hnode⟩ := h.links.node?
  simp [prev?, hnode]

/-- What an instruction is followed by stands behind it. -/
theorem split_of_next? {next : InstrId} (h : chain.Spells l) (hnext : chain.next? id = some next) :
    ∃ xs ys, l = xs ++ id :: next :: ys := by
  have hid : id ∈ l := by
    by_cases hmem : id ∈ l
    · exact hmem
    · rw [next?] at hnext
      cases hnode : chain.node? id with
      | none =>
        rw [hnode] at hnext
        cases hnext
      | some node =>
        rw [hnode, Option.bind_some, (h.detached id node hmem hnode).2] at hnext
        cases hnext
  obtain ⟨xs, ys, rfl⟩ := List.append_of_mem hid
  rw [h.next?_eq] at hnext
  obtain ⟨ys, rfl⟩ := List.head?_eq_some_iff.mp hnext
  exact ⟨xs, ys, rfl⟩

/-- What an instruction is followed by has it in front. -/
theorem prev?_of_next? {next : InstrId} (h : chain.Spells l) (hnext : chain.next? id = some next) :
    chain.prev? next = some id := by
  obtain ⟨xs, ys, rfl⟩ := h.split_of_next? hnext
  have hsplit : chain.Spells ((xs ++ [id]) ++ next :: ys) := by simpa using h
  rw [hsplit.prev?_eq, List.getLast?_concat]

/-- No walk comes by an instruction twice. -/
theorem nodup_walk (h : chain.Spells l) (start : Option InstrId) : (chain.walk start).Nodup := by
  cases start with
  | none =>
    rw [walk, follow]
    exact List.nodup_nil
  | some id =>
    by_cases hid : id ∈ l
    · obtain ⟨front, rest, rfl⟩ := List.append_of_mem hid
      have hwalk : chain.walk (some id) = id :: rest := walk_append front h
      rw [hwalk]
      exact (List.nodup_append.mp h.nodup).2.1
    · have hnext : chain.next? id = none := by
        cases hnode : chain.node? id with
        | none => rw [next?, hnode]; rfl
        | some node => rw [next?, hnode]; exact (h.detached id node hid hnode).2
      rw [walk, follow, hnext]
      cases chain.slots.size <;> simp [follow]

/-- Every name occurs once. -/
theorem not_mem_rest (h : chain.Spells (xs ++ id :: ys)) : id ∉ xs ++ ys :=
  not_mem_of_nodup h.nodup

/-- What is not there is not in the list. -/
theorem not_mem (h : chain.Spells l) (hid : chain.get? id = none) : id ∉ l := by
  intro hmem
  obtain ⟨instr, hinstr⟩ := h.get?_isSome hmem
  rw [hid] at hinstr
  cases hinstr

/-- What is in the list beside a site is what is in the list, but for the site. -/
theorem mem_rest_iff (h : chain.Spells (xs ++ site :: ys)) :
    id ∈ xs ++ ys ↔ id ∈ xs ++ site :: ys ∧ id ≠ site := by
  constructor
  · intro hid
    exact ⟨mem_site_iff.mpr (.inr hid), fun he => h.not_mem_rest (he ▸ hid)⟩
  · intro hid
    exact (mem_site_iff.mp hid.1).resolve_left hid.2

/-- An adjustment does not touch the links, so the chain spells out the same list. -/
theorem adjust (h : chain.Spells l) (f : InstrId → Instruction → Instruction) :
    (chain.adjust f).Spells l where
  nodup := h.nodup
  links := h.links.adjust f
  head := h.head
  tail := h.tail
  length := h.length
  detached := by
    intro id node hid hnode
    rw [node?_adjust, Option.map_eq_some_iff] at hnode
    obtain ⟨old, hold, rfl⟩ := hnode
    exact h.detached id old hid hold

theorem wellFormed (h : chain.Spells l) : chain.WellFormed := ⟨l, h⟩

end Spells

/-- A well-formed chain spells out what walking it gives. -/
theorem WellFormed.spells (h : chain.WellFormed) : chain.Spells chain.ids := by
  obtain ⟨l, hl⟩ := h
  rw [hl.ids_eq]
  exact hl

theorem Evolves.spells {r : InstrId → Instruction → Instruction → Prop}
    (h : Evolves r chain after) (hl : chain.Spells l) : after.Spells l := by
  obtain ⟨f, rfl, -⟩ := h
  exact hl.adjust f

/-! ## Runs -/

/-- The run up to its last instruction is what comes in front of that in the list, which names each
instruction once. -/
theorem takeWhile_ne_last {run rest : List InstrId} {last : InstrId}
    (hnodup : (run ++ rest).Nodup) (hlast : run.getLast? = some last) :
    (run ++ rest).takeWhile (fun id => some id != some last) = run.dropLast := by
  obtain ⟨front, rfl⟩ := List.getLast?_eq_some_iff.mp hlast
  have hfront : ∀ id ∈ front, (some id != some last) = true := by
    intro id hid
    have hne : id ≠ last := by
      rintro rfl
      simp only [List.append_assoc, List.singleton_append] at hnodup
      have hdisj := List.nodup_append.mp hnodup
      exact hdisj.2.2 id hid id (List.mem_cons_self ..) rfl
    simpa using hne
  rw [List.dropLast_concat, List.append_assoc, List.takeWhile_append_of_pos hfront]
  simp

/-- The instructions from the first to the last of a piece of the code are that piece. -/
theorem Spells.run_eq {run : List InstrId} {first last : InstrId}
    (h : chain.Spells (xs ++ run ++ ys)) (hfirst : run.head? = some first)
    (hlast : run.getLast? = some last) : chain.run (some first) (some last) = run := by
  have hhead : (run ++ ys).head? = some first := by
    rw [List.head?_append, hfirst]
    rfl
  have hwalk : chain.walk (some first) = run ++ ys := by
    rw [← hhead]
    exact walk_append xs (by rwa [List.append_assoc] at h)
  have hnodup : (run ++ ys).Nodup := by
    have hl := h.nodup
    rw [List.append_assoc] at hl
    exact (List.nodup_append.mp hl).2.1
  obtain ⟨front, rfl⟩ := List.getLast?_eq_some_iff.mp hlast
  unfold Chain.run
  simp only [hwalk, takeWhile_ne_last hnodup hlast, List.dropLast_concat]
  rw [List.append_assoc, List.drop_left]
  simp

/-- A run that comes to its last instruction is a piece of the code. -/
theorem Spells.run_split {rest : List InstrId} {first last : InstrId}
    (h : chain.Spells (xs ++ first :: rest)) (hlast : last ∈ chain.run (some first) (some last)) :
    ∃ run ys, first :: rest = run ++ ys ∧ run.getLast? = some last
      ∧ chain.run (some first) (some last) = run := by
  have hwalk : chain.walk (some first) = first :: rest := walk_append xs h
  unfold Chain.run at hlast ⊢
  simp only [hwalk] at hlast ⊢
  generalize hbefore : (first :: rest).takeWhile (fun id => some id != some last) = before at hlast ⊢
  have hcut := List.takeWhile_append_dropWhile (p := fun id => some id != some last)
    (l := first :: rest)
  generalize (first :: rest).dropWhile (fun id => some id != some last) = behind at hcut
  rw [hbefore] at hcut
  rw [← hcut, List.drop_left] at hlast ⊢
  have hnot : last ∉ before := by
    intro hmem
    rw [← hbefore] at hmem
    simpa using List.all_eq_true.mp List.all_takeWhile last hmem
  have hnext := (List.mem_append.mp hlast).resolve_left hnot
  cases behind with
  | nil => cases hnext
  | cons next ys =>
    rw [List.take_succ_cons, List.take_zero, List.mem_singleton] at hnext
    subst hnext
    exact ⟨before ++ [last], ys, by simp, by simp, rfl⟩

/-! ## Chains that hold a list of instructions -/

/-- A chain that is made of a list has each instruction linked to the positions beside its own. -/
theorem node?_ofList {instrs : List Instruction} {index : Nat} {instr : Instruction}
    (h : instrs[index]? = some instr) : (ofList instrs).node? ⟨index⟩ = some ⟨instr,
      if index = 0 then none else some ⟨index - 1⟩,
      if index + 1 < instrs.length then some ⟨index + 1⟩ else none⟩ := by
  obtain ⟨hlt, -⟩ := List.getElem?_eq_some_iff.mp h
  have hprev : index - 1 < instrs.length := by omega
  simp only [node?, ofList, List.getElem?_toArray, List.getElem?_mapIdx, h, Option.map_some,
    Option.join_some, if_pos hprev]

/-- A chain that is made of a list has the instruction of each position under that name. -/
theorem get?_ofList (instrs : List Instruction) (id : InstrId) :
    (ofList instrs).get? id = instrs[id.index]? := by
  obtain ⟨index⟩ := id
  cases hinstr : instrs[index]? with
  | some instr =>
    rw [Chain.get?, node?_ofList hinstr]
    rfl
  | none =>
    have hlen := List.getElem?_eq_none_iff.mp hinstr
    rw [Chain.get?_eq_none_iff_node?, Chain.node?, ofList]
    simp [hlen]

/-- The links of a chain that is made of a list form one segment. The induction is on the number of
instructions that are left from a position on. -/
theorem segment_ofList (instrs : List Instruction) {count index : Nat}
    (h : index + count = instrs.length) :
    (ofList instrs).Segment (if index = 0 then none else some ⟨index - 1⟩)
      ((List.range' index count).map Handle.mk) none := by
  induction count generalizing index with
  | zero => exact trivial
  | succ count ih =>
    have hlt : index < instrs.length := by omega
    have hrest := ih (show index + 1 + count = instrs.length by omega)
    rw [if_neg (Nat.succ_ne_zero index), Nat.add_sub_cancel] at hrest
    have hnext : (((List.range' (index + 1) count).map Handle.mk : List InstrId).head?).or none
        = if index + 1 < instrs.length then some ⟨index + 1⟩ else none := by
      cases count with
      | zero => rw [if_neg (by omega)]; rfl
      | succ count => rw [if_pos (by omega)]; rfl
    refine ⟨⟨instrs[index], ?_⟩, hrest⟩
    rw [hnext]
    exact node?_ofList (List.getElem?_eq_getElem hlt)

/-- A chain of nothing but its instructions spells them out. -/
theorem spells_ofList (instrs : List Instruction) :
    (ofList instrs).Spells ((List.range instrs.length).map Handle.mk) where
  nodup := by
    rw [List.Nodup, List.pairwise_map]
    refine List.nodup_range.imp fun hne he => hne (congrArg (·.index) he)
  links := by
    have h := segment_ofList instrs (Nat.zero_add instrs.length)
    rw [List.range_eq_range']
    exact h
  head := by
    cases instrs with
    | nil => rfl
    | cons instr instrs => simp [ofList, List.range_succ_eq_map]
  tail := by
    rw [List.getLast?_map, List.getLast?_range]
    unfold ofList
    by_cases hzero : instrs.length = 0
    · simp [hzero]
    · have hlt : instrs.length - 1 < instrs.length := by omega
      simp [hzero, hlt]
  length := by
    rw [List.length_map, List.length_range]
    rfl
  detached := by
    intro id node hid hnode
    have hlt := index_lt_of_node? hnode
    have hsize : (ofList instrs).slots.size = instrs.length := by simp [ofList]
    refine absurd (List.mem_map.mpr ⟨id.index, List.mem_range.mpr (hsize ▸ hlt), rfl⟩) hid

end Chain

end Splice
