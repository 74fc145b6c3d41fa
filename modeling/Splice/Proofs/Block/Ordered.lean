import Splice.Proofs.Block.Construction
import Splice.Proofs.Program.Pending
import Splice.Proofs.Program.Searching

/-!
# Code in the order of its addresses

A block is found by comparing places: the rank of a section, then an address. In `Ascending`
code every section is in one piece and its instructions follow each other in the order of
their addresses. Then the places of instructions grow along the whole chain
(`Ascending.behind`), also where a block reaches from one section into the next, and

> `Ascending.of_find`: the block that is found for an instruction holds it.

That something is found takes more. The end of a block is an address as well, and the last
instruction of a section may end past the last address; its end then compares as a small one,
and nothing is found for what its block holds. In `Ordered` code there are no such ends, and

> `Ordered.find_eq`: the block of an instruction is found.

Both are stated for any parts that the code is cut into, so they hold all along while the graph
is built: in ascending code a cut that is not refused is made in the right block, and in ordered
code none is refused (`Ascending.locates`).
-/

namespace Splice

/-! ## The order of the sections -/

namespace BlockGraph

variable {xs ys : List Instruction} {sections : List SectionId} {sec other : SectionId}

/-- The sections with one that may be new. -/
def note (sections : List SectionId) (sec : SectionId) : List SectionId :=
  if sections.contains sec then sections else sections ++ [sec]

/-- The sections with that of the instruction. -/
def noting (sections : List SectionId) (instr : Instruction) : List SectionId := note sections instr.sec

/-- The sections with one more have that and the ones from before. -/
theorem mem_note : sec ∈ note sections sec := by
  unfold note
  split
  next hin => exact List.contains_iff_mem.mp hin
  next => exact List.mem_append_right _ (List.mem_singleton_self sec)

/-- A section that has come is not noted again. -/
theorem foldl_note_same {secs : List SectionId} (h : sec ∈ sections) (hsame : ∀ found ∈ secs, found = sec) :
    secs.foldl note sections = sections := by
  induction secs with
  | nil => rfl
  | cons first secs ih =>
    obtain rfl := hsame first (List.mem_cons_self ..)
    rw [List.foldl_cons, note, if_pos (List.contains_iff_mem.mpr h)]
    exact ih fun found hfound => hsame found (List.mem_cons_of_mem _ hfound)

/-- The sections of the instructions are those from before and those in which some instruction lies. -/
theorem mem_foldl_noting :
    sec ∈ xs.foldl noting sections ↔ sec ∈ sections ∨ ∃ instr ∈ xs, instr.sec = sec := by
  induction xs generalizing sections with
  | nil => simp
  | cons instr xs ih =>
    have hcons : (∃ other ∈ instr :: xs, other.sec = sec) ↔ instr.sec = sec ∨ ∃ other ∈ xs, other.sec = sec := by
      simp
    rw [List.foldl_cons, ih, noting, note, hcons, ← or_assoc]
    refine or_congr ?_ Iff.rfl
    split
    next hin =>
      refine (or_iff_left_of_imp ?_).symm
      rintro rfl
      exact List.contains_iff_mem.mp hin
    next => rw [List.mem_append, List.mem_singleton, eq_comm]

/-- Sections are only ever added at the end, which is what makes their ranks stable. -/
theorem foldl_noting_append : ∃ more, xs.foldl noting sections = sections ++ more := by
  induction xs generalizing sections with
  | nil => exact ⟨[], (List.append_nil _).symm⟩
  | cons instr xs ih =>
    obtain ⟨more, hmore⟩ := @ih (noting sections instr)
    rw [List.foldl_cons, hmore, noting, note]
    split
    next => exact ⟨more, rfl⟩
    next => exact ⟨instr.sec :: more, by simp⟩

theorem mem_sectionOrder : sec ∈ sectionOrder xs ↔ ∃ instr ∈ xs, instr.sec = sec := by
  refine mem_foldl_noting.trans (or_iff_right ?_)
  exact List.not_mem_nil

/-- A section that has come is in front of one that has not. -/
theorem idxOf_sectionOrder (hsec : sec ∈ sectionOrder xs) (hother : other ∉ sectionOrder xs) :
    (sectionOrder (xs ++ ys)).idxOf sec < (sectionOrder (xs ++ ys)).idxOf other := by
  obtain ⟨more, hmore⟩ := @foldl_noting_append ys (sectionOrder xs)
  have horder : sectionOrder (xs ++ ys) = sectionOrder xs ++ more := by
    rw [← hmore]
    exact List.foldl_append
  rw [horder, List.idxOf_append, List.idxOf_append, if_pos hsec, if_neg hother]
  have hlt := List.idxOf_lt_length_of_mem hsec
  omega

end BlockGraph

/-! ## Ordered code -/

/-- The section of an instruction, if it is present. -/
def Chain.sec? (chain : Chain) (id : InstrId) : Option SectionId := (chain.get? id).map (·.sec)

/-- A test for the section of an instruction tells its section. -/
theorem Chain.sec?_of_inSection {chain : Chain} {id : InstrId} {sec : SectionId}
    (h : chain.inSection sec id = true) : chain.sec? id = some sec := by
  cases hid : chain.get? id with
  | none => simp [inSection, hid] at h
  | some instr => rw [sec?, hid, Option.map_some, (inSection_iff hid).mp h]

theorem Chain.Retains.sec? {chain after : Chain} {r : InstrId → Instruction → Instruction → Prop}
    {kept : InstrId → Prop} {id : InstrId} (h : chain.Retains r kept after)
    (hr : ∀ id a b, r id a b → b.sec = a.sec) (hid : kept id) : after.sec? id = chain.sec? id :=
  h.map_get? hid (hr id)

/-- Within a section, `y` begins where `x` has ended. -/
def Chain.Below (chain : Chain) (x y : InstrId) : Prop :=
  ∀ a ∈ chain.get? x, ∀ b ∈ chain.get? y, a.sec = b.sec →
    a.addr.toNat + a.bytes.length ≤ b.addr.toNat

instance (chain : Chain) (x y : InstrId) : Decidable (chain.Below x y) :=
  inferInstanceAs (Decidable (∀ a ∈ chain.get? x, ∀ b ∈ chain.get? y, _ → _))

/-- Sections are in one piece, and the instructions of a section, none of which is empty, follow each
other in the order of their addresses. -/
structure Chain.Ascending (chain : Chain) (l : List InstrId) : Prop where
  spells : chain.Spells l
  consecutive : chain.Consecutive l
  filled : ∀ id ∈ l, ∀ instr ∈ chain.get? id, instr.bytes ≠ []
  ascending : l.Pairwise chain.Below

/-- The end of every instruction has an address as well. -/
def Chain.Unwrapped (chain : Chain) : Prop :=
  ∀ id ∈ chain.ids, ∀ instr ∈ chain.get? id, instr.addr.toNat + instr.bytes.length < 2 ^ 64

instance (chain : Chain) : Decidable chain.Unwrapped :=
  inferInstanceAs (Decidable (∀ id ∈ chain.ids, ∀ instr ∈ chain.get? id, _))

/-- Ascending code in which the end of each instruction has an address as well. -/
structure Chain.Ordered (chain : Chain) (l : List InstrId) : Prop extends chain.Ascending l where
  ends : ∀ id ∈ l, ∀ instr ∈ chain.get? id, instr.addr.toNat + instr.bytes.length < 2 ^ 64

/-- The sections of the graph are those of the code in the order of the code. -/
def BlockGraph.Ranks (graph : BlockGraph) (chain : Chain) (l : List InstrId) : Prop :=
  graph.sections = sectionOrder (l.filterMap chain.get?)

namespace BlockGraph

variable {graph after : BlockGraph} {chain other : Chain} {xs ys mid l : List InstrId} {site : InstrId}

/-- The order of the sections is a matter of the sections alone. -/
theorem ranks_iff : graph.Ranks chain l ↔ graph.sections = (l.filterMap chain.sec?).foldl note [] := by
  have hmap : l.filterMap chain.sec? = (l.filterMap chain.get?).map (·.sec) := by
    rw [List.map_filterMap]
    rfl
  rw [hmap, List.foldl_map]
  rfl

/-- Where instructions keep their sections, the sections along a list are the same. -/
theorem filterMap_sec?_congr (hsec : ∀ x ∈ l, other.sec? x = chain.sec? x) :
    l.filterMap other.sec? = l.filterMap chain.sec? := by
  induction l with
  | nil => rfl
  | cons x l ih =>
    rw [List.filterMap_cons, List.filterMap_cons, hsec x (List.mem_cons_self ..),
      ih fun y hy => hsec y (List.mem_cons_of_mem _ hy)]

theorem Ranks.congr (h : graph.Ranks chain l) (hsec : ∀ x ∈ l, other.sec? x = chain.sec? x) :
    graph.Ranks other l := by
  rw [ranks_iff] at h ⊢
  rw [h, filterMap_sec?_congr hsec]

/-- Instructions of one section note it, if it is one, and no other. -/
theorem foldl_note_uniform {sec : Option SectionId} (hne : l ≠ []) (hsec : ∀ x ∈ l, chain.sec? x = sec)
    (noted : List SectionId) : (l.filterMap chain.sec?).foldl note noted = sec.toList.foldl note noted := by
  obtain ⟨x, l, rfl⟩ := List.exists_cons_of_ne_nil hne
  cases sec with
  | none => rw [List.filterMap_eq_nil_iff.mpr hsec, Option.toList_none]
  | some sec =>
    rw [List.filterMap_cons_some (hsec x (List.mem_cons_self ..)), Option.toList_some, List.foldl_cons,
      List.foldl_cons, List.foldl_nil]
    refine foldl_note_same mem_note fun found hfound => ?_
    obtain ⟨y, hy, hget⟩ := List.mem_filterMap.mp hfound
    exact Option.some.inj (hget.symm.trans (hsec y (List.mem_cons_of_mem _ hy)))

/-- The sections stay in their order where instructions of one section come in the place of others of
it. -/
theorem Ranks.exchange {sec : Option SectionId} {gone : List InstrId} (h : graph.Ranks chain (xs ++ gone ++ ys))
    (hsections : after.sections = graph.sections) (hkept : ∀ x ∈ xs ++ ys, other.sec? x = chain.sec? x)
    (hgone : gone ≠ []) (hgoneSec : ∀ x ∈ gone, chain.sec? x = sec)
    (hmid : mid ≠ []) (hmidSec : ∀ x ∈ mid, other.sec? x = sec) : after.Ranks other (xs ++ mid ++ ys) := by
  have hside : ∀ {side}, side ⊆ xs ++ ys → side.filterMap other.sec? = side.filterMap chain.sec? :=
    fun hsub => filterMap_sec?_congr fun x hx => hkept x (hsub hx)
  rw [ranks_iff] at h
  rw [ranks_iff, hsections, h]
  simp only [List.filterMap_append, List.foldl_append, foldl_note_uniform hgone hgoneSec,
    foldl_note_uniform hmid hmidSec, hside (List.subset_append_left ..), hside (List.subset_append_right ..)]

/-- The sections stay in their order where instructions of the same section come in the place of one. -/
theorem Ranks.splice (h : graph.Ranks chain (xs ++ site :: ys)) (hne : mid ≠ [])
    (hsections : after.sections = graph.sections)
    (hkept : ∀ x ∈ xs ++ ys, other.sec? x = chain.sec? x) (hmid : ∀ x ∈ mid, other.sec? x = chain.sec? site) :
    after.Ranks other (xs ++ mid ++ ys) := by
  rw [← List.singleton_append, ← List.append_assoc] at h
  exact h.exchange hsections hkept (List.cons_ne_nil _ _)
    (fun x hx => congrArg chain.sec? (List.mem_singleton.mp hx)) hne hmid

end BlockGraph

/-- The place of `b` is behind that of `a` and behind the end of `a`. -/
def BlockGraph.Behind (graph : BlockGraph) (a b : Instruction) : Prop :=
  graph.rank a.sec < graph.rank b.sec
    ∨ graph.rank a.sec = graph.rank b.sec ∧ a.addr < b.addr ∧ a.endAddr ≤ b.addr

theorem Instruction.toNat_endAddr {instr : Instruction}
    (h : instr.addr.toNat + instr.bytes.length < 2 ^ 64) :
    instr.endAddr.toNat = instr.addr.toNat + instr.bytes.length := by
  rw [endAddr, size, UInt64.toNat_add, UInt64.toNat_ofNat', Nat.add_mod_mod, Nat.mod_eq_of_lt h]

/-- Places grow along the code. -/
theorem Chain.Ascending.behind {chain : Chain} {l : List InstrId} {graph : BlockGraph}
    (h : chain.Ascending l) (hranks : graph.Ranks chain l) :
    l.Pairwise fun x y => ∀ a b, chain.get? x = some a → chain.get? y = some b → graph.Behind a b := by
  have hascending := List.pairwise_iff_getElem.mp h.ascending
  refine List.pairwise_iff_getElem.mpr fun i j hi hj hlt a b ha hb => ?_
  by_cases hsec : a.sec = b.sec
  · -- what has an instruction of its section behind it ends at an address
    have hbelow := hascending i j hi hj hlt a ha b hb hsec
    have hpos := List.length_pos_iff.mpr (h.filled _ (List.getElem_mem hi) a ha)
    have hend := a.toNat_endAddr (Nat.lt_of_le_of_lt hbelow b.addr.toNat_lt)
    refine .inr ⟨by rw [hsec], ?_, ?_⟩
    · rw [UInt64.lt_iff_toNat_lt]
      omega
    · rwa [UInt64.le_iff_toNat_le, hend]
  · -- the section of `b` has not come yet: sections are in one piece
    refine .inl ?_
    unfold BlockGraph.rank
    rw [hranks, ← List.take_append_drop (i + 1) l, List.filterMap_append]
    refine BlockGraph.idxOf_sectionOrder ?_ ?_
    · refine BlockGraph.mem_sectionOrder.mpr ⟨a, List.mem_filterMap.mpr ⟨l[i], ?_, ha⟩, rfl⟩
      exact List.mem_take_iff_getElem.mpr ⟨i, by omega, rfl⟩
    · intro hmem
      obtain ⟨c, hc, hcsec⟩ := BlockGraph.mem_sectionOrder.mp hmem
      obtain ⟨z, hz, hget⟩ := List.mem_filterMap.mp hc
      obtain ⟨k, hk, rfl⟩ := List.mem_take_iff_getElem.mp hz
      have hown := h.consecutive k i j _ _ _ b.sec (by omega) (by omega)
        (List.getElem?_eq_getElem (by omega)) (List.getElem?_eq_getElem hi) (List.getElem?_eq_getElem hj)
        ((inSection_iff hget).mpr hcsec) ((inSection_iff hb).mpr rfl)
      exact hsec ((inSection_iff ha).mp hown)

namespace Chain.Ordered

variable {chain : Chain} {l : List InstrId} {id : InstrId} {instr : Instruction}

theorem toNat_endAddr (h : chain.Ordered l) (hid : id ∈ l) (hinstr : chain.get? id = some instr) :
    instr.endAddr.toNat = instr.addr.toNat + instr.bytes.length :=
  instr.toNat_endAddr (h.ends id hid instr hinstr)

/-- An instruction that is not empty ends behind where it begins, if its end has an address. -/
theorem addr_lt_endAddr (h : chain.Ordered l) (hid : id ∈ l) (hinstr : chain.get? id = some instr) :
    instr.addr < instr.endAddr := by
  have hpos := List.length_pos_iff.mpr (h.filled id hid instr hinstr)
  rw [UInt64.lt_iff_toNat_lt, h.toNat_endAddr hid hinstr]
  omega

end Chain.Ordered

/-! ## The search -/

namespace BlockGraph

variable {graph : BlockGraph} {chain : Chain} {a b : Instruction}

theorem precedes_iff {i j : Nat} {x y : UInt64} :
    precedes (i, x) (j, y) = true ↔ i < j ∨ i = j ∧ x.toNat < y.toNat := by
  simp [precedes, UInt64.lt_iff_toNat_lt]

/-- A place that is behind another one comes behind it in the order of the search. -/
theorem Behind.precedes (h : graph.Behind a b) :
    precedes (graph.rank a.sec, a.addr) (graph.rank b.sec, b.addr) = true := by
  rw [precedes_iff]
  rw [Behind, UInt64.lt_iff_toNat_lt] at h
  omega

/-- A place that is behind the end of another one does not come in front of that end. -/
theorem Behind.not_precedes_end (h : graph.Behind a b) :
    BlockGraph.precedes (graph.rank b.sec, b.addr) (graph.rank a.sec, a.endAddr) = false := by
  rw [Bool.eq_false_iff, ne_eq, precedes_iff]
  rw [Behind, UInt64.le_iff_toNat_le] at h
  omega

end BlockGraph

namespace Chain.Ascending

open BlockGraph

variable {chain : Chain} {l : List InstrId} {graph : BlockGraph} {id : InstrId} {parts ps qs : List Part}
  {part : Part}

/-- The ends of a part, one of which is the place of each end of its block. -/
theorem ends_of_part (h : chain.Ascending l) (hcode : Part.code parts = l) (hcuts : graph.Cuts parts)
    (hpart : part ∈ parts) : ∃ x y first last, part.run.head? = some x ∧ part.run.getLast? = some y
      ∧ chain.get? x = some first ∧ chain.get? y = some last
      ∧ ∀ place, graph.position chain place part.id
        = if precedes place (graph.rank first.sec, first.addr) then .gt
          else if precedes place (graph.rank last.sec, last.endAddr) then .eq else .lt := by
  obtain ⟨ps, qs, rfl⟩ := List.append_of_mem hpart
  obtain ⟨block, hblock, hfits⟩ := hcuts.bounds
  have hin : ∀ x ∈ part.run, x ∈ l := fun x hx => hcode ▸ Part.mem_code.mpr ⟨part, hpart, hx⟩
  obtain ⟨first, hfirst⟩ := h.spells.get?_isSome (hin _ (List.mem_of_head? hfits.first))
  obtain ⟨last, hlast⟩ := h.spells.get?_isSome (hin _ (List.mem_of_getLast? hfits.last))
  exact ⟨_, _, first, last, hfits.first, hfits.last, hfirst, hlast, fun place =>
    position_eq hblock hfirst hlast⟩

/-- A block has ended before an instruction that its own code lies in front of. -/
theorem position_lt {addr : UInt64} {instr : Instruction} (h : chain.Ascending l) (hcode : Part.code parts = l)
    (hcuts : graph.Cuts parts) (hpart : part ∈ parts)
    (hbefore : ∀ x ∈ part.run, ∀ found, chain.get? x = some found → graph.Behind found instr)
    (hfrom : instr.addr ≤ addr) : graph.position chain (graph.rank instr.sec, addr) part.id = .lt := by
  obtain ⟨x, y, first, last, hx, hy, hfirst, hlast, hposition⟩ := h.ends_of_part hcode hcuts hpart
  have hstart := (hbefore x (List.mem_of_head? hx) first hfirst).precedes
  have hend := (hbefore y (List.mem_of_getLast? hy) last hlast).not_precedes_end
  rw [UInt64.le_iff_toNat_le] at hfrom
  rw [precedes_iff] at hstart
  rw [Bool.eq_false_iff, ne_eq, precedes_iff] at hend
  rw [hposition, if_neg, if_neg] <;> rw [precedes_iff] <;> omega

/-- A block begins behind an instruction that its own code lies behind. -/
theorem position_gt {addr : UInt64} {instr : Instruction} (h : chain.Ascending l) (hcode : Part.code parts = l)
    (hcuts : graph.Cuts parts) (hpart : part ∈ parts)
    (hbehind : ∀ x ∈ part.run, ∀ found, chain.get? x = some found → graph.Behind instr found)
    (hto : addr ≤ instr.addr ∨ addr < instr.endAddr) :
    graph.position chain (graph.rank instr.sec, addr) part.id = .gt := by
  obtain ⟨x, y, first, last, hx, -, hfirst, -, hposition⟩ := h.ends_of_part hcode hcuts hpart
  have hbefore := hbehind x (List.mem_of_head? hx) first hfirst
  rw [Behind, UInt64.lt_iff_toNat_lt, UInt64.le_iff_toNat_le] at hbefore
  rw [UInt64.le_iff_toNat_le, UInt64.lt_iff_toNat_lt] at hto
  rw [hposition, if_pos]
  rw [precedes_iff]
  omega

/-- The block that is found for an instruction of the code holds it. -/
theorem of_find (h : chain.Ascending l) (hcode : Part.code parts = l) (hcuts : graph.Cuts parts)
    (hranks : graph.Ranks chain l) (hpart : part ∈ parts) (hid : id ∈ l)
    (hfind : graph.find chain id = .ok (some part.id)) : id ∈ part.run := by
  obtain ⟨-, instr, hinstr, -, hposition⟩ := find_ok hcuts hfind
  have hbehind := h.behind hranks
  obtain ⟨ps, qs, rfl⟩ := List.append_of_mem hpart
  rw [← hcode, Part.code_append, Part.code_cons, List.pairwise_append, List.pairwise_append] at hbehind
  obtain ⟨-, ⟨-, -, hlater⟩, hearlier⟩ := hbehind
  rw [← hcode, Part.code_append, Part.code_cons, ← List.append_assoc] at hid
  rcases mem_mid_iff.mp hid with hin | hout
  · exact hin
  · rcases List.mem_append.mp hout with hfront | hback
    · rw [h.position_gt hcode hcuts hpart (fun x hx found hfound => hearlier id hfront x
        (List.mem_append_left _ hx) instr found hinstr hfound) (.inl (UInt64.le_refl _))] at hposition
      cases hposition
    · rw [h.position_lt hcode hcuts hpart (fun x hx found hfound => hlater x hx id hback found instr hfound
        hinstr) (UInt64.le_refl _)] at hposition
      cases hposition

/-- An instruction that is not linked has none behind it, so no cut is made there. -/
theorem next?_ne_head? (h : chain.Ascending l) (hcuts : graph.Cuts parts) (hid : id ∉ l) (hpart : part ∈ parts) :
    chain.next? id ≠ part.run.head? := by
  intro hnext
  have hsome : part.run.head?.isSome := List.isSome_head?.mpr (hcuts.run_ne_nil hpart)
  rw [← hnext, Chain.next?] at hsome
  cases hnode : chain.node? id with
  | none => simp [hnode] at hsome
  | some node => simp [hnode, (h.spells.detached id node hid hnode).2] at hsome

end Chain.Ascending

namespace Chain.Ordered

open BlockGraph

variable {chain : Chain} {l : List InstrId} {graph : BlockGraph} {id : InstrId} {instr : Instruction}
  {parts ps qs : List Part} {part : Part}

/-- A block is over every address that one of its instructions lies over. -/
theorem position_eq {addr : UInt64} (h : chain.Ordered l) (hcode : Part.code parts = l) (hcuts : graph.Cuts parts)
    (hpart : part ∈ parts)
    (hrun : part.run.Pairwise fun x y =>
      ∀ a b, chain.get? x = some a → chain.get? y = some b → graph.Behind a b)
    (hid : id ∈ part.run) (hinstr : chain.get? id = some instr) (hfrom : instr.addr ≤ addr)
    (hto : addr < instr.endAddr) : graph.position chain (graph.rank instr.sec, addr) part.id = .eq := by
  obtain ⟨x, y, first, last, hx, hy, hfirst, hlast, hposition⟩ := h.ends_of_part hcode hcuts hpart
  rw [UInt64.le_iff_toNat_le] at hfrom
  rw [UInt64.lt_iff_toNat_lt] at hto
  have hstart : ¬ precedes (graph.rank instr.sec, addr) (graph.rank first.sec, first.addr) = true := by
    obtain ⟨rest, heq⟩ := List.head?_eq_some_iff.mp hx
    rw [heq, List.pairwise_cons] at hrun
    rw [precedes_iff]
    rcases List.mem_cons.mp (heq ▸ hid) with rfl | hrest
    · obtain rfl := Option.some.inj (hinstr.symm.trans hfirst)
      omega
    · have hprecedes := (hrun.1 id hrest first instr hfirst hinstr).precedes
      rw [precedes_iff] at hprecedes
      omega
  have hend : precedes (graph.rank instr.sec, addr) (graph.rank last.sec, last.endAddr) = true := by
    obtain ⟨front, heq⟩ := List.getLast?_eq_some_iff.mp hy
    rw [heq, List.pairwise_append] at hrun
    rw [precedes_iff]
    rcases List.mem_append.mp (heq ▸ hid) with hfront | hlastId
    · have hbefore := hrun.2.2 id hfront y (List.mem_singleton_self y) instr last hinstr hlast
      have hmem : y ∈ l := hcode ▸ Part.mem_code.mpr ⟨part, hpart, List.mem_of_getLast? hy⟩
      have hgrow := h.addr_lt_endAddr hmem hlast
      rw [Behind, UInt64.le_iff_toNat_le] at hbefore
      rw [UInt64.lt_iff_toNat_lt] at hgrow
      omega
    · obtain rfl := List.mem_singleton.mp hlastId
      obtain rfl := Option.some.inj (hinstr.symm.trans hlast)
      exact .inr ⟨rfl, hto⟩
  rw [hposition, if_neg hstart, if_pos hend]

/-- The block over an address is found if an instruction of the block lies over it. -/
theorem findAddr?_eq {addr : UInt64} (h : chain.Ordered l) (hcode : Part.code parts = l) (hcuts : graph.Cuts parts)
    (hranks : graph.Ranks chain l) (hpart : part ∈ parts) (hid : id ∈ part.run)
    (hinstr : chain.get? id = some instr) (hfrom : instr.addr ≤ addr) (hto : addr < instr.endAddr) :
    graph.findAddr? chain instr.sec addr = some part.id := by
  have hmem : id ∈ l := hcode ▸ Part.mem_code.mpr ⟨part, hpart, hid⟩
  have hsection : graph.sections.contains instr.sec = true := by
    rw [List.contains_iff_mem, hranks]
    exact mem_sectionOrder.mpr ⟨instr, List.mem_filterMap.mpr ⟨id, hmem, hinstr⟩, rfl⟩
  unfold findAddr?
  rw [if_pos hsection]
  have hbehind := h.behind hranks
  obtain ⟨ps, qs, rfl⟩ := List.append_of_mem hpart
  rw [← hcode, Part.code_append, Part.code_cons, List.pairwise_append, List.pairwise_append] at hbehind
  obtain ⟨-, ⟨hown, -, hlater⟩, hearlier⟩ := hbehind
  have htree := hcuts.tree
  rw [List.map_append, List.map_cons] at htree
  -- what comes first in the order of the tree is told apart from the block by the ranks of the sections,
  -- then by the addresses
  refine htree.find?_eq (fun b hb => ?_) (h.position_eq hcode hcuts hpart hown hid hinstr hfrom hto) fun b hb => ?_
  · obtain ⟨other, hother, rfl⟩ := List.mem_map.mp hb
    refine h.position_lt hcode hcuts (List.mem_append_left _ hother) (fun x hx found hfound => ?_) hfrom
    exact hearlier x (Part.mem_code.mpr ⟨other, hother, hx⟩) id (List.mem_append_left _ hid) found instr hfound
      hinstr
  · obtain ⟨other, hother, rfl⟩ := List.mem_map.mp hb
    refine h.position_gt hcode hcuts (List.mem_append_right _ (List.mem_cons_of_mem _ hother))
      (fun x hx found hfound => ?_) (.inr hto)
    exact hlater id hid x (Part.mem_code.mpr ⟨other, hother, hx⟩) instr found hinstr hfound

/-- The block of an instruction is found. -/
theorem find_eq (h : chain.Ordered l) (hcode : Part.code parts = l) (hcuts : graph.Cuts parts)
    (hranks : graph.Ranks chain l) (hpart : part ∈ parts) (hid : id ∈ part.run) :
    graph.find chain id = .ok (some part.id) := by
  have hmem : id ∈ l := hcode ▸ Part.mem_code.mpr ⟨part, hpart, hid⟩
  obtain ⟨instr, hinstr⟩ := h.spells.get?_isSome hmem
  unfold find
  rw [hinstr]
  exact congrArg Except.ok (h.findAddr?_eq hcode hcuts hranks hpart hid hinstr (UInt64.le_refl _)
    (h.addr_lt_endAddr hmem hinstr))

end Chain.Ordered

/-- What is found for an instruction that stands in the code holds it, and for one that does not no cut is
made. Only in code that is not ordered may nothing be found. -/
theorem Chain.Ascending.locates {chain : Chain} {l : List InstrId} {graph : BlockGraph} {id : InstrId}
    {parts : List Part} {refusable : Prop} {marks : InstrId → Prop} {mode : SplitMode}
    {sections : List SectionId} (h : chain.Ascending l) (hordered : refusable ∨ chain.Ordered l)
    (hsections : sections = BlockGraph.sectionOrder (l.filterMap chain.get?))
    (hmarked : graph.Marked l sections marks parts) (hid : refusable ∨ id ∈ l) :
    Locates refusable chain graph parts id mode := by
  have hranks : graph.Ranks chain l := hmarked.sections.trans hsections
  by_cases hmem : id ∈ l
  · rcases hordered with hrefusable | hordered
    · exact .inr ⟨hrefusable, fun part hpart hfind =>
        .inl (h.of_find hmarked.code hmarked.cuts hranks hpart hmem hfind)⟩
    · obtain ⟨part, hpart, hrun⟩ := Part.mem_code.mp (hmarked.code.symm ▸ hmem)
      exact .inl ⟨part, hpart, hordered.find_eq hmarked.code hmarked.cuts hranks hpart hrun, hrun⟩
  · exact .inr ⟨hid.resolve_right hmem, fun part hpart _ => .inr fun _ =>
      h.next?_ne_head? hmarked.cuts hmem hpart⟩

end Splice
