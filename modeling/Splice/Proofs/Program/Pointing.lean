import Splice.Proofs.Program.Bounding
import Splice.Proofs.Program.Copying
import Splice.Proofs.Program.Tracking

/-!
# Symbols around code that is put in

When jumpers of an instruction are led to what was put in front of it, so is what points at the
instruction: the records that it lists are told the new name, and go along with that from then
on. Records that it does not list are left alone.

So what an insertion makes of a record is known from where the instructions that it names are
before and after it (`Program.Draws`). The instructions list the same records afterwards, under
the names they have then, and hence the distances of two insertions add up (`Draws.trans`), on
whatever way the code got there.

A record can point at an instruction as a symbol, by the instruction at its value, and through
its relocation, by what that refers to; both are led on together (`Symbol.aimed`). The new
instruction is at the address of the anchor when it takes over, so that leading a record on
moves nothing (`Yields.addrOf_turn`).
-/

namespace Splice

/-- The record with other instructions that it points at. -/
def Symbol.aimed (turn : InstrId → InstrId) (symbol : Symbol) : Symbol :=
  { symbol with
    instr := symbol.instr.map turn
    reloc := symbol.reloc.map fun reloc => { reloc with target := reloc.target.map turn } }

/-- The name has been given out. -/
def Chain.Issued (chain : Chain) (id : InstrId) : Prop := id.index < chain.slots.size

instance (chain : Chain) : DecidablePred chain.Issued := fun _ => inferInstanceAs (Decidable (_ < _))

namespace Symbol

variable {symbol : Symbol} {turn turn' : InstrId → InstrId}
  {pointed patched pointed' patched' : InstrId → UInt64}

/-- Leading a record on to where it points changes nothing. -/
theorem aimed_id : symbol.aimed (fun id => id) = symbol := by
  rw [aimed, Option.map_id']
  cases hreloc : symbol.reloc with
  | none =>
    rw [Option.map_none, ← hreloc]
  | some reloc =>
    rw [Option.map_some, Option.map_id', ← hreloc]

/-- Leading on twice is leading on by both. -/
theorem aimed_aimed : (symbol.aimed turn).aimed turn' = symbol.aimed (turn' ∘ turn) := by
  simp only [aimed, Option.map_map]
  congr 2
  funext reloc
  simp only [Function.comp_apply, Option.map_map]

/-- Other names for what a record points at, and none for what it patches. -/
theorem renamed_aimed (hpatched : ∀ reloc ∈ symbol.reloc, ∀ id ∈ reloc.instr, turn' id = id) :
    (symbol.aimed turn).renamed (fun id => some (turn' id)) = symbol.aimed (turn' ∘ turn) := by
  have hbind : ∀ o : Option InstrId, (o.map turn).bind (fun id => some (turn' id)) = o.map (turn' ∘ turn) := by
    intro o
    cases o <;> rfl
  have hkept : ∀ reloc ∈ symbol.reloc, reloc.instr.bind (fun id => some (turn' id)) = reloc.instr := by
    intro reloc hreloc
    cases hinstr : reloc.instr with
    | none => rfl
    | some id => rw [Option.bind_some, hpatched reloc hreloc id hinstr]
  simp only [renamed, aimed, Option.map_map, hbind]
  congr 1
  refine Option.map_congr fun reloc hreloc => ?_
  simp only [Function.comp_apply, hbind, hkept reloc hreloc]

/-- What a record is taken along by after it was told other names, it can be taken along by before. -/
theorem drifted_aimed : (symbol.aimed turn).drifted pointed patched
    = (symbol.drifted (pointed ∘ turn) patched).aimed turn := by
  simp only [aimed, drifted, Option.map_map]
  congr 2
  funext reloc
  simp only [Function.comp_apply, Option.map_map]

/-- Nothing counts but the instructions that the record names. -/
theorem aimed_congr {places : InstrId → Prop}
    (hnamed : (∀ id ∈ symbol.instr, places id) ∧ ∀ reloc ∈ symbol.reloc,
      (∀ id ∈ reloc.instr, places id) ∧ ∀ id ∈ reloc.target, places id)
    (hpointed : ∀ id, places id → pointed id = pointed' id)
    (hpatched : ∀ id, places id → patched id = patched' id)
    (hturn : ∀ id, places id → turn id = turn' id) :
    (symbol.drifted pointed patched).aimed turn = (symbol.drifted pointed' patched').aimed turn' := by
  obtain ⟨hinstr, hreloc⟩ := hnamed
  have hmap : ∀ {α : Type} {f g : InstrId → α} {o : Option InstrId}, (∀ id ∈ o, places id) →
      (∀ id, places id → f id = g id) → o.map f = o.map g := by
    intro α f g o ho hfg
    exact Option.map_congr fun id hid => hfg id (ho id hid)
  have hmapped : ∀ reloc ∈ symbol.reloc,
      ({ reloc with
          offset := reloc.offset + (reloc.instr.map patched).getD 0
          addend := reloc.addend + ((reloc.target.map pointed).getD 0).toInt64
          target := reloc.target.map turn } : Relocation)
      = { reloc with
          offset := reloc.offset + (reloc.instr.map patched').getD 0
          addend := reloc.addend + ((reloc.target.map pointed').getD 0).toInt64
          target := reloc.target.map turn' } := by
    intro reloc hin
    obtain ⟨hpatch, htarget⟩ := hreloc reloc hin
    rw [hmap hpatch hpatched, hmap htarget hpointed, hmap htarget hturn]
  rw [aimed, aimed, drifted, drifted]
  simp only [Option.map_map, hmap hinstr hpointed, hmap hinstr hturn]
  congr 1
  exact Option.map_congr hmapped

/-- Being pointed at another instruction at the same address is being told its name. -/
theorem pointedTo_eq_aimed {source dest : InstrId} :
    symbol.pointedTo source dest 0 = symbol.aimed fun id => if id = source then dest else id := by
  have hname : ∀ o : Option InstrId,
      (if o = some source then some dest else o) = o.map fun id => if id = source then dest else id := by
    intro o
    cases o with
    | none => rfl
    | some id =>
      by_cases hid : id = source
      · rw [hid, if_pos rfl, Option.map_some, if_pos rfl]
      · rw [if_neg (mt Option.some.inj hid), Option.map_some, if_neg hid]
  have hzero : (0 : Int64).toUInt64 = 0 := rfl
  have hreloc : ∀ reloc : Relocation,
      (if reloc.target = some source then
        { reloc with target := some dest, addend := reloc.addend + 0 } else reloc)
      = { reloc with target := reloc.target.map fun id => if id = source then dest else id } := by
    intro reloc
    rw [← hname]
    split
    · rw [Int64.add_zero]
    · rfl
  rw [pointedTo, aimed, hname]
  simp only [hreloc, hzero, UInt64.add_zero, ite_self]

end Symbol

/-! ## Drawing -/

namespace Chain

variable {chain after : Chain} {symbol : SymbolId} {id other : InstrId} {instr : Instruction}

theorem pointers_eq (h : chain.get? id = some instr) :
    chain.pointers symbol id = instr.referencedBy.count symbol := by
  rw [pointers, h]
  rfl

theorem pointers_congr (h : after.get? other = chain.get? id) :
    after.pointers symbol other = chain.pointers symbol id := by
  rw [pointers, pointers, h]

theorem patches_congr (h : after.get? other = chain.get? id) :
    after.patches symbol other = chain.patches symbol id := by
  rw [patches, patches, h]

theorem addrOf_congr (h : after.get? other = chain.get? id) : after.addrOf other = chain.addrOf id := by
  rw [addrOf, addrOf, h]

/-- What lists a record as pointing is present. -/
theorem contains_of_pointers (h : chain.pointers symbol id ≠ 0) : chain.contains id = true := by
  rw [contains_eq_isSome_get?]
  cases hget : chain.get? id with
  | none =>
    rw [pointers, hget] at h
    exact absurd rfl h
  | some _ => rfl

/-- What lists a record as patching is present. -/
theorem contains_of_patches (h : chain.patches symbol id ≠ 0) : chain.contains id = true := by
  rw [contains_eq_isSome_get?]
  cases hget : chain.get? id with
  | none =>
    rw [patches, hget] at h
    exact absurd rfl h
  | some _ => rfl

/-- What `anchor` lists is listed by `heir` instead, an instruction at its address that was not there
before; the others are as they were. -/
structure Yields (chain after : Chain) (anchor heir : InstrId) (listed : List SymbolId) : Prop where
  issued : ∀ id, chain.Issued id → after.Issued id
  source : ∃ a, chain.get? anchor = some a ∧ a.referencedBy = listed
    ∧ after.get? anchor = some { a with referencedBy := [] }
    ∧ ∃ b, after.get? heir = some b ∧ b.referencedBy = listed ∧ b.addr = a.addr
  others : ∀ id, chain.Issued id → id ≠ anchor → after.get? id = chain.get? id

namespace Yields

variable {anchor heir : InstrId} {listed : List SymbolId} {middle : Chain}

/-- Taking over all that an instruction lists makes it yield to a new instruction at its address. -/
theorem takingOver {a b : Instruction} (ha : chain.get? anchor = some a) (hb : middle.get? heir = some b)
    (haddr : b.addr = a.addr) (hlist : b.referencedBy = [])
    (hissued : ∀ id, chain.Issued id → middle.Issued id)
    (hsame : ∀ id, chain.Issued id → middle.get? id = chain.get? id) (hfresh : ¬ chain.Issued heir) :
    chain.Yields (middle.adjust (ChainM.takingOver anchor heir a.referencedBy)) anchor heir a.referencedBy where
  issued id hid := by
    rw [Issued, size_slots_adjust]
    exact hissued id hid
  source := by
    have hanchor : chain.Issued anchor := index_lt_of_contains (by rw [contains_eq_isSome_get?, ha]; rfl)
    have hne : anchor ≠ heir := fun he => hfresh (he ▸ hanchor)
    refine ⟨a, ha, rfl, ?_, { b with referencedBy := a.referencedBy }, ?_, rfl, haddr⟩
    · rw [get?_adjust, hsame anchor hanchor, ha, Option.map_some, ChainM.takingOver, only_self, only_ne hne]
    · rw [get?_adjust, hb, Option.map_some, ChainM.takingOver, only_ne hne.symm, only_self, hlist,
        List.nil_append]
  others id hid hother := by
    rw [get?_adjust, hsame id hid]
    cases hget : chain.get? id with
    | none => rfl
    | some instr =>
      have hne : id ≠ heir := fun he => hfresh (he ▸ hid)
      rw [Option.map_some, ChainM.takingOver_ne hother hne]

/-- What yields is led on to a name that is given out. -/
theorem issued_turn (h : chain.Yields after anchor heir listed) (hid : chain.Issued id) :
    after.Issued (if id = anchor then heir else id) := by
  split
  · obtain ⟨-, -, -, -, b, hb, -, -⟩ := h.source
    exact index_lt_of_contains (by rw [contains_eq_isSome_get?, hb]; rfl)
  · exact h.issued id hid

/-- What pointed at the anchor points at the heir as many times. -/
theorem pointers_turn (h : chain.Yields after anchor heir listed) (hid : chain.Issued id) :
    after.pointers symbol (if id = anchor then heir else id) = chain.pointers symbol id := by
  split
  next he =>
    obtain ⟨a, ha, halist, -, b, hb, hblist, -⟩ := h.source
    rw [he, pointers_eq ha, pointers_eq hb, halist, hblist]
  next hne => exact pointers_congr (h.others id hid hne)

/-- Nothing points any more where it was led on from. -/
theorem pointers_left (h : chain.Yields after anchor heir listed)
    (hled : (if id = anchor then heir else id) ≠ id) : after.pointers symbol id = 0 := by
  by_cases he : id = anchor
  · obtain ⟨a, -, -, hleft, -⟩ := h.source
    rw [he, pointers_eq hleft]
    rfl
  · rw [if_neg he] at hled
    exact absurd rfl hled

/-- Yielding leaves what records patch. -/
theorem patches (h : chain.Yields after anchor heir listed) (hid : chain.Issued id) :
    after.patches symbol id = chain.patches symbol id := by
  by_cases he : id = anchor
  · obtain ⟨a, ha, -, hleft, -⟩ := h.source
    rw [he, Chain.patches, Chain.patches, ha, hleft]
    rfl
  · exact patches_congr (h.others id hid he)

/-- Yielding leaves addresses. -/
theorem addrOf (h : chain.Yields after anchor heir listed) (id : InstrId) (hid : chain.contains id = true) :
    after.addrOf id = chain.addrOf id := by
  by_cases he : id = anchor
  · obtain ⟨a, ha, -, hleft, -⟩ := h.source
    rw [he, addrOf_eq hleft, addrOf_eq ha]
  · exact addrOf_congr (h.others id (index_lt_of_contains hid) he)

/-- The heir is at the address of the anchor, so leading on moves no record. -/
theorem addrOf_turn (h : chain.Yields after anchor heir listed) (id : InstrId)
    (hid : chain.contains id = true) :
    after.addrOf (if id = anchor then heir else id) = chain.addrOf id := by
  by_cases he : id = anchor
  · obtain ⟨a, ha, -, -, b, hb, -, haddr⟩ := h.source
    rw [if_pos he, he, addrOf_eq hb, addrOf_eq ha, haddr]
  · rw [if_neg he]
    exact h.addrOf id hid

end Yields

end Chain

namespace Program

/-- How far a record is taken along that points at an instruction which it is led on from. -/
def pull (program after : Program) (turn : InstrId → InstrId) (symbol : SymbolId) (id : InstrId) : UInt64 :=
  UInt64.ofNat (program.chain.pointers symbol id)
    * (after.chain.addrOf (turn id) - program.chain.addrOf id)

/-- How far a record is taken along that patches an instruction. -/
def push (program after : Program) (symbol : SymbolId) (id : InstrId) : UInt64 :=
  UInt64.ofNat (program.chain.patches symbol id) * (after.chain.addrOf id - program.chain.addrOf id)

/-- Where a record is led on to that points at an instruction: no further if that does not list it. -/
def aim (program : Program) (turn : InstrId → InstrId) (symbol : SymbolId) (id : InstrId) : InstrId :=
  if program.chain.pointers symbol id = 0 then id else turn id

/-- A record that points at the anchor is led on from there. -/
theorem aim_turn {program : Program} {symbol : SymbolId} {anchor heir : InstrId}
    (h : program.chain.pointers symbol anchor ≠ 0) :
    program.aim (fun id => if id = anchor then heir else id) symbol
      = fun id => if id = anchor then heir else id := by
  funext id
  rw [aim]
  by_cases he : id = anchor
  · rw [he, if_neg h]
  · rw [if_neg he, ite_self]

/-- A record that does not point at the anchor stays. -/
theorem aim_turn_eq_self {program : Program} {symbol : SymbolId} {anchor heir : InstrId}
    (h : program.chain.pointers symbol anchor = 0) :
    program.aim (fun id => if id = anchor then heir else id) symbol = fun id => id := by
  funext id
  rw [aim]
  by_cases he : id = anchor
  · rw [he, if_pos h]
  · rw [if_neg he, ite_self]

/-- What becomes of a record that is led on from each instruction `id` to `turn id`. -/
def drawn (program after : Program) (turn : InstrId → InstrId) (symbol : SymbolId) (record : Symbol) : Symbol :=
  (record.drifted (program.pull after turn symbol) (program.push after symbol)).aimed (program.aim turn symbol)

/-- Each record has gone along with the instructions that list it, and been led on from `id` to
`turn id` where it points at one of these. -/
structure Draws (program after : Program) (turn : InstrId → InstrId) : Prop where
  issued : ∀ id, program.chain.Issued id → after.chain.Issued id ∧ after.chain.Issued (turn id)
  pointers : ∀ symbol id, program.chain.Issued id →
    after.chain.pointers symbol (turn id) = program.chain.pointers symbol id
  left : ∀ symbol id, program.chain.Issued id → turn id ≠ id → after.chain.pointers symbol id = 0
  patches : ∀ symbol id, program.chain.Issued id →
    after.chain.patches symbol id = program.chain.patches symbol id
  records : ∀ symbol, after.symbols.get? symbol
    = (program.symbols.get? symbol).map (program.drawn after turn symbol)

namespace Draws

variable {program middle after : Program} {turn turn' : InstrId → InstrId} {symbol : SymbolId} {id : InstrId}

/-- What lists no record as pointing does not come to list one. -/
theorem pointers_eq_zero (h : program.Draws middle turn) (hid : program.chain.Issued id)
    (hzero : program.chain.pointers symbol id = 0) : middle.chain.pointers symbol id = 0 := by
  by_cases hturn : turn id = id
  · rw [← h.pointers symbol id hid, hturn] at hzero
    exact hzero
  · exact h.left symbol id hid hturn

/-- A record led on twice ends where the composed turn leads it. -/
theorem aim_aim (h : program.Draws middle turn) (hid : program.chain.Issued id) :
    middle.aim turn' symbol (program.aim turn symbol id) = program.aim (turn' ∘ turn) symbol id := by
  unfold aim
  by_cases hzero : program.chain.pointers symbol id = 0
  · rw [if_pos hzero, if_pos hzero, if_pos (h.pointers_eq_zero hid hzero)]
  · rw [if_neg hzero, if_neg hzero, h.pointers symbol id hid, if_neg hzero]
    rfl

/-- The distances of what a record points at add up over two steps. -/
theorem pull_add_pull (h : program.Draws middle turn) (hid : program.chain.Issued id) :
    program.pull middle turn symbol id + middle.pull after turn' symbol (program.aim turn symbol id)
      = program.pull after (turn' ∘ turn) symbol id := by
  unfold pull aim
  by_cases hzero : program.chain.pointers symbol id = 0
  · rw [if_pos hzero, hzero, h.pointers_eq_zero hid hzero]
    grind
  · rw [if_neg hzero, h.pointers symbol id hid, Function.comp_apply]
    grind

/-- The distances of what a record patches add up over two steps. -/
theorem push_add_push (h : program.Draws middle turn) (hid : program.chain.Issued id) :
    program.push middle symbol id + middle.push after symbol id = program.push after symbol id := by
  unfold push
  rw [h.patches symbol id hid]
  grind

/-- What has been drawn twice is as far as if it had been drawn once. -/
theorem trans (h : program.Draws middle turn) (k : middle.Draws after turn')
    (hlinks : program.symbols.Within program.chain.Issued) : program.Draws after (turn' ∘ turn) where
  issued id hid := by
    obtain ⟨hmiddle, hturned⟩ := h.issued id hid
    exact ⟨(k.issued id hmiddle).1, (k.issued (turn id) hturned).2⟩
  pointers symbol id hid := by
    rw [Function.comp_apply, k.pointers symbol _ (h.issued id hid).2, h.pointers symbol id hid]
  left symbol id hid hturned := by
    have hmiddle := (h.issued id hid).1
    by_cases hfirst : turn id = id
    · refine k.left symbol id hmiddle ?_
      rwa [Function.comp_apply, hfirst] at hturned
    · exact k.pointers_eq_zero hmiddle (h.left symbol id hid hfirst)
  patches symbol id hid := by
    rw [k.patches symbol id (h.issued id hid).1, h.patches symbol id hid]
  records symbol := by
    rw [k.records, h.records, Option.map_map]
    refine Option.map_congr fun record hrecord => ?_
    have hnamed := hlinks record (Array.mem_of_getElem? hrecord)
    simp only [Function.comp_apply, drawn, Symbol.drifted_aimed, Symbol.drifted_drifted, Symbol.aimed_aimed]
    exact Symbol.aimed_congr hnamed (fun id hid => h.pull_add_pull hid) (fun id hid => h.push_add_push hid)
      fun id hid => h.aim_aim hid

/-- Records that were drawn name what has been given out. -/
theorem within (h : program.Draws after turn) (hlinks : program.symbols.Within program.chain.Issued) :
    after.symbols.Within after.chain.Issued := by
  intro drawn hdrawn
  obtain ⟨index, hindex⟩ := Array.getElem?_of_mem hdrawn
  have hrecords := h.records ⟨index⟩
  rw [SymbolTable.get?, hindex] at hrecords
  obtain ⟨record, hrecord, rfl⟩ := Option.map_eq_some_iff.mp hrecords.symm
  obtain ⟨hinstr, hreloc⟩ := hlinks record (Array.mem_of_getElem? hrecord)
  have haim : ∀ id, program.chain.Issued id → after.chain.Issued (program.aim turn ⟨index⟩ id) := by
    intro id hid
    unfold aim
    split
    · exact (h.issued id hid).1
    · exact (h.issued id hid).2
  refine ⟨fun id hid => ?_, fun reloc hin => ?_⟩
  · obtain ⟨id, hid', rfl⟩ := Option.map_eq_some_iff.mp hid
    exact haim id (hinstr id hid')
  · obtain ⟨moved, hmoved, rfl⟩ := Option.map_eq_some_iff.mp hin
    obtain ⟨before, hbefore, rfl⟩ := Option.map_eq_some_iff.mp hmoved
    obtain ⟨hpatch, htarget⟩ := hreloc before hbefore
    refine ⟨fun id hid => (h.issued id (hpatch id hid)).1, fun id hid => ?_⟩
    obtain ⟨id, hid', rfl⟩ := Option.map_eq_some_iff.mp hid
    exact haim id (htarget id hid')

/-- Where no instruction is at another address than before, a record only is told other names. -/
theorem drawn_still {record : Symbol}
    (hmoved : ∀ id, program.chain.contains id = true →
      after.chain.addrOf (turn id) = program.chain.addrOf id)
    (hstill : ∀ id, program.chain.contains id = true → after.chain.addrOf id = program.chain.addrOf id) :
    program.drawn after turn symbol record = record.aimed (program.aim turn symbol) := by
  have hpull : program.pull after turn symbol = fun _ => 0 := by
    funext id
    rw [pull]
    by_cases hzero : program.chain.pointers symbol id = 0
    · rw [hzero]
      exact UInt64.zero_mul
    · rw [hmoved id (Chain.contains_of_pointers hzero), UInt64.sub_self, UInt64.mul_zero]
  have hpush : program.push after symbol = fun _ => 0 := by
    funext id
    rw [push]
    by_cases hzero : program.chain.patches symbol id = 0
    · rw [hzero]
      exact UInt64.zero_mul
    · rw [hstill id (Chain.contains_of_patches hzero), UInt64.sub_self, UInt64.mul_zero]
  rw [drawn, hpull, hpush, Symbol.drifted_zero]

/-- Records that nothing was done to are what they were. -/
theorem drawn_id {record : Symbol}
    (hsame : ∀ id, program.chain.Issued id → after.chain.get? id = program.chain.get? id) :
    program.drawn after (fun id => id) symbol record = record := by
  have hstill : ∀ id, program.chain.contains id = true → after.chain.addrOf id = program.chain.addrOf id :=
    fun id hid => Chain.addrOf_congr (hsame id (Chain.index_lt_of_contains hid))
  have haim : program.aim (fun id => id) symbol = fun id => id := by
    funext id
    exact ite_self id
  rw [drawn_still hstill hstill, haim, Symbol.aimed_id]

/-- Code that is put in draws nothing. -/
theorem of_same (hissued : ∀ id, program.chain.Issued id → after.chain.Issued id)
    (hsame : ∀ id, program.chain.Issued id → after.chain.get? id = program.chain.get? id)
    (hsymbols : after.symbols = program.symbols) : program.Draws after fun id => id where
  issued id hid := ⟨hissued id hid, hissued id hid⟩
  pointers _ id hid := Chain.pointers_congr (hsame id hid)
  left _ _ _ hne := absurd rfl hne
  patches _ id hid := Chain.patches_congr (hsame id hid)
  records symbol := by
    have hdrawn : program.drawn after (fun id => id) symbol = fun record => record :=
      funext fun record => drawn_id hsame
    rw [hdrawn, Option.map_id', hsymbols]

/-- Settling draws along what is tied to an instruction. -/
theorem of_follows {s t : Session} (h : Session.Follows s t)
    (hsize : t.program.chain.slots.size = s.program.chain.slots.size) :
    s.program.Draws t.program fun id => id where
  issued id hid := by
    unfold Chain.Issued at hid ⊢
    rw [hsize]
    exact ⟨hid, hid⟩
  pointers symbol id _ := h.chain.pointers symbol id
  left symbol id _ hne := absurd rfl hne
  patches symbol id _ := h.chain.patches symbol id
  records symbol := by
    rw [h.records]
    congr 1
    funext record
    have haim : s.program.aim (fun id => id) symbol = fun id => id := by
      funext id
      exact ite_self id
    rw [drawn, haim, Symbol.aimed_id]
    rfl

end Draws

end Program

/-! ## An insertion -/

namespace EngineM

open Program

variable {s t m : Session} {given : Instruction} {retarget : Retarget} {anchor new id : InstrId}
  {shift : Shift} {xs ys : List InstrId}

/-- What is listed by the anchor passes on to an instruction at its address that was not there before. -/
theorem moveReferences_draws {program : Program} {a b : Instruction} {u : Unit}
    (ha : program.chain.get? anchor = some a) (hb : s.program.chain.get? new = some b)
    (haddr : b.addr = a.addr) (hlist : b.referencedBy = [])
    (hissued : ∀ id, program.chain.Issued id → s.program.chain.Issued id)
    (hsame : ∀ id, program.chain.Issued id → s.program.chain.get? id = program.chain.get? id)
    (hfresh : ¬ program.chain.Issued new) (hsymbols : s.program.symbols = program.symbols)
    (h : moveReferences anchor new s = .ok u t) :
    program.Draws t.program fun id => if id = anchor then new else id := by
  have hanchor : program.chain.Issued anchor :=
    Chain.index_lt_of_contains (by rw [Chain.contains_eq_isSome_get?, ha]; rfl)
  have hne : anchor ≠ new := fun he => hfresh (by rwa [← he])
  obtain ⟨a', b', table, ha', hb', ht, htold⟩ := moveReferences_run hne h
  obtain rfl := Option.some.inj (ha'.symm.trans ((hsame anchor hanchor).trans ha))
  obtain rfl := Option.some.inj (hb'.symm.trans hb)
  rw [haddr, UInt64.sub_self] at htold
  have hyields : program.chain.Yields t.program.chain anchor new a'.referencedBy := by
    rw [ht]
    exact .takingOver ha hb haddr hlist hissued hsame hfresh
  have htable : t.program.symbols = table := by
    rw [ht]
    rfl
  refine ⟨fun id hid => ⟨hyields.issued id hid, hyields.issued_turn hid⟩,
    fun symbol id hid => hyields.pointers_turn hid, fun symbol id hid hled => hyields.pointers_left hled,
    fun symbol id hid => hyields.patches hid, fun symbol => ?_⟩
  have hdrawn : program.drawn t.program (fun id => if id = anchor then new else id) symbol
      = Symbol.aimed (program.aim (fun id => if id = anchor then new else id) symbol) :=
    funext fun record => Draws.drawn_still hyields.addrOf_turn hyields.addrOf
  have hlisted : symbol ∈ a'.referencedBy ↔ program.chain.pointers symbol anchor ≠ 0 := by
    rw [Chain.pointers_eq ha, ← Nat.pos_iff_ne_zero, List.count_pos_iff]
  rw [htable, htold.get?, hsymbols, hdrawn]
  by_cases hin : symbol ∈ a'.referencedBy
  · have hzero : UInt64.toInt64 0 = 0 := rfl
    rw [if_pos hin, aim_turn (hlisted.mp hin), hzero]
    exact congrArg (Option.map · _) (funext fun record => Symbol.pointedTo_eq_aimed)
  · have hself : Symbol.aimed (fun id => id) = id := funext fun _ => Symbol.aimed_id
    rw [if_neg hin, aim_turn_eq_self (Decidable.not_not.mp (mt hlisted.mpr hin)), hself, Option.map_id, id]

/-- Where an insertion in front of `anchor` leads what points at an instruction. -/
def leading (redirects : Redirects) (anchor new : InstrId) (retarget : Retarget) (id : InstrId) : InstrId :=
  if retarget = .inserted ∧ redirects.targetOf? anchor = none ∧ id = anchor then new else id

/-- The splice of an insertion leads on what points at the anchor if it leads jumpers. -/
theorem spliceBefore_draws (htarget : given.target = none) (htable : given.jumpTable = [])
    (hl : s.program.chain.Spells (xs ++ anchor :: ys))
    (h : spliceBefore anchor given retarget s = .ok (new, shift) t) :
    s.program.Draws t.program (leading s.program.redirects anchor new retarget) := by
  obtain ⟨hname, -⟩ := spliceBefore_named htarget htable hl h
  obtain ⟨found, block, c₁, s₂, s₄, entering, s₅, hfound, -, hinsert, hlink, hextend, henter, ht, -⟩ :=
    spliceBefore_run h
  obtain rfl := linkInserted_plain htarget htable hlink
  have hregraphed := forBlock_regraphed (fun _ => extendBlockBefore_regraphed) hextend
  have hchain₄ : s₄.program.chain = c₁ := by
    rw [hregraphed.sameCode.chain, chain_withOwner]
    rfl
  have hredirects₄ : s₄.program.redirects = s.program.redirects := by
    rw [hregraphed.sameCode.redirects, redirects_withOwner]
    rfl
  have hsymbols₄ : s₄.program.symbols = s.program.symbols :=
    (withOwner_untouched.trans hregraphed.untouched).symbols
  have hget := (ChainM.insertBefore_inserted hl hinsert).get?
  have hfresh : ¬ s.program.chain.Issued new := by
    rw [hname]
    exact Nat.lt_irrefl _
  have hissued : ∀ id, s.program.chain.Issued id → s₄.program.chain.Issued id := by
    intro id hid
    rw [Chain.Issued, hchain₄, ChainM.insertBefore_size hinsert]
    exact Nat.lt_succ_of_lt hid
  have hsame : ∀ id, s.program.chain.Issued id → s₄.program.chain.get? id = s.program.chain.get? id := by
    intro id hid
    have hne : id ≠ new := fun he => hfresh (by rwa [← he])
    rw [hchain₄, hget, if_neg hne]
  -- jumpers are led on, and what points at the anchor with them, or all stays as it is
  rcases enteringJumpers_run henter with ⟨hstays, rfl⟩ | ⟨rfl, hopen, redirects, -, hmove⟩
  · have hlead : leading s.program.redirects anchor new retarget = fun id => id := by
      funext id
      refine if_neg fun hled => ?_
      obtain ⟨hinserted, hnone, -⟩ := hled
      have hsome := hstays hinserted
      rw [hredirects₄, hnone] at hsome
      cases hsome
    rw [hlead, ht]
    exact .of_same hissued hsame hsymbols₄
  · have hlead : leading s.program.redirects anchor new .inserted
        = fun id => if id = anchor then new else id := by
      rw [hredirects₄] at hopen
      funext id
      simp only [leading, hopen, true_and]
    have hnew : s₄.program.chain.get? new = some (stampedFor given found.sec found.func found.addr) := by
      rw [hchain₄, hget, if_pos rfl]
    rw [hlead, ht]
    exact moveReferences_draws (s := { s₄ with program.redirects := redirects }) hfound hnew rfl rfl hissued
      hsame hfresh hsymbols₄ hmove

/-- So does the insertion, and settling draws it all along. -/
theorem insert_draws (hs : s.program.Tidy s.program.chain.ids) (htarget : given.target = none)
    (htable : given.jumpTable = []) (hlinks : s.program.symbols.Within s.program.chain.Issued)
    (h : insertBefore anchor given retarget s = .ok new t) :
    s.program.Draws t.program (leading s.program.redirects anchor new retarget) := by
  obtain ⟨shift, m, summary, hsplice, hsettle⟩ := insertBefore_run h
  obtain ⟨found, hfound⟩ := spliceBefore_present hsplice
  obtain ⟨xs, ys, hsplit⟩ := List.append_of_mem (hs.attached.mem hfound)
  have hl := hs.spells
  rw [hsplit] at hl
  have hm := spliceBefore_draws htarget htable hl hsplice
  have hfollows := Session.Follows.updateRelation.settle hsettle
  have hsize : t.program.chain.slots.size = m.program.chain.slots.size := by
    obtain ⟨f, hf, -⟩ := hfollows.chain
    rw [hf, Chain.size_slots_adjust]
  exact hm.trans (.of_follows hfollows hsize) hlinks

end EngineM

end Splice
