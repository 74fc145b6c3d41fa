import Splice.Proofs.Program.Update

/-!
# Symbols follow the code

An instruction that moves takes along what is tied to it: each record that it lists as
patching it or pointing at it changes by the distance of the move, once for each time that it
is listed. Over an update these distances add up to the distance between the first and
the last address of the instruction (`Session.Follows`), on whatever way it got there. So
the symbols that an update leaves are a function of the addresses that it leaves.

`Follows` is additive, so it passes through rounds and passes without looking into them: a
record that is listed by two instructions, or twice by one, changes by the sum. It is an
equation between records, by which two runs of updates that end with the same addresses end with
the same records (`Splice.Proofs.Program.Agreement`).
-/

namespace Splice

/-! ## Records that drift -/

/-- The record when each instruction has taken it along by `pointed`, as one that the record points at,
and by `patched`, as one that it patches. -/
def Symbol.drifted (pointed patched : InstrId → UInt64) (symbol : Symbol) : Symbol :=
  { symbol with
    value := symbol.value + (symbol.instr.map pointed).getD 0
    reloc := symbol.reloc.map fun reloc =>
      { reloc with
        offset := reloc.offset + (reloc.instr.map patched).getD 0
        addend := reloc.addend + ((reloc.target.map pointed).getD 0).toInt64 } }

/-- The distance of one instruction that moves alone. -/
def single (id : InstrId) (delta : UInt64) (other : InstrId) : UInt64 :=
  if other = id then delta else 0

namespace Symbol

variable {symbol : Symbol} {pointed patched pointed' patched' : InstrId → UInt64} {id : InstrId}
  {delta : Int64}

theorem getD_map_zero (o : Option InstrId) : (o.map fun _ => (0 : UInt64)).getD 0 = 0 := by
  cases o <;> rfl

/-- Two distances for one instruction add up, also where there is none. -/
theorem getD_map_add (o : Option InstrId) (f g : InstrId → UInt64) :
    (o.map f).getD 0 + (o.map g).getD 0 = (o.map fun id => f id + g id).getD 0 := by
  cases o with
  | none => rfl
  | some _ => rfl

/-- A distance that one instruction has counts if it is that one. -/
theorem getD_map_single (o : Option InstrId) (id : InstrId) (delta : UInt64) :
    (o.map (single id delta)).getD 0 = if o = some id then delta else 0 := by
  cases o with
  | none => rfl
  | some other => simp [single]

/-- A record that nothing takes along is what it was. -/
theorem drifted_zero : symbol.drifted (fun _ => 0) (fun _ => 0) = symbol := by
  have hreloc : (symbol.reloc.map fun reloc => { reloc with
      offset := reloc.offset + (reloc.instr.map fun _ => (0 : UInt64)).getD 0
      addend := reloc.addend + ((reloc.target.map fun _ => (0 : UInt64)).getD 0).toInt64 })
        = symbol.reloc := by
    cases symbol.reloc with
    | none => rfl
    | some reloc =>
      have hzero : (0 : UInt64).toInt64 = 0 := rfl
      simp only [Option.map_some, getD_map_zero, hzero, UInt64.add_zero, Int64.add_zero]
  rw [drifted, hreloc, getD_map_zero, UInt64.add_zero]

/-- Going along twice is going along by the sums. -/
theorem drifted_drifted :
    (symbol.drifted pointed patched).drifted pointed' patched'
      = symbol.drifted (fun id => pointed id + pointed' id) (fun id => patched id + patched' id) := by
  simp only [drifted, Option.map_map, UInt64.add_assoc, getD_map_add]
  congr 1
  cases symbol.reloc with
  | none => rfl
  | some reloc =>
    simp only [Option.map_some, Function.comp_apply, UInt64.add_assoc, Int64.add_assoc, getD_map_add,
      ← UInt64.toInt64_add]

/-- Moving a patched place is going along with the instruction that it patches. -/
theorem movedWith_eq :
    symbol.movedWith id delta = symbol.drifted (fun _ => 0) (single id delta.toUInt64) := by
  have hreloc : ∀ reloc : Relocation,
      (if reloc.instr = some id then { reloc with offset := reloc.offset + delta.toUInt64 } else reloc)
        = { reloc with
            offset := reloc.offset + (reloc.instr.map (single id delta.toUInt64)).getD 0
            addend := reloc.addend + ((reloc.target.map fun _ => (0 : UInt64)).getD 0).toInt64 } := by
    intro reloc
    have hzero : (0 : UInt64).toInt64 = 0 := rfl
    rw [getD_map_zero, getD_map_single, hzero, Int64.add_zero]
    split
    · rfl
    · rw [UInt64.add_zero]
  rw [movedWith, drifted, getD_map_zero, UInt64.add_zero]
  simp only [hreloc]

/-- Pointing at the same instruction again is going along with it. -/
theorem pointedTo_eq :
    symbol.pointedTo id id delta = symbol.drifted (single id delta.toUInt64) (fun _ => 0) := by
  have hreloc : ∀ reloc : Relocation,
      (if reloc.target = some id then
        { reloc with target := some id, addend := reloc.addend + delta } else reloc)
        = { reloc with
            offset := reloc.offset + (reloc.instr.map fun _ => (0 : UInt64)).getD 0
            addend := reloc.addend
              + ((reloc.target.map (single id delta.toUInt64)).getD 0).toInt64 } := by
    intro reloc
    have hzero : (0 : UInt64).toInt64 = 0 := rfl
    rw [getD_map_zero, getD_map_single, UInt64.add_zero]
    split
    next htarget => rw [Int64.toInt64_toUInt64, ← htarget]
    next => rw [hzero, Int64.add_zero]
  have hinstr : (if symbol.instr = some id then some id else symbol.instr) = symbol.instr := by
    split
    next h => exact h.symm
    next => rfl
  have hvalue : (if symbol.instr = some id then symbol.value + delta.toUInt64 else symbol.value)
      = symbol.value + (symbol.instr.map (single id delta.toUInt64)).getD 0 := by
    rw [getD_map_single]
    split
    · rfl
    · rw [UInt64.add_zero]
  simp only [pointedTo, drifted, hreloc, hinstr, hvalue]

end Symbol

/-! ## Sessions whose symbols follow -/

namespace Chain

/-- The address of an instruction; zero if it is not present. -/
def addrOf (chain : Chain) (id : InstrId) : UInt64 := ((chain.get? id).map (·.addr)).getD 0

/-- How many times an instruction lists a record as pointing at it. -/
def pointers (chain : Chain) (symbol : SymbolId) (id : InstrId) : Nat :=
  ((chain.get? id).map (·.referencedBy.count symbol)).getD 0

/-- How many times an instruction lists a record as patching it. -/
def patches (chain : Chain) (symbol : SymbolId) (id : InstrId) : Nat :=
  ((chain.get? id).map (·.relocs.count symbol)).getD 0

variable {chain after : Chain} {id : InstrId} {instr : Instruction}

theorem addrOf_eq (h : chain.get? id = some instr) : chain.addrOf id = instr.addr := by
  rw [addrOf, h]
  rfl

/-- How often a record is listed as pointing depends on the links alone. -/
theorem Evolves.pointers (h : chain.Evolves (fun _ a b => a.SameTies b) after) (symbol : SymbolId) (id : InstrId) :
    after.pointers symbol id = chain.pointers symbol id := by
  rw [Chain.pointers, Chain.pointers]
  cases hget : chain.get? id with
  | none => rw [h.get?_eq_none hget]
  | some instr =>
    obtain ⟨instr', hinstr', -, hlist⟩ := h.get? hget
    rw [hinstr', Option.map_some, Option.map_some, hlist]

/-- How often a record is listed as patching depends on the links alone. -/
theorem Evolves.patches (h : chain.Evolves (fun _ a b => a.SameTies b) after) (symbol : SymbolId) (id : InstrId) :
    after.patches symbol id = chain.patches symbol id := by
  rw [Chain.patches, Chain.patches]
  cases hget : chain.get? id with
  | none => rw [h.get?_eq_none hget]
  | some instr =>
    obtain ⟨instr', hinstr', hlist, -⟩ := h.get? hget
    rw [hinstr', Option.map_some, Option.map_some, hlist]

end Chain

/-- Tables are one if they have the same records, runs and base symbols. -/
theorem SymbolTable.ext_get? {a b : SymbolTable} (h : ∀ symbol, a.get? symbol = b.get? symbol)
    (hruns : a.runs = b.runs) (hcount : a.baseCount = b.baseCount) : a = b := by
  cases a
  cases b
  obtain rfl := hruns
  obtain rfl := hcount
  exact congrArg (SymbolTable.mk · _ _) (Array.ext_getElem? fun index => h ⟨index⟩)

namespace Session

/-- The session with other symbols. -/
def withSymbols (s : Session) (symbols : SymbolTable) : Session :=
  { s with program.symbols := symbols }

/-- How far the instructions that a record points at take it along from `s` to `t`. -/
def pointedDrift (s t : Session) (symbol : SymbolId) (id : InstrId) : UInt64 :=
  UInt64.ofNat (s.program.chain.pointers symbol id)
    * (t.program.chain.addrOf id - s.program.chain.addrOf id)

/-- How far the instructions that a record patches take it along from `s` to `t`. -/
def patchedDrift (s t : Session) (symbol : SymbolId) (id : InstrId) : UInt64 :=
  UInt64.ofNat (s.program.chain.patches symbol id)
    * (t.program.chain.addrOf id - s.program.chain.addrOf id)

/-- Each record has gone along with the instructions that list it. -/
structure Follows (s t : Session) : Prop where
  chain : s.program.chain.Evolves (fun _ a b => a.SameTies b) t.program.chain
  records : ∀ symbol, t.program.symbols.get? symbol
    = (s.program.symbols.get? symbol).map
        (Symbol.drifted (pointedDrift s t symbol) (patchedDrift s t symbol))
  runs : t.program.symbols.runs = s.program.symbols.runs
  baseCount : t.program.symbols.baseCount = s.program.symbols.baseCount

variable {s t u : Session}

/-- Where nothing has moved, nothing has to follow. -/
theorem Follows.of_still (hchain : s.program.chain.Evolves (fun _ a b => a.SameTies b) t.program.chain)
    (haddr : ∀ id, t.program.chain.addrOf id = s.program.chain.addrOf id)
    (hsymbols : t.program.symbols = s.program.symbols) : Follows s t where
  chain := hchain
  records symbol := by
    have hpointed : pointedDrift s t symbol = fun _ => 0 := by
      funext id
      rw [pointedDrift, haddr, UInt64.sub_self, UInt64.mul_zero]
    have hpatched : patchedDrift s t symbol = fun _ => 0 := by
      funext id
      rw [patchedDrift, haddr, UInt64.sub_self, UInt64.mul_zero]
    have hself : Symbol.drifted (fun _ => 0) (fun _ => 0) = id := funext fun _ => Symbol.drifted_zero
    rw [hsymbols, hpointed, hpatched, hself, Option.map_id, id]
  runs := by rw [hsymbols]
  baseCount := by rw [hsymbols]

theorem Follows.refl (s : Session) : Follows s s :=
  .of_still (.refl (fun _ => .refl) _) (fun _ => rfl) rfl

/-- Following one move and then another is following both: the distances add up. -/
theorem Follows.trans (h : Follows s t) (k : Follows t u) : Follows s u where
  chain := h.chain.trans (fun _ _ _ _ => .trans) k.chain
  records symbol := by
    rw [k.records, h.records, Option.map_map]
    congr 1
    funext record
    rw [Function.comp_apply, Symbol.drifted_drifted]
    congr 1
    · funext id
      simp only [pointedDrift, h.chain.pointers]
      grind
    · funext id
      simp only [patchedDrift, h.chain.patches]
      grind
  runs := k.runs.trans h.runs
  baseCount := k.baseCount.trans h.baseCount

/-- The symbols are a function of the addresses of the instructions. -/
theorem Follows.unique (h : Follows s t) (k : Follows s u)
    (haddr : ∀ id, t.program.chain.addrOf id = u.program.chain.addrOf id) :
    t.program.symbols = u.program.symbols := by
  have hget : ∀ symbol, t.program.symbols.get? symbol = u.program.symbols.get? symbol := by
    intro symbol
    have hpointed : pointedDrift s t symbol = pointedDrift s u symbol := by
      funext id
      rw [pointedDrift, pointedDrift, haddr]
    have hpatched : patchedDrift s t symbol = patchedDrift s u symbol := by
      funext id
      rw [patchedDrift, patchedDrift, haddr]
    rw [h.records, k.records, hpointed, hpatched]
  exact SymbolTable.ext_get? hget (h.runs.trans k.runs.symm) (h.baseCount.trans k.baseCount.symm)

end Session

/-! ## Operations -/

namespace EngineM

variable {s t : Session} {u : Unit} {id : InstrId}

/-- Changing a record changes the symbols and nothing else. -/
theorem updateSymbol_ok {symbol : SymbolId} {f : Symbol → Symbol}
    (h : updateSymbol symbol f s = .ok u t) :
    t = s.withSymbols (s.program.symbols.update symbol f) := by
  simp only [updateSymbol, bind_ok, program_ok, liftResult_ok, updateProgram_ok] at h
  obtain ⟨_, _, ⟨rfl, rfl⟩, _, _, ⟨-, rfl⟩, rfl⟩ := h
  rfl

/-- Each record of a list is changed once for each time that it is listed. -/
theorem updateSymbols_ok {f : Symbol → Symbol} {symbols : List SymbolId}
    (h : symbols.forM (fun symbol => updateSymbol symbol f) s = .ok u t) :
    ∃ table, t = s.withSymbols table ∧ table.runs = s.program.symbols.runs
      ∧ table.baseCount = s.program.symbols.baseCount
      ∧ ∀ symbol, table.get? symbol
        = (s.program.symbols.get? symbol).map (Nat.repeat f (symbols.count symbol)) := by
  induction symbols generalizing s with
  | nil =>
    rw [forM_nil_ok] at h
    refine ⟨s.program.symbols, h, rfl, rfl, fun symbol => ?_⟩
    show _ = (s.program.symbols.get? symbol).map id
    rw [Option.map_id, id]
  | cons head symbols ih =>
    obtain ⟨m, hhead, hrest⟩ := forM_cons_ok.mp h
    obtain rfl := updateSymbol_ok hhead
    obtain ⟨table, ht, hruns, hcount, hget⟩ := ih hrest
    refine ⟨table, ht, hruns, hcount, fun symbol => ?_⟩
    rw [hget]
    show ((s.program.symbols.update head f).get? symbol).map _ = _
    rw [SymbolTable.get?_update, List.count_cons]
    by_cases hsymbol : symbol = head
    · subst hsymbol
      rw [if_pos rfl, Option.map_map, if_pos (beq_self_eq_true symbol)]
      congr 1
      funext record
      -- the first change comes first, the count takes it off last
      have hcomm : ∀ n, Nat.repeat f n (f record) = f (Nat.repeat f n record) := by
        intro n
        induction n with
        | zero => rfl
        | succ n ih => exact congrArg f ih
      exact hcomm _
    · have hne : (head == symbol) = false := beq_eq_false_iff_ne.mpr fun he => hsymbol he.symm
      rw [if_neg hsymbol, hne]
      rfl

/-- Going along so many times is going along by so many times the distance. -/
theorem repeat_drifted (pointed patched : InstrId → UInt64) (n : Nat) (record : Symbol) :
    Nat.repeat (Symbol.drifted pointed patched) n record
      = record.drifted (fun id => UInt64.ofNat n * pointed id) fun id => UInt64.ofNat n * patched id := by
  induction n with
  | zero =>
    have hzero : ∀ x : UInt64, UInt64.ofNat 0 * x = 0 := fun x => UInt64.zero_mul
    simp only [hzero]
    exact Symbol.drifted_zero.symm
  | succ n ih =>
    have hsucc : ∀ x : UInt64, UInt64.ofNat (n + 1) * x = UInt64.ofNat n * x + x := by
      intro x
      rw [UInt64.ofNat_add]
      show (UInt64.ofNat n + 1) * x = _
      grind
    show Symbol.drifted pointed patched (Nat.repeat _ n record) = _
    rw [ih, Symbol.drifted_drifted]
    simp only [hsucc]

/-- Records that are taken along, each as often as it is listed. -/
theorem driftAll_ok {pointed patched : InstrId → UInt64} {symbols : List SymbolId}
    (h : symbols.forM (fun symbol => updateSymbol symbol (.drifted pointed patched)) s = .ok u t) :
    ∃ table, t = s.withSymbols table ∧ table.runs = s.program.symbols.runs
      ∧ table.baseCount = s.program.symbols.baseCount
      ∧ ∀ symbol, table.get? symbol = (s.program.symbols.get? symbol).map
          (Symbol.drifted (fun id => UInt64.ofNat (symbols.count symbol) * pointed id)
            fun id => UInt64.ofNat (symbols.count symbol) * patched id) := by
  obtain ⟨table, ht, hruns, hcount, hget⟩ := updateSymbols_ok h
  refine ⟨table, ht, hruns, hcount, fun symbol => ?_⟩
  rw [hget]
  congr 1
  exact funext (repeat_drifted pointed patched _)

/-- The distance to the address that an instruction is given is that of this instruction alone. -/
theorem addrOf_relocated {chain : Chain} {found : Instruction} {addr : UInt64}
    (hfound : chain.get? id = some found) (x : InstrId) :
    (chain.adjust (Chain.only id (.relocated addr))).addrOf x - chain.addrOf x
      = single id (addr - found.addr) x := by
  rw [Chain.addrOf, Chain.get?_adjust, single]
  by_cases hx : x = id
  · subst hx
    rw [if_pos rfl, Chain.addrOf_eq hfound, hfound, Option.map_some, Chain.only_self]
    rfl
  · have honly : Chain.only id (.relocated addr) x = fun instr => instr :=
      funext fun instr => Chain.only_ne hx _ instr
    rw [if_neg hx, honly, Option.map_id', Chain.addrOf, UInt64.sub_self]

/-- A count matters at the one instruction that has moved. -/
theorem mul_single (count : InstrId → Nat) (delta : UInt64) (x : InstrId) :
    UInt64.ofNat (count id) * single id delta x = UInt64.ofNat (count x) * single id delta x := by
  by_cases hx : x = id
  · rw [hx]
  · rw [single, if_neg hx, UInt64.mul_zero, UInt64.mul_zero]

/-- A move takes along the records that the instruction lists, once for each time that it lists them.
Nothing else moves, so the distances of all others are zero. -/
theorem moveInstruction_follows (addr : UInt64) : Keeps Session.Follows (moveInstruction id addr) := by
  intro s moved t h
  simp only [moveInstruction, bind_ok, instr_ok] at h
  obtain ⟨found, _, ⟨hfound, rfl⟩, h⟩ := h
  by_cases haddr : found.addr = addr
  · rw [if_pos haddr, pure_ok] at h
    rw [← h.2]
    exact .refl s
  · rw [if_neg haddr] at h
    simp only [bind_ok, updateInstr_ok, pure_ok, Symbol.movedWith_eq, Symbol.pointedTo_eq,
      UInt64.toUInt64_toInt64] at h
    obtain ⟨_, _, ⟨-, rfl⟩, _, _, hpatched, _, _, hpointed, -, rfl⟩ := h
    obtain ⟨table, rfl, hruns, hcount, hget⟩ := driftAll_ok hpatched
    obtain ⟨table', rfl, hruns', hcount', hget'⟩ := driftAll_ok hpointed
    -- what lists the record is drawn along once for each time it is listed
    refine ⟨.of_adjust fun x i _ => ?_, fun symbol => ?_, hruns'.trans hruns, hcount'.trans hcount⟩
    · unfold Chain.only
      split <;> exact ⟨rfl, rfl⟩
    · refine (hget' symbol).trans ?_
      show (table.get? symbol).map _ = _
      rw [hget]
      show ((s.program.symbols.get? symbol).map _).map _ = (s.program.symbols.get? symbol).map _
      rw [Option.map_map]
      congr 1
      funext record
      rw [Function.comp_apply, Symbol.drifted_drifted]
      simp only [UInt64.mul_zero, UInt64.add_zero, UInt64.zero_add]
      congr 1
      · funext x
        show _ = UInt64.ofNat (s.program.chain.pointers symbol x)
          * ((s.program.chain.adjust (Chain.only id (.relocated addr))).addrOf x - s.program.chain.addrOf x)
        rw [addrOf_relocated hfound, ← mul_single, Chain.pointers, hfound]
        rfl
      · funext x
        show _ = UInt64.ofNat (s.program.chain.patches symbol x)
          * ((s.program.chain.adjust (Chain.only id (.relocated addr))).addrOf x - s.program.chain.addrOf x)
        rw [addrOf_relocated hfound, ← mul_single, Chain.patches, hfound]
        rfl

end EngineM

/-- Whatever an update does, the symbols follow. -/
theorem Session.Follows.updateRelation : EngineM.UpdateRelation Session.Follows where
  refl := .refl
  trans := .trans
  move _ addr := EngineM.moveInstruction_follows addr
  recode s id f hf := by
    refine .of_still (.of_adjust fun x i _ => ?_) (fun x => ?_) rfl
    · unfold Chain.only
      split
      · exact ⟨(hf i).carried.relocs, (hf i).carried.referencedBy⟩
      · exact ⟨rfl, rfl⟩
    · show (s.program.chain.adjust (Chain.only id f)).addrOf x = _
      rw [Chain.addrOf, Chain.get?_adjust, Chain.addrOf, Option.map_map]
      congr 2
      funext i
      rw [Function.comp_apply]
      unfold Chain.only
      split
      · rw [(hf i).eq]
      · rfl
  measure s functions _ := .of_still (.refl (fun _ => .refl) _) (fun _ => rfl) rfl
  same := by
    intro s t h
    refine .of_still ?_ (fun id => by rw [h]) (by rw [h])
    rw [h]
    exact .refl (fun _ => .refl) _

end Splice
