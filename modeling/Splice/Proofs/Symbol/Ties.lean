import Splice.Proofs.Program.Following

/-!
# Records that are tied to the code

An instruction lists the records that patch it and the records that point at it, and what
such a record holds depends on where the instruction is: the value of a symbol is the
address of the instruction that it points at, value and addend of a section symbol lead
to the instruction that its relocation refers to, and the offset of a relocation stays as far
behind the instruction that it patches as it was in the input.

Nothing recomputes these numbers: they are changed by differences as instructions move, and
they stay right only because the instruction that a record is tied to lists it, once, and
no other instruction does. `Tied` is that invariant together with the numbers, and there is
one lemma for each way in which an edit treats ties: what is tied goes along with what moves
(`drift`), passes from one instruction to another (`pass`), is given up (`release`), or has
its instruction renamed (`rename`).
-/

namespace Splice

/-- What an instruction knows of the records that are tied to it, and the address that these follow. -/
structure Tie where
  addr : UInt64
  relocs : List SymbolId
  referencedBy : List SymbolId
deriving DecidableEq

def Instruction.tie (instr : Instruction) : Tie := ⟨instr.addr, instr.relocs, instr.referencedBy⟩

def Chain.tie? (chain : Chain) (id : InstrId) : Option Tie := (chain.get? id).map (·.tie)

/-- The tie of an instruction that nothing is tied to. -/
def Tie.free (addr : UInt64) : Tie := ⟨addr, [], []⟩

/-- The names of the records that each instruction lists. -/
abbrev Ties := InstrId → Option Tie

/-- The ties with that of one instruction replaced. -/
def Ties.put (ties : Ties) (id : InstrId) (tie : Tie) : Ties :=
  fun other => if other = id then some tie else ties other

/-- No record is listed twice, neither by one instruction nor by two. -/
structure ListedOnce (ties : Ties) (list : Tie → List SymbolId) : Prop where
  nodup : ∀ {id tie}, ties id = some tie → (list tie).Nodup
  unique : ∀ {symbol id other tie tie'}, ties id = some tie → ties other = some tie' →
    symbol ∈ list tie → symbol ∈ list tie' → id = other

/-- The instructions that the record `symbol` is tied to list it, and its numbers are those of their
addresses; `gap` is the distance of what it patches from its instruction. -/
structure Symbol.TiedTo (record : Symbol) (ties : Ties) (symbol : SymbolId) (gap : Option UInt64) :
    Prop where
  pointed : ∀ {id}, record.instr = some id →
    ∃ tie, ties id = some tie ∧ symbol ∈ tie.referencedBy ∧ record.value = tie.addr
  referred : ∀ {reloc id}, record.reloc = some reloc → reloc.target = some id →
    record.instr = none ∧ ∃ tie, ties id = some tie ∧ symbol ∈ tie.referencedBy
      ∧ record.value + reloc.addend.toUInt64 + reloc.kind.pcBias.toUInt64 = tie.addr
  patched : ∀ {reloc id}, record.reloc = some reloc → reloc.instr = some id →
    ∃ tie, ties id = some tie ∧ symbol ∈ tie.relocs ∧ gap = some (reloc.offset - tie.addr)

/-- Every record is where the instructions are that it is tied to. -/
structure Tied (ties : Ties) (records : SymbolId → Option Symbol)
    (gaps : SymbolId → Option UInt64) : Prop where
  patches : ListedOnce ties Tie.relocs
  pointers : ListedOnce ties Tie.referencedBy
  record : ∀ {symbol record}, records symbol = some record → record.TiedTo ties symbol (gaps symbol)

/-- The record with the instructions that it names renamed; a name that is given up is dropped. -/
def Symbol.renamed (names : InstrId → Option InstrId) (record : Symbol) : Symbol :=
  { record with
    instr := record.instr.bind names
    reloc := record.reloc.map fun reloc =>
      { reloc with instr := reloc.instr.bind names, target := reloc.target.bind names } }

section

variable {ties ties' : Ties} {list : Tie → List SymbolId} {record : Symbol} {symbol : SymbolId}
  {gap : Option UInt64} {id source dest : InstrId} {tie a b : Tie}

/-! ## Lists -/

/-- Instructions that list no more than they did under the names that they had. -/
theorem ListedOnce.of_sublist (h : ListedOnce ties list) (names : InstrId → Option InstrId)
    (hties : ∀ {id tie'}, ties' id = some tie' → list tie' = [] ∨
      ∃ old tie, names old = some id ∧ ties old = some tie ∧ (list tie').Sublist (list tie)) :
    ListedOnce ties' list where
  nodup := by
    intro id tie' hid
    rcases hties hid with hnil | ⟨old, tie, -, hold, hsub⟩
    · rw [hnil]
      exact List.nodup_nil
    · exact hsub.nodup (h.nodup hold)
  unique := by
    intro symbol id other tie tie' hid hother hmem hmem'
    rcases hties hid with hnil | ⟨old, a, hname, hold, hsub⟩
    · rw [hnil] at hmem
      cases hmem
    rcases hties hother with hnil | ⟨old', b, hname', hold', hsub'⟩
    · rw [hnil] at hmem'
      cases hmem'
    obtain rfl := h.unique hold hold' (hsub.subset hmem) (hsub'.subset hmem')
    exact Option.some.inj (hname.symm.trans hname')

/-- Instructions that list no more than they did. -/
theorem ListedOnce.mono (h : ListedOnce ties list)
    (hties : ∀ {id tie'}, ties' id = some tie' → list tie' = [] ∨
      ∃ tie, ties id = some tie ∧ (list tie').Sublist (list tie)) :
    ListedOnce ties' list := by
  refine h.of_sublist some fun hid => ?_
  rcases hties hid with hnil | ⟨tie, htie, hsub⟩
  · exact .inl hnil
  · exact .inr ⟨_, tie, rfl, htie, hsub⟩

/-! ## New instructions, and instructions that leave -/

/-- The instructions that are there stay, and new ones list nothing. -/
def Ties.Extends (ties ties' : Ties) : Prop :=
  ∀ id, ties' id = ties id ∨ ties id = none ∧ ∃ addr, ties' id = some (.free addr)

/-- An instruction that is there keeps its tie when others come. -/
theorem Ties.Extends.get (h : ties.Extends ties') (hid : ties id = some tie) :
    ties' id = some tie := by
  rcases h id with heq | ⟨hnone, -⟩
  · exact heq.trans hid
  · rw [hnone] at hid
    cases hid

/-- New instructions that list nothing list no record twice. -/
theorem ListedOnce.extend (h : ListedOnce ties list) (hlist : ∀ addr, list (.free addr) = [])
    (hext : ties.Extends ties') : ListedOnce ties' list := by
  refine h.mono fun {id tie'} hid => ?_
  rcases hext id with heq | ⟨-, addr, hfree⟩
  · exact .inr ⟨tie', heq ▸ hid, List.Sublist.refl _⟩
  · rw [hfree] at hid
    cases hid
    exact .inl (hlist addr)

/-- A record is where its instructions are when others come. -/
theorem Symbol.TiedTo.extend (h : record.TiedTo ties symbol gap) (hext : ties.Extends ties') :
    record.TiedTo ties' symbol gap where
  pointed hid := by
    obtain ⟨tie, htie, hmem, hvalue⟩ := h.pointed hid
    exact ⟨tie, hext.get htie, hmem, hvalue⟩
  referred hreloc hid := by
    obtain ⟨hnone, tie, htie, hmem, hvalue⟩ := h.referred hreloc hid
    exact ⟨hnone, tie, hext.get htie, hmem, hvalue⟩
  patched hreloc hid := by
    obtain ⟨tie, htie, hmem, hgap⟩ := h.patched hreloc hid
    exact ⟨tie, hext.get htie, hmem, hgap⟩

/-- The ties when the instruction `id` has left. -/
def Ties.without (ties : Ties) (id : InstrId) : Ties :=
  fun other => if other = id then none else ties other

/-- An instruction that nothing is tied to may leave. -/
theorem Symbol.TiedTo.without (h : record.TiedTo ties symbol gap)
    (hid : ∀ tie, ties id = some tie → tie.relocs = [] ∧ tie.referencedBy = []) :
    record.TiedTo (ties.without id) symbol gap := by
  have hne : ∀ {other tie}, ties other = some tie →
      symbol ∈ tie.relocs ∨ symbol ∈ tie.referencedBy → (ties.without id) other = some tie := by
    intro other tie hother hmem
    have : other ≠ id := by
      rintro rfl
      obtain ⟨hrelocs, hpointers⟩ := hid tie hother
      rw [hrelocs, hpointers] at hmem
      rcases hmem with hmem | hmem <;> cases hmem
    rw [Ties.without, if_neg this, hother]
  refine ⟨fun hother => ?_, fun hreloc hother => ?_, fun hreloc hother => ?_⟩
  · obtain ⟨tie, htie, hmem, hvalue⟩ := h.pointed hother
    exact ⟨tie, hne htie (.inr hmem), hmem, hvalue⟩
  · obtain ⟨hnone, tie, htie, hmem, hvalue⟩ := h.referred hreloc hother
    exact ⟨hnone, tie, hne htie (.inr hmem), hmem, hvalue⟩
  · obtain ⟨tie, htie, hmem, hgap⟩ := h.patched hreloc hother
    exact ⟨tie, hne htie (.inl hmem), hmem, hgap⟩

/-- An instruction that leaves makes no record listed twice. -/
theorem ListedOnce.without (h : ListedOnce ties list) : ListedOnce (ties.without id) list := by
  refine h.mono fun {other tie'} hother => ?_
  unfold Ties.without at hother
  split at hother
  · cases hother
  · exact .inr ⟨tie', hother, List.Sublist.refl _⟩

/-! ## Ties that are made -/

/-- The record `symbol` is in no list. -/
def Unlisted (ties : Ties) (list : Tie → List SymbolId) (symbol : SymbolId) : Prop :=
  ∀ {id tie}, ties id = some tie → symbol ∉ list tie

/-- A list of records at one instruction is the same, or one record longer that nobody listed. -/
def Grows (ties : Ties) (list : Tie → List SymbolId) (symbol : SymbolId) (before behind : Tie) : Prop :=
  list behind = list before ∨ list behind = list before ++ [symbol] ∧ Unlisted ties list symbol

/-- A list that grows keeps its records. -/
theorem Grows.mem (h : Grows ties list symbol a b) {other : SymbolId} (hmem : other ∈ list a) :
    other ∈ list b := by
  rcases h with hsame | ⟨hlonger, -⟩
  · exact hsame ▸ hmem
  · exact hlonger ▸ List.mem_append_left _ hmem

/-- What is in a list that has grown was in it before, or was listed by nobody. -/
theorem Grows.mem_of (h : Grows ties list symbol a b) {other : SymbolId} (hmem : other ∈ list b) :
    other ∈ list a ∨ other = symbol ∧ Unlisted ties list symbol := by
  rcases h with hsame | ⟨hlonger, hnot⟩
  · exact .inl (hsame ▸ hmem)
  · rw [hlonger] at hmem
    rcases List.mem_append.mp hmem with hmem | hmem
    · exact .inl hmem
    · exact .inr ⟨List.mem_singleton.mp hmem, hnot⟩

/-- A record that is in no list is in none when another one is noted. -/
theorem Unlisted.grow {s : SymbolId} (h : Unlisted ties list s) (hid : ties id = some a)
    (hgrows : Grows ties list symbol a b) (hself : s = symbol → list b = list a) :
    Unlisted (ties.put id b) list s := by
  intro other tie hother hmem
  unfold Ties.put at hother
  split at hother
  · cases hother
    rcases hgrows.mem_of hmem with hmem | ⟨he, -⟩
    · exact h hid hmem
    · exact h hid (hself he ▸ hmem)
  · exact h hother hmem

/-- A record that was in no list is listed once when it is noted. The cases are those of the two
instructions that would list a record twice: the one that has grown, or not. -/
theorem ListedOnce.note (h : ListedOnce ties list) (hid : ties id = some a)
    (hgrows : Grows ties list symbol a b) : ListedOnce (ties.put id b) list := by
  -- of what is listed afterwards, only `symbol` may be new, and then nobody else lists it
  have hwas : ∀ {other tie s}, ties.put id b other = some tie → s ∈ list tie →
      (∃ old, ties other = some old ∧ s ∈ list old)
        ∨ (other = id ∧ s = symbol ∧ Unlisted ties list symbol) := by
    intro other tie s hother hmem
    unfold Ties.put at hother
    split at hother
    next he =>
      cases hother
      rcases hgrows.mem_of hmem with hmem | ⟨hs, hnot⟩
      · exact .inl ⟨a, he ▸ hid, hmem⟩
      · exact .inr ⟨he, hs, hnot⟩
    next => exact .inl ⟨tie, hother, hmem⟩
  refine ⟨fun {other tie} hother => ?_, fun {s x y tie tie'} hx hy hmem hmem' => ?_⟩
  · unfold Ties.put at hother
    split at hother
    · cases hother
      rcases hgrows with hsame | ⟨hlonger, hnot⟩
      · exact hsame ▸ h.nodup hid
      · rw [hlonger]
        refine List.nodup_append.mpr ⟨h.nodup hid, List.pairwise_singleton .., fun x hx y hy hxy => ?_⟩
        rw [List.mem_singleton.mp hy] at hxy
        exact hnot hid (hxy ▸ hx)
    · exact h.nodup hother
  · rcases hwas hx hmem with ⟨old, hold, hlisted⟩ | ⟨hx', hs, hnot⟩ <;>
      rcases hwas hy hmem' with ⟨old', hold', hlisted'⟩ | ⟨hy', hs', hnot'⟩
    · exact h.unique hold hold' hlisted hlisted'
    · exact absurd (hs' ▸ hlisted) (hnot' hold)
    · exact absurd (hs ▸ hlisted') (hnot hold')
    · rw [hx', hy']

/-- Other records do not mind. -/
theorem Symbol.TiedTo.note (h : record.TiedTo ties symbol gap) (hid : ties id = some a)
    (haddr : b.addr = a.addr) (hrelocs : ∀ s ∈ a.relocs, s ∈ b.relocs)
    (hpointers : ∀ s ∈ a.referencedBy, s ∈ b.referencedBy) :
    record.TiedTo (ties.put id b) symbol gap := by
  have hget : ∀ {other tie}, ties other = some tie → ∃ tie', ties.put id b other = some tie'
      ∧ tie'.addr = tie.addr ∧ (symbol ∈ tie.relocs → symbol ∈ tie'.relocs)
      ∧ (symbol ∈ tie.referencedBy → symbol ∈ tie'.referencedBy) := by
    intro other tie hother
    unfold Ties.put
    split
    next he =>
      rw [he, hid] at hother
      cases hother
      exact ⟨b, rfl, haddr, hrelocs symbol, hpointers symbol⟩
    next => exact ⟨tie, hother, rfl, fun hmem => hmem, fun hmem => hmem⟩
  refine ⟨fun hother => ?_, fun hreloc hother => ?_, fun hreloc hother => ?_⟩
  · obtain ⟨tie, htie, hmem, hvalue⟩ := h.pointed hother
    obtain ⟨tie', htie', haddr', -, hstill⟩ := hget htie
    exact ⟨tie', htie', hstill hmem, hvalue.trans haddr'.symm⟩
  · obtain ⟨hnone, tie, htie, hmem, hvalue⟩ := h.referred hreloc hother
    obtain ⟨tie', htie', haddr', -, hstill⟩ := hget htie
    exact ⟨hnone, tie', htie', hstill hmem, hvalue.trans haddr'.symm⟩
  · obtain ⟨tie, htie, hmem, hgap⟩ := h.patched hreloc hother
    obtain ⟨tie', htie', haddr', hstill, -⟩ := hget htie
    exact ⟨tie', htie', hstill hmem, haddr' ▸ hgap⟩

/-! ## Instructions that move -/

/-- The record goes along with the instructions that it is tied to. -/
theorem Symbol.TiedTo.drift (h : record.TiedTo ties symbol gap) {pointed patched : InstrId → UInt64}
    (hties : ∀ {id tie}, ties id = some tie → ∃ addr, ties' id = some { tie with addr := addr }
      ∧ (symbol ∈ tie.referencedBy → pointed id = addr - tie.addr)
      ∧ (symbol ∈ tie.relocs → patched id = addr - tie.addr)) :
    (record.drifted pointed patched).TiedTo ties' symbol gap := by
  refine ⟨fun {id} hid => ?_, fun {_ id} hreloc' hid => ?_, fun {_ id} hreloc' hid => ?_⟩
  · obtain ⟨tie, htie, hmem, hvalue⟩ := h.pointed hid
    obtain ⟨addr, haddr, hpointed, -⟩ := hties htie
    refine ⟨_, haddr, hmem, ?_⟩
    replace hid : record.instr = some id := hid
    show record.value + (record.instr.map pointed).getD 0 = addr
    rw [hid, Option.map_some, Option.getD_some, hpointed hmem, hvalue]
    grind
  · obtain ⟨reloc, hreloc, rfl⟩ := Option.map_eq_some_iff.mp hreloc'
    replace hid : reloc.target = some id := hid
    obtain ⟨hnone, tie, htie, hmem, hvalue⟩ := h.referred hreloc hid
    obtain ⟨addr, haddr, hpointed, -⟩ := hties htie
    refine ⟨hnone, _, haddr, hmem, ?_⟩
    show record.value + (record.instr.map pointed).getD 0
      + (reloc.addend + ((reloc.target.map pointed).getD 0).toInt64).toUInt64
      + reloc.kind.pcBias.toUInt64 = addr
    rw [hnone, hid, Option.map_none, Option.getD_none, Option.map_some, Option.getD_some,
      hpointed hmem, Int64.toUInt64_add, UInt64.toUInt64_toInt64]
    grind
  · obtain ⟨reloc, hreloc, rfl⟩ := Option.map_eq_some_iff.mp hreloc'
    replace hid : reloc.instr = some id := hid
    obtain ⟨tie, htie, hmem, hgap⟩ := h.patched hreloc hid
    obtain ⟨addr, haddr, -, hpatched⟩ := hties htie
    refine ⟨_, haddr, hmem, ?_⟩
    show gap = some (reloc.offset + (reloc.instr.map patched).getD 0 - addr)
    rw [hgap, hid, Option.map_some, Option.getD_some, hpatched hmem]
    congr 1
    grind

/-! ## Ties that pass on -/

/-- The ties when all that points at `source` points at `dest` instead. -/
def Ties.passed (ties : Ties) (source dest : InstrId) (a b : Tie) : Ties :=
  (ties.put source { a with referencedBy := [] }).put dest
    { b with referencedBy := b.referencedBy ++ a.referencedBy }

/-- When all is passed on, one instruction lists nothing and the other one lists both. -/
theorem Ties.passed_apply (hne : source ≠ dest) (other : InstrId) :
    ties.passed source dest a b other
      = if other = source then some { a with referencedBy := [] }
        else if other = dest then some { b with referencedBy := b.referencedBy ++ a.referencedBy }
        else ties other := by
  rw [passed, put, put]
  by_cases hsource : other = source
  · rw [if_neg fun hdest => hne (hsource.symm.trans hdest), if_pos hsource, if_pos hsource]
  · rw [if_neg hsource, if_neg hsource]

/-- When all is passed on, no instruction loses what patches it, and only the first one loses what points
at it. -/
theorem Ties.passed_relocs (hne : source ≠ dest) (hsource : ties source = some a)
    (hdest : ties dest = some b)
    (hid : ties id = some tie) : ∃ tie', ties.passed source dest a b id = some tie'
      ∧ tie'.addr = tie.addr ∧ tie'.relocs = tie.relocs
      ∧ (id ≠ source → ∀ symbol ∈ tie.referencedBy, symbol ∈ tie'.referencedBy) := by
  rw [Ties.passed_apply hne]
  split
  next hid' =>
    rw [hid', hsource] at hid
    cases hid
    exact ⟨_, rfl, rfl, rfl, fun hne => absurd hid' hne⟩
  split
  next hid' =>
    rw [hid', hdest] at hid
    cases hid
    exact ⟨_, rfl, rfl, rfl, fun _ symbol hmem => List.mem_append_left _ hmem⟩
  next => exact ⟨tie, hid, rfl, rfl, fun _ _ hmem => hmem⟩

/-- A record that points at `source` goes the way from there to `dest`. -/
theorem Symbol.TiedTo.pass (h : record.TiedTo ties symbol gap) (hne : source ≠ dest)
    (hsource : ties source = some a) (hdest : ties dest = some b) :
    (record.pointedTo source dest (b.addr - a.addr).toInt64).TiedTo (ties.passed source dest a b)
      symbol gap := by
  have hatdest : ties.passed source dest a b dest
      = some { b with referencedBy := b.referencedBy ++ a.referencedBy } := by
    rw [Ties.passed_apply hne, if_neg hne.symm, if_pos rfl]
  -- what the record points at, what its relocation refers to, and what that patches; the last does not
  -- move
  refine ⟨fun {id} hid => ?_, fun {_ id} hreloc' hid => ?_, fun {_ id} hreloc' hid => ?_⟩
  · simp only [Symbol.pointedTo] at hid ⊢
    by_cases hinstr : record.instr = some source
    · rw [if_pos hinstr] at hid ⊢
      cases hid
      obtain ⟨tie, htie, hmem, hvalue⟩ := h.pointed hinstr
      obtain rfl := Option.some.inj (hsource.symm.trans htie)
      refine ⟨_, hatdest, List.mem_append_right _ hmem, ?_⟩
      rw [UInt64.toUInt64_toInt64, hvalue]
      grind
    · rw [if_neg hinstr] at hid ⊢
      obtain ⟨tie, htie, hmem, hvalue⟩ := h.pointed hid
      obtain ⟨tie', htie', haddr, -, hstill⟩ := Ties.passed_relocs hne hsource hdest htie
      refine ⟨tie', htie', hstill (fun he => hinstr (he ▸ hid)) _ hmem, ?_⟩
      rw [haddr, hvalue]
  · obtain ⟨reloc, hreloc, rfl⟩ := Option.map_eq_some_iff.mp hreloc'
    by_cases htarget : reloc.target = some source
    · rw [if_pos htarget] at hid ⊢
      cases hid
      obtain ⟨hnone, tie, htie, hmem, hvalue⟩ := h.referred hreloc htarget
      obtain rfl := Option.some.inj (hsource.symm.trans htie)
      simp only [Symbol.pointedTo, hnone, reduceCtorEq, if_false]
      refine ⟨trivial, _, hatdest, List.mem_append_right _ hmem, ?_⟩
      rw [Int64.toUInt64_add, UInt64.toUInt64_toInt64]
      grind
    · rw [if_neg htarget] at hid ⊢
      obtain ⟨hnone, tie, htie, hmem, hvalue⟩ := h.referred hreloc hid
      obtain ⟨tie', htie', haddr, -, hstill⟩ := Ties.passed_relocs hne hsource hdest htie
      simp only [Symbol.pointedTo, hnone, reduceCtorEq, if_false]
      refine ⟨trivial, tie', htie', hstill (fun he => htarget (he ▸ hid)) _ hmem, ?_⟩
      rw [haddr, hvalue]
  · obtain ⟨reloc, hreloc, rfl⟩ := Option.map_eq_some_iff.mp hreloc'
    have hsame : ∀ reloc' : Relocation, reloc' = (if reloc.target = some source then
        { reloc with
          target := some dest
          addend := reloc.addend + (b.addr - a.addr).toInt64 } else reloc) →
        reloc'.instr = reloc.instr ∧ reloc'.offset = reloc.offset := by
      rintro _ rfl
      split <;> exact ⟨rfl, rfl⟩
    obtain ⟨hinstr, hoffset⟩ := hsame _ rfl
    rw [hinstr] at hid
    obtain ⟨tie, htie, hmem, hgap⟩ := h.patched hreloc hid
    obtain ⟨tie', htie', haddr, hrelocs, -⟩ := Ties.passed_relocs hne hsource hdest htie
    refine ⟨tie', htie', hrelocs ▸ hmem, ?_⟩
    rw [hoffset, haddr, hgap]

/-- A record that does not point at an instruction is not moved when what does is pointed elsewhere. -/
theorem Symbol.pointedTo_of_untied {delta : Int64} (hinstr : record.instr ≠ some source)
    (htarget : ∀ reloc, record.reloc = some reloc → reloc.target ≠ some source) :
    record.pointedTo source dest delta = record := by
  have hreloc : (record.reloc.map fun reloc =>
      if reloc.target = some source then
        { reloc with target := some dest, addend := reloc.addend + delta }
      else
        reloc) = record.reloc := by
    cases hreloc : record.reloc with
    | none => rfl
    | some reloc => rw [Option.map_some, if_neg (htarget reloc hreloc)]
  rw [Symbol.pointedTo, if_neg hinstr, if_neg hinstr, hreloc]

/-- A record that was told where it points does not mind being told again. -/
theorem Symbol.pointedTo_pointedTo {delta : Int64} (hne : source ≠ dest) :
    (record.pointedTo source dest delta).pointedTo source dest delta
      = record.pointedTo source dest delta := by
  refine Symbol.pointedTo_of_untied ?_ fun reloc hreloc => ?_
  · show (if record.instr = some source then some dest else record.instr) ≠ some source
    split
    · exact fun he => hne (Option.some.inj he).symm
    next h => exact h
  · obtain ⟨old, -, rfl⟩ := Option.map_eq_some_iff.mp hreloc
    split
    · exact fun he => hne (Option.some.inj he).symm
    next h => exact h

/-- A record that an instruction does not list does not point at it. -/
theorem Symbol.TiedTo.unlisted (h : record.TiedTo ties symbol gap) (hid : ties id = some tie)
    (hmem : symbol ∉ tie.referencedBy) : record.instr ≠ some id
      ∧ ∀ reloc, record.reloc = some reloc → reloc.target ≠ some id := by
  refine ⟨fun hinstr => ?_, fun reloc hreloc htarget => ?_⟩
  · obtain ⟨tie', htie', hlisted, -⟩ := h.pointed hinstr
    rw [Option.some.inj (hid.symm.trans htie')] at hmem
    exact hmem hlisted
  · obtain ⟨-, tie', htie', hlisted, -⟩ := h.referred hreloc htarget
    rw [Option.some.inj (hid.symm.trans htie')] at hmem
    exact hmem hlisted

/-- Whoever lists a record afterwards, it was listed by `source` or by the same instruction. -/
theorem Ties.mem_passed (hne : source ≠ dest) (hdest : ties dest = some b)
    (hid : ties.passed source dest a b id = some tie) (hmem : symbol ∈ tie.referencedBy) :
    (id = dest ∧ symbol ∈ a.referencedBy)
      ∨ (id ≠ source ∧ ∃ old, ties id = some old ∧ symbol ∈ old.referencedBy) := by
  rw [Ties.passed_apply hne] at hid
  split at hid
  · cases hid
    cases hmem
  split at hid
  next hid' =>
    cases hid
    rcases List.mem_append.mp hmem with hmem | hmem
    · exact .inr ⟨hid' ▸ hne.symm, b, hid' ▸ hdest, hmem⟩
    · exact .inl ⟨hid', hmem⟩
  next hid' _ => exact .inr ⟨hid', tie, hid, hmem⟩

/-- To pass all on lists no record twice: what the two instructions list has nothing in common. -/
theorem ListedOnce.pass (h : ListedOnce ties Tie.referencedBy) (hne : source ≠ dest)
    (hsource : ties source = some a) (hdest : ties dest = some b) :
    ListedOnce (ties.passed source dest a b) Tie.referencedBy := by
  refine ⟨fun {id tie} hid => ?_, fun {symbol id other tie tie'} hid hother hmem hmem' => ?_⟩
  · rw [Ties.passed_apply hne] at hid
    split at hid
    · cases hid
      exact List.nodup_nil
    split at hid
    · cases hid
      refine List.nodup_append.mpr ⟨h.nodup hdest, h.nodup hsource, fun x hx y hy hxy => ?_⟩
      exact hne (h.unique hsource hdest hy (hxy ▸ hx))
    · exact h.nodup hid
  · rcases Ties.mem_passed hne hdest hid hmem with ⟨hid', ha⟩ | ⟨hid', old, hold, hmem⟩ <;>
      rcases Ties.mem_passed hne hdest hother hmem' with ⟨hother', ha'⟩ | ⟨hother', old', hold', hmem'⟩
    · rw [hid', hother']
    · exact absurd (h.unique hsource hold' ha hmem').symm hother'
    · exact absurd (h.unique hsource hold ha' hmem).symm hid'
    · exact h.unique hold hold' hmem hmem'

/-! ## Relocations that are given up -/

/-- When an instruction is released from what patches it, all others keep their ties, and it keeps what
points at it. -/
theorem Ties.put_released (hid : ties id = some a) {other : InstrId} (hother : ties other = some tie) :
    ∃ tie', ties.put id { a with relocs := [] } other = some tie' ∧ tie'.addr = tie.addr
      ∧ tie'.referencedBy = tie.referencedBy ∧ (other ≠ id → tie' = tie) := by
  unfold Ties.put
  split
  next he =>
    rw [he, hid] at hother
    cases hother
    exact ⟨_, rfl, rfl, rfl, fun hne => absurd he hne⟩
  next => exact ⟨tie, hother, rfl, rfl, fun _ => rfl⟩

/-- When an instruction is released from what patches it, those records lose their relocations, and all
records are where their instructions are. -/
theorem Symbol.TiedTo.release (h : record.TiedTo ties symbol gap) (hid : ties id = some a) :
    (if symbol ∈ a.relocs then { record with reloc := none } else record).TiedTo
      (ties.put id { a with relocs := [] }) symbol gap := by
  have hpointed : ∀ {other}, record.instr = some other → ∃ tie,
      ties.put id { a with relocs := [] } other = some tie ∧ symbol ∈ tie.referencedBy ∧ record.value = tie.addr := by
    intro other hother
    obtain ⟨tie, htie, hmem, hvalue⟩ := h.pointed hother
    obtain ⟨tie', htie', haddr, hlist, -⟩ := Ties.put_released hid htie
    exact ⟨tie', htie', hlist ▸ hmem, hvalue.trans haddr.symm⟩
  split
  · exact ⟨hpointed, by rintro _ _ ⟨⟩, by rintro _ _ ⟨⟩⟩
  next hnot =>
    refine ⟨hpointed, fun {_ other} hreloc hother => ?_, fun {_ other} hreloc hother => ?_⟩
    · obtain ⟨hnone, tie, htie, hmem, hvalue⟩ := h.referred hreloc hother
      obtain ⟨tie', htie', haddr, hlist, -⟩ := Ties.put_released hid htie
      exact ⟨hnone, tie', htie', hlist ▸ hmem, hvalue.trans haddr.symm⟩
    · obtain ⟨tie, htie, hmem, hgap⟩ := h.patched hreloc hother
      have hne : other ≠ id := by
        rintro rfl
        rw [Option.some.inj (hid.symm.trans htie)] at hnot
        exact hnot hmem
      refine ⟨tie, ?_, hmem, hgap⟩
      rw [Ties.put, if_neg hne, htie]

/-! ## Instructions under other names -/

/-- The instructions have the names that `names` gives them, and those without one have left. -/
structure Ties.Renamed (ties ties' : Ties) (names : InstrId → Option InstrId) : Prop where
  forth : ∀ {id new tie}, ties id = some tie → names id = some new → ties' new = some tie
  back : ∀ {new tie}, ties' new = some tie → ∃ id, names id = some new ∧ ties id = some tie

/-- Under new names no record is listed twice. -/
theorem ListedOnce.rename (h : ListedOnce ties list) {names : InstrId → Option InstrId}
    (hnames : ties.Renamed ties' names) : ListedOnce ties' list := by
  refine h.of_sublist names fun {id tie'} hid => ?_
  obtain ⟨old, hname, hold⟩ := hnames.back hid
  exact .inr ⟨old, tie', hname, hold, List.Sublist.refl _⟩

/-- Under new names a record is where its instructions are. -/
theorem Symbol.TiedTo.rename (h : record.TiedTo ties symbol gap) {names : InstrId → Option InstrId}
    (hnames : ties.Renamed ties' names) : (record.renamed names).TiedTo ties' symbol gap := by
  refine ⟨fun {id} hid => ?_, fun {_ id} hreloc' hid => ?_, fun {_ id} hreloc' hid => ?_⟩
  · obtain ⟨old, hold, hname⟩ := Option.bind_eq_some_iff.mp hid
    obtain ⟨tie, htie, hmem, hvalue⟩ := h.pointed hold
    exact ⟨tie, hnames.forth htie hname, hmem, hvalue⟩
  · obtain ⟨reloc, hreloc, rfl⟩ := Option.map_eq_some_iff.mp hreloc'
    obtain ⟨old, hold, hname⟩ := Option.bind_eq_some_iff.mp hid
    obtain ⟨hnone, tie, htie, hmem, hvalue⟩ := h.referred hreloc hold
    refine ⟨?_, tie, hnames.forth htie hname, hmem, hvalue⟩
    show record.instr.bind names = none
    rw [hnone, Option.bind_none]
  · obtain ⟨reloc, hreloc, rfl⟩ := Option.map_eq_some_iff.mp hreloc'
    obtain ⟨old, hold, hname⟩ := Option.bind_eq_some_iff.mp hid
    obtain ⟨tie, htie, hmem, hgap⟩ := h.patched hreloc hold
    exact ⟨tie, hnames.forth htie hname, hmem, hgap⟩

/-! ## An instruction in the place of another -/

/-- The ties when `first` has taken the place of `old`. -/
def Ties.taken (ties : Ties) (old first : InstrId) (tie : Tie) : Ties :=
  fun other => if other = first then some tie else ties.without old other

/-- That one instruction takes the place of another is a renaming of the one to the other. -/
theorem Ties.taken_renamed {old first : InstrId} (hold : ties old = some tie)
    (hfirst : ties first = none) :
    ties.Renamed (ties.taken old first tie) fun id => some (swap old first id) := by
  refine ⟨fun {id new other} hid hnew => ?_, fun {new other} hnew => ?_⟩
  · obtain rfl := Option.some.inj hnew
    rw [Ties.taken]
    by_cases he : id = old
    · rw [he, swap_self, if_pos rfl, ← hold, ← he, hid]
    · have hne : id ≠ first := by
        rintro rfl
        rw [hfirst] at hid
        cases hid
      rw [swap_of_ne he, if_neg hne, Ties.without, if_neg he, hid]
  · rw [Ties.taken] at hnew
    split at hnew
    next he => exact ⟨old, by rw [swap_self, he], hold.trans hnew⟩
    next =>
      rw [Ties.without] at hnew
      split at hnew
      next => cases hnew
      next he => exact ⟨new, by rw [swap_of_ne he], hnew⟩

/-- The record with its relocation patching `first`, if it patched `old`. -/
def Symbol.rehomed (old first : InstrId) (record : Symbol) : Symbol :=
  { record with
    reloc := record.reloc.map fun reloc =>
      if reloc.instr = some old then { reloc with instr := some first } else reloc }

/-- To rename by a swap changes the one name only. -/
theorem map_some_swap (o : Option InstrId) (old first : InstrId) :
    (o.bind fun id => some (swap old first id)) = if o = some old then some first else o := by
  cases o with
  | none => rfl
  | some id =>
    show some (swap old first id) = _
    by_cases he : id = old
    · rw [he, swap_self, if_pos rfl]
    · rw [swap_of_ne he, if_neg fun h => he (Option.some.inj h)]

/-- To rename by a swap is to point at the new instruction what pointed at the old one, without moving it,
and to rehome what patched it. -/
theorem Symbol.renamed_swap (old first : InstrId) :
    record.renamed (fun id => some (swap old first id))
      = (record.pointedTo old first 0).rehomed old first := by
  have hzero : (0 : Int64).toUInt64 = 0 := rfl
  rw [renamed, rehomed, pointedTo, map_some_swap, hzero, UInt64.add_zero, ite_self]
  congr 1
  cases record.reloc with
  | none => rfl
  | some reloc =>
    rw [Option.map_some, Option.map_some, Option.map_some, map_some_swap, map_some_swap]
    congr 1
    by_cases htarget : reloc.target = some old <;> by_cases hinstr : reloc.instr = some old <;>
      simp [htarget, hinstr]

/-- A record that an instruction does not list does not patch it. -/
theorem Symbol.TiedTo.unpatched (h : record.TiedTo ties symbol gap) (hid : ties id = some tie)
    (hmem : symbol ∉ tie.relocs) : ∀ reloc, record.reloc = some reloc → reloc.instr ≠ some id := by
  intro reloc hreloc hinstr
  obtain ⟨tie', htie', hlisted, -⟩ := h.patched hreloc hinstr
  rw [Option.some.inj (hid.symm.trans htie')] at hmem
  exact hmem hlisted

/-- A record that patches another instruction is not rehomed. -/
theorem Symbol.rehomed_of_untied {old first : InstrId}
    (h : ∀ reloc, record.reloc = some reloc → reloc.instr ≠ some old) :
    record.rehomed old first = record := by
  have hreloc : (record.reloc.map fun reloc =>
      if reloc.instr = some old then { reloc with instr := some first } else reloc)
        = record.reloc := by
    cases hreloc : record.reloc with
    | none => rfl
    | some reloc => rw [Option.map_some, if_neg (h reloc hreloc)]
  rw [Symbol.rehomed, hreloc]

/-- To rehome a record twice is to do it once. -/
theorem Symbol.rehomed_rehomed {old first : InstrId} (hne : old ≠ first) :
    (record.rehomed old first).rehomed old first = record.rehomed old first := by
  refine Symbol.rehomed_of_untied fun reloc hreloc => ?_
  obtain ⟨was, -, rfl⟩ := Option.map_eq_some_iff.mp hreloc
  split
  · exact fun he => hne (Option.some.inj he).symm
  next h => exact h

end

/-! ## All records -/

namespace Tied

variable {ties ties' : Ties} {records records' : SymbolId → Option Symbol}
  {gaps : SymbolId → Option UInt64} {id source dest : InstrId} {a b : Tie}

/-- All records are where their instructions are when others come. -/
theorem extend (h : Tied ties records gaps) (hext : ties.Extends ties') : Tied ties' records gaps where
  patches := h.patches.extend (fun _ => rfl) hext
  pointers := h.pointers.extend (fun _ => rfl) hext
  record hrecord := (h.record hrecord).extend hext

/-- All records are where their instructions are when one leaves that lists none. -/
theorem without (h : Tied ties records gaps)
    (hid : ∀ tie, ties id = some tie → tie.relocs = [] ∧ tie.referencedBy = []) :
    Tied (ties.without id) records gaps where
  patches := h.patches.without
  pointers := h.pointers.without
  record hrecord := (h.record hrecord).without hid

/-- One record is tied to an instruction that lists it from then on. -/
theorem note {symbol : SymbolId} (h : Tied ties records gaps) (hid : ties id = some a)
    (haddr : b.addr = a.addr) (hrelocs : Grows ties Tie.relocs symbol a b)
    (hpointers : Grows ties Tie.referencedBy symbol a b)
    (hothers : ∀ other, other ≠ symbol → records' other = records other)
    (hrecord : ∀ record, records' symbol = some record →
      ∃ gap, record.TiedTo (ties.put id b) symbol gap) :
    ∃ gaps', Tied (ties.put id b) records' gaps' := by
  obtain ⟨gap, hgap⟩ : ∃ gap, ∀ record, records' symbol = some record →
      record.TiedTo (ties.put id b) symbol gap := by
    cases hget : records' symbol with
    | none => exact ⟨none, by rintro _ ⟨⟩⟩
    | some record =>
      obtain ⟨gap, hgap⟩ := hrecord record hget
      refine ⟨gap, fun other hother => ?_⟩
      obtain rfl := Option.some.inj hother
      exact hgap
  refine ⟨fun s => if s = symbol then gap else gaps s, h.patches.note hid hrelocs,
    h.pointers.note hid hpointers, fun {s record} hget => ?_⟩
  by_cases hs : s = symbol
  · subst hs
    rw [if_pos rfl]
    exact hgap record hget
  · rw [if_neg hs]
    rw [hothers s hs] at hget
    exact (h.record hget).note hid haddr (fun _ => hrelocs.mem) fun _ => hpointers.mem

/-- Only the records that `source` lists need to be told. -/
theorem pass (h : Tied ties records gaps) (hne : source ≠ dest) (hsource : ties source = some a)
    (hdest : ties dest = some b)
    (hrecords : ∀ symbol, records' symbol = if symbol ∈ a.referencedBy then
      (records symbol).map (·.pointedTo source dest (b.addr - a.addr).toInt64) else records symbol) :
    Tied (ties.passed source dest a b) records' gaps where
  patches := by
    refine h.patches.mono fun {id tie'} hid => .inr ?_
    rw [Ties.passed_apply hne] at hid
    split at hid
    next he =>
      cases hid
      exact ⟨a, he ▸ hsource, List.Sublist.refl _⟩
    split at hid
    next he =>
      cases hid
      exact ⟨b, he ▸ hdest, List.Sublist.refl _⟩
    next => exact ⟨tie', hid, List.Sublist.refl _⟩
  pointers := h.pointers.pass hne hsource hdest
  record := by
    intro symbol record' hrecord'
    rw [hrecords] at hrecord'
    split at hrecord'
    next =>
      obtain ⟨record, hrecord, rfl⟩ := Option.map_eq_some_iff.mp hrecord'
      exact (h.record hrecord).pass hne hsource hdest
    next hmem =>
      have htied := h.record hrecord'
      obtain ⟨hinstr, htarget⟩ := htied.unlisted hsource hmem
      have hpass := htied.pass hne hsource hdest
      rwa [Symbol.pointedTo_of_untied hinstr htarget] at hpass

/-- When an instruction is released from what patches it, the records that did lose their relocations and
all others stay as they are. The conditions ask of each instruction in turn, so each of them is met at the
released one and at the others apart. -/
theorem release (h : Tied ties records gaps) (hid : ties id = some a)
    (hrecords : ∀ symbol, records' symbol = if symbol ∈ a.relocs then
      (records symbol).map fun record => { record with reloc := none } else records symbol) :
    Tied (ties.put id { a with relocs := [] }) records' gaps where
  patches := by
    refine h.patches.mono fun {other tie'} hother => ?_
    unfold Ties.put at hother
    split at hother
    · cases hother
      exact .inl rfl
    · exact .inr ⟨tie', hother, List.Sublist.refl _⟩
  pointers := by
    refine h.pointers.mono fun {other tie'} hother => .inr ?_
    unfold Ties.put at hother
    split at hother
    next he =>
      cases hother
      exact ⟨a, he ▸ hid, List.Sublist.refl _⟩
    next => exact ⟨tie', hother, List.Sublist.refl _⟩
  record := by
    intro symbol record' hrecord'
    rw [hrecords] at hrecord'
    split at hrecord'
    next hmem =>
      obtain ⟨record, hrecord, rfl⟩ := Option.map_eq_some_iff.mp hrecord'
      have hrelease := (h.record hrecord).release hid
      rwa [if_pos hmem] at hrelease
    next hmem =>
      have hrelease := (h.record hrecord').release hid
      rwa [if_neg hmem] at hrelease

/-- Under new names all records are where their instructions are. -/
theorem rename (h : Tied ties records gaps) {names : InstrId → Option InstrId}
    (hnames : ties.Renamed ties' names)
    (hrecords : ∀ symbol, records' symbol = (records symbol).map (Symbol.renamed names)) :
    Tied ties' records' gaps where
  patches := h.patches.rename hnames
  pointers := h.pointers.rename hnames
  record := by
    intro symbol record' hrecord'
    rw [hrecords] at hrecord'
    obtain ⟨record, hrecord, rfl⟩ := Option.map_eq_some_iff.mp hrecord'
    exact (h.record hrecord).rename hnames

/-- Only the records that `old` lists need to be told that `first` has taken its place. -/
theorem takeOver {old first : InstrId} {tie : Tie} {pointed : SymbolId → Option Symbol}
    (h : Tied ties records gaps) (hold : ties old = some tie) (hfirst : ties first = none)
    (hpointed : ∀ symbol, pointed symbol = if symbol ∈ tie.referencedBy then
      (records symbol).map (·.pointedTo old first 0) else records symbol)
    (hrecords : ∀ symbol, records' symbol = if symbol ∈ tie.relocs then
      (pointed symbol).map (.rehomed old first) else pointed symbol) :
    Tied (ties.taken old first tie) records' gaps := by
  refine h.rename (Ties.taken_renamed hold hfirst) fun symbol => ?_
  rw [hrecords, hpointed]
  cases hrecord : records symbol with
  | none => split <;> split <;> rfl
  | some record =>
    have htied := h.record hrecord
    have hpoint : (if symbol ∈ tie.referencedBy then
        (some record).map (·.pointedTo old first 0) else some record)
          = some (record.pointedTo old first 0) := by
      split
      next => rfl
      next hmem =>
        obtain ⟨hinstr, htarget⟩ := htied.unlisted hold hmem
        rw [Symbol.pointedTo_of_untied hinstr htarget]
    rw [hpoint, Option.map_some, Option.map_some, Symbol.renamed_swap]
    split
    next => rfl
    next hmem =>
      rw [Symbol.rehomed_of_untied]
      intro reloc hreloc
      obtain ⟨reloc', hreloc', rfl⟩ := Option.map_eq_some_iff.mp hreloc
      have hinstr := htied.unpatched hold hmem reloc' hreloc'
      split <;> exact hinstr

end Tied

end Splice
