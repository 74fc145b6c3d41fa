import Splice.Proofs.Run
import Splice.Symbol.Link

/-!
# Finding instructions by their input addresses

The index of a chain lists its decoded instructions by section and input address. An address is
looked up by its floor, the greatest start that is not above it (`floorEntry?_some`). Of the
instruction found there it is asked whether it begins at the address or has a byte at it, and
no other is looked at. That is enough if the byte ranges are not empty and lie apart
(`Chain.Decoded`): an instruction over the address then begins at the floor. So what is found
is what is asked for (`beginning?_iff`, `covering?_iff`).

Without ranges that lie apart, what is found is still listed in the index with the address asked
for (`beginning?_mem`, `covering?_mem`), but it may be one of several. Instructions that were
spliced in have no input address and are in no index, so a lookup never meets them.
-/

namespace Splice

/-! ## Floors -/

section

variable {α : Type} {entries : List (UInt64 × α)} {best : Option (UInt64 × α)} {bound : UInt64}
  {entry found : UInt64 × α}

/-- What a fold for the greatest key finds is one of the entries, and no entry has a greater key. -/
theorem foldl_higherKey (h : entries.foldl higherKey best = some found) :
    (found ∈ entries ∨ best = some found) ∧ (∀ entry ∈ entries, entry.1 ≤ found.1)
      ∧ ∀ held, best = some held → held.1 ≤ found.1 := by
  induction entries generalizing best with
  | nil =>
    refine ⟨.inr h, fun entry hentry => absurd hentry List.not_mem_nil, fun held hheld => ?_⟩
    rw [List.foldl_nil, hheld, Option.some.injEq] at h
    exact h ▸ UInt64.le_refl _
  | cons entry entries ih =>
    obtain ⟨hfrom, hbehind, hbest⟩ := ih h
    -- one step keeps what it holds or takes the entry, whichever has the higher key; of two with one
    -- key, the later one
    have hstep : (higherKey best entry = some entry ∧ ∀ held, best = some held → held.1 ≤ entry.1)
        ∨ ∃ held, best = some held ∧ higherKey best entry = some held ∧ entry.1 ≤ held.1 := by
      unfold higherKey
      split
      · exact .inl ⟨rfl, fun held hheld => by cases hheld⟩
      next held =>
        split
        next hle => exact .inl ⟨rfl, fun other hother => Option.some.inj hother ▸ hle⟩
        next hgt => exact .inr ⟨held, rfl, rfl, (UInt64.le_total _ _).resolve_left hgt⟩
    rcases hstep with ⟨hnew, hheld⟩ | ⟨held, rfl, hkept, hle⟩
    · have hentry := hbest entry hnew
      refine ⟨.inl ?_, fun other hother => ?_, fun held hhad => UInt64.le_trans (hheld held hhad) hentry⟩
      · rcases hfrom with hmem | hfound
        · exact List.mem_cons_of_mem _ hmem
        · exact Option.some.inj (hnew.symm.trans hfound) ▸ List.mem_cons_self ..
      · rcases List.mem_cons.mp hother with rfl | hmem
        · exact hentry
        · exact hbehind other hmem
    · have hheld := hbest held hkept
      refine ⟨?_, fun other hother => ?_, fun other hhad => Option.some.inj hhad ▸ hheld⟩
      · exact hfrom.imp (List.mem_cons_of_mem _) fun hfound => hkept.symm.trans hfound
      · rcases List.mem_cons.mp hother with rfl | hmem
        · exact UInt64.le_trans hle hheld
        · exact hbehind other hmem

/-- A fold for the greatest key finds something if there is an entry, or a candidate to begin with. -/
theorem foldl_higherKey_isSome (h : best.isSome ∨ entries ≠ []) :
    ∃ found, entries.foldl higherKey best = some found := by
  induction entries generalizing best with
  | nil => exact Option.isSome_iff_exists.mp (h.resolve_right fun hne => hne rfl)
  | cons entry entries ih =>
    refine ih (.inl ?_)
    unfold higherKey
    split
    · rfl
    · split <;> rfl

/-- The floor of an address is the greatest key that is not above it. -/
theorem floorEntry?_some (h : floorEntry? entries bound = some found) :
    found ∈ entries ∧ found.1 ≤ bound ∧ ∀ entry ∈ entries, entry.1 ≤ bound → entry.1 ≤ found.1 := by
  obtain ⟨hfrom, hgreatest, -⟩ := foldl_higherKey h
  obtain ⟨hmem, hle⟩ := List.mem_filter.mp (hfrom.resolve_right fun hnone => by cases hnone)
  refine ⟨hmem, of_decide_eq_true hle, fun entry hentry hentryle => ?_⟩
  exact hgreatest entry (List.mem_filter.mpr ⟨hentry, decide_eq_true hentryle⟩)

/-- An address that is not below every key has a floor. -/
theorem exists_floorEntry? (hentry : entry ∈ entries) (hle : entry.1 ≤ bound) :
    ∃ found, floorEntry? entries bound = some found :=
  foldl_higherKey_isSome (.inr (List.ne_nil_of_mem (List.mem_filter.mpr ⟨hentry, decide_eq_true hle⟩)))

end

/-! ## The index of a chain -/

section

variable {ε α β : Type} {f : α → Except ε (Option β)} {xs : List α} {ys : List β} {y : β}

/-- What is collected are the results that there are. -/
theorem filterMapM_mem (h : xs.filterMapM f = .ok ys) : y ∈ ys ↔ ∃ x ∈ xs, f x = .ok (some y) := by
  induction xs generalizing ys with
  | nil =>
    rw [List.filterMapM_nil, pure_eq_ok] at h
    simp [← h]
  | cons x xs ih =>
    rw [List.filterMapM_cons, bind_eq_ok] at h
    obtain ⟨found, hfound, h⟩ := h
    cases found with
    | none => simp [ih h, hfound]
    | some b =>
      obtain ⟨rest, hrest, h⟩ := bind_eq_ok.mp h
      simp [← pure_eq_ok.mp h, ih hrest, hfound, eq_comm]

/-- Results are collected if none of them is refused. -/
theorem filterMapM_succeeds (h : ∀ x ∈ xs, ∃ y, f x = .ok y) : ∃ ys, xs.filterMapM f = .ok ys := by
  induction xs with
  | nil => exact ⟨[], rfl⟩
  | cons x xs ih =>
    obtain ⟨found, hfound⟩ := h x (List.mem_cons_self ..)
    obtain ⟨rest, hrest⟩ := ih fun other hother => h other (List.mem_cons_of_mem _ hother)
    rw [List.filterMapM_cons, hfound]
    cases found with
    | none => exact ⟨rest, hrest⟩
    | some b => exact ⟨b :: rest, by rw [hrest]; rfl⟩

end

/-- The address just behind the instruction in the input. -/
def Instruction.inputEnd (instr : Instruction) : UInt64 := instr.inputAddr + instr.size

namespace Chain

variable {chain other : Chain} {id : InstrId} {sec : SectionId} {addr offset : UInt64}

/-- A linked instruction begins at an address of the input. -/
def StartsAt (chain : Chain) (id : InstrId) (sec : SectionId) (addr : UInt64) : Prop :=
  id ∈ chain.ids ∧ ∃ instr, chain.get? id = some instr ∧ instr.sec = sec ∧ instr.inputAddr = addr

/-- A linked instruction has a byte at an offset of a section of the input. -/
def Covers (chain : Chain) (id : InstrId) (sec : SectionId) (offset : UInt64) : Prop :=
  id ∈ chain.ids ∧ ∃ instr, chain.get? id = some instr ∧ instr.sec = sec
    ∧ instr.inputAddr ≤ offset ∧ offset < instr.inputEnd

/-- Some linked instruction lies in the section. -/
def holdsCode (chain : Chain) (sec : SectionId) : Bool :=
  chain.ids.any fun id => (chain.get? id).any fun instr => instr.sec == sec

/-- The linked instructions are as they were decoded: each has a range of bytes of its own in the input, and
no record is tied to it. -/
structure Decoded (chain : Chain) : Prop where
  present : ∀ id ∈ chain.ids, (chain.get? id).isSome
  original : ∀ id ∈ chain.ids, ∀ instr ∈ chain.get? id, instr.isInstrumented = false
  unlisted : ∀ id ∈ chain.ids, ∀ instr ∈ chain.get? id, instr.relocs = [] ∧ instr.referencedBy = []
  nonempty : ∀ id ∈ chain.ids, ∀ instr ∈ chain.get? id, instr.inputAddr < instr.inputEnd
  apart : ∀ id ∈ chain.ids, ∀ other ∈ chain.ids, id ≠ other → ∀ a ∈ chain.get? id, ∀ b ∈ chain.get? other,
    a.sec = b.sec → a.inputEnd ≤ b.inputAddr ∨ b.inputEnd ≤ a.inputAddr

instance (chain : Chain) : Decidable chain.Decoded :=
  decidable_of_iff
    ((∀ id ∈ chain.ids, (chain.get? id).isSome)
      ∧ (∀ id ∈ chain.ids, ∀ instr ∈ chain.get? id, instr.isInstrumented = false)
      ∧ (∀ id ∈ chain.ids, ∀ instr ∈ chain.get? id, instr.relocs = [] ∧ instr.referencedBy = [])
      ∧ (∀ id ∈ chain.ids, ∀ instr ∈ chain.get? id, instr.inputAddr < instr.inputEnd)
      ∧ ∀ id ∈ chain.ids, ∀ other ∈ chain.ids, id ≠ other → ∀ a ∈ chain.get? id, ∀ b ∈ chain.get? other,
        a.sec = b.sec → a.inputEnd ≤ b.inputAddr ∨ b.inputEnd ≤ a.inputAddr)
    ⟨fun h => ⟨h.1, h.2.1, h.2.2.1, h.2.2.2.1, h.2.2.2.2⟩,
      fun h => ⟨h.present, h.original, h.unlisted, h.nonempty, h.apart⟩⟩

/-- No two instructions have a byte in common. -/
theorem Decoded.unique (h : chain.Decoded) {id' : InstrId} (hid : chain.Covers id sec offset)
    (hid' : chain.Covers id' sec offset) : id = id' := by
  obtain ⟨hmem, a, ha, hseca, hstart, hend⟩ := hid
  obtain ⟨hmem', b, hb, hsecb, hstart', hend'⟩ := hid'
  refine Classical.byContradiction fun hne => ?_
  rcases h.apart id hmem id' hmem' hne a ha b hb (hseca.trans hsecb.symm) with hbefore | hbehind
  · exact UInt64.lt_irrefl _ (UInt64.lt_of_lt_of_le hend (UInt64.le_trans hbefore hstart'))
  · exact UInt64.lt_irrefl _ (UInt64.lt_of_lt_of_le hend' (UInt64.le_trans hbehind hstart))

theorem Decoded.covers_start (h : chain.Decoded) (hstart : chain.StartsAt id sec addr) :
    chain.Covers id sec addr := by
  obtain ⟨hmem, instr, hinstr, hsec, rfl⟩ := hstart
  exact ⟨hmem, instr, hinstr, hsec, UInt64.le_refl _, h.nonempty id hmem instr hinstr⟩

/-- A section holds code exactly if some instruction begins in it. -/
theorem holdsCode_iff : chain.holdsCode sec = true ↔ ∃ id addr, chain.StartsAt id sec addr := by
  simp only [holdsCode, List.any_eq_true, Option.any_eq_true, beq_iff_eq, StartsAt]
  constructor
  · intro h
    obtain ⟨id, hmem, instr, hinstr, hsec⟩ := h
    exact ⟨id, instr.inputAddr, hmem, instr, hinstr, hsec, rfl⟩
  · intro h
    obtain ⟨id, -, hmem, instr, hinstr, hsec, -⟩ := h
    exact ⟨id, hmem, instr, hinstr, hsec⟩

end Chain

namespace AddressIndex

variable {index : AddressIndex} {chain other : Chain} {sec : SectionId} {addr offset : UInt64}
  {id : InstrId}

theorem mem_starts {entry : UInt64 × InstrId} : entry ∈ index.starts sec ↔ (sec, entry) ∈ index.entries := by
  simp [starts]

/-- What is found at an address is listed in the index with that address. -/
theorem beginning?_mem (h : index.beginning? sec addr = some id) :
    (sec, addr, id) ∈ index.entries := by
  simp only [beginning?, Option.bind_eq_bind, Option.bind_eq_some_iff] at h
  obtain ⟨⟨start, found⟩, hfloor, h⟩ := h
  split at h
  next hstart =>
    obtain rfl := Option.some.inj h
    obtain rfl : start = addr := hstart
    exact mem_starts.mp (floorEntry?_some hfloor).1
  next => cases h

/-- What is found over an offset is listed in the index for that section. -/
theorem covering?_mem (h : index.covering? chain sec offset = some id) :
    ∃ start, (sec, start, id) ∈ index.entries := by
  simp only [covering?, Option.bind_eq_bind, Option.bind_eq_some_iff] at h
  obtain ⟨⟨start, found⟩, hfloor, instr, -, h⟩ := h
  split at h
  · obtain rfl := Option.some.inj h
    exact ⟨start, mem_starts.mp (floorEntry?_some hfloor).1⟩
  · cases h

/-- Looking for an instruction over an offset takes nothing but sizes from the chain. -/
theorem covering?_congr (h : ∀ id, (other.get? id).map Instruction.size = (chain.get? id).map Instruction.size) :
    index.covering? other sec offset = index.covering? chain sec offset := by
  unfold covering?
  refine Option.bind_congr fun entry _ => ?_
  have hsize := h entry.2
  cases hother : other.get? entry.2 <;> cases hchain : chain.get? entry.2 <;>
    simp_all

/-- The entry of one instruction, if it was decoded. -/
def entryOf (chain : Chain) (id : InstrId) : Except ChainError (Option (SectionId × UInt64 × InstrId)) := do
  let instr ← chain.get id
  return if instr.isInstrumented then none else some (instr.sec, instr.inputAddr, id)

/-- An instruction has an entry in the index exactly if it was decoded, with its section and its address
in the input. -/
theorem entryOf_eq_ok {found : InstrId} : entryOf chain found = .ok (some (sec, addr, id)) ↔
    found = id ∧ ∃ instr, chain.get? id = some instr ∧ instr.isInstrumented = false ∧ instr.sec = sec
      ∧ instr.inputAddr = addr := by
  unfold entryOf Chain.get
  cases hinstr : chain.get? found with
  | none =>
    refine iff_of_false (fun h => by cases h) fun h => ?_
    obtain ⟨rfl, instr, hinstr', -⟩ := h
    rw [hinstr] at hinstr'
    cases hinstr'
  | some instr =>
    simp only [bind, Except.bind, pure_eq_ok]
    constructor
    · intro h
      split at h
      next => cases h
      next hdecoded =>
        cases h
        exact ⟨rfl, instr, hinstr, Bool.not_eq_true _ ▸ hdecoded, rfl, rfl⟩
    · intro h
      obtain ⟨rfl, instr', hinstr', hdecoded, rfl, rfl⟩ := h
      obtain rfl := Option.some.inj (hinstr.symm.trans hinstr')
      simp [hdecoded]

/-- What is indexed is an instruction at its input address. -/
theorem ofChain_entry (h : ofChain chain = .ok index) (hmem : (sec, addr, id) ∈ index.entries) :
    ∃ instr, chain.get? id = some instr ∧ instr.inputAddr = addr := by
  obtain ⟨decoded, hdecoded, h⟩ := bind_eq_ok.mp h
  obtain rfl := pure_eq_ok.mp h
  obtain ⟨found, -, hfound⟩ := (filterMapM_mem hdecoded).mp hmem
  obtain ⟨-, instr, hinstr, -, -, haddr⟩ := entryOf_eq_ok.mp hfound
  exact ⟨instr, hinstr, haddr⟩

/-- The index lists what is linked, and nothing else. -/
def Indexes (index : AddressIndex) (chain : Chain) : Prop :=
  ∀ sec addr id, (sec, addr, id) ∈ index.entries ↔ chain.StartsAt id sec addr

/-- Code from the input can be indexed. -/
theorem ofChain_succeeds (h : chain.Decoded) : ∃ index, ofChain chain = .ok index ∧ index.Indexes chain := by
  obtain ⟨decoded, hdecoded⟩ : ∃ decoded, chain.ids.filterMapM (entryOf chain) = .ok decoded := by
    refine filterMapM_succeeds fun id hid => ?_
    obtain ⟨instr, hinstr⟩ := Option.isSome_iff_exists.mp (h.present id hid)
    exact ⟨_, bind_eq_ok.mpr ⟨instr, by rw [Chain.get, hinstr], rfl⟩⟩
  refine ⟨⟨decoded⟩, bind_eq_ok.mpr ⟨decoded, hdecoded, rfl⟩, fun sec addr id => ?_⟩
  rw [filterMapM_mem hdecoded]
  simp only [entryOf_eq_ok]
  constructor
  · intro hentry
    obtain ⟨_, hid, rfl, instr, hinstr, -, hsec, haddr⟩ := hentry
    exact ⟨hid, instr, hinstr, hsec, haddr⟩
  · intro hstart
    obtain ⟨hid, instr, hinstr, hsec, haddr⟩ := hstart
    exact ⟨id, hid, rfl, instr, hinstr, h.original id hid instr hinstr, hsec, haddr⟩

namespace Indexes

/-- The instruction that is found at an address is the one that begins there. -/
theorem beginning?_iff (h : index.Indexes chain) (hchain : chain.Decoded) :
    index.beginning? sec addr = some id ↔ chain.StartsAt id sec addr := by
  refine ⟨fun hfound => (h _ _ _).mp (beginning?_mem hfound), fun hstart => ?_⟩
  have hmem : (addr, id) ∈ index.starts sec := mem_starts.mpr ((h _ _ _).mpr hstart)
  obtain ⟨⟨floor, found⟩, hfloor⟩ := exists_floorEntry? hmem (UInt64.le_refl addr)
  obtain ⟨hin, hle, hgreatest⟩ := floorEntry?_some hfloor
  obtain rfl : floor = addr := UInt64.le_antisymm hle (hgreatest _ hmem (UInt64.le_refl _))
  obtain rfl : found = id := hchain.unique
    (hchain.covers_start ((h _ _ _).mp (mem_starts.mp hin))) (hchain.covers_start hstart)
  rw [beginning?, hfloor]
  exact if_pos rfl

/-- The instruction that is found for an offset is the one that has a byte there. -/
theorem covering?_iff (h : index.Indexes chain) (hchain : chain.Decoded) :
    index.covering? chain sec offset = some id ↔ chain.Covers id sec offset := by
  constructor
  · intro hfound
    simp only [covering?, Option.bind_eq_bind, Option.bind_eq_some_iff] at hfound
    obtain ⟨⟨start, found⟩, hfloor, instr, hinstr, hfound⟩ := hfound
    split at hfound
    next hend =>
      obtain rfl := Option.some.inj hfound
      obtain ⟨hin, hle, -⟩ := floorEntry?_some hfloor
      obtain ⟨hmem, instr', hinstr', hsec, rfl⟩ := (h _ _ _).mp (mem_starts.mp hin)
      obtain rfl := Option.some.inj (hinstr.symm.trans hinstr')
      exact ⟨hmem, instr, hinstr, hsec, hle, hend⟩
    next => cases hfound
  · intro hcovers
    obtain ⟨hmem, instr, hinstr, hsec, hstart, hend⟩ := hcovers
    have hentry : (instr.inputAddr, id) ∈ index.starts sec :=
      mem_starts.mpr ((h _ _ _).mpr ⟨hmem, instr, hinstr, hsec, rfl⟩)
    obtain ⟨⟨floor, found⟩, hfloor⟩ := exists_floorEntry? hentry hstart
    obtain ⟨hin, hle, hgreatest⟩ := floorEntry?_some hfloor
    -- the instruction lies over the floor of the offset too, and that is where `found` begins
    obtain rfl : found = id := hchain.unique
      (hchain.covers_start ((h _ _ _).mp (mem_starts.mp hin)))
      ⟨hmem, instr, hinstr, hsec, hgreatest _ hentry hstart, UInt64.lt_of_le_of_lt hle hend⟩
    obtain ⟨-, instr', hinstr', -, hfloor'⟩ := (h _ _ _).mp (mem_starts.mp hin)
    obtain rfl := Option.some.inj (hinstr.symm.trans hinstr')
    rw [covering?, hfloor]
    simp only [Option.bind_eq_bind, Option.bind_some, hinstr]
    exact if_pos (hfloor' ▸ hend)

/-- Whether a section holds code can be told from the index. -/
theorem isCode_eq (h : index.Indexes chain) : index.isCode sec = chain.holdsCode sec := by
  rw [Bool.eq_iff_iff, Chain.holdsCode_iff, isCode, List.any_eq_true]
  constructor
  · intro hany
    obtain ⟨⟨sec', addr, id⟩, hmem, hsec⟩ := hany
    obtain rfl : sec' = sec := eq_of_beq hsec
    exact ⟨id, addr, (h _ _ _).mp hmem⟩
  · intro hstart
    obtain ⟨id, addr, hstart⟩ := hstart
    exact ⟨(sec, addr, id), (h _ _ _).mpr hstart, beq_self_eq_true _⟩

end Indexes

end AddressIndex

end Splice
