import Splice.Proofs.Program.InputStarts
import Splice.Proofs.Symbol.Finding

/-!
# Functions by their input addresses

`containing?` is asked about addresses of the input, but it takes a function to end where the
code that is in it *now* would reach from its start in the input (`Function.lookupEnd`): the
size of a function follows its code. What is found is the function that starts last in front of
the address, if its code is long enough (`FunctionTable.containing?_iff`).

So each address is found in its input range exactly as long as every function reaches to the end
of its own range, and beyond that only where another one starts at once (`Decoded.Reaches`,
`Ranged.answers`, `Ranged.reaches`). A function that has its first size does, whatever was done
to it in between (`containing?_of_operations`). The last function of a section that grows by a
byte is found one byte too far (`containing?_beyond`).

The condition `Reaches` is on the table as it is, so it can be evaluated in any state that
operations have led to. Ranges that are empty or overlap are excluded by `Decoded.Ranged`, on
the input alone.
-/

namespace Splice

/-- Where the input range of the function ends if it is as long as its code is. -/
def Function.lookupEnd (function : Function) : UInt64 := function.inputAddr + function.size

namespace FunctionTable

/-- The function is the last of the defined functions of `sec` that start at `addr` or in front of
it. -/
structure Floor (table : FunctionTable) (sec : SectionId) (addr : UInt64) (id : FuncId)
    (function : Function) : Prop where
  get? : table.get? id = some function
  defined : function.isDefined = true
  inSection : function.sec = sec
  le : function.inputAddr ≤ addr
  greatest : ∀ other b, table.get? other = some b → b.isDefined = true → b.sec = sec →
    b.inputAddr ≤ addr → b.inputAddr ≤ function.inputAddr

/-- No two defined functions of a section start at the same address. -/
def Distinct (table : FunctionTable) : Prop :=
  ∀ id other a b, table.get? id = some a → table.get? other = some b → a.isDefined = true →
    b.isDefined = true → a.sec = b.sec → a.inputAddr = b.inputAddr → id = other

variable {table : FunctionTable} {sec : SectionId} {addr start : UInt64} {id : FuncId} {function : Function}

/-- The starts of a section are those of its defined functions. -/
theorem mem_starts : (start, id, function) ∈ table.starts sec
    ↔ table.get? id = some function ∧ function.sec = sec ∧ function.isDefined = true
      ∧ function.inputAddr = start := by
  simp only [starts, List.mem_map, List.mem_filter, Prod.mk.injEq, Bool.and_eq_true, beq_iff_eq]
  constructor
  · rintro ⟨entry, ⟨hentry, hsec, hdefined⟩, hstart, rfl⟩
    exact ⟨mem_entries.mp hentry, hsec, hdefined, hstart⟩
  · rintro ⟨hget, hsec, hdefined, hstart⟩
    exact ⟨(id, function), ⟨mem_entries.mpr hget, hsec, hdefined⟩, hstart, rfl⟩

/-- The function that is found is the last one to start in front of the address, if it is long
enough. -/
theorem containing?_iff (h : table.Distinct) : table.containing? sec addr = some id
    ↔ ∃ function, table.Floor sec addr id function ∧ addr < function.lookupEnd := by
  constructor
  · intro hfound
    simp only [containing?, Option.bind_eq_bind, Option.bind_eq_some_iff] at hfound
    obtain ⟨⟨start, found, function⟩, hfloor, hfound⟩ := hfound
    split at hfound
    next hend =>
      obtain rfl := Option.some.inj hfound
      obtain ⟨hmem, hle, hgreatest⟩ := floorEntry?_some hfloor
      obtain ⟨hget, hsec, hdefined, rfl⟩ := mem_starts.mp hmem
      refine ⟨function, ⟨hget, hdefined, hsec, hle, fun other b hother hb hsec' hbefore => ?_⟩, hend⟩
      exact hgreatest _ (mem_starts.mpr ⟨hother, hsec', hb, rfl⟩) hbefore
    next => cases hfound
  · rintro ⟨function, hfunction, hend⟩
    have hentry := mem_starts.mpr ⟨hfunction.get?, hfunction.inSection, hfunction.defined, rfl⟩
    obtain ⟨⟨start, found, other⟩, hfloor⟩ := exists_floorEntry? hentry hfunction.le
    obtain ⟨hmem, hle, hgreatest⟩ := floorEntry?_some hfloor
    obtain ⟨hget, hsec, hdefined, rfl⟩ := mem_starts.mp hmem
    have hstart : other.inputAddr = function.inputAddr :=
      UInt64.le_antisymm (hfunction.greatest found other hget hdefined hsec hle)
        (hgreatest _ hentry hfunction.le)
    obtain rfl : found = id := h found id other function hget hfunction.get? hdefined hfunction.defined
      (hsec.trans hfunction.inSection.symm) hstart
    obtain rfl := Option.some.inj (hget.symm.trans hfunction.get?)
    rw [containing?, hfloor]
    exact if_pos hend

end FunctionTable

/-! ## Input ranges -/

namespace Decoded

/-- The address behind the instructions of a function in the input. -/
def inputEnd (decoded : Decoded) (function : Function) : Nat :=
  function.inputAddr.toNat + ((function.instructions decoded.chain).map fun id =>
    ((decoded.chain.get? id).map (·.bytes.length)).getD 0).sum

/-- The address is one of the input range of the function. -/
def Covers (decoded : Decoded) (id : FuncId) (sec : SectionId) (addr : UInt64) : Prop :=
  ∃ function, decoded.functions.get? id = some function ∧ function.isDefined = true
    ∧ function.sec = sec ∧ function.inputAddr ≤ addr ∧ addr.toNat < decoded.inputEnd function

/-- The input ranges of the functions are not empty and lie apart. -/
structure Ranged (decoded : Decoded) : Prop where
  nonempty : ∀ entry ∈ decoded.functions.entries, entry.2.isDefined = true →
    entry.2.inputAddr.toNat < decoded.inputEnd entry.2
  apart : ∀ entry ∈ decoded.functions.entries, ∀ other ∈ decoded.functions.entries, entry.1 ≠ other.1 →
    entry.2.isDefined = true → other.2.isDefined = true → entry.2.sec = other.2.sec →
    decoded.inputEnd entry.2 ≤ other.2.inputAddr.toNat ∨ decoded.inputEnd other.2 ≤ entry.2.inputAddr.toNat

instance (decoded : Decoded) : Decidable decoded.Ranged :=
  decidable_of_iff
    ((∀ entry ∈ decoded.functions.entries, entry.2.isDefined = true →
        entry.2.inputAddr.toNat < decoded.inputEnd entry.2)
      ∧ ∀ entry ∈ decoded.functions.entries, ∀ other ∈ decoded.functions.entries, entry.1 ≠ other.1 →
        entry.2.isDefined = true → other.2.isDefined = true → entry.2.sec = other.2.sec →
        decoded.inputEnd entry.2 ≤ other.2.inputAddr.toNat
          ∨ decoded.inputEnd other.2 ≤ entry.2.inputAddr.toNat)
    ⟨fun h => ⟨h.1, h.2⟩, fun h => ⟨h.nonempty, h.apart⟩⟩

variable {decoded : Decoded} {table : FunctionTable} {id other : FuncId} {sec : SectionId} {addr : UInt64}
  {function a b : Function}

/-- No two functions have an address in common. -/
theorem Ranged.unique (h : decoded.Ranged) (hid : decoded.Covers id sec addr)
    (hother : decoded.Covers other sec addr) : id = other := by
  obtain ⟨a, ha, hdefined, hsec, hstart, hend⟩ := hid
  obtain ⟨b, hb, hdefined', hsec', hstart', hend'⟩ := hother
  refine Classical.byContradiction fun hne => ?_
  rw [UInt64.le_iff_toNat_le] at hstart hstart'
  rcases h.apart (id, a) (FunctionTable.mem_entries.mpr ha) (other, b) (FunctionTable.mem_entries.mpr hb)
    hne hdefined hdefined' (hsec.trans hsec'.symm) with hbefore | hbehind
  · exact Nat.lt_irrefl _ (Nat.lt_of_lt_of_le hend (Nat.le_trans hbefore hstart'))
  · exact Nat.lt_irrefl _ (Nat.lt_of_lt_of_le hend' (Nat.le_trans hbehind hstart))

theorem Ranged.lt_inputEnd (h : decoded.Ranged) (hget : decoded.functions.get? id = some function)
    (hdefined : function.isDefined = true) : function.inputAddr.toNat < decoded.inputEnd function :=
  h.nonempty (id, function) (FunctionTable.mem_entries.mpr hget) hdefined

theorem Ranged.covers_start (h : decoded.Ranged) (hget : decoded.functions.get? id = some function)
    (hdefined : function.isDefined = true) : decoded.Covers id function.sec function.inputAddr :=
  ⟨function, hget, hdefined, rfl, UInt64.le_refl _, h.lt_inputEnd hget hdefined⟩

/-- The last address of an input range is the one in front of its end, unless addresses do not go that
far. -/
theorem Ranged.covers_last (h : decoded.Ranged) (hget : decoded.functions.get? id = some function)
    (hdefined : function.isDefined = true) : ∃ last, decoded.Covers id function.sec last
      ∧ (decoded.inputEnd function ≤ last.toNat + 1 ∨ 2 ^ 64 ≤ last.toNat + 1) := by
  have hstart := function.inputAddr.toNat_lt
  have hnonempty := h.lt_inputEnd hget hdefined
  have hlt : min (decoded.inputEnd function) (2 ^ 64) - 1 < 2 ^ 64 := by omega
  have hlast : (UInt64.ofNat (min (decoded.inputEnd function) (2 ^ 64) - 1)).toNat
      = min (decoded.inputEnd function) (2 ^ 64) - 1 := UInt64.toNat_ofNat_of_lt' hlt
  refine ⟨UInt64.ofNat (min (decoded.inputEnd function) (2 ^ 64) - 1),
    ⟨function, hget, hdefined, rfl, ?_, ?_⟩, ?_⟩
  · rw [UInt64.le_iff_toNat_le, hlast]
    omega
  · rw [hlast]
    omega
  · rw [hlast]
    omega

/-! ## Answers -/

/-- A function that is still defined covers its start. -/
theorem Ranged.covers_root (h : decoded.Ranged) (hroots : decoded.functions.Roots table)
    (hget : table.get? id = some b) (hdefined : b.isDefined = true) :
    decoded.Covers id b.sec b.inputAddr := by
  obtain ⟨a, ha, hrooted⟩ := hroots id b hget
  rw [hrooted.sec, hrooted.inputAddr]
  exact h.covers_start ha (hrooted.defined hdefined)

/-- Ranges that are not empty and lie apart start at different addresses, then and later. -/
theorem Ranged.distinct (h : decoded.Ranged) (hroots : decoded.functions.Roots table) : table.Distinct := by
  intro id other a b ha hb hdefined hdefined' hsec hstart
  refine h.unique (h.covers_root hroots ha hdefined) ?_
  rw [hsec, hstart]
  exact h.covers_root hroots hb hdefined'

/-- No function starts inside the input range of another one. -/
theorem Ranged.le_start (h : decoded.Ranged) (hroots : decoded.functions.Roots table)
    (hget : decoded.functions.get? id = some function) (hdefined : function.isDefined = true)
    (hb : table.get? other = some b) (hbdefined : b.isDefined = true) (hsec : b.sec = function.sec)
    (hlt : b.inputAddr.toNat < decoded.inputEnd function) : b.inputAddr ≤ function.inputAddr := by
  rcases UInt64.le_total b.inputAddr function.inputAddr with hle | hlater
  · exact hle
  · obtain rfl := h.unique (h.covers_root hroots hb hbdefined)
      ⟨function, hget, hdefined, hsec.symm, hlater, hlt⟩
    obtain ⟨a, ha, hrooted⟩ := hroots _ b hb
    obtain rfl := Option.some.inj (ha.symm.trans hget)
    rw [hrooted.inputAddr]
    exact UInt64.le_refl _

/-- Some function that is still defined starts right behind the input range. -/
def Followed (decoded : Decoded) (table : FunctionTable) (function : Function) : Prop :=
  ∃ next b, table.get? next = some b ∧ b.isDefined = true ∧ b.sec = function.sec
    ∧ b.inputAddr.toNat = decoded.inputEnd function

/-- The function is still defined, and reaches to the end of its input range, or further where another
one follows. -/
def Reaches (decoded : Decoded) (table : FunctionTable) (id : FuncId) (function : Function) : Prop :=
  ∃ after, table.get? id = some after ∧ after.isDefined = true
    ∧ (after.lookupEnd.toNat = decoded.inputEnd function
      ∨ decoded.inputEnd function < after.lookupEnd.toNat ∧ decoded.Followed table function)

/-- If every function reaches as far as it has to, each address is found in its input range. -/
theorem Ranged.answers (h : decoded.Ranged) (hroots : decoded.functions.Roots table)
    (hreaches : ∀ id function, decoded.functions.get? id = some function → function.isDefined = true →
      decoded.Reaches table id function) :
    table.containing? sec addr = some id ↔ decoded.Covers id sec addr := by
  rw [FunctionTable.containing?_iff (h.distinct hroots)]
  constructor
  · rintro ⟨after, hfloor, hend⟩
    obtain ⟨function, hfunction, hrooted⟩ := hroots id after hfloor.get?
    have hdefined := hrooted.defined hfloor.defined
    have hsec : function.sec = sec := hrooted.sec.symm.trans hfloor.inSection
    refine ⟨function, hfunction, hdefined, hsec, hrooted.inputAddr ▸ hfloor.le, ?_⟩
    obtain ⟨after', hafter', -, hlength⟩ := hreaches id function hfunction hdefined
    obtain rfl := Option.some.inj (hfloor.get?.symm.trans hafter')
    rw [UInt64.lt_iff_toNat_lt] at hend
    rcases hlength with heq | ⟨-, next, b, hb, hbdefined, hbsec, hbstart⟩
    · exact heq ▸ hend
    · -- behind the range the next function would be the last one to start
      refine Nat.lt_of_not_le fun hbehind => ?_
      have hle : b.inputAddr ≤ addr := UInt64.le_iff_toNat_le.mpr (hbstart ▸ hbehind)
      have hlast := hfloor.greatest next b hb hbdefined (hbsec.trans hsec) hle
      rw [hrooted.inputAddr, UInt64.le_iff_toNat_le, hbstart] at hlast
      exact Nat.lt_irrefl _ (Nat.lt_of_lt_of_le (h.lt_inputEnd hfunction hdefined) hlast)
  · rintro ⟨function, hfunction, hdefined, hsec, hstart, hend⟩
    obtain ⟨after, hafter, hdefined', hlength⟩ := hreaches id function hfunction hdefined
    obtain ⟨function', hfunction', hrooted⟩ := hroots id after hafter
    obtain rfl := Option.some.inj (hfunction.symm.trans hfunction')
    refine ⟨after, ⟨hafter, hdefined', hrooted.sec.trans hsec, hrooted.inputAddr ▸ hstart, ?_⟩, ?_⟩
    · intro other b hb hbdefined hbsec hbstart
      rw [hrooted.inputAddr]
      exact h.le_start hroots hfunction hdefined hb hbdefined (hbsec.trans hsec.symm)
        (Nat.lt_of_le_of_lt (UInt64.le_iff_toNat_le.mp hbstart) hend)
    · rw [UInt64.lt_iff_toNat_lt]
      rcases hlength with heq | ⟨hfurther, -⟩
      · exact heq ▸ hend
      · exact Nat.lt_trans hend hfurther

/-- Where each address is found in its input range, every function reaches as far as it has to. -/
theorem Ranged.reaches (h : decoded.Ranged) (hroots : decoded.functions.Roots table)
    (hanswers : ∀ sec addr id, table.containing? sec addr = some id ↔ decoded.Covers id sec addr)
    (hfunction : decoded.functions.get? id = some function) (hdefined : function.isDefined = true) :
    decoded.Reaches table id function := by
  have hfound : ∀ {addr}, decoded.Covers id function.sec addr ↔
      ∃ after, table.Floor function.sec addr id after ∧ addr < after.lookupEnd :=
    (hanswers _ _ _).symm.trans (FunctionTable.containing?_iff (h.distinct hroots))
  obtain ⟨last, hlast, hend⟩ := h.covers_last hfunction hdefined
  obtain ⟨after, hfloor, hlt⟩ := hfound.mp hlast
  obtain ⟨function', hfunction', hrooted⟩ := hroots id after hfloor.get?
  obtain rfl := Option.some.inj (hfunction.symm.trans hfunction')
  have hbound := after.lookupEnd.toNat_lt
  rw [UInt64.lt_iff_toNat_lt] at hlt
  have hreaches : decoded.inputEnd function ≤ after.lookupEnd.toNat := by omega
  refine ⟨after, hfloor.get?, hfloor.defined, (Nat.eq_or_lt_of_le hreaches).imp Eq.symm fun hfurther =>
    ⟨hfurther, Classical.byContradiction fun hnone => ?_⟩⟩
  -- otherwise the address behind the range is found in it
  have hbehind : (UInt64.ofNat (decoded.inputEnd function)).toNat = decoded.inputEnd function :=
    UInt64.toNat_ofNat_of_lt' (Nat.lt_trans hfurther hbound)
  have hcovers : decoded.Covers id function.sec (UInt64.ofNat (decoded.inputEnd function)) := by
    refine hfound.mpr ⟨after, ⟨hfloor.get?, hfloor.defined, hfloor.inSection, ?_, ?_⟩, ?_⟩
    · rw [hrooted.inputAddr, UInt64.le_iff_toNat_le, hbehind]
      exact Nat.le_of_lt (h.lt_inputEnd hfunction hdefined)
    · intro other b hb hbdefined hbsec hbstart
      rw [UInt64.le_iff_toNat_le, hbehind] at hbstart
      rw [hrooted.inputAddr]
      refine h.le_start hroots hfunction hdefined hb hbdefined hbsec (Nat.lt_of_le_of_ne hbstart ?_)
      exact fun heq => hnone ⟨other, b, hb, hbdefined, hbsec, heq⟩
    · rw [UInt64.lt_iff_toNat_lt, hbehind]
      exact hfurther
  obtain ⟨function', hfunction', -, -, -, hlt'⟩ := hcovers
  obtain rfl := Option.some.inj (hfunction.symm.trans hfunction')
  exact Nat.lt_irrefl _ (hbehind ▸ hlt')

/-- With its first size a function reaches to the end of its input range. -/
theorem lookupEnd_sized (decoded : Decoded) (function : Function) :
    (function.sized decoded.chain).lookupEnd = UInt64.ofNat (decoded.inputEnd function) := by
  have hsum : ∀ ids : List InstrId, (ids.map decoded.chain.sizeOf).sum = UInt64.ofNat (ids.map fun id =>
      ((decoded.chain.get? id).map (·.bytes.length)).getD 0).sum := by
    intro ids
    induction ids with
    | nil => rfl
    | cons id ids ih =>
      rw [List.map_cons, List.sum_cons, List.map_cons, List.sum_cons, UInt64.ofNat_add, ih, Chain.sizeOf]
      cases decoded.chain.get? id <;> rfl
  rw [Function.lookupEnd, Function.sized, inputEnd, UInt64.ofNat_add, UInt64.ofNat_toNat, hsum]

end Decoded

/-- A function that has the size that it was loaded with reaches to the end of its input range. -/
theorem reaches_of_size {decoded : Decoded} {config : Config} {s : Session} {table : FunctionTable}
    {id : FuncId} {function before after : Function} (hload : Session.load decoded config = .ok s)
    (hroots : s.program.functions.Roots table)
    (hfunction : decoded.functions.get? id = some function) (hend : decoded.inputEnd function < 2 ^ 64)
    (hbefore : s.program.functions.get? id = some before) (hafter : table.get? id = some after)
    (hdefined : after.isDefined = true) (hsize : after.size = before.size) :
    decoded.Reaches table id function := by
  obtain ⟨function', hfunction', hrooted, hfirst⟩ := load_function hload hbefore
  obtain rfl := Option.some.inj (hfunction.symm.trans hfunction')
  obtain ⟨before', hbefore', hkept⟩ := hroots id after hafter
  obtain rfl := Option.some.inj (hbefore.symm.trans hbefore')
  have hsame : after.lookupEnd = (function.sized decoded.chain).lookupEnd := by
    rw [Function.lookupEnd, hkept.inputAddr, hrooted.inputAddr, hsize, hfirst]
    rfl
  refine ⟨after, hafter, hdefined, .inl ?_⟩
  rw [hsame, decoded.lookupEnd_sized]
  exact UInt64.toNat_ofNat_of_lt' hend

/-- In every state that is reached, the function that is found for an address is the last one to start in
front of it, if its code is long enough. It is the one in the input range of which the address lies, for
all addresses, exactly if each function still has code, which reaches to the end of its input range, or
further where another function starts there. So it is as long as no function is longer or shorter than
it was at first. -/
theorem containing?_of_operations {decoded : Decoded} {config : Config} {s t : Session}
    {operations : List Operation} {u : Unit} (hranged : decoded.Ranged)
    (hload : Session.load decoded config = .ok s) (h : operations.forM Operation.run s = .ok u t) :
    (∀ sec addr id, t.program.functions.containing? sec addr = some id
      ↔ ∃ function, t.program.functions.Floor sec addr id function ∧ addr < function.lookupEnd)
    ∧ ((∀ sec addr id, t.program.functions.containing? sec addr = some id ↔ decoded.Covers id sec addr)
      ↔ ∀ id function, decoded.functions.get? id = some function → function.isDefined = true →
        decoded.Reaches t.program.functions id function)
    ∧ ((∀ id function, decoded.functions.get? id = some function → function.isDefined = true →
        decoded.inputEnd function < 2 ^ 64 ∧ ∃ before after, s.program.functions.get? id = some before
          ∧ t.program.functions.get? id = some after ∧ after.isDefined = true ∧ after.size = before.size) →
      ∀ sec addr id, t.program.functions.containing? sec addr = some id ↔ decoded.Covers id sec addr) := by
  have hkept := EngineM.operations_roots h
  have hroots := (load_roots hload).trans hkept
  refine ⟨fun sec addr id => FunctionTable.containing?_iff (hranged.distinct hroots),
    ⟨fun hanswers id function => hranged.reaches hroots hanswers, fun hreaches sec addr id =>
      hranged.answers hroots hreaches⟩,
    fun hsizes sec addr id => hranged.answers hroots fun id function hfunction hdefined => ?_⟩
  obtain ⟨hend, before, after, hbefore, hafter, hstill, hsize⟩ := hsizes id function hfunction hdefined
  exact reaches_of_size hload hkept hfunction hend hbefore hafter hstill hsize

/-- A function of one byte. -/
def lone : Decoded where
  arch := .x86_64
  chain := .ofList [{ Instruction.decoded 0 [0x90] 1 .nop with sec := 1 }]
  functions := ⟨#[Function.declared "f" 1 (some (⟨0⟩, ⟨0⟩)) 0]⟩
  symbols := []
  relocations := []

/-- A function that has grown and has been cut back is found where it was. -/
theorem containing?_of_operations_lone : ∃ s t, lone.Ranged
    ∧ Session.load lone ⟨8, true, true, true⟩ = .ok s
    ∧ [Operation.edit (.insertAfter ⟨0⟩ (.synthetic [0x90] 1 .nop)), .finalize,
        .edit (.remove ⟨1⟩)].forM Operation.run s = .ok () t
    ∧ ∀ sec addr id, t.program.functions.containing? sec addr = some id ↔ lone.Covers id sec addr := by
  let s := (Session.load lone ⟨8, true, true, true⟩).toOption.getD default
  have hranged : lone.Ranged := by decide
  have hload : Session.load lone ⟨8, true, true, true⟩ = .ok s := by decide +kernel
  obtain ⟨_, h⟩ := Succeeds.ok (show Succeeds ([Operation.edit (.insertAfter ⟨0⟩ (.synthetic [0x90] 1 .nop)),
    .finalize, .edit (.remove ⟨1⟩)].forM Operation.run) s = true by decide +kernel)
  refine ⟨s, _, hranged, hload, h, (containing?_of_operations hranged hload h).2.1.mpr ?_⟩
  intro id function hfunction hdefined
  obtain ⟨rfl, rfl⟩ := Prod.mk.inj (List.mem_singleton.mp (FunctionTable.mem_entries.mpr hfunction))
  have hend : ((outcome ([Operation.edit (.insertAfter ⟨0⟩ (.synthetic [0x90] 1 .nop)), .finalize,
      .edit (.remove ⟨1⟩)].forM Operation.run) s).program.functions.get? ⟨0⟩).any
        (fun after => after.isDefined && after.lookupEnd == 1) = true := by
    decide +kernel
  obtain ⟨after, hafter, hend⟩ := (Option.any_eq_true _ _).mp hend
  rw [Bool.and_eq_true, beq_iff_eq] at hend
  exact ⟨after, hafter, hend.1, .inl (by rw [hend.2]; rfl)⟩

/-- A function that has grown is found behind its input range. -/
theorem containing?_beyond : ∃ s t, lone.Ranged
    ∧ Session.load lone ⟨8, true, true, true⟩ = .ok s
    ∧ [Operation.edit (.insertAfter ⟨0⟩ (.synthetic [0x90] 1 .nop))].forM Operation.run s = .ok () t
    ∧ t.program.functions.containing? 1 1 = some ⟨0⟩ ∧ ¬lone.Covers ⟨0⟩ 1 1 := by
  let s := (Session.load lone ⟨8, true, true, true⟩).toOption.getD default
  have hbehind : ¬lone.Covers ⟨0⟩ 1 1 := by
    intro hcovers
    obtain ⟨function, hfunction, -, -, -, hlt⟩ := hcovers
    obtain rfl := Option.some.inj hfunction
    exact absurd hlt (by decide)
  obtain ⟨_, h⟩ := Succeeds.ok (show Succeeds ([Operation.edit (.insertAfter ⟨0⟩ (.synthetic [0x90] 1
    .nop))].forM Operation.run) s = true by decide +kernel)
  exact ⟨s, _, by decide, by decide +kernel, h, by decide +kernel, hbehind⟩

end Splice
