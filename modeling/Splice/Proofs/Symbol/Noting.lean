import Splice.Proofs.Symbol.Ties

/-!
# Records that are listed point back

The lists of an instruction name the records that are tied to it; `Noted` says that each of
them really is: a record listed as patching the instruction patches it, and one listed as
pointing at it points at it, as a symbol or through its relocation.

Most ways of treating ties keep this whatever the record is tied to besides. Giving up the
relocations that patch an instruction does not: such a record may refer to some other
instruction, which lists it still (`release_iff`).

Here nothing is said of numbers, which are the business of `Splice.Proofs.Symbol.Ties`; the two
are proved apart since edits that break this property keep the other one.

> `Noted.release_iff`: after the records that patch an instruction were given up, what is listed
> points back exactly if every instruction that lists one of them is still what it points at.
-/

namespace Splice

namespace Symbol

/-- The relocation of the record patches the instruction. -/
def Patches (record : Symbol) (id : InstrId) : Prop :=
  ∃ reloc, record.reloc = some reloc ∧ reloc.instr = some id

/-- The record points at the instruction, as a symbol or through what its relocation refers to. -/
def PointsAt (record : Symbol) (id : InstrId) : Prop :=
  record.instr = some id ∨ ∃ reloc, record.reloc = some reloc ∧ reloc.target = some id

variable {record : Symbol} {id source dest old first : InstrId} {delta : Int64}
  {pointed patched : InstrId → UInt64}

/-- Numbers that change are no ties. -/
theorem patches_drifted : (record.drifted pointed patched).Patches id ↔ record.Patches id := by
  constructor
  · intro h
    obtain ⟨_, hreloc, hinstr⟩ := h
    obtain ⟨reloc, hold, rfl⟩ := Option.map_eq_some_iff.mp hreloc
    exact ⟨reloc, hold, hinstr⟩
  · intro h
    obtain ⟨reloc, hreloc, hinstr⟩ := h
    exact ⟨_, Option.map_eq_some_iff.mpr ⟨reloc, hreloc, rfl⟩, hinstr⟩

/-- A record that drifts with its instruction points at what it pointed at. -/
theorem pointsAt_drifted : (record.drifted pointed patched).PointsAt id ↔ record.PointsAt id := by
  refine or_congr Iff.rfl ⟨fun h => ?_, fun h => ?_⟩
  · obtain ⟨_, hreloc, htarget⟩ := h
    obtain ⟨reloc, hold, rfl⟩ := Option.map_eq_some_iff.mp hreloc
    exact ⟨reloc, hold, htarget⟩
  · obtain ⟨reloc, hreloc, htarget⟩ := h
    exact ⟨_, Option.map_eq_some_iff.mpr ⟨reloc, hreloc, rfl⟩, htarget⟩

/-- Pointing a record elsewhere does not change what it patches. -/
theorem Patches.pointedTo (h : record.Patches id) : (record.pointedTo source dest delta).Patches id := by
  obtain ⟨reloc, hreloc, hinstr⟩ := h
  refine ⟨_, Option.map_eq_some_iff.mpr ⟨reloc, hreloc, rfl⟩, ?_⟩
  split <;> exact hinstr

/-- A record that is pointed elsewhere points at the other instruction. -/
theorem PointsAt.pointedTo (h : record.PointsAt id) (source dest : InstrId) (delta : Int64) :
    (record.pointedTo source dest delta).PointsAt (swap source dest id) := by
  rcases h with hinstr | ⟨reloc, hreloc, htarget⟩
  · refine .inl ?_
    show (if record.instr = some source then some dest else record.instr) = _
    rw [hinstr, swap]
    by_cases hid : id = source
    · rw [hid, if_pos rfl, if_pos rfl]
    · rw [if_neg fun he => hid (Option.some.inj he), if_neg hid]
  · refine .inr ⟨_, Option.map_eq_some_iff.mpr ⟨reloc, hreloc, rfl⟩, ?_⟩
    rw [htarget, swap]
    by_cases hid : id = source
    · rw [hid, if_pos rfl, if_pos rfl]
    · rw [if_neg fun he => hid (Option.some.inj he), if_neg hid]
      exact htarget

/-- A record that is rehomed patches the other instruction. -/
theorem Patches.rehomed (h : record.Patches id) (old first : InstrId) :
    (record.rehomed old first).Patches (swap old first id) := by
  obtain ⟨reloc, hreloc, hinstr⟩ := h
  refine ⟨_, Option.map_eq_some_iff.mpr ⟨reloc, hreloc, rfl⟩, ?_⟩
  rw [hinstr, swap]
  by_cases hid : id = old
  · rw [hid, if_pos rfl, if_pos rfl]
  · rw [if_neg fun he => hid (Option.some.inj he), if_neg hid]
    exact hinstr

/-- A relocation that moves along with its instruction refers to what it did. -/
theorem PointsAt.rehomed (h : record.PointsAt id) : (record.rehomed old first).PointsAt id := by
  rcases h with hinstr | ⟨reloc, hreloc, htarget⟩
  · exact .inl hinstr
  · refine .inr ⟨_, Option.map_eq_some_iff.mpr ⟨reloc, hreloc, rfl⟩, ?_⟩
    split <;> exact htarget

/-- A record under new names patches what it patched, under its new name. -/
theorem Patches.renamed (h : record.Patches id) {names : InstrId → Option InstrId} {new : InstrId}
    (hnew : names id = some new) : (record.renamed names).Patches new := by
  obtain ⟨reloc, hreloc, hinstr⟩ := h
  refine ⟨_, Option.map_eq_some_iff.mpr ⟨reloc, hreloc, rfl⟩, ?_⟩
  exact Option.bind_eq_some_iff.mpr ⟨id, hinstr, hnew⟩

/-- A record under new names points at what it pointed at, under its new name. -/
theorem PointsAt.renamed (h : record.PointsAt id) {names : InstrId → Option InstrId} {new : InstrId}
    (hnew : names id = some new) : (record.renamed names).PointsAt new := by
  rcases h with hinstr | ⟨reloc, hreloc, htarget⟩
  · exact .inl (Option.bind_eq_some_iff.mpr ⟨id, hinstr, hnew⟩)
  · refine .inr ⟨_, Option.map_eq_some_iff.mpr ⟨reloc, hreloc, rfl⟩, ?_⟩
    exact Option.bind_eq_some_iff.mpr ⟨id, htarget, hnew⟩

/-- Without its relocation a record points where it does as a symbol. -/
theorem pointsAt_released : ({ record with reloc := none } : Symbol).PointsAt id
    ↔ record.instr = some id := by
  constructor
  · intro h
    rcases h with hinstr | ⟨_, hreloc, -⟩
    · exact hinstr
    · cases hreloc
  · exact .inl

end Symbol

/-- The records that an instruction lists are tied to it. -/
structure Noted (ties : Ties) (records : SymbolId → Option Symbol) : Prop where
  patches : ∀ {id tie symbol}, ties id = some tie → symbol ∈ tie.relocs →
    ∃ record, records symbol = some record ∧ record.Patches id
  pointers : ∀ {id tie symbol}, ties id = some tie → symbol ∈ tie.referencedBy →
    ∃ record, records symbol = some record ∧ record.PointsAt id

namespace Noted

variable {ties ties' : Ties} {records records' : SymbolId → Option Symbol}
  {id source dest old first : InstrId} {tie a b : Tie}

/-- New instructions that list nothing do not matter to what is listed. -/
theorem extend (h : Noted ties records) (hext : ties.Extends ties') : Noted ties' records where
  patches := by
    intro id tie symbol hid hmem
    rcases hext id with hsame | ⟨-, addr, hfree⟩
    · exact h.patches (hsame ▸ hid) hmem
    · rw [hfree] at hid
      cases hid
      cases hmem
  pointers := by
    intro id tie symbol hid hmem
    rcases hext id with hsame | ⟨-, addr, hfree⟩
    · exact h.pointers (hsame ▸ hid) hmem
    · rw [hfree] at hid
      cases hid
      cases hmem

/-- An instruction that leaves takes only its own lists along. -/
theorem without (h : Noted ties records) : Noted (ties.without id) records where
  patches := by
    intro other tie symbol hother hmem
    unfold Ties.without at hother
    split at hother
    · cases hother
    · exact h.patches hother hmem
  pointers := by
    intro other tie symbol hother hmem
    unfold Ties.without at hother
    split at hother
    · cases hother
    · exact h.pointers hother hmem

/-- Lists that name no further record but such as are tied to the instruction, of records that are tied
to no less. -/
theorem grow (h : Noted ties records)
    (hties : ∀ {id tie'}, ties' id = some tie' → ∃ tie, ties id = some tie
      ∧ (∀ symbol ∈ tie'.relocs, symbol ∈ tie.relocs
        ∨ ∃ record, records' symbol = some record ∧ record.Patches id)
      ∧ ∀ symbol ∈ tie'.referencedBy, symbol ∈ tie.referencedBy
        ∨ ∃ record, records' symbol = some record ∧ record.PointsAt id)
    (hrecords : ∀ {symbol record}, records symbol = some record →
      ∃ record', records' symbol = some record' ∧ (∀ id, record.Patches id → record'.Patches id)
        ∧ ∀ id, record.PointsAt id → record'.PointsAt id) :
    Noted ties' records' where
  patches := by
    intro id tie' symbol hid hmem
    obtain ⟨tie, htie, hrelocs, -⟩ := hties hid
    rcases hrelocs symbol hmem with hold | hnew
    · obtain ⟨record, hrecord, hpatches⟩ := h.patches htie hold
      obtain ⟨record', hrecord', hstill, -⟩ := hrecords hrecord
      exact ⟨record', hrecord', hstill id hpatches⟩
    · exact hnew
  pointers := by
    intro id tie' symbol hid hmem
    obtain ⟨tie, htie, -, hpointers⟩ := hties hid
    rcases hpointers symbol hmem with hold | hnew
    · obtain ⟨record, hrecord, hpoints⟩ := h.pointers htie hold
      obtain ⟨record', hrecord', -, hstill⟩ := hrecords hrecord
      exact ⟨record', hrecord', hstill id hpoints⟩
    · exact hnew

/-- Lists that are the same, of records that are tied to no less. -/
theorem congr (h : Noted ties records)
    (hties : ∀ {id tie'}, ties' id = some tie' → ∃ tie, ties id = some tie
      ∧ tie'.relocs = tie.relocs ∧ tie'.referencedBy = tie.referencedBy)
    (hrecords : ∀ {symbol record}, records symbol = some record →
      ∃ record', records' symbol = some record' ∧ (∀ id, record.Patches id → record'.Patches id)
        ∧ ∀ id, record.PointsAt id → record'.PointsAt id) :
    Noted ties' records' := by
  refine h.grow (fun hid => ?_) hrecords
  obtain ⟨tie, htie, hrelocs, hpointers⟩ := hties hid
  exact ⟨tie, htie, fun _ hmem => .inl (hrelocs ▸ hmem), fun _ hmem => .inl (hpointers ▸ hmem)⟩

/-- What pointed at `source` is listed at `dest` and points there. -/
theorem pass {delta : Int64} (h : Noted ties records) (hne : source ≠ dest)
    (hsource : ties source = some a) (hdest : ties dest = some b)
    (hrecords : ∀ symbol, records' symbol = if symbol ∈ a.referencedBy then
      (records symbol).map (·.pointedTo source dest delta) else records symbol) :
    Noted (ties.passed source dest a b) records' where
  patches := by
    intro id tie symbol hid hmem
    -- passing on leaves the patches where they are
    have hwas : ∃ old, ties id = some old ∧ symbol ∈ old.relocs := by
      rw [Ties.passed_apply hne] at hid
      split at hid
      next he =>
        cases hid
        exact ⟨a, he ▸ hsource, hmem⟩
      split at hid
      next he =>
        cases hid
        exact ⟨b, he ▸ hdest, hmem⟩
      next => exact ⟨tie, hid, hmem⟩
    obtain ⟨old, hold, hlisted⟩ := hwas
    obtain ⟨record, hrecord, hpatches⟩ := h.patches hold hlisted
    rw [hrecords, hrecord]
    split
    · exact ⟨_, rfl, hpatches.pointedTo⟩
    · exact ⟨record, rfl, hpatches⟩
  pointers := by
    intro id tie symbol hid hmem
    -- what is listed at `dest` came from `source` or was there
    rcases Ties.mem_passed hne hdest hid hmem with ⟨rfl, hlisted⟩ | ⟨hne', old, hold, hlisted⟩
    · obtain ⟨record, hrecord, hpoints⟩ := h.pointers hsource hlisted
      have hpoints' := hpoints.pointedTo source id delta
      rw [swap_self] at hpoints'
      exact ⟨_, by rw [hrecords, if_pos hlisted, hrecord]; rfl, hpoints'⟩
    · obtain ⟨record, hrecord, hpoints⟩ := h.pointers hold hlisted
      rw [hrecords, hrecord]
      split
      · have hpoints' := hpoints.pointedTo source dest delta
        rw [swap_of_ne hne'] at hpoints'
        exact ⟨_, rfl, hpoints'⟩
      · exact ⟨record, rfl, hpoints⟩

/-- When `first` takes the place of `old`, the records that `old` lists go along. -/
theorem takeOver {pointed : SymbolId → Option Symbol} (h : Noted ties records)
    (hold : ties old = some tie)
    (hpointed : ∀ symbol, pointed symbol = if symbol ∈ tie.referencedBy then
      (records symbol).map (·.pointedTo old first 0) else records symbol)
    (hrecords : ∀ symbol, records' symbol = if symbol ∈ tie.relocs then
      (pointed symbol).map (.rehomed old first) else pointed symbol) :
    Noted (ties.taken old first tie) records' where
  patches := by
    intro id tie' symbol hid hmem
    -- pointing elsewhere does not change what a record patches
    have hkept : ∀ {x} {record : Symbol}, records symbol = some record → record.Patches x →
        ∃ record, pointed symbol = some record ∧ record.Patches x := by
      intro x record hrecord hpatches
      rw [hpointed, hrecord]
      split
      · exact ⟨_, rfl, hpatches.pointedTo⟩
      · exact ⟨record, rfl, hpatches⟩
    rw [Ties.taken] at hid
    split at hid
    next he =>
      cases hid
      obtain ⟨record, hrecord, hpatches⟩ := h.patches hold hmem
      obtain ⟨record', hrecord', hpatches'⟩ := hkept hrecord hpatches
      have hrehomed := hpatches'.rehomed old first
      rw [swap_self] at hrehomed
      rw [he]
      exact ⟨_, by rw [hrecords, if_pos hmem, hrecord']; rfl, hrehomed⟩
    next =>
      rw [Ties.without] at hid
      split at hid
      next => cases hid
      next hne =>
        obtain ⟨record, hrecord, hpatches⟩ := h.patches hid hmem
        obtain ⟨record', hrecord', hpatches'⟩ := hkept hrecord hpatches
        rw [hrecords, hrecord']
        split
        · have hrehomed := hpatches'.rehomed old first
          rw [swap_of_ne hne] at hrehomed
          exact ⟨_, rfl, hrehomed⟩
        · exact ⟨record', rfl, hpatches'⟩
  pointers := by
    intro id tie' symbol hid hmem
    -- and what a record patches does not change where it points
    have hkept : ∀ {x} {record : Symbol}, pointed symbol = some record → record.PointsAt x →
        ∃ record, records' symbol = some record ∧ record.PointsAt x := by
      intro x record hrecord hpoints
      rw [hrecords, hrecord]
      split
      · exact ⟨_, rfl, hpoints.rehomed⟩
      · exact ⟨record, rfl, hpoints⟩
    rw [Ties.taken] at hid
    split at hid
    next he =>
      cases hid
      obtain ⟨record, hrecord, hpoints⟩ := h.pointers hold hmem
      have hpoints' := hpoints.pointedTo old first 0
      rw [swap_self] at hpoints'
      rw [he]
      exact hkept (by rw [hpointed, if_pos hmem, hrecord]; rfl) hpoints'
    next =>
      rw [Ties.without] at hid
      split at hid
      next => cases hid
      next hne =>
        obtain ⟨record, hrecord, hpoints⟩ := h.pointers hid hmem
        by_cases hlisted : symbol ∈ tie.referencedBy
        · have hpoints' := hpoints.pointedTo old first 0
          rw [swap_of_ne hne] at hpoints'
          exact hkept (by rw [hpointed, if_pos hlisted, hrecord]; rfl) hpoints'
        · exact hkept (by rw [hpointed, if_neg hlisted, hrecord]) hpoints

/-- Records lose the relocation that patches `id`, and with it what that refers to: the lists stay right
exactly if each instruction that lists such a record is where it points as a symbol. -/
theorem release_iff (h : Noted ties records) (hid : ties id = some a)
    (hrecords : ∀ symbol, records' symbol = if symbol ∈ a.relocs then
      (records symbol).map fun record => { record with reloc := none } else records symbol) :
    Noted (ties.put id { a with relocs := [] }) records'
      ↔ ∀ symbol ∈ a.relocs, ∀ record, records symbol = some record →
        ∀ x tie, ties x = some tie → symbol ∈ tie.referencedBy → record.instr = some x := by
  have hlists : ∀ {x tie'}, ties.put id { a with relocs := [] } x = some tie' →
      ∃ tie, ties x = some tie ∧ tie'.referencedBy = tie.referencedBy := by
    intro x tie' hx
    unfold Ties.put at hx
    split at hx
    next he =>
      cases hx
      exact ⟨a, he ▸ hid, rfl⟩
    next => exact ⟨tie', hx, rfl⟩
  constructor
  · intro hafter symbol hmem record hrecord x tie hx hlisted
    obtain ⟨tie', hx', -, hsame, -⟩ := Ties.put_released hid hx
    obtain ⟨record', hrecord', hpoints⟩ := hafter.pointers hx' (hsame ▸ hlisted)
    rw [hrecords, if_pos hmem, hrecord, Option.map_some, Option.some.injEq] at hrecord'
    exact Symbol.pointsAt_released.mp (hrecord' ▸ hpoints)
  · intro hpoint
    refine ⟨fun {x tie' symbol} hx hmem => ?_, fun {x tie' symbol} hx hmem => ?_⟩
    · unfold Ties.put at hx
      split at hx
      · cases hx
        cases hmem
      next hne =>
        obtain ⟨record, hrecord, reloc, hreloc, hinstr⟩ := h.patches hx hmem
        -- one relocation patches one instruction
        have hnot : symbol ∉ a.relocs := by
          intro hmem'
          obtain ⟨record', hrecord', reloc', hreloc', hinstr'⟩ := h.patches hid hmem'
          obtain rfl := Option.some.inj (hrecord.symm.trans hrecord')
          obtain rfl := Option.some.inj (hreloc.symm.trans hreloc')
          exact hne (Option.some.inj (hinstr.symm.trans hinstr'))
        exact ⟨record, by rw [hrecords, if_neg hnot, hrecord], reloc, hreloc, hinstr⟩
    · obtain ⟨tie, htie, hsame⟩ := hlists hx
      rw [hsame] at hmem
      obtain ⟨record, hrecord, hpoints⟩ := h.pointers htie hmem
      rw [hrecords, hrecord]
      split
      next hrel =>
        exact ⟨_, rfl, Symbol.pointsAt_released.mpr (hpoint symbol hrel record hrecord x tie htie hmem)⟩
      next => exact ⟨record, rfl, hpoints⟩

/-- What lists nothing need not be asked. -/
theorem of_without (h : Noted (ties.without id) records) (hid : ties id = some tie)
    (hrelocs : tie.relocs = []) (hpointers : tie.referencedBy = []) : Noted ties records where
  patches := by
    intro other tie' symbol hother hmem
    by_cases he : other = id
    · rw [he, hid] at hother
      cases hother
      rw [hrelocs] at hmem
      cases hmem
    · exact h.patches (by rw [Ties.without, if_neg he, hother]) hmem
  pointers := by
    intro other tie' symbol hother hmem
    by_cases he : other = id
    · rw [he, hid] at hother
      cases hother
      rw [hpointers] at hmem
      cases hmem
    · exact h.pointers (by rw [Ties.without, if_neg he, hother]) hmem

/-- Whether records point at what lists them, after what pointed at `source` has passed to `dest`, in
terms of what was before. -/
theorem pointing_passed_iff {delta : Int64} {symbol : SymbolId} (hne : source ≠ dest)
    (hsource : ties source = some a) (hdest : ties dest = some b)
    (hrecords : records' symbol = if symbol ∈ a.referencedBy then
      (records symbol).map (·.pointedTo source dest delta) else records symbol) :
    (∀ record', records' symbol = some record' → ∀ x tie', ties.passed source dest a b x = some tie' →
        symbol ∈ tie'.referencedBy → record'.instr = some x)
      ↔ ∀ record, records symbol = some record → ∀ x tie, ties x = some tie →
        symbol ∈ tie.referencedBy → record.instr.map (swap source dest) = some (swap source dest x)
          ∧ (record.instr = some source → symbol ∈ a.referencedBy) := by
  have hturned : ∀ record : Symbol, (record.pointedTo source dest delta).instr
      = record.instr.map (swap source dest) := by
    intro record
    show (if record.instr = some source then some dest else record.instr) = _
    cases record.instr with
    | none => rfl
    | some id =>
      rw [Option.map_some, swap]
      by_cases hid : id = source
      · rw [hid, if_pos rfl, if_pos rfl]
      · rw [if_neg fun he => hid (Option.some.inj he), if_neg hid]
  constructor
  · intro h record hrecord x tie hx hlisted
    by_cases hmem : symbol ∈ a.referencedBy
    · rw [if_pos hmem, hrecord] at hrecords
      refine ⟨?_, fun _ => hmem⟩
      rw [← hturned]
      by_cases hxs : x = source
      · rw [hxs, swap_self]
        refine h _ hrecords dest { b with referencedBy := b.referencedBy ++ a.referencedBy } ?_
          (List.mem_append_right _ hmem)
        rw [Ties.passed_apply hne, if_neg hne.symm, if_pos rfl]
      · obtain ⟨tie', hx', -, -, hstill⟩ := Ties.passed_relocs hne hsource hdest hx
        rw [swap_of_ne hxs]
        exact h _ hrecords x tie' hx' (hstill hxs symbol hlisted)
    · rw [if_neg hmem, hrecord] at hrecords
      have hxs : x ≠ source := by
        rintro rfl
        rw [hsource] at hx
        cases hx
        exact hmem hlisted
      obtain ⟨tie', hx', -, -, hstill⟩ := Ties.passed_relocs hne hsource hdest hx
      have hinstr := h _ hrecords x tie' hx' (hstill hxs symbol hlisted)
      refine ⟨by rw [hinstr, Option.map_some], fun he => ?_⟩
      rw [hinstr] at he
      exact absurd (Option.some.inj he) hxs
  · intro h record' hrecord' x tie' hx hlisted
    rw [hrecords] at hrecord'
    rcases Ties.mem_passed hne hdest hx hlisted with ⟨rfl, hmem⟩ | ⟨hxs, tie, htie, hmem⟩
    · rw [if_pos hmem, Option.map_eq_some_iff] at hrecord'
      obtain ⟨record, hrecord, rfl⟩ := hrecord'
      have hinstr := (h record hrecord source a hsource hmem).1
      rw [hturned, hinstr, swap_self]
    · split at hrecord'
      · obtain ⟨record, hrecord, rfl⟩ := Option.map_eq_some_iff.mp hrecord'
        rw [hturned, (h record hrecord x tie htie hmem).1, swap_of_ne hxs]
      next hnot =>
        obtain ⟨hinstr, hself⟩ := h record' hrecord' x tie htie hmem
        obtain ⟨y, hy, hyx⟩ := Option.map_eq_some_iff.mp hinstr
        have hys : y ≠ source := fun he => hnot (hself (he ▸ hy))
        rw [swap_of_ne hys, swap_of_ne hxs] at hyx
        rw [hy, hyx]

end Noted

end Splice
