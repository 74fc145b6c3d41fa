import Splice.Proofs.Run
import Splice.Symbol.Table

/-!
# Symbol tables as they are read

Reading the symbols and relocations of an object adds base records and then claims one
record for each relocation. In every table that arises so, no record is listed twice in the
order in which the table is written out, and no record names an instruction
(`SymbolTable.Unlinked`): both hold of the empty table, and pushing, claiming and giving a
claimed record its relocation keep them.

`load_induct` is the induction principle of tables: what holds of the empty one, and is kept by
pushing a symbol and by adding a relocation, holds of every table that is read from an object.
`claim_ok` says which record a claim hands out and what it changes, and is all that is used of
it elsewhere.
-/

namespace Splice

/-- The record names no instruction. -/
structure Symbol.Untied (record : Symbol) : Prop where
  instr : record.instr = none
  reloc : ∀ {reloc}, record.reloc = some reloc → reloc.instr = none ∧ reloc.target = none

namespace SymbolTable

variable {table after : SymbolTable} {id : SymbolId}

theorem get_ok {symbol : Symbol} : table.get id = .ok symbol ↔ table.get? id = some symbol := by
  unfold SymbolTable.get
  cases table.get? id <;> simp

/-- A table with every listed record once, and no instruction named. -/
structure Unlinked (table : SymbolTable) : Prop where
  nodup : table.ids.Nodup
  listed : ∀ id ∈ table.ids, id.index < table.size
  untied : ∀ {id record}, table.get? id = some record → record.Untied

/-- After a record is stored the next name has it, and all others have what they had. -/
theorem get?_pushed {symbol : Symbol} {runs : List (List SymbolId)} {count : Nat} (id : SymbolId) :
    (SymbolTable.mk (table.records.push symbol) runs count).get? id
      = if id.index = table.size then some symbol else table.get? id := by
  show (table.records.push symbol)[id.index]? = _
  rw [Array.getElem?_push]
  rfl

/-- The next record to be stored is not listed yet. -/
theorem Unlinked.fresh (h : table.Unlinked) : (⟨table.size⟩ : SymbolId) ∉ table.ids :=
  fun hmem => Nat.lt_irrefl _ (h.listed _ hmem)

/-- Storing one record more that names no instruction, and listing it anywhere. -/
theorem Unlinked.store (h : table.Unlinked) {symbol : Symbol} {runs : List (List SymbolId)}
    {count : Nat} (hsymbol : symbol.Untied)
    (hruns : runs.flatten.Perm (⟨table.size⟩ :: table.ids)) :
    (SymbolTable.mk (table.records.push symbol) runs count).Unlinked where
  nodup := hruns.nodup_iff.mpr (List.nodup_cons.mpr ⟨h.fresh, h.nodup⟩)
  listed id hid := by
    have hsize : (SymbolTable.mk (table.records.push symbol) runs count).size = table.size + 1 :=
      Array.size_push ..
    rcases List.mem_cons.mp (hruns.mem_iff.mp hid) with rfl | hid
    · show table.size < _
      omega
    · have := h.listed id hid
      omega
  untied := by
    intro id record hrecord
    rw [get?_pushed] at hrecord
    split at hrecord
    · obtain rfl := Option.some.inj hrecord
      exact hsymbol
    · exact h.untied hrecord

/-- Changing a record so that it still names no instruction. -/
theorem Unlinked.update (h : table.Unlinked) {f : Symbol → Symbol}
    (hf : ∀ record : Symbol, record.Untied → (f record).Untied) : (table.update id f).Unlinked where
  nodup := h.nodup
  listed other hother := by
    have hsize : (table.update id f).size = table.size := Array.size_modify ..
    rw [hsize]
    exact h.listed other hother
  untied := by
    intro other record hrecord
    rw [get?_update] at hrecord
    split at hrecord
    · obtain ⟨old, hold, rfl⟩ := Option.map_eq_some_iff.mp hrecord
      exact hf old (h.untied hold)
    · exact h.untied hrecord

/-- To push a record that names no instruction keeps the table unlinked. -/
theorem Unlinked.push (h : table.Unlinked) {symbol : Symbol} (hsymbol : symbol.Untied) :
    (table.push symbol).2.Unlinked := by
  refine h.store ⟨hsymbol.instr, hsymbol.reloc⟩ ?_
  rw [List.flatten_append]
  exact List.perm_append_comm

/-- A run that was found stands in the list of all runs. -/
theorem runOf?_split {base : SymbolId} {number : Nat} {run : List SymbolId}
    (h : table.runOf? base = some (number, run)) :
    run.head? = some base
      ∧ ∃ front behind, table.runs = front ++ run :: behind ∧ number = front.length := by
  simp only [runOf?, Option.bind_eq_bind, Option.bind_eq_some_iff, Option.pure_def,
    Option.some.injEq, Prod.mk.injEq] at h
  obtain ⟨number', hnumber, run', hrun, rfl, rfl⟩ := h
  obtain ⟨hlt, rfl⟩ := List.getElem?_eq_some_iff.mp hrun
  refine ⟨?_, table.runs.take number', table.runs.drop (number' + 1), ?_, ?_⟩
  · obtain ⟨_, hhead, -⟩ := List.findIdx?_eq_some_iff_getElem.mp hnumber
    exact eq_of_beq hhead
  · rw [← List.drop_eq_getElem_cons hlt, List.take_append_drop]
  · rw [List.length_take]
    omega

/-- The record of a symbol that is claimed is its base record, which is marked, or a new one that
copies the last of its run and is put behind it. -/
theorem claim_ok {claimed : SymbolId} (h : table.claim id = .ok (claimed, after)) :
    ∃ found, table.get? id = some found
      ∧ (claimed = found.base
          ∧ after = table.update claimed (fun symbol => { symbol with referenced := true })
        ∨ ∃ front run behind last, table.runs = front ++ run :: behind ∧ run.head? = some found.base
          ∧ table.get? (run.getLast?.getD found.base) = some last ∧ claimed = ⟨table.size⟩
          ∧ after = ⟨table.records.push (Symbol.duplicated last),
              front ++ (run ++ [⟨table.size⟩]) :: behind, table.baseCount⟩) := by
  simp only [SymbolTable.claim, bind_eq_ok, get_ok] at h
  obtain ⟨found, hfound, root, -, h⟩ := h
  refine ⟨found, hfound, ?_⟩
  split at h
  · obtain ⟨rfl, rfl⟩ := Prod.mk.inj (pure_eq_ok.mp h)
    exact .inl ⟨rfl, rfl⟩
  · split at h
    · cases h
    next number run hrun =>
      obtain ⟨last, hlast, h⟩ := bind_eq_ok.mp h
      rw [get_ok] at hlast
      obtain ⟨rfl, rfl⟩ := Prod.mk.inj (pure_eq_ok.mp h)
      obtain ⟨hhead, front, behind, hruns, rfl⟩ := runOf?_split hrun
      refine .inr ⟨front, run, behind, last, hruns, hhead, hlast, rfl, ?_⟩
      rw [hruns, List.set_append_right _ _ (Nat.le_refl _), Nat.sub_self, List.set_cons_zero]
      rfl

/-- To claim a record keeps the table unlinked, since what is copied names no instruction either. -/
theorem Unlinked.claim (h : table.Unlinked) {claimed : SymbolId}
    (hclaim : table.claim id = .ok (claimed, after)) : after.Unlinked := by
  obtain ⟨found, -, ⟨-, rfl⟩ | ⟨front, run, behind, last, hruns, -, hlast, -, rfl⟩⟩ := claim_ok hclaim
  · exact h.update fun record hrecord => ⟨hrecord.instr, hrecord.reloc⟩
  · refine h.store ⟨(h.untied hlast).instr, fun hreloc => ?_⟩ ?_
    · obtain ⟨reloc, -, rfl⟩ := Option.map_eq_some_iff.mp hreloc
      exact ⟨rfl, rfl⟩
    · rw [ids, hruns]
      simp only [List.flatten_append, List.flatten_cons, List.append_assoc]
      exact (List.perm_middle.append_left _).trans List.perm_middle

/-- A relocation that is read is reported, which leaves the table as it is, or carried by a record that
is claimed for it. -/
theorem addRelocation_ok {warnings warned : List Warning} {raw : RawRelocation}
    (h : addRelocation (table, warnings) raw = .ok (after, warned)) :
    after = table ∨ ∃ base claimed claimedTable, table.claim base = .ok (claimed, claimedTable)
      ∧ after = claimedTable.update claimed fun symbol => { symbol with reloc := some (.ofRaw raw) } := by
  unfold SymbolTable.addRelocation at h
  simp only at h
  split at h
  · exact .inl (Prod.mk.inj (pure_eq_ok.mp h)).1.symm
  next base _ =>
    obtain ⟨⟨claimed, claimedTable⟩, hclaim, h⟩ := bind_eq_ok.mp h
    exact .inr ⟨base, claimed, claimedTable, hclaim, (Prod.mk.inj (pure_eq_ok.mp h)).1.symm⟩

/-- To read one more relocation keeps the table unlinked. -/
theorem Unlinked.addRelocation (h : table.Unlinked) {warnings warned : List Warning}
    {raw : RawRelocation} (hadd : addRelocation (table, warnings) raw = .ok (after, warned)) :
    after.Unlinked := by
  obtain rfl | ⟨base, claimed, claimedTable, hclaim, rfl⟩ := addRelocation_ok hadd
  · exact h
  · refine (h.claim hclaim).update fun record hrecord => ⟨hrecord.instr, fun hreloc => ?_⟩
    obtain rfl := Option.some.inj hreloc
    exact ⟨rfl, rfl⟩

/-- What holds of the table of the symbols and is kept as relocations are added holds of the table that is
read from the object. -/
theorem load_of_symbols {p : SymbolTable → Prop} {symbols : List RawSymbol}
    {relocations : List RawRelocation} {warnings : List Warning} (hsymbols : p (ofRawSymbols symbols))
    (hadd : ∀ table warnings raw after warned, p table →
      addRelocation (table, warnings) raw = .ok (after, warned) → p after)
    (h : load symbols relocations = .ok (table, warnings)) : p table := by
  have hadds : ∀ (relocations : List RawRelocation) (state : SymbolTable × List Warning),
      p state.1 → ∀ after, relocations.foldlM addRelocation state = .ok after → p after.1 := by
    intro relocations
    induction relocations with
    | nil =>
      intro state hstate after hafter
      rw [List.foldlM_nil, pure_eq_ok] at hafter
      exact hafter ▸ hstate
    | cons raw relocations ih =>
      intro state hstate after hafter
      rw [List.foldlM_cons, bind_eq_ok] at hafter
      obtain ⟨next, hnext, hafter⟩ := hafter
      exact ih next (hadd state.1 state.2 raw next.1 next.2 hstate hnext) after hafter
  exact hadds relocations _ hsymbols _ h

/-- What holds of the empty table and is kept as symbols are pushed and relocations are added holds of
every table that is read from an object. -/
theorem load_induct {p : SymbolTable → Prop} (hempty : p .empty)
    (hpush : ∀ table id index raw, p table → p (table.push (.ofRaw id index raw)).2)
    (hadd : ∀ table warnings raw after warned, p table →
      addRelocation (table, warnings) raw = .ok (after, warned) → p after)
    {symbols : List RawSymbol} {relocations : List RawRelocation} {warnings : List Warning}
    (h : load symbols relocations = .ok (table, warnings)) : p table :=
  load_of_symbols (List.foldlRecOn (motive := p) _ _ hempty fun table htable entry _ =>
    hpush table _ _ entry.1 htable) hadd h

/-- The table without records has nothing to be linked. -/
theorem empty_unlinked : empty.Unlinked where
  nodup := List.nodup_nil
  listed id hid := absurd hid List.not_mem_nil
  untied hrecord := by cases hrecord

/-- A symbol as it is read names no instruction. -/
theorem ofRaw_untied {index : UInt32} {raw : RawSymbol} : (Symbol.ofRaw id index raw).Untied :=
  ⟨rfl, fun hreloc => by cases hreloc⟩

/-- What is read from an object names no instruction. -/
theorem load_unlinked {symbols : List RawSymbol} {relocations : List RawRelocation}
    {warnings : List Warning} (h : load symbols relocations = .ok (table, warnings)) :
    table.Unlinked :=
  load_induct empty_unlinked (fun _ _ _ _ htable => htable.push ofRaw_untied)
    (fun _ _ _ _ _ htable => htable.addRelocation) h

end SymbolTable

end Splice
