import Mathlib.Data.List.Nodup
import Mathlib.Data.List.Pairwise
import Splice.Proofs.Symbol.Grouping

/-!
# The order in which records are written out

The records of a symbol are stored wherever there was room, and written out together. That
rests on two facts about the runs of a table: every record is listed once, and every run
consists of a base record and its duplicates (`Arranged`). Both hold of the empty table, and
pushing a symbol and claiming a record keep them, so they hold after any calls on a table
that was read from an object. What the order promises follows from them (`Contiguous`): the
run of a record is the stretch of all records of its symbol, and the position of a record is
its place in the whole order.

A record that was handed out is marked, and the mark stays. A claim hands out a record
without the mark: the base record of the symbol, or a new one at the end of its run. So no
record is ever handed out twice (`Arranged.claims`).
-/

namespace Splice

/-- A call that adds to a table. -/
inductive SymbolCall where
  /-- Add a symbol. -/
  | push (symbol : Symbol)
  /-- Hand out a record of the symbol of `id`. -/
  | claim (id : SymbolId)

namespace SymbolTable

variable {table after last : SymbolTable} {id base claimed : SymbolId} {record : Symbol}
  {run : List SymbolId}

/-! ## Tables in which every record is listed once -/

/-- Every record is listed once, and every run is the run of one symbol. -/
structure Arranged (table : SymbolTable) : Prop where
  once : table.ids.Perm ((List.range table.size).map Handle.mk)
  grouped : table.Grouped

theorem rank?_of_get? (h : table.get? id = some record) :
    table.rank? id = some (record.base, record.duplicate) :=
  congrArg (Option.map Symbol.rank) h

theorem index_lt_of_get? (h : table.get? id = some record) : id.index < table.size :=
  (Array.getElem?_eq_some_iff.mp h).1

theorem exists_get? (h : id.index < table.size) : ∃ record, table.get? id = some record :=
  ⟨table.records[id.index], Array.getElem?_eq_getElem h⟩

theorem empty_arranged : empty.Arranged where
  once := .nil
  grouped _ hrun := absurd hrun List.not_mem_nil

namespace Arranged

/-- The records that are listed are those that the table holds. -/
theorem mem_ids (h : table.Arranged) : id ∈ table.ids ↔ id.index < table.size := by
  rw [h.once.mem_iff, List.mem_map]
  constructor
  · intro hid
    obtain ⟨index, hindex, rfl⟩ := hid
    exact List.mem_range.mp hindex
  · intro hid
    exact ⟨id.index, List.mem_range.mpr hid, rfl⟩

theorem nodup (h : table.Arranged) : table.ids.Nodup := by
  rw [h.once.nodup_iff, List.nodup_iff_pairwise_ne, List.pairwise_map]
  exact List.nodup_range.imp fun hne he => hne (congrArg Handle.index he)

/-- A record that is stored keeps the table arranged, if it is listed once and its run is that of its
symbol. -/
theorem store (h : table.Arranged) {symbol : Symbol} {runs : List (List SymbolId)} {count : Nat}
    (hruns : runs.flatten.Perm (⟨table.size⟩ :: table.ids))
    (hgrouped : (SymbolTable.mk (table.records.push symbol) runs count).Grouped) :
    (SymbolTable.mk (table.records.push symbol) runs count).Arranged where
  once := by
    have hsize : (SymbolTable.mk (table.records.push symbol) runs count).size = table.size + 1 :=
      Array.size_push ..
    rw [hsize, List.range_succ, List.map_append]
    exact hruns.trans ((h.once.cons _).trans (List.perm_append_singleton _ _).symm)
  grouped := hgrouped

/-- To change a record without its rank keeps the table arranged. -/
theorem update (h : table.Arranged) {f : Symbol → Symbol}
    (hf : ∀ record : Symbol, (f record).rank = record.rank) : (table.update id f).Arranged where
  once := by
    have hsize : (table.update id f).size = table.size := Array.size_modify ..
    rw [hsize]
    exact h.once
  grouped := h.grouped.update hf

/-- To push a symbol keeps the table arranged. -/
theorem push (h : table.Arranged) (symbol : Symbol) : (table.push symbol).2.Arranged := by
  refine h.store ?_ (h.grouped.push (fun _ => h.mem_ids.mp) symbol)
  rw [List.flatten_append]
  exact List.perm_append_comm

/-- To claim a record keeps the table arranged. -/
theorem claim (h : table.Arranged) (hclaim : table.claim id = .ok (claimed, after)) :
    after.Arranged := by
  have hgrouped := h.grouped.claim (fun _ => h.mem_ids.mp) hclaim
  obtain ⟨found, -, ⟨-, rfl⟩ | ⟨front, run, behind, last, hruns, -, -, -, rfl⟩⟩ := claim_ok hclaim
  · exact h.update fun _ => rfl
  · refine h.store ?_ hgrouped
    rw [ids, hruns]
    simp only [List.flatten_append, List.flatten_cons, List.append_assoc]
    exact (List.perm_middle.append_left _).trans List.perm_middle

/-! ## Where a record stands -/

/-- The run that is found for a record, and where it stands among the runs. -/
theorem runOf? (h : table.Arranged) (hrecord : table.get? id = some record) :
    ∃ front rest behind, table.runs = front ++ (record.base :: rest) :: behind
      ∧ id ∈ record.base :: rest ∧ table.IsRun (record.base :: rest)
      ∧ table.runOf? record.base = some (front.length, record.base :: rest) := by
  have hid := h.mem_ids.mpr (index_lt_of_get? hrecord)
  obtain ⟨run, hrun, hid⟩ := List.mem_flatten.mp hid
  have hrank := rank?_of_get? hrecord
  have hgrouped := h.grouped run hrun
  obtain ⟨rest, rfl⟩ : ∃ rest, run = record.base :: rest := by
    cases run with
    | nil => cases hgrouped
    | cons base rest =>
      obtain ⟨duplicate, hbase⟩ := hgrouped.rank_of_mem hid
      rw [hrank, Option.some.injEq, Prod.mk.injEq] at hbase
      exact ⟨rest, by rw [hbase.1]⟩
  obtain ⟨front, behind, hruns⟩ := List.append_of_mem hrun
  refine ⟨front, rest, behind, hruns, hid, hgrouped, ?_⟩
  -- no run in front begins with the base record, which is listed once
  have hfront : front.findIdx? (fun run => run.head? == some record.base) = none := by
    rw [List.findIdx?_eq_none_iff]
    intro other hother
    rw [beq_eq_false_iff_ne]
    intro hhead
    have hnodup := h.nodup
    rw [ids, hruns, List.flatten_append, List.nodup_append] at hnodup
    exact hnodup.2.2 record.base (List.mem_flatten.mpr ⟨other, hother, List.mem_of_head? hhead⟩)
      record.base (List.mem_flatten.mpr ⟨_, List.mem_cons_self .., List.mem_cons_self ..⟩) rfl
  have hnumber : table.runs.findIdx? (fun run => run.head? == some record.base)
      = some front.length := by
    rw [hruns, List.findIdx?_append, hfront, List.findIdx?_cons]
    simp
  have hget : table.runs[front.length]? = some (record.base :: rest) := by
    rw [hruns, List.getElem?_append_right (Nat.le_refl _), Nat.sub_self]
    rfl
  rw [SymbolTable.runOf?, hnumber]
  simp only [Option.bind_eq_bind, Option.bind_some, hget]
  rfl

end Arranged

/-- Each symbol has one stretch of the order of a table, which is its run, and records know where they
stand. -/
structure Contiguous (table : SymbolTable) : Prop where
  /-- Every record is listed exactly once. -/
  once : table.ids.Perm ((List.range table.size).map Handle.mk)
  /-- The records of a symbol are its base record and duplicates behind it, with no other records in
  between and none elsewhere. -/
  stretch : ∀ {id record}, table.get? id = some record → ∃ front rest behind,
    table.ids = front ++ (record.base :: rest) ++ behind
      ∧ table.run id = .ok (record.base :: rest)
      ∧ table.rank? record.base = some (record.base, false)
      ∧ (∀ other ∈ rest, table.rank? other = some (record.base, true))
      ∧ ∀ other ∈ front ++ behind, ∀ stray, table.get? other = some stray → stray.base ≠ record.base
  /-- The position of a record is its place in the order. -/
  position : ∀ {id}, id ∈ table.ids → table.position? id = some (table.ids.idxOf id)

/-- The run of a record is the one that is found for its base record. -/
theorem run_of_runOf? {number : Nat} (hrecord : table.get? id = some record)
    (hfound : table.runOf? record.base = some (number, run)) : table.run id = .ok run := by
  rw [SymbolTable.run, get_ok.mpr hrecord]
  simp only [bind, Except.bind, hfound]
  rfl

namespace Arranged

/-- The position of a record is its place in the order of the table. -/
theorem position?_eq (h : table.Arranged) (hid : id ∈ table.ids) :
    table.position? id = some (table.ids.idxOf id) := by
  obtain ⟨record, hrecord⟩ := exists_get? (h.mem_ids.mp hid)
  obtain ⟨front, rest, behind, hruns, hmem, -, hfound⟩ := h.runOf? hrecord
  have hnodup := h.nodup
  rw [ids, hruns, List.flatten_append, List.flatten_cons, List.nodup_append] at hnodup
  have hfront : id ∉ front.flatten := fun hin =>
    hnodup.2.2 id hin id (List.mem_append_left _ hmem) rfl
  obtain ⟨place, hplace⟩ := Option.isSome_iff_exists.mp (List.isSome_idxOf?.mpr hmem)
  have htake : table.runs.take front.length = front := by
    rw [hruns, List.take_left]
  rw [ids, hruns, List.flatten_append, List.flatten_cons, List.idxOf_append_of_notMem hfront,
    List.idxOf_append_of_mem hmem, List.idxOf_eq_getD_idxOf?, hplace, position?, hrecord]
  simp only [Option.bind_eq_bind, Option.bind_some, hfound, htake, hplace]
  rfl

/-- A run is the stretch of all records of its symbol. -/
theorem contiguous (h : table.Arranged) : table.Contiguous where
  once := h.once
  stretch := by
    intro id record hrecord
    obtain ⟨front, rest, behind, hruns, hmem, hrun, hfound⟩ := h.runOf? hrecord
    have hids : table.ids = front.flatten ++ (record.base :: rest) ++ behind.flatten := by
      rw [ids, hruns, List.flatten_append, List.flatten_cons, List.append_assoc]
    refine ⟨front.flatten, rest, behind.flatten, hids, run_of_runOf? hrecord hfound, hrun.1, hrun.2,
      fun other hother stray hstray hbase => ?_⟩
    -- a record of the same symbol is found in the same run, and it is listed once
    obtain ⟨_, rest', _, -, hin, -, hfound'⟩ := h.runOf? hstray
    rw [hbase, hfound, Option.some.injEq, Prod.mk.injEq, List.cons_inj_right] at hfound'
    rw [hbase, ← hfound'.2] at hin
    have hnodup := h.nodup
    rw [hids, List.append_assoc, List.nodup_append, List.nodup_append] at hnodup
    obtain ⟨-, ⟨-, -, hbehind⟩, hfront⟩ := hnodup
    rcases List.mem_append.mp hother with hother | hother
    · exact hfront other hother other (List.mem_append_left _ hin) rfl
    · exact hbehind other hin other hother rfl
  position := h.position?_eq

theorem verifySymbols_ok (h : table.Arranged) {program : Program} (hprogram : program.symbols = table) :
    program.verifySymbols = .ok () := by
  subst hprogram
  exact Program.verifySymbols_ok h.grouped h.nodup

end Arranged

/-! ## Runs that are found -/

/-- The run of a record begins with the base record of its symbol and is one of the runs of the table. -/
theorem run_eq_ok (h : table.run id = .ok run) : ∃ record rest, table.get? id = some record
    ∧ run = record.base :: rest ∧ run ∈ table.runs := by
  simp only [SymbolTable.run, bind_eq_ok, get_ok] at h
  obtain ⟨record, hrecord, h⟩ := h
  split at h
  next number found hfound =>
    obtain rfl : found = run := pure_eq_ok.mp h
    obtain ⟨hhead, front, behind, hruns, -⟩ := runOf?_split hfound
    obtain ⟨rest, rfl⟩ := List.head?_eq_some_iff.mp hhead
    exact ⟨record, rest, hrecord, rfl, hruns ▸ List.mem_append_right _ (List.mem_cons_self ..)⟩
  next => cases h

/-- Two runs with a record in common are one. -/
theorem Arranged.run_unique {other : List SymbolId} (h : table.Arranged) (hrun : run ∈ table.runs)
    (hother : other ∈ table.runs) (hid : id ∈ run) (hid' : id ∈ other) : run = other := by
  by_contra hne
  have hsymm : Std.Symm fun run other : List SymbolId => run.Disjoint other :=
    ⟨fun _ _ hdisjoint _ hid hid' => hdisjoint hid' hid⟩
  exact (List.nodup_flatten.mp h.nodup).2.forall hrun hother hne hid hid'

/-- A run that begins with the base record of a record is its run. -/
theorem Arranged.run_of_mem {rest : List SymbolId} (h : table.Arranged)
    (hrecord : table.get? id = some record) (hbase : record.base = base)
    (hrun : base :: rest ∈ table.runs) : table.run id = .ok (base :: rest) := by
  subst hbase
  obtain ⟨front, rest', behind, hruns, -, -, hfound⟩ := h.runOf? hrecord
  have hfirst : record.base :: rest' ∈ table.runs := hruns ▸ List.mem_append_right _ (List.mem_cons_self ..)
  rw [run_of_runOf? hrecord hfound,
    h.run_unique hfirst hrun (List.mem_cons_self ..) (List.mem_cons_self ..)]

/-! ## Claims -/

/-- The record has been handed out. -/
def Taken (table : SymbolTable) (id : SymbolId) : Prop :=
  ∃ record, table.get? id = some record ∧ record.referenced = true

/-- The table has got more records: those that were there keep their order and their runs, which may
have got longer, and what was handed out stays so. -/
structure Extends (table after : SymbolTable) : Prop where
  ids : table.ids.Sublist after.ids
  run : ∀ {id run}, table.run id = .ok run → ∃ more, after.run id = .ok (run ++ more)
  taken : ∀ {id}, table.Taken id → after.Taken id

/-- A table extends itself. -/
theorem Extends.refl (table : SymbolTable) : table.Extends table where
  ids := .refl _
  run hrun := ⟨[], by rw [List.append_nil]; exact hrun⟩
  taken htaken := htaken

/-- To extend a table twice is to extend it. -/
theorem Extends.trans (h : table.Extends after) (k : after.Extends last) : table.Extends last where
  ids := h.ids.trans k.ids
  run := by
    intro id run hrun
    obtain ⟨more, hmore⟩ := h.run hrun
    obtain ⟨most, hmost⟩ := k.run hmore
    exact ⟨more ++ most, by rw [← List.append_assoc]; exact hmost⟩
  taken htaken := k.taken (h.taken htaken)

/-- The records that are there keep their ranks, and what was handed out stays so. -/
theorem Arranged.extended (hafter : after.Arranged)
    (hids : table.ids.Sublist after.ids)
    (hkept : ∀ {id record}, table.get? id = some record → ∃ record', after.get? id = some record'
      ∧ record'.base = record.base ∧ (record.referenced = true → record'.referenced = true))
    (hruns : ∀ run ∈ table.runs, ∃ more, run ++ more ∈ after.runs) : table.Extends after where
  ids := hids
  run := by
    intro id run hrun
    obtain ⟨record, rest, hrecord, rfl, hmem⟩ := run_eq_ok hrun
    obtain ⟨record', hrecord', hbase, -⟩ := hkept hrecord
    obtain ⟨more, hmore⟩ := hruns _ hmem
    exact ⟨more, hafter.run_of_mem hrecord' hbase hmore⟩
  taken := by
    intro id htaken
    obtain ⟨record, hrecord, hreferenced⟩ := htaken
    obtain ⟨record', hrecord', -, hkept⟩ := hkept hrecord
    exact ⟨record', hrecord', hkept hreferenced⟩

/-- A symbol that is pushed comes behind everything that is there. -/
theorem Arranged.push_extends (h : table.Arranged) (symbol : Symbol) :
    table.Extends (table.push symbol).2 := by
  refine (h.push symbol).extended ?_ ?_ ?_
  · show table.ids.Sublist (table.runs ++ [[(⟨table.size⟩ : SymbolId)]]).flatten
    rw [List.flatten_append]
    exact List.sublist_append_left ..
  · intro id record hrecord
    refine ⟨record, ?_, rfl, fun hreferenced => hreferenced⟩
    refine (get?_pushed id).trans ?_
    rw [if_neg (Nat.ne_of_lt (index_lt_of_get? hrecord))]
    exact hrecord
  · intro run hrun
    exact ⟨[], by rw [List.append_nil]; exact List.mem_append_left _ hrun⟩

/-- What a claim does: it hands out a record that had not been handed out. -/
structure Hands (table : SymbolTable) (claimed : SymbolId) (after : SymbolTable) : Prop where
  arranged : after.Arranged
  more : table.Extends after
  fresh : ¬ table.Taken claimed
  taken : after.Taken claimed

/-- A base record that was not handed out is marked. -/
theorem Arranged.hands_base {root : Symbol} (h : table.Arranged) (hroot : table.get? base = some root)
    (hreferenced : root.referenced = false) :
    table.Hands base (table.update base fun symbol => { symbol with referenced := true }) where
  arranged := h.update fun _ => rfl
  more := by
    have hupdate : (table.update base fun symbol => { symbol with referenced := true }).Arranged :=
      h.update fun _ => rfl
    refine hupdate.extended (.refl _) ?_ fun run hrun => ?_
    · intro other record hrecord
      rw [get?_update]
      by_cases hother : other = base
      · rw [if_pos hother, ← hother, hrecord]
        exact ⟨_, rfl, rfl, fun _ => rfl⟩
      · rw [if_neg hother]
        exact ⟨record, hrecord, rfl, fun hreferenced => hreferenced⟩
    · exact ⟨[], by rw [List.append_nil]; exact hrun⟩
  fresh := by
    intro htaken
    obtain ⟨found, hfound, htaken⟩ := htaken
    rw [hroot, Option.some.injEq] at hfound
    rw [← hfound, hreferenced] at htaken
    cases htaken
  taken := ⟨_, by rw [get?_update, if_pos rfl, hroot]; rfl, rfl⟩

/-- Behind the last record of a run a new one is put, which is marked. -/
theorem Arranged.hands_new {front behind : List (List SymbolId)} {symbol : Symbol}
    (hruns : table.runs = front ++ run :: behind)
    (hafter : after = ⟨table.records.push (Symbol.duplicated symbol),
      front ++ (run ++ [⟨table.size⟩]) :: behind, table.baseCount⟩) (harranged : after.Arranged) :
    table.Hands ⟨table.size⟩ after where
  arranged := harranged
  more := by
    subst hafter
    refine harranged.extended ?_ ?_ fun other hother => ?_
    · rw [ids, ids, hruns]
      simp only [List.flatten_append, List.flatten_cons, List.append_assoc]
      refine (List.Sublist.refl _).append ((List.Sublist.refl _).append ?_)
      exact List.sublist_append_right ..
    · intro id record hrecord
      refine ⟨record, ?_, rfl, fun hreferenced => hreferenced⟩
      rw [get?_pushed, if_neg (Nat.ne_of_lt (index_lt_of_get? hrecord))]
      exact hrecord
    · rw [hruns] at hother
      rcases List.mem_append.mp hother with hfront | hrest
      · exact ⟨[], by rw [List.append_nil]; exact List.mem_append_left _ hfront⟩
      rcases List.mem_cons.mp hrest with rfl | hbehind
      · exact ⟨[⟨table.size⟩], List.mem_append_right _ (List.mem_cons_self ..)⟩
      · refine ⟨[], ?_⟩
        rw [List.append_nil]
        exact List.mem_append_right _ (List.mem_cons_of_mem _ hbehind)
  fresh := by
    intro htaken
    obtain ⟨found, hfound, -⟩ := htaken
    exact Nat.lt_irrefl _ (index_lt_of_get? hfound)
  taken := ⟨Symbol.duplicated symbol, by rw [hafter, get?_pushed, if_pos rfl], rfl⟩

theorem last_mem (base : SymbolId) (rest : List SymbolId) (other : SymbolId) :
    (base :: rest).getLast?.getD other ∈ base :: rest := by
  rw [List.getLast?_eq_some_getLast (List.cons_ne_nil base rest)]
  exact List.getLast_mem _

/-- The first claim of a symbol's records. -/
theorem claim_first {root : Symbol} (hrecord : table.get? id = some record)
    (hroot : table.get? record.base = some root) (hreferenced : root.referenced = false) :
    table.claim id
      = .ok (record.base, table.update record.base fun symbol => { symbol with referenced := true }) := by
  simp only [SymbolTable.claim, bind_eq_ok, get_ok]
  refine ⟨record, hrecord, root, hroot, ?_⟩
  rw [hreferenced]
  rfl

/-- A later claim of a symbol's records. -/
theorem claim_again {root symbol : Symbol} {front behind : List (List SymbolId)}
    (hrecord : table.get? id = some record) (hroot : table.get? record.base = some root)
    (hreferenced : root.referenced = true) (hruns : table.runs = front ++ run :: behind)
    (hfound : table.runOf? record.base = some (front.length, run))
    (hlast : table.get? (run.getLast?.getD record.base) = some symbol) :
    table.claim id = .ok (⟨table.size⟩, ⟨table.records.push (Symbol.duplicated symbol),
      front ++ (run ++ [⟨table.size⟩]) :: behind, table.baseCount⟩) := by
  simp only [SymbolTable.claim, bind_eq_ok, get_ok]
  refine ⟨record, hrecord, root, hroot, ?_⟩
  simp only [hreferenced, Bool.not_true, Bool.false_eq_true, if_false, hfound, bind_eq_ok, get_ok]
  refine ⟨symbol, hlast, ?_⟩
  rw [hruns, List.set_append_right _ _ (Nat.le_refl _), Nat.sub_self, List.set_cons_zero]
  rfl

/-- A claim through any record of a symbol hands out its base record if that was not handed out before,
and else a new record at the end of its run. -/
theorem Arranged.claim_run (h : table.Arranged) (hrecord : table.get? id = some record) :
    ∃ root run claimed after, table.get? record.base = some root ∧ table.run id = .ok run
      ∧ table.claim id = .ok (claimed, after) ∧ table.Hands claimed after
      ∧ after.Taken record.base
      ∧ if root.referenced then claimed = ⟨table.size⟩ ∧ after.run id = .ok (run ++ [claimed])
        else claimed = record.base ∧ after.run id = .ok run := by
  obtain ⟨front, rest, behind, hruns, hmem, hrun, hfound⟩ := h.runOf? hrecord
  obtain ⟨root, hroot, hrank⟩ := Option.map_eq_some_iff.mp hrun.1
  have hown := run_of_runOf? hrecord hfound
  have hin : record.base :: rest ∈ table.runs := hruns ▸ List.mem_append_right _ (List.mem_cons_self ..)
  -- the base record is handed out once; from then on a new record is put to the end of the run
  by_cases hreferenced : root.referenced = true
  · obtain ⟨symbol, hsymbol⟩ : ∃ symbol,
        table.get? ((record.base :: rest).getLast?.getD record.base) = some symbol :=
      exists_get? (h.mem_ids.mp (List.mem_flatten.mpr ⟨_, hin, last_mem ..⟩))
    have hclaim := claim_again hrecord hroot hreferenced hruns hfound hsymbol
    have hhands := Arranged.hands_new hruns rfl (h.claim hclaim)
    refine ⟨root, _, _, _, hroot, hown, hclaim, hhands, hhands.more.taken ⟨root, hroot, hreferenced⟩, ?_⟩
    rw [if_pos hreferenced]
    refine ⟨rfl, hhands.arranged.run_of_mem ?_ rfl (List.mem_append_right _ (List.mem_cons_self ..))⟩
    rw [get?_pushed, if_neg (Nat.ne_of_lt (index_lt_of_get? hrecord))]
    exact hrecord
  · rw [Bool.not_eq_true] at hreferenced
    have hclaim := claim_first hrecord hroot hreferenced
    have hhands := h.hands_base hroot hreferenced
    refine ⟨root, _, _, _, hroot, hown, hclaim, hhands, hhands.taken, ?_⟩
    rw [hreferenced]
    refine ⟨rfl, ?_⟩
    have hkeeps : ∀ record : Symbol, ({ record with referenced := true } : Symbol).rank = record.rank :=
      fun _ => rfl
    obtain ⟨record', hrecord', hrank'⟩ := Option.map_eq_some_iff.mp
      ((rank?_update hkeeps id).trans (rank?_of_get? hrecord))
    exact hhands.arranged.run_of_mem hrecord' (congrArg Prod.fst hrank') hin

/-- No claim goes wrong that goes through a record of the table. -/
theorem Arranged.hands_of_claim (h : table.Arranged) (hclaim : table.claim id = .ok (claimed, after)) :
    table.Hands claimed after ∧ ∃ run, after.run id = .ok run ∧ claimed ∈ run := by
  obtain ⟨record, hrecord, -⟩ := claim_ok hclaim
  obtain ⟨root, run, claimed', after', -, hrun, hclaim', hhands, -, hresult⟩ := h.claim_run hrecord
  rw [hclaim, Except.ok.injEq, Prod.mk.injEq] at hclaim'
  obtain ⟨rfl, rfl⟩ := hclaim'
  refine ⟨hhands, ?_⟩
  split at hresult
  · exact ⟨_, hresult.2, List.mem_append_right _ (List.mem_singleton_self claimed)⟩
  · obtain ⟨record', rest, hrecord', rfl, -⟩ := run_eq_ok hrun
    rw [hrecord, Option.some.injEq] at hrecord'
    subst hrecord'
    exact ⟨_, hresult.2, hresult.1 ▸ List.mem_cons_self ..⟩

/-! ## Tables that were read -/

/-- To read one more relocation keeps the table arranged. -/
theorem Arranged.addRelocation (h : table.Arranged) {warnings warned : List Warning}
    {raw : RawRelocation} (hadd : addRelocation (table, warnings) raw = .ok (after, warned)) :
    after.Arranged := by
  obtain rfl | ⟨base, claimed, claimedTable, hclaim, rfl⟩ := addRelocation_ok hadd
  · exact h
  · exact (h.claim hclaim).update fun _ => rfl

theorem load_arranged {symbols : List RawSymbol} {relocations : List RawRelocation}
    {warnings : List Warning} (h : load symbols relocations = .ok (table, warnings)) : table.Arranged :=
  load_induct empty_arranged (fun _ _ _ _ htable => htable.push _)
    (fun _ _ _ _ _ htable => htable.addRelocation) h

/-- Positions of the object's list are records. -/
def Counted (table : SymbolTable) : Prop := table.baseCount ≤ table.size

/-- To push a symbol keeps every position that of a record. -/
theorem Counted.push (h : table.Counted) (symbol : Symbol) : (table.push symbol).2.Counted := by
  have hsize : (table.push symbol).2.size = table.size + 1 := Array.size_push ..
  rw [Counted, hsize]
  show (if table.baseCount = table.records.size then table.baseCount + 1 else table.baseCount) ≤ _
  unfold Counted at h
  split <;> omega

/-- To claim a record keeps every position that of a record. -/
theorem Counted.claim (h : table.Counted) (hclaim : table.claim id = .ok (claimed, after)) :
    after.Counted := by
  obtain ⟨found, -, ⟨-, rfl⟩ | ⟨front, run, behind, last, -, -, -, -, rfl⟩⟩ := claim_ok hclaim
  · have hsize : (table.update claimed fun symbol => { symbol with referenced := true }).size = table.size :=
      Array.size_modify ..
    rw [Counted, hsize]
    exact h
  · have hsize : (SymbolTable.mk (table.records.push (Symbol.duplicated last))
        (front ++ (run ++ [⟨table.size⟩]) :: behind) table.baseCount).size = table.size + 1 :=
      Array.size_push ..
    rw [Counted, hsize]
    exact Nat.le_succ_of_le h

/-- A relocation is given a record or reported. -/
theorem Arranged.addRelocation_succeeds (h : table.Arranged) (hcounted : table.Counted)
    (warnings : List Warning) (raw : RawRelocation) : ∃ after warned,
    SymbolTable.addRelocation (table, warnings) raw = .ok (after, warned) ∧ after.Counted := by
  unfold SymbolTable.addRelocation
  simp only
  cases hbase : table.byIndex? raw.symbol with
  | none => exact ⟨_, _, rfl, hcounted⟩
  | some base =>
    rw [byIndex?, Option.ite_none_right_eq_some, Option.some.injEq] at hbase
    obtain ⟨hlt, rfl⟩ := hbase
    have hindex : (⟨raw.symbol.toNat⟩ : SymbolId).index < table.size := Nat.lt_of_lt_of_le hlt hcounted
    obtain ⟨record, hrecord⟩ := exists_get? hindex
    obtain ⟨-, -, claimed, after, -, -, hclaim, -⟩ := h.claim_run hrecord
    simp only [hclaim]
    refine ⟨_, _, rfl, ?_⟩
    show after.baseCount ≤ (after.records.modify claimed.index _).size
    rw [Array.size_modify]
    exact hcounted.claim hclaim

/-- Every list of symbols and every list of relocations can be read. -/
theorem load_succeeds (symbols : List RawSymbol) (relocations : List RawRelocation) :
    ∃ table warnings, load symbols relocations = .ok (table, warnings) := by
  have hread : ∀ (relocations : List RawRelocation) (table : SymbolTable) (warnings : List Warning),
      table.Arranged → table.Counted →
      ∃ after warned, relocations.foldlM addRelocation (table, warnings) = .ok (after, warned) := by
    intro relocations
    induction relocations with
    | nil => exact fun table warnings _ _ => ⟨table, warnings, rfl⟩
    | cons raw relocations ih =>
      intro table warnings htable hcounted
      obtain ⟨next, warned, hadd, hnext⟩ := htable.addRelocation_succeeds hcounted warnings raw
      obtain ⟨after, warned', hrest⟩ := ih next warned (htable.addRelocation hadd) hnext
      exact ⟨after, warned', by rw [List.foldlM_cons, hadd]; exact hrest⟩
  have hsymbols : (ofRawSymbols symbols).Arranged ∧ (ofRawSymbols symbols).Counted :=
    List.foldlRecOn (motive := fun table : SymbolTable => table.Arranged ∧ table.Counted) _ _
      ⟨empty_arranged, Nat.le_refl 0⟩ fun _ htable _ _ => ⟨htable.1.push _, htable.2.push _⟩
  exact hread relocations _ [] hsymbols.1 hsymbols.2

/-! ## Calls -/

/-- The table after a call; one that is refused leaves it as it is. -/
def call (table : SymbolTable) : SymbolCall → SymbolTable
  | .push symbol => (table.push symbol).2
  | .claim id =>
    match table.claim id with
    | .ok (_, after) => after
    | .error _ => table

/-- What calls one after the other make of a table. -/
def reached (table : SymbolTable) (calls : List SymbolCall) : SymbolTable := calls.foldl call table

/-- The claims among the calls that are granted, each with the record that was asked for and the one that
was handed out. -/
def claims : SymbolTable → List SymbolCall → List (SymbolId × SymbolId)
  | _, [] => []
  | table, made :: calls =>
    let rest := claims (table.call made) calls
    match made with
    | .push _ => rest
    | .claim id =>
      match table.claim id with
      | .ok (claimed, _) => (id, claimed) :: rest
      | .error _ => rest

/-- Every call keeps the table arranged and extends it. -/
theorem Arranged.call (h : table.Arranged) (made : SymbolCall) :
    (table.call made).Arranged ∧ table.Extends (table.call made) := by
  cases made with
  | push symbol => exact ⟨h.push symbol, h.push_extends symbol⟩
  | claim id =>
    rw [SymbolTable.call]
    cases hclaim : table.claim id with
    | error => exact ⟨h, .refl table⟩
    | ok result =>
      obtain ⟨hhands, -⟩ := h.hands_of_claim hclaim
      exact ⟨hhands.arranged, hhands.more⟩

/-- All calls keep the table arranged and extend it. The induction is on the calls. -/
theorem Arranged.reached (h : table.Arranged) (calls : List SymbolCall) :
    (table.reached calls).Arranged ∧ table.Extends (table.reached calls) := by
  induction calls generalizing table with
  | nil => exact ⟨h, .refl table⟩
  | cons made calls ih =>
    obtain ⟨hcall, hmore⟩ := h.call made
    obtain ⟨hrest, hmost⟩ := ih hcall
    exact ⟨hrest, hmore.trans hmost⟩

/-- What is handed out had not been handed out before, and is among the records of the symbol that was
asked for. -/
theorem Arranged.claims (h : table.Arranged) (calls : List SymbolCall) :
    ((table.claims calls).map (·.2)).Nodup ∧ ∀ grant ∈ table.claims calls,
      ¬ table.Taken grant.2
        ∧ ∃ run, (table.reached calls).run grant.1 = .ok run ∧ grant.2 ∈ run := by
  -- what a call hands out is taken from then on, so later calls hand out something else
  induction calls generalizing table with
  | nil => exact ⟨List.nodup_nil, fun grant hgrant => absurd hgrant List.not_mem_nil⟩
  | cons made calls ih =>
    obtain ⟨hcall, hmore⟩ := h.call made
    obtain ⟨hnodup, hrest⟩ := ih hcall
    have hlater : ∀ grant ∈ (table.call made).claims calls, ¬ table.Taken grant.2
        ∧ ∃ run, (table.reached (made :: calls)).run grant.1 = .ok run ∧ grant.2 ∈ run :=
      fun grant hgrant => ⟨fun htaken => (hrest grant hgrant).1 (hmore.taken htaken), (hrest grant hgrant).2⟩
    cases made with
    | push symbol => exact ⟨hnodup, hlater⟩
    | claim id =>
      cases hclaim : table.claim id with
      | error =>
        simp only [SymbolTable.claims, hclaim]
        exact ⟨hnodup, hlater⟩
      | ok result =>
        obtain ⟨claimed, after⟩ := result
        obtain ⟨hhands, run, hrun, hin⟩ := h.hands_of_claim hclaim
        have hafter : table.call (.claim id) = after := by
          rw [SymbolTable.call, hclaim]
        obtain ⟨most, hmost⟩ := ((hafter ▸ hcall).reached calls).2.run hrun
        simp only [SymbolTable.claims, hclaim, List.map_cons, List.nodup_cons]
        refine ⟨⟨fun hmem => ?_, hnodup⟩, fun grant hgrant => ?_⟩
        · -- it is handed out now, so it is not handed out later
          obtain ⟨grant, hgrant, rfl⟩ := List.mem_map.mp hmem
          exact (hrest grant hgrant).1 (hafter ▸ hhands.taken)
        · rcases List.mem_cons.mp hgrant with rfl | hgrant
          · refine ⟨hhands.fresh, run ++ most, ?_, List.mem_append_left _ hin⟩
            show ((table.call (.claim id)).reached calls).run id = _
            rw [hafter]
            exact hmost
          · exact hlater grant hgrant

/-- Calls one after the other, and more of them. -/
theorem reached_append (table : SymbolTable) (calls later : List SymbolCall) :
    table.reached (calls ++ later) = (table.reached calls).reached later :=
  List.foldl_append

/-- After any calls on a table that was read from an object, the records of every symbol are one stretch
of the order in which the table is written out, and claims hand out different records of it: the base
record first and then new ones at its end. -/
theorem runs_along_calls (symbols : List RawSymbol) (relocations : List RawRelocation) :
    ∃ table warnings, load symbols relocations = .ok (table, warnings) ∧ ∀ calls,
      (table.reached calls).Contiguous
        ∧ (∀ program : Program, program.symbols = table.reached calls → program.verifySymbols = .ok ())
        ∧ (∀ id record, (table.reached calls).get? id = some record → ∃ root run claimed after,
          (table.reached calls).get? record.base = some root
            ∧ (table.reached calls).run id = .ok run
            ∧ (table.reached calls).claim id = .ok (claimed, after)
            ∧ after.Taken record.base
            ∧ if root.referenced then
                claimed = ⟨(table.reached calls).size⟩ ∧ after.run id = .ok (run ++ [claimed])
              else claimed = record.base ∧ after.run id = .ok run)
        ∧ ∀ later, (table.reached calls).ids.Sublist (table.reached (calls ++ later)).ids
          ∧ (((table.reached calls).claims later).map (·.2)).Nodup
          ∧ ∀ grant ∈ (table.reached calls).claims later,
            ∃ run, (table.reached (calls ++ later)).run grant.1 = .ok run ∧ grant.2 ∈ run := by
  obtain ⟨table, warnings, hload⟩ := load_succeeds symbols relocations
  refine ⟨table, warnings, hload, fun calls => ?_⟩
  obtain ⟨hreached, -⟩ := (load_arranged hload).reached calls
  refine ⟨hreached.contiguous, fun program hprogram => hreached.verifySymbols_ok hprogram, ?_, ?_⟩
  · intro id record hrecord
    obtain ⟨root, run, claimed, after, hroot, hrun, hclaim, -, htaken, hresult⟩ :=
      hreached.claim_run hrecord
    exact ⟨root, run, claimed, after, hroot, hrun, hclaim, htaken, hresult⟩
  · intro later
    rw [reached_append]
    obtain ⟨-, hmore⟩ := hreached.reached later
    obtain ⟨hnodup, hgrants⟩ := hreached.claims later
    exact ⟨hmore.ids, hnodup, fun grant hgrant => (hgrants grant hgrant).2⟩

end SymbolTable

end Splice
