import Splice.Proofs.Block.Division
import Splice.Proofs.Program.InPlace
import Splice.Proofs.Program.Widening

/-!
# Finding the block of an instruction

A block is found by comparing addresses, which wrap around. In code that is laid out back
to back, in sections that fit into the address space (`Program.Addressed`), the block
that is found for an instruction holds it, if the block lies within one section
(`Addressed.of_find`). A block whose addresses wrap around is found for nothing.

> `Addressed.of_find`: a block that is found for an instruction, if it lies within one section,
> holds it.

The comparison is followed in natural numbers: the address of an instruction is the base of its
section and the bytes in front, modulo the size of the address space (`toNat_endAddr`). An
instruction that is found between the beginning and the end of a block, as they compare, cannot
lie outside of it, because the section has no more bytes than there are addresses. That a block
is found at all is not claimed.
-/

namespace Splice

/-- The code is laid out back to back, no instruction is empty, and no section is larger than the address
space. -/
structure Program.Addressed (program : Program) (l : List InstrId) : Prop where
  spells : program.chain.Spells l
  attached : program.chain.Attached l
  laidOut : program.LaidOut l
  filled : ∀ id ∈ l, 0 < program.lengths id
  room : ∀ sec, program.bytesIn sec program.lengths l ≤ 2 ^ 64

/-- All instructions of the run belong to the section. -/
def Chain.Within (chain : Chain) (sec : SectionId) (run : List InstrId) : Prop :=
  ∀ id ∈ run, chain.inSection sec id = true

instance (chain : Chain) (sec : SectionId) (run : List InstrId) : Decidable (chain.Within sec run) :=
  inferInstanceAs (Decidable (∀ id ∈ run, _))

/-- An address is that of the section and the number of bytes in front, as far as there are addresses. -/
theorem Program.LaidOut.toNat_addr {program : Program} {front rest : List InstrId} {id : InstrId}
    {instr : Instruction} (h : program.LaidOut (front ++ id :: rest)) (hid : program.chain.get? id = some instr) :
    instr.addr.toNat = (((program.bases.lookup instr.sec).getD 0).toNat
      + program.bytesIn instr.sec program.lengths front) % 2 ^ 64 := by
  rw [h front id rest instr rfl hid, place, extent_eq_bytesIn, UInt64.toNat_add,
    UInt64.toNat_ofNat', Nat.add_mod_mod]

namespace Program.Addressed

variable {program : Program} {l us run vs front rest : List InstrId} {id : InstrId} {sec : SectionId}
  {instr first last : Instruction} {graph : BlockGraph} {parts : List Part} {part : Part}

/-- An instruction ends behind the bytes up to it in its section. -/
theorem toNat_endAddr (h : program.Addressed (front ++ id :: rest)) (hid : program.chain.get? id = some instr) :
    instr.endAddr.toNat = (((program.bases.lookup instr.sec).getD 0).toNat
      + program.bytesIn instr.sec program.lengths (front ++ [id])) % 2 ^ 64 := by
  have hsec : program.chain.inSection instr.sec id = true := (Chain.inSection_iff hid).mpr rfl
  have hsize : instr.size.toNat = program.lengths id % 2 ^ 64 := by
    rw [lengths_eq hid, Instruction.size, UInt64.toNat_ofNat']
  rw [Instruction.endAddr, UInt64.toNat_add, h.laidOut.toNat_addr hid, hsize, bytesIn_append, bytesIn_cons hsec]
  have hnil : program.bytesIn instr.sec program.lengths [] = 0 := rfl
  omega

/-- Within a section, what an address lies over tells where in the code it is. -/
theorem mem_of_addr (h : program.Addressed (us ++ run ++ vs)) (hrun : program.chain.Within sec run)
    {x y : InstrId} (hx : run.head? = some x) (hy : run.getLast? = some y)
    (hfirst : program.chain.get? x = some first) (hlast : program.chain.get? y = some last)
    (hid : program.chain.get? id = some instr) (hsec : instr.sec = sec)
    (hle : first.addr ≤ instr.addr) (hlt : instr.addr < last.endAddr) : id ∈ run := by
  have hmem : id ∈ us ++ run ++ vs := h.attached id (by
    rw [Chain.contains_eq_isSome_get?, hid]
    rfl)
  obtain ⟨after, rfl⟩ := List.head?_eq_some_iff.mp hx
  obtain ⟨before, hrunEq⟩ := List.getLast?_eq_some_iff.mp hy
  have hfirstSec : first.sec = sec :=
    (Chain.inSection_iff hfirst).mp (hrun x (List.mem_cons_self ..))
  have hlastSec : last.sec = sec :=
    (Chain.inSection_iff hlast).mp (hrun y (List.mem_of_getLast? hy))
  have hstart : program.Addressed (us ++ x :: (after ++ vs)) := by simpa using h
  have hstop : program.Addressed ((us ++ before) ++ y :: vs) := by simpa [hrunEq] using h
  have hfrom := hstart.laidOut.toNat_addr hfirst
  have hto := hstop.toNat_endAddr hlast
  rw [hfirstSec] at hfrom
  rw [List.append_assoc, ← hrunEq, hlastSec, bytesIn_append] at hto
  rw [UInt64.le_iff_toNat_le] at hle
  rw [UInt64.lt_iff_toNat_lt] at hlt
  have hbase := ((program.bases.lookup sec).getD 0).toNat_lt
  have hroom := h.room sec
  rw [bytesIn_append, bytesIn_append] at hroom
  have hfilled := h.filled id hmem
  have hown : program.chain.inSection sec id = true := (Chain.inSection_iff hid).mpr hsec
  -- an instruction in front of the run ends before it, and one behind begins after it
  rcases mem_mid_iff.mp hmem with hin | hout
  · exact hin
  · rcases List.mem_append.mp hout with hfront | hbehind
    · obtain ⟨front, rest, rfl⟩ := List.append_of_mem hfront
      have hat : program.Addressed (front ++ id :: (rest ++ (x :: after) ++ vs)) := by simpa using h
      have hplace := hat.laidOut.toNat_addr hid
      rw [hsec] at hplace
      rw [bytesIn_append, bytesIn_cons hown] at hfrom hto hroom
      omega
    · obtain ⟨front, rest, rfl⟩ := List.append_of_mem hbehind
      have hat : program.Addressed ((us ++ (x :: after) ++ front) ++ id :: rest) := by simpa using h
      have hplace := hat.laidOut.toNat_addr hid
      rw [hsec, bytesIn_append, bytesIn_append] at hplace
      have hrest : program.bytesIn sec program.lengths (front ++ id :: rest)
          = program.bytesIn sec program.lengths front
            + (program.lengths id + program.bytesIn sec program.lengths rest) := by
        rw [bytesIn_append, bytesIn_cons hown]
      omega

end Program.Addressed

/-! ## What is found -/

namespace BlockGraph

variable {graph : BlockGraph} {chain : Chain} {id : BlockId} {block : Block} {sec other : SectionId}
  {addr : UInt64} {instr : InstrId} {first last found : Instruction} {parts : List Part}

/-- A section that is indexed has a rank of its own. -/
theorem rank_inj (h : sec ∈ graph.sections) (hrank : graph.rank sec = graph.rank other) : sec = other := by
  have hother : graph.sections.idxOf other < graph.sections.length := by
    rw [← show graph.sections.idxOf sec = graph.sections.idxOf other from hrank]
    exact List.idxOf_lt_length_of_mem h
  have hmem : other ∈ graph.sections := List.idxOf_lt_length_iff.mp hother
  rw [← List.getElem_idxOf (List.idxOf_lt_length_of_mem h), ← List.getElem_idxOf hother]
  congr 1

/-- A block that is found for an instruction holds it. -/
def Finds (graph : BlockGraph) (chain : Chain) (parts : List Part) : Prop :=
  ∀ part ∈ parts, ∀ instr, graph.find chain instr = .ok (some part.id) → instr ∈ part.run

/-- Where a place lies relative to a block, by the ends of the block. -/
theorem position_eq {place : Nat × UInt64} (hblock : graph.block? id = some block)
    (hfirst : chain.get? block.first = some first) (hlast : chain.get? block.last = some last) :
    graph.position chain place id
      = if precedes place (graph.rank first.sec, first.addr) then .gt
        else if precedes place (graph.rank last.sec, last.endAddr) then .eq else .lt := by
  have hends : (do
      let block ← graph.block? id
      return (← chain.get? block.first, ← chain.get? block.last)) = some (first, last) := by
    simp [hblock, hfirst, hlast]
  unfold position
  simp only [hends]

/-- Within a section, places are compared by their addresses. -/
theorem position_eq_iff (hblock : graph.block? id = some block)
    (hfirst : chain.get? block.first = some first) (hlast : chain.get? block.last = some last) :
    graph.position chain (graph.rank sec, addr) id = .eq
      ↔ precedes (graph.rank sec, addr) (graph.rank first.sec, first.addr) = false
        ∧ precedes (graph.rank sec, addr) (graph.rank last.sec, last.endAddr) = true := by
  rw [position_eq hblock hfirst hlast]
  cases precedes (graph.rank sec, addr) (graph.rank first.sec, first.addr) <;>
    cases precedes (graph.rank sec, addr) (graph.rank last.sec, last.endAddr) <;> simp

/-- What is found is a block that lies over the address, in a section that the graph ranks. -/
theorem findAddr?_some (hcuts : graph.Cuts parts) (h : graph.findAddr? chain sec addr = some id) :
    id ∈ parts.map (·.id) ∧ sec ∈ graph.sections ∧ graph.position chain (graph.rank sec, addr) id = .eq := by
  unfold findAddr? at h
  split at h
  next hsec =>
    obtain ⟨hmem, hposition⟩ := hcuts.tree.of_find? h
    exact ⟨hmem, List.contains_iff_mem.mp hsec, hposition⟩
  next => cases h

/-- A search that finds a block found one of the parts, at which the address is neither in front nor
behind. -/
theorem find_ok (hcuts : graph.Cuts parts) (h : graph.find chain instr = .ok (some id)) :
    id ∈ parts.map (·.id) ∧ ∃ found, chain.get? instr = some found ∧ found.sec ∈ graph.sections
      ∧ graph.position chain (graph.rank found.sec, found.addr) id = .eq := by
  unfold find at h
  split at h
  next found hget =>
    obtain ⟨hmem, hsec, hposition⟩ := findAddr?_some hcuts (Except.ok.inj h)
    exact ⟨hmem, found, hget, hsec, hposition⟩
  next => cases h

end BlockGraph

/-- A block within one section holds the instructions that it is found for. -/
theorem Program.Addressed.of_find {program : Program} {graph : BlockGraph} {parts : List Part} {part : Part}
    {sec : SectionId} {instr : InstrId} (h : program.Addressed (Part.code parts))
    (hcuts : graph.Cuts parts) (hpart : part ∈ parts) (hwithin : program.chain.Within sec part.run)
    (hfind : graph.find program.chain instr = .ok (some part.id)) : instr ∈ part.run := by
  obtain ⟨-, found, hfound, hlisted, hposition⟩ := BlockGraph.find_ok hcuts hfind
  obtain ⟨id, run⟩ := part
  obtain ⟨ps, qs, rfl⟩ := List.append_of_mem hpart
  obtain ⟨block, hblock, hfits⟩ := hcuts.bounds
  have hcode : program.Addressed (Part.code ps ++ run ++ Part.code qs) := by
    rw [Part.code_append, Part.code_cons, ← List.append_assoc] at h
    exact h
  obtain ⟨first, hfirst⟩ := hcode.spells.get?_isSome
    (mem_mid_iff.mpr (.inl (List.mem_of_head? hfits.first)))
  obtain ⟨last, hlast⟩ := hcode.spells.get?_isSome
    (mem_mid_iff.mpr (.inl (List.mem_of_getLast? hfits.last)))
  have hfirstSec := (Chain.inSection_iff hfirst).mp (hwithin _ (List.mem_of_head? hfits.first))
  have hlastSec := (Chain.inSection_iff hlast).mp (hwithin _ (List.mem_of_getLast? hfits.last))
  obtain ⟨hfrom, hto⟩ := (BlockGraph.position_eq_iff hblock hfirst hlast).mp hposition
  rw [hfirstSec] at hfrom
  rw [hlastSec] at hto
  simp only [BlockGraph.precedes, Bool.or_eq_false_iff, Bool.or_eq_true, Bool.and_eq_true,
    decide_eq_true_eq, decide_eq_false_iff_not, beq_iff_eq, Bool.and_eq_false_imp] at hfrom hto
  obtain ⟨hnot, hfrom⟩ := hfrom
  obtain ⟨hrank, hto⟩ := hto.resolve_left hnot
  exact hcode.mem_of_addr hwithin hfits.first hfits.last hfirst hlast hfound
    (BlockGraph.rank_inj hlisted hrank) (UInt64.not_lt.mp (hfrom hrank)) hto

end Splice
