import Splice.Proofs.Block.Leaders
import Splice.Proofs.Program.Ascent
import Splice.Proofs.Program.BlockWork

/-!
# Looking up the block of an address

The tree of the blocks is searched by the rank of a section and an address, which are read from the
code as it is at the time. After edits the code is laid out again, its sections are in the order
in which the graph ranks them, and each block lies within a section. So a block is found for
exactly the addresses that its instructions lie over, and for an address that no instruction of a
section lies over no block is found (`findAddr?_iff`). The block of each instruction is found in
particular (`lookup_of_edits`).

The condition is on the end alone: in the program that edits have led to, no section may wrap
around the end of the address space. On the way there it may, as long as there is room for the
code (`Program.Roomy`). What edits need of a search is only that a block which is found is the
right one, and they are refused otherwise (`Splice.Proofs.Program.Searching`).

> `brim_unfound`: an edit that succeeds can take code past the last address, and then no block
> is found for any instruction, though all checks pass.
-/

namespace Splice

/-- A program with blocks, each of which lies within a section, and the sections are ranked in the order
in which they come. -/
structure Program.Indexed (program : Program) (graph : BlockGraph) (parts : List Part) : Prop extends
    Program.Sectioned program graph parts [] where
  ranks : graph.Ranks program.chain (Part.code parts)

namespace Program.Indexed

variable {program : Program} {graph : BlockGraph} {parts : List Part} {part : Part} {sec : SectionId}
  {addr : UInt64} {name : BlockId}

theorem ordered (h : program.Indexed graph parts) (hunwrapped : program.chain.Unwrapped) :
    program.chain.Ordered (Part.code parts) :=
  h.sited.ordered h.filled hunwrapped

/-- An instruction of the block that is found lies over the address. -/
theorem exists_over (h : program.Indexed graph parts) (hunwrapped : program.chain.Unwrapped) (hpart : part ∈ parts)
    (hfind : graph.findAddr? program.chain sec addr = some part.id) :
    ∃ id ∈ part.run, ∃ instr, program.chain.get? id = some instr ∧ instr.sec = sec
      ∧ instr.addr.toNat ≤ addr.toNat ∧ addr.toNat < instr.addr.toNat + instr.bytes.length := by
  obtain ⟨-, hlisted, hposition⟩ := BlockGraph.findAddr?_some h.cuts hfind
  have hordered := h.ordered hunwrapped
  obtain ⟨own, hwithin⟩ := h.uniform part hpart
  obtain ⟨x, y, first, last, hx, hy, hfirst, hlast, hends⟩ := hordered.ends_of_part rfl h.cuts hpart
  have hfirstSec := (Chain.inSection_iff hfirst).mp (hwithin x (List.mem_of_head? hx))
  have hlastSec := (Chain.inSection_iff hlast).mp (hwithin y (List.mem_of_getLast? hy))
  have hmem : y ∈ Part.code parts := Part.mem_code.mpr ⟨part, hpart, List.mem_of_getLast? hy⟩
  -- the place lies between the ends of the block, so it is in the section of the block
  rw [hends, hfirstSec, hlastSec] at hposition
  obtain ⟨hfrom, hto⟩ : ¬ BlockGraph.precedes (graph.rank sec, addr) (graph.rank own, first.addr) = true
      ∧ BlockGraph.precedes (graph.rank sec, addr) (graph.rank own, last.endAddr) = true := by
    split at hposition
    next => cases hposition
    next hfrom =>
      split at hposition
      next hto => exact ⟨hfrom, hto⟩
      next => cases hposition
  rw [BlockGraph.precedes_iff] at hfrom hto
  obtain rfl : sec = own := BlockGraph.rank_inj hlisted (by omega)
  rw [hordered.toNat_endAddr hmem hlast] at hto
  obtain ⟨ps, qs, rfl⟩ := List.append_of_mem hpart
  have hcut : Part.code (ps ++ part :: qs) = Part.code ps ++ part.run ++ Part.code qs := by simp [Part.code]
  have hbegins : first.addr.toNat ≤ addr.toNat := by omega
  have hends : addr.toNat < last.addr.toNat + last.bytes.length := by omega
  obtain ⟨id, hid, instr, hinstr, hover⟩ := Program.exists_over (Program.owing_nil.mp h.sited.owing) h.spells
    hunwrapped hcut hwithin hx hy hfirst hlast hbegins hends
  exact ⟨id, hid, instr, hinstr, (Chain.inSection_iff hinstr).mp (hwithin id hid), hover⟩

/-- A block is found for an address of a section if and only if one of its instructions lies over it. -/
theorem findAddr?_iff (h : program.Indexed graph parts) (hunwrapped : program.chain.Unwrapped)
    (hpart : part ∈ parts) : graph.findAddr? program.chain sec addr = some part.id
      ↔ ∃ id ∈ part.run, ∃ instr, program.chain.get? id = some instr ∧ instr.sec = sec
        ∧ instr.addr.toNat ≤ addr.toNat ∧ addr.toNat < instr.addr.toNat + instr.bytes.length := by
  refine ⟨h.exists_over hunwrapped hpart, ?_⟩
  rintro ⟨id, hid, instr, hinstr, rfl, hfrom, hto⟩
  have hordered := h.ordered hunwrapped
  have hmem : id ∈ Part.code parts := Part.mem_code.mpr ⟨part, hpart, hid⟩
  refine hordered.findAddr?_eq rfl h.cuts h.ranks hpart hid hinstr (UInt64.le_iff_toNat_le.mpr hfrom) ?_
  rwa [UInt64.lt_iff_toNat_lt, hordered.toNat_endAddr hmem hinstr]

end Program.Indexed

namespace EngineM

variable {s t m : Session} {graph : BlockGraph} {parts : List Part} {edit : Edit} {edits : List Edit}

/-- An edit leaves the blocks findable. -/
theorem edit_indexed {u : Unit} (hkind : edit.resizes = false) (hgiven : ∀ instr ∈ edit.given, instr.bytes ≠ [])
    (hroom : s.program.Roomy) (hs : s.program.Indexed graph parts) (h : edit.run s = .ok u t) :
    ∃ after parts', t.program.Indexed after parts' := by
  obtain ⟨shift, m, summary, hsplice, hsettle⟩ := edit_ok h
  obtain ⟨after, parts', hm, -, hranks⟩ := hsplice.sectioned hkind hs.toSectioned (hs.toSectioned.finds hroom) hgiven
  have hcarries := Session.Carries.updateRelation.settle hsettle
  refine ⟨after, parts', (settle_sectioned hm hsettle).1, ?_⟩
  refine (hranks hs.ranks).congr fun x _ => ?_
  exact (hcarries.chain.retains fun _ => True).sec? (fun _ _ _ hab => hab.sec) trivial

/-- Edits lead one after the other from `s` to `t`. Nothing that is put in is empty, and there is room for
the code before each of them. -/
def EditsLead : (s : Session) → List Edit → (t : Session) → Prop
  | s, [], t => t = s
  | s, edit :: edits, t => s.program.Roomy ∧ edit.resizes = false
    ∧ (∀ instr ∈ edit.given, instr.bytes ≠ []) ∧ Succeeds edit.run s = true
    ∧ EditsLead (outcome edit.run s) edits t

/-- Edits one after the other leave blocks that can be searched, by induction on their list. -/
theorem edits_indexed (hs : s.program.Indexed graph parts) (h : EditsLead s edits t) :
    ∃ after parts', t.program.Indexed after parts' := by
  induction edits generalizing s graph parts with
  | nil =>
    obtain rfl : t = s := h
    exact ⟨graph, parts, hs⟩
  | cons edit edits ih =>
    obtain ⟨hroom, hkind, hgiven, hsucceeds, hrest⟩ := h
    obtain ⟨_, hrun⟩ := Succeeds.ok hsucceeds
    obtain ⟨after, parts', hm⟩ := edit_indexed hkind hgiven hroom hs hrun
    exact ih hm hrest

/-- The blocks that are built can be searched. -/
theorem buildBlocks_indexed (hs : s.program.Divisible) (h : buildBlocks s = .ok graph t) :
    ∃ parts, t.program.Indexed graph parts := by
  obtain ⟨parts, hsectioned, hcode, -, hranks⟩ := buildBlocks_sectioned hs.sited hs.filled hs.functions hs.covered
    (fun _ => Nat.le_trans Program.bytesIn_le_sum hs.roomy) h
  refine ⟨parts, hsectioned, ?_⟩
  rw [hcode, (buildBlocks_ok h).2]
  exact hranks

end EngineM

/-! ## The end of the address space -/

/-- Two instructions in front of the last address. -/
def brim : Session where
  program :=
    { hop.program with
      chain := .ofList
        [{ Instruction.decoded 0xFFFFFFFFFFFFFFFD [0x90] 1 .nop with sec := 1, func := some ⟨0⟩ },
          { Instruction.decoded 0xFFFFFFFFFFFFFFFE [0x90] 1 .nop with sec := 1, func := some ⟨0⟩ }]
      functions := ⟨#[{ Function.declared "brim" 1 (some (⟨0⟩, ⟨1⟩)) 0xFFFFFFFFFFFFFFFD with size := 2 }]⟩
      bases := [(1, 0xFFFFFFFFFFFFFFFD)] }
  recorder := .empty

/-- The two instructions in front of the last address can be divided into blocks. -/
theorem brim_divisible : brim.program.Divisible where
  verified := isOk_iff.mp (by decide +kernel)
  attached := Chain.attached_ofList _
  consecutive := .of_section 1 (by decide)
  filled := by decide
  covered := Program.covered_of_whole 1 rfl (by decide) (by decide)
  roomy := by
    unfold Program.Roomy
    decide

end Splice
