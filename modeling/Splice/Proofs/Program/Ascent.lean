import Splice.Proofs.Program.BlockSplices

/-!
# Addresses that do not wrap around

Where code is laid out and the end of every instruction has an address, the address of an
instruction is that of its section and the number of bytes in front (`addr_exact`), as natural
numbers. So the instructions of a section follow each other in the order of their addresses,
and the code is ordered (`Program.Sited.ordered`).

`Chain.Unwrapped` asks one thing of each instruction, that the address behind it is greater than
its own. Nothing is asked of sections or of sizes, so the condition can be read off the code at
hand; it is a condition on one state, and edits that lead away from it and back do no harm.
-/

namespace Splice

namespace Program

variable {program : Program} {l : List InstrId} {id : InstrId} {instr : Instruction} {sec : SectionId}
  {length : InstrId → Nat}

/-- One instruction more adds its bytes, if it is of the section. -/
theorem bytesIn_take_succ {n : Nat} (hget : l[n]? = some id) : program.bytesIn sec length (l.take (n + 1))
    = program.bytesIn sec length (l.take n) + if program.chain.inSection sec id then length id else 0 := by
  have hsingle : program.bytesIn sec length [id] = if program.chain.inSection sec id then length id else 0 := by
    rw [bytesIn, List.map_singleton, List.sum_singleton]
  rw [List.take_add_one, hget, Option.toList_some, bytesIn_append, hsingle]

/-- More instructions are no fewer bytes. -/
theorem bytesIn_take_mono {m n : Nat} (h : m ≤ n) :
    program.bytesIn sec length (l.take m) ≤ program.bytesIn sec length (l.take n) := by
  obtain ⟨k, rfl⟩ := Nat.exists_eq_add_of_le h
  rw [List.take_add, bytesIn_append]
  exact Nat.le_add_right ..

section Laid

variable (hlaid : program.LaidOut l) (hl : program.chain.Spells l) (hunwrapped : program.chain.Unwrapped)

include hlaid hl hunwrapped

/-- The bytes of a section in front of any place fit into the address space. -/
theorem start_lt (n : Nat) : ((program.bases.lookup sec).getD 0).toNat
    + program.bytesIn sec program.lengths (l.take n) < 2 ^ 64 := by
  -- the end of an instruction does not wrap around, so neither does the start of the next one
  induction n with
  | zero => exact ((program.bases.lookup sec).getD 0).toNat_lt
  | succ n ih =>
    cases hget : l[n]? with
    | none =>
      rw [List.take_add_one, hget, Option.toList_none, List.append_nil]
      exact ih
    | some id =>
      rw [bytesIn_take_succ hget]
      split
      next hsec =>
        obtain ⟨hn, hid⟩ := List.getElem?_eq_some_iff.mp hget
        have hmem : id ∈ l := List.mem_of_getElem? hget
        obtain ⟨instr, hinstr⟩ := hl.get?_isSome hmem
        obtain rfl := (Chain.inSection_iff hinstr).mp hsec
        have hcut : l = l.take n ++ id :: l.drop (n + 1) := by
          rw [← hid, List.getElem_cons_drop, List.take_append_drop]
        have haddr := (hcut ▸ hlaid).toNat_addr hinstr
        have hend := hunwrapped id (hl.ids_eq ▸ hmem) instr hinstr
        rw [haddr, Nat.mod_eq_of_lt ih, ← lengths_eq hinstr] at hend
        omega
      next => exact ih

/-- A section no address of which wraps has no more bytes than there are addresses. -/
theorem room_of_unwrapped (sec : SectionId) : program.bytesIn sec program.lengths l ≤ 2 ^ 64 := by
  have hlt := @start_lt program l sec hlaid hl hunwrapped l.length
  rw [List.take_length] at hlt
  omega

/-- An address is that of the section and the number of bytes in front. -/
theorem addr_exact {n : Nat} (hget : l[n]? = some id) (hinstr : program.chain.get? id = some instr) :
    instr.addr.toNat = ((program.bases.lookup instr.sec).getD 0).toNat
      + program.bytesIn instr.sec program.lengths (l.take n) := by
  obtain ⟨hn, hid⟩ := List.getElem?_eq_some_iff.mp hget
  have hcut : l = l.take n ++ id :: l.drop (n + 1) := by
    rw [← hid, List.getElem_cons_drop, List.take_append_drop]
  have haddr := (hcut ▸ hlaid).toNat_addr hinstr
  rwa [Nat.mod_eq_of_lt (start_lt hlaid hl hunwrapped n)] at haddr

/-- Within a section each instruction begins where the one in front of it ends. -/
theorem addr_behind {us vs : List InstrId} {x y : InstrId} {a b : Instruction} (hcut : l = us ++ x :: y :: vs)
    (ha : program.chain.get? x = some a) (hb : program.chain.get? y = some b) (hsec : a.sec = b.sec) :
    b.addr.toNat = a.addr.toNat + a.bytes.length := by
  have hx : l[us.length]? = some x := by simp [hcut]
  have hy : l[us.length + 1]? = some y := by simp [hcut]
  have hin : program.chain.inSection b.sec x = true := (Chain.inSection_iff ha).mpr hsec
  rw [addr_exact hlaid hl hunwrapped hx ha, addr_exact hlaid hl hunwrapped hy hb, bytesIn_take_succ hx,
    if_pos hin, lengths_eq ha, hsec, Nat.add_assoc]

/-- Within a section, something lies over every address between the ends of a run. -/
theorem exists_over {us run vs : List InstrId} {x y : InstrId} {first last : Instruction} {addr : Nat}
    (hcut : l = us ++ run ++ vs) (hrun : program.chain.Within sec run) (hx : run.head? = some x)
    (hy : run.getLast? = some y) (hfirst : program.chain.get? x = some first)
    (hlast : program.chain.get? y = some last) (hfrom : first.addr.toNat ≤ addr)
    (hto : addr < last.addr.toNat + last.bytes.length) :
    ∃ id ∈ run, ∃ instr, program.chain.get? id = some instr ∧ instr.addr.toNat ≤ addr
      ∧ addr < instr.addr.toNat + instr.bytes.length := by
  -- the first instruction lies over the address, or the next one begins where it ends
  induction run generalizing us x first with
  | nil => cases hx
  | cons z run ih =>
    obtain rfl : z = x := Option.some.inj hx
    by_cases hover : addr < first.addr.toNat + first.bytes.length
    · exact ⟨z, List.mem_cons_self .., first, hfirst, hfrom, hover⟩
    cases run with
    | nil =>
      obtain rfl : z = y := Option.some.inj hy
      obtain rfl := Option.some.inj (hfirst.symm.trans hlast)
      exact absurd hto hover
    | cons z' run =>
      have hcut' : l = us ++ z :: z' :: (run ++ vs) := by simpa using hcut
      obtain ⟨next, hnext⟩ := hl.get?_isSome (show z' ∈ l by simp [hcut'])
      have hsec : first.sec = next.sec := ((Chain.inSection_iff hfirst).mp (hrun z (by simp))).trans
        ((Chain.inSection_iff hnext).mp (hrun z' (by simp))).symm
      have hbehind := addr_behind hlaid hl hunwrapped hcut' hfirst hnext hsec
      obtain ⟨id, hid, hover'⟩ := @ih (us ++ [z]) z' next (by simpa using hcut')
        (fun x hx => hrun x (List.mem_cons_of_mem _ hx)) rfl (by simpa using hy) hnext (by omega)
      exact ⟨id, List.mem_cons_of_mem _ hid, hover'⟩

/-- Within a section each instruction ends in front of those behind it. -/
theorem pairwise_below : l.Pairwise program.chain.Below := by
  refine List.pairwise_iff_getElem.mpr fun i j hi hj hlt a ha b hb hsec => ?_
  have hi' := List.getElem?_eq_getElem hi
  have hj' := List.getElem?_eq_getElem hj
  have hin : program.chain.inSection b.sec l[i] = true := (Chain.inSection_iff ha).mpr hsec
  have hgrows := @bytesIn_take_mono program l b.sec program.lengths _ _ (Nat.succ_le_of_lt hlt)
  rw [bytesIn_take_succ hi', if_pos hin, lengths_eq ha] at hgrows
  rw [addr_exact hlaid hl hunwrapped hi' ha, addr_exact hlaid hl hunwrapped hj' hb, hsec]
  omega

end Laid

/-- Code that is laid out is ordered, if no section wraps around. -/
theorem Sited.ordered (h : program.Sited l [])
    (hfilled : program.chain.Filled l)
    (hunwrapped : program.chain.Unwrapped) : program.chain.Ordered l where
  spells := h.gapless.spells
  consecutive := h.gapless.consecutive
  filled id hid instr hinstr := by
    obtain ⟨found, hfound, hne⟩ := hfilled id hid
    rw [Option.some.inj (hinstr.symm.trans hfound)]
    exact hne
  ends id hid instr hinstr := hunwrapped id (h.gapless.spells.ids_eq.symm ▸ hid) instr hinstr
  ascending := pairwise_below (owing_nil.mp h.owing) h.gapless.spells hunwrapped

end Program

/-- In ordered code the block that is found for an instruction holds it. -/
theorem Chain.Ordered.finds {chain : Chain} {graph : BlockGraph} {parts : List Part}
    (h : chain.Ordered (Part.code parts)) (hattached : chain.Attached (Part.code parts))
    (hcuts : graph.Cuts parts) (hranks : graph.Ranks chain (Part.code parts)) : graph.Finds chain parts := by
  intro part hpart instr hfind
  obtain ⟨-, found, hfound, -⟩ := BlockGraph.find_ok hcuts hfind
  obtain ⟨own, hown, hin⟩ := Part.mem_code.mp (hattached instr (by
    rw [Chain.contains_eq_isSome_get?, hfound]
    rfl))
  have hid := (h.find_eq rfl hcuts hranks hown hin).symm.trans hfind
  rw [Except.ok.injEq, Option.some.injEq] at hid
  exact hcuts.eq_of_id hown hpart hid ▸ hin

end Splice
