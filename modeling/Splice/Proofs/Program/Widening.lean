import Splice.Proofs.Program.Passes

/-!
# Which jumps have to be widened

A set of jumps *suffices* if, with the long forms of these and with all sections laid out
back to back, each of the other short jumps reaches its target (`Program.Suffices`). This
counts bytes in front of an instruction, in natural numbers and without addresses. A jump
lies between its own end and its target, so what it has to reach over grows with the
lengths in between, whichever way it goes (`Reaches.mono`). A jump that does not reach in
one layout therefore does not reach in a longer one. If only jumps of a set that suffices
have been widened, the next pass widens only jumps of this set (`Contained.pass`).

> `Program.Reaches.mono`: what a jump reaches with longer instructions it reaches with shorter
> ones.

All of it is about sums of natural numbers over the list of the code. Addresses come in by one
lemma, which says that the extents in words are these sums, up to the size of the address space.
-/

namespace Splice

namespace Program

/-- The bytes that instructions of the given lengths fill in a section. -/
def bytesIn (program : Program) (sec : SectionId) (length : InstrId → Nat) (ids : List InstrId) : Nat :=
  (ids.map fun id => if program.chain.inSection sec id then length id else 0).sum

/-- How far behind the base of its section an instruction begins. -/
def offsetIn (program : Program) (sec : SectionId) (length : InstrId → Nat) (id : InstrId) : Nat :=
  program.bytesIn sec length (program.chain.ids.takeWhile (· != id))

/-- The displacement of a jump to a landing place in its section. -/
def distance (program : Program) (sec : SectionId) (length : InstrId → Nat) (jumper landing : InstrId) :
    Int :=
  (program.offsetIn sec length landing : Int) - (program.offsetIn sec length jumper + length jumper : Nat)

/-- The displacement of a jump to a landing place in its section is one of eight bits. -/
def Reaches (program : Program) (sec : SectionId) (length : InstrId → Nat) (jumper landing : InstrId) :
    Prop :=
  -128 ≤ program.distance sec length jumper landing ∧ program.distance sec length jumper landing ≤ 127

/-- The number of bytes of an instruction; zero if it is not present. -/
def lengths (program : Program) (id : InstrId) : Nat :=
  ((program.chain.get? id).map (·.bytes.length)).getD 0

/-- The number of bytes of an instruction, with exactly the instructions of `wide` in their long
forms. -/
def lengthsWith (program : Program) (wide : List InstrId) (id : InstrId) : Nat :=
  match program.chain.get? id with
  | none => 0
  | some instr =>
    if id ∈ wide then
      ((Encoding.promote? instr.bytes instr.opcodeSize).map (·.bytes.length)).getD instr.bytes.length
    else
      instr.bytes.length

/-- With exactly the instructions of `wide` in their long forms, the other short direct transfers
reach their targets. -/
def Suffices (program : Program) (wide : List InstrId) : Prop :=
  ∀ jumper source physical logical, jumper ∈ program.chain.ids → jumper ∉ wide →
    program.Lands jumper source physical → physical.sec = source.sec → source.isShortJump = true →
    source.target = some logical →
    program.Reaches source.sec (program.lengthsWith wide) jumper (program.redirects.resolve jumper logical)

variable {program after : Program} {sec : SectionId} {length other : InstrId → Nat}
  {l xs ys : List InstrId} {id jumper landing : InstrId}

/-! ## Distances -/

theorem bytesIn_append : program.bytesIn sec length (xs ++ ys)
    = program.bytesIn sec length xs + program.bytesIn sec length ys := by
  rw [bytesIn, List.map_append, List.sum_append]
  rfl

theorem bytesIn_cons (h : program.chain.inSection sec id = true) :
    program.bytesIn sec length (id :: xs) = length id + program.bytesIn sec length xs := by
  rw [bytesIn, List.map_cons, List.sum_cons, if_pos h]
  rfl

/-- What a section holds is no more than all there is. -/
theorem bytesIn_le_sum : program.bytesIn sec length xs ≤ (xs.map length).sum := by
  induction xs with
  | nil => exact Nat.le_refl _
  | cons id xs ih =>
    unfold bytesIn at ih ⊢
    rw [List.map_cons, List.map_cons, List.sum_cons, List.sum_cons]
    split <;> omega

/-- Longer instructions fill no less. -/
theorem bytesIn_mono (h : ∀ id ∈ xs, length id ≤ other id) :
    program.bytesIn sec length xs ≤ program.bytesIn sec other xs := by
  induction xs with
  | nil => exact Nat.le_refl _
  | cons id xs ih =>
    have hid := h id (List.mem_cons_self ..)
    have hrest := ih fun x hx => h x (List.mem_cons_of_mem _ hx)
    unfold bytesIn at hrest ⊢
    rw [List.map_cons, List.map_cons, List.sum_cons, List.sum_cons]
    split <;> omega

/-- The offset of an instruction is what fills its section in front of it. -/
theorem offsetIn_eq (hl : program.chain.Spells (xs ++ id :: ys)) :
    program.offsetIn sec length id = program.bytesIn sec length xs := by
  rw [offsetIn, hl.ids_eq, List.takeWhile_append_of_pos, List.takeWhile_cons_of_neg, List.append_nil]
  · simp
  · intro x hx
    have hne : x ≠ id := by
      rintro rfl
      exact hl.not_mem_rest (List.mem_append_left _ hx)
    simpa using hne

/-- A jump forward reaches over what is in between. -/
theorem distance_forward (hl : program.chain.Spells (xs ++ jumper :: ys ++ landing :: l))
    (hsec : program.chain.inSection sec jumper = true) :
    program.distance sec length jumper landing = program.bytesIn sec length ys := by
  have hl' : program.chain.Spells (xs ++ jumper :: (ys ++ landing :: l)) := by simpa using hl
  rw [distance, offsetIn_eq hl, offsetIn_eq hl', bytesIn_append, bytesIn_cons hsec]
  omega

/-- A jump backward reaches over its target, what is in between, and itself. -/
theorem distance_backward (hl : program.chain.Spells (xs ++ landing :: ys ++ jumper :: l)) :
    program.distance sec length jumper landing
      = -((program.bytesIn sec length (landing :: ys) + length jumper : Nat) : Int) := by
  have hl' : program.chain.Spells (xs ++ landing :: (ys ++ jumper :: l)) := by simpa using hl
  rw [distance, offsetIn_eq hl, offsetIn_eq hl', bytesIn_append]
  omega

theorem distance_self : program.distance sec length jumper jumper = -(length jumper : Int) := by
  rw [distance]
  omega

/-- No distance is greater than all of the section. -/
theorem distance_le (length : InstrId → Nat) (hl : program.chain.Spells l) (hjumper : jumper ∈ l)
    (hlanding : landing ∈ l) (hsec : program.chain.inSection sec jumper = true) :
    -(program.bytesIn sec length l : Int) ≤ program.distance sec length jumper landing
      ∧ program.distance sec length jumper landing ≤ program.bytesIn sec length l := by
  have hstart : program.offsetIn sec length landing ≤ program.bytesIn sec length l := by
    obtain ⟨xs, ys, rfl⟩ := List.append_of_mem hlanding
    rw [offsetIn_eq hl, bytesIn_append]
    omega
  have hend : program.offsetIn sec length jumper + length jumper ≤ program.bytesIn sec length l := by
    obtain ⟨xs, ys, rfl⟩ := List.append_of_mem hjumper
    rw [offsetIn_eq hl, bytesIn_append, bytesIn_cons hsec]
    omega
  rw [distance]
  omega

/-- What reaches with greater lengths in between reaches with smaller ones. -/
theorem Reaches.mono (h : program.Reaches sec other jumper landing) (hl : program.chain.Spells l)
    (hjumper : jumper ∈ l) (hlanding : landing ∈ l) (hsec : program.chain.inSection sec jumper = true)
    (hle : ∀ id ∈ l, length id ≤ other id) : program.Reaches sec length jumper landing := by
  unfold Reaches at h ⊢
  have hown := hle jumper hjumper
  obtain ⟨front, rest, rfl⟩ := List.append_of_mem hjumper
  rcases List.mem_append.mp hlanding with hfront | hrest
  · obtain ⟨xs, ys, rfl⟩ := List.append_of_mem hfront
    rw [distance_backward hl] at h ⊢
    have hmono : program.bytesIn sec length (landing :: ys)
        ≤ program.bytesIn sec other (landing :: ys) :=
      bytesIn_mono fun id hid =>
        hle id (List.mem_append_left _ (List.mem_append_right _ hid))
    omega
  · rcases List.mem_cons.mp hrest with rfl | hrest
    · rw [distance_self] at h ⊢
      omega
    · obtain ⟨ys, zs, rfl⟩ := List.append_of_mem hrest
      have hl' : program.chain.Spells (front ++ jumper :: ys ++ landing :: zs) := by simpa using hl
      rw [distance_forward hl' hsec] at h ⊢
      have hmono : program.bytesIn sec length ys ≤ program.bytesIn sec other ys :=
        bytesIn_mono fun id hid =>
          hle id (List.mem_append_right _ (List.mem_cons_of_mem _ (List.mem_append_left _ hid)))
      omega

/-! ## Distances and addresses -/

variable {source physical : Instruction}

theorem lengths_eq (h : program.chain.get? id = some source) :
    program.lengths id = source.bytes.length := by
  rw [lengths, h]
  rfl

theorem lengths_of_absent {id : InstrId} (h : program.chain.get? id = none) : program.lengths id = 0 := by
  rw [lengths, h]
  rfl

/-- The extent in words is the number of bytes, up to the size of the address space. -/
theorem extent_eq_bytesIn :
    program.chain.extent sec xs = UInt64.ofNat (program.bytesIn sec program.lengths xs) := by
  induction xs with
  | nil => rfl
  | cons id xs ih =>
    have hid : (if program.chain.inSection sec id then program.chain.sizeOf id else 0)
        = UInt64.ofNat (if program.chain.inSection sec id then program.lengths id else 0) := by
      cases hget : program.chain.get? id with
      | none =>
        rw [Chain.inSection, hget]
        rfl
      | some instr =>
        rw [Chain.sizeOf_eq hget, lengths_eq hget, Instruction.size]
        split <;> rfl
    unfold Chain.extent bytesIn at ih ⊢
    rw [List.map_cons, List.map_cons, List.sum_cons, List.sum_cons, UInt64.ofNat_add, ih, hid]

theorem LaidOut.addr_eq (hlaid : program.LaidOut l) (hl : program.chain.Spells l) (hid : id ∈ l)
    (hsource : program.chain.get? id = some source) :
    source.addr = (program.bases.lookup source.sec).getD 0
      + UInt64.ofNat (program.offsetIn source.sec program.lengths id) := by
  obtain ⟨front, rest, rfl⟩ := List.append_of_mem hid
  rw [hlaid front id rest source rfl hsource, place, extent_eq_bytesIn, offsetIn_eq hl]

/-- Where the code is laid out, a displacement is the distance. -/
theorem LaidOut.displacementTo_eq (hlaid : program.LaidOut l) (hl : program.chain.Spells l)
    (hjumper : jumper ∈ l) (hlanding : landing ∈ l)
    (hsource : program.chain.get? jumper = some source)
    (hphysical : program.chain.get? landing = some physical) (hsec : physical.sec = source.sec) :
    source.displacementTo physical
      = Int64.ofInt (program.distance source.sec program.lengths jumper landing) := by
  have hstart := hlaid.addr_eq hl hjumper hsource
  have hland := hlaid.addr_eq hl hlanding hphysical
  rw [hsec] at hland
  rw [Instruction.displacementTo, Instruction.endAddr, hstart, hland, Instruction.size,
    ← lengths_eq hsource, distance]
  generalize program.offsetIn source.sec program.lengths landing = target
  generalize program.offsetIn source.sec program.lengths jumper = start
  generalize program.lengths jumper = size
  generalize (program.bases.lookup source.sec).getD 0 = base
  have hcancel : (base + UInt64.ofNat target) - (base + UInt64.ofNat start + UInt64.ofNat size)
      = UInt64.ofNat target - UInt64.ofNat (start + size) := by
    rw [UInt64.ofNat_add]
    grind
  rw [hcancel, UInt64.toInt64_sub, UInt64.toInt64_ofNat', UInt64.toInt64_ofNat', Int64.ofInt_sub,
    Int64.ofInt_eq_ofNat, Int64.ofInt_eq_ofNat]

/-- A short jump has a field of one byte. -/
theorem width_of_isShortJump {field : DisplacementField} (hshort : source.isShortJump = true)
    (hfield : source.displacementField? = some field) : field.width = 1 := by
  rw [Instruction.isShortJump, hfield, Option.any_some, Bool.and_eq_true, beq_iff_eq] at hshort
  exact hshort.2

/-- A displacement of eight bits fits into a field of one byte. -/
theorem fits_iff {field : DisplacementField} {disp : Int} (hwidth : field.width = 1)
    (hlower : -2 ^ 63 ≤ disp) (hupper : disp < 2 ^ 63) :
    field.fits (Int64.ofInt disp) = true ↔ -128 ≤ disp ∧ disp ≤ 127 := by
  rw [DisplacementField.fits, DisplacementField.range, hwidth, Int64.toInt_ofInt_of_le hlower hupper]
  show decide (-128 ≤ disp ∧ disp ≤ 127) = true ↔ _
  rw [decide_eq_true_eq]

/-! ## Programs with some jumps widened -/

/-- The same code, with instructions at other addresses, displacements written and jumps widened. -/
structure Resized (program after : Program) : Prop where
  chain : program.chain.Evolves (fun _ a b => a.Carried b ∧ a.Sized b) after.chain
  redirects : after.redirects = program.redirects
  bases : after.bases = program.bases
  config : after.config = program.config

/-- As `Resized`, with none but jumps of `wide` widened. -/
structure Contained (wide : List InstrId) (program after : Program) : Prop
    extends Resized program after where
  contained : ∀ id a b, program.chain.get? id = some a → after.chain.get? id = some b →
    b.bytes.length ≠ a.bytes.length → id ∈ wide

variable {wide : List InstrId} {logical : InstrId}

theorem Resized.refl (program : Program) : program.Resized program :=
  ⟨.refl (fun _ i => ⟨.refl i, .refl i⟩) _, rfl, rfl, rfl⟩

/-- What is resized from what is resized from a program is resized from it. -/
theorem Resized.trans {last : Program} (h : program.Resized after) (k : after.Resized last) :
    program.Resized last where
  chain := by
    refine h.chain.trans (fun _ a b c hab hbc => ?_) k.chain
    exact ⟨hab.1.trans hbc.1, hab.2.trans hbc.2⟩
  redirects := k.redirects.trans h.redirects
  bases := k.bases.trans h.bases
  config := k.config.trans h.config

theorem Contained.refl (wide : List InstrId) (program : Program) : program.Contained wide program := by
  refine ⟨.refl program, fun id a b ha hb hne => ?_⟩
  rw [ha, Option.some.injEq] at hb
  exact absurd (congrArg (·.bytes.length) hb.symm) hne

/-- Distances are counted in lengths, which the argument gives, so addresses do not matter. -/
theorem Resized.distance_eq (h : program.Resized after) :
    after.distance sec length jumper landing = program.distance sec length jumper landing := by
  have hbytes : ∀ ids, after.bytesIn sec length ids = program.bytesIn sec length ids := by
    intro ids
    rw [bytesIn, bytesIn]
    congr 1
    refine List.map_congr_left fun id _ => ?_
    rw [(h.chain.retains fun _ => True).inSection (fun _ _ _ hab => hab.1.sec) trivial]
  rw [distance, distance, offsetIn, offsetIn, offsetIn, offsetIn, hbytes, hbytes, h.chain.ids]

/-- No instruction is longer than with all of `wide` widened. -/
theorem Contained.lengths_le (h : program.Contained wide after) (id : InstrId) :
    after.lengths id ≤ program.lengthsWith wide id := by
  cases hold : program.chain.get? id with
  | none =>
    rw [lengths, h.chain.get?_eq_none hold]
    exact Nat.zero_le _
  | some old =>
    obtain ⟨new, hnew, -, hsized⟩ := h.chain.get? hold
    rw [lengths_eq hnew, lengthsWith, hold]
    simp only
    by_cases hlength : new.bytes.length = old.bytes.length
    · rw [hlength]
      split
      next =>
        cases hlong : Encoding.promote? old.bytes old.opcodeSize with
        | none => exact Nat.le_refl _
        | some long => exact Nat.le_of_lt (Encoding.promote?_eq_some hlong).2.1
      next => exact Nat.le_refl _
    · obtain ⟨long, hlong, hsize, -⟩ := (hsized.lengthened hlength).long
      rw [if_pos (h.contained id old new hold hnew hlength), hlong, hsize]
      exact Nat.le_refl _

/-- A set that suffices has every short jump that does not reach while only jumps of it are widened. -/
theorem Contained.mem_of_overflows (h : program.Contained wide after) (hwide : program.Suffices wide)
    (hl : program.chain.Spells l) (hlaid : after.LaidOut l) (hjumper : jumper ∈ l)
    (hover : after.Overflows jumper source physical) : jumper ∈ wide := by
  have hl' := h.chain.spells hl
  obtain ⟨logical, htarget, hphysical, hlinked⟩ := hover.target
  have hlanding := hl'.isLinked_iff.mp hlinked
  obtain ⟨old, land, landing, hlands, hold, hland⟩ :=
    hover.toLands.of_evolve h.chain h.redirects fun _ _ _ h => h.1
  -- a jump that is still short was not widened
  have hshort : old.isShortJump = true := by
    rcases hold.2 with hsame | hlong
    · rw [← hsame.isShortJump]
      exact hover.short
    · have hshort := hover.short
      rw [hlong.not_short] at hshort
      cases hshort
  have hsec : land.sec = old.sec := by
    rw [← hland.1.sec, ← hold.1.sec]
    exact hover.sec
  by_cases hmem : jumper ∈ wide
  · exact hmem
  · exfalso
    have hreach := hwide jumper old land logical (hl.ids_eq.symm ▸ hjumper) hmem hlands hsec hshort
      (hold.1.target.symm.trans htarget)
    rw [← h.redirects] at hreach
    have hin := (Chain.inSection_iff hlands.get).mpr rfl
    have hnow := hreach.mono hl hjumper hlanding hin fun id _ => h.lengths_le id
    unfold Reaches at hnow
    rw [← h.toResized.distance_eq, ← hold.1.sec] at hnow
    obtain ⟨field, hfield, hfits⟩ := hover.overflow
    rw [hlaid.displacementTo_eq hl' hjumper hlanding hover.get hphysical hover.sec] at hfits
    have hwidth := width_of_isShortJump hover.short hfield
    rw [(fits_iff hwidth (by omega) (by omega)).mpr hnow] at hfits
    cases hfits

/-! ## Passes -/

section

variable {s m t : Session} {ids : List InstrId}

theorem resized_of_settles (h : EngineM.Settles s t ids) : s.program.Resized t.program :=
  ⟨h.chain.mono fun _ _ _ hab => ⟨hab.1, hab.2.2.1⟩, h.redirects, h.bases, h.config⟩

/-- Laying code out anew resizes nothing. -/
theorem resized_of_relaid (h : EngineM.Relaid s t l) : s.program.Resized t.program := by
  refine ⟨h.chain.mono fun _ a b hab => ?_, h.redirects, h.bases, h.config⟩
  rw [hab]
  exact ⟨⟨rfl, rfl, rfl, rfl, rfl, rfl, rfl, rfl⟩, .inl ⟨rfl, rfl, rfl, rfl⟩⟩

/-- A pass widens jumps that do not reach in the code that it finds. -/
theorem Contained.pass {widened : Nat} (h : s.program.Contained wide m.program)
    (hpass : EngineM.Passed m t widened)
    (hmem : ∀ id ∈ m.program.jumpers, ∀ source physical, m.program.Overflows id source physical →
      id ∈ wide) : s.program.Contained wide t.program := by
  refine ⟨h.toResized.trans (resized_of_settles hpass.settles), fun id a c ha hc hne => ?_⟩
  obtain ⟨b, hb, -⟩ := h.chain.get? ha
  by_cases hbefore : b.bytes.length = a.bytes.length
  · rw [← hbefore] at hne
    obtain ⟨-, physical, hover⟩ := hpass.overflows id b c hb hc hne
    refine hmem id ?_ b physical hover
    obtain ⟨c', hc', -, -, -, hsame⟩ := hpass.settles.chain.get? hb
    rw [hc, Option.some.injEq] at hc'
    subst hc'
    by_cases hjumper : id ∈ m.program.jumpers
    · exact hjumper
    · exact absurd (congrArg (·.bytes.length) (hsame hjumper)) hne
  · exact h.contained id a b ha hb hbefore

/-- Laying out anew widens nothing. -/
theorem Contained.relaid (h : s.program.Contained wide m.program) (hrelaid : EngineM.Relaid m t l) :
    s.program.Contained wide t.program := by
  refine ⟨h.toResized.trans (resized_of_relaid hrelaid), fun id a c ha hc hne => ?_⟩
  obtain ⟨b, hb, hsame⟩ := hrelaid.chain.get?_of hc
  rw [hsame] at hne
  exact h.contained id a b ha hb hne

end

/-! ## The jumps that were widened -/

/-- The instructions of which the length has changed. -/
def widened (program after : Program) : List InstrId :=
  program.chain.ids.filter fun id => after.lengths id != program.lengths id

/-- A short direct transfer of the code that has a long form. -/
def Widenable (program : Program) (id : InstrId) : Prop :=
  id ∈ program.chain.ids ∧ ∃ source, program.chain.get? id = some source
    ∧ source.isDirectTransfer = true ∧ source.isShortJump = true
    ∧ ∃ long, Encoding.promote? source.bytes source.opcodeSize = some long

theorem mem_jumpers : id ∈ program.jumpers
    ↔ id ∈ program.chain.ids
      ∧ ∃ source, program.chain.get? id = some source ∧ source.isDirectTransfer = true := by
  rw [jumpers_eq, List.mem_filter]
  cases program.chain.get? id <;> simp

theorem mem_widened (hsource : program.chain.get? id = some source)
    (hphysical : after.chain.get? id = some physical) : id ∈ program.widened after
    ↔ id ∈ program.chain.ids ∧ physical.bytes.length ≠ source.bytes.length := by
  rw [widened, List.mem_filter, lengths_eq hsource, lengths_eq hphysical, bne_iff_ne]

/-- If none but jumps of `wide` are widened, the instructions with another length are among them. -/
theorem Contained.widened_subset (h : program.Contained wide after) :
    program.widened after ⊆ wide := by
  intro id hid
  cases hold : program.chain.get? id with
  | none =>
    rw [widened, List.mem_filter, lengths, lengths, hold, h.chain.get?_eq_none hold] at hid
    exact absurd hid.2 (by decide)
  | some old =>
    obtain ⟨new, hnew, -⟩ := h.chain.get? hold
    exact h.contained id old new hold hnew ((mem_widened hold hnew).mp hid).2

/-- Direct transfers that were widened could be. -/
theorem Contained.widenable (h : program.Contained program.jumpers after)
    (hid : id ∈ program.widened after) : program.Widenable id := by
  obtain ⟨hmem, old, hold, hdirect⟩ := mem_jumpers.mp (h.widened_subset hid)
  obtain ⟨new, hnew, -, hsized⟩ := h.chain.get? hold
  have hlonger := hsized.lengthened ((mem_widened hold hnew).mp hid).2
  obtain ⟨long, hlong, -⟩ := hlonger.long
  exact ⟨hmem, old, hold, hdirect, hlonger.short, long, hlong⟩

/-- The lengths are those with exactly the widened jumps in their long forms. -/
theorem Resized.lengths_eq_with (h : program.Resized after) (hid : id ∈ program.chain.ids) :
    after.lengths id = program.lengthsWith (program.widened after) id := by
  unfold lengthsWith
  cases hold : program.chain.get? id with
  | none => rw [lengths, h.chain.get?_eq_none hold, Option.map_none, Option.getD_none]
  | some old =>
    obtain ⟨new, hnew, -, hsized⟩ := h.chain.get? hold
    rw [lengths_eq hnew]
    simp only
    by_cases hlength : new.bytes.length = old.bytes.length
    · rw [if_neg fun hwidened => ((mem_widened hold hnew).mp hwidened).2 hlength]
      exact hlength
    · obtain ⟨long, hlong, hsize, -⟩ := (hsized.lengthened hlength).long
      rw [if_pos ((mem_widened hold hnew).mpr ⟨hid, hlength⟩), hlong]
      exact hsize

end Program

end Splice
