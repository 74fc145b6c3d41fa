import Splice.Proofs.Program.Recoding

/-!
# Code that is put in

A `Plan` says which instructions are to be put in front of which ones of a program. What a
program becomes by that, in whatever order it is done, is described from the program
itself (`Program.Extends`): its instructions with the new ones in front of them, jumpers
led to these where the plan says so, and encodings changed as by settling.

How far a jumper is from where it lands is then counted in the program as it was, with the
bytes that the plan puts in front of each instruction added to its own (`Plan.spans`). The
more is put in and the more is widened, the further a jump has to reach
(`Lies.mono`). So the jumps that have to be widened after one insertion have to be widened
after another one on top of it, too (`SufficesFor.mono`).

A plan has at most one addition for an anchor, and names for what is put in are given by a
function. Lengths, places and distances in the program with the plan put in are computed from
those in the program without it, by sums over the old order.
-/

namespace Splice

/-- An instruction that is to be put in front of another one. -/
structure Addition where
  given : Instruction
  /-- Where jumpers of the other one land then. -/
  retarget : Retarget
deriving DecidableEq

/-- What is put in front of the instruction `a`. -/
structure Addition.Placed (addition : Addition) (a b : Instruction) : Prop where
  sec : b.sec = a.sec
  func : b.func = a.func
  flags : b.flags = addition.given.flags
  target : b.target = none
  bytes : b.bytes = addition.given.bytes
  opcodeSize : b.opcodeSize = addition.given.opcodeSize

/-- What is put in is what it was given as, up to addresses and displacement. -/
theorem Addition.Placed.alike {addition : Addition} {a b c : Instruction} (h : addition.Placed a b)
    (halike : b.Alike c) (htarget : c.target = b.target) : addition.Placed a c where
  sec := halike.sec.trans h.sec
  func := halike.func.trans h.func
  flags := halike.flags.trans h.flags
  target := htarget.trans h.target
  bytes := halike.bytes.trans h.bytes
  opcodeSize := halike.opcodeSize.trans h.opcodeSize

/-- What is to be put in front of which instructions. -/
abbrev Plan := InstrId → Option Addition

namespace Plan

/-- The number of bytes that are put in front of an instruction. -/
def room (plan : Plan) (id : InstrId) : Nat := ((plan id).map (·.given.bytes.length)).getD 0

/-- The bytes of an instruction and of what is put in front of it. -/
def spans (plan : Plan) (length : InstrId → Nat) (id : InstrId) : Nat := plan.room id + length id

/-- An instruction with what is put in front of it. -/
def around (plan : Plan) (names : InstrId → InstrId) (id : InstrId) : List InstrId :=
  if (plan id).isSome then [names id, id] else [id]

def code (plan : Plan) (names : InstrId → InstrId) (ids : List InstrId) : List InstrId :=
  ids.flatMap (plan.around names)

/-- Jumpers that are not redirected at the instruction enter what is put in front of it. -/
def enters (plan : Plan) (redirects : Redirects) (id : InstrId) : Bool :=
  (plan id).any (fun addition => decide (addition.retarget = .inserted))
    && (redirects.targetOf? id).isNone

/-- Where jumpers go that landed on the instruction. -/
def entry (plan : Plan) (names : InstrId → InstrId) (redirects : Redirects) (id : InstrId) : InstrId :=
  if plan.enters redirects id then names id else id

/-- The plan puts in all that the other one does, and perhaps more. -/
def Within (plan other : Plan) : Prop := ∀ id, plan id = none ∨ other id = plan id

variable {plan other : Plan} {names : InstrId → InstrId} {ids xs ys : List InstrId} {id x : InstrId}

theorem room_of_none (h : plan id = none) : plan.room id = 0 := by
  rw [room, h]
  rfl

/-- Around an instruction stand itself and what is put in front of it, if anything. -/
theorem mem_around : x ∈ plan.around names id ↔ x = id ∨ (plan id).isSome = true ∧ x = names id := by
  unfold around
  split
  next h => simp [h, or_comm]
  next h => simp [h]

/-- The code of a plan consists of the old instructions and what is put in front of them. -/
theorem mem_code : x ∈ plan.code names ids
    ↔ x ∈ ids ∨ ∃ id ∈ ids, (plan id).isSome = true ∧ x = names id := by
  rw [code, List.mem_flatMap]
  simp only [mem_around]
  grind

theorem code_split : plan.code names (xs ++ id :: ys)
    = plan.code names xs ++ (plan.around names id ++ plan.code names ys) := by
  rw [code, List.flatMap_append, List.flatMap_cons]
  rfl

theorem enters_of_none {redirects : Redirects} (h : plan id = none) : plan.enters redirects id = false := by
  rw [enters, h]
  rfl

/-- More additions take no less room. -/
theorem Within.room_le (h : plan.Within other) (id : InstrId) : plan.room id ≤ other.room id := by
  rcases h id with hnone | hsame
  · rw [room_of_none hnone]
    exact Nat.zero_le _
  · exact Nat.le_of_eq (by rw [room, room, hsame])

end Plan

namespace Program

/-- Jumper lands on `place`, and goes from there to what is put in front of it. -/
def entering (program : Program) (plan : Plan) (jumper place : InstrId) : Bool :=
  (program.redirects.overrideOf? jumper).isNone && plan.enters program.redirects place

/-- Where the jumper lands that landed on `place`. -/
def arrival (program : Program) (plan : Plan) (names : InstrId → InstrId) (jumper place : InstrId) :
    InstrId :=
  if program.entering plan jumper place then names place else place

/-- How many of the bytes that are put in front of `place` the jumper passes by. -/
def skipped (program : Program) (plan : Plan) (jumper place : InstrId) : Nat :=
  if program.entering plan jumper place then 0 else plan.room place

/-! ## Reaching -/

/-- The displacement to a point within the landing place is one of eight bits. -/
def Lies (program : Program) (sec : SectionId) (length : InstrId → Nat) (jumper landing : InstrId)
    (skip : Nat) : Prop :=
  -128 ≤ program.distance sec length jumper landing + skip
    ∧ program.distance sec length jumper landing + skip ≤ 127

/-- With the code of the plan put in and exactly the instructions of `wide` in their long forms, the
other short direct transfers reach their targets. -/
def SufficesFor (program : Program) (plan : Plan) (wide : List InstrId) : Prop :=
  ∀ jumper source physical logical, jumper ∈ program.chain.ids → jumper ∉ wide →
    program.Lands jumper source physical → physical.sec = source.sec → source.isShortJump = true →
    source.target = some logical →
    program.Lies source.sec (plan.spans (program.lengthsWith wide)) jumper
      (program.redirects.resolve jumper logical)
      (program.skipped plan jumper (program.redirects.resolve jumper logical))

variable {program after : Program} {plan other : Plan} {names : InstrId → InstrId}
  {sec : SectionId} {length further : InstrId → Nat} {l ids xs ys wide : List InstrId}
  {id jumper logical landing place : InstrId} {a b old new source physical : Instruction}

/-- A jumper passes by no more bytes than were put in. -/
theorem skipped_le (program : Program) (plan : Plan) (jumper place : InstrId) :
    program.skipped plan jumper place ≤ plan.room place := by
  unfold skipped
  split
  · exact Nat.zero_le _
  · exact Nat.le_refl _

/-- What reaches over more bytes reaches over fewer, if both in front of the point where it lands and
behind it there are fewer of them. -/
theorem Lies.mono {skip skip' : Nat} (h : program.Lies sec further jumper landing skip')
    (hl : program.chain.Spells l) (hjumper : jumper ∈ l) (hlanding : landing ∈ l)
    (hsec : program.chain.inSection sec jumper = true)
    (hsec' : program.chain.inSection sec landing = true)
    (hle : ∀ id ∈ l, length id ≤ further id) (hfront : skip ≤ skip') (hskip : skip ≤ length landing)
    (hbehind : length landing + skip' ≤ further landing + skip) :
    program.Lies sec length jumper landing skip := by
  unfold Lies at h ⊢
  have hown := hle jumper hjumper
  obtain ⟨front, rest, rfl⟩ := List.append_of_mem hjumper
  rcases List.mem_append.mp hlanding with hin | hin
  · obtain ⟨xs, ys, rfl⟩ := List.append_of_mem hin
    rw [distance_backward hl, bytesIn_cons hsec'] at h ⊢
    have hmono : program.bytesIn sec length ys ≤ program.bytesIn sec further ys :=
      bytesIn_mono fun id hid => hle id
        (List.mem_append_left _ (List.mem_append_right _ (List.mem_cons_of_mem _ hid)))
    omega
  · rcases List.mem_cons.mp hin with rfl | hin
    · rw [distance_self] at h ⊢
      omega
    · obtain ⟨ys, zs, rfl⟩ := List.append_of_mem hin
      have hl' : program.chain.Spells (front ++ jumper :: ys ++ landing :: zs) := by simpa using hl
      rw [distance_forward hl' hsec] at h ⊢
      have hmono : program.bytesIn sec length ys ≤ program.bytesIn sec further ys :=
        bytesIn_mono fun id hid =>
          hle id (List.mem_append_right _ (List.mem_cons_of_mem _ (List.mem_append_left _ hid)))
      omega

/-- Where a jumper lands in the list, its landing is present and resolved to. -/
theorem Lands.lands (h : program.Lands jumper source physical) (htarget : source.target = some logical)
    (hl : program.chain.Spells l) :
    program.chain.get? (program.redirects.resolve jumper logical) = some physical
      ∧ program.redirects.resolve jumper logical ∈ l := by
  obtain ⟨found, hfound, hget, hlinked⟩ := h.target
  obtain rfl := Option.some.inj (hfound.symm.trans htarget)
  exact ⟨hget, hl.isLinked_iff.mp hlinked⟩

/-- Whatever more is put in, the same jumps have to be widened. -/
theorem SufficesFor.mono (h : program.SufficesFor other wide) (hwithin : plan.Within other)
    (hl : program.chain.Spells l) : program.SufficesFor plan wide := by
  intro jumper source physical logical hjumper hwide lands hsec hshort htarget
  obtain ⟨hphysical, hplace⟩ := lands.lands htarget hl
  have hreach := h jumper source physical logical hjumper hwide lands hsec hshort htarget
  rw [hl.ids_eq] at hjumper
  generalize program.redirects.resolve jumper logical = place at hphysical hplace hreach ⊢
  have hroom := hwithin.room_le place
  have hskip := program.skipped_le plan jumper place
  -- at the landing place either both plans put in the same or this one nothing
  have hboth : program.skipped plan jumper place ≤ program.skipped other jumper place
      ∧ plan.room place + program.skipped other jumper place
        ≤ other.room place + program.skipped plan jumper place := by
    have hother := program.skipped_le other jumper place
    rcases hwithin place with hnone | hsame
    · have hzero := Plan.room_of_none hnone
      omega
    · have hskip : program.skipped other jumper place = program.skipped plan jumper place := by
        rw [skipped, skipped, entering, entering, Plan.enters, Plan.enters, Plan.room, Plan.room, hsame]
      omega
  refine hreach.mono hl hjumper hplace ((Chain.inSection_iff lands.get).mpr rfl)
    ((Chain.inSection_iff hphysical).mpr hsec) (fun id _ => ?_) hboth.1 ?_ ?_
  · exact Nat.add_le_add_right (hwithin.room_le id) _
  · exact Nat.le_trans hskip (Nat.le_add_right _ _)
  · unfold Plan.spans
    omega

/-! ## Lengths -/

/-- No instruction is longer than with all of `wide` widened if it is of these in case that it was
widened. -/
theorem le_lengthsWith (hold : program.chain.get? id = some old) (hsized : old.Sized new)
    (hwide : new.bytes.length ≠ old.bytes.length → id ∈ wide) :
    new.bytes.length ≤ program.lengthsWith wide id := by
  rw [lengthsWith, hold]
  simp only
  by_cases hlength : new.bytes.length = old.bytes.length
  · rw [hlength]
    split
    next =>
      cases hlong : Encoding.promote? old.bytes old.opcodeSize with
      | none => exact Nat.le_refl _
      | some long => exact Nat.le_of_lt (Encoding.promote?_eq_some hlong).2.1
    next => exact Nat.le_refl _
  · obtain ⟨long, hlong, hsize, -⟩ := (hsized.lengthened hlength).long
    rw [if_pos (hwide hlength), hlong, hsize]
    exact Nat.le_refl _

/-- An instruction has its length with exactly those widened that were. -/
theorem eq_lengthsWith (hold : program.chain.get? id = some old) (hsized : old.Sized new)
    (hwide : id ∈ wide ↔ new.bytes.length ≠ old.bytes.length) :
    new.bytes.length = program.lengthsWith wide id := by
  rw [lengthsWith, hold]
  simp only
  by_cases hlength : new.bytes.length = old.bytes.length
  · rw [if_neg fun hmem => hwide.mp hmem hlength]
    exact hlength
  · obtain ⟨long, hlong, hsize, -⟩ := (hsized.lengthened hlength).long
    rw [if_pos (hwide.mpr hlength), hlong]
    exact hsize

/-! ## Extensions -/

/-- What becomes of an instruction of the program. -/
structure Kept (program : Program) (id : InstrId) (a b : Instruction) : Prop where
  sec : b.sec = a.sec
  flags : b.flags = a.flags
  target : b.target = a.target
  func : b.func = a.func
  coded : a.Coded b
  fixed : program.landing? id a = none → b.bytes = a.bytes ∧ b.opcodeSize = a.opcodeSize

/-- What becomes of an instruction does not depend on its address or its displacement. -/
theorem Kept.alike {b c : Instruction} (h : program.Kept id a b) (halike : b.Alike c)
    (htarget : c.target = b.target) : program.Kept id a c where
  sec := halike.sec.trans h.sec
  flags := halike.flags.trans h.flags
  target := htarget.trans h.target
  func := halike.func.trans h.func
  coded := h.coded.trans (.of_alike halike)
  fixed hland :=
    ⟨halike.bytes.trans (h.fixed hland).1, halike.opcodeSize.trans (h.fixed hland).2⟩

/-- `after` is the program with the code of the plan put in under the given names, whatever addresses
and encodings it has. -/
structure Extends (program after : Program) (plan : Plan) (names : InstrId → InstrId) : Prop where
  sites : ∀ id, (plan id).isSome = true → id ∈ program.chain.ids
  code : after.chain.ids = plan.code names program.chain.ids
  kept : ∀ {id a}, program.chain.get? id = some a →
    ∃ b, after.chain.get? id = some b ∧ program.Kept id a b
  placed : ∀ {id a addition}, program.chain.get? id = some a → plan id = some addition →
    ∃ b, after.chain.get? (names id) = some b ∧ addition.Placed a b
  overrides : ∀ jumper, after.redirects.overrideOf? jumper = program.redirects.overrideOf? jumper
  landings : ∀ id ∈ program.chain.ids, after.redirects.landing id
    = plan.entry names program.redirects (program.redirects.landing id)
  unplanned : ∀ id ∈ program.chain.ids, plan id = none →
    after.redirects.targetOf? id = program.redirects.targetOf? id
  bases : after.bases = program.bases
  issued : program.chain.slots.size ≤ after.chain.slots.size
  fresh : ∀ id, (plan id).isSome = true →
    program.chain.slots.size ≤ (names id).index ∧ (names id).index < after.chain.slots.size

namespace Extends

/-- A plan of nothing leaves a program as it is. -/
theorem refl (program : Program) (names : InstrId → InstrId) :
    program.Extends program (fun _ => none) names where
  sites _ h := by cases h
  code := by
    show _ = program.chain.ids.flatMap fun id => [id]
    rw [List.flatMap_singleton']
  kept {id a} h := ⟨a, h, rfl, rfl, rfl, rfl, .refl a, fun _ => ⟨rfl, rfl⟩⟩
  placed _ h := by cases h
  overrides _ := rfl
  landings _ _ := rfl
  unplanned _ _ _ := rfl
  bases := rfl
  issued := Nat.le_refl _
  fresh _ h := by cases h

variable (h : program.Extends after plan names)

section

include h

theorem inSection (ha : program.chain.get? id = some a) (sec : SectionId) :
    after.chain.inSection sec id = program.chain.inSection sec id := by
  obtain ⟨b, hb, hkept⟩ := h.kept ha
  rw [Chain.inSection, Chain.inSection, ha, hb, Option.any_some, Option.any_some, hkept.sec]

theorem inSection_name {addition : Addition} (ha : program.chain.get? id = some a)
    (hplan : plan id = some addition) (sec : SectionId) :
    after.chain.inSection sec (names id) = program.chain.inSection sec id := by
  obtain ⟨b, hb, hplaced⟩ := h.placed ha hplan
  rw [Chain.inSection, Chain.inSection, ha, hb, Option.any_some, Option.any_some, hplaced.sec]

/-- What is put in has the length that the plan makes room for. -/
theorem lengths_name {addition : Addition} (ha : program.chain.get? id = some a)
    (hplan : plan id = some addition) : after.lengths (names id) = plan.room id := by
  obtain ⟨b, hb, hplaced⟩ := h.placed ha hplan
  rw [lengths_eq hb, hplaced.bytes, Plan.room, hplan]
  rfl

/-! ### Where instructions begin -/

/-- An instruction and what is put in front of it take the bytes of the two. -/
theorem bytesIn_around (ha : program.chain.get? id = some a) :
    after.bytesIn sec after.lengths (plan.around names id)
      = if program.chain.inSection sec id then plan.spans after.lengths id else 0 := by
  rw [Plan.around, Plan.spans]
  cases hplan : plan id with
  | none => simp [bytesIn, h.inSection ha, Plan.room_of_none hplan]
  | some addition =>
    simp only [bytesIn, Option.isSome_some, if_true, List.map_cons, List.map_nil, List.sum_cons,
      List.sum_nil, h.inSection ha, h.inSection_name ha hplan, h.lengths_name ha hplan]
    split <;> rfl

/-- The code of a plan takes the bytes of the old instructions and of all that is put in front of them. -/
theorem bytesIn_code (hids : ∀ id ∈ ids, ∃ a, program.chain.get? id = some a) :
    after.bytesIn sec after.lengths (plan.code names ids)
      = program.bytesIn sec (plan.spans after.lengths) ids := by
  induction ids with
  | nil => rfl
  | cons id ids ih =>
    obtain ⟨a, ha⟩ := hids id (List.mem_cons_self ..)
    have hrest := ih fun x hx => hids x (List.mem_cons_of_mem _ hx)
    rw [Plan.code, List.flatMap_cons, bytesIn_append, h.bytesIn_around ha]
    unfold Plan.code at hrest
    rw [hrest, bytesIn, bytesIn, List.map_cons, List.sum_cons]

variable (hl : program.chain.Spells program.chain.ids) (hl' : after.chain.Spells after.chain.ids)

include hl hl'

/-- What is put in front of an instruction begins where the instructions in front of that end. -/
theorem offsetIn_name {addition : Addition} (hid : id ∈ program.chain.ids)
    (hplan : plan id = some addition) : after.offsetIn sec after.lengths (names id)
      = program.offsetIn sec (plan.spans after.lengths) id := by
  obtain ⟨xs, ys, hsplit⟩ := List.append_of_mem hid
  have haround : plan.around names id = [names id, id] := by
    rw [Plan.around, hplan]
    rfl
  have hcode := h.code
  rw [hsplit, Plan.code_split, haround] at hcode
  rw [hcode] at hl'
  rw [hsplit] at hl
  rw [offsetIn_eq hl', offsetIn_eq hl]
  refine h.bytesIn_code fun x hx => hl.get?_isSome (List.mem_append_left _ hx)

/-- An instruction begins where what is put in front of it ends. -/
theorem offsetIn (ha : program.chain.get? id = some a) (hid : id ∈ program.chain.ids) :
    after.offsetIn a.sec after.lengths id
      = program.offsetIn a.sec (plan.spans after.lengths) id + plan.room id := by
  obtain ⟨xs, ys, hsplit⟩ := List.append_of_mem hid
  have hcode := h.code
  rw [hsplit, Plan.code_split] at hcode
  rw [hsplit] at hl
  have hfront : after.bytesIn a.sec after.lengths (plan.code names xs)
      = program.bytesIn a.sec (plan.spans after.lengths) xs :=
    h.bytesIn_code fun x hx => hl.get?_isSome (List.mem_append_left _ hx)
  rw [offsetIn_eq hl, ← hfront]
  cases hplan : plan id with
  | none =>
    have haround : plan.around names id = [id] := by
      rw [Plan.around, hplan]
      rfl
    rw [haround] at hcode
    rw [hcode] at hl'
    rw [offsetIn_eq hl', Plan.room_of_none hplan]
    rfl
  | some addition =>
    have haround : plan.around names id = [names id] ++ [id] := by
      rw [Plan.around, hplan]
      rfl
    rw [haround, List.append_assoc, ← List.append_assoc] at hcode
    rw [hcode] at hl'
    have hin := h.inSection_name ha hplan a.sec
    rw [(Chain.inSection_iff ha).mpr rfl] at hin
    rw [offsetIn_eq hl', bytesIn_append, bytesIn_cons hin, h.lengths_name ha hplan]
    rfl

/-- An old instruction begins behind what was put in front of it. -/
theorem addr_eq_start (hlaid : after.LaidOut after.chain.ids) (ha : program.chain.get? id = some a)
    (hid : id ∈ program.chain.ids) (hb : after.chain.get? id = some b) :
    b.addr = (program.bases.lookup a.sec).getD 0
      + UInt64.ofNat (program.offsetIn a.sec (plan.spans after.lengths) id + plan.room id) := by
  obtain ⟨found, hfound, hkept⟩ := h.kept ha
  obtain rfl := Option.some.inj (hfound.symm.trans hb)
  have hmem : id ∈ after.chain.ids := by
    rw [h.code, Plan.mem_code]
    exact .inl hid
  rw [hlaid.addr_eq hl' hmem hb, h.bases, hkept.sec, h.offsetIn hl hl' ha hid]

/-- What is put in begins where the code of its anchor does. -/
theorem addr_name_eq_start {addition : Addition} (hlaid : after.LaidOut after.chain.ids)
    (ha : program.chain.get? id = some a) (hid : id ∈ program.chain.ids) (hplan : plan id = some addition)
    (hb : after.chain.get? (names id) = some b) : b.addr = (program.bases.lookup a.sec).getD 0
      + UInt64.ofNat (program.offsetIn a.sec (plan.spans after.lengths) id) := by
  obtain ⟨found, hfound, hplaced⟩ := h.placed ha hplan
  obtain rfl := Option.some.inj (hfound.symm.trans hb)
  have hmem : names id ∈ after.chain.ids := by
    rw [h.code, Plan.mem_code]
    exact .inr ⟨id, hid, by rw [hplan]; rfl, rfl⟩
  rw [hlaid.addr_eq hl' hmem hb, h.bases, hplaced.sec, h.offsetIn_name hl hl' hid hplan]

/-- A jumper is from its landing as far as it was, counted with what was put in between, and with what it
passes by at the landing. -/
theorem distance (ha : program.chain.get? jumper = some a) (hjumper : jumper ∈ program.chain.ids)
    (hphysical : program.chain.get? place = some physical) (hplace : place ∈ program.chain.ids)
    (hsec : physical.sec = a.sec) :
    after.distance a.sec after.lengths jumper (program.arrival plan names jumper place)
      = program.distance a.sec (plan.spans after.lengths) jumper place
        + program.skipped plan jumper place := by
  have hstart := h.offsetIn hl hl' ha hjumper
  rw [Program.distance, Program.distance, hstart, arrival, skipped, ← hsec]
  by_cases hentering : program.entering plan jumper place = true
  · rw [if_pos hentering, if_pos hentering]
    cases hplan : plan place with
    | none =>
      rw [entering, Plan.enters_of_none hplan, Bool.and_false] at hentering
      cases hentering
    | some addition =>
      rw [h.offsetIn_name hl hl' hplace hplan]
      unfold Plan.spans
      omega
  · rw [if_neg hentering, if_neg hentering, h.offsetIn hl hl' hphysical hplace]
    unfold Plan.spans
    omega

end

/-! ### Where jumpers land -/

section

variable {s t : Session} {source' physical' : Instruction}

include h

/-- A jumper lands in the section where it landed, on the same instruction or on what was put in front
of it. -/
theorem arrives (hp : program.Tidy program.chain.ids) (hlogical : logical ∈ program.chain.ids)
    (jumper : InstrId) : ∃ physical physical',
      program.chain.get? (program.redirects.resolve jumper logical) = some physical
        ∧ program.redirects.resolve jumper logical ∈ program.chain.ids
        ∧ after.redirects.resolve jumper logical
          = program.arrival plan names jumper (program.redirects.resolve jumper logical)
        ∧ after.chain.get? (after.redirects.resolve jumper logical) = some physical'
        ∧ after.redirects.resolve jumper logical ∈ after.chain.ids
        ∧ physical'.sec = physical.sec := by
  have hmem : program.redirects.resolve jumper logical ∈ program.chain.ids :=
    hp.within.resolve hlogical jumper
  have harrives : after.redirects.resolve jumper logical
      = program.arrival plan names jumper (program.redirects.resolve jumper logical) := by
    rw [arrival, entering, Redirects.resolve, Redirects.resolve, h.overrides]
    cases hover : program.redirects.overrideOf? jumper with
    | some place => simp
    | none =>
      rw [Option.getD_none, Option.getD_none, Option.isNone_none, Bool.true_and, h.landings _ hlogical]
      rfl
  obtain ⟨physical, hphysical⟩ := hp.spells.get?_isSome hmem
  refine ⟨physical, ?_⟩
  rw [harrives, h.code, Plan.mem_code]
  generalize program.redirects.resolve jumper logical = place at hmem hphysical
  rw [arrival]
  -- it is led to what was put in front of the place, or straight to the place
  by_cases hentering : program.entering plan jumper place = true
  · rw [if_pos hentering]
    cases hplan : plan place with
    | none =>
      rw [entering, Plan.enters_of_none hplan, Bool.and_false] at hentering
      cases hentering
    | some addition =>
      obtain ⟨b, hb, hplaced⟩ := h.placed hphysical hplan
      exact ⟨b, hphysical, hmem, rfl, hb, .inr ⟨place, hmem, by rw [hplan]; rfl, rfl⟩, hplaced.sec⟩
  · rw [if_neg hentering]
    obtain ⟨b, hb, hkept⟩ := h.kept hphysical
    exact ⟨b, hphysical, hmem, rfl, hb, .inl hmem, hkept.sec⟩

/-- What does not land in its section does not land there later either. -/
theorem landing?_eq_none (hp : program.Tidy program.chain.ids) (hid : id ∈ program.chain.ids)
    (ha : program.chain.get? id = some a) (hb : after.chain.get? id = some b)
    (hnone : program.landing? id a = none) : after.landing? id b = none := by
  obtain ⟨found, hfound, hkept⟩ := h.kept ha
  obtain rfl := Option.some.inj (hfound.symm.trans hb)
  unfold landing? at hnone ⊢
  have hdirect : found.isDirectTransfer = a.isDirectTransfer := by
    rw [Instruction.isDirectTransfer, Instruction.isDirectTransfer, hkept.flags, hkept.target]
  rw [hdirect, hkept.target, hkept.sec]
  split at hnone
  next htransfer =>
    rw [if_pos htransfer]
    cases htarget : a.target with
    | none => rfl
    | some logical =>
      have hrefers : logical ∈ a.references := by simp [Instruction.references, htarget]
      have hlogical := (hp.listed id hid a ha logical hrefers).1
      obtain ⟨physical, physical', hphysical, -, -, hphysical', -, hsec⟩ := h.arrives hp hlogical id
      rw [htarget, Option.bind_some, hphysical, Option.filter_some] at hnone
      rw [Option.bind_some, hphysical', Option.filter_some, hsec]
      split at hnone
      next => cases hnone
      next hother => exact if_neg hother
  next htransfer => rw [if_neg htransfer]

/-- Settling does no more than a program with the code put in may differ from the one without. -/
theorem recode (hp : program.Tidy program.chain.ids) (hs : s.program = after)
    (hrecodes : Session.Recodes s t) : program.Extends t.program plan names := by
  subst hs
  have hids := hrecodes.chain.ids
  have hsize : t.program.chain.slots.size = s.program.chain.slots.size := by
    obtain ⟨f, hf, -⟩ := hrecodes.chain
    rw [hf, Chain.size_slots_adjust]
  refine ⟨h.sites, hids.trans h.code, fun {id a} ha => ?_, fun {id a addition} ha hplan => ?_,
    hrecodes.redirects ▸ h.overrides, hrecodes.redirects ▸ h.landings, hrecodes.redirects ▸ h.unplanned,
    hrecodes.bases.trans h.bases, hsize ▸ h.issued, hsize ▸ h.fresh⟩
  · obtain ⟨b, hb, hkept⟩ := h.kept ha
    obtain ⟨c, hc, hcarried, hcoded, hfixed⟩ := hrecodes.chain.get? hb
    refine ⟨c, hc, hcarried.sec.trans hkept.sec, hcarried.flags.trans hkept.flags,
      hcarried.target.trans hkept.target, hcarried.func.trans hkept.func, hkept.coded.trans hcoded,
      fun hnone => ?_⟩
    have hmem : id ∈ program.chain.ids :=
      hp.attached.mem ha
    obtain ⟨hbytes, hopcode⟩ := hfixed (h.landing?_eq_none hp hmem ha hb hnone)
    obtain ⟨hbytes', hopcode'⟩ := hkept.fixed hnone
    exact ⟨hbytes.trans hbytes', hopcode.trans hopcode'⟩
  · obtain ⟨b, hb, hplaced⟩ := h.placed ha hplan
    obtain ⟨c, hc, hcarried, -, hfixed⟩ := hrecodes.chain.get? hb
    -- it has no target, so nothing is written in it
    have hnone : s.program.landing? (names id) b = none := by
      rw [landing?, hplaced.target, Option.bind_none]
      split <;> rfl
    obtain ⟨hbytes, hopcode⟩ := hfixed hnone
    exact ⟨c, hc, hcarried.sec.trans hplaced.sec, hcarried.func.trans hplaced.func,
      hcarried.flags.trans hplaced.flags, hcarried.target.trans hplaced.target,
      hbytes.trans hplaced.bytes, hopcode.trans hplaced.opcodeSize⟩

/-! ### What has to be widened -/

/-- No instruction is longer than with all of `wide` widened, if all that were are of these. -/
theorem lengths_le (hwidened : program.widened after ⊆ wide) (hid : id ∈ program.chain.ids)
    (ha : program.chain.get? id = some a) : after.lengths id ≤ program.lengthsWith wide id := by
  obtain ⟨b, hb, hkept⟩ := h.kept ha
  rw [lengths_eq hb]
  exact le_lengthsWith ha hkept.coded.sized fun hne => hwidened ((mem_widened ha hb).mpr ⟨hid, hne⟩)

/-- A jump that does not reach has to be widened, whatever the jumps are that have been widened, as long
as those had to be, too. -/
theorem mem_of_overflows (hp : program.Tidy program.chain.ids) (hl : after.chain.Spells after.chain.ids)
    (hattached : after.chain.Attached after.chain.ids) (hlaid : after.LaidOut after.chain.ids)
    (hwidened : program.widened after ⊆ wide) (hwide : program.SufficesFor plan wide) (hover : after.Overflows jumper source physical) :
    jumper ∈ wide := by
  obtain ⟨logical, htarget, hphysical, -⟩ := hover.target
  have hjumper' : jumper ∈ after.chain.ids :=
    hattached.mem hover.get
  have hjumper : jumper ∈ program.chain.ids := by
    rw [h.code, Plan.mem_code] at hjumper'
    rcases hjumper' with hold | ⟨id, hid, hplanned, rfl⟩
    · exact hold
    · obtain ⟨a, ha⟩ := hp.spells.get?_isSome hid
      obtain ⟨addition, hplan⟩ := Option.isSome_iff_exists.mp hplanned
      obtain ⟨b, hb, hplaced⟩ := h.placed ha hplan
      obtain rfl := Option.some.inj (hb.symm.trans hover.get)
      rw [hplaced.target] at htarget
      cases htarget
  obtain ⟨a, ha⟩ := hp.spells.get?_isSome hjumper
  obtain ⟨b, hb, hkept⟩ := h.kept ha
  obtain rfl := Option.some.inj (hb.symm.trans hover.get)
  rw [hkept.target] at htarget
  have hrefers : logical ∈ a.references := by simp [Instruction.references, htarget]
  have hlogical := (hp.listed jumper hjumper a ha logical hrefers).1
  obtain ⟨land, land', hland, hplace, harrives, hland', hmem, hsec⟩ := h.arrives hp hlogical jumper
  obtain rfl := Option.some.inj (hland'.symm.trans hphysical)
  have hsec' : land.sec = a.sec := hsec.symm.trans (hover.sec.trans hkept.sec)
  -- a jump that is still short was not widened
  have hshort : a.isShortJump = true := by
    rcases hkept.coded.sized with hsame | hlong
    · rw [← hsame.isShortJump]
      exact hover.short
    · have hshort := hover.short
      rw [hlong.not_short] at hshort
      cases hshort
  have hlands : program.Lands jumper a land := by
    refine ⟨ha, ?_, logical, htarget, hland, hp.spells.isLinked_iff.mpr hplace⟩
    have hdirect := hover.direct
    rwa [Instruction.isDirectTransfer, hkept.flags, hkept.target] at hdirect
  by_cases hin : jumper ∈ wide
  · exact hin
  · exfalso
    have hreach := hwide jumper a land logical hjumper hin hlands hsec' hshort htarget
    have hskip := program.skipped_le plan jumper (program.redirects.resolve jumper logical)
    have hlonger : ∀ id ∈ program.chain.ids,
        plan.spans after.lengths id ≤ plan.spans (program.lengthsWith wide) id := by
      intro id hid
      obtain ⟨i, hi⟩ := hp.spells.get?_isSome hid
      exact Nat.add_le_add_left (h.lengths_le hwidened hid hi) _
    have hnow := hreach.mono hp.spells hjumper hplace ((Chain.inSection_iff ha).mpr rfl)
      ((Chain.inSection_iff hland).mpr hsec') hlonger (Nat.le_refl _)
      (Nat.le_trans hskip (Nat.le_add_right _ _)) (Nat.add_le_add_right (hlonger _ hplace) _)
    unfold Lies at hnow
    rw [← h.distance hp.spells hl ha hjumper hland hplace hsec', ← harrives, ← hkept.sec] at hnow
    obtain ⟨field, hfield, hfits⟩ := hover.overflow
    rw [hlaid.displacementTo_eq hl hjumper' hmem hb hphysical hover.sec] at hfits
    have hwidth := width_of_isShortJump hover.short hfield
    rw [(fits_iff hwidth (by omega) (by omega)).mpr hnow] at hfits
    cases hfits

/-- Where all direct transfers encode where they land, those that were widened suffice. -/
theorem suffices_widened (hp : program.Tidy program.chain.ids) (hl : after.chain.Spells after.chain.ids)
    (hlaid : after.LaidOut after.chain.ids) (hencodes : ∀ id ∈ after.chain.ids, after.Encodes id)
    (hsize : ∀ sec, after.bytesIn sec after.lengths after.chain.ids < 2 ^ 63) :
    program.SufficesFor plan (program.widened after) := by
  intro jumper a land logical hjumper hkept' hlands hsec hshort htarget
  have ha := hlands.get
  obtain ⟨b, hb, hkept⟩ := h.kept ha
  have hjumper' : jumper ∈ after.chain.ids := by
    rw [h.code, Plan.mem_code]
    exact .inl hjumper
  have hrefers : logical ∈ a.references := by simp [Instruction.references, htarget]
  have hlogical := (hp.listed jumper hjumper a ha logical hrefers).1
  obtain ⟨found, land', hfound, hplace, harrives, hland', hmem, hsec'⟩ := h.arrives hp hlogical jumper
  obtain rfl := Option.some.inj (hfound.symm.trans (hlands.lands htarget hp.spells).1)
  have hrewritten : a.Rewritten b := by
    refine hkept.coded.sized.resolve_right fun hlonger => hkept' ?_
    exact (mem_widened ha hb).mpr ⟨hjumper, Nat.ne_of_gt hlonger.lt⟩
  -- it is still short, so its displacement is in one byte
  have hshort' : b.isShortJump = true := hrewritten.isShortJump.trans hshort
  have hdirect : b.isDirectTransfer = true := by
    rw [Instruction.isDirectTransfer, hkept.flags, hkept.target]
    exact hlands.direct
  obtain ⟨physical, hphysical, hencoded⟩ :=
    hencodes jumper hjumper' b logical hb (hkept.target.trans htarget) hdirect
  obtain rfl := Option.some.inj (hland'.symm.trans hphysical)
  have hsame : land'.sec = b.sec := hsec'.trans (hsec.trans hkept.sec.symm)
  obtain ⟨field, hfield, hread⟩ := Option.bind_eq_some_iff.mp
    (Instruction.displacement?_of_encodes (hencoded hsame))
  have hfits := (DisplacementField.write?_eq_some.mp (DisplacementField.write?_of_read? hread)).1
  have hin : after.chain.inSection b.sec jumper = true := (Chain.inSection_iff hb).mpr rfl
  obtain ⟨hlower, hupper⟩ := distance_le after.lengths hl hjumper' hmem hin
  have hbound := hsize b.sec
  rw [hlaid.displacementTo_eq hl hjumper' hmem hb hland' hsame,
    fits_iff (width_of_isShortJump hshort' hfield) (by omega) (by omega), harrives, hkept.sec,
    h.distance hp.spells hl ha hjumper hfound hplace hsec] at hfits
  have hlengths : ∀ id ∈ program.chain.ids,
      plan.spans (program.lengthsWith (program.widened after)) id = plan.spans after.lengths id := by
    intro id hid
    obtain ⟨i, hi⟩ := hp.spells.get?_isSome hid
    obtain ⟨j, hj, hkept⟩ := h.kept hi
    rw [Plan.spans, Plan.spans, lengths_eq hj, eq_lengthsWith hi hkept.coded.sized]
    rw [mem_widened hi hj]
    exact and_iff_right hid
  have hskip := program.skipped_le plan jumper (program.redirects.resolve jumper logical)
  refine Lies.mono hfits hp.spells hjumper hplace ((Chain.inSection_iff ha).mpr rfl)
    ((Chain.inSection_iff hfound).mpr hsec) (fun id hid => Nat.le_of_eq (hlengths id hid)) (Nat.le_refl _)
    (Nat.le_trans hskip (Nat.le_add_right _ _)) ?_
  exact Nat.add_le_add_right (Nat.le_of_eq (hlengths _ hplace)) _

end

end Extends

end Program

end Splice
