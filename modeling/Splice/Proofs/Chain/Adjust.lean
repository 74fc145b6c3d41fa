import Splice.Chain.Basic
import Splice.Proofs.Run

/-!
# Changing instructions in place

Most operations on a chain leave its order alone and change instructions where they
stand. `adjust f` is such a change, with `f` saying what becomes of each instruction; the
names in the order of the code are the same before and after, and two changes in a row
are one. An operation on single instructions is described by the `f` it amounts to
(`ChainM.update_ok`), and where only a part of that matters, by `Evolves r`: the chain was
adjusted, and each instruction is related by `r` to what became of it. Where instructions
come and go, `Retains r kept` says the same of those that stay.

The names `refl`, `trans`, `and` and `imp` are used for relations between instructions and for
those between chains alike, so a change that is made of several steps is described by composing
what is known of each. `Retains` is needed where names come and go, since an adjustment keeps
all of them.
-/

namespace Splice

/-! ## Values that are both there or both missing -/

section

variable {α β γ : Type} {p : α → β → Prop} {q : β → γ → Prop} {r : α → γ → Prop} {x : Option α}
  {y : Option β} {z : Option γ} {a : α} {b : β}

theorem rel_refl {p : α → α → Prop} (h : ∀ a, p a a) (x : Option α) : Option.Rel p x x := by
  cases x with
  | none => exact .none
  | some a => exact .some (h a)

/-- A change to each value that is there relates the values before and after. -/
theorem rel_map {f : α → β} (h : ∀ a, p a (f a)) (x : Option α) : Option.Rel p x (x.map f) := by
  cases x with
  | none => exact .none
  | some a => exact .some (h a)

/-- Values related through values in between are related by the composition, where all three are there or
none is. -/
theorem rel_comp (hxy : Option.Rel p x y) (hyz : Option.Rel q y z) (h : ∀ a b c, p a b → q b c → r a c) :
    Option.Rel r x z := by
  cases hxy with
  | none =>
    cases hyz
    exact .none
  | some hab =>
    cases hyz with
    | some hbc => exact .some (h _ _ _ hab hbc)

/-- A weaker relation holds where a stronger one does. -/
theorem rel_mono {q : α → β → Prop} (hxy : Option.Rel p x y) (h : ∀ a b, p a b → q a b) : Option.Rel q x y := by
  cases hxy with
  | none => exact .none
  | some hab => exact .some (h _ _ hab)

/-- Two relations that hold between the same values hold together. -/
theorem rel_and {q : α → β → Prop} (h : Option.Rel p x y) (k : Option.Rel q x y) :
    Option.Rel (fun a b => p a b ∧ q a b) x y := by
  cases h with
  | none => exact .none
  | some hp =>
    cases k with
    | some hq => exact .some ⟨hp, hq⟩

/-- What became of a value. -/
theorem rel_some (h : Option.Rel p x y) (hx : x = some a) : ∃ b, y = some b ∧ p a b := by
  subst hx
  cases h with
  | some hab => exact ⟨_, rfl, hab⟩

theorem rel_none (h : Option.Rel p x y) (hx : x = none) : y = none := by
  subst hx
  cases h
  rfl

/-- What a value was. -/
theorem rel_some_of (h : Option.Rel p x y) (hy : y = some b) : ∃ a, x = some a ∧ p a b := by
  subst hy
  cases h with
  | some hab => exact ⟨_, rfl, hab⟩

/-- A view that related values agree on is the same of both. -/
theorem rel_map_eq {δ : Type} {f : α → δ} {g : β → δ} (h : Option.Rel p x y) (hfg : ∀ a b, p a b → g b = f a) :
    y.map g = x.map f := by
  cases h with
  | none => rfl
  | some hab => rw [Option.map_some, Option.map_some, hfg _ _ hab]

end

namespace Chain

/-- The chain with every instruction changed by `f`. -/
def adjust (chain : Chain) (f : InstrId → Instruction → Instruction) : Chain :=
  { chain with
    slots := chain.slots.mapIdx fun index slot =>
      slot.map fun node => { node with instr := f ⟨index⟩ node.instr } }

/-- The change of a single instruction. -/
def only (id : InstrId) (f : Instruction → Instruction) : InstrId → Instruction → Instruction :=
  fun other instr => if other = id then f instr else instr

variable {chain : Chain} {f g : InstrId → Instruction → Instruction} {id : InstrId}

theorem only_self (f : Instruction → Instruction) (instr : Instruction) :
    only id f id instr = f instr := by
  simp [only]

theorem only_ne {other : InstrId} (h : other ≠ id) (f : Instruction → Instruction)
    (instr : Instruction) : only id f other instr = instr := by
  simp [only, h]

/-! ## What is read from an adjusted chain -/

@[simp]
theorem head_adjust : (chain.adjust f).head = chain.head := rfl

@[simp]
theorem tail_adjust : (chain.adjust f).tail = chain.tail := rfl

@[simp]
theorem length_adjust : (chain.adjust f).length = chain.length := rfl

@[simp]
theorem size_slots_adjust : (chain.adjust f).slots.size = chain.slots.size := by
  simp [adjust]

theorem node?_adjust : (chain.adjust f).node? id
    = (chain.node? id).map fun node => { node with instr := f id node.instr } := by
  simp only [node?, adjust, Array.getElem?_mapIdx]
  rcases chain.slots[id.index]? with _ | _ | node <;> rfl

theorem get?_adjust : (chain.adjust f).get? id = (chain.get? id).map (f id) := by
  simp only [get?, node?_adjust, Option.map_map]
  rfl

@[simp]
theorem next?_adjust : (chain.adjust f).next? id = chain.next? id := by
  rw [next?, next?, node?_adjust]
  cases chain.node? id <;> rfl

@[simp]
theorem prev?_adjust : (chain.adjust f).prev? id = chain.prev? id := by
  rw [prev?, prev?, node?_adjust]
  cases chain.node? id <;> rfl

@[simp]
theorem contains_adjust : (chain.adjust f).contains id = chain.contains id := by
  simp [contains, node?_adjust]

@[simp]
theorem isLinked_adjust : (chain.adjust f).isLinked id = chain.isLinked id := by
  rw [isLinked, isLinked, node?_adjust]
  cases chain.node? id <;> rfl

/-- An adjustment does not touch the links, so following them leads along the same instructions. -/
@[simp]
theorem follow_adjust (steps : Nat) (start : Option InstrId) :
    (chain.adjust f).follow steps start = chain.follow steps start := by
  induction steps generalizing start with
  | zero => rfl
  | succ steps ih =>
    cases start with
    | none => rfl
    | some id => simp only [follow, next?_adjust, ih]

@[simp]
theorem walk_adjust (start : Option InstrId) : (chain.adjust f).walk start = chain.walk start := by
  simp [walk]

@[simp]
theorem ids_adjust : (chain.adjust f).ids = chain.ids := by
  simp [ids]

@[simp]
theorem run_adjust (first last : Option InstrId) :
    (chain.adjust f).run first last = chain.run first last := by
  simp [run]

/-- An instruction is contained exactly if looking it up finds one. -/
theorem contains_eq_isSome_get? : chain.contains id = (chain.get? id).isSome := by
  simp [contains, get?]

/-- To get an instruction succeeds exactly if looking it up finds it. -/
theorem get_ok {found : Instruction} : chain.get id = .ok found ↔ chain.get? id = some found := by
  unfold Chain.get
  cases chain.get? id <;> simp

theorem get?_eq_none_iff_node? : chain.get? id = none ↔ chain.node? id = none := by
  simp [get?]

/-- The name that is handed out next names nothing yet. -/
theorem get?_size (chain : Chain) : chain.get? ⟨chain.slots.size⟩ = none := by
  rw [get?_eq_none_iff_node?, node?]
  simp

/-! ## Equal adjustments -/

/-- Chains with the same slots, ends and length are the same. -/
theorem ext_slots {a b : Chain} (hslot : ∀ index : Nat, a.slots[index]? = b.slots[index]?)
    (hhead : a.head = b.head) (htail : a.tail = b.tail) (hlength : a.length = b.length) :
    a = b := by
  cases a
  cases b
  simp only at hslot hhead htail hlength
  rw [Array.ext_getElem? hslot, hhead, htail, hlength]

/-- What an adjustment does to names that the chain does not have makes no difference. -/
theorem adjust_congr (h : ∀ id instr, chain.get? id = some instr → f id instr = g id instr) :
    chain.adjust f = chain.adjust g := by
  refine ext_slots (fun index => ?_) rfl rfl rfl
  simp only [adjust, Array.getElem?_mapIdx]
  have hid := h ⟨index⟩
  simp only [get?, node?] at hid
  rcases hslot : chain.slots[index]? with _ | _ | node
  · rfl
  · rfl
  · rw [hslot] at hid
    have heq := hid node.instr rfl
    simp [heq]

/-- An adjustment that leaves each instruction of the chain as it is does nothing. -/
theorem adjust_self (h : ∀ id instr, chain.get? id = some instr → f id instr = instr) :
    chain.adjust f = chain := by
  refine ext_slots (fun index => ?_) rfl rfl rfl
  simp only [adjust, Array.getElem?_mapIdx]
  have hid := h ⟨index⟩
  simp only [get?, node?] at hid
  rcases hslot : chain.slots[index]? with _ | _ | node
  · rfl
  · rfl
  · rw [hslot] at hid
    have heq := hid node.instr rfl
    simp [heq]

/-- Two adjustments in a row are one, which does both to each instruction. -/
theorem adjust_adjust :
    (chain.adjust f).adjust g = chain.adjust fun id instr => g id (f id instr) := by
  refine ext_slots (fun index => ?_) rfl rfl rfl
  simp only [adjust, Array.getElem?_mapIdx]
  rcases chain.slots[index]? with _ | _ | node <;> rfl

/-- A change to the instruction at one place is an adjustment at that place. The node keeps its links, so
this is the way from the operations on nodes to adjustments. -/
theorem update_eq_adjust (f : Instruction → Instruction) :
    chain.update id (fun node => { node with instr := f node.instr })
      = chain.adjust (only id f) := by
  refine ext_slots (fun index => ?_) rfl rfl rfl
  simp only [adjust, update, Array.getElem?_mapIdx, Array.getElem?_modify]
  by_cases h : id.index = index
  · have hid : (⟨index⟩ : InstrId) = id := Handle.ext_index h.symm
    rw [if_pos h, hid]
    rcases chain.slots[index]? with _ | _ | node
    · rfl
    · rfl
    · simp [only_self]
  · have hid : (⟨index⟩ : InstrId) ≠ id := fun he => h (he ▸ rfl)
    rw [if_neg h]
    rcases chain.slots[index]? with _ | _ | node
    · rfl
    · rfl
    · simp [only_ne hid]

/-! ## Adjustments known in part -/

/-- `after` is `chain` with its instructions changed in place, each along `r`. -/
def Evolves (r : InstrId → Instruction → Instruction → Prop) (chain after : Chain) : Prop :=
  ∃ f, after = chain.adjust f ∧ ∀ id instr, chain.get? id = some instr → r id instr (f id instr)

variable {r q : InstrId → Instruction → Instruction → Prop} {after : Chain}

/-- What an adjustment does to each instruction is what the chain evolves by. -/
theorem Evolves.of_adjust (h : ∀ id instr, chain.get? id = some instr → r id instr (f id instr)) :
    Evolves r chain (chain.adjust f) :=
  ⟨f, rfl, h⟩

theorem Evolves.refl (h : ∀ id instr, r id instr instr) (chain : Chain) : Evolves r chain chain :=
  ⟨fun _ instr => instr, (adjust_self fun _ _ _ => rfl).symm, fun id instr _ => h id instr⟩

/-- Two evolutions in a row compose, instruction by instruction. -/
theorem Evolves.comp {r₁ r₂ : InstrId → Instruction → Instruction → Prop}
    (h : ∀ id a b c, r₁ id a b → r₂ id b c → r id a c) {a b c : Chain}
    (hab : Evolves r₁ a b) (hbc : Evolves r₂ b c) : Evolves r a c := by
  obtain ⟨f, rfl, hf⟩ := hab
  obtain ⟨g, rfl, hg⟩ := hbc
  refine ⟨_, adjust_adjust, fun id instr hget => ?_⟩
  refine h _ _ _ _ (hf id instr hget) (hg id (f id instr) ?_)
  rw [get?_adjust, hget]
  rfl

/-- Evolving by a transitive relation is transitive. -/
theorem Evolves.trans (h : ∀ id a b c, r id a b → r id b c → r id a c) {a b c : Chain}
    (hab : Evolves r a b) (hbc : Evolves r b c) : Evolves r a c :=
  hab.comp h hbc

/-- What holds of each instruction and what became of it may be weakened. -/
theorem Evolves.mono (hle : ∀ id a b, r id a b → q id a b) (h : Evolves r chain after) :
    Evolves q chain after := by
  obtain ⟨f, rfl, hf⟩ := h
  exact ⟨f, rfl, fun id instr hget => hle _ _ _ (hf id instr hget)⟩

/-- Evolving by a reflexive and transitive relation is an invariant of all runs. -/
theorem Evolves.stepRelation (hrefl : ∀ id instr, r id instr instr)
    (htrans : ∀ id a b c, r id a b → r id b c → r id a c) : StepRelation (Evolves r) :=
  ⟨Evolves.refl hrefl, Evolves.trans htrans⟩

/-- What became of an instruction. -/
theorem Evolves.get? (h : Evolves r chain after) {instr : Instruction}
    (hget : chain.get? id = some instr) :
    ∃ instr', after.get? id = some instr' ∧ r id instr instr' := by
  obtain ⟨f, rfl, hf⟩ := h
  exact ⟨f id instr, by rw [get?_adjust, hget]; rfl, hf id instr hget⟩

/-- What an instruction was. -/
theorem Evolves.get?_of (h : Evolves r chain after) {instr' : Instruction}
    (hget : after.get? id = some instr') :
    ∃ instr, chain.get? id = some instr ∧ r id instr instr' := by
  obtain ⟨f, rfl, hf⟩ := h
  rw [get?_adjust, Option.map_eq_some_iff] at hget
  obtain ⟨instr, hinstr, rfl⟩ := hget
  exact ⟨instr, hinstr, hf id instr hinstr⟩

/-- Two accounts of what became of each instruction hold together. -/
theorem Evolves.and (h : Evolves r chain after) (k : Evolves q chain after) :
    Evolves (fun id a b => r id a b ∧ q id a b) chain after := by
  obtain ⟨f, rfl, hf⟩ := h
  refine .of_adjust fun id instr hget => ⟨hf id instr hget, ?_⟩
  obtain ⟨instr', hget', hq⟩ := k.get? hget
  rw [get?_adjust, hget, Option.map_some, Option.some.injEq] at hget'
  rwa [hget']

/-- Of one chain two others evolved that hold the same instructions: they are the same. -/
theorem Evolves.eq_of_get? {other : Chain} (h : Evolves r chain after) (k : Evolves q chain other)
    (hget : ∀ id, after.get? id = other.get? id) : after = other := by
  obtain ⟨f, rfl, -⟩ := h
  obtain ⟨g, rfl, -⟩ := k
  refine adjust_congr fun id instr hinstr => ?_
  have hid := hget id
  rw [get?_adjust, get?_adjust, hinstr] at hid
  exact Option.some.inj hid

theorem Evolves.isSome_get? (h : Evolves r chain after) :
    (after.get? id).isSome = (chain.get? id).isSome := by
  obtain ⟨f, rfl, -⟩ := h
  simp [get?_adjust]

/-- A name that the chain does not have is not had afterwards either. -/
theorem Evolves.get?_eq_none (h : Evolves r chain after) (hget : chain.get? id = none) :
    after.get? id = none := by
  obtain ⟨f, rfl, -⟩ := h
  rw [get?_adjust, hget]
  rfl

/-- The order of the code stays the same. -/
theorem Evolves.ids (h : Evolves r chain after) : after.ids = chain.ids := by
  obtain ⟨f, rfl, -⟩ := h
  exact ids_adjust

/-- Walks along the chain stay the same. -/
theorem Evolves.walk (h : Evolves r chain after) (start : Option InstrId) :
    after.walk start = chain.walk start := by
  obtain ⟨f, rfl, -⟩ := h
  exact walk_adjust start

/-- The run between two instructions stays the same. -/
theorem Evolves.run (h : Evolves r chain after) (first last : Option InstrId) :
    after.run first last = chain.run first last := by
  obtain ⟨f, rfl, -⟩ := h
  exact run_adjust first last

theorem Evolves.next? (h : Evolves r chain after) (id : InstrId) :
    after.next? id = chain.next? id := by
  obtain ⟨f, rfl, -⟩ := h
  exact next?_adjust

theorem Evolves.isLinked (h : Evolves r chain after) (id : InstrId) :
    after.isLinked id = chain.isLinked id := by
  obtain ⟨f, rfl, -⟩ := h
  exact isLinked_adjust

/-! ## Instructions that survive -/

/-- The instructions that are `kept` are in both chains or in neither, and in both are related
by `r`. -/
def Retains (r : InstrId → Instruction → Instruction → Prop) (kept : InstrId → Prop)
    (chain after : Chain) : Prop :=
  ∀ id, kept id → Option.Rel (r id) (chain.get? id) (after.get? id)

variable {kept kept' : InstrId → Prop}

/-- Where each kept instruction is found changed by `f`, and `f` changes within the relation, the relation
holds of all that are kept. -/
theorem Retains.of_map (h : ∀ id, kept id → after.get? id = (chain.get? id).map (f id))
    (hr : ∀ id instr, kept id → chain.get? id = some instr → r id instr (f id instr)) :
    Retains r kept chain after := by
  intro id hid
  rw [h id hid]
  cases hget : chain.get? id with
  | none => exact .none
  | some instr => exact .some (hr id instr hid hget)

/-- What is found unchanged is retained by any reflexive relation. -/
theorem Retains.of_get?_eq (hrefl : ∀ id instr, r id instr instr)
    (h : ∀ id, kept id → after.get? id = chain.get? id) : Retains r kept chain after := by
  intro id hid
  rw [h id hid]
  exact rel_refl (hrefl id) _

/-- Where every instruction evolves, those that are kept do. -/
theorem Evolves.retains (h : Evolves r chain after) (kept : InstrId → Prop) :
    Retains r kept chain after := by
  obtain ⟨f, rfl, hf⟩ := h
  exact .of_map (fun id _ => get?_adjust) fun id instr _ hget => hf id instr hget

/-- Instructions that are retained over two steps are retained by the composition. -/
theorem Retains.comp {r₁ r₂ : InstrId → Instruction → Instruction → Prop}
    (htrans : ∀ id a b c, kept id → r₁ id a b → r₂ id b c → r id a c) {a b c : Chain}
    (hab : Retains r₁ kept a b) (hbc : Retains r₂ kept b c) : Retains r kept a c :=
  fun id hid => rel_comp (hab id hid) (hbc id hid) fun a b c => htrans id a b c hid

theorem Retains.trans (htrans : ∀ id a b c, r id a b → r id b c → r id a c) {a b c : Chain}
    (hab : Retains r kept a b) (hbc : Retains r kept b c) : Retains r kept a c :=
  hab.comp (fun id a b c _ => htrans id a b c) hbc

/-- Fewer instructions are retained, or more loosely. -/
theorem Retains.mono (hle : ∀ id a b, kept' id → r id a b → q id a b)
    (hkept : ∀ id, kept' id → kept id) (h : Retains r kept chain after) :
    Retains q kept' chain after :=
  fun id hid => rel_mono (h id (hkept id hid)) fun a b => hle id a b hid

/-- Two accounts of the retained instructions hold together. -/
theorem Retains.and (h : Retains r kept chain after) (k : Retains q kept chain after) :
    Retains (fun id a b => r id a b ∧ q id a b) kept chain after :=
  fun id hid => rel_and (h id hid) (k id hid)

/-- A kept instruction is found afterwards, related to what it was. -/
theorem Retains.get? (h : Retains r kept chain after) (hid : kept id) {instr : Instruction}
    (hget : chain.get? id = some instr) :
    ∃ instr', after.get? id = some instr' ∧ r id instr instr' :=
  rel_some (h id hid) hget

/-- What is found of a kept instruction afterwards was there before. -/
theorem Retains.get?_of (h : Retains r kept chain after) (hid : kept id) {instr' : Instruction}
    (hget : after.get? id = some instr') :
    ∃ instr, chain.get? id = some instr ∧ r id instr instr' :=
  rel_some_of (h id hid) hget

/-- What a retained instruction is asked for has the answer that it had. -/
theorem Retains.map_get? {α : Type} {g g' : Instruction → α} (h : Retains r kept chain after) (hid : kept id)
    (hr : ∀ a b, r id a b → g' b = g a) : (after.get? id).map g' = (chain.get? id).map g :=
  rel_map_eq (h id hid) hr

/-- A test of a kept instruction comes out the same if related instructions pass it alike. -/
theorem Retains.any_get? {p p' : Instruction → Bool} (h : Retains r kept chain after) (hid : kept id)
    (hr : ∀ a b, r id a b → p' b = p a) : (after.get? id).any p' = (chain.get? id).any p := by
  have hany : ∀ (entry : Option Instruction) (p : Instruction → Bool), entry.any p = (entry.map p).getD false := by
    rintro (_ | _) _ <;> rfl
  rw [hany, hany, h.map_get? hid hr]

end Chain

/-! ## The operations on single instructions -/

namespace ChainM

variable {chain after : Chain} {id : InstrId}

/-- A node is read exactly if the chain has it, and the chain stays the same. -/
theorem node_ok {node : Node} :
    ChainM.node id chain = .ok node after ↔ chain.node? id = some node ∧ after = chain := by
  unfold ChainM.node
  rw [bind_ok]
  constructor
  · rintro ⟨c, c', hget, h⟩
    obtain ⟨rfl, rfl⟩ := get_ok.mp hget
    cases hnode : c'.node? id with
    | none =>
      rw [hnode] at h
      exact (throw_ok.mp h).elim
    | some found =>
      rw [hnode] at h
      obtain ⟨rfl, rfl⟩ := pure_ok.mp h
      exact ⟨rfl, rfl⟩
  · rintro ⟨hnode, rfl⟩
    refine ⟨after, after, rfl, ?_⟩
    rw [hnode]
    rfl

/-- An instruction is read exactly if the chain has it, and the chain stays the same. -/
theorem instr_ok {instr : Instruction} :
    ChainM.instr id chain = .ok instr after ↔ chain.get? id = some instr ∧ after = chain := by
  unfold ChainM.instr
  rw [bind_ok]
  constructor
  · rintro ⟨node, c, hnode, h⟩
    obtain ⟨hnode, rfl⟩ := node_ok.mp hnode
    obtain ⟨rfl, rfl⟩ := pure_ok.mp h
    rw [Chain.get?, hnode]
    exact ⟨rfl, rfl⟩
  · rintro ⟨hget, rfl⟩
    rw [Chain.get?, Option.map_eq_some_iff] at hget
    obtain ⟨node, hnode, rfl⟩ := hget
    exact ⟨node, after, node_ok.mpr ⟨hnode, rfl⟩, rfl⟩

/-- A node is changed exactly if the chain has it, and then it is the update that is made. -/
theorem updateNode_ok {f : Node → Node} {u : Unit} :
    ChainM.updateNode id f chain = .ok u after
      ↔ chain.contains id = true ∧ after = chain.update id f := by
  unfold ChainM.updateNode
  rw [bind_ok]
  constructor
  · rintro ⟨node, c, hnode, h⟩
    obtain ⟨hnode, rfl⟩ := node_ok.mp hnode
    exact ⟨by simp [Chain.contains, hnode], modify_ok.mp h⟩
  · rintro ⟨hcontains, rfl⟩
    obtain ⟨node, hnode⟩ := Option.isSome_iff_exists.mp hcontains
    exact ⟨node, chain, node_ok.mpr ⟨hnode, rfl⟩, modify_ok.mpr rfl⟩

/-- An instruction is changed exactly if the chain has it, and the change is an adjustment at that
place. -/
theorem update_ok {f : Instruction → Instruction} {u : Unit} :
    ChainM.update id f chain = .ok u after
      ↔ chain.contains id = true ∧ after = chain.adjust (Chain.only id f) := by
  unfold ChainM.update
  rw [updateNode_ok, Chain.update_eq_adjust]

end ChainM

end Splice
