import Splice.Instruction.Basic
import Splice.Chain.Error

/-!
# The instruction chain

The code of a program is a doubly linked list of instructions. Instructions live in
slots and are named by the position of their slot; the order of the code is kept in
`prev` and `next` links between slots. Splicing therefore never moves an
instruction, and a handle stays valid until its instruction is freed. A freed slot
is not used again, so a handle never comes to name another instruction.

An instruction is *present* while its slot is filled and *linked* while it is part
of the list. `ids` is the list itself, the view through which the operations of
`Splice.Chain.Edit` are described.

Operations that change the chain run in `ChainM`, which keeps the chain that was
reached when an operation is refused.

Notes on the model:
* the links are kept as they are, also where they contradict each other: `ids` follows `next`
  from `head`, bounded by the number of slots, so what a broken list looks like from the front
  can be said;
* `isLinked` asks for a link to what comes before, or for being the head, and nothing more;
* there is always room for another slot, so no operation is refused for want of memory.
-/

namespace Splice

/-- An instruction in its slot, with its neighbours in the order of the code. -/
structure Node where
  instr : Instruction
  prev : Option InstrId
  next : Option InstrId
deriving DecidableEq, Inhabited

/-- Instructions in slots, linked in the order of the code. -/
structure Chain where
  slots : Array (Option Node)
  head : Option InstrId
  tail : Option InstrId
  /-- Number of linked instructions. -/
  length : Nat
deriving DecidableEq

namespace Chain

def empty : Chain := ⟨#[], none, none, 0⟩

instance : Inhabited Chain := ⟨empty⟩

def isEmpty (chain : Chain) : Bool := chain.length == 0

/-- The filled slot with the name `id`. -/
def node? (chain : Chain) (id : InstrId) : Option Node :=
  (chain.slots[id.index]?).join

def get? (chain : Chain) (id : InstrId) : Option Instruction :=
  (chain.node? id).map (·.instr)

def next? (chain : Chain) (id : InstrId) : Option InstrId :=
  (chain.node? id).bind (·.next)

def prev? (chain : Chain) (id : InstrId) : Option InstrId :=
  (chain.node? id).bind (·.prev)

/-- The instruction is present, linked or not. -/
def contains (chain : Chain) (id : InstrId) : Bool := (chain.node? id).isSome

/-- The instruction is part of the list: something precedes it, or it is the head. -/
def isLinked (chain : Chain) (id : InstrId) : Bool :=
  match chain.node? id with
  | some node => node.prev.isSome || chain.head == some id
  | none => false

/-- The first instructions met along `next` from `start`, at most `steps` of them. -/
def follow (chain : Chain) : (steps : Nat) → (start : Option InstrId) → List InstrId
  | 0, _ => []
  | _ + 1, none => []
  | steps + 1, some id => id :: follow chain steps (chain.next? id)

/-- The instructions from `start` to the end of the code. No list without repetition is longer
than the number of slots, so the bound cuts nothing off. -/
def walk (chain : Chain) (start : Option InstrId) : List InstrId :=
  chain.follow (chain.slots.size + 1) start

/-- The linked instructions in the order of the code. -/
def ids (chain : Chain) : List InstrId := chain.walk chain.head

/-- The instructions from `id` on; none if `id` is not present. -/
def walkFrom (chain : Chain) (id : InstrId) : List InstrId :=
  if chain.contains id then chain.walk (some id) else []

/-- The instructions from `first` to `last`, both included; to the end of the code if `last`
does not come. -/
def run (chain : Chain) (first last : Option InstrId) : List InstrId :=
  let behind := chain.walk first
  let before := behind.takeWhile fun id => some id != last
  before ++ (behind.drop before.length).take 1

/-- The instruction with the name `id`, which has to be present. -/
def get (chain : Chain) (id : InstrId) : Except ChainError Instruction :=
  match chain.get? id with
  | some instr => .ok instr
  | none => .error (.missingInstruction id)

/-- Changes the slot of `id`, if it is filled. -/
def update (chain : Chain) (id : InstrId) (f : Node → Node) : Chain :=
  { chain with slots := chain.slots.modify id.index (Option.map f) }

theorem node?_update (chain : Chain) (id other : InstrId) (f : Node → Node) :
    (chain.update id f).node? other
      = if other = id then (chain.node? id).map f else chain.node? other := by
  by_cases h : other = id
  · subst h
    simp only [node?, update, Array.getElem?_modify, if_true]
    rcases chain.slots[other.index]? with _ | _ | node <;> rfl
  · have hne : id.index ≠ other.index := fun he => h (Handle.ext_index he).symm
    simp [node?, update, Array.getElem?_modify, h, hne]

/-- The chain that holds `instrs` in this order and nothing else. -/
def ofList (instrs : List Instruction) : Chain :=
  let count := instrs.length
  let name (index : Nat) : Option InstrId := if index < count then some ⟨index⟩ else none
  { slots := (instrs.mapIdx fun index instr =>
      some ⟨instr, if index = 0 then none else name (index - 1), name (index + 1)⟩).toArray
    head := name 0
    tail := if count = 0 then none else name (count - 1)
    length := count }

end Chain

/-- A computation that changes the instruction chain and may be refused. -/
abbrev ChainM := EStateM ChainError Chain

namespace ChainM

/-- The filled slot with the name `id`, which has to be present. -/
def node (id : InstrId) : ChainM Node := do
  match (← get).node? id with
  | some node => return node
  | none => throw (.missingInstruction id)

/-- The instruction with the name `id`, which has to be present. -/
def instr (id : InstrId) : ChainM Instruction := do
  return (← node id).instr

/-- Changes the slot of `id`, which has to be present. -/
def updateNode (id : InstrId) (f : Node → Node) : ChainM Unit := do
  let _ ← node id
  modify fun chain => chain.update id f

/-- Changes the instruction `id`, which has to be present. -/
def update (id : InstrId) (f : Instruction → Instruction) : ChainM Unit :=
  updateNode id fun node => { node with instr := f node.instr }

/-- Makes `id` the neighbour that follows `before`, or the head of the list. -/
def linkNext (before : Option InstrId) (id : Option InstrId) : ChainM Unit :=
  match before with
  | some before => updateNode before fun node => { node with next := id }
  | none => modify fun chain => { chain with head := id }

/-- Makes `id` the neighbour that precedes `behind`, or the tail of the list. -/
def linkPrev (behind : Option InstrId) (id : Option InstrId) : ChainM Unit :=
  match behind with
  | some behind => updateNode behind fun node => { node with prev := id }
  | none => modify fun chain => { chain with tail := id }

/-- Puts an instruction with the given neighbours into a new slot; the neighbours do not yet
know of it. -/
def allocate (instr : Instruction) (prev next : Option InstrId) : ChainM InstrId :=
  modifyGet fun chain =>
    (⟨chain.slots.size⟩, { chain with slots := chain.slots.push (some ⟨instr, prev, next⟩) })

end ChainM

end Splice
