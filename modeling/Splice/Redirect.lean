import Splice.Assoc
import Splice.Chain.Compact

/-!
# Redirects

The target of a jump is *logical*: it says where the decoded program jumps to. When
code is put in front of that place for jumps to run first, a redirect records where
they *physically* land instead, and the displacement of a jump is computed from there.
A redirect either holds for all jumpers of a logical target or overrides the landing
of one jumper.

Redirects of targets chain, and a redirect that would close a cycle is refused, so
following them always ends. Every change is logged.

The operations are: `redirect` and `redirectJumper`, with `restore` to take the first back;
`resolve`, which follows an override or else the redirects; `sourcesOf` and `overridesOnto`,
which go against them; `replace`, which puts one instruction in the place of another; and
`rename`.

Notes on the model:
* redirects are a list of pairs, keyed by what is redirected, in the order in which they were
  set;
* following them is bounded by their number, which does not cut anything short while they lead
  in no circle;
* where `replace` brings two redirects of one instruction together, the engine keeps the one
  that its map yields last, in an order that is arbitrary; here that is the one set last.
-/

namespace Splice

/-- What a log entry records. -/
inductive RedirectKind where
  /-- A redirect of all jumpers of a logical target. -/
  | target
  /-- An override for one jumper. -/
  | jumper
  /-- The end of a redirect. -/
  | restore
deriving DecidableEq

/-- An entry of the log. -/
structure RedirectRecord where
  kind : RedirectKind
  /-- The logical target, or the jumper of an override. -/
  source : InstrId
  old : Option InstrId
  new : Option InstrId
deriving DecidableEq

/-- Why a redirect is refused. -/
inductive RedirectError where
  /-- From `physical`, the redirects lead back to `logical`. -/
  | cycle (logical physical : InstrId)
deriving DecidableEq

def RedirectError.message : RedirectError → String
  | cycle logical physical => s!"redirecting {logical} to {physical} would form a cycle"

/-- Where jumps land instead of at their logical targets. -/
structure Redirects where
  /-- Each redirected logical target with the place it is redirected to. -/
  targets : List (InstrId × InstrId)
  /-- Each jumper with an override, with the place where it lands. -/
  jumpers : List (InstrId × InstrId)
  log : List RedirectRecord
deriving DecidableEq

namespace Redirects

def empty : Redirects := ⟨[], [], []⟩

instance : Inhabited Redirects := ⟨empty⟩

def isEmpty (redirects : Redirects) : Bool :=
  redirects.targets.isEmpty && redirects.jumpers.isEmpty

/-- The redirect of a logical target, one step far. -/
def targetOf? (redirects : Redirects) (logical : InstrId) : Option InstrId :=
  redirects.targets.lookup logical

/-- The override of a jumper. -/
def overrideOf? (redirects : Redirects) (jumper : InstrId) : Option InstrId :=
  redirects.jumpers.lookup jumper

/-- Follows the redirects of targets from `logical`, at most `steps` times. -/
def chase (redirects : Redirects) : (steps : Nat) → (logical : InstrId) → InstrId
  | 0, logical => logical
  | steps + 1, logical =>
    match redirects.targetOf? logical with
    | some next => chase redirects steps next
    | none => logical

/-- The place to which the redirects lead from `logical`. Without a cycle no path is longer than
the number of redirects. -/
def landing (redirects : Redirects) (logical : InstrId) : InstrId :=
  redirects.chase (redirects.targets.length + 1) logical

/-- The physical landing of `jumper` for its logical target: its override if it has one, else the
landing of the target. -/
def resolve (redirects : Redirects) (jumper logical : InstrId) : InstrId :=
  (redirects.overrideOf? jumper).getD (redirects.landing logical)

/-- Makes every jumper of `logical` land on `physical`. -/
def redirect (redirects : Redirects) (logical physical : InstrId) :
    Except RedirectError Redirects :=
  if redirects.landing physical = logical then
    .error (.cycle logical physical)
  else
    .ok { redirects with
      targets := Assoc.put redirects.targets logical physical
      log := redirects.log
        ++ [⟨.target, logical, redirects.targetOf? logical, some physical⟩] }

theorem targetOf?_redirect {redirects after : Redirects} {logical physical : InstrId}
    (h : redirects.redirect logical physical = .ok after) :
    after.targetOf? logical = some physical := by
  unfold redirect at h
  split at h
  · cases h
  · cases h
    exact Assoc.lookup_put_self redirects.targets logical physical

/-- Makes one jumper land on `physical`, whatever its target is redirected to. -/
def redirectJumper (redirects : Redirects) (jumper physical : InstrId) : Redirects :=
  { redirects with
    jumpers := Assoc.put redirects.jumpers jumper physical
    log := redirects.log
      ++ [⟨.jumper, jumper, redirects.overrideOf? jumper, some physical⟩] }

/-- Ends the redirect of `logical`; the place it led to is returned. -/
def restore (redirects : Redirects) (logical : InstrId) : Option InstrId × Redirects :=
  match redirects.targetOf? logical with
  | none => (none, redirects)
  | some old =>
    (some old,
      { redirects with
        targets := Assoc.erase redirects.targets logical
        log := redirects.log ++ [⟨.restore, logical, some old, none⟩] })

theorem targetOf?_restore (redirects : Redirects) (logical : InstrId) :
    (redirects.restore logical).2.targetOf? logical = none := by
  unfold restore
  split
  · assumption
  · exact Assoc.lookup_erase_self redirects.targets logical

/-- The logical targets that are redirected onto `physical` in one step. -/
def directSources (redirects : Redirects) (physical : InstrId) : List InstrId :=
  (redirects.targets.filter fun entry => entry.2 == physical).map (·.1)

/-- Collects the logical targets from which the places on the `stack` are reached, in addition to
those already `found`. -/
def collectSources (redirects : Redirects) :
    (steps : Nat) → (stack found : List InstrId) → List InstrId
  | 0, _, found => found
  | _, [], found => found
  | steps + 1, physical :: stack, found =>
    let fresh := (redirects.directSources physical).filter fun id => !found.contains id
    collectSources redirects steps (fresh.reverse ++ stack) (found ++ fresh)

/-- The logical targets whose redirects lead to `physical` in one or more steps. Each is put on the
stack at most once, which bounds the search. -/
def sourcesOf (redirects : Redirects) (physical : InstrId) : List InstrId :=
  redirects.collectSources (redirects.targets.length + 1) [physical] []

/-- The jumpers with an override onto `physical`. -/
def overridesOnto (redirects : Redirects) (physical : InstrId) : List InstrId :=
  (redirects.jumpers.filter fun entry => entry.2 == physical).map (·.1)

/-- Puts `new` in the place of `old` everywhere but in the log. A redirect that would lead from an
instruction to itself is dropped.

Where both instructions are redirected, or both have an override, two entries come to have one key. The
entry that was set last is kept here. A hash table, which visits its entries in an order of its own, may
keep either of the two, so where that happens this is one of the outcomes that are possible. -/
def replace (redirects : Redirects) (old new : InstrId) : Redirects :=
  let swap (id : InstrId) : InstrId := if id = old then new else id
  let swapBoth (entry : InstrId × InstrId) : InstrId × InstrId := (swap entry.1, swap entry.2)
  { redirects with
    targets := Assoc.ofPairs
      ((redirects.targets.map swapBoth).filter fun entry => entry.1 != entry.2)
    jumpers := Assoc.ofPairs (redirects.jumpers.map swapBoth) }

/-- The redirects with their instructions named as in the packed chain. An entry that names an
instruction that does not survive is dropped, and the log starts anew. -/
def rename (redirects : Redirects) (names : Renaming) : Redirects :=
  let both (entry : InstrId × InstrId) : Option (InstrId × InstrId) := do
    return (← names.get? entry.1, ← names.get? entry.2)
  { targets := redirects.targets.filterMap both
    jumpers := redirects.jumpers.filterMap both
    log := [] }

end Redirects

end Splice
