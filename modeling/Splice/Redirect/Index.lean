import Splice.Redirect

/-!
# The index of sources

What is redirected onto a place can be read off the redirects by going through all of them
(`Redirects.directSources`). An index answers at once: it lists, for every place that something
is redirected to, what is redirected to it. It is kept in step with the redirects, change by
change, and built anew only where all of them change. The search for sources goes by what the
index lists.

The main definitions are `SourceIndex`, the lists by place; `IndexedRedirects`, redirects with
their index, on which the same operations are defined as on redirects alone; and `search`, the
worklist that collects what leads to a place, directly or not. That the index mirrors the
redirects after every operation, and that the search with it finds what the plain definition
says, is `jumpersInto_by_sources` and its lemmas in `Splice.Proofs.Redirects.Sources`.
-/

namespace Splice

/-- The redirects of targets, the other way round. -/
structure SourceIndex where
  /-- Each place that is redirected to, with the logical targets that are redirected to it. -/
  entries : List (InstrId × List InstrId)
deriving DecidableEq

namespace SourceIndex

def empty : SourceIndex := ⟨[]⟩

/-- The logical targets that are listed under a place. -/
def under (index : SourceIndex) (physical : InstrId) : List InstrId :=
  (index.entries.lookup physical).getD []

/-- Lists a logical target under a place, behind those that are there already. -/
def add (index : SourceIndex) (physical logical : InstrId) : SourceIndex :=
  ⟨Assoc.put index.entries physical (index.under physical ++ [logical])⟩

/-- Strikes a logical target from the list of a place. A place without any is dropped. -/
def drop (index : SourceIndex) (physical logical : InstrId) : SourceIndex :=
  match index.entries.lookup physical with
  | none => index
  | some listed =>
    match listed.filter (· != logical) with
    | [] => ⟨Assoc.erase index.entries physical⟩
    | rest => ⟨Assoc.put index.entries physical rest⟩

/-- The index of redirects that are given one by one. -/
def ofTargets (targets : List (InstrId × InstrId)) : SourceIndex :=
  targets.foldl (fun index entry => index.add entry.2 entry.1) empty

/-- How far a search has come: the places that are still to be looked up, and what was found. -/
structure Search where
  stack : List InstrId
  found : List InstrId
deriving DecidableEq

/-- What was not found before is found now, and goes on the stack. -/
def Search.meet (search : Search) (logical : InstrId) : Search :=
  if search.found.contains logical then search
  else ⟨logical :: search.stack, search.found ++ [logical]⟩

/-- Looks up the places on the stack until it is empty; nothing if that takes more than `steps`. -/
def search (index : SourceIndex) : (steps : Nat) → Search → Option (List InstrId)
  | _, ⟨[], found⟩ => some found
  | 0, ⟨_ :: _, _⟩ => none
  | steps + 1, ⟨physical :: stack, found⟩ =>
    search index steps ((index.under physical).foldl Search.meet ⟨stack, found⟩)

end SourceIndex

/-- Redirects that keep an index of their sources. -/
structure IndexedRedirects extends Redirects where
  sources : SourceIndex
deriving DecidableEq

/-- The redirects with an index built anew. -/
def Redirects.indexed (redirects : Redirects) : IndexedRedirects :=
  ⟨redirects, .ofTargets redirects.targets⟩

namespace IndexedRedirects

def empty : IndexedRedirects := ⟨.empty, .empty⟩

/-- The index without the redirect of a logical target, if it has one. -/
def released (redirects : IndexedRedirects) (logical : InstrId) : SourceIndex :=
  match redirects.targetOf? logical with
  | some old => redirects.sources.drop old logical
  | none => redirects.sources

/-- As `Redirects.redirect`: the target is struck from the list of the place it led to before. -/
def redirect (redirects : IndexedRedirects) (logical physical : InstrId) :
    Except RedirectError IndexedRedirects := do
  let after ← redirects.toRedirects.redirect logical physical
  return ⟨after, (redirects.released logical).add physical logical⟩

/-- As `Redirects.redirectJumper`: overrides are not indexed. -/
def redirectJumper (redirects : IndexedRedirects) (jumper physical : InstrId) :
    IndexedRedirects :=
  ⟨redirects.toRedirects.redirectJumper jumper physical, redirects.sources⟩

def restore (redirects : IndexedRedirects) (logical : InstrId) :
    Option InstrId × IndexedRedirects :=
  let (old, after) := redirects.toRedirects.restore logical
  (old, ⟨after, redirects.released logical⟩)

def replace (redirects : IndexedRedirects) (old new : InstrId) : IndexedRedirects :=
  (redirects.toRedirects.replace old new).indexed

def rename (redirects : IndexedRedirects) (names : Renaming) : IndexedRedirects :=
  (redirects.toRedirects.rename names).indexed

/-- The logical targets whose redirects lead to `physical` in one or more steps, if they are found in
`steps` rounds. -/
def sourcesOf? (redirects : IndexedRedirects) (steps : Nat) (physical : InstrId) :
    Option (List InstrId) :=
  redirects.sources.search steps ⟨[physical], []⟩

end IndexedRedirects

end Splice
