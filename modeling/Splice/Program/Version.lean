import Splice.Program.Basic

/-!
# Versions

The decoded program is version 0 and is never changed once versions are kept. Every
other version is a fork of it with a name of its own.

The operations are `fork` and `forkAll`, which number the versions in the order in which they are
made, and the lookups by number and by name. Only a fork can be set, by `setFork`.
-/

namespace Splice

/-- The decoded program and its forks, which are numbered from 1. -/
structure Versions where
  base : Program
  forks : List Program
deriving DecidableEq, Inhabited

namespace Versions

/-- The program as version 0 without forks. -/
def ofProgram (base : Program) : Versions := ⟨base, []⟩

/-- Number of versions, version 0 included. -/
def size (versions : Versions) : Nat := versions.forks.length + 1

/-- There is always version 0. -/
def isEmpty (_versions : Versions) : Bool := false

/-- Forks version 0 under a name; the number of the fork is returned. -/
def fork (versions : Versions) (name : String) : Except Error (Nat × Versions) := do
  let index := versions.size
  let program ← versions.base.fork ⟨index, name⟩
  return (index, { versions with forks := versions.forks ++ [program] })

/-- Forks version 0 once for each name; the numbers of the forks are returned. -/
def forkAll (versions : Versions) (names : List String) : Except Error (List Nat × Versions) := do
  let start := versions.size
  let forked ← names.zipIdx.mapM fun (name, offset) => versions.base.fork ⟨start + offset, name⟩
  return (List.range' start forked.length, { versions with forks := versions.forks ++ forked })

/-- The version with the given number. -/
def get (versions : Versions) (index : Nat) : Except Error Program :=
  match index with
  | 0 => .ok versions.base
  | offset + 1 =>
    match versions.forks[offset]? with
    | some program => .ok program
    | none => .error (.missingVersion index)

/-- The fork with the given number, for editing. -/
def getFork (versions : Versions) (index : Nat) : Except Error Program :=
  if index = 0 then .error .baseVersionImmutable else versions.get index

/-- Puts an edited program in the place of the fork with the given number. -/
def setFork (versions : Versions) (index : Nat) (program : Program) : Versions :=
  { versions with forks := versions.forks.set (index - 1) program }

/-- The first version with the given name. -/
def byName? (versions : Versions) (name : String) : Option Program :=
  (versions.base :: versions.forks).find? fun program => program.version.name == name

end Versions

end Splice
