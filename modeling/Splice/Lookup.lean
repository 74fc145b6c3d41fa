/-!
# Looking up by address

Code is looked up by the address at which it starts: the candidate for an address is
the entry with the greatest start that is not above it.

A sorted table would be searched by bisection. Here the entry is picked out by what it is, from
a list in any order; of entries with one start the last is taken, where a bisection may end at
any of them, and the statements that depend on the choice suppose that starts are distinct.
Functions of a section and instructions of the input are looked up with it.
-/

namespace Splice

/-- The better of two candidates for a floor: the one with the greater key, and of two with the
same key the later one. -/
def higherKey {α : Type} (best : Option (UInt64 × α)) (entry : UInt64 × α) :
    Option (UInt64 × α) :=
  match best with
  | none => some entry
  | some held => if held.1 ≤ entry.1 then some entry else some held

/-- The entry with the greatest key that is not above `bound`, the last one of several. -/
def floorEntry? {α : Type} (entries : List (UInt64 × α)) (bound : UInt64) :
    Option (UInt64 × α) :=
  (entries.filter fun entry => entry.1 ≤ bound).foldl higherKey none

end Splice
