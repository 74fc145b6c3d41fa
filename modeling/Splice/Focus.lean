/-!
# Computing on a part of a state

A program is made of parts that have operations and errors of their own. `focus`
runs an operation of a part inside a computation on the whole: the rest of the whole
stays as it is, whether the operation succeeds or is refused, and an error is
wrapped to say which part refused.

`focus get set action` stands for a change in place of one field of a larger state. What the
part has done before it was refused is kept, since nothing is rolled back in place either.
`liftResult` wraps a result that reads a part and changes none.
-/

namespace Splice

/-- Runs `action` on the part of the state that `part` reads and `put` replaces. -/
def focus {ε δ σ τ α : Type} (part : σ → τ) (put : σ → τ → σ) (wrap : ε → δ)
    (action : EStateM ε τ α) : EStateM δ σ α := fun whole =>
  match action (part whole) with
  | .ok value inner => .ok value (put whole inner)
  | .error cause inner => .error (wrap cause) (put whole inner)

/-- Takes over a result that involves no state, with its error wrapped. -/
def liftResult {ε δ σ α : Type} (wrap : ε → δ) : Except ε α → EStateM δ σ α
  | .ok value => pure value
  | .error cause => throw (wrap cause)

end Splice
