/-!
# Hexadecimal text

Addresses appear in messages in base 16 with lower-case digits and without leading
zeros.

Only the messages of errors, warnings and violations use it.
-/

namespace Splice

/-- The digits of `n` in base 16, lower case and without leading zeros; zero is `0`. -/
def hexText (n : Nat) : String :=
  String.ofList (Nat.toDigits 16 n)

end Splice
