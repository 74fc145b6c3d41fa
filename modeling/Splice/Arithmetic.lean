/-!
# Numbers

The zero and the powers of a type of numbers are those of the core language in every module,
whatever algebra it imports next to them. So an expression means the same thing wherever it
stands.

Sums of sizes and offsets are sums of 64-bit words and wrap around, as the additions of a build
that does not check for overflow do. A build that checks would stop there instead; the
statements that depend on it name the bound (`Program.Roomy`, `Chain.Unwrapped`).
-/

attribute [instance (2000)] Zero.ofOfNat0

attribute [instance (2000), default_instance 20000] instPowNat
