import Splice.Arithmetic

/-!
# Little-endian numbers

A list of bytes read as a number in base 256, least significant byte first, and a
number written as a list of bytes of a given length. Reading is total on every
list; writing keeps the low bytes of the number and drops the rest, so a negative
value is written as its two's complement by writing its remainder.

`decode_encode` says that writing then reading keeps the number modulo `256 ^ n`,
`encode_decode` that reading then writing is the identity on bytes.

Displacements of one, two, four and eight bytes are read with `decodeSigned` and written with
`encode`; the width is an argument, where a machine has one function for each width.
-/

namespace Splice.LittleEndian

/-- The number whose digits in base 256 are `bytes`, the least significant first. -/
def decode : List UInt8 → Nat
  | [] => 0
  | b :: bs => b.toNat + 256 * decode bs

/-- The `n` low digits of `value` in base 256, the least significant first. -/
def encode : Nat → Nat → List UInt8
  | 0, _ => []
  | n + 1, value => UInt8.ofNat value :: encode n (value / 256)

/-- The two's complement reading: the residue of `decode` closest to zero, where the
half-way value is taken as negative. -/
def decodeSigned (bytes : List UInt8) : Int :=
  Int.bmod (decode bytes) (256 ^ bytes.length)

@[simp]
theorem length_encode (n value : Nat) : (encode n value).length = n := by
  induction n generalizing value with
  | zero => rfl
  | succ n ih => simp [encode, ih]

theorem decode_lt (bytes : List UInt8) : decode bytes < 256 ^ bytes.length := by
  induction bytes with
  | nil => simp [decode]
  | cons b bs ih =>
    have hb : b.toNat < 256 := b.toNat_lt
    simp only [decode, List.length_cons, Nat.pow_succ]
    omega

theorem decode_encode (n value : Nat) : decode (encode n value) = value % 256 ^ n := by
  induction n generalizing value with
  | zero => simp [decode, encode, Nat.mod_one]
  | succ n ih =>
    have hb : (UInt8.ofNat value).toNat = value % 256 := by simp
    rw [encode, decode, ih, hb, Nat.pow_succ, Nat.mul_comm (256 ^ n) 256, Nat.mod_mul]

theorem encode_decode (bytes : List UInt8) : encode bytes.length (decode bytes) = bytes := by
  induction bytes with
  | nil => rfl
  | cons b bs ih =>
    have hb : b.toNat < 256 := b.toNat_lt
    have hdiv : (b.toNat + 256 * decode bs) / 256 = decode bs := by omega
    have hhead : UInt8.ofNat (b.toNat + 256 * decode bs) = b := by
      apply UInt8.toNat_inj.mp
      simp
    rw [List.length_cons, decode, encode, hdiv, ih, hhead]

end Splice.LittleEndian
