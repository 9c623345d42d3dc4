/-!
# Numbers in MIDI files

Numbers of a fixed size are written with their most significant byte first. A *quantity* takes as
many bytes as it needs: seven bits in each, the most significant first, and the high bit set in all
but the last.
-/

namespace Chorale.Midi

/-- The contents of a file. -/
abbrev Bytes := List UInt8

/-- The lowest `size` bytes of a number, the most significant first. -/
def bigEndian : (size : Nat) → Nat → Bytes
  | 0, _ => []
  | size + 1, n => bigEndian size (n / 256) ++ [UInt8.ofNat (n % 256)]

/-- The bytes of a quantity before the last one, if `n` is what they stand for. -/
def leadingBytes (n : Nat) : Bytes :=
  if n = 0 then [] else leadingBytes (n / 128) ++ [UInt8.ofNat (n % 128 + 128)]

/-- The bytes of a quantity. -/
def quantity (n : Nat) : Bytes := leadingBytes (n / 128) ++ [UInt8.ofNat (n % 128)]

@[simp] theorem length_bigEndian (size n : Nat) : (bigEndian size n).length = size := by
  induction size generalizing n with
  | zero => rfl
  | succ size ih => simp [bigEndian, ih]

end Chorale.Midi
