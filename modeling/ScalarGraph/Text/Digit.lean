import ScalarGraph.Text

/-! # Digits and blanks in numerals

A numeral may be written with any decimal digits of Unicode 14.0 and with any
blanks around it. Both are brought to ASCII before the numeral is read.
-/
namespace ScalarGraph

/-- The zeros beyond ASCII; the other nine digits follow each of them. -/
def CodePoint.zeros : List Nat := [
  0x660, 0x6f0, 0x7c0, 0x966, 0x9e6, 0xa66, 0xae6, 0xb66, 0xbe6, 0xc66, 0xce6, 0xd66, 0xde6,
  0xe50, 0xed0, 0xf20, 0x1040, 0x1090, 0x17e0, 0x1810, 0x1946, 0x19d0, 0x1a80, 0x1a90, 0x1b50,
  0x1bb0, 0x1c40, 0x1c50, 0xa620, 0xa8d0, 0xa900, 0xa9d0, 0xa9f0, 0xaa50, 0xabf0, 0xff10,
  0x104a0, 0x10d30, 0x11066, 0x110f0, 0x11136, 0x111d0, 0x112f0, 0x11450, 0x114d0, 0x11650,
  0x116c0, 0x11730, 0x118e0, 0x11950, 0x11c50, 0x11d50, 0x11da0, 0x16a60, 0x16ac0, 0x16b50,
  0x1d7ce, 0x1d7d8, 0x1d7e2, 0x1d7ec, 0x1d7f6, 0x1e140, 0x1e2f0, 0x1e950, 0x1fbf0]

/-- The blanks beyond ASCII. -/
def CodePoint.isWideBlank (c : CodePoint) : Bool :=
  c.value == 0x85 || c.value == 0xa0 || c.value == 0x1680 ||
  (0x2000 ≤ c.value && c.value ≤ 0x200a) || c.value == 0x2028 || c.value == 0x2029 ||
  c.value == 0x202f || c.value == 0x205f || c.value == 0x3000

def CodePoint.isBlank (c : CodePoint) : Bool :=
  (9 ≤ c.value && c.value ≤ 13) || c.value == 32

/-- A code point of a numeral in ASCII; `none` where it can be part of no numeral. -/
def CodePoint.plain? (c : CodePoint) : Option CodePoint :=
  if c.value < 128 then some c
  else if c.isWideBlank then some (.ofChar ' ')
  else (zeros.find? fun z => z ≤ c.value && c.value ≤ z + 9).map fun z => .ofNat (48 + (c.value - z))

/-- The numeral in ASCII, without the blanks around it. -/
def Text.numeral? (t : Text) : Option Text :=
  (t.mapM CodePoint.plain?).map fun u =>
    ((u.dropWhile CodePoint.isBlank).reverse.dropWhile CodePoint.isBlank).reverse

end ScalarGraph
