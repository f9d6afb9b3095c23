import Mathlib.Init

/-!
# Classes of characters (`kernel/ctype.c`, `include/kernel/ctype.h`)

The table, with the classes of a byte as its bits, and the tests that read it. It is that of Latin-1: a hard space is a space, and
letters with accents are letters.
-/

namespace BootPerl

namespace Ctype

/-- Upper case. -/
def U : UInt8 := 0x01

/-- Lower case. -/
def L : UInt8 := 0x02

/-- Digit. -/
def D : UInt8 := 0x04

/-- Control. -/
def C : UInt8 := 0x08

/-- Punctuation. -/
def P : UInt8 := 0x10

/-- White space. -/
def S : UInt8 := 0x20

/-- Hex digit. -/
def X : UInt8 := 0x40

/-- Hard space. -/
def SP : UInt8 := 0x80

/-- `_ctype`. -/
def table : List UInt8 := [
  C, C, C, C, C, C, C, C,
  C, C ||| S, C ||| S, C ||| S, C ||| S, C ||| S, C, C,
  C, C, C, C, C, C, C, C,
  C, C, C, C, C, C, C, C,
  S ||| SP, P, P, P, P, P, P, P,
  P, P, P, P, P, P, P, P,
  D, D, D, D, D, D, D, D,
  D, D, P, P, P, P, P, P,
  P, U ||| X, U ||| X, U ||| X, U ||| X, U ||| X, U ||| X, U,
  U, U, U, U, U, U, U, U,
  U, U, U, U, U, U, U, U,
  U, U, U, P, P, P, P, P,
  P, L ||| X, L ||| X, L ||| X, L ||| X, L ||| X, L ||| X, L,
  L, L, L, L, L, L, L, L,
  L, L, L, L, L, L, L, L,
  L, L, L, P, P, P, P, C,
  0, 0, 0, 0, 0, 0, 0, 0, 0, 0, 0, 0, 0, 0, 0, 0,
  0, 0, 0, 0, 0, 0, 0, 0, 0, 0, 0, 0, 0, 0, 0, 0,
  S ||| SP, P, P, P, P, P, P, P, P, P, P, P, P, P, P, P,
  P, P, P, P, P, P, P, P, P, P, P, P, P, P, P, P,
  U, U, U, U, U, U, U, U, U, U, U, U, U, U, U, U,
  U, U, U, U, U, U, U, P, U, U, U, U, U, U, U, L,
  L, L, L, L, L, L, L, L, L, L, L, L, L, L, L, L,
  L, L, L, L, L, L, L, P, L, L, L, L, L, L, L, L]

/-- `__ismask`, of which the tests ask whether it has a class of `mask`. -/
def isMask (c mask : UInt8) : Bool := table.getD c.toNat 0 &&& mask != 0

/-- `isspace`. -/
def isSpace (c : UInt8) : Bool := isMask c S

/-- `isdigit`. -/
def isDigit (c : UInt8) : Bool := isMask c D

/-- `isalpha`. -/
def isAlpha (c : UInt8) : Bool := isMask c (U ||| L)

/-- `islower`. -/
def isLower (c : UInt8) : Bool := isMask c L

/-- `isxdigit`. -/
def isXdigit (c : UInt8) : Bool := isMask c (D ||| X)

/-- `toupper`. -/
def toUpper (c : UInt8) : UInt8 := if isLower c then c - (97 - 65) else c

/-- What holds for the bytes of the numbers below 256 holds for every byte. -/
theorem forall_byte {p : UInt8 → Prop} (h : ∀ n < 256, p (UInt8.ofNat n)) (c : UInt8) : p c := by
  have hc := h c.toNat c.toNat_lt
  rwa [UInt8.ofNat_toNat] at hc

end Ctype

end BootPerl
