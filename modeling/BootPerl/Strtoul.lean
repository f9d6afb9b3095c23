import BootPerl.Ctype
import BootPerl.Lib.Memory
import BootPerl.Lib.Outcome

/-!
# Numbers from strings (`kernel/perlwrap.c`)

`strtoul` and `atoi`. A `char` is its byte; `c` of the source is an `unsigned char`, and the macros of `kernel/ctype.h` read their argument
as one.
-/

namespace BootPerl

open Outcome Ctype

/-- What `errno` is set to. -/
inductive Errno where
  | einval
  | erange
  deriving DecidableEq, Repr

/-- What `strtoul` leaves: its value, `errno` if it is set, and `*endptr` if it is. -/
structure Converted where
  value : BitVec 32
  errno : Option Errno
  endptr : Option Nat
  deriving DecidableEq, Repr

/-- `ULONG_MAX`. -/
def ulongMax : Nat := 4294967295

/-- Skip white space. -/
def skipSpace : Nat → Mem → Nat → Outcome Nat
  | 0, _, _ => .running
  | fuel + 1, m, s => if isSpace (m.byte s) then skipSpace fuel m (s + 1) else .ok s

/-- `negative`, and where the text goes on. -/
def takeSign (m : Mem) (s : Nat) : Bool × Nat :=
  if m.byte s = 45 then (true, s + 1) else if m.byte s = 43 then (false, s + 1) else (false, s)

/-- The base, and where its digits begin: a zero may be part of `0x`, or show the base 8. -/
def takeBase (m : Mem) (s base : Nat) : Nat × Nat :=
  if m.byte s = 48 then
    if (base = 0 ∨ base = 16) ∧ toUpper (m.byte (s + 1)) = 88 then (16, s + 2)
    else if base = 0 then (8, s)
    else (base, s)
  else if base = 0 then (10, s)
  else (base, s)

/-- The number that a digit or a letter stands for. -/
def charDigit (c : UInt8) : Option UInt8 :=
  if 48 ≤ c ∧ c ≤ 57 then some (c - 48) else if isAlpha c then some (toUpper c - 65 + 10) else none

/-- The variables `s`, `i` and `overflow` of the loop. -/
structure Digits where
  s : Nat
  i : Nat
  overflow : Bool

/-- The loop. `end` is null, and the loop ends there. -/
def takeDigits (m : Mem) (base : Nat) : Nat → Digits → Outcome Digits
  | 0, _ => .running
  | fuel + 1, d =>
    if m.byte d.s = 0 then .ok d
    else if d.s = 0 then .ok d
    else
      match charDigit (m.byte d.s) with
      | none => .ok d
      | some c =>
        if base ≤ c.toNat then .ok d
        else if d.i > ulongMax / base ∨ d.i = ulongMax / base ∧ c.toNat > ulongMax % base then
          takeDigits m base fuel { d with s := d.s + 1, overflow := true }
        else takeDigits m base fuel { d with s := d.s + 1, i := (d.i * base + c.toNat) % 4294967296 }

/-- `noconv`: nothing to convert, except for the zero of a `0x` before `save`. -/
def noConv (m : Mem) (nptr save : Nat) : Converted where
  value := 0
  errno := none
  endptr := some (if nptr + 2 ≤ save ∧ toUpper (m.byte (save - 1)) = 88 ∧ m.byte (save - 2) = 48 then save - 1 else nptr)

/-- `strtoul`. -/
def strtoul (fuel : Nat) (m : Mem) (nptr : Nat) (base : Int) : Outcome Converted :=
  if base < 0 ∨ base = 1 ∨ base > 36 then .ok ⟨0, some .einval, none⟩
  else
    (skipSpace fuel m nptr).bind fun s =>
      if m.byte s = 0 then .ok (noConv m nptr nptr)
      else
        let sign := takeSign m s
        let shown := takeBase m sign.2 base.toNat
        (takeDigits m shown.1 fuel ⟨shown.2, 0, false⟩).bind fun d =>
          if d.s = shown.2 then .ok (noConv m nptr shown.2)
          else if d.overflow then .ok ⟨BitVec.ofNat 32 ulongMax, some .erange, some d.s⟩
          else .ok ⟨if sign.1 then -BitVec.ofNat 32 d.i else BitVec.ofNat 32 d.i, none, some d.s⟩

/-- `atoi`. -/
def atoi (fuel : Nat) (m : Mem) (nptr : Nat) : Outcome Int :=
  (strtoul fuel m nptr 10).bind fun r => .ok r.value.toInt

end BootPerl
