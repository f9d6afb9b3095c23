import BootPerl.Lib.Outcome

/-!
# The delay loop (`init/main.c`)

`calibrate_delay` measures the machine: `longer l` says whether `__delay(l)`, started right after a clock tick, sees the next. The
loops that wait for a tick, and the printing, are left out. An `unsigned long` is a number below `2 ^ 32`.
-/

namespace BootPerl

open Outcome

/-- `LPS_PREC`. -/
def lpsPrec : Nat := 8

/-- The first loop: double until the delay is longer than a tick, or nothing is left of the number. -/
def doubleDelay (longer : Nat → Bool) : Nat → Nat → Outcome Nat
  | 0, _ => .running
  | fuel + 1, loopsPerJiffy =>
    let loopsPerJiffy := (loopsPerJiffy <<< 1) % 4294967296
    if loopsPerJiffy = 0 then .ok loopsPerJiffy
    else if longer loopsPerJiffy then .ok loopsPerJiffy
    else doubleDelay longer fuel loopsPerJiffy

/-- The second loop, for as many bits as are left: set the next lower bit, and clear it again if the delay is longer than a tick. -/
def refineDelay (longer : Nat → Bool) : Nat → Nat → Nat → Nat
  | 0, loopsPerJiffy, _ => loopsPerJiffy
  | lpsPrecision + 1, loopsPerJiffy, loopbit =>
    let loopbit := loopbit >>> 1
    if loopbit = 0 then loopsPerJiffy
    else
      let loopsPerJiffy := loopsPerJiffy ||| loopbit
      let loopsPerJiffy := if longer loopsPerJiffy then loopsPerJiffy &&& (4294967295 ^^^ loopbit) else loopsPerJiffy
      refineDelay longer lpsPrecision loopsPerJiffy loopbit

/-- `calibrate_delay`: the value of `loops_per_jiffy` at its end. -/
def calibrateDelay (longer : Nat → Bool) (fuel : Nat) : Outcome Nat :=
  (doubleDelay longer fuel (1 <<< 12)).bind fun loopsPerJiffy =>
    .ok (refineDelay longer lpsPrec (loopsPerJiffy >>> 1) (loopsPerJiffy >>> 1))

end BootPerl
