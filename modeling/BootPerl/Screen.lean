import BootPerl.Printk
import BootPerl.Status

/-!
# The screen and those who write to it

`console_init` sets the console up on the rows above the last one, which `update_status` has for itself. Both write with interrupts
off, so a call of either is one step.
-/

namespace BootPerl

/-- `console_init` up to `register_console`: `grub` says that there is a multiboot structure. -/
def consoleInit (grub : Bool) (v : Video) : Video :=
  let p := if grub then ⟨0, 23, 80, 25⟩ else v.params
  let m := scroll v.mem p
  let p := { p with lines := p.lines - 1 }
  conWrite (if p.lines ≤ p.origY then ⟨scroll m p, { p with origY := p.origY - 1 }, v.ports⟩ else ⟨m, p, v.ports⟩) [10, 10]

/-- The log level of the console: `NOTICE`. -/
def screenLoglevel : Nat := 5

/-- A call of `update_status`, and what it meets: the strings in memory, its variables and the task that is to run. -/
structure StatusCall where
  str : Nat → List Char
  videoInit : BitVec 32
  debugPhase : BitVec 32
  sched : Sched
  next : Nat

/-- The text that the call shows, unless the console is not set up. -/
def StatusCall.status (c : StatusCall) (m : Mem) : Option (List Char × Mem) :=
  updateStatus c.str c.videoInit c.debugPhase c.sched c.next m

/-- What the call leaves on the screen. -/
def showStatus (v : Video) (c : StatusCall) : Video := { v with mem := ((c.status v.mem).map Prod.snd).getD v.mem }

/-- The bytes of a text. -/
def charBytes (text : List Char) : List UInt8 := text.map fun c => UInt8.ofNat c.toNat

end BootPerl
