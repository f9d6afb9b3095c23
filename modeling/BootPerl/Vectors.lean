import BootPerl.Irq
import BootPerl.Trap

/-!
# The interrupt vectors (`include/asm/system.h`, `kernel/setup.c`, `kernel/exception.c`, `kernel/irq.c`, `kernel/syscall.c`)

The table of 256 gates, in the order in which the boot code fills it, and what comes between a gate and a handler: the vector that a
chip sends for a line, the gate as the processor reads it, and what the stubs push.
-/

namespace BootPerl

/-- The addresses of the entries: `exception_funcs` and `interrupts` are tables of them. -/
structure Entries where
  unexpectedInt : UInt32
  int3 : UInt32
  syscall : UInt32
  exceptionFuncs : Nat → UInt32
  interrupts : Nat → UInt32

/-- `KERNEL_CODE`. -/
def kernelCode : UInt16 := 0x10

/-- `KERNEL_DATA`. -/
def kernelData : UInt16 := 0x18

/-! ## The table -/

/-- `set_gate`: the two words of a gate. -/
def setGate (m : Mem) (desc : Nat) (type dpl : UInt8) (addr : UInt32) (segment : UInt16) : Mem :=
  let low : UInt32 := (segment.toUInt32 <<< 16) + (addr &&& (0xffff : UInt32))
  let high : UInt32 := (addr &&& (0xffff0000 : UInt32)) + ((1 : UInt32) <<< 15) + (dpl.toUInt32 <<< 13) + (type.toUInt32 <<< 8)
  (m.store desc 4 low.toNat).store (desc + 4) 4 high.toNat

/-- `set_intr_gate`. -/
def setIntrGate (m : Mem) (idt n : Nat) (addr : UInt32) : Mem := setGate m (idt + 8 * n) 14 0 addr kernelCode

/-- The loops that set gates: `n` of them from `first + i` on. -/
def setIntrGates (m : Mem) (idt first : Nat) (addrs : Nat → UInt32) (i : Nat) : Nat → Mem
  | 0 => m
  | n + 1 => setIntrGates (setIntrGate m idt (first + i) (addrs i)) idt first addrs (i + 1) n

/-- `setup_interrupts`, once it has memory for the table. -/
def setupInterrupts (e : Entries) (m : Mem) (idt : Nat) : Mem :=
  setIntrGate (setIntrGates m idt 0 (fun _ => e.unexpectedInt) 0 256) idt 3 e.int3

/-- `setup_exceptions`. -/
def setupExceptions (e : Entries) (m : Mem) (idt : Nat) : Mem := setIntrGates m idt 0 e.exceptionFuncs 0 32

/-- `FIRST_VECTOR`. -/
def firstVector : Nat := 0x20

/-- The gates that `init_irq_vectors` sets. -/
def setupIrqVectors (e : Entries) (m : Mem) (idt : Nat) : Mem := setIntrGates m idt firstVector e.interrupts 0 16

/-- The gate that `init_syscalls` sets. -/
def setupSyscalls (e : Entries) (m : Mem) (idt : Nat) : Mem := setIntrGate m idt 0x40 e.syscall

/-- The table after `start_kernel`. -/
def setupVectors (e : Entries) (m : Mem) (idt : Nat) : Mem :=
  let m := setupInterrupts e m idt
  let m := setupExceptions e m idt
  let m := setupIrqVectors e m idt
  setupSyscalls e m idt

/-! ## From a vector to a handler -/

/-- What the processor reads in a gate. -/
structure Gate where
  offset : UInt32
  selector : UInt16
  present : Bool
  dpl : Nat
  type : Nat
  deriving DecidableEq, Repr

/-- The gate at an address. -/
def gateAt (m : Mem) (desc : Nat) : Gate :=
  let low := m.load desc 4
  let high := m.load (desc + 4) 4
  ⟨UInt32.ofNat (high / 65536 * 65536 + low % 65536), UInt16.ofNat (low / 65536), high.testBit 15, high / 8192 % 4, high / 256 % 32⟩

/-- The vector that a chip sends: the upper five bits of ICW2, and the number of the line on the chip. -/
def Irqs.vector (s : Irqs) (irq : Nat) : Nat :=
  if irq < 8 then (s.master.icw2 &&& 0xf8).toNat + irq else (s.slave.icw2 &&& 0xf8).toNat + (irq - 8)

/-- The vectors for which the processor pushes an error code. -/
def pushesErrorCode (n : Nat) : Bool := n == 8 || 10 ≤ n && n ≤ 14 || n == 17

/-- The exceptions built with `BUILD_EXCEPTION_EC`, whose stub goes on to `common_exception_ec`. -/
def exceptionEc : List Nat := [8, 10, 11, 12, 13, 14, 17]

namespace Machine

/-- The processor goes through the gate of a vector. -/
def deliver (idt n : Nat) (m : Machine) : Machine :=
  let g := gateAt m.mem (idt + 8 * n)
  { m.interrupt g.offset with cs := g.selector }

/-- An exception: for some vectors an error code is pushed besides. -/
def raise (idt n : Nat) (errorCode : UInt32) (m : Machine) : Machine :=
  let m := m.deliver idt n
  if pushesErrorCode n then m.push errorCode else m

/-- The stub of an exception, up to its jump to `common_exception` or `common_exception_ec`. -/
def exceptionStub (nr : UInt32) (m : Machine) : Machine :=
  let m := { m with eax := kernelData.toUInt32 }
  let m := { m with ds := m.eax.toUInt16 }
  (m.push nr).push 0

/-- An argument of a C function that has just been jumped to. -/
def arg (m : Machine) (i : UInt32) : UInt32 := m.word (m.esp + 4 + 4 * i)

/-- What `handle_irq` takes for the line. -/
def handledIrq (k : Symbols) (m : Machine) : Nat := (m.word (m.word (m.word k.current + 0x18) + 0x24)).toNat % 256

end Machine

end BootPerl
