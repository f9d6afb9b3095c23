import BootPerl.Switch

/-!
# Traps: the entries of `kernel/entry.S` and the way back

An interrupt or an `int` through an interrupt gate of the kernel, which runs on the same stack as what it interrupts. Each entry
pushes a word for `orig_eax`, saves the registers, takes the lock, and makes the frame the `regs` of the current task, whose old
`regs` it pushes. `ret_from_intr` undoes all of this. `block` builds the frame of an interrupt by hand and leaves it with an `iret`.
-/

namespace BootPerl

/-- The variables that the entries name: the addresses of `current` and of `_kernel_lock`. -/
structure Symbols where
  current : UInt32
  kernelLock : UInt32
  deriving DecidableEq, Repr

namespace Machine

/-- The processor goes through an interrupt gate to `entry`: it pushes the flags, the code selector and the instruction pointer,
and clears TF, IF, NT, RF and VM. -/
def interrupt (m : Machine) (entry : UInt32) : Machine :=
  let m' := m.push (UInt32.ofBitVec m.eflags)
  let m' := m'.push m.cs.toUInt32
  let m' := m'.push m.eip
  { m' with eip := entry, cs := 0x10, eflags := m.eflags &&& 0xfffcbcff#32 }

/-- `LOCK_KERNEL`. -/
def lockKernel (lock : UInt32) (m : Machine) : Machine :=
  let m := { m with eflags := cli m.eflags }
  m.setWord lock (m.word lock + 1)

/-- `SAVE_REGS`. -/
def saveRegs (current : UInt32) (m : Machine) : Machine :=
  let m := { m with ebp := m.word current }
  let m := m.push (m.word (m.ebp + 0x18))
  let m := m.setWord (m.ebp + 0x18) m.esp
  m.setWord (m.ebp + 0x18) (m.word (m.ebp + 0x18) + 0x4)

/-- What all entries share, up to the call of the handler. -/
def enter (k : Symbols) (origEax : UInt32) (m : Machine) : Machine :=
  let m := m.push origEax
  let m := m.saveAll
  let m := m.lockKernel k.kernelLock
  m.saveRegs k.current

/-- `common_interrupt`, with the number that its stub has pushed. -/
def commonInterrupt (k : Symbols) (nr : UInt32) (m : Machine) : Machine := m.enter k nr

/-- `int3`. -/
def int3 (k : Symbols) (m : Machine) : Machine := m.enter k 0

/-- `unexpected_int`. -/
def unexpectedInt (k : Symbols) (m : Machine) : Machine := m.enter k (-1)

/-- `syscall`. -/
def syscall (k : Symbols) (m : Machine) : Machine := m.enter k m.eax

/-- The end of `handle_syscall`: the result goes into `current->regs->eax` and `current->regs->orig_eax`. -/
def setResult (k : Symbols) (m : Machine) (retval : UInt32) : Machine :=
  let m := m.setWord (m.word (m.word k.current + 0x18) + 0x18) retval
  m.setWord (m.word (m.word k.current + 0x18) + 0x24) retval

/-- `ret_from_intr`, with what a call of `schedule` comes back with. -/
def retFromIntr (k : Symbols) (schedule : Machine → Machine) (m : Machine) : Machine :=
  let m := { m with ebp := m.word k.current }
  if m.ebp = 0 then m.restore k.kernelLock
  else if m.word (m.ebp + 0x20) = 0 then m.restore k.kernelLock
  else (schedule m).restore k.kernelLock

/-- `xchg %eax, 0x04(%esp)`. -/
def swapEax (m : Machine) : Machine := { m.setWord (m.esp + 0x04) m.eax with eax := m.word (m.esp + 0x04) }

/-- `block_lowlevel`, up to the call of `do_block`, which finds its argument on top of the stack. -/
def blockEnter (k : Symbols) (m : Machine) : Machine :=
  let m := m.push m.eax
  let m := m.saveAll
  let m := m.lockKernel k.kernelLock
  m.push m.eax

/-- `block_lowlevel`, after the call of `schedule`. -/
def blockLeave (k : Symbols) (m : Machine) : Machine :=
  let m := m.restoreAll
  let m := m.drop 4
  let m := m.unlockKernel k.kernelLock
  m.iret

/-- `block`, a pretended interrupt, up to the call of `do_block`, with `back` the address after its `call`. -/
def blockCall (k : Symbols) (back : UInt32) (m : Machine) : Machine :=
  let m := m.swapEax
  let m := m.push (UInt32.ofBitVec m.eflags)
  let m := m.push m.cs.toUInt32
  (m.push back).blockEnter k

/-- `block`. -/
def block (k : Symbols) (back : UInt32) (doBlock schedule : Machine → Machine) (m : Machine) : Machine :=
  let m := doBlock (m.blockCall k back)
  let m := m.drop 4
  let m := schedule m
  let m := m.blockLeave k
  if m.eip = back then m.swapEax.ret else m

end Machine

end BootPerl
