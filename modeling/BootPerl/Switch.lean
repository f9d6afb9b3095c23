import BootPerl.Lib.Memory
import BootPerl.Lock

/-!
# The context switch (`kernel/entry.S`) and the first stack of a task (`kernel/task.c`)

The processor as the assembly sees it: 32-bit registers, 16-bit selectors and memory, of which the segments span all. A selector
that is pushed takes a word with its upper half zero. Of the flags only those that are loaded, cleared or set by name are kept: a
comparison is read by the jump after it.
-/

namespace BootPerl

structure Machine where
  eax : UInt32
  ebx : UInt32
  ecx : UInt32
  edx : UInt32
  esi : UInt32
  edi : UInt32
  ebp : UInt32
  esp : UInt32
  eip : UInt32
  cs : UInt16
  ds : UInt16
  es : UInt16
  ss : UInt16
  eflags : BitVec 32
  mem : Mem

namespace Machine

/-- The word at an address. -/
def word (m : Machine) (a : UInt32) : UInt32 := UInt32.ofNat (m.mem.load a.toNat 4)

def setWord (m : Machine) (a v : UInt32) : Machine := { m with mem := m.mem.store a.toNat 4 v.toNat }

/-- `pushl`. -/
def push (m : Machine) (v : UInt32) : Machine := { m with esp := m.esp - 4, mem := m.mem.store (m.esp - 4).toNat 4 v.toNat }

/-- `addl $n, %esp`; a `popl` reads the top and drops it. -/
def drop (m : Machine) (n : UInt32) : Machine := { m with esp := m.esp + n }

/-- The top of the stack. -/
def top (m : Machine) : UInt32 := m.word m.esp

/-- `SAVE_ALL`. -/
def saveAll (m : Machine) : Machine :=
  let m := { m with eflags := m.eflags &&& 0xfffffbff#32 } -- cld
  let m := m.push m.es.toUInt32
  let m := m.push m.ds.toUInt32
  let m := m.push m.eax
  let m := m.push m.ebp
  let m := m.push m.edi
  let m := m.push m.esi
  let m := m.push m.edx
  let m := m.push m.ecx
  let m := m.push m.ebx
  let m := { m with edx := 0x18 }
  let m := { m with ds := m.edx.toUInt16 }
  { m with es := m.edx.toUInt16 }

/-- `RESTORE_ALL`. -/
def restoreAll (m : Machine) : Machine :=
  let m := { m with ebx := m.top }.drop 4
  let m := { m with ecx := m.top }.drop 4
  let m := { m with edx := m.top }.drop 4
  let m := { m with esi := m.top }.drop 4
  let m := { m with edi := m.top }.drop 4
  let m := { m with ebp := m.top }.drop 4
  let m := { m with eax := m.top }.drop 4
  let m := { m with ds := m.top.toUInt16 }.drop 4
  { m with es := m.top.toUInt16 }.drop 4

/-- `xchg %ebp, 0x04(%esp)` and `xchg %ebx, 0x08(%esp)`. -/
def swapArgs (m : Machine) : Machine :=
  let m := { m.setWord (m.esp + 0x04) m.ebp with ebp := m.word (m.esp + 0x04) }
  { m.setWord (m.esp + 0x08) m.ebx with ebx := m.word (m.esp + 0x08) }

/-- `ret`. -/
def ret (m : Machine) : Machine := { m with eip := m.top }.drop 4

/-- The save half of `switch_to`: the registers go on the stack, the stack into `prev`. A selector is stored as 16 bits. -/
def saveTask (m : Machine) : Machine :=
  let m := m.saveAll
  let m := m.push 1
  let m := m.setWord (m.ebx + 0x10) m.esp
  { m with mem := m.mem.store (m.ebx + 0x14).toNat 2 m.ss.toNat }

/-- Go over to the stack of `next`. -/
def loadTask (m : Machine) : Machine :=
  let m := { m with esp := m.word (m.ebp + 0x10) }
  { m with ss := UInt16.ofNat (m.mem.load (m.ebp + 0x14).toNat 2) }

/-- `switch_to(next, prev)`, up to its `ret`. -/
def switchTo (m : Machine) : Machine :=
  let m := m.swapArgs
  if m.ebp = m.ebx then m.swapArgs.ret
  else
    let m := m.saveTask.loadTask
    let m := { m with eax := m.top }.drop 4
    if m.eax = 0 then m.swapArgs.ret else m.restoreAll.swapArgs.ret

/-- `UNLOCK_KERNEL`, with `_kernel_lock` at `lock`. -/
def unlockKernel (lock : UInt32) (m : Machine) : Machine :=
  let m := m.setWord lock (m.word lock - 1)
  if m.word lock = 0 then { m with eflags := sti m.eflags }.setWord (m.esp + 0x08) (m.word (m.esp + 0x08) ||| 0x20) else m

/-- `iret`. -/
def iret (m : Machine) : Machine :=
  { m with
    eip := m.top
    cs := (m.word (m.esp + 4)).toUInt16
    eflags := BitVec.ofNat 32 (m.word (m.esp + 8)).toNat }.drop 12

/-- `restore`, up to its `iret`. -/
def restore (lock : UInt32) (m : Machine) : Machine :=
  let m := (m.setWord (m.ebp + 0x18) m.top).drop 4 -- popl 0x18(%ebp)
  let m := m.restoreAll
  let m := m.drop 4
  let m := m.unlockKernel lock
  m.iret

/-- `switch_to`, and `restore` where that is what it returns to. -/
def dispatch (restoreAddr lock : UInt32) (m : Machine) : Machine :=
  let m := m.switchTo
  if m.eip = restoreAddr then m.restore lock else m

end Machine

/-- What `create_process` puts on the new stack of `stack` bytes at `newStack`, and in the fields of the task at `t` that say
where it is. The other fields and the lists are in `createProcess`. -/
def firstStack (m : Mem) (restoreAddr newStack stack t func : UInt32) : Mem :=
  let regs := newStack + stack - 60
  let esp := newStack + stack - 60 - 12
  let put := fun (m : Mem) (a v : UInt32) => m.store a.toNat 4 v.toNat
  let m := put m (esp + 8) 0 -- this is for restore to pop as current->regs
  let m := put m (esp + 4) restoreAddr
  let m := put m (esp + 0) 0 -- flags for switch_to
  let m := put m (t + 0x10) esp
  let m := put m (t + 0x14) 0x18
  let m := put m (t + 0x18) regs
  let m := m.store regs.toNat 60 0 -- memset
  let m := put m (regs + 0x1c) 0x18
  let m := put m (regs + 0x20) 0x18
  let m := put m (regs + 0x28) func
  let m := put m (regs + 0x2c) 0x10
  put m (regs + 0x30) ((9 : UInt32) <<< 1) -- bit 9: set=if on

end BootPerl
