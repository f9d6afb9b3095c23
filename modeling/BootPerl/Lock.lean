import Mathlib.Data.List.Basic
import Mathlib.Logic.Function.Basic

/-!
# The kernel lock and the interrupt flag (`include/asm/lock.h`, `kernel/entry.S`)

`_kernel_lock` counts the calls of `lock_kernel` that are open, over all tasks; the interrupt flag is bit 9 of `eflags`. The
stack of a task is modelled by its open calls: what `lock_kernel` and `_save_flags` will undo, and the interrupts and system calls
being served, each with the flags that its `iret` loads.

Each step is one call or one macro. `lock_kernel` clears the flag before it counts and `unlock_kernel` sets it after, so nothing
comes in between. The counter is as deep as the stack, so that it wraps is left out.
-/

namespace BootPerl

/-- What the interrupt flag and the lock depend on. -/
structure Cpu where
  eflags : BitVec 32
  kernelLock : Int

/-- The interrupt flag of a flags word. -/
def interruptFlag (flags : BitVec 32) : Bool := flags.getLsbD 9

def cli (flags : BitVec 32) : BitVec 32 := flags &&& 0xfffffdff#32

def sti (flags : BitVec 32) : BitVec 32 := flags ||| 0x200#32

/-- `lock_kernel`, and `LOCK_KERNEL` of the interrupt entries. -/
def lockKernel (c : Cpu) : Cpu where
  eflags := cli c.eflags
  kernelLock := c.kernelLock + 1

/-- `unlock_kernel`. -/
def unlockKernel (c : Cpu) : Cpu where
  eflags := if c.kernelLock - 1 = 0 then sti c.eflags else c.eflags
  kernelLock := c.kernelLock - 1

/-- `UNLOCK_KERNEL` of the interrupt exits does what `unlock_kernel` does, and then sets bit 5 of the flags saved at
`0x08(%esp)`, where `iret` finds them. -/
def unlockFlags (c : Cpu) (saved : BitVec 32) : BitVec 32 := if c.kernelLock - 1 = 0 then saved ||| 0x20#32 else saved

/-- How far an interrupt, a system call or a `block` has come. -/
inductive Phase where
  /-- the flags are pushed, `LOCK_KERNEL` is next -/
  | entry
  /-- in the handler -/
  | handler
  /-- in `schedule`, which holds the lock once more -/
  | scheduling
  /-- in `schedule`, after its `unlock_kernel` -/
  | switching
  /-- past `schedule`, at `restore` -/
  | restoring
  /-- past `UNLOCK_KERNEL`, at `iret` -/
  | leaving
  deriving DecidableEq, Repr

/-- An open call. -/
inductive Frame where
  /-- between `lock_kernel` and `unlock_kernel` -/
  | locked
  /-- between `unlock_kernel` and `lock_kernel`, in `handle_syscall` -/
  | unlocked
  /-- between `_save_flags` and `_restore_flags` -/
  | flags (saved : BitVec 32)
  | intr (phase : Phase) (saved : BitVec 32)
  deriving DecidableEq, Repr

/-- The flag and the lock, the task that runs, the open calls of every task, the last one first, and the tasks besides
`idle_task`. `out` keeps, for each task, the counter when it was last switched out. -/
structure LockState where
  cpu : Cpu
  current : Nat
  frames : Nat → List Frame
  tasks : List Nat
  out : Nat → Option Int

namespace LockState

/-- The current task goes on with other open calls. -/
def run (s : LockState) (c : Cpu) (fs : List Frame) : LockState :=
  { s with cpu := c, frames := Function.update s.frames s.current fs }

/-- `switch_to`, which changes neither the flag nor the lock and skips the switch if `next` is current. -/
def switchTo (s : LockState) (next : Nat) (fs : List Frame) : LockState :=
  if next = s.current then s.run s.cpu fs
  else
    { s with
      current := next
      frames := Function.update s.frames s.current fs
      out := Function.update s.out s.current (some s.cpu.kernelLock) }

/-- `create_process`: the stack of the new task holds one interrupt frame, at `restore`, with `9 << 1` for the flags. -/
def createProcess (s : LockState) (t : Nat) : LockState :=
  { s with
    cpu := unlockKernel (lockKernel s.cpu)
    frames := Function.update s.frames t [.intr .restoring 0x12#32]
    tasks := t :: s.tasks }

end LockState

/-- At the start of `start_kernel` interrupts are off. -/
structure LockInit (idle : Nat) (s : LockState) : Prop where
  eflags : interruptFlag s.cpu.eflags = false
  kernelLock : s.cpu.kernelLock = 0
  current : s.current = idle
  frames : ∀ t, s.frames t = []
  tasks : s.tasks = []
  out : ∀ t, s.out t = none

/-- One step of the current task, or one interrupt. Hardware interrupts come only with the flag set. Once there are tasks,
`block` and `int $0x40` are used only without the lock; the first task is created without it (`start_kernel` asserts this). -/
inductive LockStep (idle : Nat) (s : LockState) : LockState → Prop where
  /-- any other instruction; the other flags may change -/
  | compute {flags : BitVec 32} : interruptFlag flags = interruptFlag s.cpu.eflags →
      LockStep idle s (s.run { s.cpu with eflags := flags } (s.frames s.current))
  | lockKernel : LockStep idle s (s.run (lockKernel s.cpu) (.locked :: s.frames s.current))
  | unlockKernel {fs : List Frame} : s.frames s.current = .locked :: fs → LockStep idle s (s.run (unlockKernel s.cpu) fs)
  | saveFlags : LockStep idle s (s.run s.cpu (.flags s.cpu.eflags :: s.frames s.current))
  | restoreFlags {f : BitVec 32} {fs : List Frame} : s.frames s.current = .flags f :: fs →
      LockStep idle s (s.run { s.cpu with eflags := f } fs)
  | interrupt : interruptFlag s.cpu.eflags →
      LockStep idle s (s.run { s.cpu with eflags := cli s.cpu.eflags } (.intr .entry s.cpu.eflags :: s.frames s.current))
  | syscall : s.tasks = [] ∨ s.cpu.kernelLock = 0 →
      LockStep idle s (s.run { s.cpu with eflags := cli s.cpu.eflags } (.intr .entry s.cpu.eflags :: s.frames s.current))
  /-- `block` pushes the flags itself and clears none -/
  | block : s.tasks = [] ∨ s.cpu.kernelLock = 0 →
      LockStep idle s (s.run s.cpu (.intr .entry s.cpu.eflags :: s.frames s.current))
  | enter {f : BitVec 32} {fs : List Frame} : s.frames s.current = .intr .entry f :: fs →
      LockStep idle s (s.run (BootPerl.lockKernel s.cpu) (.intr .handler f :: fs))
  /-- `handle_syscall` lets go of the lock before `getch` and takes it again after -/
  | unlockSyscall {f : BitVec 32} {fs : List Frame} : s.frames s.current = .intr .handler f :: fs →
      LockStep idle s (s.run (BootPerl.unlockKernel s.cpu) (.unlocked :: .intr .handler f :: fs))
  | lockSyscall {fs : List Frame} : s.frames s.current = .unlocked :: fs →
      LockStep idle s (s.run (BootPerl.lockKernel s.cpu) fs)
  | schedule {f : BitVec 32} {fs : List Frame} : s.frames s.current = .intr .handler f :: fs →
      LockStep idle s (s.run (BootPerl.lockKernel s.cpu) (.intr .scheduling f :: fs))
  | scheduled {f : BitVec 32} {fs : List Frame} : s.frames s.current = .intr .scheduling f :: fs →
      LockStep idle s (s.run (BootPerl.unlockKernel s.cpu) (.intr .switching f :: fs))
  | switchTo {next : Nat} {f : BitVec 32} {fs : List Frame} : s.frames s.current = .intr .switching f :: fs →
      next ∈ idle :: s.tasks → LockStep idle s (s.switchTo next (.intr .restoring f :: fs))
  /-- `ret_from_intr` when there is no need to schedule -/
  | retFromIntr {f : BitVec 32} {fs : List Frame} : s.frames s.current = .intr .handler f :: fs →
      LockStep idle s (s.run s.cpu (.intr .restoring f :: fs))
  | leave {f : BitVec 32} {fs : List Frame} : s.frames s.current = .intr .restoring f :: fs →
      LockStep idle s (s.run (BootPerl.unlockKernel s.cpu) (.intr .leaving (unlockFlags s.cpu f) :: fs))
  | iret {f : BitVec 32} {fs : List Frame} : s.frames s.current = .intr .leaving f :: fs →
      LockStep idle s (s.run { s.cpu with eflags := f } fs)
  | createProcess {t : Nat} : t ≠ idle → t ∉ s.tasks → (s.tasks = [] → s.cpu.kernelLock = 0) →
      LockStep idle s (s.createProcess t)

end BootPerl
