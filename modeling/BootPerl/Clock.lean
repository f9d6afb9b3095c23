import BootPerl.Task

/-!
# The clock (`kernel/clock.c`), the end of an interrupt (`kernel/entry.S`) and the idle loop (`init/main.c`)

The timer interrupt counts down the time slice of the current task, past zero, and `ret_from_intr` calls `schedule` when the task
asks for it. The debug output reads fields and changes none.
-/

namespace BootPerl

/-- `jiffies`, and the tasks. -/
structure Clock where
  jiffies : Nat
  sched : Sched

/-- The timer interrupt. Its counters are `unsigned long`: the time slice after zero is the largest of them. -/
def doTimerInt (c : Clock) : Clock :=
  let s := c.sched
  let s := { s with time := Function.update s.time s.current ((s.time s.current + 1) % 4294967296) }
  let timeslice := s.timeslice s.current
  let s := s.setTimeslice s.current ((timeslice + 4294967295) % 4294967296)
  let s := if timeslice = 0 then s.setNeedResched s.current 1 else s
  { jiffies := (c.jiffies + 1) % 4294967296, sched := s }

/-- `ret_from_intr` up to `restore`: a task that asks for it is rescheduled, unless there is no current task. -/
def retFromIntr (idle : Nat) (s : Sched) : Sched :=
  if s.current = 0 then s else if s.needResched s.current = 0 then s else schedule idle s

/-- A timer interrupt from its handler to its end. -/
def timerInterrupt (idle : Nat) (c : Clock) : Clock :=
  let c := doTimerInt c
  { c with sched := retFromIntr idle c.sched }

/-- `system_idle` before its loop. -/
def systemIdle (s : Sched) : Sched := s.setTimeslice s.current 0

end BootPerl
