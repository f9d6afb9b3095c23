import Mathlib.Logic.Function.Basic
import BootPerl.Lib.Outcome

/-!
# Tasks, the run list and the wait queues (`kernel/task.c`)

A task is known by the address of its `struct task`, and each field of the struct is a function of that address; null is zero.
The run list is threaded through `idle_task`, the wait queues through the tasks that wait on them.

Every function here runs with interrupts off, so each is one step. `schedule` ends in `switch_to`, which is modelled with the
machine; what it leaves of the tasks is what is below. The debug output reads fields and changes none.
-/

namespace BootPerl

inductive TaskStatus where
  | running
  | interruptable
  | uninterruptable
  deriving DecidableEq, Repr

/-- The fields of every `struct task`, `queue->first` of every queue, and `current`. -/
structure Sched where
  timeslice : Nat → Nat
  time : Nat → Nat
  pid : Nat → Nat
  name : Nat → Nat
  esp : Nat → Nat
  ss : Nat → Nat
  regs : Nat → Nat
  taskNext : Nat → Nat
  needResched : Nat → Nat
  taskPrev : Nat → Nat
  runNext : Nat → Nat
  runPrev : Nat → Nat
  state : Nat → TaskStatus
  queue : Nat → Nat
  queueNext : Nat → Nat
  queuePrev : Nat → Nat
  first : Nat → Nat
  current : Nat

namespace Sched

def setRunNext (s : Sched) (t v : Nat) : Sched := { s with runNext := Function.update s.runNext t v }

def setRunPrev (s : Sched) (t v : Nat) : Sched := { s with runPrev := Function.update s.runPrev t v }

def setTaskNext (s : Sched) (t v : Nat) : Sched := { s with taskNext := Function.update s.taskNext t v }

def setTaskPrev (s : Sched) (t v : Nat) : Sched := { s with taskPrev := Function.update s.taskPrev t v }

def setQueueNext (s : Sched) (t v : Nat) : Sched := { s with queueNext := Function.update s.queueNext t v }

def setQueuePrev (s : Sched) (t v : Nat) : Sched := { s with queuePrev := Function.update s.queuePrev t v }

def setState (s : Sched) (t : Nat) (v : TaskStatus) : Sched := { s with state := Function.update s.state t v }

def setNeedResched (s : Sched) (t v : Nat) : Sched := { s with needResched := Function.update s.needResched t v }

def setTimeslice (s : Sched) (t v : Nat) : Sched := { s with timeslice := Function.update s.timeslice t v }

def setQueue (s : Sched) (t v : Nat) : Sched := { s with queue := Function.update s.queue t v }

def setFirst (s : Sched) (q v : Nat) : Sched := { s with first := Function.update s.first q v }

end Sched

/-- The tasks at boot: `idle_task` holds its initialiser and is current, and every queue is empty. Memory that is no task yet
holds anything. -/
structure SchedBoot (idle : Nat) (s : Sched) : Prop where
  timeslice : s.timeslice idle = 0
  time : s.time idle = 0
  pid : s.pid idle = 0
  taskNext : s.taskNext idle = 0
  needResched : s.needResched idle = 1
  taskPrev : s.taskPrev idle = 0
  runNext : s.runNext idle = 0
  runPrev : s.runPrev idle = 0
  state : s.state idle = .running
  queue : s.queue idle = 0
  queueNext : s.queueNext idle = 0
  queuePrev : s.queuePrev idle = 0
  first : ∀ q, s.first q = 0
  current : s.current = idle

/-- The first half of `schedule`: a task that does not run leaves the run list, one that runs gets a new timeslice. -/
def retire (s : Sched) (prev : Nat) : Sched :=
  if s.state prev ≠ .running then
    let s := s.setRunNext (s.runPrev prev) (s.runNext prev)
    let s := s.setRunPrev (s.runNext prev) (s.runPrev prev)
    let s := s.setRunNext prev 0
    s.setRunPrev prev 0
  else
    let s := s.setNeedResched prev 0
    s.setTimeslice prev 100

/-- The second half: the task after `prev`, which `next` was before `prev` left the list, but `idle_task` only if it is alone. -/
def pick (idle : Nat) (s : Sched) (prev next : Nat) : Nat :=
  if prev = idle ∨ next = idle then if s.runNext idle ≠ 0 then s.runNext idle else idle else next

/-- Choose the next task and make it current. -/
def schedule (idle : Nat) (s : Sched) : Sched :=
  let prev := s.current
  let next := s.runNext prev
  let s := retire s prev
  { s with current := pick idle s prev next }

/-- Put a task at the tail of the run list; the same code is in `create_process` and `wake_up`. -/
def runAppend (idle : Nat) (s : Sched) (t : Nat) : Sched :=
  if s.runNext idle = 0 then
    let s := s.setRunNext idle t
    let s := s.setRunPrev idle t
    let s := s.setRunNext t idle
    s.setRunPrev t idle
  else
    let s := s.setRunNext (s.runPrev idle) t
    let s := s.setRunPrev t (s.runPrev idle)
    let s := s.setRunPrev idle t
    s.setRunNext t idle

/-- Put a task at the tail of the list of all tasks. -/
def taskAppend (idle : Nat) (s : Sched) (t : Nat) : Sched :=
  if s.taskNext idle = 0 then
    let s := s.setTaskNext idle t
    let s := s.setTaskPrev idle t
    let s := s.setTaskNext t idle
    s.setTaskPrev t idle
  else
    let s := s.setTaskNext (s.taskPrev idle) t
    let s := s.setTaskPrev t (s.taskPrev idle)
    let s := s.setTaskPrev idle t
    s.setTaskNext t idle

/-- `create_process`, on a stack of `stack` bytes at `newStack` and a `struct task` at `t`, both from `kalloc`. The field
`need_resched` is not set: it keeps what the memory held. -/
def createProcess (idle : Nat) (s : Sched) (newStack t pid name stack : Nat) : Sched :=
  let regs := (newStack + stack + 4294967296 - 60) % 4294967296
  let esp := (regs + 4294967296 - 12) % 4294967296
  let s :=
    { s with
      timeslice := Function.update s.timeslice t 100
      time := Function.update s.time t 0
      pid := Function.update s.pid t pid
      name := Function.update s.name t name
      esp := Function.update s.esp t esp
      ss := Function.update s.ss t 0x18
      regs := Function.update s.regs t regs
      taskNext := Function.update s.taskNext t 0
      taskPrev := Function.update s.taskPrev t 0
      runNext := Function.update s.runNext t 0
      runPrev := Function.update s.runPrev t 0
      state := Function.update s.state t .running
      queue := Function.update s.queue t 0
      queueNext := Function.update s.queueNext t 0
      queuePrev := Function.update s.queuePrev t 0 }
  runAppend idle (taskAppend idle s t) t

/-- The second half of `do_block`: put a task at the tail of a queue. -/
def enqueue (s : Sched) (queue t : Nat) : Sched :=
  if s.first queue = 0 then s.setFirst queue t
  else if s.queueNext (s.first queue) = 0 then
    let s := s.setQueueNext (s.first queue) t
    let s := s.setQueuePrev (s.first queue) t
    let s := s.setQueueNext t (s.first queue)
    s.setQueuePrev t (s.first queue)
  else
    let s := s.setQueueNext (s.queuePrev (s.first queue)) t
    let s := s.setQueuePrev t (s.queuePrev (s.first queue))
    let s := s.setQueuePrev (s.first queue) t
    s.setQueueNext t (s.first queue)

/-- Mark the current task and put it on a wait queue; `schedule` takes it off the run list. -/
def doBlock (s : Sched) (queue : Nat) : Sched :=
  let s := s.setState s.current .interruptable
  let s := s.setNeedResched s.current 1
  let s := s.setQueue s.current queue
  enqueue s queue s.current

/-- Mark a task running and put it on the run list. -/
def wakeUp (idle : Nat) (s : Sched) (t : Nat) : Sched := runAppend idle (s.setState t .running) t

/-- The loop of `wake_up_queue` from the task `t`. -/
def wakeUpLoop (idle q : Nat) : Nat → Sched → Nat → Outcome Sched
  | 0, _, _ => .running
  | fuel + 1, s, t =>
    if t = 0 then .ok s
    else
      let next := s.queueNext t
      let s := s.setQueuePrev t 0
      let s := s.setQueueNext t 0
      let s := wakeUp idle s t
      if next = s.first q then .ok s else wakeUpLoop idle q fuel s next

/-- Wake every task of a queue and empty it. -/
def wakeUpQueue (fuel idle : Nat) (s : Sched) (q : Nat) : Outcome Sched :=
  (wakeUpLoop idle q fuel s (s.first q)).bind fun s => .ok (s.setFirst q 0)

/-- `block`, a pretend interrupt: `do_block` and then `schedule`. -/
def block (idle : Nat) (s : Sched) (queue : Nat) : Sched := schedule idle (doBlock s queue)

/-- The tasks whose fields `schedule` reads or writes, in order: those of its own statements, then what its debug output,
`update_status` and `switch_to` read of the two tasks. -/
def scheduleAccesses (idle : Nat) (s : Sched) : List Nat :=
  let prev := s.current
  let next := s.runNext prev
  let s' := s.setRunNext (s.runPrev prev) (s.runNext prev)
  let unlink := if s.state prev ≠ .running then [s.runPrev prev, s'.runNext prev] else []
  let chosen := pick idle (retire s prev) prev next
  prev :: unlink ++ next :: (if prev = idle ∨ next = idle then [idle] else []) ++ [chosen, prev]

/-- What `show_tasks` prints of a state. -/
def TaskStatus.text : TaskStatus → String
  | .running => "running"
  | .interruptable => "interruptable"
  | .uninterruptable => "uninterruptable"

/-- A line of `show_tasks`. -/
structure TaskLine where
  pid : Nat
  task : Nat
  name : Nat
  state : String
  next : Nat
  deriving DecidableEq, Repr

/-- The line of a task. -/
def taskLine (s : Sched) (t : Nat) : TaskLine := ⟨s.pid t, t, s.name t, (s.state t).text, s.taskNext t⟩

/-- The loop of `show_tasks` from the task `t`. -/
def showTasksLoop (idle : Nat) (s : Sched) : Nat → Nat → Outcome (List TaskLine)
  | 0, _ => .running
  | fuel + 1, t =>
    let line := taskLine s t
    let t := s.taskNext t
    if t ≠ idle then (showTasksLoop idle s fuel t).bind fun lines => .ok (line :: lines) else .ok [line]

/-- `show_tasks`: the lines below its header. -/
def showTasks (fuel idle : Nat) (s : Sched) : Outcome (List TaskLine) := showTasksLoop idle s fuel idle

end BootPerl
