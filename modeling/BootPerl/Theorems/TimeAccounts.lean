import BootPerl.Theorems.Timeslice
import Mathlib.Algebra.BigOperators.Group.Finset.Piecewise

/-!
# Who used the time, over whole runs

The timer interrupt counts `jiffies` and the time of the current task; no other call counts either. Each tick is one task's, those
of the idle task included, so the times of all tasks come to `jiffies`, even once the counters have wrapped.
-/

namespace BootPerl

open Sched Outcome

/-- At boot `jiffies` is zero. -/
def TimeInit (idle : Nat) (s : ClockState) : Prop := ClockInit idle s ∧ s.clock.jiffies = 0

/-- `idle_task` and the tasks created. -/
def ClockState.everyTask (idle : Nat) (s : ClockState) : Finset Nat := (idle :: s.tasks).toFinset

/-- The times of the tasks come to `jiffies`, as far as an `unsigned long` goes. -/
def Accounted (idle : Nat) (s : ClockState) : Prop :=
  (∑ t ∈ s.everyTask idle, s.clock.sched.time t) % 4294967296 = s.clock.jiffies

section
variable {idle : Nat} {s s' : ClockState} {tasks : Finset Nat} {time : Nat → Nat} {c : Nat}

/-- A tick of one task. -/
theorem sum_tick (hc : c ∈ tasks) : (∑ t ∈ tasks, Function.update time c ((time c + 1) % 4294967296) t) % 4294967296 =
    ((∑ t ∈ tasks, time t) % 4294967296 + 1) % 4294967296 := by
  rw [Finset.sum_update_of_mem hc, ← Finset.add_sum_erase tasks time hc, Finset.sdiff_singleton_eq_erase]
  omega

/-- A new task has used no time. -/
theorem sum_insert_zero (hc : c ∉ tasks) : ∑ t ∈ Insert.insert c tasks, Function.update time c 0 t = ∑ t ∈ tasks, time t := by
  rw [Finset.sum_insert hc, Function.update_self, Nat.zero_add]
  exact Finset.sum_congr rfl fun t ht => Function.update_of_ne (ne_of_mem_of_not_mem ht hc) _ _

/-- A step that changes no time and creates nobody. -/
theorem Accounted.congr (h : Accounted idle s) (htime : s'.clock.sched.time = s.clock.sched.time) (htasks : s'.tasks = s.tasks)
    (hjiffies : s'.clock.jiffies = s.clock.jiffies) : Accounted idle s' := by
  rw [Accounted, ClockState.everyTask, htime, htasks, hjiffies]
  exact h

/-- The end of an interrupt counts nothing. -/
theorem retFromIntr_time (idle : Nat) (s : Sched) : (retFromIntr idle s).time = s.time := by
  rw [retFromIntr_eq]
  split
  · obtain ⟨n, p, r, ts, c, hframe⟩ := schedule_frame idle s
    rw [hframe]
  · rfl

/-- Every step keeps the account. -/
theorem Accounted.clockStep {l : List Nat} {w : Nat → List Nat} {e : ClockEvent} (hinv : SchedInv idle s.clock.sched s.tasks l w)
    (h : Accounted idle s) (hstep : ClockStep idle s e s') : Accounted idle s' := by
  cases hstep with
  | @create newStack t pid name stack garbage h1 h2 h3 =>
    have hnew : t ∉ s.everyTask idle := by simp [ClockState.everyTask, h2, h3]
    have hall : (idle :: t :: s.tasks).toFinset = Insert.insert t (s.everyTask idle) := by
      simp only [ClockState.everyTask, List.toFinset_cons]
      exact Finset.insert_comm idle t _
    rw [Accounted, ClockState.everyTask]
    simp only [ClockState.withSched, createProcess_time]
    change (∑ u ∈ (idle :: t :: s.tasks).toFinset, Function.update s.clock.sched.time t 0 u) % 4294967296 = _
    rw [hall, sum_insert_zero hnew]
    exact h
  | timer =>
    have hmem : s.clock.sched.current ∈ s.everyTask idle := List.mem_toFinset.2 hinv.current_mem
    rw [Accounted]
    simp only [timerInterrupt, retFromIntr_time, doTimerInt_sched]
    rw [ClockState.everyTask]
    exact (sum_tick hmem).trans (by rw [h]; rfl)
  | interrupt => exact h.congr (retFromIntr_time idle _) rfl rfl
  | @block q hc =>
    obtain ⟨f, n, p, hblock⟩ := doBlock_frame s.clock.sched q
    obtain ⟨n', p', r, ts, c, hschedule⟩ := schedule_frame idle (doBlock s.clock.sched q)
    refine h.congr ?_ rfl rfl
    change (schedule idle (doBlock s.clock.sched q)).time = s.clock.sched.time
    rw [hschedule, hblock]
  | wakeUpQueue hcomes =>
    obtain ⟨n, p, st, qn, qp, f, rfl⟩ := wakeUpQueue_frame hcomes
    exact h.congr rfl rfl rfl
  | systemIdle hc => exact h.congr rfl rfl rfl

end

/-- In every state reached, the times of `idle_task` and of all tasks created come to `jiffies`. -/
theorem time_accounted (idle : Nat) (h0 : idle ≠ 0) {s : ClockState}
    (h : Reach (TimeInit idle) (fun s s' => ∃ e, ClockStep idle s e s') s) :
    (∑ t ∈ (idle :: s.tasks).toFinset, s.clock.sched.time t) % 4294967296 = s.clock.jiffies := by
  obtain ⟨l, w, -, haccounted⟩ := h.invariant
    (I := fun s => ∃ (l : List Nat) (w : Nat → List Nat), SchedInv idle s.clock.sched s.tasks l w ∧ Accounted idle s)
    (by
      rintro s ⟨⟨hboot, htasks⟩, hjiffies⟩
      refine ⟨_, _, SchedInv.start hboot htasks, ?_⟩
      rw [Accounted, ClockState.everyTask, htasks, hjiffies]
      simp [hboot.time])
    (by
      rintro s s' ⟨l, w, hinv, haccounted⟩ ⟨e, hstep⟩
      obtain ⟨l', w', hinv'⟩ := hinv.clockStep h0 hstep
      exact ⟨l', w', hinv', haccounted.clockStep hinv hstep⟩)
  exact haccounted

/-- Two tasks are created, and the timer ticks twice: the first tick is that of `idle_task`, the second that of the first task. -/
theorem time_accounted_first : ∃ s : ClockState, Reach (TimeInit 0x1000) (fun s s' => ∃ e, ClockStep 0x1000 s e s') s ∧
    s.clock.sched.time 0x1000 = 1 ∧ s.clock.sched.time 0x2000 = 1 ∧ s.clock.sched.time 0x3000 = 0 ∧
    (∑ t ∈ [0x1000, 0x3000, 0x2000].toFinset, s.clock.sched.time t) % 4294967296 = 2 := by
  have hinit : TimeInit 0x1000 zeroClock := ⟨taskInit_zeroSched 0x1000, rfl⟩
  have hticks := ((pairClock_reached hinit).step ⟨.timer, .timer⟩).step ⟨.timer, .timer⟩
  exact ⟨_, hticks, by decide, by decide, by decide, time_accounted 0x1000 (by decide) hticks⟩

end BootPerl
