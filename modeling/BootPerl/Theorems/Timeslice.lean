import BootPerl.Lemmas.Clock
import BootPerl.Theorems.RunRing

/-!
# The time slice, over whole runs

The timer interrupt takes the time slice of the current task from zero to the largest `unsigned long`, and asks for `schedule`. The
task is still running then, so `schedule` renews it before the interrupt ends, and no task is ever left with more than 100 ticks.
-/

namespace BootPerl

open Sched Outcome

/-- The clock, and the addresses of the tasks created so far. -/
structure ClockState where
  clock : Clock
  tasks : List Nat

/-- At boot there is no task but `idle_task`. -/
def ClockInit (idle : Nat) (s : ClockState) : Prop := SchedBoot idle s.clock.sched ∧ s.tasks = []

/-- What happens in a step. -/
inductive ClockEvent where
  | create (t garbage : Nat)
  | timer
  | interrupt
  | block
  | wakeUpQueue
  | systemIdle
  deriving DecidableEq, Repr

/-- The tasks after a call. -/
def ClockState.withSched (s : ClockState) (sched : Sched) : ClockState := { s with clock := { s.clock with sched := sched } }

/-- A call, or an interrupt from its handler to its end. Of the other interrupts the keyboard's wakes a queue first, which is a step
of its own, and no other handler touches a task. The idle loop is entered by `idle_task`. -/
inductive ClockStep (idle : Nat) (s : ClockState) : ClockEvent → ClockState → Prop where
  | create {newStack t pid name stack garbage : Nat} : t ≠ 0 → t ≠ idle → t ∉ s.tasks →
      ClockStep idle s (.create t garbage)
        { s.withSched (createProcess idle (s.clock.sched.setNeedResched t garbage) newStack t pid name stack) with
          tasks := t :: s.tasks }
  | timer : ClockStep idle s .timer { s with clock := timerInterrupt idle s.clock }
  | interrupt : ClockStep idle s .interrupt (s.withSched (retFromIntr idle s.clock.sched))
  | block {q : Nat} : s.clock.sched.current ≠ idle → ClockStep idle s .block (s.withSched (BootPerl.block idle s.clock.sched q))
  | wakeUpQueue {q : Nat} {s' : Sched} : Comes (fun fuel => BootPerl.wakeUpQueue fuel idle s.clock.sched q) (.ok s') →
      ClockStep idle s .wakeUpQueue (s.withSched s')
  | systemIdle : s.clock.sched.current = idle → ClockStep idle s .systemIdle (s.withSched (BootPerl.systemIdle s.clock.sched))

section
variable {idle : Nat} {s : Sched} {tasks l : List Nat} {w : Nat → List Nat}

/-! ## The lists -/

theorem SchedInv.retFromIntr (h : SchedInv idle s tasks l w) : SchedInv idle (BootPerl.retFromIntr idle s) tasks l w := by
  rw [retFromIntr_eq]
  split
  · exact h.schedule
  · exact h

theorem SchedInv.doTimerInt {c : Clock} (h : SchedInv idle c.sched tasks l w) : SchedInv idle (BootPerl.doTimerInt c).sched tasks l w := by
  rw [doTimerInt_sched]
  exact h.counters _ _ _

/-- There is a current task, `idle_task` or another. -/
theorem SchedInv.current_mem (h : SchedInv idle s tasks l w) : s.current ∈ idle :: tasks := by
  rcases List.mem_cons.1 h.current with hc | hc
  · exact List.mem_cons.2 (Or.inl hc)
  · exact List.mem_cons_of_mem _ ((h.running _).1 hc).1

theorem SchedInv.current_ne_zero (h : SchedInv idle s tasks l w) (h0 : idle ≠ 0) : s.current ≠ 0 := fun he =>
  h.ring_ne_zero h0 (he ▸ h.current)

/-- Every step keeps the lists. -/
theorem SchedInv.clockStep {t t' : ClockState} {e : ClockEvent} (h : SchedInv idle t.clock.sched t.tasks l w) (h0 : idle ≠ 0)
    (hstep : ClockStep idle t e t') : ∃ l' w', SchedInv idle t'.clock.sched t'.tasks l' w' := by
  cases hstep with
  | create h1 h2 h3 => exact ⟨_, _, (h.setNeedResched _ _).create h0 h1 h2 h3 _ _ _ _⟩
  | timer => exact ⟨_, _, h.doTimerInt.retFromIntr⟩
  | interrupt => exact ⟨_, _, h.retFromIntr⟩
  | block hc =>
    obtain ⟨l', h'⟩ := h.block _ hc
    exact ⟨l', _, h'⟩
  | wakeUpQueue hcomes => exact ⟨_, _, h.of_wakeUpQueue h0 hcomes⟩
  | systemIdle => exact ⟨_, _, h.counters _ _ _⟩

/-! ## The time slices -/

/-- No task has more than 100 ticks left. -/
def Bounded (s : Sched) (tasks : List Nat) : Prop := ∀ t ∈ tasks, s.timeslice t ≤ 100

/-- A time slice changes to one of at most 100 ticks. -/
theorem Bounded.update {s' : Sched} {t v : Nat} (h : Bounded s tasks) (hs : s'.timeslice = Function.update s.timeslice t v)
    (hv : v ≤ 100) : Bounded s' tasks := by
  intro u hu
  rw [hs]
  by_cases hut : u = t
  · rw [hut, Function.update_self]
    exact hv
  · rw [Function.update_of_ne hut]
    exact h u hu

/-- No time slice changes. -/
theorem Bounded.congr {s' : Sched} (h : Bounded s tasks) (hs : s'.timeslice = s.timeslice) : Bounded s' tasks := by
  intro t ht
  rw [hs]
  exact h t ht

/-- A task whose time slice passes zero is renewed in the same interrupt. -/
theorem Bounded.timer {c : Clock} (h : Bounded c.sched tasks) (hmem : c.sched.current ∈ tasks) (h0 : c.sched.current ≠ 0)
    (hrun : c.sched.state c.sched.current = .running) : Bounded (timerInterrupt idle c).sched tasks := by
  have hslice := (timerInterrupt_counters idle h0 hrun).1
  split at hslice
  · exact h.update hslice (Nat.le_refl 100)
  · rename_i hno
    have hticks : c.sched.timeslice c.sched.current ≠ 0 := fun hspent =>
      hno ((callsSchedule_doTimerInt_iff c).2 ⟨h0, Or.inl hspent⟩)
    have hle := h _ hmem
    exact h.update hslice (by omega)

/-- The end of any other interrupt renews a task that asks for it. -/
theorem Bounded.retFromIntr (h : Bounded s tasks) (hrun : s.state s.current = .running) :
    Bounded (BootPerl.retFromIntr idle s) tasks := by
  have hslice := (retFromIntr_counters idle hrun).1
  split at hslice
  · exact h.update hslice (Nat.le_refl 100)
  · exact h.congr hslice

/-- A new task has 100 ticks. -/
theorem Bounded.create (h : Bounded s (idle :: tasks)) (newStack t pid name stack : Nat) :
    Bounded (createProcess idle s newStack t pid name stack) (idle :: t :: tasks) := by
  intro u hu
  rw [(createProcess_counters idle s newStack t pid name stack).1]
  by_cases hut : u = t
  · rw [hut, Function.update_self]
  · rw [Function.update_of_ne hut]
    refine h u ?_
    simp only [List.mem_cons] at hu ⊢
    exact hu.imp_right fun hu => hu.resolve_left hut

/-- Every step keeps the bound. -/
theorem Bounded.clockStep {t t' : ClockState} {e : ClockEvent} (hinv : SchedInv idle t.clock.sched t.tasks l w) (h0 : idle ≠ 0)
    (h : Bounded t.clock.sched (idle :: t.tasks)) (hstep : ClockStep idle t e t') : Bounded t'.clock.sched (idle :: t'.tasks) := by
  have hrun := hinv.current_running
  cases hstep with
  | @create newStack t' pid name stack garbage _ _ _ =>
    have hset : Bounded (t.clock.sched.setNeedResched t' garbage) (idle :: t.tasks) := h
    exact hset.create newStack t' pid name stack
  | timer => exact h.timer hinv.current_mem (hinv.current_ne_zero h0) hrun
  | interrupt => exact h.retFromIntr hrun
  | block => exact h.congr (block_counters idle _ _).1
  | wakeUpQueue hcomes =>
    obtain ⟨n, p, st, qn, qp, f, rfl⟩ := wakeUpQueue_frame hcomes
    exact h
  | systemIdle => exact h.update rfl (Nat.zero_le 100)

end

/-- In every state reached, no task has more than 100 ticks left, `idle_task` included. -/
theorem timeslice_bounded (idle : Nat) (h0 : idle ≠ 0) {s : ClockState}
    (h : Reach (ClockInit idle) (fun s s' => ∃ e, ClockStep idle s e s') s) : ∀ t ∈ idle :: s.tasks, s.clock.sched.timeslice t ≤ 100 := by
  obtain ⟨l, w, -, hbound⟩ := h.invariant
    (I := fun s => ∃ (l : List Nat) (w : Nat → List Nat), SchedInv idle s.clock.sched s.tasks l w ∧ Bounded s.clock.sched (idle :: s.tasks))
    (by
      rintro s ⟨hboot, htasks⟩
      refine ⟨_, _, SchedInv.start hboot htasks, fun t ht => ?_⟩
      rw [htasks] at ht
      rw [List.mem_singleton.1 ht, hboot.timeslice]
      exact Nat.zero_le _)
    (by
      rintro s s' ⟨l, w, hinv, hbound⟩ ⟨e, hstep⟩
      obtain ⟨l', w', hinv'⟩ := hinv.clockStep h0 hstep
      exact ⟨l', w', hinv', hbound.clockStep hinv h0 hstep⟩)
  exact hbound

/-- At boot, where memory is zero. -/
def zeroClock : ClockState := ⟨⟨0, zeroSched 0x1000⟩, []⟩

/-- Two tasks have been created. -/
def pairClock : ClockState :=
  let s := createProcess 0x1000 ((zeroSched 0x1000).setNeedResched 0x2000 0) 0x8000 0x2000 1 0 1024
  ⟨⟨0, createProcess 0x1000 (s.setNeedResched 0x3000 0) 0x9000 0x3000 2 0 1024⟩, [0x3000, 0x2000]⟩

theorem pairClock_reached {I : ClockState → Prop} (h : I zeroClock) :
    Reach I (fun s s' => ∃ e, ClockStep 0x1000 s e s') pairClock := by
  have hboot : Reach I (fun s s' => ∃ e, ClockStep 0x1000 s e s') zeroClock := .init h
  have hone := hboot.step ⟨_, @ClockStep.create 0x1000 _ 0x8000 0x2000 1 0 1024 0 (by decide) (by decide) (by simp [zeroClock])⟩
  exact hone.step ⟨_, @ClockStep.create 0x1000 _ 0x9000 0x3000 2 0 1024 0 (by decide) (by decide) (by simp [zeroClock])⟩

/-- Two tasks are created, and the timer ticks twice: the first tick ends the slice of `idle_task`, the second is that of the first
task. -/
theorem timeslice_bounded_first : ∃ s : ClockState, Reach (ClockInit 0x1000) (fun s s' => ∃ e, ClockStep 0x1000 s e s') s ∧
    s.tasks = [0x3000, 0x2000] ∧ s.clock.sched.timeslice 0x2000 = 99 ∧ ∀ t ∈ [0x1000, 0x3000, 0x2000], s.clock.sched.timeslice t ≤ 100 := by
  have hticks := ((pairClock_reached (I := ClockInit 0x1000) (taskInit_zeroSched 0x1000)).step ⟨.timer, .timer⟩).step ⟨.timer, .timer⟩
  exact ⟨_, hticks, rfl, by decide, timeslice_bounded 0x1000 (by decide) hticks⟩

end BootPerl
