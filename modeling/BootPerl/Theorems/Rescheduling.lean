import BootPerl.Theorems.Timeslice

/-!
# Who asks for `schedule`, over whole runs

A task that runs should ask for `schedule` only in the interrupt in which its time slice runs out. `schedule` clears the request of
a task that it leaves running; `do_block` makes one that nothing clears, and `create_process` does not set the field. Beside the
clock the runs here keep how each task was last left, which is what decides.
-/

namespace BootPerl

open Sched Outcome

/-- How a task was left: new, on memory that held `garbage` where `need_resched` is, or by `schedule` while it was running, or by
`block`. -/
inductive Left where
  | created (garbage : Nat)
  | running
  | blocked
  deriving DecidableEq, Repr

/-- Left so, a task comes back without a request. -/
def Left.Clear : Left → Prop
  | .created garbage => garbage = 0
  | .running => True
  | .blocked => False

instance : DecidablePred Left.Clear
  | .created garbage => inferInstanceAs (Decidable (garbage = 0))
  | .running => inferInstanceAs (Decidable True)
  | .blocked => inferInstanceAs (Decidable False)

/-- The clock, and how each task was left. -/
structure LeftLog where
  clock : ClockState
  left : Nat → Left

/-- What a step does to the record, by the state before it: the handler of the timer runs first, `schedule` only when called. -/
def recordLeft (s : ClockState) (left : Nat → Left) : ClockEvent → Nat → Left
  | .create t garbage => Function.update left t (.created garbage)
  | .timer =>
    if CallsSchedule (doTimerInt s.clock).sched then Function.update left s.clock.sched.current .running else left
  | .interrupt => if CallsSchedule s.clock.sched then Function.update left s.clock.sched.current .running else left
  | .block => Function.update left s.clock.sched.current .blocked
  | .wakeUpQueue => left
  | .systemIdle => left

/-- At boot there is `idle_task` only, whose initialiser makes a request. -/
def LeftLogInit (idle : Nat) (s : LeftLog) : Prop := ClockInit idle s.clock ∧ s.left idle = .created 1

/-- One step, and its record. -/
def LeftLogStep (idle : Nat) (s s' : LeftLog) : Prop :=
  ∃ e, ClockStep idle s.clock e s'.clock ∧ s'.left = recordLeft s.clock s.left e

theorem LeftLogStep.of_clock {idle : Nat} {s : LeftLog} {t : ClockState} {e : ClockEvent} (h : ClockStep idle s.clock e t) :
    LeftLogStep idle s ⟨t, recordLeft s.clock s.left e⟩ := ⟨e, h, rfl⟩

/-- The current task makes no request: only an interrupt in which its time slice runs out ends in `schedule`. -/
structure ReschedForReason (c : Clock) : Prop where
  clear : c.sched.needResched c.sched.current = 0
  timer : CallsSchedule (doTimerInt c).sched → c.sched.timeslice c.sched.current = 0
  other : ¬CallsSchedule c.sched

/-- The rest follows from the request. -/
theorem reschedForReason_iff {c : Clock} : ReschedForReason c ↔ c.sched.needResched c.sched.current = 0 := by
  constructor
  · exact fun h => h.clear
  · intro hclear
    refine ⟨hclear, fun hcalls => ?_, fun hcalls => hcalls.2 hclear⟩
    exact ((callsSchedule_doTimerInt_iff c).1 hcalls).2.resolve_right (not_not_intro hclear)

/-! ## The requests -/

/-- A task makes no request when the way it was left does not. -/
def Recorded (s : Sched) (tasks : List Nat) (left : Nat → Left) : Prop := ∀ t ∈ tasks, s.needResched t = 0 ↔ (left t).Clear

section
variable {idle : Nat} {s : Sched} {tasks : List Nat} {left : Nat → Left}

/-- A request changes with the record of it. -/
theorem Recorded.update {s' : Sched} {t v : Nat} {x : Left} (h : Recorded s tasks left)
    (hs : s'.needResched = Function.update s.needResched t v) (hv : v = 0 ↔ x.Clear) :
    Recorded s' tasks (Function.update left t x) := by
  intro u hu
  rw [hs]
  by_cases hut : u = t
  · rw [hut, Function.update_self, Function.update_self]
    exact hv
  · rw [Function.update_of_ne hut, Function.update_of_ne hut]
    exact h u hu

/-- No request changes. -/
theorem Recorded.congr {s' : Sched} (h : Recorded s tasks left) (hs : s'.needResched = s.needResched) : Recorded s' tasks left := by
  intro t ht
  rw [hs]
  exact h t ht

/-- An interrupt that ends in `schedule` clears the request of the current task. -/
theorem Recorded.renew {s' : Sched} {calls : Prop} [Decidable calls] (h : Recorded s tasks left)
    (hs : s'.needResched = if calls then Function.update s.needResched s.current 0 else s.needResched) :
    Recorded s' tasks (if calls then Function.update left s.current .running else left) := by
  by_cases hcalls : calls
  · rw [if_pos hcalls] at hs ⊢
    exact h.update hs (iff_of_true rfl trivial)
  · rw [if_neg hcalls] at hs ⊢
    exact h.congr hs

/-- A new task makes the request that the memory held. -/
theorem Recorded.create (h : Recorded s (idle :: tasks) left) {t : Nat} (newStack pid name stack garbage : Nat) :
    Recorded (createProcess idle (s.setNeedResched t garbage) newStack t pid name stack) (idle :: t :: tasks)
      (Function.update left t (.created garbage)) := by
  intro u hu
  rw [(createProcess_counters idle _ newStack t pid name stack).2]
  change Function.update s.needResched t garbage u = 0 ↔ _
  by_cases hut : u = t
  · rw [hut, Function.update_self, Function.update_self]
    rfl
  · rw [Function.update_of_ne hut, Function.update_of_ne hut]
    refine h u ?_
    simp only [List.mem_cons] at hu ⊢
    exact hu.imp_right fun hu => hu.resolve_left hut

/-- Every step keeps the record. -/
theorem Recorded.clockStep {t t' : ClockState} {l : List Nat} {w : Nat → List Nat} {e : ClockEvent}
    (hinv : SchedInv idle t.clock.sched t.tasks l w) (h0 : idle ≠ 0) (h : Recorded t.clock.sched (idle :: t.tasks) left)
    (hstep : ClockStep idle t e t') : Recorded t'.clock.sched (idle :: t'.tasks) (recordLeft t left e) := by
  have hrun := hinv.current_running
  cases hstep with
  | create => exact h.create _ _ _ _ _
  | timer => exact h.renew (timerInterrupt_counters idle (hinv.current_ne_zero h0) hrun).2
  | interrupt => exact h.renew (retFromIntr_counters idle hrun).2
  | block => exact h.update (block_counters idle _ _).2 (iff_of_false Nat.one_ne_zero id)
  | wakeUpQueue hcomes =>
    obtain ⟨n, p, st, qn, qp, f, rfl⟩ := wakeUpQueue_frame hcomes
    exact h
  | systemIdle => exact h

end

/-- In every state reached, the current task asks for `schedule` only for a reason exactly when it was left clear: by `schedule`
while it was running, or new on memory that held zero. -/
theorem resched_for_reason_iff (idle : Nat) (h0 : idle ≠ 0) {s : LeftLog} (h : Reach (LeftLogInit idle) (LeftLogStep idle) s) :
    ReschedForReason s.clock.clock ↔ (s.left s.clock.clock.sched.current).Clear := by
  obtain ⟨l, w, hinv, hrecorded⟩ := h.invariant
    (I := fun s => ∃ (l : List Nat) (w : Nat → List Nat),
      SchedInv idle s.clock.clock.sched s.clock.tasks l w ∧ Recorded s.clock.clock.sched (idle :: s.clock.tasks) s.left)
    (by
      rintro s ⟨⟨hboot, htasks⟩, hleft⟩
      refine ⟨_, _, SchedInv.start hboot htasks, fun t ht => ?_⟩
      rw [htasks] at ht
      rw [List.mem_singleton.1 ht, hboot.needResched, hleft]
      exact Iff.rfl)
    (by
      rintro s s' ⟨l, w, hinv, hrecorded⟩ ⟨e, hstep, hleft⟩
      obtain ⟨l', w', hinv'⟩ := hinv.clockStep h0 hstep
      refine ⟨l', w', hinv', ?_⟩
      rw [hleft]
      exact hrecorded.clockStep hinv h0 hstep)
  exact reschedForReason_iff.trans (hrecorded _ hinv.current_mem)

/-- At boot. -/
def zeroLeft : LeftLog := ⟨zeroClock, fun _ => .created 1⟩

theorem reach_zeroLeft : Reach (LeftLogInit 0x1000) (LeftLogStep 0x1000) zeroLeft := .init ⟨taskInit_zeroSched 0x1000, rfl⟩

/-- Two tasks on clear memory: the first timer interrupt leaves `idle_task`, and the first task runs, clear since its creation. -/
theorem resched_for_reason_iff_first : ∃ s, Reach (LeftLogInit 0x1000) (LeftLogStep 0x1000) s ∧ s.clock.tasks = [0x3000, 0x2000] ∧
    s.clock.clock.sched.current = 0x2000 ∧ ReschedForReason s.clock.clock := by
  have hone := reach_zeroLeft.step (.of_clock (@ClockStep.create 0x1000 _ 0x8000 0x2000 1 0 1024 0 (by decide) (by decide) (by decide)))
  have htwo := hone.step (.of_clock (@ClockStep.create 0x1000 _ 0x9000 0x3000 2 0 1024 0 (by decide) (by decide) (by decide)))
  have htick := htwo.step (.of_clock .timer)
  have hclear := (resched_for_reason_iff 0x1000 (by decide) htick).2
  exact ⟨_, htick, rfl, by decide, hclear (by decide)⟩

/-- The first of two tasks has blocked on a queue. -/
def firstBlocked : Sched := block 0x1000 (timerInterrupt 0x1000 ⟨0, twoSched⟩).sched 0x4000

/-- It is awake again. -/
def firstWoken : Sched :=
  (wakeUp 0x1000 ((firstBlocked.setQueuePrev 0x2000 0).setQueueNext 0x2000 0) 0x2000).setFirst 0x4000 0

theorem wakeUpQueue_firstBlocked : Comes (fun fuel => wakeUpQueue fuel 0x1000 firstBlocked 0x4000) (.ok firstWoken) := by
  refine ⟨2, fun fuel hfuel => ?_⟩
  obtain ⟨fuel, rfl⟩ := Nat.exists_eq_add_of_le' hfuel
  rfl

/-- Two tasks on clear memory: the first blocks, is woken, and runs when the second blocks. It still makes the request of its `block`,
so any interrupt ends in `schedule`, with 100 ticks left. -/
theorem resched_for_reason_false :
    ∃ s, Reach (LeftLogInit 0x1000) (LeftLogStep 0x1000) s ∧ s.clock.clock.sched.current ≠ 0x1000 ∧
      CallsSchedule s.clock.clock.sched ∧ s.clock.clock.sched.timeslice s.clock.clock.sched.current = 100 ∧
      ¬ReschedForReason s.clock.clock := by
  have hone := reach_zeroLeft.step (.of_clock (@ClockStep.create 0x1000 _ 0x8000 0x2000 1 0 1024 0 (by decide) (by decide) (by decide)))
  have htwo := hone.step (.of_clock (@ClockStep.create 0x1000 _ 0x9000 0x3000 2 0 1024 0 (by decide) (by decide) (by decide)))
  have hblock := (htwo.step (.of_clock .timer)).step (.of_clock (.block (q := 0x4000) (by decide)))
  have hwake := hblock.step (.of_clock (.wakeUpQueue wakeUpQueue_firstBlocked))
  have hagain := hwake.step (.of_clock (.block (q := 0x5000) (by decide)))
  exact ⟨_, hagain, by decide, by decide, by decide, fun hreason => absurd hreason.clear (by decide)⟩

end BootPerl
