import BootPerl.Keyboard
import BootPerl.Theorems.RunRing

/-!
# Readers that wait for the keyboard, over whole runs

Any number of tasks run `getch`: each finds the buffer empty in one step and blocks in another, and a keyboard interrupt comes
between any two. If it comes between those two, the task sleeps on a buffer that is not empty. If every task that blocks does so
with the buffer still empty, no task ever sleeps on a buffer that is not.
-/

namespace BootPerl

open Outcome

/-- Where a task is in `getch`: not in it, before the test of the buffer, or past it and about to block. -/
inductive GetchPc where
  | outside
  | test
  | block
  deriving DecidableEq, Repr

/-- The tasks, the keyboard, and where each task is in `getch`. -/
structure Readers where
  tasks : TaskState
  kbd : Keyboard
  pc : Nat → GetchPc

/-- At boot: no task but `idle_task`, and nobody in `getch`. -/
structure ReadersInit (idle : Nat) (s : Readers) : Prop where
  tasks : TaskInit idle s.tasks
  kbd : s.kbd = Keyboard.boot
  pc : s.pc = fun _ => .outside

/-- What happens in a step. -/
inductive ReadersEvent where
  | create
  | schedule
  | blockOther
  | wakeOther
  | enter
  | test
  | block
  | interrupt (c : Char)
  deriving DecidableEq, Repr

/-- One step: a call of `task.c` on another queue, a step of `getch` by the current task, or a keyboard interrupt, which adds a
character other than zero and wakes the readers. `keyboardQueue` is the address of `keyboard_queue`. -/
inductive ReadersStep (idle keyboardQueue : Nat) (s : Readers) : ReadersEvent → Readers → Prop where
  | create {newStack t pid name stack garbage : Nat} : t ≠ 0 → t ≠ idle → t ∉ s.tasks.tasks →
      ReadersStep idle keyboardQueue s .create
        { s with
          tasks := ⟨createProcess idle (s.tasks.sched.setNeedResched t garbage) newStack t pid name stack, t :: s.tasks.tasks⟩
          pc := Function.update s.pc t .outside }
  | schedule : ReadersStep idle keyboardQueue s .schedule
      { s with tasks := ⟨BootPerl.schedule idle s.tasks.sched, s.tasks.tasks⟩ }
  | blockOther {q : Nat} : q ≠ keyboardQueue → s.tasks.sched.current ≠ idle → s.pc s.tasks.sched.current = .outside →
      ReadersStep idle keyboardQueue s .blockOther { s with tasks := ⟨BootPerl.block idle s.tasks.sched q, s.tasks.tasks⟩ }
  | wakeOther {q : Nat} {sched : Sched} : q ≠ keyboardQueue →
      Comes (fun fuel => wakeUpQueue fuel idle s.tasks.sched q) (.ok sched) →
      ReadersStep idle keyboardQueue s .wakeOther { s with tasks := ⟨sched, s.tasks.tasks⟩ }
  | enter : s.tasks.sched.current ≠ idle → s.pc s.tasks.sched.current = .outside →
      ReadersStep idle keyboardQueue s .enter { s with pc := Function.update s.pc s.tasks.sched.current .test }
  | test : s.pc s.tasks.sched.current = .test →
      ReadersStep idle keyboardQueue s .test
        { s with
          kbd := (getBuffer s.kbd).1
          pc := Function.update s.pc s.tasks.sched.current (if (getBuffer s.kbd).2 = nul then .block else .outside) }
  | block : s.pc s.tasks.sched.current = .block →
      ReadersStep idle keyboardQueue s .block
        { s with
          tasks := ⟨BootPerl.block idle s.tasks.sched keyboardQueue, s.tasks.tasks⟩
          pc := Function.update s.pc s.tasks.sched.current .test }
  | interrupt {c : Char} {sched : Sched} : c ≠ nul →
      Comes (fun fuel => wakeUpQueue fuel idle s.tasks.sched keyboardQueue) (.ok sched) →
      ReadersStep idle keyboardQueue s (.interrupt c) { s with tasks := ⟨sched, s.tasks.tasks⟩, kbd := addBuffer s.kbd c }

/-- A task sleeps on the keyboard. -/
def Sleeps (keyboardQueue : Nat) (s : Readers) (t : Nat) : Prop :=
  t ∈ s.tasks.tasks ∧ s.tasks.sched.state t ≠ .running ∧ s.tasks.sched.queue t = keyboardQueue

/-- A task that runs, or was woken, is still to test the buffer. -/
def WillTest (s : Readers) (t : Nat) : Prop := t ∈ s.tasks.tasks ∧ s.tasks.sched.state t = .running ∧ s.pc t = .test

/-- Where a task sleeps and none is still to test the buffer, the buffer is empty. -/
def NoLostWakeup (keyboardQueue : Nat) (s : Readers) : Prop :=
  (∃ t, Sleeps keyboardQueue s t) → (¬∃ t, WillTest s t) → s.kbd.bufferSize = 0

/-- A task that blocks on the keyboard finds the buffer as empty as it did when it tested it. -/
def StillEmpty (s : Readers) (e : ReadersEvent) : Prop := e = .block → s.kbd.bufferSize = 0

/-! ## The invariant -/

/-- The lists of the tasks are sound, `idle_task` is not in `getch`, and nobody sleeps on a buffer that is not empty. -/
structure ReadersInv (idle keyboardQueue : Nat) (s : Readers) (l : List Nat) (w : Nat → List Nat) : Prop where
  sched : SchedInv idle s.tasks.sched s.tasks.tasks l w
  idle : s.pc idle = .outside
  empty : w keyboardQueue ≠ [] → s.kbd.bufferSize = 0

section
variable {idle keyboardQueue : Nat} {s s' : Readers} {l : List Nat} {w : Nat → List Nat}

/-- Those who sleep on the keyboard are those on its queue. -/
theorem ReadersInv.sleeps_iff (h : ReadersInv idle keyboardQueue s l w) (t : Nat) :
    Sleeps keyboardQueue s t ↔ t ∈ w keyboardQueue :=
  (h.sched.waiting keyboardQueue t).symm

theorem ReadersInv.noLostWakeup (h : ReadersInv idle keyboardQueue s l w) : NoLostWakeup keyboardQueue s := by
  rintro ⟨t, ht⟩ _
  exact h.empty (List.ne_nil_of_mem ((h.sleeps_iff t).1 ht))

/-- An empty buffer stays empty when it is read. -/
theorem getBuffer_of_empty {k : Keyboard} (h : k.bufferSize = 0) : (getBuffer k).1 = k := by
  rw [getBuffer, if_pos h]

/-- A step keeps the invariant, a block if the buffer is still empty. -/
theorem ReadersInv.step (h0 : idle ≠ 0) (h : ReadersInv idle keyboardQueue s l w) {e : ReadersEvent}
    (hstep : ReadersStep idle keyboardQueue s e s') (hempty : StillEmpty s e) :
    ∃ l' w', ReadersInv idle keyboardQueue s' l' w' := by
  have hpc : ∀ {t : Nat} {v : GetchPc}, t ≠ idle → Function.update s.pc t v idle = .outside := fun ht =>
    (Function.update_of_ne ht.symm _ _).trans h.idle
  have hcur : s.pc s.tasks.sched.current ≠ .outside → s.tasks.sched.current ≠ idle := fun hne he => hne (he ▸ h.idle)
  cases hstep with
  | create h1 h2 h3 =>
    exact ⟨_, w, (h.sched.setNeedResched _ _).create h0 h1 h2 h3 _ _ _ _, hpc h2, h.empty⟩
  | schedule => exact ⟨l, w, h.sched.schedule, h.idle, h.empty⟩
  | blockOther hq hc _ =>
    obtain ⟨l', h'⟩ := h.sched.block _ hc
    refine ⟨l', _, h', h.idle, ?_⟩
    rw [Function.update_of_ne hq.symm]
    exact h.empty
  | wakeOther hq hcomes =>
    refine ⟨_, _, h.sched.of_wakeUpQueue h0 hcomes, h.idle, ?_⟩
    rw [Function.update_of_ne hq.symm]
    exact h.empty
  | enter hc _ => exact ⟨l, w, h.sched, hpc hc, h.empty⟩
  | test htest =>
    refine ⟨l, w, h.sched, hpc (hcur (by rw [htest]; decide)), fun hw => ?_⟩
    dsimp only
    rw [getBuffer_of_empty (h.empty hw)]
    exact h.empty hw
  | block hblock =>
    have hc := hcur (by rw [hblock]; decide)
    obtain ⟨l', h'⟩ := h.sched.block keyboardQueue hc
    exact ⟨l', _, h', hpc hc, fun _ => hempty rfl⟩
  | interrupt _ hcomes =>
    refine ⟨_, _, h.sched.of_wakeUpQueue h0 hcomes, h.idle, fun hw => ?_⟩
    rw [Function.update_self] at hw
    exact absurd rfl hw

end

/-- In every run in which each task that blocks on the keyboard does so with the buffer still empty, no wake-up is lost. -/
theorem no_lost_wakeup (idle keyboardQueue : Nat) (h0 : idle ≠ 0) {s : Readers}
    (h : Reach (ReadersInit idle) (fun s s' => ∃ e, ReadersStep idle keyboardQueue s e s' ∧ StillEmpty s e) s) :
    NoLostWakeup keyboardQueue s := by
  obtain ⟨l, w, hinv⟩ := h.invariant (I := fun s => ∃ l w, ReadersInv idle keyboardQueue s l w)
    (by
      rintro ⟨⟨sched, tasks⟩, kbd, pc⟩ ⟨⟨hboot, htasks⟩, hkbd, hpc⟩
      dsimp only at hboot htasks hkbd hpc
      subst htasks hkbd hpc
      exact ⟨_, _, SchedInv.boot hboot, rfl, fun hw => absurd rfl hw⟩)
    (by
      rintro s s' ⟨l, w, hs⟩ ⟨e, hstep, hempty⟩
      exact hs.step h0 hstep hempty)
  exact hinv.noLostWakeup

/-! ## Two runs -/

/-- One task, created and chosen. -/
def readerSched : Sched :=
  BootPerl.schedule 0x1000 (createProcess 0x1000 ((zeroSched 0x1000).setNeedResched 0x2000 0) 0x8000 0x2000 1 0 1024)

/-- The task found the buffer empty and is about to block. -/
def readerFound : Readers where
  tasks := ⟨readerSched, [0x2000]⟩
  kbd := Keyboard.boot
  pc := Function.update (fun _ => .outside) 0x2000 .block

/-- The run to the point where the task found the buffer empty, in which nobody blocks. -/
theorem readerFound_reach (step : Readers → Readers → Prop)
    (hstep : ∀ s e s', ReadersStep 0x1000 0x3000 s e s' → e ≠ .block → step s s') :
    Reach (ReadersInit 0x1000) step readerFound := by
  have h0 : Reach (ReadersInit 0x1000) step ⟨⟨zeroSched 0x1000, []⟩, Keyboard.boot, fun _ => .outside⟩ :=
    .init ⟨taskInit_zeroSched 0x1000, rfl, rfl⟩
  have h1 := h0.step (hstep _ _ _
    (@ReadersStep.create 0x1000 0x3000 _ 0x8000 0x2000 1 0 1024 0 (by decide) (by decide) (by simp)) (by decide))
  have h2 := h1.step (hstep _ _ _ .schedule (by decide))
  have h3 := h2.step (hstep _ _ _ (.enter (by decide) (by decide)) (by decide))
  have h4 := h3.step (hstep _ _ _ (.test (by decide)) (by decide))
  have hpc : Function.update (Function.update (Function.update (fun _ => GetchPc.outside) 0x2000 .outside) 0x2000 .test) 0x2000
      .block = Function.update (fun _ => .outside) 0x2000 .block := by
    rw [Function.update_idem, Function.update_idem]
  rw [readerFound, ← hpc]
  exact h4

/-- The task blocks on an empty buffer. -/
theorem no_lost_wakeup_blocked : NoLostWakeup 0x3000
    { readerFound with
      tasks := ⟨BootPerl.block 0x1000 readerSched 0x3000, [0x2000]⟩
      pc := Function.update readerFound.pc 0x2000 .test } := by
  have h := readerFound_reach (fun s s' => ∃ e, ReadersStep 0x1000 0x3000 s e s' ∧ StillEmpty s e)
    fun _ e _ hs he => ⟨e, hs, fun hb => absurd hb he⟩
  exact no_lost_wakeup 0x1000 0x3000 (by decide) (h.step ⟨.block, .block (by decide), fun _ => rfl⟩)

/-- A character came between the test and the block. -/
def lostReader : Readers where
  tasks := ⟨BootPerl.block 0x1000 (readerSched.setFirst 0x3000 0) 0x3000, [0x2000]⟩
  kbd := addBuffer Keyboard.boot 'a'
  pc := Function.update readerFound.pc 0x2000 .test

/-- The task sleeps, nobody is to test the buffer, and it holds the character. -/
theorem no_lost_wakeup_false : Reach (ReadersInit 0x1000) (fun s s' => ∃ e, ReadersStep 0x1000 0x3000 s e s') lostReader ∧
    Sleeps 0x3000 lostReader 0x2000 ∧ (¬∃ t, WillTest lostReader t) ∧ lostReader.kbd.bufferSize = 1 ∧
    ¬NoLostWakeup 0x3000 lostReader := by
  have h := readerFound_reach (fun s s' => ∃ e, ReadersStep 0x1000 0x3000 s e s') fun _ e _ hs _ => ⟨e, hs⟩
  have h1 := h.step ⟨_, .interrupt (c := 'a') (by decide) (wakeUpQueue_empty 0x1000 0x3000 (by decide))⟩
  have h2 := h1.step ⟨.block, .block (by decide)⟩
  have hsleeps : Sleeps 0x3000 lostReader 0x2000 := ⟨List.mem_singleton_self _, by decide, by decide⟩
  have htest : ¬∃ t, WillTest lostReader t := by
    rintro ⟨t, ht, hs, -⟩
    rw [List.mem_singleton.1 ht] at hs
    exact hsleeps.2.1 hs
  exact ⟨h2, hsleeps, htest, by decide, fun hw => absurd (hw ⟨_, hsleeps⟩ htest) (by decide)⟩

end BootPerl
