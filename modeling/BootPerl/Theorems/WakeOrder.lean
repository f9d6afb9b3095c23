import BootPerl.Theorems.RunRing

/-!
# Waking a queue in order, over whole runs

Beside the tasks the runs here keep, for each queue, who blocked on it since it was last empty, in order. The queue is the list of
these tasks, and waking it moves them to the tail of the run ring in that order.
-/

namespace BootPerl

open Sched Outcome

/-- The tasks, and those that blocked on each queue since it was last empty, in the order in which they did. -/
structure BlockLog where
  tasks : TaskState
  blocked : Nat → List Nat

/-- Forget who blocked on a queue that is empty. -/
def sinceEmpty (s : Sched) (blocked : Nat → List Nat) : Nat → List Nat := fun q => if s.first q = 0 then [] else blocked q

/-- At boot nobody has blocked. -/
def BlockLogInit (idle : Nat) (s : BlockLog) : Prop := TaskInit idle s.tasks ∧ ∀ q, s.blocked q = []

/-- One call. A task that blocks goes on record for its queue. -/
inductive BlockLogStep (idle : Nat) (s : BlockLog) : BlockLog → Prop where
  | create {newStack t pid name stack garbage : Nat} : t ≠ 0 → t ≠ idle → t ∉ s.tasks.tasks →
      BlockLogStep idle s
        { tasks := ⟨createProcess idle (s.tasks.sched.setNeedResched t garbage) newStack t pid name stack, t :: s.tasks.tasks⟩
          blocked := sinceEmpty (createProcess idle (s.tasks.sched.setNeedResched t garbage) newStack t pid name stack) s.blocked }
  | schedule : BlockLogStep idle s
      { tasks := ⟨BootPerl.schedule idle s.tasks.sched, s.tasks.tasks⟩
        blocked := sinceEmpty (BootPerl.schedule idle s.tasks.sched) s.blocked }
  | block {q : Nat} : s.tasks.sched.current ≠ idle → BlockLogStep idle s
      { tasks := ⟨BootPerl.block idle s.tasks.sched q, s.tasks.tasks⟩
        blocked := sinceEmpty (BootPerl.block idle s.tasks.sched q)
          (Function.update s.blocked q (s.blocked q ++ [s.tasks.sched.current])) }
  | wakeUpQueue {q : Nat} {s' : Sched} : Comes (fun fuel => BootPerl.wakeUpQueue fuel idle s.tasks.sched q) (.ok s') →
      BlockLogStep idle s { tasks := ⟨s', s.tasks.tasks⟩, blocked := sinceEmpty s' s.blocked }

/-- Waking `q` comes to an end with its tasks `w`, and nobody else, at the tail of the run ring, running and on no queue, and with
the queue empty. -/
structure WakesInOrder (idle : Nat) (s : Sched) (q : Nat) (l w : List Nat) (s' : Sched) : Prop where
  comes : Comes (fun fuel => BootPerl.wakeUpQueue fuel idle s q) (.ok s')
  run : RunList idle s' (l ++ w)
  woken : ∀ t ∈ w, s'.state t = .running ∧ s'.queueNext t = 0 ∧ s'.queuePrev t = 0
  others : ∀ t, t ∉ w → s'.state t = s.state t ∧ s'.queueNext t = s.queueNext t ∧ s'.queuePrev t = s.queuePrev t
  empty : s'.first q = 0

namespace SchedInv
variable {idle : Nat} {s : Sched} {tasks l : List Nat} {w : Nat → List Nat}

/-- A queue is empty when nobody waits on it. -/
theorem first_eq_zero_iff (h : SchedInv idle s tasks l w) (q : Nat) : s.first q = 0 ↔ w q = [] := by
  have hwait := h.wait q
  constructor
  · intro h0
    cases hw : w q with
    | nil => rfl
    | cons t rest =>
      rw [hw] at hwait
      have ht := ((h.waiting q t).1 (by rw [hw]; exact List.mem_cons_self)).1
      exact absurd (hwait.waiting.2.symm.trans h0) (h.created t ht).1
  · intro hw
    rw [hw] at hwait
    exact hwait

/-- The waiting tasks are on record already as far as their queue is not empty. -/
theorem sinceEmpty_eq (h : SchedInv idle s tasks l w) : sinceEmpty s w = w := by
  funext q
  rw [sinceEmpty]
  split
  · rename_i h0
    exact ((h.first_eq_zero_iff q).1 h0).symm
  · rfl

/-- The record of a queue that was woken ends. -/
theorem sinceEmpty_woken {q : Nat} (h : SchedInv idle s tasks l (Function.update w q [])) :
    sinceEmpty s w = Function.update w q [] := by
  refine Eq.trans (funext fun q' => ?_) h.sinceEmpty_eq
  by_cases hq : q' = q
  · subst hq
    have h0 : s.first q' = 0 := (h.first_eq_zero_iff q').2 (Function.update_self _ _ _)
    rw [sinceEmpty, sinceEmpty, if_pos h0, if_pos h0]
  · rw [sinceEmpty, sinceEmpty, Function.update_of_ne hq]

/-- What `wake_up_queue` does to the tasks of the queue and to the others. -/
theorem wakesInOrder (h : SchedInv idle s tasks l w) (h0 : idle ≠ 0) (q : Nat) : ∃ s', WakesInOrder idle s q l (w q) s' := by
  obtain ⟨s₁, hres, hrun, hin, hout, -⟩ := h.wakeUpLoop h0 q
  exact ⟨s₁.setFirst q 0, hres.bind (Comes.const _), hrun.congr (fun _ _ => rfl) fun _ _ => rfl, hin, hout, Function.update_self _ _ _⟩

end SchedInv

/-- The tasks on record are those that wait. -/
theorem BlockLogStep.inv {idle : Nat} (h0 : idle ≠ 0) {s s' : BlockLog} {l : List Nat}
    (h : SchedInv idle s.tasks.sched s.tasks.tasks l s.blocked) (hstep : BlockLogStep idle s s') :
    ∃ l', SchedInv idle s'.tasks.sched s'.tasks.tasks l' s'.blocked := by
  cases hstep with
  | @create newStack t pid name stack garbage h1 h2 h3 =>
    have h' := (h.setNeedResched t garbage).create h0 h1 h2 h3 newStack pid name stack
    exact ⟨_, by rw [h'.sinceEmpty_eq]; exact h'⟩
  | schedule => exact ⟨l, by rw [h.schedule.sinceEmpty_eq]; exact h.schedule⟩
  | block hc =>
    obtain ⟨l', h'⟩ := h.block _ hc
    exact ⟨l', by rw [h'.sinceEmpty_eq]; exact h'⟩
  | wakeUpQueue hcomes =>
    have h' := h.of_wakeUpQueue h0 hcomes
    exact ⟨_, by rw [SchedInv.sinceEmpty_woken h']; exact h'⟩

/-- In every state reached, whatever the run ring holds, waking a queue ends and moves to the tail of the ring exactly the tasks that
blocked on the queue since it was last empty, in the order in which they did. -/
theorem wake_up_queue_in_order (idle : Nat) (h0 : idle ≠ 0) {s : BlockLog} (h : Reach (BlockLogInit idle) (BlockLogStep idle) s)
    (q : Nat) : ∃ l, RunList idle s.tasks.sched l ∧ (idle :: (l ++ s.blocked q)).Nodup ∧
      ∃ s', WakesInOrder idle s.tasks.sched q l (s.blocked q) s' := by
  obtain ⟨l, hinv⟩ := h.invariant (I := fun s => ∃ l, SchedInv idle s.tasks.sched s.tasks.tasks l s.blocked)
    (by
      rintro s ⟨⟨hboot, htasks⟩, hblocked⟩
      rw [funext hblocked]
      exact ⟨_, SchedInv.start hboot htasks⟩)
    (by
      rintro s s' ⟨l, hinv⟩ hstep
      exact hstep.inv h0 hinv)
  obtain ⟨s', hwakes⟩ := hinv.wakesInOrder h0 q
  obtain ⟨s₁, -, hinv'⟩ := hinv.wakeUpQueue h0 q
  exact ⟨l, hinv.run, hinv'.ring_nodup, s', hwakes⟩

/-- Two tasks block on a queue one after the other. -/
theorem wake_up_queue_in_order_blocked : ∃ s : BlockLog, Reach (BlockLogInit 0x1000) (BlockLogStep 0x1000) s ∧
    s.blocked 0x3000 = [0x2000, 0x4000] ∧ ∃ l, RunList 0x1000 s.tasks.sched l ∧ (0x1000 :: (l ++ [0x2000, 0x4000])).Nodup ∧
      ∃ s', WakesInOrder 0x1000 s.tasks.sched 0x3000 l [0x2000, 0x4000] s' := by
  have hboot : Reach (BlockLogInit 0x1000) (BlockLogStep 0x1000) ⟨⟨zeroSched 0x1000, []⟩, fun _ => []⟩ :=
    .init ⟨taskInit_zeroSched 0x1000, fun _ => rfl⟩
  have hone := hboot.step (@BlockLogStep.create 0x1000 _ 0x8000 0x2000 1 0 1024 0 (by decide) (by decide) (by simp))
  have htwo := hone.step (@BlockLogStep.create 0x1000 _ 0x9000 0x4000 2 0 1024 0 (by decide) (by decide) (by simp))
  have hblock := (htwo.step .schedule).step (.block (q := 0x3000) (by decide))
  have hagain := hblock.step (.block (q := 0x3000) (by decide))
  exact ⟨_, hagain, rfl, wake_up_queue_in_order 0x1000 (by decide) hagain 0x3000⟩

end BootPerl
