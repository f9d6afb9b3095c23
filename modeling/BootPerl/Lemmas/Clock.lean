import BootPerl.Clock
import BootPerl.Lemmas.Tasks

/-!
# What the events of the clock do to the counters

An interrupt that ends in `schedule` renews the current task: its time slice is 100 again, and it makes no request. The timer is such
an interrupt when the time slice is spent, or the task makes a request already.
-/

namespace BootPerl

open Sched

/-- `ret_from_intr` finds a current task, and a request of it. -/
def CallsSchedule (s : Sched) : Prop := s.current ≠ 0 ∧ s.needResched s.current ≠ 0

instance (s : Sched) : Decidable (CallsSchedule s) := inferInstanceAs (Decidable (_ ∧ _))

section
variable {idle : Nat} {s : Sched}

/-- The timer counts, and may ask for `schedule`. -/
theorem doTimerInt_sched (c : Clock) : (doTimerInt c).sched =
    { c.sched with
      time := Function.update c.sched.time c.sched.current ((c.sched.time c.sched.current + 1) % 4294967296)
      timeslice := Function.update c.sched.timeslice c.sched.current
        ((c.sched.timeslice c.sched.current + 4294967295) % 4294967296)
      needResched := if c.sched.timeslice c.sched.current = 0 then Function.update c.sched.needResched c.sched.current 1
        else c.sched.needResched } := by
  unfold doTimerInt
  dsimp only
  split
  · rfl
  · rfl

/-- After the handler of the timer `schedule` is called for a time slice that was spent, or a request made before. -/
theorem callsSchedule_doTimerInt_iff (c : Clock) : CallsSchedule (doTimerInt c).sched ↔
    c.sched.current ≠ 0 ∧ (c.sched.timeslice c.sched.current = 0 ∨ c.sched.needResched c.sched.current ≠ 0) := by
  rw [CallsSchedule, doTimerInt_sched]
  by_cases hspent : c.sched.timeslice c.sched.current = 0
  · simp [hspent]
  · simp [hspent]

/-- The end of an interrupt is a call of `schedule`, or nothing. -/
theorem retFromIntr_eq (idle : Nat) (s : Sched) : retFromIntr idle s = if CallsSchedule s then schedule idle s else s := by
  unfold retFromIntr CallsSchedule
  by_cases h0 : s.current = 0
  · simp [h0]
  · by_cases hclear : s.needResched s.current = 0
    · simp [h0, hclear]
    · simp [h0, hclear]

/-- The end of an interrupt renews the current task or changes nothing. -/
theorem retFromIntr_counters (idle : Nat) (hrun : s.state s.current = .running) :
    (retFromIntr idle s).timeslice = (if CallsSchedule s then Function.update s.timeslice s.current 100 else s.timeslice) ∧
      (retFromIntr idle s).needResched =
        if CallsSchedule s then Function.update s.needResched s.current 0 else s.needResched := by
  obtain ⟨hslice, hresched⟩ := schedule_counters idle s
  rw [if_pos hrun] at hslice hresched
  rw [retFromIntr_eq]
  split
  · exact ⟨hslice, hresched⟩
  · exact ⟨rfl, rfl⟩

/-- A timer interrupt renews the current task or takes a tick off its time slice. -/
theorem timerInterrupt_counters (idle : Nat) {c : Clock} (h0 : c.sched.current ≠ 0)
    (hrun : c.sched.state c.sched.current = .running) :
    (timerInterrupt idle c).sched.timeslice = (if CallsSchedule (doTimerInt c).sched
      then Function.update c.sched.timeslice c.sched.current 100
      else Function.update c.sched.timeslice c.sched.current ((c.sched.timeslice c.sched.current + 4294967295) % 4294967296)) ∧
      (timerInterrupt idle c).sched.needResched = if CallsSchedule (doTimerInt c).sched
        then Function.update c.sched.needResched c.sched.current 0 else c.sched.needResched := by
  have hframe := doTimerInt_sched c
  obtain ⟨hslice, hresched⟩ := retFromIntr_counters (s := (doTimerInt c).sched) idle (by rw [hframe]; exact hrun)
  have hcalls := callsSchedule_doTimerInt_iff c
  change (retFromIntr idle (doTimerInt c).sched).timeslice = _ ∧ (retFromIntr idle (doTimerInt c).sched).needResched = _
  rw [hslice, hresched]
  split
  · rw [hframe]
    dsimp only
    refine ⟨Function.update_idem _ _ _, ?_⟩
    split
    · exact Function.update_idem _ _ _
    · rfl
  · rename_i hno
    have hticks : c.sched.timeslice c.sched.current ≠ 0 := fun hspent => hno (hcalls.2 ⟨h0, Or.inl hspent⟩)
    rw [hframe]
    exact ⟨rfl, if_neg hticks⟩

/-- A task that blocks makes a request that `schedule` does not clear, and keeps its time slice. -/
theorem block_counters (idle : Nat) (s : Sched) (q : Nat) : (block idle s q).timeslice = s.timeslice ∧
    (block idle s q).needResched = Function.update s.needResched s.current 1 := by
  obtain ⟨f, n, p, hframe⟩ := doBlock_frame s q
  have hblocked : (doBlock s q).state (doBlock s q).current ≠ .running := by
    rw [hframe]
    simp
  obtain ⟨hslice, hresched⟩ := schedule_counters idle (doBlock s q)
  rw [if_neg hblocked, hframe] at hslice hresched
  exact ⟨by rw [block, hframe, hslice], by rw [block, hframe, hresched]⟩

end

end BootPerl
