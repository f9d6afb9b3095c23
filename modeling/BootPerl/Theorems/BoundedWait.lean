import BootPerl.Theorems.RoundRobin
import BootPerl.Theorems.Timeslice
import Mathlib.Data.List.Perm.Subperm

/-!
# How long a task waits for its turn, over whole runs

A task that runs keeps its place in the ring while the tasks before it have their turns: each call of `schedule` brings it one
place nearer, and only a task that joins the ring can push it back by one. A time slice is 101 ticks at most. Where tasks join
for ever, a task may wait for ever: two tasks that wake one another keep all others from running.
-/

namespace BootPerl

open Sched Outcome

/-- The clock, and what went by since a task began to wait: calls of `schedule`, tasks that joined the ring, and ticks. -/
structure WaitLog where
  clock : ClockState
  passed : Nat
  joined : Nat
  ticks : Nat

/-- Nothing went by yet. -/
def WaitLog.start (s : ClockState) : WaitLog := ⟨s, 0, 0, 0⟩

/-- The calls of `schedule` in a step. -/
def passedBy (s : ClockState) : ClockEvent → Nat
  | .timer => if CallsSchedule (doTimerInt s.clock).sched then 1 else 0
  | .interrupt => if CallsSchedule s.clock.sched then 1 else 0
  | .block => 1
  | .create _ _ | .wakeUpQueue | .systemIdle => 0

/-- The tasks that run after a step and did not before. -/
def joinedBy (s s' : ClockState) : Nat :=
  s'.tasks.countP fun t => s'.clock.sched.state t = .running ∧ ¬(t ∈ s.tasks ∧ s.clock.sched.state t = .running)

/-- The ticks in a step. -/
def ticksBy (e : ClockEvent) : Nat := if e = .timer then 1 else 0

/-- What went by after a step to `s`. -/
def WaitLog.next (x : WaitLog) (e : ClockEvent) (s : ClockState) : WaitLog where
  clock := s
  passed := x.passed + passedBy x.clock e
  joined := x.joined + joinedBy x.clock s
  ticks := x.ticks + ticksBy e

/-- A step, at the end of which the task `t` still waits. -/
def WaitStep (idle t : Nat) (x x' : WaitLog) : Prop :=
  ∃ e s, ClockStep idle x.clock e s ∧ s.clock.sched.current ≠ t ∧ x' = x.next e s

/-! ## The place of a task -/

section
variable {l pre post w rest : List Nat} {c a t : Nat}

/-- One turn brings a task a place nearer. -/
theorem idxOf_turn (hne : t ≠ a) (ht : t ∈ rest) : (rest ++ [a]).idxOf t + 1 = (a :: rest).idxOf t := by
  rw [List.idxOf_cons_ne _ (Ne.symm hne), List.idxOf_append_of_mem ht]

/-- Tasks that join push it back by as many places at most. -/
theorem idxOf_turns_append (h : (l ++ w).Nodup) (hcw : c ∉ w) (ht : t ∈ l) :
    (turns (l ++ w) c).idxOf t ≤ (turns l c).idxOf t + w.length := by
  by_cases hc : c ∈ l
  · obtain ⟨pre, post, rfl⟩ := List.append_of_mem hc
    have hassoc : pre ++ c :: post ++ w = pre ++ c :: (post ++ w) := by simp
    rw [hassoc] at h ⊢
    rw [turns_append h, turns_append (hassoc ▸ h).of_append_left]
    by_cases hpost : t ∈ post
    · rw [List.append_assoc, List.append_assoc, List.append_assoc, List.idxOf_append_of_mem hpost, List.idxOf_append_of_mem hpost]
      exact Nat.le_add_right _ _
    · have hw : t ∉ w := fun hm => by
        have hd := (List.nodup_append.1 (hassoc.symm ▸ h)).2.2
        exact hd t ht t hm rfl
      rw [List.append_assoc, List.append_assoc, List.append_assoc, List.idxOf_append_of_notMem hpost,
        List.idxOf_append_of_notMem hw, List.idxOf_append_of_notMem hpost]
      omega
  · rw [turns_of_not_mem hc, turns_of_not_mem (by simp [hc, hcw]), List.idxOf_append_of_mem ht]
    exact Nat.le_add_right _ _

end

/-! ## What a step does to it -/

/-- Tasks that run after a step and did not before have joined. -/
theorem length_le_joinedBy {s s' : ClockState} {u : List Nat} (hnd : u.Nodup) (hin : ∀ t ∈ u, t ∈ s'.tasks)
    (hrun : ∀ t ∈ u, s'.clock.sched.state t = .running) (hnew : ∀ t ∈ u, ¬(t ∈ s.tasks ∧ s.clock.sched.state t = .running)) :
    u.length ≤ joinedBy s s' := by
  rw [joinedBy, List.countP_eq_length_filter]
  refine (hnd.subperm fun t ht => ?_).length_le
  rw [List.mem_filter, decide_eq_true_iff]
  exact ⟨hin t ht, hrun t ht, hnew t ht⟩

namespace SchedInv
variable {idle t : Nat} {s : Sched} {tasks l : List Nat} {w : Nat → List Nat}

/-- `schedule` brings a task that waits a place nearer. -/
theorem schedule_place (h : SchedInv idle s tasks l w) (h0 : idle ≠ 0) (ht : t ∈ l)
    (hcur : (BootPerl.schedule idle s).current ≠ t) :
    (turns l (BootPerl.schedule idle s).current).idxOf t + 1 = (turns l s.current).idxOf t := by
  have hmem : t ∈ turns l s.current := (turns_perm l s.current).symm.subset ht
  have hfirst := h.schedule_current h0
  cases hturns : turns l s.current with
  | nil =>
    rw [hturns] at hmem
    exact absurd hmem List.not_mem_nil
  | cons a rest =>
    rw [hturns, List.headD_cons] at hfirst
    rw [hfirst] at hcur ⊢
    rw [hturns] at hmem
    rw [turns_next h.nodup hturns]
    exact idxOf_turn hcur.symm ((List.mem_cons.1 hmem).resolve_left hcur.symm)

/-- So does the end of an interrupt that calls `schedule`. -/
theorem retFromIntr_place (h : SchedInv idle s tasks l w) (h0 : idle ≠ 0) (ht : t ∈ l)
    (hcur : (BootPerl.retFromIntr idle s).current ≠ t) :
    (turns l (BootPerl.retFromIntr idle s).current).idxOf t + (if CallsSchedule s then 1 else 0) = (turns l s.current).idxOf t := by
  rw [retFromIntr_eq] at hcur ⊢
  by_cases hcalls : CallsSchedule s
  · rw [if_pos hcalls] at hcur ⊢
    rw [if_pos hcalls]
    exact h.schedule_place h0 ht hcur
  · rw [if_neg hcalls, if_neg hcalls, Nat.add_zero]

/-- `block` takes the current task off the run ring. -/
theorem block_ring {pre post : List Nat} (h : SchedInv idle s tasks l w) (h0 : idle ≠ 0) (q : Nat) (hc : s.current ≠ idle)
    (hl : l = pre ++ s.current :: post) :
    SchedInv idle (BootPerl.block idle s q) tasks (pre ++ post) (Function.update w q (w q ++ [s.current])) := by
  obtain ⟨l', h'⟩ := h.block q hc
  obtain ⟨f, n, p, hframe⟩ := doBlock_frame s q
  have hring : Ring (doBlock s q).runNext (doBlock s q).runPrev idle (pre ++ (doBlock s q).current :: post) := by
    rw [hframe]
    rcases h.run with ⟨hnil, -⟩ | hring
    · exact absurd (hl.symm.trans hnil) (by simp)
    · rwa [hl] at hring
  have hnd : (idle :: (pre ++ (doBlock s q).current :: post)).Nodup := by
    rw [hframe]
    exact hl ▸ h.ring_nodup
  have hblocked : (doBlock s q).state (doBlock s q).current ≠ .running := by
    rw [hframe]
    simp
  have hrun : RunList idle (BootPerl.block idle s q) (pre ++ post) := Or.inr (schedule_blocked hring hnd hblocked).1
  have hsub : ∀ u ∈ idle :: (pre ++ post), u ∈ idle :: l := fun u hu => by
    rw [hl]
    simp only [List.mem_cons, List.mem_append] at hu ⊢
    tauto
  have hz : 0 ∉ idle :: (pre ++ post) := fun hm => h.ring_ne_zero h0 (hsub 0 hm)
  have hidle : idle ∉ pre ++ post := fun hm => by
    have hnot := (List.nodup_cons.1 h.ring_nodup).1
    rw [hl] at hnot
    exact hnot (by simp only [List.mem_append, List.mem_cons] at hm ⊢; tauto)
  rwa [← h'.run.unique hrun (List.nodup_cons.1 h'.ring_nodup).1 hidle (h'.ring_ne_zero h0) hz]

/-- `block` brings a task that waits a place nearer. -/
theorem block_place {pre post : List Nat} (h : SchedInv idle s tasks l w) (h0 : idle ≠ 0) (q : Nat) (hc : s.current ≠ idle)
    (hl : l = pre ++ s.current :: post) (ht : t ∈ pre ++ post) (hcur : (BootPerl.block idle s q).current ≠ t) :
    (turns (pre ++ post) (BootPerl.block idle s q).current).idxOf t + 1 = (turns l s.current).idxOf t := by
  have hnd : (pre ++ s.current :: post).Nodup := hl ▸ h.nodup
  have hperm : (pre ++ s.current :: post).Perm (s.current :: (pre ++ post)) := List.perm_middle
  obtain ⟨hout, hnd'⟩ := List.nodup_cons.1 (hperm.nodup_iff.1 hnd)
  have hout' : s.current ∉ post ++ pre := fun hm => hout (List.perm_append_comm.subset hm)
  have hfirst := h.block_current h0 hc q
  rw [hl, turns_append hnd, List.erase_append_right _ hout', List.erase_cons_head, List.append_nil] at hfirst
  rw [hl, turns_append hnd, List.idxOf_append_of_mem (List.perm_append_comm.subset ht)]
  cases post with
  | nil =>
    cases pre with
    | nil => exact absurd ht List.not_mem_nil
    | cons a pre =>
      rw [List.nil_append, List.headD_cons] at hfirst
      rw [List.append_nil] at hnd' ht
      rw [hfirst] at hcur ⊢
      rw [List.append_nil, turns_head hnd', List.nil_append]
      exact idxOf_turn hcur.symm ((List.mem_cons.1 ht).resolve_left hcur.symm)
  | cons a post =>
    rw [List.cons_append, List.headD_cons] at hfirst
    rw [hfirst] at hcur ⊢
    rw [turns_append hnd', List.cons_append]
    refine idxOf_turn hcur.symm ?_
    simp only [List.mem_append, List.mem_cons] at ht ⊢
    tauto

end SchedInv

section
variable {idle t : Nat} {x x' : WaitLog} {l : List Nat} {w : Nat → List Nat}

/-- In every step the places that the task gains and loses are calls of `schedule` and tasks that joined. -/
theorem WaitStep.place (h : SchedInv idle x.clock.clock.sched x.clock.tasks l w) (h0 : idle ≠ 0) (ht : t ∈ l)
    (hcur : x.clock.clock.sched.current ≠ t) (hstep : WaitStep idle t x x') :
    ∃ l' w', SchedInv idle x'.clock.clock.sched x'.clock.tasks l' w' ∧ t ∈ l' ∧
      (turns l' x'.clock.clock.sched.current).idxOf t + x'.passed + x.joined ≤
        (turns l x.clock.clock.sched.current).idxOf t + x.passed + x'.joined := by
  obtain ⟨e, s, hclock, hcur', rfl⟩ := hstep
  simp only [WaitLog.next]
  cases hclock with
  | @create newStack u pid name stack garbage h1 h2 h3 =>
    have h' := (h.setNeedResched u garbage).create h0 h1 h2 h3 newStack pid name stack
    obtain ⟨-, hstate, -, -, -, -, hc'⟩ := createProcess_spec (h.setNeedResched u garbage).run h.ring_nodup (h.ring_ne_zero h0)
      (t := u) (fun hm => (List.mem_cons.1 hm).elim h2 fun hm => h3 ((h.running u).1 hm).1) newStack pid name stack
    refine ⟨_, _, h', List.mem_append_left _ ht, ?_⟩
    have hplace := idxOf_turns_append (c := x.clock.clock.sched.current) h'.nodup (w := [u]) (by
      rw [List.mem_singleton]
      rintro rfl
      exact (List.mem_cons.1 h.current_mem).elim h2 h3) ht
    have hone : [u].length ≤ joinedBy x.clock
        { x.clock.withSched (createProcess idle (x.clock.clock.sched.setNeedResched u garbage) newStack u pid name stack) with
          tasks := u :: x.clock.tasks } :=
      length_le_joinedBy (List.nodup_singleton u) (by simp) (by simp [ClockState.withSched, hstate]) (by simp [h3])
    simp only [ClockState.withSched, passedBy, hc', List.length_singleton] at hplace hone ⊢
    change (turns (l ++ [u]) x.clock.clock.sched.current).idxOf t + _ + _ ≤ _
    omega
  | timer =>
    have hplace := h.doTimerInt.retFromIntr_place h0 ht hcur'
    have hc : (doTimerInt x.clock.clock).sched.current = x.clock.clock.sched.current := by rw [doTimerInt_sched]
    refine ⟨_, _, h.doTimerInt.retFromIntr, ht, ?_⟩
    rw [hc] at hplace
    simp only [timerInterrupt, passedBy]
    omega
  | interrupt =>
    have hplace := h.retFromIntr_place h0 ht hcur'
    refine ⟨_, _, h.retFromIntr, ht, ?_⟩
    simp only [ClockState.withSched, passedBy]
    omega
  | @block q hc =>
    obtain ⟨pre, post, hl, -⟩ := h.exists_ring hc
    have hmem : t ∈ pre ++ post := by
      rw [hl] at ht
      simp only [List.mem_append, List.mem_cons] at ht ⊢
      exact ht.imp id fun ht => ht.resolve_left (Ne.symm hcur)
    have hplace := h.block_place h0 q hc hl hmem hcur'
    refine ⟨_, _, h.block_ring h0 q hc hl, hmem, ?_⟩
    simp only [ClockState.withSched, passedBy]
    omega
  | @wakeUpQueue q s' hcomes =>
    have h' := h.of_wakeUpQueue h0 hcomes
    obtain ⟨n, p, st, qn, qp, f, hframe⟩ := wakeUpQueue_frame hcomes
    have hc' : s'.current = x.clock.clock.sched.current := by rw [hframe]
    have hw : ∀ u ∈ w q, u ∈ x.clock.tasks ∧ x.clock.clock.sched.state u ≠ .running := fun u hu =>
      ⟨((h.waiting q u).1 hu).1, ((h.waiting q u).1 hu).2.1⟩
    refine ⟨_, _, h', List.mem_append_left _ ht, ?_⟩
    have hplace := idxOf_turns_append h'.nodup (h.current_not_mem_wait q) ht
    have hmany : (w q).length ≤ joinedBy x.clock (x.clock.withSched s') :=
      length_le_joinedBy (h.waitNodup q) (fun u hu => (hw u hu).1)
        (fun u hu => ((h'.running u).1 (List.mem_append_right l hu)).2) fun u hu hn => (hw u hu).2 hn.2
    simp only [ClockState.withSched, passedBy, hc'] at hmany ⊢
    omega
  | systemIdle hi =>
    refine ⟨_, _, h.counters _ _ _, ht, ?_⟩
    simp only [ClockState.withSched, passedBy]
    change (turns l x.clock.clock.sched.current).idxOf t + _ + _ ≤ _
    omega

/-- At boot no task has a tick left. -/
theorem Bounded.boot {s : ClockState} (h : ClockInit idle s) : Bounded s.clock.sched (idle :: s.tasks) := by
  intro u hu
  rw [h.2, List.mem_singleton] at hu
  rw [hu, h.1.timeslice]
  exact Nat.zero_le _

/-- In every step the ticks, and those left to the current task, stay within 101 for each call of `schedule`. -/
theorem WaitStep.slice (h : SchedInv idle x.clock.clock.sched x.clock.tasks l w) (h0 : idle ≠ 0)
    (hbound : Bounded x.clock.clock.sched (idle :: x.clock.tasks)) (hstep : WaitStep idle t x x')
    (hslice : x.ticks + x.clock.clock.sched.timeslice x.clock.clock.sched.current ≤ 100 + 101 * x.passed) :
    x'.ticks + x'.clock.clock.sched.timeslice x'.clock.clock.sched.current ≤ 100 + 101 * x'.passed := by
  obtain ⟨e, s, hclock, -, rfl⟩ := hstep
  obtain ⟨l', w', h'⟩ := h.clockStep h0 hclock
  have hle : s.clock.sched.timeslice s.clock.sched.current ≤ 100 := (hbound.clockStep h h0 hclock) _ h'.current_mem
  simp only [WaitLog.next]
  -- a call of `schedule` makes up for a tick and a whole time slice
  by_cases hcalls : passedBy x.clock e = 0
  · cases hclock with
    | @create newStack u pid name stack garbage h1 h2 h3 =>
      obtain ⟨-, -, -, -, -, -, hc⟩ := createProcess_spec (h.setNeedResched u garbage).run h.ring_nodup (h.ring_ne_zero h0)
        (t := u) (fun hm => (List.mem_cons.1 hm).elim h2 fun hm => h3 ((h.running u).1 hm).1) newStack pid name stack
      have hne : x.clock.clock.sched.current ≠ u := fun he => (List.mem_cons.1 h.current_mem).elim (fun hi => h2 (he.symm.trans hi))
        fun hm => h3 (he ▸ hm)
      have hkeep := (createProcess_counters idle (x.clock.clock.sched.setNeedResched u garbage) newStack u pid name stack).1
      simp only [ClockState.withSched, hc, hkeep, ticksBy, passedBy]
      change x.ticks + 0 + Function.update x.clock.clock.sched.timeslice u 100 x.clock.clock.sched.current ≤ _
      rw [Function.update_of_ne hne]
      exact hslice
    | timer =>
      have hno : ¬CallsSchedule (doTimerInt x.clock.clock).sched := fun hc => by simp [passedBy, hc] at hcalls
      have hticking : x.clock.clock.sched.timeslice x.clock.clock.sched.current ≠ 0 := fun hspent =>
        hno ((callsSchedule_doTimerInt_iff _).2 ⟨h.current_ne_zero h0, Or.inl hspent⟩)
      have hb : x.clock.clock.sched.timeslice x.clock.clock.sched.current ≤ 100 := hbound _ h.current_mem
      have hkeep := (timerInterrupt_counters idle (h.current_ne_zero h0) h.current_running).1
      rw [if_neg hno] at hkeep
      have hc : (timerInterrupt idle x.clock.clock).sched.current = x.clock.clock.sched.current := by
        rw [timerInterrupt, retFromIntr_eq, if_neg hno, doTimerInt_sched]
      rw [hkeep, hc, Function.update_self, hcalls, ticksBy, if_pos rfl]
      omega
    | interrupt =>
      have hno : ¬CallsSchedule x.clock.clock.sched := fun hc => by simp [passedBy, hc] at hcalls
      rw [ClockState.withSched, retFromIntr_eq, if_neg hno, hcalls]
      exact hslice
    | block hc => exact absurd hcalls Nat.one_ne_zero
    | wakeUpQueue hcomes =>
      obtain ⟨n, p, st, qn, qp, f, rfl⟩ := wakeUpQueue_frame hcomes
      exact hslice
    | systemIdle hi =>
      rw [hcalls]
      change x.ticks + 0 + Function.update x.clock.clock.sched.timeslice x.clock.clock.sched.current 0 x.clock.clock.sched.current ≤ _
      rw [Function.update_self]
      omega
  · have hone : ticksBy e ≤ 1 := by
      unfold ticksBy
      split <;> omega
    omega

end

/-- In every state reached, and for every task that runs and is not current: in every run from there, as long as the task waits, it
runs on, `schedule` was called at most as often as there were tasks before it in the ring, and once more for every task that joined;
and there were at most 101 ticks for each call, and 100 besides. -/
theorem bounded_wait (idle : Nat) (h0 : idle ≠ 0) {s : ClockState}
    (h : Reach (ClockInit idle) (fun s s' => ∃ e, ClockStep idle s e s') s) {t : Nat} (ht : t ∈ s.tasks)
    (hrun : s.clock.sched.state t = .running) (hcur : s.clock.sched.current ≠ t) :
    ∃ l, RunList idle s.clock.sched l ∧ (idle :: l).Nodup ∧ (∀ u, u ∈ l ↔ u ∈ s.tasks ∧ s.clock.sched.state u = .running) ∧
      ∀ x, Reach (· = WaitLog.start s) (WaitStep idle t) x →
        (t ∈ x.clock.tasks ∧ x.clock.clock.sched.state t = .running) ∧
        x.passed ≤ (turns l s.clock.sched.current).idxOf t + x.joined ∧ x.ticks ≤ 100 + 101 * x.passed := by
  obtain ⟨l, w, hinv, hbound⟩ := h.invariant
    (I := fun s => ∃ (l : List Nat) (w : Nat → List Nat), SchedInv idle s.clock.sched s.tasks l w ∧ Bounded s.clock.sched (idle :: s.tasks))
    (fun s hs => ⟨_, _, SchedInv.start hs.1 hs.2, Bounded.boot hs⟩)
    (by
      rintro s s' ⟨l, w, hinv, hbound⟩ ⟨e, hstep⟩
      obtain ⟨l', w', hinv'⟩ := hinv.clockStep h0 hstep
      exact ⟨l', w', hinv', hbound.clockStep hinv h0 hstep⟩)
  refine ⟨l, hinv.run, hinv.ring_nodup, hinv.running, fun x hx => ?_⟩
  obtain ⟨l', w', hinv', -, ht', -, hplace, hslice⟩ := hx.invariant
    (I := fun x => ∃ l' w', SchedInv idle x.clock.clock.sched x.clock.tasks l' w' ∧
      Bounded x.clock.clock.sched (idle :: x.clock.tasks) ∧ t ∈ l' ∧ x.clock.clock.sched.current ≠ t ∧
      (turns l' x.clock.clock.sched.current).idxOf t + x.passed ≤ (turns l s.clock.sched.current).idxOf t + x.joined ∧
      x.ticks + x.clock.clock.sched.timeslice x.clock.clock.sched.current ≤ 100 + 101 * x.passed)
    (by
      rintro _ rfl
      have := hbound _ hinv.current_mem
      exact ⟨l, w, hinv, hbound, (hinv.running t).2 ⟨ht, hrun⟩, hcur, Nat.le_refl _, by simp only [WaitLog.start]; omega⟩)
    (by
      rintro x x' ⟨l', w', hinv', hbound', ht', hcur', hplace, hslice⟩ hstep
      obtain ⟨l₂, w₂, hinv₂, ht₂, hplace₂⟩ := hstep.place hinv' h0 ht' hcur'
      have hslice₂ := hstep.slice hinv' h0 hbound' hslice
      obtain ⟨e, s₂, hclock, hcur₂, rfl⟩ := hstep
      exact ⟨l₂, w₂, hinv₂, hbound'.clockStep hinv' h0 hclock, ht₂, hcur₂, by omega, hslice₂⟩)
  exact ⟨(hinv'.running t).1 ht', by omega, by omega⟩

/-! ## Waiting for ever -/

/-- The current task is the last of the ring, `t` is another of it, and one task waits on `q`. -/
def Relay (idle t q : Nat) (s : ClockState) : Prop :=
  ∃ pre b w, SchedInv idle s.clock.sched s.tasks (pre ++ [s.clock.sched.current]) w ∧ t ∈ pre ∧ w q = [b]

section
variable {idle t q : Nat} {s : ClockState}

/-- A relay is seen from the links. -/
theorem Relay.of_links {l : List Nat} {w : Nat → List Nat} (h : SchedInv idle s.clock.sched s.tasks l w) (ht : t ∈ s.tasks)
    (hrun : s.clock.sched.state t = .running) (hcur : s.clock.sched.current ≠ t) (hc : s.clock.sched.current ≠ idle)
    (hlast : s.clock.sched.runNext s.clock.sched.current = idle) (hfirst : s.clock.sched.first q ≠ 0)
    (hlone : s.clock.sched.queueNext (s.clock.sched.first q) = 0) : Relay idle t q s := by
  obtain ⟨pre, post, hl, hring⟩ := h.exists_ring hc
  have hidle : idle ∉ l := (List.nodup_cons.1 h.ring_nodup).1
  have hpost : post = [] := by
    rw [hring.next_eq] at hlast
    cases post with
    | nil => rfl
    | cons b post =>
      rw [List.headD_cons] at hlast
      exact absurd (by rw [hl, ← hlast]; simp) hidle
  subst hpost
  have htl : t ∈ l := (h.running t).2 ⟨ht, hrun⟩
  have hpre : t ∈ pre := by
    rw [hl, List.mem_append, List.mem_singleton] at htl
    exact htl.resolve_right (Ne.symm hcur)
  have hwait := h.wait q
  match hw : w q with
  | [] =>
    rw [hw] at hwait
    exact absurd hwait hfirst
  | [b] => exact ⟨pre, b, w, hl ▸ h, hpre, hw⟩
  | a :: b :: rest =>
    rw [hw] at hwait
    obtain ⟨ha, hring'⟩ := hwait
    rw [ha, hring'.next_head, List.headD_cons] at hlone
    exact absurd hlone (h.wait_ne_zero q b (by rw [hw]; simp))

/-- The current task wakes the one that waits and blocks in its place: the other becomes current, and `t` waits on. -/
theorem Relay.round {x : WaitLog} (h : Relay idle t q x.clock) (h0 : idle ≠ 0) : ∃ x₁ x₂, WaitStep idle t x x₁ ∧ WaitStep idle t x₁ x₂ ∧
    Relay idle t q x₂.clock ∧ x₂.passed = x.passed + 1 := by
  obtain ⟨pre, b, w, hinv, ht, hw⟩ := h
  obtain ⟨s₁, hcomes, hinv₁⟩ := hinv.wakeUpQueue h0 q
  obtain ⟨n, p, st, qn, qp, f, hframe⟩ := wakeUpQueue_frame hcomes
  have hc₁ : s₁.current = x.clock.clock.sched.current := by rw [hframe]
  have hc : x.clock.clock.sched.current ≠ idle := fun he => (List.nodup_cons.1 hinv.ring_nodup).1 (he ▸ by simp)
  have hl : pre ++ [x.clock.clock.sched.current] ++ w q = pre ++ s₁.current :: [b] := by rw [hc₁, hw]; simp
  have hnd : (pre ++ s₁.current :: [b]).Nodup := hl ▸ hinv₁.nodup
  obtain ⟨-, hnd', hdisj⟩ := List.nodup_append.1 hnd
  have htc : s₁.current ≠ t := fun he => hdisj t ht _ List.mem_cons_self he.symm
  have htb : b ≠ t := fun he => hdisj t ht b (by simp) he.symm
  have hinv₂ := hinv₁.block_ring h0 q (hc₁ ▸ hc) hl
  have hc₂ : (BootPerl.block idle s₁ q).current = b := by
    have hout : s₁.current ∉ [b] ++ pre := fun hm => by
      rw [List.singleton_append, List.mem_cons] at hm
      rcases hm with hm | hm
      · exact (List.nodup_cons.1 hnd').1 (hm ▸ List.mem_cons_self)
      · exact hdisj _ hm _ List.mem_cons_self rfl
    have hblock := hinv₁.block_current h0 (hc₁ ▸ hc) q
    rwa [hl, turns_append hnd, List.erase_append_right _ hout, List.erase_cons_head, List.append_nil] at hblock
  refine ⟨_, _, ⟨_, _, .wakeUpQueue hcomes, htc, rfl⟩, ⟨_, _, .block (q := q) (hc₁ ▸ hc), ?_, rfl⟩, ?_, rfl⟩
  · exact ne_of_eq_of_ne hc₂ htb
  · have hlast : pre ++ [b] = pre ++ [(BootPerl.block idle s₁ q).current] := by rw [hc₂]
    exact ⟨pre, s₁.current, _, hlast ▸ hinv₂, ht, by rw [Function.update_self, Function.update_self, List.nil_append]⟩

end

/-- From every state reached in which the current task is the last of the ring and another waits alone on a queue, the two can have
as many turns as one likes while a third, which runs all the time, has none. -/
theorem starvation (idle : Nat) (h0 : idle ≠ 0) {s : ClockState}
    (h : Reach (ClockInit idle) (fun s s' => ∃ e, ClockStep idle s e s') s) {t q : Nat} (ht : t ∈ s.tasks)
    (hrun : s.clock.sched.state t = .running) (hcur : s.clock.sched.current ≠ t) (hc : s.clock.sched.current ≠ idle)
    (hlast : s.clock.sched.runNext s.clock.sched.current = idle) (hfirst : s.clock.sched.first q ≠ 0)
    (hlone : s.clock.sched.queueNext (s.clock.sched.first q) = 0) (n : Nat) :
    ∃ x, Reach (· = WaitLog.start s) (WaitStep idle t) x ∧ x.passed = n := by
  obtain ⟨l, w, hinv⟩ := h.invariant (I := fun s => ∃ (l : List Nat) (w : Nat → List Nat), SchedInv idle s.clock.sched s.tasks l w)
    (fun s hs => ⟨_, _, SchedInv.start hs.1 hs.2⟩)
    (by
      rintro s s' ⟨l, w, hinv⟩ ⟨e, hstep⟩
      exact hinv.clockStep h0 hstep)
  suffices hrelay : ∃ x, Reach (· = WaitLog.start s) (WaitStep idle t) x ∧ Relay idle t q x.clock ∧ x.passed = n by
    obtain ⟨x, hx, -, hn⟩ := hrelay
    exact ⟨x, hx, hn⟩
  induction n with
  | zero => exact ⟨WaitLog.start s, .init rfl, Relay.of_links hinv ht hrun hcur hc hlast hfirst hlone, rfl⟩
  | succ n ih =>
    obtain ⟨x, hx, hrelay, hn⟩ := ih
    obtain ⟨x₁, x₂, h₁, h₂, hrelay₂, hn₂⟩ := hrelay.round h0
    exact ⟨x₂, (hx.step h₁).step h₂, hrelay₂, by rw [hn₂, hn]⟩

/-- Three tasks are created; the first blocks, and the second asks for `schedule` at once. -/
def relayClock : ClockState :=
  let s := createProcess 0x1000 ((zeroSched 0x1000).setNeedResched 0x2000 0) 0x8000 0x2000 1 0 1024
  let s := createProcess 0x1000 (s.setNeedResched 0x3000 1) 0x9000 0x3000 2 0 1024
  let s := createProcess 0x1000 (s.setNeedResched 0x4000 0) 0xa000 0x4000 3 0 1024
  let s := block 0x1000 (retFromIntr 0x1000 s) 0x5000
  ⟨⟨0, retFromIntr 0x1000 s⟩, [0x4000, 0x3000, 0x2000]⟩

theorem relayClock_reached : Reach (ClockInit 0x1000) (fun s s' => ∃ e, ClockStep 0x1000 s e s') relayClock := by
  have hboot : Reach (ClockInit 0x1000) (fun s s' => ∃ e, ClockStep 0x1000 s e s') zeroClock := .init (taskInit_zeroSched 0x1000)
  have h₁ := hboot.step ⟨_, @ClockStep.create 0x1000 _ 0x8000 0x2000 1 0 1024 0 (by decide) (by decide) (by simp [zeroClock])⟩
  have h₂ := h₁.step ⟨_, @ClockStep.create 0x1000 _ 0x9000 0x3000 2 0 1024 1 (by decide) (by decide) (by simp [zeroClock])⟩
  have h₃ := h₂.step ⟨_, @ClockStep.create 0x1000 _ 0xa000 0x4000 3 0 1024 0 (by decide) (by decide) (by simp [zeroClock])⟩
  exact ((h₃.step ⟨_, .interrupt⟩).step ⟨_, .block (q := 0x5000) (by decide)⟩).step ⟨_, .interrupt⟩

/-- The second task waits for the third. -/
theorem bounded_wait_relay : ∃ l, RunList 0x1000 relayClock.clock.sched l ∧ (0x1000 :: l).Nodup ∧
    (∀ u, u ∈ l ↔ u ∈ relayClock.tasks ∧ relayClock.clock.sched.state u = .running) ∧
    ∀ x, Reach (· = WaitLog.start relayClock) (WaitStep 0x1000 0x3000) x →
      (0x3000 ∈ x.clock.tasks ∧ x.clock.clock.sched.state 0x3000 = .running) ∧
      x.passed ≤ (turns l relayClock.clock.sched.current).idxOf 0x3000 + x.joined ∧ x.ticks ≤ 100 + 101 * x.passed :=
  bounded_wait 0x1000 (by decide) relayClock_reached (by decide) (by decide) (by decide)

/-- The second task may wait for ever. -/
theorem starvation_relay : ∃ x, Reach (· = WaitLog.start relayClock) (WaitStep 0x1000 0x3000) x ∧ x.passed = 1000 :=
  starvation 0x1000 (by decide) relayClock_reached (q := 0x5000) (by decide) (by decide) (by decide) (by decide) (by decide)
    (by decide) (by decide) 1000

end BootPerl
