import BootPerl.Task
import BootPerl.Lib.Ring

/-!
# The run list and the wait queues

What each function of `task.c` does to the two kinds of lists: a run list is empty or a ring through `idle_task`, a wait queue is
null, a lone task or a ring. One lemma for each function and kind, and one that says what else it leaves alone.
-/

namespace BootPerl

open Sched Outcome

/-- The run list holds the tasks of `l` in order: no links at all, or a ring through `idle_task`. -/
def RunList (idle : Nat) (s : Sched) (l : List Nat) : Prop :=
  (l = [] ∧ s.runNext idle = 0 ∧ s.runPrev idle = 0) ∨ Ring s.runNext s.runPrev idle l

/-- The wait queue holds the tasks of the list in order: null, a lone task with null links, or a ring. -/
def WaitList (s : Sched) (q : Nat) : List Nat → Prop
  | [] => s.first q = 0
  | [t] => s.first q = t ∧ s.queueNext t = 0 ∧ s.queuePrev t = 0
  | t :: u :: l => s.first q = t ∧ Ring s.queueNext s.queuePrev t (u :: l)

section
variable {idle : Nat} {s s' : Sched} {l : List Nat}

/-! ## The run list -/

/-- A run list depends on the run links of its tasks and of `idle_task` only. -/
theorem RunList.congr (h : RunList idle s l) (hn : ∀ t ∈ idle :: l, s'.runNext t = s.runNext t)
    (hp : ∀ t ∈ idle :: l, s'.runPrev t = s.runPrev t) : RunList idle s' l := by
  rcases h with ⟨rfl, h1, h2⟩ | h
  · exact Or.inl ⟨rfl, by rw [hn idle (by simp), h1], by rw [hp idle (by simp), h2]⟩
  · exact Or.inr (h.congr hn hp)

/-- The links say which tasks are on a run list, and in which order. -/
theorem RunList.unique {l' : List Nat} (h : RunList idle s l) (h' : RunList idle s l') (hnd : idle ∉ l) (hnd' : idle ∉ l')
    (h0 : 0 ∉ idle :: l) (h0' : 0 ∉ idle :: l') : l = l' := by
  rcases h with ⟨rfl, hn, -⟩ | h
  · rcases h' with ⟨rfl, -, -⟩ | h'
    · rfl
    · exact absurd (hn ▸ h'.next_mem List.mem_cons_self) h0'
  · rcases h' with ⟨rfl, hn, -⟩ | h'
    · exact absurd (hn ▸ h.next_mem List.mem_cons_self) h0
    · exact h.unique h' hnd hnd'

/-- `runAppend` writes run links only. -/
theorem runAppend_frame (idle : Nat) (s : Sched) (t : Nat) :
    ∃ n p, runAppend idle s t = { s with runNext := n, runPrev := p } := by
  unfold runAppend
  split
  · simp only [setRunNext, setRunPrev]
    exact ⟨_, _, rfl⟩
  · simp only [setRunNext, setRunPrev]
    exact ⟨_, _, rfl⟩

/-- `taskAppend` writes links of the list of all tasks only. -/
theorem taskAppend_frame (idle : Nat) (s : Sched) (t : Nat) :
    ∃ n p, taskAppend idle s t = { s with taskNext := n, taskPrev := p } := by
  unfold taskAppend
  split
  · simp only [setTaskNext, setTaskPrev]
    exact ⟨_, _, rfl⟩
  · simp only [setTaskNext, setTaskPrev]
    exact ⟨_, _, rfl⟩

/-- A task put on the run list becomes its last. -/
theorem RunList.append (h : RunList idle s l) (hnd : (idle :: l).Nodup) (h0 : 0 ∉ idle :: l) {t : Nat} (ht : t ∉ idle :: l) :
    RunList idle (runAppend idle s t) (l ++ [t]) := by
  have hti : t ≠ idle := fun he => ht (he ▸ List.mem_cons_self)
  unfold runAppend
  rcases h with ⟨rfl, h1, -⟩ | h
  · rw [if_pos h1]
    simp only [setRunNext, setRunPrev]
    exact Or.inr (ring_pair hti)
  · have hne : s.runNext idle ≠ 0 := fun he => h0 (he ▸ h.next_mem List.mem_cons_self)
    rw [if_neg hne]
    simp only [setRunNext, setRunPrev]
    exact Or.inr (h.append hnd ht)

/-- A new task is running, last of the run list and on no queue; no other task changes but for the links of the two lists. -/
theorem createProcess_spec (h : RunList idle s l) (hnd : (idle :: l).Nodup) (h0 : 0 ∉ idle :: l) {t : Nat} (ht : t ∉ idle :: l)
    (newStack pid name stack : Nat) :
    RunList idle (createProcess idle s newStack t pid name stack) (l ++ [t]) ∧
      (createProcess idle s newStack t pid name stack).state = Function.update s.state t .running ∧
      (createProcess idle s newStack t pid name stack).queue = Function.update s.queue t 0 ∧
      (createProcess idle s newStack t pid name stack).queueNext = Function.update s.queueNext t 0 ∧
      (createProcess idle s newStack t pid name stack).queuePrev = Function.update s.queuePrev t 0 ∧
      (createProcess idle s newStack t pid name stack).first = s.first ∧
      (createProcess idle s newStack t pid name stack).current = s.current := by
  unfold createProcess
  extract_lets regs esp s₁
  have h₁ : RunList idle s₁ l := h.congr (fun u hu => Function.update_of_ne (ne_of_mem_of_not_mem hu ht) _ _)
    fun u hu => Function.update_of_ne (ne_of_mem_of_not_mem hu ht) _ _
  obtain ⟨n, p, htask⟩ := taskAppend_frame idle s₁ t
  have h₂ : RunList idle (taskAppend idle s₁ t) l := by
    rw [htask]
    exact h₁.congr (fun _ _ => rfl) fun _ _ => rfl
  obtain ⟨n', p', hrun⟩ := runAppend_frame idle (taskAppend idle s₁ t) t
  refine ⟨h₂.append hnd h0 ht, ?_⟩
  rw [hrun, htask]
  exact ⟨rfl, rfl, rfl, rfl, rfl, rfl⟩

/-- A new task has a whole time slice, and in `need_resched` what its memory held. -/
theorem createProcess_counters (idle : Nat) (s : Sched) (newStack t pid name stack : Nat) :
    (createProcess idle s newStack t pid name stack).timeslice = Function.update s.timeslice t 100 ∧
      (createProcess idle s newStack t pid name stack).needResched = s.needResched := by
  unfold createProcess
  extract_lets regs esp s₁
  obtain ⟨n, p, htask⟩ := taskAppend_frame idle s₁ t
  obtain ⟨n', p', hrun⟩ := runAppend_frame idle (taskAppend idle s₁ t) t
  rw [hrun, htask]
  exact ⟨rfl, rfl⟩

/-- A new task has used no time. -/
theorem createProcess_time (idle : Nat) (s : Sched) (newStack t pid name stack : Nat) :
    (createProcess idle s newStack t pid name stack).time = Function.update s.time t 0 := by
  unfold createProcess
  extract_lets regs esp s₁
  obtain ⟨n, p, htask⟩ := taskAppend_frame idle s₁ t
  obtain ⟨n', p', hrun⟩ := runAppend_frame idle (taskAppend idle s₁ t) t
  rw [hrun, htask]

/-- The first half of `schedule` leaves the state and the queues of every task alone. -/
theorem retire_frame (s : Sched) (prev : Nat) :
    ∃ n p r ts, retire s prev = { s with runNext := n, runPrev := p, needResched := r, timeslice := ts } := by
  unfold retire
  split
  · simp only [setRunNext, setRunPrev]
    exact ⟨_, _, _, _, rfl⟩
  · simp only [setNeedResched, setTimeslice]
    exact ⟨_, _, _, _, rfl⟩

/-- `schedule` leaves the state and the queues of every task alone. -/
theorem schedule_frame (idle : Nat) (s : Sched) : ∃ n p r ts c, schedule idle s =
    { s with runNext := n, runPrev := p, needResched := r, timeslice := ts, current := c } := by
  obtain ⟨n, p, r, ts, hframe⟩ := retire_frame s s.current
  simp only [schedule, hframe]
  exact ⟨n, p, r, ts, _, rfl⟩

/-- `schedule` of a running task renews its time slice and clears its request; one that does not run keeps both. -/
theorem schedule_counters (idle : Nat) (s : Sched) :
    (schedule idle s).timeslice = (if s.state s.current = .running then Function.update s.timeslice s.current 100 else s.timeslice) ∧
      (schedule idle s).needResched =
        if s.state s.current = .running then Function.update s.needResched s.current 0 else s.needResched := by
  simp only [schedule, retire]
  by_cases hrun : s.state s.current = .running
  · rw [if_neg (not_not_intro hrun), if_pos hrun, if_pos hrun]
    exact ⟨rfl, rfl⟩
  · rw [if_pos hrun, if_neg hrun, if_neg hrun]
    simp only [setRunNext, setRunPrev, and_self]

/-- What `schedule` picks is on the run list, if the task after the one before is on it. -/
theorem RunList.pick_mem (h : RunList idle s l) {prev next : Nat} (hnext : prev ≠ idle → next ∈ idle :: l) :
    pick idle s prev next ∈ idle :: l := by
  unfold pick
  split
  · split
    · rename_i hne
      rcases h with ⟨-, h1, -⟩ | h
      · exact absurd h1 hne
      · exact h.next_mem List.mem_cons_self
    · exact List.mem_cons_self
  · rename_i hc
    exact hnext fun he => hc (Or.inl he)

/-- `schedule` of a running task keeps the run list and makes a task of it, or `idle_task`, current. -/
theorem schedule_running (h : RunList idle s l) (hc : s.current ∈ idle :: l) (hrun : s.state s.current = .running) :
    RunList idle (schedule idle s) l ∧ (schedule idle s).current ∈ idle :: l := by
  have hret : retire s s.current = (s.setNeedResched s.current 0).setTimeslice s.current 100 := by
    rw [retire, if_neg (by simp [hrun])]
  have hlist : RunList idle (retire s s.current) l := by
    rw [hret]
    exact h
  refine ⟨hlist.congr (fun _ _ => rfl) fun _ _ => rfl, hlist.pick_mem fun hne => ?_⟩
  rcases h with ⟨rfl, -, -⟩ | h
  · simp only [List.mem_singleton] at hc
    exact absurd hc hne
  · exact h.next_mem hc

/-- `schedule` of a task that does not run takes it off the run list. -/
theorem schedule_blocked {pre post : List Nat} (h : Ring s.runNext s.runPrev idle (pre ++ s.current :: post))
    (hnd : (idle :: (pre ++ s.current :: post)).Nodup) (hrun : s.state s.current ≠ .running) :
    Ring (schedule idle s).runNext (schedule idle s).runPrev idle (pre ++ post) ∧
      (schedule idle s).current ∈ idle :: (pre ++ post) := by
  have hmem : s.current ∈ idle :: (pre ++ s.current :: post) := by simp
  have hout : s.current ∉ idle :: (pre ++ post) := by
    have hperm : (idle :: (pre ++ s.current :: post)).Perm (s.current :: idle :: (pre ++ post)) :=
      (List.Perm.cons idle List.perm_middle).trans (List.Perm.swap _ _ _)
    exact (List.nodup_cons.1 (hperm.nodup_iff.1 hnd)).1
  obtain ⟨hn, hp⟩ := h.neighbours
  have hnext : s.runNext s.current ∈ idle :: (pre ++ post) := by
    rw [List.mem_append, List.mem_singleton] at hn
    rw [List.mem_cons, List.mem_append]
    rcases hn with hn | hn
    · exact Or.inr (Or.inr hn)
    · exact Or.inl hn
  have hprev : s.runPrev s.current ≠ s.current := by
    intro he
    rw [he] at hp
    exact hout (List.mem_cons.2 ((List.mem_cons.1 hp).imp id (List.mem_append_left post)))
  have hring := h.remove hnd
  have hret : (retire s s.current).runNext =
        Function.update (Function.update s.runNext (s.runPrev s.current) (s.runNext s.current)) s.current 0 ∧
      (retire s s.current).runPrev =
        Function.update (Function.update s.runPrev (s.runNext s.current) (s.runPrev s.current)) s.current 0 := by
    unfold retire
    rw [if_pos hrun]
    simp only [setRunNext, setRunPrev, Function.update_of_ne hprev.symm]
    exact ⟨trivial, trivial⟩
  have hres : Ring (retire s s.current).runNext (retire s s.current).runPrev idle (pre ++ post) := by
    rw [hret.1, hret.2]
    refine hring.congr (fun x hx => ?_) fun x hx => ?_
    · exact Function.update_of_ne (ne_of_mem_of_not_mem hx hout) _ _
    · exact Function.update_of_ne (ne_of_mem_of_not_mem hx hout) _ _
  exact ⟨hres, RunList.pick_mem (Or.inr hres) fun _ => hnext⟩

/-! ## The wait queues -/

/-- A wait queue depends on its first pointer and on the queue links of its tasks only. -/
theorem WaitList.congr {q : Nat} {w : List Nat} (h : WaitList s q w) (hf : s'.first q = s.first q)
    (hn : ∀ t ∈ w, s'.queueNext t = s.queueNext t) (hp : ∀ t ∈ w, s'.queuePrev t = s.queuePrev t) : WaitList s' q w := by
  match w, h with
  | [], h => exact hf.trans h
  | [t], ⟨h1, h2, h3⟩ =>
    exact ⟨hf.trans h1, (hn t List.mem_cons_self).trans h2, (hp t List.mem_cons_self).trans h3⟩
  | t :: u :: l, ⟨h1, h2⟩ => exact ⟨hf.trans h1, h2.congr hn hp⟩

/-- `enqueue` writes queue links and the first pointer only. -/
theorem enqueue_frame (s : Sched) (q t : Nat) :
    ∃ f n p, enqueue s q t = { s with first := f, queueNext := n, queuePrev := p } := by
  unfold enqueue
  split
  · exact ⟨_, _, _, rfl⟩
  · split
    · simp only [setQueueNext, setQueuePrev]
      exact ⟨_, _, _, rfl⟩
    · simp only [setQueueNext, setQueuePrev]
      exact ⟨_, _, _, rfl⟩

/-- A task put on a queue becomes its last. -/
theorem WaitList.enqueue {q t : Nat} {w : List Nat} (h : WaitList s q w) (hnd : w.Nodup) (h0 : ∀ u ∈ w, u ≠ 0) (ht : t ∉ w)
    (hlone : s.queueNext t = 0 ∧ s.queuePrev t = 0) : WaitList (enqueue s q t) q (w ++ [t]) := by
  unfold BootPerl.enqueue
  match w, h with
  | [], h =>
    have hq : s.first q = 0 := h
    rw [if_pos hq]
    refine ⟨?_, hlone⟩
    simp only [setFirst, Function.update_self]
  | [f], ⟨h1, h2, _⟩ =>
    have hf := h0 f List.mem_cons_self
    have htf : t ≠ f := fun he => ht (he ▸ List.mem_cons_self)
    rw [h1, if_neg hf, if_pos h2]
    exact ⟨h1, by
      simp only [setQueueNext, setQueuePrev, h1]
      exact ring_pair htf⟩
  | f :: g :: l, ⟨h1, h2⟩ =>
    have hf := h0 f List.mem_cons_self
    have hne : s.queueNext f ≠ 0 := h0 _ (h2.next_mem List.mem_cons_self)
    rw [h1, if_neg hf, if_neg hne]
    exact ⟨h1, by
      simp only [setQueueNext, setQueuePrev, h1]
      exact h2.append hnd ht⟩

/-- `enqueue` leaves the links of every task alone that is not on the queue. -/
theorem WaitList.enqueue_links {q t : Nat} {w : List Nat} (h : WaitList s q w) (h0 : ∀ u ∈ w, u ≠ 0) {u : Nat} (hw : u ∉ w)
    (hut : u ≠ t) : (BootPerl.enqueue s q t).queueNext u = s.queueNext u ∧ (BootPerl.enqueue s q t).queuePrev u = s.queuePrev u := by
  unfold BootPerl.enqueue
  match w, h with
  | [], h =>
    have hf : s.first q = 0 := h
    rw [if_pos hf]
    exact ⟨rfl, rfl⟩
  | [f], ⟨h1, h2, _⟩ =>
    have huf : u ≠ f := fun he => hw (he ▸ List.mem_cons_self)
    rw [h1, if_neg (h0 f List.mem_cons_self), if_pos h2]
    simp only [setQueueNext, setQueuePrev, h1, Function.update_of_ne huf, Function.update_of_ne hut, and_self]
  | f :: g :: l, ⟨h1, h2⟩ =>
    have hne : s.queueNext f ≠ 0 := h0 _ (h2.next_mem List.mem_cons_self)
    have huf : u ≠ f := fun he => hw (he ▸ List.mem_cons_self)
    have hup : u ≠ s.queuePrev f := fun he => hw (he ▸ h2.prev_head)
    rw [h1, if_neg (h0 f List.mem_cons_self), if_neg hne]
    simp only [setQueueNext, setQueuePrev, h1, Function.update_of_ne huf, Function.update_of_ne hut, Function.update_of_ne hup,
      and_self]

/-- `enqueue` writes the first pointer of its queue only. -/
theorem enqueue_first (s : Sched) {q q' : Nat} (hq : q' ≠ q) (t : Nat) : (enqueue s q t).first q' = s.first q' := by
  unfold enqueue
  split
  · exact Function.update_of_ne hq _ _
  · split <;> rfl

/-- The current task becomes the last of the queue it blocks on. -/
theorem WaitList.doBlock {q : Nat} {w : List Nat} (h : WaitList s q w) (hnd : w.Nodup) (h0 : ∀ u ∈ w, u ≠ 0)
    (hc : s.current ∉ w) (hlone : s.queueNext s.current = 0 ∧ s.queuePrev s.current = 0) :
    WaitList (BootPerl.doBlock s q) q (w ++ [s.current]) := by
  unfold BootPerl.doBlock
  extract_lets s₁ s₂ s₃
  have h₃ : WaitList s₃ q w := h.congr rfl (fun _ _ => rfl) fun _ _ => rfl
  exact h₃.enqueue hnd h0 hc hlone

/-- `do_block` leaves the links of every task alone that is not on the queue. -/
theorem WaitList.doBlock_links {q : Nat} {w : List Nat} (h : WaitList s q w) (h0 : ∀ u ∈ w, u ≠ 0) {u : Nat} (hw : u ∉ w)
    (hu : u ≠ s.current) : (BootPerl.doBlock s q).queueNext u = s.queueNext u ∧
      (BootPerl.doBlock s q).queuePrev u = s.queuePrev u := by
  unfold BootPerl.doBlock
  extract_lets s₁ s₂ s₃
  have h₃ : WaitList s₃ q w := h.congr rfl (fun _ _ => rfl) fun _ _ => rfl
  exact h₃.enqueue_links h0 hw hu

/-- `do_block` writes the first pointer of its queue only. -/
theorem doBlock_first (s : Sched) {q q' : Nat} (hq : q' ≠ q) : (doBlock s q).first q' = s.first q' := by
  unfold doBlock
  extract_lets s₁ s₂ s₃
  exact enqueue_first s₃ hq s₃.current

/-- `do_block` marks the current task, and writes queue links and the first pointer. -/
theorem doBlock_frame (s : Sched) (q : Nat) : ∃ f n p, doBlock s q =
    { s with
      state := Function.update s.state s.current .interruptable
      needResched := Function.update s.needResched s.current 1
      queue := Function.update s.queue s.current q
      first := f
      queueNext := n
      queuePrev := p } := by
  obtain ⟨f, n, p, hframe⟩ :=
    enqueue_frame (((s.setState s.current .interruptable).setNeedResched s.current 1).setQueue s.current q) q s.current
  refine ⟨f, n, p, ?_⟩
  rw [doBlock]
  simp only [setState, setNeedResched, setQueue] at hframe ⊢
  exact hframe

/-! ## Waking a queue -/

/-- The tasks of a wait queue from the first on: each leads to the next, and the last to none or back to the first. -/
def Waiting (s : Sched) (q : Nat) (w : List Nat) : Prop :=
  w.IsChain (fun t u => s.queueNext t = u) ∧ ∀ t ∈ w.getLast?, s.queueNext t = 0 ∨ s.queueNext t = s.first q

/-- A wait queue can be walked. -/
theorem WaitList.waiting {q t : Nat} {w : List Nat} (h : WaitList s q (t :: w)) :
    Waiting s q (t :: w) ∧ s.first q = t := by
  match w, h with
  | [], ⟨h1, h2, _⟩ =>
    refine ⟨⟨List.isChain_singleton t, fun u hu => Or.inl ?_⟩, h1⟩
    rw [List.getLast?_singleton, Option.mem_some_iff] at hu
    rw [← hu, h2]
  | u :: l, ⟨h1, h2⟩ =>
    obtain ⟨init, z, hl⟩ := exists_concat t (u :: l)
    unfold Ring at h2
    rw [← List.cons_append, hl, List.append_assoc] at h2
    obtain ⟨hchain, hlast⟩ := List.isChain_split.1 h2
    refine ⟨?_, h1⟩
    rw [hl]
    refine ⟨hchain.imp fun _ _ hlink => hlink.1, fun v hv => Or.inr ?_⟩
    rw [List.getLast?_concat, Option.mem_some_iff] at hv
    rw [← hv, h1]
    exact (List.isChain_cons_cons.1 hlast).1.1

/-- The state after one turn of the loop of `wake_up_queue`. -/
def wakeTurn (idle : Nat) (s : Sched) (t : Nat) : Sched := wakeUp idle ((s.setQueuePrev t 0).setQueueNext t 0) t

/-- One turn puts the task on the run list, marks it running and clears its queue links. -/
theorem wakeTurn_spec (h : RunList idle s l) (hnd : (idle :: l).Nodup) (h0 : 0 ∉ idle :: l) {t : Nat} (ht : t ∉ idle :: l) :
    RunList idle (wakeTurn idle s t) (l ++ [t]) ∧ ∃ n p, wakeTurn idle s t =
      { s with
        runNext := n
        runPrev := p
        state := Function.update s.state t .running
        queueNext := Function.update s.queueNext t 0
        queuePrev := Function.update s.queuePrev t 0 } := by
  have hlist : RunList idle (((s.setQueuePrev t 0).setQueueNext t 0).setState t .running) l := h
  obtain ⟨n, p, hframe⟩ := runAppend_frame idle (((s.setQueuePrev t 0).setQueueNext t 0).setState t .running) t
  refine ⟨hlist.append hnd h0 ht, n, p, ?_⟩
  rw [wakeTurn, wakeUp, hframe]
  simp only [setQueuePrev, setQueueNext, setState]

/-- The loop turns, and ends when the next task is none or the first of the queue. -/
theorem wakeUpLoop_succ {idle q fuel t : Nat} {s : Sched} (ht : t ≠ 0) :
    wakeUpLoop idle q (fuel + 1) s t = if s.queueNext t = s.first q then .ok (wakeTurn idle s t)
      else wakeUpLoop idle q fuel (wakeTurn idle s t) (s.queueNext t) := by
  obtain ⟨n, p, hframe⟩ := runAppend_frame idle (((s.setQueuePrev t 0).setQueueNext t 0).setState t .running) t
  have hfirst : (wakeTurn idle s t).first q = s.first q := by
    rw [wakeTurn, wakeUp, hframe]
    rfl
  rw [wakeUpLoop, if_neg ht, ← hfirst]
  rfl

/-- A turn puts the first of the tasks that wait at the end of the run list, and off its queue. -/
theorem wakeTurn_next {rest : List Nat} {t : Nat} (hl : RunList idle s l) (hnd : (idle :: (l ++ t :: rest)).Nodup)
    (h0 : 0 ∉ idle :: (l ++ t :: rest)) : t ≠ 0 ∧ RunList idle (wakeTurn idle s t) (l ++ [t]) ∧ ∃ n p, wakeTurn idle s t =
      { s with
        runNext := n
        runPrev := p
        state := Function.update s.state t .running
        queueNext := Function.update s.queueNext t 0
        queuePrev := Function.update s.queuePrev t 0 } := by
  have hperm : (idle :: (l ++ t :: rest)).Perm (t :: idle :: (l ++ rest)) :=
    (List.Perm.cons idle List.perm_middle).trans (List.Perm.swap _ _ _)
  obtain ⟨htl, hndl⟩ := List.nodup_cons.1 (hperm.nodup_iff.1 hnd)
  have hsub : (idle :: l).Sublist (idle :: (l ++ rest)) := (List.sublist_append_left l rest).cons_cons idle
  exact ⟨fun he => h0 (by simp [he]), wakeTurn_spec hl (hndl.sublist hsub)
    (fun hm => h0 (hperm.symm.subset (List.mem_cons_of_mem _ (hsub.subset hm)))) fun hm => htl (hsub.subset hm)⟩

/-- After the first of them the others still wait. -/
theorem Waiting.tail {q t u : Nat} {rest : List Nat} (h : Waiting s q (t :: u :: rest)) : Waiting s q (u :: rest) :=
  ⟨(List.isChain_cons_cons.1 h.1).2, fun v hv => h.2 v (by rw [List.getLast?_cons_cons]; exact hv)⟩

/-- They wait by their links and the head of the queue. -/
theorem Waiting.congr {q : Nat} {ts : List Nat} (h : Waiting s q ts) {s' : Sched} (hfirst : s'.first q = s.first q)
    (hkeep : ∀ v ∈ ts, s'.queueNext v = s.queueNext v) : Waiting s' q ts := by
  refine ⟨h.1.imp_of_mem_imp fun a b ha _ hab => (hkeep a ha).trans hab, fun v hv => ?_⟩
  rw [hkeep v (List.mem_of_getLast? hv), hfirst]
  exact h.2 v hv

/-- The loop of `wake_up_queue` puts the tasks it meets on the run list, in order, marks them running and clears their queue
links; it touches no other task. -/
theorem wakeUpLoop_spec {q : Nat} (rest : List Nat) :
    ∀ {s : Sched} {l : List Nat} {t : Nat}, RunList idle s l → (idle :: (l ++ t :: rest)).Nodup → 0 ∉ idle :: (l ++ t :: rest) →
      Waiting s q (t :: rest) → s.first q ∉ rest →
      ∃ s', (∀ fuel, rest.length + 1 < fuel → wakeUpLoop idle q fuel s t = .ok s') ∧ RunList idle s' (l ++ t :: rest) ∧
        (∀ u ∈ t :: rest, s'.state u = .running ∧ s'.queueNext u = 0 ∧ s'.queuePrev u = 0) ∧
        (∀ u, u ∉ t :: rest → s'.state u = s.state u ∧ s'.queueNext u = s.queueNext u ∧ s'.queuePrev u = s.queuePrev u) ∧
        s'.queue = s.queue ∧ s'.first = s.first ∧ s'.current = s.current := by
  -- the invariant of the loop: the tasks met so far are on the run list, the others still wait
  induction rest with
  | nil =>
    intro s l t hl hnd h0 hw hf
    obtain ⟨ht0, hrun, n, p, hturn⟩ := wakeTurn_next hl hnd h0
    have hnext : s.queueNext t = 0 ∨ s.queueNext t = s.first q := hw.2 t rfl
    refine ⟨wakeTurn idle s t, fun fuel hfuel => ?_, hrun, ?_, ?_, ?_⟩
    · obtain ⟨fuel, rfl⟩ := Nat.exists_eq_add_of_le' hfuel
      rw [List.length_nil, Nat.zero_add, wakeUpLoop_succ ht0]
      split
      · rfl
      · rename_i hne
        rw [hnext.resolve_right hne, wakeUpLoop, if_pos rfl]
    · intro u hu
      rw [List.mem_singleton] at hu
      subst hu
      rw [hturn]
      exact ⟨Function.update_self _ _ _, Function.update_self _ _ _, Function.update_self _ _ _⟩
    · intro u hu
      rw [List.mem_singleton] at hu
      rw [hturn]
      exact ⟨Function.update_of_ne hu _ _, Function.update_of_ne hu _ _, Function.update_of_ne hu _ _⟩
    · rw [hturn]
      exact ⟨rfl, rfl, rfl⟩
  | cons u rest ih =>
    intro s l t hl hnd h0 hw hf
    obtain ⟨ht0, hrun, n, p, hturn⟩ := wakeTurn_next hl hnd h0
    have hassoc : l ++ t :: u :: rest = l ++ [t] ++ u :: rest := by simp
    have hnext : s.queueNext t = u := (List.isChain_cons_cons.1 hw.1).1
    have htrest : t ∉ u :: rest := by
      rw [List.nodup_cons, List.nodup_append] at hnd
      exact (List.nodup_cons.1 hnd.2.2.1).1
    have hfirst : (wakeTurn idle s t).first q = s.first q := by rw [hturn]
    have hwait : Waiting (wakeTurn idle s t) q (u :: rest) := by
      refine hw.tail.congr hfirst fun v hv => ?_
      rw [hturn]
      exact Function.update_of_ne (ne_of_mem_of_not_mem hv htrest) _ _
    rw [hassoc] at hnd h0 ⊢
    obtain ⟨s', hres, hrun', hin, hout, hq', hf', hc'⟩ := ih hrun hnd h0 hwait
      (fun hm => hf (List.mem_cons_of_mem _ (hfirst ▸ hm)))
    refine ⟨s', fun fuel hfuel => ?_, hrun', ?_, fun v hv => ?_, ?_⟩
    · obtain ⟨fuel, rfl⟩ := Nat.exists_eq_add_of_le' (Nat.lt_of_le_of_lt (Nat.zero_le _) hfuel)
      have hne : u ≠ s.first q := fun he => hf (he ▸ List.mem_cons_self)
      rw [wakeUpLoop_succ ht0, hnext, if_neg hne]
      exact hres fuel (by simpa using hfuel)
    · refine List.forall_mem_cons.2 ⟨?_, hin⟩
      obtain ⟨h1, h2, h3⟩ := hout t htrest
      rw [h1, h2, h3, hturn]
      exact ⟨Function.update_self _ _ _, Function.update_self _ _ _, Function.update_self _ _ _⟩
    · rw [List.mem_cons, not_or] at hv
      obtain ⟨hvt, hv'⟩ := hv
      obtain ⟨h1, h2, h3⟩ := hout v hv'
      rw [h1, h2, h3, hturn]
      exact ⟨Function.update_of_ne hvt _ _, Function.update_of_ne hvt _ _, Function.update_of_ne hvt _ _⟩
    · rw [hq', hf', hc', hturn]
      exact ⟨rfl, rfl, rfl⟩

/-- The loop of `wake_up_queue` writes run links, states and queue links only. -/
theorem wakeUpLoop_frame {q : Nat} (fuel : Nat) : ∀ {s : Sched} {t : Nat}, wakeUpLoop idle q fuel s t = .ok s' →
    ∃ n p st qn qp, s' = { s with runNext := n, runPrev := p, state := st, queueNext := qn, queuePrev := qp } := by
  induction fuel with
  | zero =>
    intro s t hs'
    cases hs'
  | succ fuel ih =>
    intro s t hs'
    by_cases ht : t = 0
    · rw [wakeUpLoop, if_pos ht, ok.injEq] at hs'
      exact ⟨_, _, _, _, _, hs'.symm⟩
    · obtain ⟨n, p, hframe⟩ := runAppend_frame idle (((s.setQueuePrev t 0).setQueueNext t 0).setState t .running) t
      have hturn : ∃ n p st qn qp,
          wakeTurn idle s t = { s with runNext := n, runPrev := p, state := st, queueNext := qn, queuePrev := qp } := by
        rw [wakeTurn, wakeUp, hframe]
        simp only [setQueueNext, setQueuePrev, setState]
        exact ⟨_, _, _, _, _, rfl⟩
      obtain ⟨n₁, p₁, st₁, qn₁, qp₁, hturn⟩ := hturn
      rw [wakeUpLoop_succ ht] at hs'
      split at hs'
      · rw [ok.injEq] at hs'
        exact ⟨_, _, _, _, _, hs'.symm.trans hturn⟩
      · obtain ⟨n₂, p₂, st₂, qn₂, qp₂, hrest⟩ := ih hs'
        rw [hturn] at hrest
        exact ⟨_, _, _, _, _, hrest⟩

/-- `wake_up_queue` writes run links, states, queue links and the first pointer only. -/
theorem wakeUpQueue_frame {q : Nat} (hs' : Comes (fun fuel => wakeUpQueue fuel idle s q) (.ok s')) :
    ∃ n p st qn qp f,
      s' = { s with runNext := n, runPrev := p, state := st, queueNext := qn, queuePrev := qp, first := f } := by
  obtain ⟨fuel, -, hfuel⟩ := hs'.exists_ge 0
  obtain ⟨s₁, h₁, he⟩ := bind_eq_ok hfuel
  obtain ⟨n, p, st, qn, qp, rfl⟩ := wakeUpLoop_frame fuel h₁
  rw [ok.injEq] at he
  exact ⟨_, _, _, _, _, _, he.symm⟩

/-- To wake an empty queue leaves the tasks as they are. -/
theorem wakeUpQueue_empty (idle q : Nat) {s : Sched} (h : s.first q = 0) :
    Comes (fun fuel => wakeUpQueue fuel idle s q) (.ok (s.setFirst q 0)) := by
  refine ⟨1, fun fuel hfuel => ?_⟩
  obtain ⟨fuel, rfl⟩ := Nat.exists_eq_add_of_le' hfuel
  dsimp only
  rw [wakeUpQueue, wakeUpLoop, if_pos h, bind_ok]

/-! ## The list of all tasks -/

/-- The list of all tasks holds the tasks of `l` in order: no links at all, or a ring through `idle_task`. -/
def TaskList (idle : Nat) (s : Sched) (l : List Nat) : Prop :=
  (l = [] ∧ s.taskNext idle = 0 ∧ s.taskPrev idle = 0) ∨ Ring s.taskNext s.taskPrev idle l

/-- The list of all tasks depends on its own links only. -/
theorem TaskList.congr (h : TaskList idle s l) (hn : ∀ t ∈ idle :: l, s'.taskNext t = s.taskNext t)
    (hp : ∀ t ∈ idle :: l, s'.taskPrev t = s.taskPrev t) : TaskList idle s' l := by
  rcases h with ⟨rfl, h1, h2⟩ | h
  · exact Or.inl ⟨rfl, by rw [hn idle (by simp), h1], by rw [hp idle (by simp), h2]⟩
  · exact Or.inr (h.congr hn hp)

/-- A task put on the list of all tasks becomes its last. -/
theorem TaskList.append (h : TaskList idle s l) (hnd : (idle :: l).Nodup) (h0 : 0 ∉ idle :: l) {t : Nat} (ht : t ∉ idle :: l) :
    TaskList idle (taskAppend idle s t) (l ++ [t]) := by
  have hti : t ≠ idle := fun he => ht (he ▸ List.mem_cons_self)
  unfold taskAppend
  rcases h with ⟨rfl, h1, -⟩ | h
  · rw [if_pos h1]
    simp only [setTaskNext, setTaskPrev]
    exact Or.inr (ring_pair hti)
  · have hne : s.taskNext idle ≠ 0 := fun he => h0 (he ▸ h.next_mem List.mem_cons_self)
    rw [if_neg hne]
    simp only [setTaskNext, setTaskPrev]
    exact Or.inr (h.append hnd ht)

/-- A new task becomes the last of all tasks. -/
theorem TaskList.createProcess (h : TaskList idle s l) (hnd : (idle :: l).Nodup) (h0 : 0 ∉ idle :: l) {t : Nat}
    (ht : t ∉ idle :: l) (newStack pid name stack : Nat) :
    TaskList idle (BootPerl.createProcess idle s newStack t pid name stack) (l ++ [t]) := by
  unfold BootPerl.createProcess
  extract_lets regs esp s₁
  have h₁ : TaskList idle s₁ l := h.congr (fun u hu => Function.update_of_ne (ne_of_mem_of_not_mem hu ht) _ _)
    fun u hu => Function.update_of_ne (ne_of_mem_of_not_mem hu ht) _ _
  obtain ⟨n, p, hrun⟩ := runAppend_frame idle (taskAppend idle s₁ t) t
  rw [hrun]
  exact (h₁.append hnd h0 ht).congr (fun _ _ => rfl) fun _ _ => rfl

/-- `schedule` leaves the list of all tasks alone. -/
theorem TaskList.schedule (h : TaskList idle s l) : TaskList idle (BootPerl.schedule idle s) l := by
  obtain ⟨n, p, r, ts, c, hframe⟩ := schedule_frame idle s
  rw [hframe]
  exact h

/-- `block` leaves the list of all tasks alone. -/
theorem TaskList.block (h : TaskList idle s l) (q : Nat) : TaskList idle (BootPerl.block idle s q) l := by
  obtain ⟨f, n, p, hframe⟩ := doBlock_frame s q
  have h' : TaskList idle (doBlock s q) l := by
    rw [hframe]
    exact h
  exact h'.schedule

/-- `wake_up_queue` leaves the list of all tasks alone. -/
theorem TaskList.wakeUpQueue (h : TaskList idle s l) {q : Nat}
    (hs' : Comes (fun fuel => BootPerl.wakeUpQueue fuel idle s q) (.ok s')) :
    TaskList idle s' l := by
  obtain ⟨n, p, st, qn, qp, f, rfl⟩ := wakeUpQueue_frame hs'
  exact h

/-- `show_tasks` from a task on prints it and the tasks after it, up to `idle_task`. -/
theorem showTasksLoop_spec {post : List Nat} (hidle : idle ∉ post) :
    ∀ {t : Nat}, List.IsChain (Link s.taskNext s.taskPrev) (t :: (post ++ [idle])) →
      ∀ fuel, post.length < fuel → showTasksLoop idle s fuel t = .ok ((t :: post).map (taskLine s)) := by
  induction post with
  | nil =>
    intro t h fuel hfuel
    obtain ⟨fuel, rfl⟩ := Nat.exists_eq_add_of_le' hfuel
    have hnext : s.taskNext t = idle := (List.isChain_cons_cons.1 h).1.1
    simp only [List.length_nil, showTasksLoop, hnext, ne_eq, not_true_eq_false, if_false, List.map_cons, List.map_nil]
  | cons u post ih =>
    intro t h fuel hfuel
    obtain ⟨fuel, rfl⟩ := Nat.exists_eq_add_of_le' (Nat.lt_of_le_of_lt (Nat.zero_le _) hfuel)
    obtain ⟨hlink, hrest⟩ := List.isChain_cons_cons.1 h
    have hnext : s.taskNext t = u := hlink.1
    have hui : u ≠ idle := fun he => hidle (he ▸ List.mem_cons_self)
    have hloop := ih (fun hm => hidle (List.mem_cons_of_mem _ hm)) hrest fuel (by simpa using hfuel)
    simp only [showTasksLoop, hnext, ne_eq, hui, not_false_eq_true, if_true, hloop, bind_ok, List.map_cons]

/-- Where the list of all tasks is a ring, `show_tasks` ends and prints `idle_task` and the tasks of the list. -/
theorem showTasks_ring (h : Ring s.taskNext s.taskPrev idle l) (hidle : idle ∉ l) :
    Comes (fun fuel => showTasks fuel idle s) (.ok ((idle :: l).map (taskLine s))) :=
  ⟨l.length + 1, fun fuel hfuel => showTasksLoop_spec hidle h fuel hfuel⟩

end

end BootPerl
