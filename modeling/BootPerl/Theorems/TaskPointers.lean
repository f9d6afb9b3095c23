import BootPerl.Theorems.RunRing

/-!
# The pointers between tasks, over whole runs

Before the first `create_process` the links of `idle_task` are null, and both `schedule` and `show_tasks` read through them.
From the first one on, in every state reached, both read fields of tasks only, and `show_tasks` prints every task once.
-/

namespace BootPerl

open Sched Outcome

/-- `schedule` reads and writes fields of `idle_task` and of created tasks only, also at the end of a `block`, and `show_tasks`
ends after a line of `idle_task` and one of each created task, in the order of creation. -/
structure TaskPointersValid (idle : Nat) (s : TaskState) : Prop where
  schedule : ∀ t ∈ scheduleAccesses idle s.sched, t ∈ idle :: s.tasks
  block : s.sched.current ≠ idle → ∀ q, ∀ t ∈ scheduleAccesses idle (doBlock s.sched q), t ∈ idle :: s.tasks
  nodup : (idle :: s.tasks.reverse).Nodup
  showTasks : Comes (fun fuel => BootPerl.showTasks fuel idle s.sched) (.ok ((idle :: s.tasks.reverse).map (taskLine s.sched)))

/-- The run list and the wait queues are sound, all tasks are listed, and the run list is linked once there is a task. -/
structure TaskInv (idle : Nat) (s : TaskState) (l : List Nat) (w : Nat → List Nat) : Prop where
  sched : SchedInv idle s.sched s.tasks l w
  nodup : s.tasks.Nodup
  all : TaskList idle s.sched s.tasks.reverse
  linked : s.sched.runNext idle = 0 ↔ s.tasks = []

section
variable {idle : Nat} {s s' : TaskState} {l : List Nat} {w : Nat → List Nat}

/-! ## When the run list is linked -/

/-- A run list that is not empty is linked. -/
theorem SchedInv.runNext_ne_zero {sched : Sched} {tasks : List Nat} (h : SchedInv idle sched tasks l w) (h0 : idle ≠ 0)
    (hl : l ≠ []) : sched.runNext idle ≠ 0 := by
  rcases h.run with ⟨hnil, -⟩ | hring
  · exact absurd hnil hl
  · exact fun he => h.ring_ne_zero h0 (he ▸ hring.next_mem List.mem_cons_self)

/-- A run list that is linked is a ring. -/
theorem TaskInv.ring (h : TaskInv idle s l w) (hne : s.tasks ≠ []) : Ring s.sched.runNext s.sched.runPrev idle l := by
  rcases h.sched.run with ⟨-, hnull, -⟩ | hring
  · exact absurd (h.linked.1 hnull) hne
  · exact hring

/-- `schedule` of a running task leaves the links forward alone. -/
theorem schedule_runNext {sched : Sched} (h : sched.state sched.current = .running) :
    (BootPerl.schedule idle sched).runNext = sched.runNext := by
  rw [BootPerl.schedule, retire, if_neg (fun hne => hne h)]
  rfl

/-- `schedule` of a task other than `idle_task` leaves a ring linked. -/
theorem schedule_runNext_ne_zero {sched : Sched} (h : Ring sched.runNext sched.runPrev idle l) (h0 : 0 ∉ idle :: l)
    (hc : sched.current ∈ l) (hci : sched.current ≠ idle) : (BootPerl.schedule idle sched).runNext idle ≠ 0 := by
  have hne : ∀ t ∈ idle :: l, sched.runNext t ≠ 0 := fun t ht he => h0 (he ▸ h.next_mem ht)
  rw [BootPerl.schedule, retire]
  dsimp only
  split
  · simp only [setRunNext, setRunPrev]
    rw [Function.update_of_ne hci.symm, Function.update_apply]
    split
    · exact hne _ (List.mem_cons_of_mem _ hc)
    · exact hne _ List.mem_cons_self
  · exact hne _ List.mem_cons_self

/-! ## The invariant -/

theorem TaskInv.boot {sched : Sched} (h : SchedBoot idle sched) : TaskInv idle ⟨sched, []⟩ [] fun _ => [] :=
  ⟨SchedInv.boot h, List.nodup_nil, Or.inl ⟨rfl, h.taskNext, h.taskPrev⟩, fun _ => rfl, fun _ => h.runNext⟩

/-- The ring of all tasks: they and `idle_task` are different, and none is null. -/
theorem TaskInv.all_nodup (h : TaskInv idle s l w) : (idle :: s.tasks.reverse).Nodup :=
  List.nodup_cons.2 ⟨fun hm => (h.sched.created idle (List.mem_reverse.1 hm)).2 rfl, List.nodup_reverse.2 h.nodup⟩

theorem TaskInv.all_ne_zero (h : TaskInv idle s l w) (h0 : idle ≠ 0) : 0 ∉ idle :: s.tasks.reverse := by
  intro hm
  rcases List.mem_cons.1 hm with he | hm
  · exact h0 he.symm
  · exact (h.sched.created 0 (List.mem_reverse.1 hm)).1 rfl

/-- A call keeps the invariant. -/
theorem TaskInv.step (h0 : idle ≠ 0) (h : TaskInv idle s l w) (hstep : TaskStep idle s s') : ∃ l' w', TaskInv idle s' l' w' := by
  cases hstep with
  | @create newStack t pid name stack garbage ht0 hti ht =>
    have hsched := (h.sched.setNeedResched t garbage).create h0 ht0 hti ht newStack pid name stack
    have hall : TaskList idle (s.sched.setNeedResched t garbage) s.tasks.reverse := h.all
    have hout : t ∉ idle :: s.tasks.reverse := by
      rw [List.mem_cons, List.mem_reverse]
      exact not_or.2 ⟨hti, ht⟩
    refine ⟨_, w, hsched, List.nodup_cons.2 ⟨ht, h.nodup⟩, ?_, ?_⟩
    · rw [List.reverse_cons]
      exact hall.createProcess h.all_nodup (h.all_ne_zero h0) hout newStack pid name stack
    · have hlinked := hsched.runNext_ne_zero h0 (List.append_ne_nil_of_right_ne_nil l (List.cons_ne_nil t []))
      exact ⟨fun hz => absurd hz hlinked, fun hnil => absurd hnil (List.cons_ne_nil t s.tasks)⟩
  | schedule =>
    refine ⟨l, w, h.sched.schedule, h.nodup, h.all.schedule, ?_⟩
    rw [schedule_runNext h.sched.current_running]
    exact h.linked
  | @block q hc =>
    obtain ⟨l', hsched⟩ := h.sched.block q hc
    refine ⟨l', _, hsched, h.nodup, h.all.block q, ?_⟩
    have hcl : s.sched.current ∈ l := (List.mem_cons.1 h.sched.current).resolve_left hc
    have hne : s.tasks ≠ [] := List.ne_nil_of_mem ((h.sched.running _).1 hcl).1
    obtain ⟨f, n, p, hframe⟩ := doBlock_frame s.sched q
    have hlinked : (BootPerl.block idle s.sched q).runNext idle ≠ 0 := by
      have hring := h.ring hne
      rw [BootPerl.block, hframe]
      exact schedule_runNext_ne_zero hring (h.sched.ring_ne_zero h0) hcl hc
    exact ⟨fun hz => absurd hz hlinked, fun hnil => absurd hnil hne⟩
  | @wakeUpQueue q sched hcomes =>
    have hsched := h.sched.of_wakeUpQueue h0 hcomes
    refine ⟨_, _, hsched, h.nodup, h.all.wakeUpQueue hcomes, ?_⟩
    by_cases hw : w q = []
    · have hfirst : WaitList s.sched q [] := hw ▸ h.sched.wait q
      cases hcomes.unique (wakeUpQueue_empty idle q hfirst)
      exact h.linked
    · have hlinked := hsched.runNext_ne_zero h0 (List.append_ne_nil_of_right_ne_nil l hw)
      obtain ⟨t, ht⟩ := List.exists_mem_of_ne_nil _ hw
      exact ⟨fun hz => absurd hz hlinked, fun hnil => absurd hnil (List.ne_nil_of_mem ((h.sched.waiting q t).1 ht).1)⟩

/-! ## What is read -/

/-- Where the run list is a ring of tasks and a task is chosen, `schedule` reads and writes fields of tasks only. -/
theorem scheduleAccesses_ring {sched : Sched} {tasks : List Nat} (h : Ring sched.runNext sched.runPrev idle l)
    (hl : ∀ t ∈ l, t ∈ tasks) (hc : sched.current ∈ idle :: l) (hchosen : (BootPerl.schedule idle sched).current ∈ idle :: tasks) :
    ∀ t ∈ scheduleAccesses idle sched, t ∈ idle :: tasks := by
  have hsub : ∀ t ∈ idle :: l, t ∈ idle :: tasks := List.cons_subset_cons idle hl
  have hnext : sched.runNext sched.current ∈ idle :: tasks := hsub _ (h.next_mem hc)
  have hunlink : ∀ v, (sched.setRunNext v (sched.runNext sched.current)).runNext sched.current = sched.runNext sched.current := by
    intro v
    simp only [setRunNext, Function.update_apply, ite_self]
  intro t ht
  simp only [scheduleAccesses, hunlink, List.mem_append, List.mem_cons, List.mem_ite_nil_right, List.not_mem_nil, or_false] at ht
  rcases ht with ((rfl | ⟨-, rfl | rfl⟩) | rfl | ⟨-, rfl⟩) | rfl | rfl
  · exact hsub _ hc
  · exact hsub _ (h.prev_mem hc)
  · exact hnext
  · exact hnext
  · exact List.mem_cons_self
  · exact hchosen
  · exact hsub _ hc

/-- With a task, both read fields of tasks only and `show_tasks` prints every task. -/
theorem TaskInv.valid (h : TaskInv idle s l w) (hne : s.tasks ≠ []) : TaskPointersValid idle s := by
  have hl : ∀ t ∈ l, t ∈ s.tasks := fun t ht => ((h.sched.running t).1 ht).1
  have hsub : ∀ {k : List Nat} {sched : Sched} {v : Nat → List Nat}, SchedInv idle sched s.tasks k v →
      sched.current ∈ idle :: s.tasks := fun hk =>
    List.mem_cons.2 ((List.mem_cons.1 hk.current).imp id fun hm => ((hk.running _).1 hm).1)
  refine ⟨scheduleAccesses_ring (h.ring hne) hl h.sched.current (hsub h.sched.schedule), fun hc q => ?_, h.all_nodup, ?_⟩
  · obtain ⟨l', hsched⟩ := h.sched.block q hc
    have hchosen : (BootPerl.schedule idle (doBlock s.sched q)).current ∈ idle :: s.tasks := hsub hsched
    obtain ⟨f, n, p, hframe⟩ := doBlock_frame s.sched q
    have hring := h.ring hne
    have hcur := h.sched.current
    rw [hframe] at hchosen ⊢
    exact scheduleAccesses_ring hring hl hcur hchosen
  · rcases h.all with ⟨hnil, -⟩ | hring
    · exact absurd (List.reverse_eq_nil_iff.1 hnil) hne
    · exact showTasks_ring hring (List.nodup_cons.1 h.all_nodup).1

/-- With no task, `schedule` reads through null. -/
theorem TaskInv.not_valid (h : TaskInv idle s l w) (h0 : idle ≠ 0) (hnil : s.tasks = []) : ¬TaskPointersValid idle s := by
  intro hvalid
  have hidle : s.sched.current = idle := by
    refine (List.mem_cons.1 h.sched.current).resolve_right fun hm => ?_
    exact List.not_mem_nil (hnil ▸ ((h.sched.running _).1 hm).1)
  have hnull : 0 ∈ scheduleAccesses idle s.sched := by
    simp [scheduleAccesses, hidle, h.linked.2 hnil]
  have hmem := hvalid.schedule 0 hnull
  rw [hnil, List.mem_singleton] at hmem
  exact h0 hmem.symm

end

/-- In every state reached the pointers are valid and the list complete exactly when a task was created. -/
theorem task_pointers_valid_iff (idle : Nat) (h0 : idle ≠ 0) {s : TaskState} (h : Reach (TaskInit idle) (TaskStep idle) s) :
    TaskPointersValid idle s ↔ s.tasks ≠ [] := by
  obtain ⟨l, w, hinv⟩ := h.invariant (I := fun s => ∃ l w, TaskInv idle s l w)
    (by
      rintro ⟨sched, tasks⟩ ⟨hboot, htasks⟩
      dsimp only at hboot htasks
      subst htasks
      exact ⟨_, _, TaskInv.boot hboot⟩)
    (by
      rintro s s' ⟨l, w, hs⟩ hstep
      exact hs.step h0 hstep)
  exact ⟨fun hvalid hnil => hinv.not_valid h0 hnil hvalid, hinv.valid⟩

/-- Two tasks, the second created after the first was chosen. -/
def twoTasks : TaskState where
  sched := createProcess 0x1000 ((BootPerl.schedule 0x1000
    (createProcess 0x1000 ((zeroSched 0x1000).setNeedResched 0x2000 0) 0x8000 0x2000 1 0 1024)).setNeedResched 0x3000 1)
    0x9000 0x3000 2 0 1024
  tasks := [0x3000, 0x2000]

/-- The pointers of two tasks are valid. -/
theorem task_pointers_valid_iff_two : TaskPointersValid 0x1000 twoTasks := by
  have hboot : Reach (TaskInit 0x1000) (TaskStep 0x1000) ⟨zeroSched 0x1000, []⟩ := .init (taskInit_zeroSched 0x1000)
  have hfirst := hboot.step (@TaskStep.create 0x1000 _ 0x8000 0x2000 1 0 1024 0 (by decide) (by decide) (by simp))
  have hsecond := (hfirst.step .schedule).step
    (@TaskStep.create 0x1000 _ 0x9000 0x3000 2 0 1024 1 (by decide) (by decide) (by simp))
  exact (task_pointers_valid_iff 0x1000 (by decide) hsecond).2 (List.cons_ne_nil _ _)

/-- At boot `schedule` reads the fields of a task at null, and `show_tasks` goes on from `idle_task` to null. -/
theorem task_pointers_valid_false :
    Reach (TaskInit 0x1000) (TaskStep 0x1000) ⟨zeroSched 0x1000, []⟩ ∧ 0 ∈ scheduleAccesses 0x1000 (zeroSched 0x1000) ∧
      (∀ fuel, showTasks fuel 0x1000 (zeroSched 0x1000) = .running) ∧ ¬TaskPointersValid 0x1000 ⟨zeroSched 0x1000, []⟩ := by
  have hloop : ∀ fuel t, showTasksLoop 0x1000 (zeroSched 0x1000) fuel t = .running := by
    intro fuel
    induction fuel with
    | zero => exact fun _ => rfl
    | succ fuel ih =>
      intro t
      have hnext : (zeroSched 0x1000).taskNext t = 0 := rfl
      rw [showTasksLoop, hnext, ih]
      rfl
  have hnull : 0 ∈ scheduleAccesses 0x1000 (zeroSched 0x1000) := by decide
  refine ⟨.init (taskInit_zeroSched 0x1000), hnull, fun fuel => hloop fuel _, fun hvalid => ?_⟩
  exact absurd (hvalid.schedule 0 hnull) (by decide)

end BootPerl
