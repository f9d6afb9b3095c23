import BootPerl.Lemmas.Tasks
import BootPerl.Lib.Run

/-!
# The run ring and the wait queues, over whole runs

From boot on, over every run of `create_process`, `schedule`, `block` and `wake_up_queue`: the run list is a ring through
`idle_task` (or empty) of exactly the running tasks, and every other task is on exactly one wait queue.
-/

namespace BootPerl

open Sched Outcome

/-- The tasks, and the addresses of those created so far. -/
structure TaskState where
  sched : Sched
  tasks : List Nat

/-- The state at boot: no task but `idle_task`. -/
def TaskInit (idle : Nat) (s : TaskState) : Prop := SchedBoot idle s.sched ∧ s.tasks = []

/-- One call. A new task lies where no task is, in memory that held anything; `block` is called by tasks other than
`idle_task`. -/
inductive TaskStep (idle : Nat) (s : TaskState) : TaskState → Prop where
  | create {newStack t pid name stack garbage : Nat} : t ≠ 0 → t ≠ idle → t ∉ s.tasks →
      TaskStep idle s ⟨createProcess idle (s.sched.setNeedResched t garbage) newStack t pid name stack, t :: s.tasks⟩
  | schedule : TaskStep idle s ⟨BootPerl.schedule idle s.sched, s.tasks⟩
  | block {q : Nat} : s.sched.current ≠ idle → TaskStep idle s ⟨BootPerl.block idle s.sched q, s.tasks⟩
  | wakeUpQueue {q : Nat} {s' : Sched} : Comes (fun fuel => BootPerl.wakeUpQueue fuel idle s.sched q) (.ok s') →
      TaskStep idle s ⟨s', s.tasks⟩

/-- The run list holds the running tasks in some order, each wait queue those that wait on it. -/
structure SchedInv (idle : Nat) (s : Sched) (tasks l : List Nat) (w : Nat → List Nat) : Prop where
  idleRunning : s.state idle = .running
  created : ∀ t ∈ tasks, t ≠ 0 ∧ t ≠ idle
  run : RunList idle s l
  nodup : l.Nodup
  current : s.current ∈ idle :: l
  running : ∀ t, t ∈ l ↔ t ∈ tasks ∧ s.state t = .running
  wait : ∀ q, WaitList s q (w q)
  waitNodup : ∀ q, (w q).Nodup
  waiting : ∀ q t, t ∈ w q ↔ t ∈ tasks ∧ s.state t ≠ .running ∧ s.queue t = q
  lone : ∀ t ∈ l, s.queueNext t = 0 ∧ s.queuePrev t = 0

namespace SchedInv
variable {idle : Nat} {s : Sched} {tasks l : List Nat} {w : Nat → List Nat}

theorem ring_nodup (h : SchedInv idle s tasks l w) : (idle :: l).Nodup :=
  List.nodup_cons.2 ⟨fun hm => (h.created idle ((h.running idle).1 hm).1).2 rfl, h.nodup⟩

theorem ring_ne_zero (h : SchedInv idle s tasks l w) (h0 : idle ≠ 0) : 0 ∉ idle :: l := by
  intro hm
  rcases List.mem_cons.1 hm with he | hm
  · exact h0 he.symm
  · exact (h.created 0 ((h.running 0).1 hm).1).1 rfl

theorem boot (h : SchedBoot idle s) : SchedInv idle s [] [] fun _ => [] := by
  refine ⟨h.state, by simp, Or.inl ⟨rfl, h.runNext, h.runPrev⟩, List.nodup_nil, ?_, by simp, h.first, fun _ => List.nodup_nil,
    by simp, by simp⟩
  rw [h.current]
  exact List.mem_singleton_self idle

/-- Before any task is created the lists are empty. -/
theorem start (h : SchedBoot idle s) (htasks : tasks = []) : SchedInv idle s tasks [] fun _ => [] := by
  rw [htasks]
  exact boot h

theorem create (h : SchedInv idle s tasks l w) (h0 : idle ≠ 0) {t : Nat} (ht0 : t ≠ 0) (hti : t ≠ idle) (ht : t ∉ tasks)
    (newStack pid name stack : Nat) :
    SchedInv idle (createProcess idle s newStack t pid name stack) (t :: tasks) (l ++ [t]) w := by
  have htl : t ∉ l := fun hm => ht ((h.running t).1 hm).1
  have htw : ∀ q, t ∉ w q := fun q hm => ht ((h.waiting q t).1 hm).1
  have htr : t ∉ idle :: l := fun hm => (List.mem_cons.1 hm).elim hti htl
  obtain ⟨hrun, hstate, hqueue, hqn, hqp, hfirst, hcur⟩ :=
    createProcess_spec h.run h.ring_nodup (h.ring_ne_zero h0) htr newStack pid name stack
  refine ⟨?_, List.forall_mem_cons.2 ⟨⟨ht0, hti⟩, h.created⟩, hrun, ?_, ?_, fun u => ?_, fun q => ?_, h.waitNodup, fun q u => ?_,
    fun u hu => ?_⟩
  · rw [hstate, Function.update_of_ne hti.symm, h.idleRunning]
  · exact List.nodup_append.2 ⟨h.nodup, List.nodup_singleton t, fun a ha b hb => by
      rw [List.mem_singleton] at hb
      exact hb ▸ ne_of_mem_of_not_mem ha htl⟩
  · rw [hcur, ← List.cons_append]
    exact List.mem_append_left _ h.current
  · rw [hstate, List.mem_append, List.mem_singleton, List.mem_cons]
    by_cases hut : u = t
    · subst hut
      simp
    · simp [hut, h.running u]
  · refine (h.wait q).congr (by rw [hfirst]) (fun u hu => ?_) fun u hu => ?_
    · rw [hqn, Function.update_of_ne (ne_of_mem_of_not_mem hu (htw q))]
    · rw [hqp, Function.update_of_ne (ne_of_mem_of_not_mem hu (htw q))]
  · rw [hstate, hqueue, List.mem_cons]
    by_cases hut : u = t
    · subst hut
      simp [htw q]
    · simp [hut, h.waiting q u]
  · rw [hqn, hqp]
    rcases List.mem_append.1 hu with hu | hu
    · have hut := ne_of_mem_of_not_mem hu htl
      rw [Function.update_of_ne hut, Function.update_of_ne hut]
      exact h.lone u hu
    · rw [List.mem_singleton] at hu
      subst hu
      rw [Function.update_self, Function.update_self]
      exact ⟨rfl, rfl⟩

/-- The counters of the tasks and their requests play no part. -/
theorem counters (h : SchedInv idle s tasks l w) (time timeslice needResched : Nat → Nat) :
    SchedInv idle { s with time := time, timeslice := timeslice, needResched := needResched } tasks l w :=
  ⟨h.idleRunning, h.created, h.run.congr (fun _ _ => rfl) fun _ _ => rfl, h.nodup, h.current, h.running,
    fun q => (h.wait q).congr rfl (fun _ _ => rfl) fun _ _ => rfl, h.waitNodup, h.waiting, h.lone⟩

/-- The memory of a task that is created holds anything where `need_resched` lies. -/
theorem setNeedResched (h : SchedInv idle s tasks l w) (t v : Nat) : SchedInv idle (s.setNeedResched t v) tasks l w :=
  h.counters s.time s.timeslice _

/-- Between calls the current task runs. -/
theorem current_running (h : SchedInv idle s tasks l w) : s.state s.current = .running := by
  rcases List.mem_cons.1 h.current with hc | hc
  · rw [hc]
    exact h.idleRunning
  · exact ((h.running _).1 hc).2

theorem schedule (h : SchedInv idle s tasks l w) : SchedInv idle (BootPerl.schedule idle s) tasks l w := by
  obtain ⟨hrun, hcur⟩ := schedule_running h.run h.current h.current_running
  obtain ⟨n, p, r, ts, c, hframe⟩ := schedule_frame idle s
  rw [hframe] at hrun hcur ⊢
  exact ⟨h.idleRunning, h.created, hrun, h.nodup, hcur, h.running, fun q => (h.wait q).congr rfl (fun _ _ => rfl) fun _ _ => rfl,
    h.waitNodup, h.waiting, h.lone⟩

/-- The current task lies on the ring, unless it is `idle_task`. -/
theorem exists_ring (h : SchedInv idle s tasks l w) (hc : s.current ≠ idle) :
    ∃ pre post, l = pre ++ s.current :: post ∧ Ring s.runNext s.runPrev idle (pre ++ s.current :: post) := by
  have hcl : s.current ∈ l := (List.mem_cons.1 h.current).resolve_left hc
  obtain ⟨pre, post, hl⟩ := List.append_of_mem hcl
  refine ⟨pre, post, hl, ?_⟩
  rcases h.run with ⟨hnil, -⟩ | hring
  · rw [hnil] at hcl
    exact absurd hcl List.not_mem_nil
  · rwa [hl] at hring

/-- Nobody runs and waits. -/
theorem current_not_mem_wait (h : SchedInv idle s tasks l w) (q : Nat) : s.current ∉ w q := fun hm =>
  ((h.waiting q _).1 hm).2.1 h.current_running

theorem wait_ne_zero (h : SchedInv idle s tasks l w) (q : Nat) : ∀ u ∈ w q, u ≠ 0 := fun u hu =>
  (h.created u ((h.waiting q u).1 hu).1).1

/-- The links of a task that neither waits on the queue nor runs are left by `do_block`. -/
theorem doBlock_links (h : SchedInv idle s tasks l w) {q u : Nat} (hu : u ∉ w q) (huc : u ≠ s.current) :
    (doBlock s q).queueNext u = s.queueNext u ∧ (doBlock s q).queuePrev u = s.queuePrev u :=
  (h.wait q).doBlock_links (h.wait_ne_zero q) hu huc

/-- `do_block` puts the current task at the end of the queue, and leaves the other queues. -/
theorem doBlock_wait (h : SchedInv idle s tasks l w) (q : Nat) (hc : s.current ≠ idle) (q' : Nat) :
    WaitList (doBlock s q) q' (Function.update w q (w q ++ [s.current]) q') := by
  have hcw := h.current_not_mem_wait
  by_cases hqq : q' = q
  · rw [hqq, Function.update_self]
    exact (h.wait q).doBlock (h.waitNodup q) (h.wait_ne_zero q) (hcw q) (h.lone _ ((List.mem_cons.1 h.current).resolve_left hc))
  · have hout : ∀ u ∈ w q', u ∉ w q ∧ u ≠ s.current := fun u hu =>
      ⟨fun hm => hqq (((h.waiting q' u).1 hu).2.2.symm.trans ((h.waiting q u).1 hm).2.2), ne_of_mem_of_not_mem hu (hcw q')⟩
    rw [Function.update_of_ne hqq]
    exact (h.wait q').congr (doBlock_first s hqq) (fun u hu => (h.doBlock_links (hout u hu).1 (hout u hu).2).1)
      fun u hu => (h.doBlock_links (hout u hu).1 (hout u hu).2).2

theorem block_waitNodup (h : SchedInv idle s tasks l w) (q q' : Nat) :
    (Function.update w q (w q ++ [s.current]) q').Nodup := by
  by_cases hqq : q' = q
  · rw [hqq, Function.update_self]
    refine List.nodup_append.2 ⟨h.waitNodup q, List.nodup_singleton _, fun a ha b hb => ?_⟩
    rw [List.mem_singleton.1 hb]
    exact ne_of_mem_of_not_mem ha (h.current_not_mem_wait q)
  · rw [Function.update_of_ne hqq]
    exact h.waitNodup q'

/-- Who waits, once the current task has blocked. -/
theorem block_waiting (h : SchedInv idle s tasks l w) (q : Nat) (hc : s.current ≠ idle) (q' u : Nat) :
    u ∈ Function.update w q (w q ++ [s.current]) q' ↔
      u ∈ tasks ∧ Function.update s.state s.current .interruptable u ≠ .running ∧
        Function.update s.queue s.current q u = q' := by
  have hcl : s.current ∈ l := (List.mem_cons.1 h.current).resolve_left hc
  by_cases huc : u = s.current
  · rw [huc, Function.update_self, Function.update_self]
    by_cases hqq : q' = q
    · rw [hqq, Function.update_self]
      simp [((h.running s.current).1 hcl).1]
    · rw [Function.update_of_ne hqq]
      simp [h.current_not_mem_wait q', Ne.symm hqq]
  · rw [Function.update_of_ne huc, Function.update_of_ne huc, ← h.waiting q' u]
    by_cases hqq : q' = q
    · rw [hqq, Function.update_self, List.mem_append, List.mem_singleton]
      simp [huc]
    · rw [Function.update_of_ne hqq]

/-- `block` moves the current task from the run ring to the tail of the queue. -/
theorem block (h : SchedInv idle s tasks l w) (q : Nat) (hc : s.current ≠ idle) :
    ∃ l', SchedInv idle (BootPerl.block idle s q) tasks l' (Function.update w q (w q ++ [s.current])) := by
  obtain ⟨pre, post, hl, hring⟩ := h.exists_ring hc
  have hnd : (idle :: (pre ++ s.current :: post)).Nodup := hl ▸ h.ring_nodup
  obtain ⟨f, n, p, hframe⟩ := doBlock_frame s q
  -- the run ring after `schedule`
  have hblocked : (doBlock s q).state (doBlock s q).current ≠ .running := by
    rw [hframe]
    simp
  have hcur : (doBlock s q).current = s.current := by rw [hframe]
  have hring' : Ring (doBlock s q).runNext (doBlock s q).runPrev idle (pre ++ (doBlock s q).current :: post) := by
    rw [hframe]
    exact hring
  obtain ⟨hrun, hcurrent⟩ := schedule_blocked hring' (by rw [hcur]; exact hnd) hblocked
  obtain ⟨n', p', r, ts, c, hframe'⟩ := schedule_frame idle (doBlock s q)
  have hstate : (BootPerl.schedule idle (doBlock s q)).state = Function.update s.state s.current .interruptable := by
    rw [hframe', hframe]
  have hqueue : (BootPerl.schedule idle (doBlock s q)).queue = Function.update s.queue s.current q := by
    rw [hframe', hframe]
  have hperm : (pre ++ s.current :: post).Perm (s.current :: (pre ++ post)) := List.perm_middle
  have hout : s.current ∉ pre ++ post := (List.nodup_cons.1 (hperm.nodup_iff.1 hnd.of_cons)).1
  have hmem : ∀ u, u ∈ l ↔ u = s.current ∨ u ∈ pre ++ post := fun u => by rw [hl, hperm.mem_iff, List.mem_cons]
  refine ⟨pre ++ post, ?_⟩
  rw [BootPerl.block]
  refine ⟨?_, h.created, Or.inr hrun, (List.nodup_cons.1 (hperm.nodup_iff.1 hnd.of_cons)).2, hcurrent, fun u => ?_, fun q' => ?_,
    h.block_waitNodup q, fun q' u => ?_, fun u hu => ?_⟩
  · rw [hstate, Function.update_of_ne (Ne.symm hc), h.idleRunning]
  · rw [hstate]
    by_cases huc : u = s.current
    · rw [huc, Function.update_self]
      simp [hout]
    · rw [Function.update_of_ne huc, ← h.running u, hmem]
      simp [huc]
  · rw [hframe']
    exact (h.doBlock_wait q hc q').congr rfl (fun _ _ => rfl) fun _ _ => rfl
  · rw [hstate, hqueue]
    exact h.block_waiting q hc q' u
  · have huc : u ≠ s.current := ne_of_mem_of_not_mem hu hout
    have hul : u ∈ l := (hmem u).2 (Or.inr hu)
    have huw : u ∉ w q := fun hm => ((h.waiting q u).1 hm).2.1 ((h.running u).1 hul).2
    obtain ⟨h1, h2⟩ := h.doBlock_links huw huc
    rw [hframe']
    exact ⟨h1.trans (h.lone u hul).1, h2.trans (h.lone u hul).2⟩

/-- The loop of `wake_up_queue` on a whole queue. -/
theorem wakeUpLoop (h : SchedInv idle s tasks l w) (h0 : idle ≠ 0) (q : Nat) :
    ∃ s', Comes (fun fuel => BootPerl.wakeUpLoop idle q fuel s (s.first q)) (.ok s') ∧ RunList idle s' (l ++ w q) ∧
      (∀ u ∈ w q, s'.state u = .running ∧ s'.queueNext u = 0 ∧ s'.queuePrev u = 0) ∧
      (∀ u, u ∉ w q → s'.state u = s.state u ∧ s'.queueNext u = s.queueNext u ∧ s'.queuePrev u = s.queuePrev u) ∧
      s'.queue = s.queue ∧ s'.first = s.first ∧ s'.current = s.current := by
  have hwait := h.wait q
  cases hwq : w q with
  | nil =>
    rw [hwq] at hwait
    have hfirst : s.first q = 0 := hwait
    refine ⟨s, ⟨1, fun fuel hfuel => ?_⟩, by rw [List.append_nil]; exact h.run, by simp, fun _ _ => ⟨rfl, rfl, rfl⟩, rfl, rfl, rfl⟩
    obtain ⟨fuel, rfl⟩ := Nat.exists_eq_add_of_le' hfuel
    dsimp only
    rw [hfirst, BootPerl.wakeUpLoop, if_pos rfl]
  | cons t rest =>
    have hmem : ∀ u ∈ t :: rest, u ∈ tasks ∧ s.state u ≠ .running := fun u hu => by
      have := (h.waiting q u).1 (hwq ▸ hu)
      exact ⟨this.1, this.2.1⟩
    have hnd : (idle :: (l ++ t :: rest)).Nodup := by
      rw [← List.cons_append]
      refine List.nodup_append.2 ⟨h.ring_nodup, hwq ▸ h.waitNodup q, fun a ha b hb => ?_⟩
      rintro rfl
      rcases List.mem_cons.1 ha with rfl | ha
      · exact (h.created _ (hmem _ hb).1).2 rfl
      · exact (hmem a hb).2 ((h.running a).1 ha).2
    have hz : 0 ∉ idle :: (l ++ t :: rest) := by
      rw [← List.cons_append, List.mem_append, not_or]
      exact ⟨h.ring_ne_zero h0, fun hm => (h.created 0 (hmem 0 hm).1).1 rfl⟩
    rw [hwq] at hwait
    obtain ⟨hwalk, hfirst⟩ := hwait.waiting
    have hnotin : s.first q ∉ rest := by
      rw [hfirst]
      exact (List.nodup_cons.1 (hwq ▸ h.waitNodup q)).1
    obtain ⟨s', hres, hrun, hin, hout, hrest⟩ := wakeUpLoop_spec rest h.run hnd hz hwalk hnotin
    exact ⟨s', ⟨rest.length + 2, fun fuel hfuel => by rw [hfirst]; exact hres fuel hfuel⟩, hrun, hin, hout, hrest⟩

/-- `wake_up_queue` returns, and moves the tasks of the queue to the tail of the run ring. -/
theorem wakeUpQueue (h : SchedInv idle s tasks l w) (h0 : idle ≠ 0) (q : Nat) :
    ∃ s', Comes (fun fuel => BootPerl.wakeUpQueue fuel idle s q) (.ok s') ∧
      SchedInv idle s' tasks (l ++ w q) (Function.update w q []) := by
  obtain ⟨s₁, hres, hrun, hin, hout, hqueue, hfirst, hcur⟩ := h.wakeUpLoop h0 q
  have hwq : ∀ u ∈ w q, u ∈ tasks ∧ s.state u ≠ .running ∧ s.queue u = q := fun u hu => (h.waiting q u).1 hu
  have hidle : idle ∉ w q := fun hm => (h.created idle (hwq idle hm).1).2 rfl
  have hlw : ∀ u ∈ l, u ∉ w q := fun u hu hm => (hwq u hm).2.1 ((h.running u).1 hu).2
  refine ⟨s₁.setFirst q 0, hres.bind (Comes.const _), ?_, h.created, hrun.congr (fun _ _ => rfl) fun _ _ => rfl, ?_, ?_,
    fun u => ?_, fun q' => ?_, fun q' => ?_, fun q' u => ?_, fun u hu => ?_⟩
  · exact (hout idle hidle).1.trans h.idleRunning
  · exact List.nodup_append.2 ⟨h.nodup, h.waitNodup q, fun a ha b hb he => hlw a ha (he ▸ hb)⟩
  · have hc : (s₁.setFirst q 0).current = s.current := hcur
    rw [hc, ← List.cons_append]
    exact List.mem_append_left _ h.current
  · have hstate : (s₁.setFirst q 0).state u = s₁.state u := rfl
    rw [hstate, List.mem_append]
    by_cases huw : u ∈ w q
    · simp [huw, (hwq u huw).1, (hin u huw).1]
    · simp [huw, (hout u huw).1, h.running u]
  · by_cases hqq : q' = q
    · rw [hqq, Function.update_self]
      exact Function.update_self _ _ _
    · have hother : ∀ u ∈ w q', u ∉ w q := fun u hu hm =>
        hqq (((h.waiting q' u).1 hu).2.2.symm.trans (hwq u hm).2.2)
      have hf : (s₁.setFirst q 0).first q' = s.first q' := by
        rw [← hfirst]
        exact Function.update_of_ne hqq _ _
      rw [Function.update_of_ne hqq]
      exact (h.wait q').congr hf (fun u hu => (hout u (hother u hu)).2.1) fun u hu => (hout u (hother u hu)).2.2
  · by_cases hqq : q' = q
    · rw [hqq, Function.update_self]
      exact List.nodup_nil
    · rw [Function.update_of_ne hqq]
      exact h.waitNodup q'
  · have hstate : (s₁.setFirst q 0).state u = s₁.state u := rfl
    have hq : (s₁.setFirst q 0).queue u = s.queue u := congrFun hqueue u
    rw [hstate, hq]
    by_cases huw : u ∈ w q
    · by_cases hqq : q' = q
      · simp [hqq, (hin u huw).1]
      · have hne : u ∉ w q' := fun hm => hqq (((h.waiting q' u).1 hm).2.2.symm.trans (hwq u huw).2.2)
        simp [Function.update_of_ne hqq, (hin u huw).1, hne]
    · rw [(hout u huw).1, ← h.waiting q' u]
      by_cases hqq : q' = q
      · rw [hqq, Function.update_self]
        simp [huw]
      · rw [Function.update_of_ne hqq]
  · have hlinks : (s₁.setFirst q 0).queueNext u = s₁.queueNext u ∧ (s₁.setFirst q 0).queuePrev u = s₁.queuePrev u := ⟨rfl, rfl⟩
    rw [hlinks.1, hlinks.2]
    rcases List.mem_append.1 hu with hu | hu
    · obtain ⟨-, h1, h2⟩ := hout u (hlw u hu)
      rw [h1, h2]
      exact h.lone u hu
    · exact (hin u hu).2

/-- The same of whatever the call comes to. -/
theorem of_wakeUpQueue (h : SchedInv idle s tasks l w) (h0 : idle ≠ 0) {q : Nat} {s' : Sched}
    (hcomes : Comes (fun fuel => BootPerl.wakeUpQueue fuel idle s q) (.ok s')) :
    SchedInv idle s' tasks (l ++ w q) (Function.update w q []) := by
  obtain ⟨s₁, hcomes', h'⟩ := h.wakeUpQueue h0 q
  cases hcomes.unique hcomes'
  exact h'

/-- A call keeps the invariant. -/
theorem step {t t' : TaskState} (h : SchedInv idle t.sched t.tasks l w) (h0 : idle ≠ 0) (hstep : TaskStep idle t t') :
    ∃ l' w', SchedInv idle t'.sched t'.tasks l' w' := by
  cases hstep with
  | create h1 h2 h3 => exact ⟨_, _, (h.setNeedResched _ _).create h0 h1 h2 h3 _ _ _ _⟩
  | schedule => exact ⟨l, w, h.schedule⟩
  | block hc =>
    obtain ⟨l', h'⟩ := h.block _ hc
    exact ⟨l', _, h'⟩
  | wakeUpQueue hcomes => exact ⟨_, _, h.of_wakeUpQueue h0 hcomes⟩

/-- Every state reached has its lists. -/
theorem of_reach {s : TaskState} (h0 : idle ≠ 0) (h : Reach (TaskInit idle) (TaskStep idle) s) :
    ∃ l w, SchedInv idle s.sched s.tasks l w := by
  refine h.invariant (I := fun s => ∃ l w, SchedInv idle s.sched s.tasks l w) ?_ ?_
  · exact fun s hs => ⟨_, _, start hs.1 hs.2⟩
  · rintro s s' ⟨l, w, hinv⟩ hstep
    exact hinv.step h0 hstep

end SchedInv

/-- In every state reached, the run list is empty or a ring through `idle_task` without repetition, the current task is on it or
is `idle_task`, a task is on it exactly when it runs, and every other task is on exactly one wait queue, each of which is null,
a lone task or a ring. The loop of `wake_up_queue` ends on every queue. -/
theorem run_ring_invariant (idle : Nat) (h0 : idle ≠ 0) {s : TaskState} (h : Reach (TaskInit idle) (TaskStep idle) s) :
    (∃ (l : List Nat) (w : Nat → List Nat), RunList idle s.sched l ∧ (idle :: l).Nodup ∧
      (s.sched.current = idle ∨ s.sched.current ∈ l) ∧ (∀ t, t ∈ l ↔ t ∈ s.tasks ∧ s.sched.state t = .running) ∧
      (∀ q, WaitList s.sched q (w q) ∧ (w q).Nodup) ∧ (∀ q, ∀ t ∈ w q, t ∈ s.tasks ∧ s.sched.state t ≠ .running) ∧
      ∀ t ∈ s.tasks, s.sched.state t ≠ .running → ∃! q, t ∈ w q) ∧
    ∀ q, ∃ s', Comes (fun fuel => BootPerl.wakeUpQueue fuel idle s.sched q) (.ok s') := by
  obtain ⟨l, w, hinv⟩ := SchedInv.of_reach h0 h
  refine ⟨⟨l, w, hinv.run, hinv.ring_nodup, List.mem_cons.1 hinv.current, hinv.running,
    fun q => ⟨hinv.wait q, hinv.waitNodup q⟩, fun q t ht => ?_,
    fun t ht hs => ⟨s.sched.queue t, (hinv.waiting _ t).2 ⟨ht, hs, rfl⟩, fun q hq => ?_⟩⟩, fun q => ?_⟩
  · have := (hinv.waiting q t).1 ht
    exact ⟨this.1, this.2.1⟩
  · exact ((hinv.waiting q t).1 hq).2.2.symm
  · obtain ⟨s', hr, -⟩ := hinv.wakeUpQueue h0 q
    exact ⟨s', hr⟩

/-- The tasks at boot, where memory is zero. -/
def zeroSched (idle : Nat) : Sched where
  timeslice _ := 0
  time _ := 0
  pid _ := 0
  name _ := 0
  esp _ := 0
  ss _ := 0
  regs _ := 0
  taskNext _ := 0
  needResched _ := 1
  taskPrev _ := 0
  runNext _ := 0
  runPrev _ := 0
  state _ := .running
  queue _ := 0
  queueNext _ := 0
  queuePrev _ := 0
  first _ := 0
  current := idle

theorem taskInit_zeroSched (idle : Nat) : TaskInit idle ⟨zeroSched idle, []⟩ :=
  ⟨⟨rfl, rfl, rfl, rfl, rfl, rfl, rfl, rfl, rfl, rfl, rfl, rfl, fun _ => rfl, rfl⟩, rfl⟩

/-- Two tasks, created one after the other. -/
def twoSched : Sched :=
  let s := createProcess 0x1000 ((zeroSched 0x1000).setNeedResched 0x2000 0) 0x8000 0x2000 1 0 1024
  createProcess 0x1000 (s.setNeedResched 0x3000 0) 0x9000 0x3000 2 0 1024

/-- One task, created, chosen and blocked on a queue. -/
def blockedSched : Sched :=
  let s := createProcess 0x1000 ((zeroSched 0x1000).setNeedResched 0x2000 0) 0x8000 0x2000 1 0 1024
  BootPerl.block 0x1000 (BootPerl.schedule 0x1000 s) 0x3000

/-- The invariant once the only task waits. -/
theorem run_ring_invariant_blocked :
    (∃ (l : List Nat) (w : Nat → List Nat), RunList 0x1000 blockedSched l ∧ (0x1000 :: l).Nodup ∧
      (blockedSched.current = 0x1000 ∨ blockedSched.current ∈ l) ∧
      (∀ t, t ∈ l ↔ t ∈ [0x2000] ∧ blockedSched.state t = .running) ∧
      (∀ q, WaitList blockedSched q (w q) ∧ (w q).Nodup) ∧ (∀ q, ∀ t ∈ w q, t ∈ [0x2000] ∧ blockedSched.state t ≠ .running) ∧
      ∀ t ∈ [0x2000], blockedSched.state t ≠ .running → ∃! q, t ∈ w q) ∧
    ∀ q, ∃ s', Comes (fun fuel => BootPerl.wakeUpQueue fuel 0x1000 blockedSched q) (.ok s') := by
  have hboot : Reach (TaskInit 0x1000) (TaskStep 0x1000) ⟨zeroSched 0x1000, []⟩ := .init (taskInit_zeroSched 0x1000)
  have hcreate := hboot.step (@TaskStep.create 0x1000 _ 0x8000 0x2000 1 0 1024 0 (by decide) (by decide) (by simp))
  have hblock := (hcreate.step .schedule).step (.block (q := 0x3000) (by decide))
  exact run_ring_invariant 0x1000 (by decide) hblock

end BootPerl
