import BootPerl.Theorems.MemoryConserved
import BootPerl.Theorems.RunRing

/-!
# The kernel: tasks in the memory of the memory manager

The memory manager and the tasks together. `create_process` takes the stack and the `struct task` from `kalloc`, and nobody frees
them. So a new task never lies where a task or `idle_task` is: the run of the tasks is one of those that the task lists are
verified for, as long as all calls of the memory manager are tame.
-/

namespace BootPerl

open Mem Outcome

/-- The memory manager, the tasks, and the stack of each task. -/
structure KernelState where
  heap : HeapState
  tasks : TaskState
  stackOf : Nat → Block

/-- `sizeof(struct task)`. -/
def taskSize : Nat := 64

/-- The blocks that the tasks take up. -/
def KernelState.taskBlocks (s : KernelState) : List Block := s.tasks.tasks.flatMap fun t => [⟨t, taskSize⟩, s.stackOf t]

/-- The state after `kalloc_init`, with no task but `idle_task`. -/
def KernelInit (b : BootMemory) (idle : Nat) (s : KernelState) : Prop := b.HeapInit s.heap ∧ TaskInit idle s.tasks

/-- A tame call of the memory manager that frees neither memory of a task nor that of `idle_task`, or a call of the tasks'
code. `create_process` calls `kalloc` twice; what it writes there is the task's. -/
inductive KernelStep (v : HeapVars) (idle : Nat) (s : KernelState) : KernelState → Prop where
  | heap {c : HeapCall} {h : HeapState} : Tame v s.heap c → HeapStep v s.heap c h → (∀ b, c = .kfree b → b ∉ s.taskBlocks) →
      (∀ r, c = .memFree r → r.Disjoint ⟨idle, taskSize⟩) → KernelStep v idle s { s with heap := h }
  | create {m m' : Mem} {newStack t pid name stack garbage : Nat} : (stack + 4 + 4095) / 4096 < 65536 →
      Comes (fun fuel => kalloc fuel v s.heap.mem stack) (.ok (m, newStack)) →
      Comes (fun fuel => kalloc fuel v m taskSize) (.ok (m', t)) →
      KernelStep v idle s
        ⟨⟨m', ⟨t, taskSize⟩ :: ⟨newStack, stack⟩ :: s.heap.live, s.heap.held⟩,
          ⟨createProcess idle (s.tasks.sched.setNeedResched t garbage) newStack t pid name stack, t :: s.tasks.tasks⟩,
          Function.update s.stackOf t ⟨newStack, stack⟩⟩
  | schedule : KernelStep v idle s { s with tasks := ⟨BootPerl.schedule idle s.tasks.sched, s.tasks.tasks⟩ }
  | block {q : Nat} : s.tasks.sched.current ≠ idle →
      KernelStep v idle s { s with tasks := ⟨BootPerl.block idle s.tasks.sched q, s.tasks.tasks⟩ }
  | wakeUpQueue {q : Nat} {s' : Sched} : Comes (fun fuel => BootPerl.wakeUpQueue fuel idle s.tasks.sched q) (.ok s') →
      KernelStep v idle s { s with tasks := ⟨s', s.tasks.tasks⟩ }

/-- The tasks' memory is live, and each block of it is one task's; what the memory manager keeps track of does not reach
`idle_task`; and the tasks are as their code alone leaves them. -/
structure KernelInv (v : HeapVars) (idle : Nat) (s : KernelState) : Prop where
  total : ∃ total, HeapTotal v s.heap total ∧ ∀ a, Region.Has ⟨idle, taskSize⟩ a → total a = 0
  live : ∀ b ∈ s.taskBlocks, b ∈ s.heap.live
  nodup : s.taskBlocks.Nodup
  tasks : Reach (TaskInit idle) (TaskStep idle) s.tasks

/-! ## The live blocks -/

/-- No block is live twice: its header would be owned twice. -/
theorem Owned.live_nodup {v : HeapVars} {m : Mem} {bl pl : List Region} {live : List Block} {held : List Nat}
    (h : Owned v m bl pl live held) : live.Nodup := by
  rw [List.nodup_iff_count_le_one]
  intro b
  by_contra hcount
  obtain ⟨rest, hperm⟩ : ∃ rest, live.Perm (b :: b :: rest) := by
    have hmem : b ∈ live := List.count_pos_iff.1 (by omega)
    have hmem' : b ∈ live.erase b := List.count_pos_iff.1 (by
      rw [List.count_erase_self]
      omega)
    exact ⟨_, (List.perm_cons_erase hmem).trans ((List.perm_cons_erase hmem').cons b)⟩
  have hex := h.exclusive (b.ptr - 4)
  have hhas : b.region.Has (b.ptr - 4) := by
    simp only [Block.region, Region.Has]
    omega
  rw [Owned.coverage_all, coverage_perm (hperm.map Block.region)] at hex
  simp only [List.map_cons, coverage_cons, Region.ind_of_has hhas] at hex
  omega

/-- What the memory manager keeps track of where `idle_task` lies: nothing. -/
theorem KernelInv.idle_untracked {v : HeapVars} {idle : Nat} {s : KernelState} (h : KernelInv v idle s) :
    ∃ bl pl, Owned v s.heap.mem bl pl s.heap.live s.heap.held ∧
      ∀ a, Region.Has ⟨idle, taskSize⟩ a → coverage (s.heap.tracked bl pl) a = 0 := by
  obtain ⟨total, ⟨bl, pl, howned, htotal⟩, hidle⟩ := h.total
  exact ⟨bl, pl, howned, fun a ha => (htotal a).trans (hidle a ha)⟩

/-- A call that frees no block leaves the live blocks live. -/
theorem HeapStep.live_sub {v : HeapVars} {s s' : HeapState} {c : HeapCall} (h : HeapStep v s c s') {b : Block} (hb : b ∈ s.live)
    (hc : ∀ d, c = .kfree d → d ≠ b) : b ∈ s'.live := by
  cases h with
  | kalloc _ _ => exact List.mem_cons_of_mem _ hb
  | @kfree m d _ _ => exact (List.mem_erase_of_ne (Ne.symm (hc d rfl))).2 hb
  | memFree _ _ => exact hb
  | pageAllocate _ => exact hb
  | pageAllocateConsecutive _ _ _ => exact hb
  | pageRelease _ _ => exact hb
  | writeBlock _ _ _ => exact hb
  | writePage _ _ => exact hb

/-! ## The steps -/

namespace KernelInv
variable {v : HeapVars} {idle : Nat} {s : KernelState}

/-- A call of the memory manager. -/
theorem heap (h : KernelInv v idle s) {c : HeapCall} {h' : HeapState} (hc : Tame v s.heap c) (hs : HeapStep v s.heap c h')
    (hfree : ∀ b, c = .kfree b → b ∉ s.taskBlocks) (hgive : ∀ r, c = .memFree r → r.Disjoint ⟨idle, taskSize⟩) :
    KernelInv v idle { s with heap := h' } := by
  obtain ⟨total, htotal, hidle⟩ := h.total
  refine ⟨⟨_, htotal.step hc hs, fun a ha => ?_⟩, fun b hb => ?_, h.nodup, h.tasks⟩
  · rw [hidle a ha, Nat.zero_add]
    cases c with
    | memFree r =>
      have hout : ¬r.Has a := fun hr => hgive r rfl a ⟨hr, ha⟩
      simp [HeapCall.given, Region.ind_of_not_has hout]
    | _ => rfl
  · exact hs.live_sub (h.live b hb) fun d hd he => hfree d hd (he ▸ hb)

/-- Calls that neither create a task nor touch the memory manager. -/
theorem tasksStep (h : KernelInv v idle s) {s' : Sched} (hs : TaskStep idle s.tasks ⟨s', s.tasks.tasks⟩) :
    KernelInv v idle { s with tasks := ⟨s', s.tasks.tasks⟩ } :=
  ⟨h.total, h.live, h.nodup, h.tasks.step hs⟩

/-- The blocks of a task created in blocks that were not live. -/
theorem taskBlocks_create (ts : Sched) {t : Nat} {b : Block} {h : HeapState} (ht : t ∉ s.tasks.tasks) :
    (⟨h, ⟨ts, t :: s.tasks.tasks⟩, Function.update s.stackOf t b⟩ : KernelState).taskBlocks =
      ⟨t, taskSize⟩ :: b :: s.taskBlocks := by
  have hold : s.tasks.tasks.flatMap (fun u => [⟨u, taskSize⟩, Function.update s.stackOf t b u]) =
      s.tasks.tasks.flatMap fun u => [⟨u, taskSize⟩, s.stackOf u] := by
    refine List.flatMap_congr fun u hu => ?_
    rw [Function.update_of_ne (ne_of_mem_of_not_mem hu ht)]
  simp only [KernelState.taskBlocks, List.flatMap_cons, Function.update_self, hold, List.cons_append, List.nil_append]

/-- A new task lies in blocks that were free. -/
theorem create (h : KernelInv v idle s) {m m' : Mem} {newStack t pid name stack garbage : Nat} (hfit : (stack + 4 + 4095) / 4096 < 65536)
    (hstack : Comes (fun fuel => kalloc fuel v s.heap.mem stack) (.ok (m, newStack)))
    (htask : Comes (fun fuel => kalloc fuel v m taskSize) (.ok (m', t))) :
    KernelInv v idle ⟨⟨m', ⟨t, taskSize⟩ :: ⟨newStack, stack⟩ :: s.heap.live, s.heap.held⟩,
      ⟨createProcess idle (s.tasks.sched.setNeedResched t garbage) newStack t pid name stack, t :: s.tasks.tasks⟩,
      Function.update s.stackOf t ⟨newStack, stack⟩⟩ := by
  obtain ⟨total, htotal, hidle⟩ := h.total
  have hfirst : HeapStep v s.heap (.kalloc stack) ⟨m, ⟨newStack, stack⟩ :: s.heap.live, s.heap.held⟩ := .kalloc hfit hstack
  have hsecond : HeapStep v ⟨m, ⟨newStack, stack⟩ :: s.heap.live, s.heap.held⟩ (.kalloc taskSize)
      ⟨m', ⟨t, taskSize⟩ :: ⟨newStack, stack⟩ :: s.heap.live, s.heap.held⟩ := .kalloc (by decide) htask
  have htotal' := (htotal.step (c := .kalloc stack) trivial hfirst).step (c := .kalloc taskSize) trivial hsecond
  have hzero : ∀ a, Region.Has ⟨idle, taskSize⟩ a →
      total a + coverage (HeapCall.kalloc stack).given.toList a + coverage (HeapCall.kalloc taskSize).given.toList a = 0 :=
    fun a ha => by simp [HeapCall.given, hidle a ha]
  obtain ⟨bl, pl, howned, hcov⟩ := id htotal'
  have hnodup := howned.live_nodup
  obtain ⟨htnew, hrest⟩ := List.nodup_cons.1 hnodup
  obtain ⟨hsnew, -⟩ := List.nodup_cons.1 hrest
  have hlive := List.mem_cons.not.1 htnew
  rw [not_or] at hlive
  have hfresh : t ∉ s.tasks.tasks := fun hm =>
    hlive.2 (h.live _ (List.mem_flatMap.2 ⟨t, hm, List.mem_cons_self⟩))
  have h4 : 4 < t := (howned.inside ⟨t, taskSize⟩ List.mem_cons_self).1
  -- the block of the task is tracked, the memory of `idle_task` is not
  have hne : t ≠ idle := by
    rintro rfl
    have hhas : Region.Has ⟨t, taskSize⟩ t := ⟨Nat.le_refl t, Nat.lt_add_of_pos_right (show 0 < taskSize by decide)⟩
    have hblock : (Block.region ⟨t, taskSize⟩).Has t := by
      simp only [Block.region, Region.Has, taskSize]
      omega
    have hpos := coverage_pos_of_mem (List.mem_map_of_mem (f := Block.region)
      (List.mem_cons_self (a := (⟨t, taskSize⟩ : Block)) (l := ⟨newStack, stack⟩ :: s.heap.live))) hblock
    have hc := hcov t
    rw [coverage_tracked] at hc
    have hz := hzero t hhas
    dsimp only at hc hz hpos
    omega
  have hblocks := taskBlocks_create (createProcess idle (s.tasks.sched.setNeedResched t garbage) newStack t pid name stack) (s := s)
    (b := ⟨newStack, stack⟩) (h := ⟨m', ⟨t, taskSize⟩ :: ⟨newStack, stack⟩ :: s.heap.live, s.heap.held⟩) hfresh
  refine ⟨⟨_, htotal', hzero⟩, ?_, ?_, h.tasks.step (.create (by omega) hne hfresh)⟩
  · rw [hblocks]
    exact List.forall_mem_cons.2 ⟨List.mem_cons_self, List.forall_mem_cons.2 ⟨List.mem_cons_of_mem _ List.mem_cons_self,
      fun b hb => List.mem_cons_of_mem _ (List.mem_cons_of_mem _ (h.live b hb))⟩⟩
  · rw [hblocks]
    refine List.nodup_cons.2 ⟨fun hm => ?_, List.nodup_cons.2 ⟨fun hm => hsnew (h.live _ hm), h.nodup⟩⟩
    rcases List.mem_cons.1 hm with he | hm
    · exact hlive.1 he
    · exact hlive.2 (h.live _ hm)

theorem step (h : KernelInv v idle s) {s' : KernelState} (hs : KernelStep v idle s s') : KernelInv v idle s' := by
  cases hs with
  | heap hc hs hfree hgive => exact h.heap hc hs hfree hgive
  | create hfit hstack htask => exact h.create hfit hstack htask
  | schedule => exact h.tasksStep .schedule
  | block hne => exact h.tasksStep (.block hne)
  | wakeUpQueue hr => exact h.tasksStep (.wakeUpQueue hr)

end KernelInv

theorem KernelInv.init {b : BootMemory} (hlow : b.memoryEnd ≤ 268435456) {idle : Nat} (hidle : idle + taskSize ≤ b.memoryStart)
    {s : KernelState} (h : KernelInit b idle s) : KernelInv b.toHeapVars idle s := by
  obtain ⟨hheap, htasks⟩ := h
  have hnone : s.taskBlocks = [] := by
    rw [KernelState.taskBlocks, htasks.2]
    rfl
  have htotal := (HeapRun.init (b := b)).total hlow
  rw [BootMemory.HeapInit] at hheap
  rw [← hheap] at htotal
  refine ⟨⟨_, htotal, fun a ha => ?_⟩, ?_, ?_, .init htasks⟩
  · have hout : ¬b.managed.Has a := by
      rintro ⟨h1, -⟩
      have h2 : a < idle + taskSize := ha.2
      have h3 : b.memoryStart ≤ a := h1
      omega
    simp [given, Region.ind_of_not_has hout]
  · rw [hnone]
    simp
  · rw [hnone]
    exact List.nodup_nil

/-- What the tasks and `idle_task` take up lies apart from each other and from the free memory. -/
theorem KernelInv.apart {v : HeapVars} {idle : Nat} {s : KernelState} (h : KernelInv v idle s) :
    ∃ bl pl, Linked 1 4 s.heap.mem (⟨v.blocksHead, 0⟩ :: bl) ∧ Linked 4096 2 s.heap.mem (⟨v.pagesHead, 0⟩ :: pl) ∧
      (⟨idle, taskSize⟩ :: (s.taskBlocks.map Block.region ++ bl ++ pl)).Pairwise Region.Disjoint := by
  obtain ⟨bl, pl, howned, hidle⟩ := h.idle_untracked
  refine ⟨bl, pl, howned.blocks.free.linked, howned.pages.free.linked, Exclusive.pairwise fun a => ?_⟩
  obtain ⟨l, hperm, hsub⟩ := List.subperm_of_subset h.nodup h.live
  have hle : coverage (s.taskBlocks.map Block.region) a ≤ coverage (s.heap.live.map Block.region) a := by
    rw [← coverage_perm (hperm.map Block.region) a]
    exact coverage_sublist (hsub.map Block.region) a
  have hex := howned.exclusive a
  rw [Owned.coverage_all, Heap.coverage_heads] at hex
  simp only [coverage_cons, coverage_append]
  by_cases ha : Region.Has ⟨idle, taskSize⟩ a
  · have hnone := hidle a ha
    rw [coverage_tracked] at hnone
    rw [Region.ind_of_has ha]
    omega
  · rw [Region.ind_of_not_has ha]
    omega

end BootPerl
