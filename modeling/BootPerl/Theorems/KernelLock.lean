import Mathlib.Algebra.Ring.Int.Defs
import BootPerl.Lib.Run
import BootPerl.Lock

/-!
# Interrupts stay off while the kernel lock is held

Over every run of the steps of `LockStep`: the flag is set only when the counter is zero, and a task that is switched back in
finds the counter that it left. The account is per task: the counter is the depth of the open calls of the current task, and a
task that is switched out has depth one, the lock of the interrupt it was switched out in.
-/

namespace BootPerl

/-- The locks an open call holds. -/
def Phase.depth : Phase → Int
  | .entry => 0
  | .handler => 1
  | .scheduling => 2
  | .switching => 1
  | .restoring => 1
  | .leaving => 0

def Frame.depth : Frame → Int
  | .locked => 1
  | .unlocked => -1
  | .flags _ => 0
  | .intr p _ => p.depth

/-- The locks that the open calls of a task hold. -/
def depth (fs : List Frame) : Int := (fs.map Frame.depth).sum

@[simp] theorem depth_nil : depth [] = 0 := rfl

@[simp] theorem depth_cons (a : Frame) (fs : List Frame) : depth (a :: fs) = a.depth + depth fs := List.sum_cons

/-- Flags saved with interrupts on were saved without the lock, and a system call lets go only of its own lock. -/
inductive Nested : List Frame → Prop where
  | nil : Nested []
  | locked {fs : List Frame} : Nested fs → Nested (.locked :: fs)
  | unlocked {f : BitVec 32} {fs : List Frame} : (interruptFlag f → depth fs = 0) → Nested fs →
      Nested (.unlocked :: .intr .handler f :: fs)
  | flags {f : BitVec 32} {fs : List Frame} : (interruptFlag f → depth fs = 0) → Nested fs → Nested (.flags f :: fs)
  | intr {p : Phase} {f : BitVec 32} {fs : List Frame} : (interruptFlag f → depth fs = 0) → Nested fs → Nested (.intr p f :: fs)

/-- Every interrupt and system call began without the lock. -/
def Quiet : List Frame → Prop
  | [] => True
  | .intr _ _ :: fs => depth fs = 0 ∧ Quiet fs
  | _ :: fs => Quiet fs

theorem Phase.depth_nonneg (p : Phase) : 0 ≤ p.depth := by
  cases p <;> decide

theorem Nested.depth_nonneg {fs : List Frame} (h : Nested fs) : 0 ≤ depth fs := by
  induction h with
  | nil => exact Int.le_refl 0
  | locked _ ih | flags _ _ ih =>
    simp only [depth_cons, Frame.depth]
    omega
  | unlocked _ _ ih =>
    simp only [depth_cons, Frame.depth, Phase.depth]
    omega
  | @intr p f fs _ _ ih =>
    have := p.depth_nonneg
    simp only [depth_cons, Frame.depth]
    omega

/-- A task that holds no lock held none at any interrupt that is open. -/
theorem Nested.quiet {fs : List Frame} (h : Nested fs) (hd : depth fs = 0) : Quiet fs := by
  induction h with
  | nil => trivial
  | locked hn _ =>
    have := hn.depth_nonneg
    simp only [depth_cons, Frame.depth] at hd
    omega
  | @unlocked f fs _ _ ih =>
    simp only [depth_cons, Frame.depth, Phase.depth] at hd
    have hz : depth fs = 0 := by omega
    exact ⟨hz, ih hz⟩
  | flags _ _ ih =>
    simp only [depth_cons, Frame.depth] at hd
    exact ih (by omega)
  | @intr p f fs _ hn ih =>
    have := hn.depth_nonneg
    have := p.depth_nonneg
    simp only [depth_cons, Frame.depth] at hd
    have hz : depth fs = 0 := by omega
    exact ⟨hz, ih hz⟩

/-! ### What the steps do to the flag -/

@[simp] theorem interruptFlag_cli (f : BitVec 32) : interruptFlag (cli f) = false := by
  simp [interruptFlag, cli]

@[simp] theorem interruptFlag_unlockFlags (c : Cpu) (f : BitVec 32) : interruptFlag (unlockFlags c f) = interruptFlag f := by
  unfold unlockFlags
  split
  · simp [interruptFlag]
  · rfl

/-- The flag is set only without the lock. -/
def Cpu.Masked (c : Cpu) : Prop := interruptFlag c.eflags → c.kernelLock = 0

theorem masked_cli (f : BitVec 32) (n : Int) : Cpu.Masked ⟨cli f, n⟩ := by
  intro h
  rw [interruptFlag_cli] at h
  nomatch h

theorem masked_lockKernel (c : Cpu) : (lockKernel c).Masked := masked_cli _ _

/-- Letting go of a lock that is held sets the flag only with the last one. -/
theorem masked_unlockKernel {c : Cpu} (h : c.Masked) (hc : c.kernelLock ≠ 0) : (unlockKernel c).Masked := by
  intro hf
  unfold unlockKernel at hf ⊢
  split at hf
  · assumption
  · exact absurd (h hf) hc

theorem lockKernel_sub (c : Cpu) : (lockKernel c).kernelLock - c.kernelLock = 1 := by
  unfold lockKernel
  dsimp only
  omega

theorem unlockKernel_sub (c : Cpu) : (unlockKernel c).kernelLock - c.kernelLock = -1 := by
  unfold unlockKernel
  dsimp only
  omega

/-! ### The invariant -/

/-- The counter is the account of the current task; a task that is switched out is past `schedule` in an interrupt that began
without the lock. -/
structure LockInv (idle : Nat) (s : LockState) : Prop where
  masked : s.cpu.Masked
  lock : s.cpu.kernelLock = depth (s.frames s.current)
  current : s.current ∈ idle :: s.tasks
  nested : Nested (s.frames s.current)
  quiet : s.tasks ≠ [] → Quiet (s.frames s.current)
  waiting : ∀ t ∈ idle :: s.tasks, t ≠ s.current → ∃ f fs, s.frames t = .intr .restoring f :: fs ∧ depth fs = 0 ∧
    Nested (s.frames t) ∧ Quiet (s.frames t)
  out : ∀ t n, s.out t = some n → n = 1

namespace LockInv
variable {idle : Nat} {s : LockState}

theorem boot (h : LockInit idle s) : LockInv idle s := by
  refine ⟨fun hf => ?_, ?_, ?_, ?_, fun _ => ?_, fun t ht htc => ?_, fun t n hn => ?_⟩
  · rw [h.eflags] at hf
    nomatch hf
  · rw [h.kernelLock, h.frames, depth_nil]
  · rw [h.current]
    exact List.mem_cons_self
  · rw [h.frames]
    exact Nested.nil
  · rw [h.frames]
    trivial
  · rw [h.tasks, List.mem_singleton] at ht
    exact absurd (ht.trans h.current.symm) htc
  · rw [h.out] at hn
    nomatch hn

/-- A step of the current task that leaves the others alone. -/
theorem run (h : LockInv idle s) {c : Cpu} {fs : List Frame} (hmask : c.Masked) (hlock : c.kernelLock = depth fs)
    (hnested : Nested fs) (hquiet : s.tasks ≠ [] → Quiet fs) : LockInv idle (s.run c fs) := by
  have hself : (s.run c fs).frames (s.run c fs).current = fs := Function.update_self _ _ _
  refine ⟨hmask, ?_, h.current, ?_, fun ht => ?_, fun t ht htc => ?_, h.out⟩
  · rw [hself]
    exact hlock
  · rw [hself]
    exact hnested
  · rw [hself]
    exact hquiet ht
  · have hother : (s.run c fs).frames t = s.frames t := Function.update_of_ne htc _ _
    rw [hother]
    exact h.waiting t ht htc

/-- An open interrupt of the current task holds the locks of its phase and those below it. -/
theorem lock_intr (h : LockInv idle s) {p : Phase} {f : BitVec 32} {fs : List Frame}
    (hfs : s.frames s.current = .intr p f :: fs) : s.cpu.kernelLock = p.depth + depth fs := by
  rw [h.lock, hfs, depth_cons]
  rfl

/-- What is below the call on top. -/
theorem below_intr (h : LockInv idle s) {p : Phase} {f : BitVec 32} {fs : List Frame}
    (hfs : s.frames s.current = .intr p f :: fs) :
    (interruptFlag f → depth fs = 0) ∧ Nested fs ∧ 0 ≤ depth fs ∧ (s.tasks ≠ [] → depth fs = 0 ∧ Quiet fs) := by
  have hn := h.nested
  have hq := h.quiet
  rw [hfs] at hn hq
  cases hn with
  | intr hf hn => exact ⟨hf, hn, hn.depth_nonneg, hq⟩

/-- An interrupt goes from one phase to another and takes or lets go of a lock with it. -/
theorem phase (h : LockInv idle s) {p p' : Phase} {f f' : BitVec 32} {fs : List Frame} {c : Cpu}
    (hfs : s.frames s.current = .intr p f :: fs) (hmask : c.Masked)
    (hlock : c.kernelLock - s.cpu.kernelLock = p'.depth - p.depth) (hf : interruptFlag f' = interruptFlag f) :
    LockInv idle (s.run c (.intr p' f' :: fs)) := by
  obtain ⟨hflag, hn, -, hq⟩ := h.below_intr hfs
  have hold := h.lock_intr hfs
  refine h.run hmask ?_ (.intr (by rwa [hf]) hn) hq
  simp only [depth_cons, Frame.depth]
  omega

/-- `unlock_kernel` inside an interrupt that holds a lock. -/
theorem masked_unlock_intr (h : LockInv idle s) {p : Phase} {f : BitVec 32} {fs : List Frame}
    (hfs : s.frames s.current = .intr p f :: fs) (hp : 0 < p.depth) : (unlockKernel s.cpu).Masked := by
  obtain ⟨-, -, hnn, -⟩ := h.below_intr hfs
  have := h.lock_intr hfs
  exact masked_unlockKernel h.masked (by omega)

/-- A new interrupt, system call or `block`. -/
theorem enter (h : LockInv idle s) {f : BitVec 32} (hlock : s.tasks = [] ∨ s.cpu.kernelLock = 0)
    (hmask : Cpu.Masked ⟨f, s.cpu.kernelLock⟩) :
    LockInv idle (s.run ⟨f, s.cpu.kernelLock⟩ (.intr .entry s.cpu.eflags :: s.frames s.current)) := by
  refine h.run hmask ?_ (.intr (fun hf => h.lock ▸ h.masked hf) h.nested) fun ht => ⟨?_, h.quiet ht⟩
  · simp only [depth_cons, Frame.depth, Phase.depth]
    rw [h.lock]
    omega
  · rw [← h.lock]
    exact hlock.resolve_left ht

/-- A task is switched out in an interrupt that began without the lock, so with the counter at one. -/
theorem lock_switching (h : LockInv idle s) {f : BitVec 32} {fs : List Frame}
    (hfs : s.frames s.current = .intr .switching f :: fs) (ht : s.tasks ≠ []) : s.cpu.kernelLock = 1 := by
  obtain ⟨-, -, -, hq⟩ := h.below_intr hfs
  rw [h.lock_intr hfs, (hq ht).1]
  rfl

/-- There is another task to switch to only if tasks have been created. -/
theorem tasks_ne_nil (h : LockInv idle s) {next : Nat} (hnext : next ∈ idle :: s.tasks) (hne : next ≠ s.current) :
    s.tasks ≠ [] := by
  intro ht
  have hcur := h.current
  rw [ht, List.mem_singleton] at hnext hcur
  exact hne (hnext.trans hcur.symm)

/-- Whether it switches or not, `switch_to` leaves a current task that goes on at `restore`. -/
theorem switchTo (h : LockInv idle s) {next : Nat} {f : BitVec 32} {fs : List Frame}
    (hfs : s.frames s.current = .intr .switching f :: fs) (hnext : next ∈ idle :: s.tasks) :
    LockInv idle (s.switchTo next (.intr .restoring f :: fs)) := by
  unfold LockState.switchTo
  split
  · exact h.phase hfs h.masked (Int.sub_self _) rfl
  · rename_i hne
    have ht := h.tasks_ne_nil hnext hne
    obtain ⟨hflag, hn, -, hq⟩ := h.below_intr hfs
    obtain ⟨hz, hqfs⟩ := hq ht
    have hone := h.lock_switching hfs ht
    obtain ⟨f', fs', hnfs, hz', hnn, hnq⟩ := h.waiting next hnext hne
    have hself : Function.update s.frames s.current (.intr .restoring f :: fs) next = s.frames next :=
      Function.update_of_ne hne _ _
    refine ⟨h.masked, ?_, hnext, ?_, fun _ => ?_, fun t ht htc => ?_, fun t n hout => ?_⟩
    · dsimp only
      rw [hself, hnfs, depth_cons, hz', hone]
      rfl
    · dsimp only
      rwa [hself]
    · dsimp only
      rwa [hself]
    · dsimp only at htc ⊢
      by_cases htcur : t = s.current
      · rw [htcur, Function.update_self]
        exact ⟨f, fs, rfl, hz, .intr hflag hn, hz, hqfs⟩
      · rw [Function.update_of_ne htcur]
        exact h.waiting t ht htcur
    · dsimp only at hout
      by_cases htcur : t = s.current
      · rw [htcur, Function.update_self, hone] at hout
        exact (Option.some.inj hout).symm
      · rw [Function.update_of_ne htcur] at hout
        exact h.out t n hout

/-- A new task waits at `restore` with no locks but that of its interrupt frame. -/
theorem createProcess (h : LockInv idle s) {t : Nat} (hti : t ≠ idle) (ht : t ∉ s.tasks)
    (hfirst : s.tasks = [] → s.cpu.kernelLock = 0) : LockInv idle (s.createProcess t) := by
  have htc : s.current ≠ t := fun he => (List.mem_cons.1 (he ▸ h.current)).elim hti ht
  have hnn := h.nested.depth_nonneg
  have hlock := h.lock
  have hself : (s.createProcess t).frames (s.createProcess t).current = s.frames s.current := Function.update_of_ne htc _ _
  refine ⟨masked_unlockKernel (masked_lockKernel _) ?_, ?_, ?_, ?_, fun _ => ?_, fun u hu huc => ?_, h.out⟩
  · unfold BootPerl.lockKernel
    dsimp only
    omega
  · rw [hself, ← hlock]
    exact Int.add_sub_cancel _ _
  · exact List.mem_cons.2 ((List.mem_cons.1 h.current).imp id (List.mem_cons_of_mem _))
  · rw [hself]
    exact h.nested
  · rw [hself]
    by_cases hts : s.tasks = []
    · exact h.nested.quiet (by rw [← hlock, hfirst hts])
    · exact h.quiet hts
  · by_cases hut : u = t
    · have hnew : (s.createProcess t).frames u = [.intr .restoring 0x12#32] := by
        rw [hut]
        exact Function.update_self _ _ _
      rw [hnew]
      exact ⟨_, _, rfl, rfl, .intr (fun _ => rfl) .nil, rfl, trivial⟩
    · have hold : (s.createProcess t).frames u = s.frames u := Function.update_of_ne hut _ _
      rw [hold]
      have hu' : u ∈ idle :: t :: s.tasks := hu
      rw [List.mem_cons, List.mem_cons] at hu'
      refine h.waiting u (List.mem_cons.2 ?_) huc
      rcases hu' with hu' | hu' | hu'
      · exact Or.inl hu'
      · exact absurd hu' hut
      · exact Or.inr hu'

/-- Every step keeps the invariant. -/
theorem step (h : LockInv idle s) {s' : LockState} (hstep : LockStep idle s s') : LockInv idle s' := by
  cases hstep with
  | compute hf =>
    refine h.run (fun hm => ?_) h.lock h.nested h.quiet
    rw [hf] at hm
    exact h.masked hm
  | lockKernel =>
    refine h.run (masked_lockKernel _) ?_ (.locked h.nested) h.quiet
    rw [depth_cons, ← h.lock]
    exact Int.add_comm _ _
  | unlockKernel hfs =>
    have hlock := h.lock
    have hn := h.nested
    have hq := h.quiet
    rw [hfs] at hlock hn hq
    simp only [depth_cons, Frame.depth] at hlock
    cases hn with
    | locked hn =>
      have := hn.depth_nonneg
      refine h.run (masked_unlockKernel h.masked (by omega)) ?_ hn hq
      unfold BootPerl.unlockKernel
      dsimp only
      omega
  | saveFlags =>
    refine h.run h.masked ?_ (.flags (fun hf => h.lock ▸ h.masked hf) h.nested) h.quiet
    rw [depth_cons, ← h.lock]
    exact (Int.zero_add _).symm
  | restoreFlags hfs =>
    have hlock := h.lock
    have hn := h.nested
    have hq := h.quiet
    rw [hfs] at hlock hn hq
    simp only [depth_cons, Frame.depth, Int.zero_add] at hlock
    cases hn with
    | flags hf hn => exact h.run (fun hm => hlock ▸ hf hm) hlock hn hq
  | interrupt hf => exact h.enter (Or.inr (h.masked hf)) (masked_cli _ _)
  | syscall hc => exact h.enter hc (masked_cli _ _)
  | block hc => exact h.enter hc h.masked
  | enter hfs => exact h.phase hfs (masked_lockKernel _) (lockKernel_sub _) rfl
  | unlockSyscall hfs =>
    obtain ⟨hflag, hn, -, hq⟩ := h.below_intr hfs
    have hold := h.lock_intr hfs
    have hnew := unlockKernel_sub s.cpu
    refine h.run (h.masked_unlock_intr hfs (by decide)) ?_ (.unlocked hflag hn) hq
    simp only [depth_cons, Frame.depth, Phase.depth] at hold ⊢
    omega
  | lockSyscall hfs =>
    have hlock := h.lock
    have hn := h.nested
    have hq := h.quiet
    have hnew := lockKernel_sub s.cpu
    rw [hfs] at hlock hn hq
    simp only [depth_cons, Frame.depth] at hlock
    cases hn with
    | unlocked hf hn => exact h.run (masked_lockKernel _) (by omega) (.intr hf hn) hq
  | schedule hfs => exact h.phase hfs (masked_lockKernel _) (lockKernel_sub _) rfl
  | scheduled hfs => exact h.phase hfs (h.masked_unlock_intr hfs (by decide)) (unlockKernel_sub _) rfl
  | switchTo hfs hnext => exact h.switchTo hfs hnext
  | retFromIntr hfs => exact h.phase hfs h.masked (Int.sub_self _) rfl
  | leave hfs => exact h.phase hfs (h.masked_unlock_intr hfs (by decide)) (unlockKernel_sub _) (interruptFlag_unlockFlags _ _)
  | iret hfs =>
    obtain ⟨hflag, hn, -, hq⟩ := h.below_intr hfs
    have hlock := h.lock_intr hfs
    simp only [Phase.depth, Int.zero_add] at hlock
    exact h.run (fun hm => hlock ▸ hflag hm) hlock hn fun ht => (hq ht).2
  | createProcess hti ht hfirst => exact h.createProcess hti ht hfirst

end LockInv

/-- Only `switch_to` changes the current task. -/
theorem LockStep.switched {idle : Nat} {s s' : LockState} (h : LockStep idle s s') (hne : s'.current ≠ s.current) :
    ∃ next f fs, s.frames s.current = .intr .switching f :: fs ∧ next ∈ idle :: s.tasks ∧
      s' = s.switchTo next (.intr .restoring f :: fs) := by
  cases h with
  | switchTo hfs hnext => exact ⟨_, _, _, hfs, hnext, rfl⟩
  | _ => exact absurd rfl hne

/-- In every state reached, the flag is set only when nobody holds the lock, and a switch from there finds the counter that the
task switched to was switched out with. -/
theorem lock_masks_interrupts (idle : Nat) {s : LockState} (h : Reach (LockInit idle) (LockStep idle) s) :
    (interruptFlag s.cpu.eflags → s.cpu.kernelLock = 0) ∧
      ∀ s', LockStep idle s s' → s'.current ≠ s.current → ∀ n, s.out s'.current = some n → s'.cpu.kernelLock = n := by
  have hinv : LockInv idle s := h.invariant (fun _ hs => LockInv.boot hs) fun _ _ hs hstep => hs.step hstep
  refine ⟨hinv.masked, fun s' hstep hne n hout => ?_⟩
  obtain ⟨next, f, fs, hfs, hnext, rfl⟩ := hstep.switched hne
  have hcur : next ≠ s.current := fun he => hne (by rw [he, LockState.switchTo, if_pos rfl, LockState.run])
  rw [LockState.switchTo, if_neg hcur, hinv.lock_switching hfs (hinv.tasks_ne_nil hnext hcur), hinv.out _ n hout]

/-- The run that creates a task and switches to it in the first interrupt. -/
theorem lock_masks_interrupts_switched : ∃ s : LockState, s.current = 1 ∧ s.out 0 = some 1 ∧
    (interruptFlag s.cpu.eflags → s.cpu.kernelLock = 0) ∧
      ∀ s', LockStep 0 s s' → s'.current ≠ s.current → ∀ n, s.out s'.current = some n → s'.cpu.kernelLock = n := by
  have hboot : Reach (LockInit 0) (LockStep 0) ⟨⟨0, 0⟩, 0, fun _ => [], [], fun _ => none⟩ :=
    .init ⟨rfl, rfl, rfl, fun _ => rfl, rfl, fun _ => rfl⟩
  have hcreate := hboot.step (@LockStep.createProcess 0 _ 1 (by decide) (by simp) fun _ => rfl)
  have hhandler := (hcreate.step (.interrupt rfl)).step (.enter rfl)
  have hswitch := ((hhandler.step (.schedule rfl)).step (.scheduled rfl)).step
    (@LockStep.switchTo 0 _ 1 _ _ rfl (List.mem_cons_of_mem _ List.mem_cons_self))
  exact ⟨_, rfl, rfl, lock_masks_interrupts 0 hswitch⟩

end BootPerl
