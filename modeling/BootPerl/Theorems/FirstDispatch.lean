import BootPerl.Lemmas.Switch

/-!
# The first dispatch of a task

`create_process` builds the first stack of a task by hand, and the first `switch_to` into the task runs down that stack through
`restore` to the task's function. It gets there and lets go of the kernel lock, but with interrupts off: bit 9 of the flags is
meant, and `9 << 1` is stored. The slot meant for `current->regs` is exchanged with `ebp`, which is null when `restore` uses it.
-/

namespace BootPerl

open Machine

/-! ### The first stack -/

/-- Zeros that are stored are read back. -/
theorem byte_store_zero {n : Nat} : ∀ {m : Mem} {a x : Nat}, a ≤ x → x < a + n → (m.store a n 0).byte x = 0 := by
  induction n with
  | zero => intro m a x h1 h2; omega
  | succ n ih =>
    intro m a x h1 h2
    rw [Mem.store]
    by_cases hx : x = a
    · rw [hx, Mem.byte_store_of_outside (by omega)]
      simp [Mem.set]
    · exact ih (by omega) (by omega)

/-- The words of the first stack: the flag for `switch_to`, its return address, its two arguments, of which the second is the
first of the registers, then the rest of `task_regs`. -/
def firstWords (restoreAddr func : UInt32) : List UInt32 :=
  [0, restoreAddr, 0, 0, 0, 0, 0, 0, 0, 0, 0x18, 0x18, 0, func, 0x10, 0x12, 0, 0]

/-- The words for `switch_to`, the lowest last. -/
def putCall (m : Mem) (E : Nat) (restoreAddr : UInt32) : Mem :=
  ((m.store (E + 8) 4 (0 : UInt32).toNat).store (E + 4) 4 restoreAddr.toNat).store E 4 (0 : UInt32).toNat

/-- Where the task finds its stack and its registers. -/
def putTask (m : Mem) (E t : Nat) : Mem :=
  ((m.store (t + 0x10) 4 E).store (t + 0x14) 4 0x18).store (t + 0x18) 4 (E + 12)

/-- The registers. -/
def putRegs (m : Mem) (E : Nat) (func : UInt32) : Mem :=
  let m := m.store (E + 12) 60 0
  let m := m.store (E + 12 + 4 * 7) 4 (0x18 : UInt32).toNat
  let m := m.store (E + 12 + 4 * 8) 4 (0x18 : UInt32).toNat
  let m := m.store (E + 12 + 4 * 10) 4 func.toNat
  let m := m.store (E + 12 + 4 * 11) 4 (0x10 : UInt32).toNat
  m.store (E + 12 + 4 * 12) 4 (0x12 : UInt32).toNat

/-- `create_process` puts the three one after the other. -/
theorem firstStack_eq (m : Mem) {restoreAddr newStack stack t func : UInt32} {E : Nat}
    (hroom : newStack.toNat + stack.toNat < 4294967296) (htask : t.toNat + 0x40 ≤ 4294967296)
    (hE : newStack.toNat + stack.toNat = E + 72) :
    firstStack m restoreAddr newStack stack t func = putRegs (putTask (putCall m E restoreAddr) E t.toNat) E func := by
  have hend : (newStack + stack).toNat = E + 72 := (toNat_add hroom).trans hE
  have hregs : (newStack + stack - 60).toNat = E + 12 := by
    rw [toNat_sub (by rw [hend]; exact Nat.le_add_left 60 (E + 12)), hend]
    rfl
  have hesp : (newStack + stack - 60 - 12).toNat = E := by
    rw [toNat_sub (by rw [hregs]; exact Nat.le_add_left 12 E), hregs]
    rfl
  have hoff : ∀ (a n : UInt32) (b : Nat), a.toNat = b → b + n.toNat < 4294967296 → (a + n).toNat = b + n.toNat := by
    rintro a n b rfl hlt
    exact toNat_add hlt
  have hlt : ∀ n, n < 72 → E + n < 4294967296 := fun n hn => by omega
  have hlt' : ∀ n, n < 60 → E + 12 + n < 4294967296 := fun n hn => by omega
  have htlt : ∀ n, n < 0x40 → t.toNat + n < 4294967296 := fun n hn => by omega
  have h18 : (0x18 : UInt32).toNat = 0x18 := rfl
  have hflags : ((9 : UInt32) <<< 1).toNat = (0x12 : UInt32).toNat := rfl
  unfold firstStack
  dsimp only
  rw [hoff _ 8 _ hesp (hlt 8 (by decide)), hoff _ 4 _ hesp (hlt 4 (by decide)), hoff _ 0 _ hesp (hlt 0 (by decide)),
    hoff t 0x10 _ rfl (htlt 0x10 (by decide)), hoff t 0x14 _ rfl (htlt 0x14 (by decide)), hoff t 0x18 _ rfl (htlt 0x18 (by decide)),
    hoff _ 0x1c _ hregs (hlt' 0x1c (by decide)), hoff _ 0x20 _ hregs (hlt' 0x20 (by decide)),
    hoff _ 0x28 _ hregs (hlt' 0x28 (by decide)), hoff _ 0x2c _ hregs (hlt' 0x2c (by decide)),
    hoff _ 0x30 _ hregs (hlt' 0x30 (by decide)), hesp, hregs, h18, hflags]
  rfl

/-- The words for `switch_to`. -/
theorem words_putCall (m : Mem) (E : Nat) (restoreAddr : UInt32) : Words (putCall m E restoreAddr) E [0, restoreAddr, 0] := by
  have h1 : Words (m.store (E + 8) 4 (0 : UInt32).toNat) (E + 8) [0] := Words.push (show Words m (E + 12) [] from trivial) 0
  exact (Words.push (a := E + 4) h1 restoreAddr).push 0

/-- The words of the registers. -/
theorem words_putRegs (m : Mem) (E : Nat) (func : UInt32) :
    Words (putRegs m E func) (E + 12) [0, 0, 0, 0, 0, 0, 0, 0x18, 0x18, 0, func, 0x10, 0x12, 0, 0] := by
  have hzero : Words (m.store (E + 12) 60 0) (E + 12) (List.replicate 15 0) := words_zero 15 fun x h1 h2 => byte_store_zero h1 h2
  have h7 := hzero.set (i := 7) 0x18 (by decide)
  have h8 := h7.set (i := 8) 0x18 (by decide)
  have h10 := h8.set (i := 10) func (by decide)
  have h11 := h10.set (i := 11) 0x10 (by simp)
  exact h11.set (i := 12) 0x12 (by simp)

theorem frame_putTask (m : Mem) (E t : Nat) : Mem.Frame (window (t + 0x10) 12) m (putTask m E t) := by
  unfold putTask
  refine ((Mem.Frame.store_window ?_ ?_).trans (Mem.Frame.store_window ?_ ?_)).trans (Mem.Frame.store_window ?_ ?_) <;> omega

theorem frame_putRegs (m : Mem) (E : Nat) (func : UInt32) : Mem.Frame (window (E + 12) 60) m (putRegs m E func) := by
  unfold putRegs
  refine (((((Mem.Frame.store_window ?_ ?_).trans (Mem.Frame.store_window ?_ ?_)).trans (Mem.Frame.store_window ?_ ?_)).trans
    (Mem.Frame.store_window ?_ ?_)).trans (Mem.Frame.store_window ?_ ?_)).trans (Mem.Frame.store_window ?_ ?_) <;> omega

/-- What `create_process` stores for the first dispatch. -/
theorem firstStack_spec (m : Mem) {restoreAddr newStack stack t func : UInt32} {E : Nat}
    (hroom : newStack.toNat + stack.toNat < 4294967296) (htask : t.toNat + 0x40 ≤ 4294967296)
    (hE : newStack.toNat + stack.toNat = E + 72) (hapart : t.toNat + 0x40 ≤ E ∨ E + 72 ≤ t.toNat) :
    Words (firstStack m restoreAddr newStack stack t func) E (firstWords restoreAddr func) ∧
      (firstStack m restoreAddr newStack stack t func).load (t.toNat + 0x10) 4 = E ∧
      (firstStack m restoreAddr newStack stack t func).load (t.toNat + 0x18) 4 = E + 12 := by
  rw [firstStack_eq m hroom htask hE]
  have htaskFrame := frame_putTask (putCall m E restoreAddr) E t.toNat
  have hregsFrame := frame_putRegs (putTask (putCall m E restoreAddr) E t.toNat) E func
  have hcall := ((words_putCall m E restoreAddr).of_frame htaskFrame fun x hx hin => ?_).of_frame hregsFrame fun x hx hin => ?_
  · refine ⟨?_, ?_, ?_⟩
    · exact words_append (u := [0, restoreAddr, 0]).2 ⟨hcall, words_putRegs _ E func⟩
    · rw [hregsFrame.load fun x h1 h2 hin => ?_]
      · unfold putTask
        rw [Mem.load_store_of_disjoint (by omega), Mem.load_store_of_disjoint (by omega), Mem.load_store_four (by omega)]
      · have h3 := hin.1
        have h4 := hin.2
        omega
    · rw [hregsFrame.load fun x h1 h2 hin => ?_]
      · unfold putTask
        rw [Mem.load_store_four (by omega)]
      · have h3 := hin.1
        have h4 := hin.2
        omega
  · obtain ⟨h1, h2⟩ := hx
    obtain ⟨h3, h4⟩ := hin
    simp only [List.length_cons, List.length_nil] at h2
    omega
  · obtain ⟨h1, h2⟩ := hx
    obtain ⟨h3, h4⟩ := hin
    simp only [List.length_cons, List.length_nil] at h2
    omega

/-! ### The way through `restore` -/

/-- A store off the stack leaves its words. -/
theorem Machine.StackAt.setWord {m : Machine} {S : Nat} {ws : List UInt32} (h : StackAt m S ws) {a v : UInt32}
    (hout : a.toNat + 4 ≤ S ∨ S + 4 * ws.length ≤ a.toNat) : StackAt (m.setWord a v) S ws :=
  ⟨h.esp, h.words.store_of_disjoint hout, h.room⟩

/-- `iret` pops the address, the selector and the flags. -/
theorem iret_spec {m : Machine} {S : Nat} {eip cs flags : UInt32} {ws : List UInt32} (h : StackAt m S (eip :: cs :: flags :: ws)) :
    m.iret.eip = eip ∧ m.iret.cs = cs.toUInt16 ∧ m.iret.eflags = BitVec.ofNat 32 flags.toNat ∧ m.iret.mem = m.mem := by
  have h1 := (h.get (i := 1) (Nat.lt_of_sub_pos (Nat.succ_pos _)) (n := 4) rfl).2
  have h2 := (h.get (i := 2) (Nat.lt_of_sub_pos (Nat.succ_pos _)) (n := 8) rfl).2
  refine ⟨h.top, ?_, ?_, rfl⟩
  · exact congrArg UInt32.toUInt16 h1
  · exact congrArg (fun w : UInt32 => BitVec.ofNat 32 w.toNat) h2

/-- `UNLOCK_KERNEL` of the last lock sets the interrupt flag, and bit 5 of the flags for `iret`. -/
theorem unlockKernel_spec {m : Machine} {S : Nat} {lock eip cs flags : UInt32} {ws : List UInt32}
    (h : StackAt m S (eip :: cs :: flags :: ws)) (hlock : m.word lock = 1)
    (hout : lock.toNat + 4 ≤ S ∨ S + 12 + 4 * ws.length ≤ lock.toNat) :
    StackAt (m.unlockKernel lock) S (eip :: cs :: (flags ||| 0x20) :: ws) ∧ (m.unlockKernel lock).word lock = 0 ∧
      Mem.Frame (window lock.toNat 4 ∪ window (S + 8) 4) m.mem (m.unlockKernel lock).mem := by
  have hlen : (eip :: cs :: flags :: ws).length = ws.length + 3 := rfl
  have hi : 2 < (eip :: cs :: flags :: ws).length := Nat.lt_of_sub_pos (Nat.succ_pos _)
  have hstore : StackAt (m.setWord lock (m.word lock - 1)) S (eip :: cs :: flags :: ws) := h.setWord (by rw [hlen]; omega)
  have hload : (m.setWord lock (m.word lock - 1)).mem.load lock.toNat 4 = 0 := by
    rw [hlock]
    exact Mem.load_store_four (by decide)
  have hzero : (m.setWord lock (m.word lock - 1)).word lock = 0 := word_of_load hload
  have hflags := (hstore.get hi (n := 0x08) rfl).2
  obtain ⟨m₁, hm₁⟩ : ∃ m₁, m₁ = m.setWord lock (m.word lock - 1) := ⟨_, rfl⟩
  rw [← hm₁] at hstore hload hzero hflags
  have hunlock : m.unlockKernel lock = { m₁ with eflags := sti m₁.eflags }.setWord (m₁.esp + 0x08) (flags ||| 0x20) := by
    unfold Machine.unlockKernel
    dsimp only
    rw [← hm₁, if_pos hzero]
    exact congrArg (fun w => ({ m₁ with eflags := sti m₁.eflags } : Machine).setWord (m₁.esp + 0x08) (w ||| 0x20)) hflags
  obtain ⟨hset, hframe⟩ :=
    StackAt.set (m := { m₁ with eflags := sti m₁.eflags }) (hstore.congr rfl rfl) hi (n := 0x08) rfl (flags ||| 0x20)
  rw [hunlock]
  refine ⟨hset, word_of_load ?_, ?_⟩
  · rw [hframe.load fun x h1 h2 hin => ?_]
    · exact hload
    · have h3 := hin.1
      have h4 := hin.2
      omega
  · have hframe₁ : Mem.Frame (window lock.toNat 4) m.mem m₁.mem := by
      rw [hm₁]
      exact Mem.Frame.store_window (Nat.le_refl _) (Nat.le_refl _)
    exact (hframe₁.mono fun x hx => Or.inl hx).trans (hframe.mono fun x hx => Or.inr hx)

/-- `restore` of a task whose registers are to be found through a null `ebp`. -/
theorem restore_spec {m : Machine} {S : Nat} {lock t b c d si di bp a ds es oe eip cs flags : UInt32} {ws : List UInt32}
    (hebp : m.ebp = 0) (h : StackAt m S (t :: ([b, c, d, si, di, bp, a, ds, es] ++ oe :: eip :: cs :: flags :: ws)))
    (hlock : m.word lock = 1) (hout : lock.toNat + 4 ≤ S ∨ S + 56 + 4 * ws.length ≤ lock.toNat) (hlow : 0x1c ≤ S)
    (hlowLock : 0x1c ≤ lock.toNat) :
    (m.restore lock).eip = eip ∧ (m.restore lock).cs = cs.toUInt16 ∧
      (m.restore lock).eflags = BitVec.ofNat 32 (flags ||| 0x20).toNat ∧ (m.restore lock).mem.load lock.toNat 4 = 0 ∧
      (m.restore lock).mem.load 0x18 4 = t.toNat ∧ (m.restore lock).mem.dirty 0x18 = true ∧
      Mem.Frame (window 0x18 4 ∪ window lock.toNat 4 ∪ window (S + 52) 4) m.mem (m.restore lock).mem := by
  have haddr : (m.ebp + 0x18).toNat = 0x18 := by
    rw [hebp]
    rfl
  obtain ⟨m₁, hm₁⟩ : ∃ m₁, m₁ = (m.setWord (m.ebp + 0x18) m.top).drop 4 := ⟨_, rfl⟩
  have hmem₁ : m₁.mem = m.mem.store 0x18 4 t.toNat := by
    rw [hm₁, ← h.top, ← haddr]
    rfl
  have hstack₁ : StackAt m₁ (S + 4) ([b, c, d, si, di, bp, a, ds, es] ++ oe :: eip :: cs :: flags :: ws) := by
    rw [hm₁]
    exact (h.setWord (Or.inl (by rw [haddr]; exact hlow))).drop
  obtain ⟨hstack₂, hreq⟩ := restoreAll_spec hstack₁
  have hmem₃ : (m₁.restoreAll.drop 4).mem = m₁.mem := by
    rw [drop_mem, hreq]
  have hlock₃ : (m₁.restoreAll.drop 4).word lock = 1 := by
    unfold Machine.word at hlock ⊢
    rw [hmem₃, hmem₁, Mem.load_store_of_disjoint (Or.inr hlowLock)]
    exact hlock
  obtain ⟨hstack₄, hzero, hframe⟩ := unlockKernel_spec hstack₂.drop hlock₃ (by omega)
  obtain ⟨heip, hcs, hflags, hmem⟩ := iret_spec hstack₄
  have hto : m.restore lock = ((m₁.restoreAll.drop 4).unlockKernel lock).iret := by
    rw [hm₁]
    simp only [Machine.restore]
  rw [hmem₃, hmem₁] at hframe
  have hfirst : Mem.Frame (window 0x18 4) m.mem (m.mem.store 0x18 4 t.toNat) :=
    Mem.Frame.store_window (Nat.le_refl _) (Nat.le_refl _)
  have hlow18 : ∀ x ∈ window 0x18 4, x ∉ window lock.toNat 4 ∪ window (S + 4 + 36 + 4 + 8) 4 := by
    rintro x ⟨h1, h2⟩ (⟨h3, h4⟩ | ⟨h3, h4⟩)
    · omega
    · omega
  have hword : (m.mem.store 0x18 4 t.toNat).load 0x18 4 = t.toNat := Mem.load_store_four t.toNat_lt
  have hload : ∀ a, (((m₁.restoreAll.drop 4).unlockKernel lock).mem).load a 4 = (m.restore lock).mem.load a 4 := fun a => by
    rw [hto, hmem]
  rw [← hload, ← hload, hto, hmem]
  refine ⟨heip, hcs, hflags, ?_, ?_, ?_, ?_⟩
  · rw [← word_toNat, hzero]
    rfl
  · rw [hframe.load fun x h1 h2 => hlow18 x ⟨h1, h2⟩]
    exact hword
  · rw [(hframe 0x18 (hlow18 0x18 ⟨by decide, by decide⟩)).2, Mem.dirty_store]
    simp
  · refine (hfirst.mono fun x hx => Or.inl (Or.inl hx)).trans (hframe.mono fun x hx => ?_)
    rcases hx with hx | ⟨h1, h2⟩
    · exact Or.inl (Or.inr hx)
    · exact Or.inr ⟨by omega, by omega⟩

/-! ### The first dispatch -/

/-- The first `switch_to` into a task at `t` that `create_process` built, from the task at `prev`, with the lock held once. The
stack and the fields of the new task hold what was stored, and the memory in question lies apart. -/
structure FirstSwitch (restoreAddr lock newStack stack t func prev : UInt32) (top : Nat) (m : Machine) : Prop where
  size : 72 ≤ stack.toNat
  room : newStack.toNat + stack.toNat < 4294967296
  task : t.toNat + 0x40 ≤ 4294967296
  called : Called ⟨m, top⟩ t prev
  locked : m.word lock = 1
  image : ∃ m₀, ∀ x ∈ window (newStack.toNat + stack.toNat - 72) 72 ∪ window (t.toNat + 0x10) 12,
    m.mem.byte x = (firstStack m₀ restoreAddr newStack stack t func).byte x
  /-- `kalloc` gives out no memory below the kernel. -/
  low : 0x1c ≤ newStack.toNat ∧ 0x1c ≤ t.toNat ∧ 0x1c ≤ lock.toNat
  taskApart : t.toNat + 0x40 ≤ newStack.toNat ∨ newStack.toNat + stack.toNat ≤ t.toNat
  lockApart : lock.toNat + 4 ≤ newStack.toNat ∨ newStack.toNat + stack.toNat ≤ lock.toNat
  lockTask : lock.toNat + 4 ≤ t.toNat ∨ t.toNat + 0x40 ≤ lock.toNat
  prevApart : ∀ x ∈ region prev ⟨m, top⟩, x ∉ window newStack.toNat stack.toNat ∧ x ∉ window t.toNat 0x40 ∧ x ∉ window lock.toNat 4
  clean : ∀ x, m.mem.dirty x = false

/-- What the first dispatch is to come to: the function is reached without the lock and with interrupts on, `regs` is what was
put there for `restore` to pop, and only the memory of the two tasks and the lock has been written. -/
structure Dispatched (lock newStack stack t func prev : UInt32) (top : Nat) (m m' : Machine) : Prop where
  reached : m'.eip = func ∧ m'.cs = 0x10
  unlocked : m'.word lock = 0
  enabled : interruptFlag m'.eflags = true
  regs : m'.word (t + 0x18) = 0
  writes : ∀ x, m'.mem.dirty x = true → x ∈ window newStack.toNat stack.toNat ∨ x ∈ window t.toNat 0x40 ∨
    x ∈ window prev.toNat 0x40 ∨ (m.esp.toNat ≤ x + 40 ∧ x < top) ∨ x ∈ window lock.toNat 4

/-- The stack of the new task, and where it is, when `switch_to` goes over to it. -/
theorem FirstSwitch.saved {restoreAddr lock newStack stack t func prev : UInt32} {top : Nat} {m : Machine}
    (h : FirstSwitch restoreAddr lock newStack stack t func prev top m) {E : Nat} (hE : newStack.toNat + stack.toNat = E + 72) :
    Words m.swapArgs.saveTask.mem E (firstWords restoreAddr func) ∧ m.swapArgs.saveTask.mem.load (t.toNat + 0x10) 4 = E ∧
      m.swapArgs.saveTask.mem.load (t.toNat + 0x18) 4 = E + 12 ∧ m.swapArgs.saveTask.mem.load lock.toNat 4 = 1 := by
  have hsize := h.size
  have htaskApart := h.taskApart
  obtain ⟨m₀, himage⟩ := h.image
  have hE' : newStack.toNat + stack.toNat - 72 = E := by omega
  rw [hE'] at himage
  obtain ⟨hwords, hesp, hregs⟩ := @firstStack_spec m₀ restoreAddr newStack stack t func E h.room h.task hE (by omega)
  obtain ⟨-, hframe, -⟩ := saveTask_spec h.called
  have hbyte : ∀ x ∈ window E 72 ∪ window (t.toNat + 0x10) 12,
      m.swapArgs.saveTask.mem.byte x = (firstStack m₀ restoreAddr newStack stack t func).byte x := by
    intro x hx
    rw [(hframe x fun hin => ?_).1]
    · exact himage x hx
    · obtain ⟨hs, ht, -⟩ := h.prevApart x hin
      rcases hx with ⟨h1, h2⟩ | ⟨h1, h2⟩
      · exact hs ⟨by omega, by omega⟩
      · exact ht ⟨by omega, by omega⟩
  have hlock := word_toNat m lock
  rw [h.locked] at hlock
  refine ⟨hwords.congr fun x h1 h2 => hbyte x (Or.inl ⟨h1, h2⟩), ?_, ?_, ?_⟩
  · rw [Mem.load_congr fun x h1 h2 => hbyte x (Or.inr ⟨h1, by omega⟩)]
    exact hesp
  · rw [Mem.load_congr fun x h1 h2 => hbyte x (Or.inr ⟨by omega, by omega⟩)]
    exact hregs
  · rw [hframe.load fun x h1 h2 hin => (h.prevApart x hin).2.2 ⟨h1, h2⟩]
    exact hlock.symm

/-- What the first dispatch comes to. -/
theorem dispatch_spec {restoreAddr lock newStack stack t func prev : UInt32} {top : Nat} {m : Machine}
    (h : FirstSwitch restoreAddr lock newStack stack t func prev top m) :
    (m.dispatch restoreAddr lock).eip = func ∧ (m.dispatch restoreAddr lock).cs = 0x10 ∧
      (m.dispatch restoreAddr lock).eflags = 0x32#32 ∧ (m.dispatch restoreAddr lock).mem.load lock.toNat 4 = 0 ∧
      (m.dispatch restoreAddr lock).mem.load (t.toNat + 0x18) 4 = newStack.toNat + stack.toNat - 60 ∧
      (m.dispatch restoreAddr lock).mem.load 0x18 4 = t.toNat ∧ (m.dispatch restoreAddr lock).mem.dirty 0x18 = true := by
  have hsize := h.size
  have hroom := h.room
  have htaskApart := h.taskApart
  have hlockApart := h.lockApart
  have hlockTask := h.lockTask
  obtain ⟨hlow, hlowTask, hlowLock⟩ := h.low
  obtain ⟨E, hE⟩ : ∃ E, newStack.toNat + stack.toNat = E + 72 := ⟨newStack.toNat + stack.toNat - 72, by omega⟩
  obtain ⟨hwords, hesp, hregs, hlock⟩ := h.saved hE
  obtain ⟨-, -, hebp⟩ := saveTask_spec h.called
  have hne : t ≠ prev := by
    rintro rfl
    exact (h.prevApart (t.toNat + 0x10) (Or.inr ⟨Nat.le_refl _, by omega⟩)).2.1 ⟨by omega, by omega⟩
  have hroom : E + 4 * ([0, 0, 0, 0, 0, 0, 0x18, 0x18, 0, func, 0x10, 0x12, 0, 0].length + 4) < 4294967296 := by
    simp only [List.length_cons, List.length_nil]
    omega
  obtain ⟨heip, hebp₀, hstack, hframe⟩ := resume_new hebp h.task hesp hwords hroom
  have hto := switchTo_eq_resume h.called hne
  dsimp only at hebp hto
  rw [← hto] at heip hebp₀ hstack hframe
  have hlock₁ : m.switchTo.word lock = 1 := by
    refine word_of_load ?_
    rw [hframe.load fun x h1 h2 hin => ?_]
    · exact hlock
    · obtain ⟨h3, h4⟩ := hin
      omega
  have hout : lock.toNat + 4 ≤ E + 8 ∨ E + 8 + 56 + 4 * ([0, 0] : List UInt32).length ≤ lock.toNat := by
    simp only [List.length_cons, List.length_nil]
    omega
  obtain ⟨heip', hcs, hflags, hunlocked, h18, hdirty, hframe'⟩ := restore_spec hebp₀ hstack hlock₁ hout (by omega) hlowLock
  have hdispatch : m.dispatch restoreAddr lock = m.switchTo.restore lock := by
    unfold Machine.dispatch
    dsimp only
    exact if_pos heip
  rw [hdispatch]
  refine ⟨heip', hcs, hflags, hunlocked, ?_, h18, hdirty⟩
  rw [hframe'.load fun x h1 h2 hin => ?_, hframe.load fun x h1 h2 hin => ?_, hregs]
  · omega
  · obtain ⟨h3, h4⟩ := hin
    omega
  · rcases hin with (⟨h3, h4⟩ | ⟨h3, h4⟩) | ⟨h3, h4⟩
    · omega
    · omega
    · omega

/-- The first dispatch never does what it is to do: the function runs with interrupts off. -/
theorem first_dispatch_never {restoreAddr lock newStack stack t func prev : UInt32} {top : Nat} {m : Machine}
    (h : FirstSwitch restoreAddr lock newStack stack t func prev top m) :
    ¬Dispatched lock newStack stack t func prev top m (m.dispatch restoreAddr lock) := by
  intro hd
  have hflags := (dispatch_spec h).2.2.1
  have hon := hd.enabled
  rw [hflags] at hon
  exact absurd hon (by decide)

/-- A task at `0x202000` calls `switch_to` for one just created at `0x201000`. -/
def firstSwitchMachine : Machine :=
  let zero : Mem := ⟨fun _ => 0, fun _ => false⟩
  let image := firstStack zero 0x100100 0x200000 1024 0x201000 0x100200
  { eax := 0, ebx := 0, ecx := 0, edx := 0, esi := 0, edi := 0, ebp := 0, esp := 0x203000, eip := 0, cs := 0x10, ds := 0x18, es := 0x18,
    ss := 0x18, eflags := 0,
    mem := (((image.store 0x203004 4 0x201000).store 0x203008 4 0x202000).store 0x100000 4 1).clean }

theorem firstSwitchMachine_spec :
    FirstSwitch 0x100100 0x100000 0x200000 1024 0x201000 0x100200 0x202000 0x203100 firstSwitchMachine := by
  have htop : firstSwitchMachine.mem.load 0x203000 4 = firstSwitchMachine.top.toNat := (word_toNat firstSwitchMachine 0x203000).symm
  have hnext : firstSwitchMachine.mem.load 0x203004 4 = 0x201000 := by
    unfold firstSwitchMachine
    dsimp only
    rw [Mem.load_clean, Mem.load_store_of_disjoint (by decide), Mem.load_store_of_disjoint (by decide), Mem.load_store_four (by decide)]
  have hprev : firstSwitchMachine.mem.load 0x203008 4 = 0x202000 := by
    unfold firstSwitchMachine
    dsimp only
    rw [Mem.load_clean, Mem.load_store_of_disjoint (by decide), Mem.load_store_four (by decide)]
  have hlock : firstSwitchMachine.mem.load 0x100000 4 = 1 := by
    unfold firstSwitchMachine
    dsimp only
    rw [Mem.load_clean, Mem.load_store_four (by decide)]
  have hstack : StackAt firstSwitchMachine 0x203000 [firstSwitchMachine.top, 0x201000, 0x202000] :=
    ⟨rfl, ⟨htop, hnext, hprev, trivial⟩, by decide⟩
  refine ⟨by decide, by decide, by decide, ⟨hstack, by decide, by decide, by decide, by decide⟩, word_of_load hlock,
    ⟨⟨fun _ => 0, fun _ => false⟩, fun x hx => ?_⟩, by decide, by decide, by decide, by decide, fun x hx => ?_, fun _ => rfl⟩
  · have hwin : (0x2003b8 ≤ x ∧ x < 0x200400) ∨ (0x201010 ≤ x ∧ x < 0x20101c) := hx
    unfold firstSwitchMachine
    dsimp only
    rw [Mem.byte_clean, Mem.byte_store_of_outside (by omega), Mem.byte_store_of_outside (by omega), Mem.byte_store_of_outside (by omega)]
  · have hreg : (0x203000 ≤ x + 40 ∧ x < 0x203100) ∨ (0x202010 ≤ x ∧ x < 0x202016) := hx
    refine ⟨?_, ?_, ?_⟩
    · rintro ⟨-, h2⟩
      have h2' : x < 0x200400 := h2
      omega
    · rintro ⟨-, h2⟩
      have h2' : x < 0x201040 := h2
      omega
    · rintro ⟨-, h2⟩
      have h2' : x < 0x100004 := h2
      omega

/-- Here it runs with interrupts off. -/
theorem first_dispatch_never_1k : ¬Dispatched 0x100000 0x200000 1024 0x201000 0x100200 0x202000 0x203100 firstSwitchMachine
    (firstSwitchMachine.dispatch 0x100100 0x100000) :=
  first_dispatch_never firstSwitchMachine_spec

/-- The first dispatch does not always do what it is to do. -/
theorem first_dispatch_false : ¬∀ (restoreAddr lock newStack stack t func prev : UInt32) (top : Nat) (m : Machine),
    FirstSwitch restoreAddr lock newStack stack t func prev top m →
      Dispatched lock newStack stack t func prev top m (m.dispatch restoreAddr lock) := by
  intro h
  have hon := (h _ _ _ _ _ _ _ _ _ firstSwitchMachine_spec).enabled
  rw [(dispatch_spec firstSwitchMachine_spec).2.2.1] at hon
  exact absurd hon (by decide)

end BootPerl
