import BootPerl.Theorems.FirstDispatch
import BootPerl.Trap

/-!
# Traps are transparent

A trap saves the registers of what it interrupts on its stack, and the way back loads them again. In between runs code of the
kernel that may itself be interrupted, trap, or give up the processor, to any depth: each such piece leaves the stack above it and
the `regs` of the task as it found them, so the handler reads its own frame through `current->regs` all along.
-/

namespace BootPerl

open Machine

/-- The stack of the current task, from `low` up to `top`, with the words beside it that the entries use. -/
structure TaskStack where
  symbols : Symbols
  task : UInt32
  low : Nat
  top : Nat
  bounded : top < 4294967296
  taskBounded : task.toNat + 0x40 ≤ 4294967296
  currentApart : symbols.current.toNat + 4 ≤ low ∨ top ≤ symbols.current.toNat
  lockApart : symbols.kernelLock.toNat + 4 ≤ low ∨ top ≤ symbols.kernelLock.toNat
  regsApart : task.toNat + 0x1c ≤ low ∨ top ≤ task.toNat + 0x18
  currentLock : symbols.current.toNat + 4 ≤ symbols.kernelLock.toNat ∨ symbols.kernelLock.toNat + 4 ≤ symbols.current.toNat
  currentRegs : symbols.current.toNat + 4 ≤ task.toNat + 0x18 ∨ task.toNat + 0x1c ≤ symbols.current.toNat
  lockRegs : symbols.kernelLock.toNat + 4 ≤ task.toNat + 0x18 ∨ task.toNat + 0x1c ≤ symbols.kernelLock.toNat

variable {k : TaskStack}

/-- What a piece of code leaves as it found it: the stack above it, which task is current, and the `regs` of this task. -/
structure Restores (k : TaskStack) (m m' : Machine) : Prop where
  esp : m'.esp = m.esp
  ss : m'.ss = m.ss
  stack : ∀ x, m.esp.toNat ≤ x → x < k.top → m'.mem.byte x = m.mem.byte x
  current : m'.mem.load k.symbols.current.toNat 4 = m.mem.load k.symbols.current.toNat 4
  regs : m'.mem.load (k.task.toNat + 0x18) 4 = m.mem.load (k.task.toNat + 0x18) 4

theorem Restores.refl (k : TaskStack) (m : Machine) : Restores k m m := ⟨rfl, rfl, fun _ _ _ => rfl, rfl, rfl⟩

theorem Restores.trans {m m' m'' : Machine} (h : Restores k m m') (h' : Restores k m' m'') : Restores k m m'' := by
  refine ⟨h'.esp.trans h.esp, h'.ss.trans h.ss, fun x h1 h2 => ?_, h'.current.trans h.current, h'.regs.trans h.regs⟩
  rw [h'.stack x (by rw [h.esp]; exact h1) h2, h.stack x h1 h2]

/-- The words on the stack stay. -/
theorem Restores.stackAt {m m' : Machine} (h : Restores k m m') {S : Nat} {ws : List UInt32} (hs : StackAt m S ws)
    (htop : S + 4 * ws.length ≤ k.top) : StackAt m' S ws := by
  refine ⟨by rw [h.esp, hs.esp], hs.words.congr fun x h1 h2 => h.stack x ?_ ?_, hs.room⟩
  · rw [hs.esp]
    exact h1
  · exact Nat.lt_of_lt_of_le h2 htop

/-- What `schedule`, called with the old current task in `ebp`, comes back with. -/
structure ComesBack (k : TaskStack) (schedule : Machine → Machine) (m : Machine) : Prop where
  keeps : Restores k m (schedule { m with ebp := m.word k.symbols.current })
  ebp : (schedule { m with ebp := m.word k.symbols.current }).ebp = m.word k.symbols.current

/-- Code of the kernel, with the traps and the system calls it is interrupted by, to any depth. -/
inductive Runs (k : TaskStack) : Machine → Machine → Prop where
  | code {m m' : Machine} : Restores k m m' → Runs k m m'
  | append {m m' m'' : Machine} : Runs k m m' → Runs k m' m'' → Runs k m m''
  | trap {m m' : Machine} {entry origEax : UInt32} {schedule : Machine → Machine} : k.low + 56 ≤ m.esp.toNat →
      Runs k ((m.interrupt entry).enter k.symbols origEax) m' → ComesBack k schedule m' →
      Runs k m (m'.retFromIntr k.symbols schedule)
  | syscall {m m' : Machine} {entry retval : UInt32} {schedule : Machine → Machine} : k.low + 56 ≤ m.esp.toNat →
      Runs k ((m.interrupt entry).syscall k.symbols) m' → ComesBack k schedule (m'.setResult k.symbols retval) →
      Runs k m ((m'.setResult k.symbols retval).retFromIntr k.symbols schedule)

/-- What was interrupted goes on as if nothing had happened, but for bit 5 of the flags. -/
structure Resumed (k : TaskStack) (m m' : Machine) : Prop where
  eip : m'.eip = m.eip
  cs : m'.cs = m.cs
  eflags : m'.eflags ||| 0x20#32 = m.eflags ||| 0x20#32
  regs : m'.regs = m.regs
  keeps : Restores k m m'

/-! ## The way in -/

/-- The processor pushes three words. -/
theorem interrupt_spec {m : Machine} {S : Nat} {ws : List UInt32} (h : StackAt m (S + 12) ws) (entry : UInt32) :
    StackAt (m.interrupt entry) S (m.eip :: m.cs.toUInt32 :: UInt32.ofBitVec m.eflags :: ws) ∧
      Mem.Frame (window S 12) m.mem (m.interrupt entry).mem := by
  obtain ⟨hstack, hframe⟩ := StackAt.pushAll (S := S) [UInt32.ofBitVec m.eflags, m.cs.toUInt32, m.eip] h
  exact ⟨hstack.congr rfl rfl, hframe⟩

/-- The processor and the push of `orig_eax` leave the registers that `SAVE_ALL` saves, and the selector of the stack. -/
theorem interrupt_saved (m : Machine) (entry v : UInt32) : ((m.interrupt entry).push v).saved = m.saved := by
  simp only [saved, interrupt, push]

theorem interrupt_ss (m : Machine) (entry v : UInt32) : ((m.interrupt entry).push v).ss = m.ss := by
  simp only [interrupt, push]

theorem lockKernel_ss (lock : UInt32) (m : Machine) : (m.lockKernel lock).ss = m.ss := by
  simp only [Machine.lockKernel, setWord]

theorem saveRegs_ss (current : UInt32) (m : Machine) : (m.saveRegs current).ss = m.ss := by
  simp only [saveRegs, setWord, push]

theorem lockKernel_mem (lock : UInt32) (m : Machine) :
    (m.lockKernel lock).mem = m.mem.store lock.toNat 4 (m.word lock + 1).toNat := rfl

/-- `SAVE_REGS` pushes the old `regs` of the current task, and makes it point above. -/
theorem saveRegs_spec {m : Machine} {S : Nat} {ws : List UInt32} {current task : UInt32} (h : StackAt m (S + 4) ws)
    (hcur : m.mem.load current.toNat 4 = task.toNat) (htask : task.toNat + 0x40 ≤ 4294967296)
    (hout : task.toNat + 0x1c ≤ S ∨ S + 4 + 4 * ws.length ≤ task.toNat + 0x18) :
    ∃ old : UInt32, m.mem.load (task.toNat + 0x18) 4 = old.toNat ∧ StackAt (m.saveRegs current) S (old :: ws) ∧
      (m.saveRegs current).mem.load (task.toNat + 0x18) 4 = S + 4 ∧
      Mem.Frame (window S 4 ∪ window (task.toNat + 0x18) 4) m.mem (m.saveRegs current).mem := by
  have hword : m.word current = task := word_of_load hcur
  have h18 : (task + 0x18).toNat = task.toNat + 0x18 := toNat_add (Nat.lt_of_lt_of_le (Nat.add_lt_add_left (by decide) _) htask)
  obtain ⟨m₁, hm₁⟩ : ∃ m₁ : Machine, m₁ = { m with ebp := task } := ⟨_, rfl⟩
  obtain ⟨old, hold⟩ : ∃ old, old = m₁.word (task + 0x18) := ⟨_, rfl⟩
  have hstack₁ : StackAt m₁ (S + 4) ws := h.congr (by rw [hm₁]) (by rw [hm₁])
  obtain ⟨hpush, hframe⟩ := hstack₁.push old
  have hroom := h.room
  have hlen : (old :: ws).length = ws.length + 1 := rfl
  have hone : (m₁.push old).esp.toNat = S := hpush.esp
  have hset₁ : StackAt ((m₁.push old).setWord (task + 0x18) (m₁.push old).esp) S (old :: ws) :=
    hpush.setWord (by rw [h18, hlen]; omega)
  obtain ⟨m₂, hm₂⟩ : ∃ m₂, m₂ = (m₁.push old).setWord (task + 0x18) (m₁.push old).esp := ⟨_, rfl⟩
  rw [← hm₂] at hset₁
  have hmem₂ : m₂.mem = (m₁.push old).mem.store (task.toNat + 0x18) 4 S := by
    rw [hm₂, ← h18, ← hone]
    rfl
  have hptr : m₂.word (task + 0x18) = (m₁.push old).esp := by
    refine word_of_load ?_
    rw [hmem₂, h18, hone, Mem.load_store_four (by omega)]
  have hset₂ : StackAt (m₂.setWord (task + 0x18) (m₂.word (task + 0x18) + 0x4)) S (old :: ws) :=
    hset₁.setWord (by rw [h18, hlen]; omega)
  have hfour : (m₂.word (task + 0x18) + 0x4).toNat = S + 4 := by
    have h4 : (0x4 : UInt32).toNat = 4 := rfl
    rw [hptr, toNat_add (by rw [hone, h4]; omega), hone, h4]
  have hto : m.saveRegs current = m₂.setWord (task + 0x18) (m₂.word (task + 0x18) + 0x4) := by
    rw [hm₂, hold, hm₁, ← hword]
    rfl
  have hmem : (m.saveRegs current).mem = m₂.mem.store (task.toNat + 0x18) 4 (S + 4) := by
    rw [hto, ← h18, ← hfour]
    rfl
  have hregs : ∀ {mem : Mem} {v : Nat}, Mem.Frame (window (task.toNat + 0x18) 4) mem (mem.store (task.toNat + 0x18) 4 v) :=
    Mem.Frame.store_window (Nat.le_refl _) (Nat.le_refl _)
  have hpushed : Mem.Frame (window S 4) m.mem (m₁.push old).mem := by
    rw [hm₁] at hframe ⊢
    exact hframe
  refine ⟨old, ?_, ?_, ?_, ?_⟩
  · rw [hold, word_toNat, h18, hm₁]
  · rw [hto]
    exact hset₂
  · rw [hmem, Mem.load_store_four (by omega)]
  · rw [hmem, hmem₂]
    exact (hpushed.mono fun x hx => Or.inl hx).trans ((hregs.trans hregs).mono fun x hx => Or.inr hx)

/-- What a trap leaves on the stack, from the top: the old `regs` of the task, the registers, `orig_eax`, and what the processor
pushed. -/
def frameWords (m : Machine) (old origEax : UInt32) : List UInt32 :=
  old :: (m.saved ++ [origEax, m.eip, m.cs.toUInt32, UInt32.ofBitVec m.eflags])

/-- In the handler of a trap that interrupted `m`: its frame is on the stack, and it is the `regs` of the current task. -/
structure InHandler (k : TaskStack) (m : Machine) (origEax : UInt32) (m' : Machine) : Prop where
  room : k.low + 56 ≤ m.esp.toNat
  below : m.esp.toNat ≤ k.top
  current : m'.mem.load k.symbols.current.toNat 4 = k.task.toNat
  frame : ∃ old : UInt32, m.mem.load (k.task.toNat + 0x18) 4 = old.toNat ∧
    StackAt m' (m.esp.toNat - 56) (frameWords m old origEax)
  regs : m'.mem.load (k.task.toNat + 0x18) 4 = m.esp.toNat - 52
  interrupted : m.mem.load k.symbols.current.toNat 4 = k.task.toNat
  stack : ∀ x, m.esp.toNat ≤ x → x < k.top → m'.mem.byte x = m.mem.byte x
  ss : m'.ss = m.ss

theorem enter_spec {m : Machine} (hroom : k.low + 56 ≤ m.esp.toNat) (htop : m.esp.toNat ≤ k.top)
    (hcur : m.mem.load k.symbols.current.toNat 4 = k.task.toNat) (entry origEax : UInt32) :
    InHandler k m origEax ((m.interrupt entry).enter k.symbols origEax) := by
  obtain ⟨S, hS⟩ : ∃ S, m.esp.toNat = S + 56 := ⟨m.esp.toNat - 56, by omega⟩
  have hbounded := k.bounded
  have hlockApart := k.lockApart
  have hregsApart := k.regsApart
  have hcurrentApart := k.currentApart
  have hcurrentLock := k.currentLock
  have hcurrentRegs := k.currentRegs
  have hlockRegs := k.lockRegs
  have hstack : StackAt m (S + 56) [] := ⟨hS, trivial, by rw [List.length_nil]; omega⟩
  obtain ⟨hint, hframe₁⟩ := interrupt_spec hstack entry
  obtain ⟨horig, hframe₂⟩ := hint.push origEax
  obtain ⟨hsave, hframe₃⟩ := saveAll_spec (S := S + 4) horig
  obtain ⟨A, hA⟩ : ∃ A, A = ((m.interrupt entry).push origEax).saveAll := ⟨_, rfl⟩
  obtain ⟨ws, hws⟩ : ∃ ws, ws = m.saved ++ [origEax, m.eip, m.cs.toUInt32, UInt32.ofBitVec m.eflags] := ⟨_, rfl⟩
  have hsaved : StackAt A (S + 4) ws := by
    rw [hA, hws, ← interrupt_saved m entry origEax]
    exact hsave
  have hlen : ws.length = 13 := by
    rw [hws]
    rfl
  -- the lock lies off the stack
  have hlocked : StackAt (A.lockKernel k.symbols.kernelLock) (S + 4) ws := by
    have hflags : StackAt { A with eflags := cli A.eflags } (S + 4) ws := hsaved.congr rfl rfl
    exact hflags.setWord (by rw [hlen]; omega)
  have hpushed : Mem.Frame (window (S + 4) 52) m.mem A.mem := by
    rw [hA]
    refine ((hframe₁.mono fun x hx => ?_).trans (hframe₂.mono fun x hx => ?_)).trans (hframe₃.mono fun x hx => ?_)
    all_goals
      have h1 := hx.1
      have h2 := hx.2
      exact ⟨by omega, by omega⟩
  have hlockFrame : Mem.Frame (window k.symbols.kernelLock.toNat 4) A.mem (A.lockKernel k.symbols.kernelLock).mem := by
    rw [lockKernel_mem]
    exact Mem.Frame.store_window (Nat.le_refl _) (Nat.le_refl _)
  have hframe : Mem.Frame (window (S + 4) 52 ∪ window k.symbols.kernelLock.toNat 4) m.mem
      (A.lockKernel k.symbols.kernelLock).mem :=
    (hpushed.mono fun x hx => Or.inl hx).trans (hlockFrame.mono fun x hx => Or.inr hx)
  have hcurrent : (A.lockKernel k.symbols.kernelLock).mem.load k.symbols.current.toNat 4 = k.task.toNat := by
    rw [hframe.load fun x h1 h2 hin => ?_, hcur]
    rcases hin with ⟨h3, h4⟩ | ⟨h3, h4⟩
    · omega
    · omega
  obtain ⟨old, hold, hregs, hptr, hframe'⟩ := saveRegs_spec hlocked hcurrent k.taskBounded (by rw [hlen]; omega)
  have hto : (m.interrupt entry).enter k.symbols origEax = (A.lockKernel k.symbols.kernelLock).saveRegs k.symbols.current := by
    rw [hA]
    rfl
  have hold' : m.mem.load (k.task.toNat + 0x18) 4 = old.toNat := by
    rw [← hold, hframe.load fun x h1 h2 hin => ?_]
    rcases hin with ⟨h3, h4⟩ | ⟨h3, h4⟩
    · omega
    · omega
  have hall := (hframe.mono fun x hx => Or.inl hx).trans (hframe'.mono fun x hx => Or.inr hx)
  rw [hto]
  refine ⟨hroom, htop, ?_, ⟨old, hold', ?_⟩, ?_, hcur, fun x h1 h2 => (hall x fun hin => ?_).1, ?_⟩
  · rw [hframe'.load fun x h1 h2 hin => ?_, hcurrent]
    rcases hin with ⟨h3, h4⟩ | ⟨h3, h4⟩
    · omega
    · omega
  · rw [hS, Nat.add_sub_cancel]
    rw [hws] at hregs
    exact hregs
  · rw [hptr]
    omega
  · rcases hin with (⟨h3, h4⟩ | ⟨h3, h4⟩) | (⟨h3, h4⟩ | ⟨h3, h4⟩)
    · omega
    · omega
    · omega
    · omega
  · rw [saveRegs_ss, lockKernel_ss, hA, saveAll_eq]
    exact interrupt_ss m entry origEax

/-! ## In the handler -/

theorem frameWords_length (m : Machine) (old origEax : UInt32) : (frameWords m old origEax).length = 14 := rfl

theorem InHandler.esp_eq {m m₁ : Machine} {origEax : UInt32} (h : InHandler k m origEax m₁) :
    m₁.esp.toNat = m.esp.toNat - 56 := by
  obtain ⟨old, -, hstack⟩ := h.frame
  exact hstack.esp

theorem InHandler.esp_le {m m₁ : Machine} {origEax : UInt32} (h : InHandler k m origEax m₁) : m₁.esp.toNat ≤ k.top := by
  rw [h.esp_eq]
  exact Nat.le_trans (Nat.sub_le _ _) h.below

/-- Code that leaves the stack and `regs` as it found them is still in the handler. -/
theorem InHandler.keeps {m m₁ m₂ : Machine} {origEax : UInt32} (h : InHandler k m origEax m₁) (hk : Restores k m₁ m₂) :
    InHandler k m origEax m₂ := by
  obtain ⟨old, hold, hstack⟩ := h.frame
  have hroom := h.room
  have hbelow := h.below
  refine ⟨hroom, hbelow, hk.current.trans h.current, ⟨old, hold, hk.stackAt hstack ?_⟩, hk.regs.trans h.regs, h.interrupted,
    fun x h1 h2 => ?_, hk.ss.trans h.ss⟩
  · rw [frameWords_length]
    omega
  · rw [hk.stack x (by rw [hstack.esp]; omega) h2, h.stack x h1 h2]

/-- The address of the frame, read through `current->regs`. -/
theorem regs_word {m : Machine} {S : Nat} (hcur : m.mem.load k.symbols.current.toNat 4 = k.task.toNat)
    (hregs : m.mem.load (k.task.toNat + 0x18) 4 = S) : (m.word (m.word k.symbols.current + 0x18)).toNat = S := by
  have hcurrent : m.word k.symbols.current = k.task := word_of_load hcur
  have h18 : (k.task + 0x18).toNat = k.task.toNat + 0x18 :=
    toNat_add (Nat.lt_of_lt_of_le (Nat.add_lt_add_left (by decide) _) k.taskBounded)
  rw [hcurrent, word_toNat, h18, hregs]

/-- The handler reads the word pushed for `orig_eax` through `current->regs`. -/
theorem InHandler.origEax_word {m m₁ : Machine} {origEax : UInt32} (h : InHandler k m origEax m₁) :
    m₁.word (m₁.word (m₁.word k.symbols.current + 0x18) + 0x24) = origEax := by
  obtain ⟨old, -, hframe⟩ := h.frame
  have hroom := h.room
  have hbelow := h.below
  have hbounded := k.bounded
  have hregs := regs_word h.current h.regs
  refine word_of_load ?_
  have h24 : (0x24 : UInt32).toNat = 36 := rfl
  have haddr : (m₁.word (m₁.word k.symbols.current + 0x18) + 0x24).toNat = m.esp.toNat - 56 + 4 * 10 := by
    rw [toNat_add (by omega), hregs]
    omega
  rw [haddr]
  exact hframe.words.get (by rw [frameWords_length]; decide)

/-- A store to one of the words of the stack. -/
theorem Machine.StackAt.setWord_get {m : Machine} {S : Nat} {ws : List UInt32} (h : StackAt m S ws) {i : Nat} (hi : i < ws.length)
    {a : UInt32} (ha : a.toNat = S + 4 * i) (v : UInt32) :
    StackAt (m.setWord a v) S (ws.set i v) ∧ Mem.Frame (window (S + 4 * i) 4) m.mem (m.setWord a v).mem := by
  have hmem : (m.setWord a v).mem = m.mem.store (S + 4 * i) 4 v.toNat := by
    rw [← ha]
    rfl
  rw [hmem]
  refine ⟨⟨h.esp, ?_, by rw [List.length_set]; exact h.room⟩, Mem.Frame.store_window (Nat.le_refl _) (Nat.le_refl _)⟩
  rw [hmem]
  exact h.words.set v hi

/-- The handler of a system call sets what is to be loaded into `eax`. -/
theorem InHandler.setResult {m m₁ : Machine} {origEax : UInt32} (h : InHandler k m origEax m₁) (retval : UInt32) :
    InHandler k { m with eax := retval } retval (m₁.setResult k.symbols retval) := by
  obtain ⟨old, hold, hstack⟩ := h.frame
  have hroom := h.room
  have hbelow := h.below
  have hbounded := k.bounded
  have hcurrentApart := k.currentApart
  have hregsApart := k.regsApart
  have hlen := frameWords_length m old origEax
  have hrest : ∀ {i : Nat} {m₂ m₃ : Machine}, i < 14 → Mem.Frame (window (m.esp.toNat - 56 + 4 * i) 4) m₂.mem m₃.mem →
      m₃.mem.load k.symbols.current.toNat 4 = m₂.mem.load k.symbols.current.toNat 4 ∧
        m₃.mem.load (k.task.toNat + 0x18) 4 = m₂.mem.load (k.task.toNat + 0x18) 4 ∧
        ∀ x, m.esp.toNat ≤ x → m₃.mem.byte x = m₂.mem.byte x := by
    intro i m₂ m₃ hi hframe
    refine ⟨hframe.load fun x h1 h2 hin => ?_, hframe.load fun x h1 h2 hin => ?_, fun x h1 => (hframe x fun hin => ?_).1⟩
    all_goals
      have h3 := hin.1
      have h4 := hin.2
      omega
  have hfield : ∀ {r n : UInt32} {i : Nat}, r.toNat = m.esp.toNat - 52 → 4 + n.toNat = 4 * i → i < 14 →
      (r + n).toNat = m.esp.toNat - 56 + 4 * i := by
    intro r n i hr hn hi
    rw [toNat_add (by omega), hr]
    omega
  obtain ⟨R, hR⟩ : ∃ R, R = m₁.word (m₁.word k.symbols.current + 0x18) := ⟨_, rfl⟩
  have hRnat : R.toNat = m.esp.toNat - 52 := by
    rw [hR]
    exact regs_word h.current h.regs
  obtain ⟨hset, hframe⟩ := hstack.setWord_get (i := 7) (by rw [hlen]; decide) (hfield (n := 0x18) hRnat rfl (by decide)) retval
  obtain ⟨hcurrent, hregs, hbytes⟩ := hrest (by decide) hframe
  have hR' : (m₁.setWord (R + 0x18) retval).word ((m₁.setWord (R + 0x18) retval).word k.symbols.current + 0x18) = R := by
    refine UInt32.toNat_inj.1 ?_
    rw [regs_word (hcurrent.trans h.current) (hregs.trans h.regs), hRnat]
  obtain ⟨hset', hframe'⟩ := hset.setWord_get (i := 10) (by rw [List.length_set, hlen]; decide)
    (hfield (n := 0x24) hRnat rfl (by decide)) retval
  obtain ⟨hcurrent', hregs', hbytes'⟩ := hrest (by decide) hframe'
  have hto : m₁.setResult k.symbols retval = (m₁.setWord (R + 0x18) retval).setWord (R + 0x24) retval := by
    unfold Machine.setResult
    dsimp only
    rw [← hR, hR']
  have hwords : ((frameWords m old origEax).set 7 retval).set 10 retval = frameWords { m with eax := retval } old retval := by
    simp [frameWords, saved]
  rw [hto]
  rw [hwords] at hset'
  refine ⟨hroom, hbelow, ?_, ⟨old, hold, hset'⟩, ?_, h.interrupted, fun x h1 h2 => ?_, h.ss⟩
  · rw [hcurrent', hcurrent, h.current]
  · rw [hregs', hregs, h.regs]
  · rw [hbytes' x h1, hbytes x h1, h.stack x h1 h2]

/-! ## The way back -/

/-- `UNLOCK_KERNEL` writes the lock, and at most bit 5 of the flags for `iret`. -/
theorem unlockKernel_flags (lock : UInt32) {m : Machine} {S : Nat} {eip cs flags : UInt32} {ws : List UInt32}
    (h : StackAt m S (eip :: cs :: flags :: ws)) (hout : lock.toNat + 4 ≤ S ∨ S + 12 + 4 * ws.length ≤ lock.toNat) :
    ∃ flags', (flags' = flags ∨ flags' = flags ||| 0x20) ∧ StackAt (m.unlockKernel lock) S (eip :: cs :: flags' :: ws) ∧
      Mem.Frame (window lock.toNat 4 ∪ window (S + 8) 4) m.mem (m.unlockKernel lock).mem ∧
      (m.unlockKernel lock).regs = m.regs := by
  have hlen : (eip :: cs :: flags :: ws).length = ws.length + 3 := rfl
  have hi : 2 < (eip :: cs :: flags :: ws).length := Nat.lt_of_sub_pos (Nat.succ_pos _)
  obtain ⟨m₁, hm₁⟩ : ∃ m₁, m₁ = m.setWord lock (m.word lock - 1) := ⟨_, rfl⟩
  have hstore : StackAt m₁ S (eip :: cs :: flags :: ws) := by
    rw [hm₁]
    exact h.setWord (by rw [hlen]; omega)
  have hframe : Mem.Frame (window lock.toNat 4) m.mem m₁.mem := by
    rw [hm₁]
    exact Mem.Frame.store_window (Nat.le_refl _) (Nat.le_refl _)
  have hregs : m₁.regs = m.regs := by
    rw [hm₁]
    rfl
  have hto : m.unlockKernel lock = if m₁.word lock = 0 then
      { m₁ with eflags := sti m₁.eflags }.setWord (m₁.esp + 0x08) (m₁.word (m₁.esp + 0x08) ||| 0x20) else m₁ := by
    rw [hm₁]
    rfl
  rw [hto]
  split
  · obtain ⟨hset, hframe'⟩ :=
      StackAt.set (m := { m₁ with eflags := sti m₁.eflags }) (hstore.congr rfl rfl) hi (n := 0x08) rfl (flags ||| 0x20)
    rw [(hstore.get hi (n := 0x08) rfl).2]
    exact ⟨flags ||| 0x20, Or.inr rfl, hset, (hframe.mono fun x hx => Or.inl hx).trans (hframe'.mono fun x hx => Or.inr hx), hregs⟩
  · exact ⟨flags, Or.inl rfl, hstore, hframe.mono fun x hx => Or.inl hx, hregs⟩

theorem iret_regs (m : Machine) : m.iret.regs = m.regs := by
  simp only [iret, drop, regs]

theorem iret_esp (m : Machine) : m.iret.esp = m.esp + 12 := rfl

theorem drop_regs (m : Machine) (n : UInt32) : (m.drop n).regs = m.regs := by
  simp only [drop, regs]

/-- `restore` gives the task its old `regs` back and loads what the trap saved. -/
theorem restore_returns (lock : UInt32) {m : Machine} {S : Nat} {task old b c d si di bp a ds es oe eip cs flags : UInt32}
    (hebp : m.ebp = task)
    (h : StackAt m S (old :: ([b, c, d, si, di, bp, a, ds, es] ++ [oe, eip, cs, flags])))
    (htask : task.toNat + 0x40 ≤ 4294967296) (hout : task.toNat + 0x1c ≤ S ∨ S + 56 ≤ task.toNat + 0x18)
    (hlock : lock.toNat + 4 ≤ S ∨ S + 56 ≤ lock.toNat) (hroom : S + 56 < 4294967296)
    (hapart : lock.toNat + 4 ≤ task.toNat + 0x18 ∨ task.toNat + 0x1c ≤ lock.toNat) :
    (m.restore lock).eip = eip ∧ (m.restore lock).cs = cs.toUInt16 ∧
      (∃ flags', (flags' = flags ∨ flags' = flags ||| 0x20) ∧ (m.restore lock).eflags = BitVec.ofNat 32 flags'.toNat) ∧
      (m.restore lock).esp.toNat = S + 56 ∧ (m.restore lock).regs = ⟨a, b, c, d, si, di, bp, ds.toUInt16, es.toUInt16, m.ss⟩ ∧
      (m.restore lock).mem.load (task.toNat + 0x18) 4 = old.toNat ∧
      Mem.Frame (window (task.toNat + 0x18) 4 ∪ window lock.toNat 4 ∪ window (S + 52) 4) m.mem (m.restore lock).mem := by
  have h18 : (m.ebp + 0x18).toNat = task.toNat + 0x18 := by
    rw [hebp]
    exact toNat_add (Nat.lt_of_lt_of_le (Nat.add_lt_add_left (by decide) _) htask)
  obtain ⟨m₁, hm₁⟩ : ∃ m₁, m₁ = (m.setWord (m.ebp + 0x18) m.top).drop 4 := ⟨_, rfl⟩
  have hmem₁ : m₁.mem = m.mem.store (task.toNat + 0x18) 4 old.toNat := by
    rw [hm₁, ← h.top, ← h18]
    rfl
  have hstack₁ : StackAt m₁ (S + 4) ([b, c, d, si, di, bp, a, ds, es] ++ [oe, eip, cs, flags]) := by
    rw [hm₁]
    exact (h.setWord (by rw [h18]; exact hout)).drop
  obtain ⟨hstack₂, hreq⟩ := restoreAll_spec hstack₁
  have hmem₃ : (m₁.restoreAll.drop 4).mem = m₁.mem := by
    rw [drop_mem, hreq]
  obtain ⟨flags', hor, hstack₄, hframe, hregs⟩ := unlockKernel_flags lock hstack₂.drop (by
    simp only [List.length_nil]
    omega)
  obtain ⟨heip, hcs, hflags, hmem⟩ := iret_spec hstack₄
  have hto : m.restore lock = ((m₁.restoreAll.drop 4).unlockKernel lock).iret := by
    rw [hm₁]
    simp only [Machine.restore]
  have hss : m₁.ss = m.ss := by
    rw [hm₁]
    rfl
  have hfirst : Mem.Frame (window (task.toNat + 0x18) 4) m.mem (m.mem.store (task.toNat + 0x18) 4 old.toNat) :=
    Mem.Frame.store_window (Nat.le_refl _) (Nat.le_refl _)
  have hesp : ((m₁.restoreAll.drop 4).unlockKernel lock).iret.esp.toNat = S + 56 := by
    have h12 : (12 : UInt32).toNat = 12 := rfl
    rw [iret_esp, toNat_add (by rw [hstack₄.esp, h12]; omega), hstack₄.esp, h12]
  rw [hmem₃, hmem₁] at hframe
  rw [hto]
  refine ⟨heip, hcs, ⟨flags', hor, hflags⟩, hesp, ?_, ?_, ?_⟩
  · rw [iret_regs, hregs, drop_regs, ← hss, regs, hreq]
  · rw [hmem, hframe.load fun x h1 h2 hin => ?_, Mem.load_store_four old.toNat_lt]
    rcases hin with ⟨h3, h4⟩ | ⟨h3, h4⟩
    · omega
    · omega
  · rw [hmem]
    refine (hfirst.mono fun x hx => Or.inl (Or.inl hx)).trans (hframe.mono fun x hx => ?_)
    rcases hx with hx | ⟨h1, h2⟩
    · exact Or.inl (Or.inr hx)
    · exact Or.inr ⟨by omega, by omega⟩

/-- The flags that `iret` loads are those that were pushed, but for bit 5. -/
theorem loaded_flags {e : BitVec 32} {flags : UInt32} (h : flags = UInt32.ofBitVec e ∨ flags = UInt32.ofBitVec e ||| 0x20) :
    BitVec.ofNat 32 flags.toNat ||| 0x20#32 = e ||| 0x20#32 := by
  rcases h with rfl | rfl
  · simp
  · rw [UInt32.toNat_or, BitVec.ofNat_or, BitVec.or_assoc]
    simp

/-- `ret_from_intr` ends in `restore`, with the task whose handler it was in `ebp`. -/
theorem InHandler.retFromIntr_eq {m m₁ : Machine} {origEax : UInt32} (h : InHandler k m origEax m₁)
    {schedule : Machine → Machine} (hs : ComesBack k schedule m₁) :
    ∃ m₂, InHandler k m origEax m₂ ∧ m₂.ebp = k.task ∧
      m₁.retFromIntr k.symbols schedule = m₂.restore k.symbols.kernelLock := by
  have hcurrent : m₁.word k.symbols.current = k.task := word_of_load h.current
  have hloaded : InHandler k m origEax { m₁ with ebp := m₁.word k.symbols.current } :=
    h.keeps ⟨rfl, rfl, fun _ _ _ => rfl, rfl, rfl⟩
  unfold Machine.retFromIntr
  dsimp only
  split
  · exact ⟨_, hloaded, hcurrent, rfl⟩
  · split
    · exact ⟨_, hloaded, hcurrent, rfl⟩
    · exact ⟨_, h.keeps hs.keeps, hs.ebp.trans hcurrent, rfl⟩

/-- The way back from a handler. -/
theorem InHandler.resumed {m m₁ : Machine} {origEax : UInt32} (h : InHandler k m origEax m₁) {schedule : Machine → Machine}
    (hs : ComesBack k schedule m₁) : Resumed k m (m₁.retFromIntr k.symbols schedule) := by
  obtain ⟨m₂, h₂, hebp, hto⟩ := h.retFromIntr_eq hs
  obtain ⟨old, hold, hstack⟩ := h₂.frame
  have hroom := h.room
  have hbelow := h.below
  have hbounded := k.bounded
  have hcurrentApart := k.currentApart
  have hlockApart := k.lockApart
  have hregsApart := k.regsApart
  have hcurrentLock := k.currentLock
  have hcurrentRegs := k.currentRegs
  obtain ⟨heip, hcs, ⟨flags, hor, hflags⟩, hesp, hregs, hload, hframe⟩ :=
    restore_returns k.symbols.kernelLock hebp hstack k.taskBounded (by omega) (by omega) (by omega) k.lockRegs
  rw [hto]
  refine ⟨heip, ?_, ?_, ?_, ?_, ?_, fun x h1 h2 => ?_, ?_, ?_⟩
  · rw [hcs, UInt16.toUInt16_toUInt32]
  · rw [hflags]
    exact loaded_flags hor
  · rw [hregs, h₂.ss, UInt16.toUInt16_toUInt32, UInt16.toUInt16_toUInt32]
    rfl
  · refine UInt32.toNat_inj.1 ?_
    rw [hesp]
    omega
  · have hss := congrArg Machine.Regs.ss hregs
    exact hss.trans h₂.ss
  · rw [(hframe x fun hin => ?_).1, h₂.stack x h1 h2]
    rcases hin with (⟨h3, h4⟩ | ⟨h3, h4⟩) | ⟨h3, h4⟩
    · omega
    · omega
    · omega
  · rw [hframe.load fun x h1 h2 hin => ?_, h₂.current, h₂.interrupted]
    rcases hin with (⟨h3, h4⟩ | ⟨h3, h4⟩) | ⟨h3, h4⟩
    · omega
    · omega
    · omega
  · rw [hload, hold]

/-! ## Any nesting -/

/-- Code of the kernel keeps the stack above it and the `regs` of the task, whatever it is interrupted by. -/
theorem Runs.keeps {m m' : Machine} (h : Runs k m m') (hcur : m.mem.load k.symbols.current.toNat 4 = k.task.toNat)
    (htop : m.esp.toNat ≤ k.top) : Restores k m m' := by
  induction h with
  | code hk => exact hk
  | append _ _ ih ih' =>
    have hk := ih hcur htop
    exact hk.trans (ih' (hk.current.trans hcur) (by rw [hk.esp]; exact htop))
  | @trap m m' entry origEax _ hroom _ hs ih =>
    have henter := enter_spec hroom htop hcur entry origEax
    have hk := ih henter.current henter.esp_le
    exact ((henter.keeps hk).resumed hs).keeps
  | @syscall m m' entry retval _ hroom _ hs ih =>
    have henter := enter_spec hroom htop hcur entry (m.interrupt entry).eax
    have hk := ih henter.current henter.esp_le
    have hres := (((henter.keeps hk).setResult retval).resumed hs).keeps
    exact ⟨hres.esp, hres.ss, hres.stack, hres.current, hres.regs⟩

/-- A trap through any entry, whose handler runs code that is itself interrupted to any depth, and leaves alone what `Restores` names
as `schedule` does: the handler finds the word pushed for `orig_eax` through `current->regs`, and what was interrupted goes on as it
was, but that after a system call `eax` holds the result. -/
theorem trap_transparent {m m' : Machine} {entry origEax : UInt32} (hroom : k.low + 56 ≤ m.esp.toNat) (htop : m.esp.toNat ≤ k.top)
    (hcur : m.mem.load k.symbols.current.toNat 4 = k.task.toNat) (h : Runs k ((m.interrupt entry).enter k.symbols origEax) m') :
    m'.word (m'.word (m'.word k.symbols.current + 0x18) + 0x24) = origEax ∧
      (∀ schedule, ComesBack k schedule m' → Resumed k m (m'.retFromIntr k.symbols schedule)) ∧
      ∀ retval schedule, ComesBack k schedule (m'.setResult k.symbols retval) →
        Resumed k { m with eax := retval } ((m'.setResult k.symbols retval).retFromIntr k.symbols schedule) := by
  have henter := enter_spec hroom htop hcur entry origEax
  have hk := h.keeps henter.current henter.esp_le
  have hin := henter.keeps hk
  exact ⟨hin.origEax_word, fun _ hs => hin.resumed hs, fun retval _ hs => (hin.setResult retval).resumed hs⟩

/-- A task at `0x200000` with a stack of 4096 bytes. -/
def trapStack : TaskStack where
  symbols := ⟨0x100000, 0x100010⟩
  task := 0x200000
  low := 0x300000
  top := 0x301000
  bounded := by decide
  taskBounded := by decide
  currentApart := by decide
  lockApart := by decide
  regsApart := by decide
  currentLock := by decide
  currentRegs := by decide
  lockRegs := by decide

/-- The task runs. -/
def trapMachine : Machine :=
  { eax := 1, ebx := 2, ecx := 3, edx := 4, esi := 5, edi := 6, ebp := 7, esp := 0x300800, eip := 0x100200, cs := 0x10, ds := 0x18,
    es := 0x18, ss := 0x18, eflags := 0x202, mem := (⟨fun _ => 0, fun _ => false⟩ : Mem).store 0x100000 4 0x200000 }

theorem trapMachine_current : trapMachine.mem.load trapStack.symbols.current.toNat 4 = trapStack.task.toNat :=
  Mem.load_store_four (by decide)

/-- A `schedule` that comes back at once. -/
theorem comesBack_id (k : TaskStack) (m : Machine) : ComesBack k id m := ⟨⟨rfl, rfl, fun _ _ _ => rfl, rfl, rfl⟩, rfl⟩

/-- The timer's interrupt, in whose handler a breakpoint is hit. -/
theorem trap_transparent_nested :
    let m := (trapMachine.interrupt 0x100300).commonInterrupt trapStack.symbols 0
    let m' := ((m.interrupt 0x100400).int3 trapStack.symbols).retFromIntr trapStack.symbols id
    Resumed trapStack trapMachine (m'.retFromIntr trapStack.symbols id) := by
  intro m m'
  have hroom : trapStack.low + 56 ≤ trapMachine.esp.toNat := by decide
  have htop : trapMachine.esp.toNat ≤ trapStack.top := by decide
  have henter : InHandler trapStack trapMachine 0 m := enter_spec hroom htop trapMachine_current 0x100300 0
  have hdeep : trapStack.low + 56 ≤ m.esp.toNat := by
    rw [henter.esp_eq]
    decide
  have hcode : Runs trapStack ((m.interrupt 0x100400).int3 trapStack.symbols) ((m.interrupt 0x100400).int3 trapStack.symbols) :=
    .code (Restores.refl trapStack _)
  have hnested : Runs trapStack m m' := .trap hdeep hcode (comesBack_id trapStack _)
  exact (trap_transparent hroom htop trapMachine_current hnested).2.1 id (comesBack_id trapStack _)

end BootPerl
