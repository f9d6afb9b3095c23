import BootPerl.Theorems.HandlerLists
import BootPerl.Theorems.TrapReturn
import BootPerl.Theorems.VectorTable

/-!
# From a line to its handlers and back

Four pieces have to agree on the number of a line: the vectors that the chips were initialised with, the gates, the numbers that the
stubs push, and the table of handlers. They do, after every run of registrations and interrupts, because no byte that the kernel
writes to the chips after `init_8259A` begins another initialisation.
-/

namespace BootPerl

open Machine Outcome

variable {k : TaskStack}

/-- The chips send 16 vectors in a row, from `FIRST_VECTOR` on. -/
theorem Synced.vector {s : Irqs} (h : Synced s) {irq : Nat} (hirq : irq < 16) : s.vector irq = firstVector + irq := by
  have hmaster : ((0x20 : BitVec 8) &&& 0xf8).toNat = 32 := rfl
  have hslave : ((0x28 : BitVec 8) &&& 0xf8).toNat = 40 := rfl
  rw [Irqs.vector, h.masterVectors, h.slaveVectors, hmaster, hslave, firstVector]
  split
  · rfl
  · omega

/-! ## The gate and the stub -/

/-- The gate of a function of the kernel is gone through as by an interrupt. -/
theorem deliver_eq {m : Machine} {idt n : Nat} {addr : UInt32} (h : gateAt m.mem (idt + 8 * n) = intrGate addr) :
    m.deliver idt n = m.interrupt addr := by
  unfold deliver
  rw [h]
  rfl

/-- Interrupts are off from the gate on. -/
theorem interrupt_flags (m : Machine) (entry : UInt32) : (m.interrupt entry).eflags.getLsbD 9 = false := by
  have hflags : (m.interrupt entry).eflags = m.eflags &&& 0xfffcbcff#32 := rfl
  rw [hflags, BitVec.getLsbD_and]
  exact Bool.and_false _

/-- The entry of a line. -/
theorem Entries.vector_irq (e : Entries) {irq : Nat} (hirq : irq < 16) : e.vector (firstVector + irq) = e.interrupts irq := by
  have hfirst : firstVector = 32 := rfl
  rw [Entries.vector, if_neg (by omega), if_pos (by omega), Nat.add_sub_cancel_left]

/-- An interrupt on a line goes through the gate of its vector to its own stub. -/
theorem Synced.deliver {s : Irqs} (h : Synced s) {irq : Nat} (hirq : irq < 16) {e : Entries} {idt : Nat} {m : Machine}
    (hidt : ∀ n, n < 256 → gateAt m.mem (idt + 8 * n) = intrGate (e.vector n)) :
    m.deliver idt (s.vector irq) = m.interrupt (e.interrupts irq) := by
  rw [h.vector hirq]
  refine deliver_eq ?_
  rw [hidt _ (by rw [firstVector]; omega), e.vector_irq hirq]

/-- So it does once boot has set up the table in a block of `kalloc`: in every run of tame calls from there that leaves the table live
and does not write to it, and after any run of registrations and interrupts. -/
theorem deliver_of_run (b : BootMemory) (hlow : b.memoryEnd ≤ 268435456) (e : Entries) {t t' : HeapState}
    (ht : Reach b.HeapInit b.tameStep t) {mem : Mem} {idt : Nat}
    (hcall : Comes (fun fuel => kalloc fuel b.toHeapVars t.mem 2048) (.ok (mem, idt)))
    (hrun : Reach (· = ⟨setupVectors e mem idt, ⟨idt, 2048⟩ :: t.live, t.held⟩) (LeavesBlock b.toHeapVars ⟨idt, 2048⟩) t')
    {ops : List IrqOp} {s : Irqs} (h : IrqRun ops s) {irq : Nat} (hirq : irq < 16) {m : Machine}
    (hbytes : ∀ x ∈ tableBytes idt, m.mem.byte x = t'.mem.byte x) :
    m.deliver idt (s.vector irq) = m.interrupt (e.interrupts irq) :=
  h.inv.synced.deliver hirq fun _ hn => gates_of_run hlow e List.mem_cons_self (reach_table e ht hcall) hrun hbytes hn

/-- The handler takes the number that the stub has pushed. -/
theorem InHandler.handledIrq {m m₁ : Machine} {irq : Nat} (h : InHandler k m (UInt32.ofNat irq) m₁) (hirq : irq < 16) :
    m₁.handledIrq k.symbols = irq := by
  rw [Machine.handledIrq, h.origEax_word, UInt32.toNat_ofNat_of_lt' (Nat.lt_trans hirq (by decide)),
    Nat.mod_eq_of_lt (Nat.lt_trans hirq (by decide))]

/-- An interrupt on a line, after any run of registrations and interrupts, on any task, with the gates as boot left them: the
processor goes on with interrupts off at the stub of the line; when `handle_irq` looks, in whatever has interrupted it, it calls the
handlers registered on this line, if none of them was registered twice; and what was interrupted goes on as it was, bit 5 of its
flags apart. -/
theorem interrupt_path {ops : List IrqOp} {s : Irqs} (h : IrqRun ops s) {irq : Nat} (hirq : irq < 16) {e : Entries} {idt : Nat}
    {m m' : Machine} (hidt : ∀ n, n < 256 → gateAt m.mem (idt + 8 * n) = intrGate (e.vector n))
    (hroom : k.low + 56 ≤ m.esp.toNat) (htop : m.esp.toNat ≤ k.top) (hcur : m.mem.load k.symbols.current.toNat 4 = k.task.toNat)
    (hrun : Runs k ((m.deliver idt (s.vector irq)).commonInterrupt k.symbols (UInt32.ofNat irq)) m') :
    (m.deliver idt (s.vector irq)).eip = e.interrupts irq ∧ (m.deliver idt (s.vector irq)).eflags.getLsbD 9 = false ∧
      ((registeredOn ops irq).Nodup → ∃ s', Comes (fun fuel => handleIrq fuel s (m'.handledIrq k.symbols)) (.ok s') ∧
        s'.called = s.called ++ (registeredOn ops irq).filter fun handler => decide (s.handler handler ≠ 0)) ∧
      ∀ schedule, ComesBack k schedule m' → Resumed k m (m'.retFromIntr k.symbols schedule) := by
  rw [h.inv.synced.deliver hirq hidt] at hrun ⊢
  have henter := enter_spec hroom htop hcur (e.interrupts irq) (UInt32.ofNat irq)
  have hin := henter.keeps (hrun.keeps henter.current henter.esp_le)
  refine ⟨rfl, interrupt_flags m _, fun hnd => ?_, fun _ hs => hin.resumed hs⟩
  rw [hin.handledIrq hirq]
  exact handleIrq_of_nodup h hirq hnd

/-- The task runs, in a memory in which it is the current one. -/
def taskOn (mem : Mem) : Machine := { trapMachine with mem := mem.store 0x100000 4 0x200000 }

theorem taskOn_current (mem : Mem) : (taskOn mem).mem.load trapStack.symbols.current.toNat 4 = trapStack.task.toNat :=
  Mem.load_store_four (by decide)

/-- A tick of the timer after two registrations, in the memory that boot and a write after it have left. -/
theorem interrupt_path_timer :
    ∃ mem, Comes (fun fuel => kalloc fuel tinyMemory.toHeapVars tinyBlock 2048) (.ok (mem, 0x203798)) ∧
      let m := taskOn ((tinyTable mem).mem.set 0x203f9c 7)
      let s := registerIrqHandler (registerIrqHandler freshIrqs 0x1000) 0x3000
      let m₁ := m.deliver 0x203798 (s.vector 0)
      let m₂ := m₁.commonInterrupt trapStack.symbols (UInt32.ofNat 0)
      m₁.eip = someEntries.interrupts 0 ∧
        (∃ s', Comes (fun fuel => handleIrq fuel s (m₂.handledIrq trapStack.symbols)) (.ok s') ∧ s'.called = [0x3000, 0x1000]) ∧
        Resumed trapStack m (m₂.retFromIntr trapStack.symbols id) := by
  obtain ⟨mem, hcomes, hrun⟩ := tinyTable_run
  refine ⟨mem, hcomes, ?_⟩
  intro m s m₁ m₂
  have hgates : ∀ n, n < 256 → gateAt m.mem (0x203798 + 8 * n) = intrGate (someEntries.vector n) := fun n hn =>
    gates_of_run (by decide) someEntries List.mem_cons_self (reach_table someEntries tinyBlock_reached hcomes) hrun
      (fun x hx => Mem.byte_store_of_outside (Or.inr (Nat.le_trans (by decide) hx.1))) hn
  have hroom : trapStack.low + 56 ≤ trapMachine.esp.toNat := by decide
  have htop : trapMachine.esp.toNat ≤ trapStack.top := by decide
  obtain ⟨heip, -, hcalled, hback⟩ :=
    interrupt_path irqRun_second (show 0 < 16 by decide) hgates hroom htop (taskOn_current _) (.code (Restores.refl _ _))
  exact ⟨heip, hcalled (show [0x3000, 0x1000].Nodup by decide), hback id (comesBack_id _ _)⟩

end BootPerl
