import BootPerl.Theorems.InterruptLines

/-!
# Masks and acknowledgements

From `init_8259A` on, the masks of the chips are the bytes of the cached mask, and what is acknowledged is no longer in service, in
whatever order lines are enabled, disabled, acknowledged and handled and interrupts come in.
-/

namespace BootPerl

open Outcome

/-! ## The machine -/

/-- What happens: an interrupt comes in, or the kernel calls a function for a line. -/
inductive ControllerOp where
  | interrupt (irq : Nat)
  | enable (irq : Nat)
  | disable (irq : Nat)
  | ack (irq : Nat)
  | handle (irq : Nat)

/-- One operation, on a line below 16. -/
inductive ControllerStep (s : Irqs) : ControllerOp → Irqs → Prop where
  | interrupt {irq : Nat} : irq < 16 → ControllerStep s (.interrupt irq) (s.interrupt irq)
  | enable {irq : Nat} : irq < 16 → ControllerStep s (.enable irq) (enableIrq s irq)
  | disable {irq : Nat} : irq < 16 → ControllerStep s (.disable irq) (disableIrq s irq)
  | ack {irq : Nat} : irq < 16 → ControllerStep s (.ack irq) (ackIrq s irq)
  | handle {irq : Nat} {s' : Irqs} : irq < 16 → Comes (fun fuel => handleIrq fuel s irq) (.ok s') → ControllerStep s (.handle irq) s'

/-- The operations since `init_8259A`, in order, and the state they lead to. Before it the chips are in any state. -/
inductive ControllerRun : List ControllerOp → Irqs → Prop where
  | boot (s : Irqs) : ControllerRun [] (init8259A s)
  | step {ops : List ControllerOp} {s s' : Irqs} {op : ControllerOp} :
      ControllerRun ops s → ControllerStep s op s' → ControllerRun (ops ++ [op]) s'

/-- An in-service bit; those of the slave are counted from 8 on. -/
def Irqs.inService (s : Irqs) (i : Nat) : Bool := if i < 8 then s.master.isr.getLsbD i else s.slave.isr.getLsbD (i - 8)

/-- The bits of a line: its own, and for a line of the slave the one of the input that the slave is on. -/
def serviceBits (irq : Nat) : List Nat := if irq < 8 then [irq] else [irq, 2]

/-- The interrupt on a line is no longer in service. -/
def Acknowledged (s : Irqs) (irq : Nat) : Prop := ∀ i ∈ serviceBits irq, s.inService i = false

/-! ## The in-service bits -/

/-- Only the registers of the chips matter. -/
theorem Irqs.inService_congr {s s' : Irqs} (hm : s'.master.isr = s.master.isr) (hs : s'.slave.isr = s.slave.isr) (i : Nat) :
    s'.inService i = s.inService i := by
  rw [Irqs.inService, Irqs.inService, hm, hs]

/-- Masks are not commands. -/
theorem inService_outMask (s : Irqs) (irq i : Nat) : (outMask s irq).inService i = s.inService i := by
  unfold outMask
  split
  · have hslave : (outb s (maskByte 1 s.cachedIrqMask) 0xa1).slave.isr = s.slave.isr := Pic.data_isr s.slave _
    exact Irqs.inService_congr (by rfl) hslave i
  · have hmaster : (outb s (maskByte 0 s.cachedIrqMask) 0x21).master.isr = s.master.isr := Pic.data_isr s.master _
    exact Irqs.inService_congr hmaster (by rfl) i

theorem inService_enableIrq (s : Irqs) (irq i : Nat) : (enableIrq s irq).inService i = s.inService i :=
  inService_outMask _ irq i

theorem inService_disableIrq (s : Irqs) (irq i : Nat) : (disableIrq s irq).inService i = s.inService i :=
  inService_outMask _ irq i

/-- `ack_irq` clears the bits of its line, and no other. -/
theorem inService_ackIrq (s : Irqs) {irq : Nat} (hirq : irq < 16) (i : Nat) :
    (ackIrq s irq).inService i = (s.inService i && decide (i ∉ serviceBits irq)) := by
  have hmask : (disableIrq (reportSpurious s irq) irq).inService i = s.inService i := by
    obtain ⟨sp, ms, hreport⟩ := reportSpurious_frame s irq
    rw [inService_disableIrq, hreport]
    rfl
  rw [ackIrq_eq s hirq, ← hmask]
  generalize disableIrq (reportSpurious s irq) irq = t
  unfold Irqs.inService serviceBits
  by_cases h8 : irq < 8
  · rw [if_pos h8, if_pos h8]
    by_cases hi : i < 8
    · rw [if_pos hi, if_pos hi]
      simp only [Pic.endInterrupt]
      rw [getLsbD_enable]
      simp
    · have hne : i ≠ irq := by omega
      simp [hi, hne]
  · rw [if_neg h8, if_neg h8]
    by_cases hi : i < 8
    · have hne : i ≠ irq := by omega
      rw [if_pos hi, if_pos hi]
      simp only [Pic.endInterrupt]
      rw [getLsbD_enable]
      simp [hne]
    · have hne : i ≠ 2 := by omega
      have hsub : i - 8 ≠ irq - 8 ↔ i ≠ irq := by omega
      rw [if_neg hi, if_neg hi]
      simp only [Pic.endInterrupt]
      rw [getLsbD_enable]
      simp [hsub, hne]

/-- An interrupt sets the bits of its line, and no other. -/
theorem inService_interrupt (s : Irqs) {irq : Nat} (hirq : irq < 16) (i : Nat) :
    (s.interrupt irq).inService i = (s.inService i || decide (i ∈ serviceBits irq)) := by
  unfold Irqs.interrupt Irqs.inService serviceBits
  by_cases h8 : irq < 8
  · rw [if_pos h8, if_pos h8]
    by_cases hi : i < 8
    · rw [if_pos hi, if_pos hi, getLsbD_disable h8]
      simp
    · have hne : i ≠ irq := by omega
      simp [hi, hne]
  · rw [if_neg h8, if_neg h8]
    by_cases hi : i < 8
    · have hne : i ≠ irq := by omega
      rw [if_pos hi, if_pos hi, getLsbD_disable (by decide)]
      simp [hne]
    · have hne : i ≠ 2 := by omega
      have hsub : i - 8 = irq - 8 ↔ i = irq := by omega
      rw [if_neg hi, if_neg hi, getLsbD_disable (by omega)]
      simp [hsub, hne]

/-- `handle_irq` clears the bits that `ack_irq` does: the handlers end no interrupt. -/
theorem inService_handleIrq {s s' : Irqs} {irq fuel : Nat} (hirq : irq < 16) (h : handleIrq fuel s irq = .ok s') (i : Nat) :
    s'.inService i = (s.inService i && decide (i ∉ serviceBits irq)) := by
  rw [← inService_ackIrq s hirq]
  unfold handleIrq at h
  obtain ⟨s₁, hcall, hs'⟩ := bind_eq_ok h
  obtain ⟨c, hs₁⟩ := callHandlers_frame hcall
  cases hs'
  rw [inService_enableIrq, hs₁]
  split
  · rfl
  · rfl

/-! ## Runs -/

/-- The bits that an operation sets. -/
def ControllerOp.sets : ControllerOp → List Nat
  | .interrupt irq => serviceBits irq
  | _ => []

/-- The bits that it clears. -/
def ControllerOp.clears : ControllerOp → List Nat
  | .ack irq => serviceBits irq
  | .handle irq => serviceBits irq
  | _ => []

/-- What a step does to an in-service bit. -/
theorem ControllerStep.inService_iff {s s' : Irqs} {op : ControllerOp} (h : ControllerStep s op s') (i : Nat) :
    s'.inService i = true ↔ (s.inService i = true ∨ i ∈ op.sets) ∧ i ∉ op.clears := by
  cases h with
  | interrupt hirq =>
    rw [inService_interrupt s hirq]
    simp [ControllerOp.sets, ControllerOp.clears]
  | @enable irq _ =>
    rw [inService_enableIrq]
    simp [ControllerOp.sets, ControllerOp.clears]
  | @disable irq _ =>
    rw [inService_disableIrq]
    simp [ControllerOp.sets, ControllerOp.clears]
  | ack hirq =>
    rw [inService_ackIrq s hirq]
    simp [ControllerOp.sets, ControllerOp.clears]
  | handle hirq hcomes =>
    obtain ⟨n, hn⟩ := hcomes
    rw [inService_handleIrq hirq (hn n (Nat.le_refl n))]
    simp [ControllerOp.sets, ControllerOp.clears]

/-- The chips are in step with the cached mask after every run. -/
theorem ControllerRun.synced {ops : List ControllerOp} {s : Irqs} (h : ControllerRun ops s) : Synced s := by
  induction h with
  | boot s => exact (init8259A_spec s).1
  | @step ops s s' op _ hstep ih =>
    cases hstep with
    | interrupt _ =>
      unfold Irqs.interrupt
      split
      · exact ih.setIsr _ _
      · exact ih.setIsr _ _
    | enable hirq => exact (enableIrq_spec ih hirq).1
    | disable hirq => exact (disableIrq_spec ih hirq).1
    | ack hirq => exact (ackIrq_spec ih hirq).1
    | handle hirq hcomes =>
      obtain ⟨n, hn⟩ := hcomes
      exact (handleIrq_spec ih hirq (hn n (Nat.le_refl n))).1

/-- A bit that is set was set after every operation that clears it. -/
theorem ControllerRun.set_since {ops : List ControllerOp} {s : Irqs} (h : ControllerRun ops s) {i : Nat} :
    s.inService i = true → ∀ {pre post : List ControllerOp} {op : ControllerOp}, ops = pre ++ op :: post → i ∈ op.clears →
      ∃ op' ∈ post, i ∈ op'.sets := by
  induction h with
  | boot _ =>
    intro _ pre post op heq _
    exact absurd heq.symm (List.append_ne_nil_of_right_ne_nil pre (List.cons_ne_nil op post))
  | @step ops s s' last _ hstep ih =>
    intro hbit pre post op heq hclears
    obtain ⟨hset, hkept⟩ := (hstep.inService_iff i).1 hbit
    rcases List.eq_nil_or_concat post with rfl | ⟨post, last', rfl⟩
    · -- the last operation clears the bit
      obtain ⟨-, hlast⟩ := List.append_inj' heq rfl
      exact absurd hclears (List.singleton_inj.1 hlast ▸ hkept)
    · rw [List.concat_eq_append] at heq ⊢
      have hsplit : ops ++ [last] = (pre ++ op :: post) ++ [last'] := by simpa using heq
      obtain ⟨hops, hlast⟩ := List.append_inj' hsplit rfl
      obtain rfl := List.singleton_inj.1 hlast
      rcases hset with hbefore | hset
      · obtain ⟨op', hmem, hsets⟩ := ih hbefore hops hclears
        exact ⟨op', List.mem_append_left [last] hmem, hsets⟩
      · exact ⟨last, List.mem_append_right post (List.mem_singleton.2 rfl), hset⟩

/-- After every run from `init_8259A` on, the masks of the chips are the low and the high byte of the cached mask, and an interrupt that was
passed to `ack_irq`, by `handle_irq` or not, is no longer in service unless one has come in since that is serviced through the same inputs. -/
theorem controllers_mirror_and_acknowledge {ops : List ControllerOp} {s : Irqs} (h : ControllerRun ops s) :
    s.master.imr = maskByte 0 s.cachedIrqMask ∧ s.slave.imr = maskByte 1 s.cachedIrqMask ∧
      ∀ pre post irq, (ops = pre ++ .ack irq :: post ∨ ops = pre ++ .handle irq :: post) →
        (∀ k, .interrupt k ∈ post → ∀ i ∈ serviceBits irq, i ∉ serviceBits k) → Acknowledged s irq := by
  refine ⟨h.synced.masterMask, h.synced.slaveMask, fun pre post irq hops hquiet i hi => ?_⟩
  by_contra hbit
  obtain ⟨op, hmem, hsets⟩ : ∃ op ∈ post, i ∈ op.sets := by
    rw [Bool.not_eq_false] at hbit
    rcases hops with hops | hops
    · exact h.set_since hbit hops hi
    · exact h.set_since hbit hops hi
  cases op with
  | interrupt k => exact hquiet k hmem i hi hsets
  | _ => exact absurd hsets List.not_mem_nil

/-- An interrupt on line 12, for which there is no handler, handled right after `init_8259A`. -/
theorem controllers_mirror_and_acknowledge_twelve :
    ∃ s s', ControllerRun [.interrupt 12] s ∧ ¬Acknowledged s 12 ∧ ControllerRun [.interrupt 12, .handle 12] s' ∧ Acknowledged s' 12 := by
  have hraised : ControllerRun [.interrupt 12] ((init8259A bootIrqs).interrupt 12) :=
    (ControllerRun.boot bootIrqs).step (@ControllerStep.interrupt _ 12 (by decide))
  obtain ⟨s', hstep⟩ := @handleIrq_of_none ((init8259A bootIrqs).interrupt 12) 12 (by decide) rfl
  cases hstep with
  | handle hirq hcomes =>
    have hrun := hraised.step (.handle hirq hcomes)
    refine ⟨_, s', hraised, fun hack => ?_, hrun, ?_⟩
    · exact absurd (hack 12 (by decide)) (by decide)
    · exact (controllers_mirror_and_acknowledge hrun).2.2 [.interrupt 12] [] 12 (Or.inr rfl) (by simp)

end BootPerl
