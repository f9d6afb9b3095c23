import Mathlib.Tactic.IntervalCases
import BootPerl.Irq

/-!
# What the interrupt code does to the chips

Between operations both chips are initialised and hold the mask that the kernel caches: `Synced`. One lemma for each operation
says that it keeps this, and what it does to the cached mask and to the table of handlers.
-/

namespace BootPerl

open Outcome

/-- Both chips are initialised, with the vectors from `0x20` on and the slave on input 2 of the master, and their masks are the two
bytes of the cached mask. -/
structure Synced (s : Irqs) : Prop where
  masterReady : s.master.phase = .ready
  slaveReady : s.slave.phase = .ready
  masterMask : s.master.imr = maskByte 0 s.cachedIrqMask
  slaveMask : s.slave.imr = maskByte 1 s.cachedIrqMask
  masterVectors : s.master.icw2 = 0x20
  slaveVectors : s.slave.icw2 = 0x28
  masterCascade : s.master.icw3 = 0x04
  slaveCascade : s.slave.icw3 = 0x02

/-- Only the chips and the cached mask matter. -/
theorem Synced.congr {s s' : Irqs} (h : Synced s) (hm : s'.master = s.master) (hs : s'.slave = s.slave)
    (hc : s'.cachedIrqMask = s.cachedIrqMask) : Synced s' := by
  obtain ⟨h1, h2, h3, h4, h5, h6, h7, h8⟩ := h
  refine ⟨?_, ?_, ?_, ?_, ?_, ?_, ?_, ?_⟩
  · rw [hm, h1]
  · rw [hs, h2]
  · rw [hm, hc, h3]
  · rw [hs, hc, h4]
  · rw [hm, h5]
  · rw [hs, h6]
  · rw [hm, h7]
  · rw [hs, h8]

/-- What is in service does not matter. -/
theorem Synced.setIsr {s : Irqs} (h : Synced s) (a b : BitVec 8) :
    Synced { s with master := { s.master with isr := a }, slave := { s.slave with isr := b } } :=
  ⟨h.masterReady, h.slaveReady, h.masterMask, h.slaveMask, h.masterVectors, h.slaveVectors, h.masterCascade, h.slaveCascade⟩

/-! ## The ports -/

@[simp] theorem outb_masterCommand (s : Irqs) (v : BitVec 8) : outb s v 0x20 = { s with master := s.master.command v } := rfl

@[simp] theorem outb_masterData (s : Irqs) (v : BitVec 8) : outb s v 0x21 = { s with master := s.master.data v } := rfl

@[simp] theorem outb_slaveCommand (s : Irqs) (v : BitVec 8) : outb s v 0xa0 = { s with slave := s.slave.command v } := rfl

@[simp] theorem outb_slaveData (s : Irqs) (v : BitVec 8) : outb s v 0xa1 = { s with slave := s.slave.data v } := rfl

/-- A chip that is initialised takes a byte on its data port for its mask. -/
theorem Pic.data_of_ready {p : Pic} (h : p.phase = .ready) (v : BitVec 8) : p.data v = { p with imr := v } := by
  unfold Pic.data
  rw [h]

/-- A byte on the data port ends no interrupt. -/
@[simp] theorem Pic.data_isr (p : Pic) (v : BitVec 8) : (p.data v).isr = p.isr := by
  unfold Pic.data
  split <;> rfl

/-- An end of interrupt is no ICW1: bit 4 of its byte is clear. -/
theorem Pic.command_eoi {k : Nat} (hk : k < 8) (p : Pic) : p.command (BitVec.ofNat 8 (0x60 + k)) = p.endInterrupt k := by
  interval_cases k <;> rfl

/-! ## The bits of the mask -/

/-- The lines of the slave are those from 8 on. -/
theorem and_eight_ne_zero {irq : Nat} (h : irq < 16) : irq &&& 8 ≠ 0 ↔ 8 ≤ irq := by
  interval_cases irq <;> decide

/-- The input of a line on its chip. -/
theorem and_seven {irq : Nat} (h : irq < 16) : irq &&& 7 = if irq < 8 then irq else irq - 8 := by
  interval_cases irq <;> rfl

theorem maskByte_getLsbD (k : Nat) (mask : BitVec 16) (i : Nat) :
    (maskByte k mask).getLsbD i = (decide (i < 8) && mask.getLsbD (8 * k + i)) := by
  simp [maskByte]

/-- A byte of the mask depends on its own bits only. -/
theorem maskByte_congr {k : Nat} {mask mask' : BitVec 16} (h : ∀ i, i < 8 → mask'.getLsbD (8 * k + i) = mask.getLsbD (8 * k + i)) :
    maskByte k mask' = maskByte k mask := by
  apply BitVec.eq_of_getLsbD_eq
  intro i hi
  rw [maskByte_getLsbD, maskByte_getLsbD, h i hi]

/-- Unmasking clears one bit. -/
theorem getLsbD_enable {w : Nat} (irq : Nat) (mask : BitVec w) (j : Nat) :
    (mask &&& ~~~(1#w <<< irq)).getLsbD j = (mask.getLsbD j && decide (j ≠ irq)) := by
  rw [← BitVec.twoPow_eq]
  by_cases hj : j < w
  · simp [hj, eq_comm]
  · rw [BitVec.getLsbD_of_ge _ _ (by omega), BitVec.getLsbD_of_ge _ _ (by omega), Bool.false_and]

/-- Masking sets one bit. -/
theorem getLsbD_disable {w irq : Nat} (h : irq < w) (mask : BitVec w) (j : Nat) :
    (mask ||| 1#w <<< irq).getLsbD j = (mask.getLsbD j || decide (j = irq)) := by
  rw [← BitVec.twoPow_eq]
  simp [h, eq_comm]

/-! ## The operations -/

/-- Once a bit of one line has changed in the cached mask, writing the byte of that line brings the chips up to date. -/
theorem outMask_spec {s : Irqs} (h : Synced s) {irq : Nat} (hirq : irq < 16) {mask : BitVec 16}
    (hmask : ∀ j, j ≠ irq → mask.getLsbD j = s.cachedIrqMask.getLsbD j) :
    Synced (outMask { s with cachedIrqMask := mask } irq) ∧
      ∃ m sl, outMask { s with cachedIrqMask := mask } irq = { s with cachedIrqMask := mask, master := m, slave := sl } := by
  obtain ⟨h1, h2, h3, h4, h5, h6, h7, h8⟩ := h
  unfold outMask
  by_cases hslave : 8 ≤ irq
  · -- the byte of the master has not changed
    have hbyte : maskByte 0 mask = maskByte 0 s.cachedIrqMask := maskByte_congr fun i hi => hmask _ (by omega)
    rw [if_pos ((and_eight_ne_zero hirq).2 hslave)]
    rw [outb_slaveData, Pic.data_of_ready h2]
    exact ⟨⟨h1, h2, h3.trans hbyte.symm, rfl, h5, h6, h7, h8⟩, _, _, rfl⟩
  · have hbyte : maskByte 1 mask = maskByte 1 s.cachedIrqMask := maskByte_congr fun i hi => hmask _ (by omega)
    rw [if_neg (fun hne => hslave ((and_eight_ne_zero hirq).1 hne))]
    rw [outb_masterData, Pic.data_of_ready h1]
    exact ⟨⟨h1, h2, rfl, h4.trans hbyte.symm, h5, h6, h7, h8⟩, _, _, rfl⟩

/-- `enable_irq` clears the bit of its line. -/
theorem enableIrq_spec {s : Irqs} (h : Synced s) {irq : Nat} (hirq : irq < 16) :
    Synced (enableIrq s irq) ∧ ∃ m sl, enableIrq s irq =
      { s with cachedIrqMask := s.cachedIrqMask &&& ~~~(1#16 <<< irq), master := m, slave := sl } :=
  outMask_spec h hirq fun j hj => by rw [getLsbD_enable, decide_eq_true hj, Bool.and_true]

/-- `disable_irq` sets the bit of its line. -/
theorem disableIrq_spec {s : Irqs} (h : Synced s) {irq : Nat} (hirq : irq < 16) :
    Synced (disableIrq s irq) ∧ ∃ m sl, disableIrq s irq =
      { s with cachedIrqMask := s.cachedIrqMask ||| 1#16 <<< irq, master := m, slave := sl } :=
  outMask_spec h hirq fun j hj => by rw [getLsbD_disable hirq, decide_eq_false hj, Bool.or_false]

/-- The report changes the messages and the lines reported only. -/
theorem reportSpurious_frame (s : Irqs) (irq : Nat) :
    ∃ sp ms, reportSpurious s irq = { s with spuriousMask := sp, messages := ms } := by
  unfold reportSpurious
  split
  · split
    · exact ⟨_, _, rfl⟩
    · exact ⟨_, _, rfl⟩
  · exact ⟨_, _, rfl⟩

/-- `ack_irq` masks its line and ends the interrupt, of a line of the slave on both chips. -/
theorem ackIrq_eq (s : Irqs) {irq : Nat} (hirq : irq < 16) :
    ackIrq s irq = let t := disableIrq (reportSpurious s irq) irq
      if irq < 8 then { t with master := t.master.endInterrupt irq }
      else { t with master := t.master.endInterrupt 2, slave := t.slave.endInterrupt (irq - 8) } := by
  unfold ackIrq
  dsimp only
  by_cases h8 : irq < 8
  · rw [if_neg fun hne => Nat.not_le.2 h8 ((and_eight_ne_zero hirq).1 hne), if_pos h8, outb_masterCommand, Pic.command_eoi h8]
  · have hcascade : (0x62 : BitVec 8) = BitVec.ofNat 8 (0x60 + 2) := rfl
    rw [if_pos ((and_eight_ne_zero hirq).2 (Nat.le_of_not_lt h8)), if_neg h8, and_seven hirq, if_neg h8, outb_slaveCommand,
      outb_masterCommand, Pic.command_eoi (by omega), hcascade, Pic.command_eoi (by decide)]

/-- `ack_irq` sets the bit of its line. -/
theorem ackIrq_spec {s : Irqs} (h : Synced s) {irq : Nat} (hirq : irq < 16) :
    Synced (ackIrq s irq) ∧ ∃ m sl sp ms, ackIrq s irq =
      { s with
        cachedIrqMask := s.cachedIrqMask ||| 1#16 <<< irq
        master := m
        slave := sl
        spuriousMask := sp
        messages := ms } := by
  obtain ⟨sp, ms, hreport⟩ := reportSpurious_frame s irq
  have hsync : Synced (reportSpurious s irq) := h.congr (by rw [hreport]) (by rw [hreport]) (by rw [hreport])
  obtain ⟨hsync', m, sl, hdisable⟩ := disableIrq_spec hsync hirq
  rw [ackIrq_eq s hirq]
  dsimp only
  by_cases h8 : irq < 8
  · rw [if_pos h8]
    refine ⟨hsync'.setIsr _ _, m.endInterrupt irq, sl, sp, ms, ?_⟩
    rw [hdisable, hreport]
  · rw [if_neg h8]
    refine ⟨hsync'.setIsr _ _, m.endInterrupt 2, sl.endInterrupt (irq - 8), sp, ms, ?_⟩
    rw [hdisable, hreport]

/-- The chips after `init_8259A`. -/
theorem init8259A_spec (s : Irqs) :
    Synced (init8259A s) ∧ ∃ m sl, init8259A s = { s with master := m, slave := sl } := by
  unfold init8259A
  simp only [outb_masterCommand, outb_masterData, outb_slaveCommand, outb_slaveData]
  exact ⟨⟨rfl, rfl, rfl, rfl, rfl, rfl, rfl, rfl⟩, _, _, rfl⟩

/-- `register_irq_handler` unmasks the line of the handler and puts the handler first in its list. -/
theorem registerIrqHandler_spec {s : Irqs} (h : Synced s) {handler : Nat} (hirq : s.irq handler < 16) :
    Synced (registerIrqHandler s handler) ∧
      (registerIrqHandler s handler).cachedIrqMask = s.cachedIrqMask &&& ~~~(1#16 <<< s.irq handler) ∧
      (registerIrqHandler s handler).irqHandlers = Function.update s.irqHandlers (s.irq handler) handler ∧
      (registerIrqHandler s handler).irq = s.irq := by
  unfold registerIrqHandler
  extract_lets s₁ s₂ s₃ s₄
  obtain ⟨p, h₃⟩ : ∃ p, s₃ = { s₁ with prev := p } := by
    simp only [s₃]
    split
    · exact ⟨_, rfl⟩
    · exact ⟨_, rfl⟩
  have h₄ : s₄ = { s₁ with prev := p, irqHandlers := Function.update s.irqHandlers (s.irq handler) handler } := by
    simp only [s₄, h₃]
    rfl
  have hsync : Synced s₄ := h.congr (by rw [h₄]) (by rw [h₄]) (by rw [h₄])
  have hirq₄ : s₄.irq handler = s.irq handler := by rw [h₄]
  rw [hirq₄]
  obtain ⟨hsync', m, sl, henable⟩ := enableIrq_spec hsync hirq
  refine ⟨hsync', ?_⟩
  rw [henable, h₄]
  exact ⟨rfl, rfl, rfl⟩

/-- The loop of `handle_irq` only calls handlers. -/
theorem callHandlers_frame {fuel : Nat} : ∀ {s s' : Irqs} {cur : Nat}, callHandlers fuel s cur = .ok s' →
    ∃ c, s' = { s with called := c } := by
  induction fuel with
  | zero => intro s s' cur h; cases h
  | succ fuel ih =>
    intro s s' cur h
    rw [callHandlers] at h
    split at h
    · cases h
      exact ⟨_, rfl⟩
    · obtain ⟨c, hs'⟩ := ih h
      split at hs'
      · exact ⟨c, hs'⟩
      · exact ⟨c, hs'⟩

/-- `handle_irq` masks the line and unmasks it again, whether a handler is registered for it or not. -/
theorem handleIrq_spec {s s' : Irqs} (h : Synced s) {irq fuel : Nat} (hirq : irq < 16) (hs : handleIrq fuel s irq = .ok s') :
    Synced s' ∧ (∀ j, s'.cachedIrqMask.getLsbD j = (s.cachedIrqMask.getLsbD j && decide (j ≠ irq))) ∧
      s'.irqHandlers = s.irqHandlers ∧ s'.irq = s.irq := by
  obtain ⟨hack, m, sl, sp, ms, heq⟩ := ackIrq_spec h hirq
  unfold handleIrq at hs
  obtain ⟨s₁, hcall, hs'⟩ := bind_eq_ok hs
  obtain ⟨c, hs₁⟩ := callHandlers_frame hcall
  cases hs'
  obtain ⟨ms', hs₁'⟩ : ∃ ms', s₁ = { ackIrq s irq with called := c, messages := ms' } := by
    split at hs₁
    · exact ⟨_, hs₁⟩
    · exact ⟨_, hs₁⟩
  have hsync : Synced s₁ := hack.congr (by rw [hs₁']) (by rw [hs₁']) (by rw [hs₁'])
  obtain ⟨hsync', m', sl', henable⟩ := enableIrq_spec hsync hirq
  refine ⟨hsync', fun j => ?_, ?_, ?_⟩
  · rw [henable]
    dsimp only
    rw [getLsbD_enable, hs₁', heq]
    dsimp only
    rw [getLsbD_disable hirq]
    by_cases hj : j = irq
    · simp [hj]
    · simp [hj]
  · rw [henable, hs₁', heq]
  · rw [henable, hs₁', heq]

end BootPerl
