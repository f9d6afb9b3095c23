import BootPerl.Lemmas.Irq

/-!
# Which interrupt lines are open, over whole runs

From boot on, over every run of registrations and complete interrupts. A line is open in the mask exactly when a handler was
registered for it or an interrupt on it was handled; a handler is on its list exactly when one was registered. So a line that was
handled without a handler stays open, and a line of the slave is deliverable only if the cascade line was opened that way.
-/

namespace BootPerl

open Outcome

/-- A complete operation: the registration of a handler for a line, or a run of `handle_irq` for a line. -/
inductive IrqOp where
  | register (handler irq : Nat)
  | handle (irq : Nat)
  deriving DecidableEq, Repr

/-- The variables at boot, before the chips are initialised; the chips and the handlers hold anything. -/
structure IrqBoot (s : Irqs) : Prop where
  cachedIrqMask : s.cachedIrqMask = 0xffff
  spuriousMask : s.spuriousMask = 0

/-- One operation, on a line below 16. -/
inductive IrqStep (s : Irqs) : IrqOp → Irqs → Prop where
  | register {handler : Nat} : handler ≠ 0 → s.irq handler < 16 →
      IrqStep s (.register handler (s.irq handler)) (registerIrqHandler s handler)
  | handle {irq : Nat} {s' : Irqs} : irq < 16 → Comes (fun fuel => handleIrq fuel s irq) (.ok s') → IrqStep s (.handle irq) s'

/-- The operations since boot, in order, and the state they lead to. -/
inductive IrqRun : List IrqOp → Irqs → Prop where
  | boot {s : Irqs} : IrqBoot s → IrqRun [] (initIrqVectors (init8259A s))
  | step {ops : List IrqOp} {s s' : Irqs} {op : IrqOp} : IrqRun ops s → IrqStep s op s' → IrqRun (ops ++ [op]) s'

/-- A handler was registered for the line. -/
def RegisteredIn (ops : List IrqOp) (irq : Nat) : Prop := ∃ handler, .register handler irq ∈ ops

/-- Open lines have a handler. -/
def OnlyRegisteredOpen (s : Irqs) : Prop := ∀ irq, irq < 16 → s.cachedIrqMask.getLsbD irq = false → s.irqHandlers irq ≠ 0

/-- A line that is not masked on its chip, nor on the way from there: a line of the slave goes through the input of the master
that ICW3 names on both chips. -/
def Reachable (s : Irqs) (irq : Nat) : Prop :=
  if irq < 8 then s.master.imr.getLsbD irq = false
  else s.slave.imr.getLsbD (irq - 8) = false ∧ s.master.icw3.getLsbD s.slave.icw3.toNat = true ∧
    s.master.imr.getLsbD s.slave.icw3.toNat = false

/-- Every line with a handler reaches the processor. -/
def Deliverable (s : Irqs) : Prop := ∀ irq, irq < 16 → irq ≠ 2 → s.irqHandlers irq ≠ 0 → Reachable s irq

/-! ## What a run leaves -/

theorem registeredIn_concat (ops : List IrqOp) (op : IrqOp) (irq : Nat) :
    RegisteredIn (ops ++ [op]) irq ↔ RegisteredIn ops irq ∨ ∃ handler, op = .register handler irq := by
  simp only [RegisteredIn, List.mem_append, List.mem_singleton, eq_comm (b := op), exists_or]

/-- The chips are in step with the cached mask, a line is open if it was registered or handled, and has a handler if it was
registered. -/
structure IrqInv (ops : List IrqOp) (s : Irqs) : Prop where
  synced : Synced s
  opened : ∀ irq, irq < 16 → (s.cachedIrqMask.getLsbD irq = false ↔ RegisteredIn ops irq ∨ .handle irq ∈ ops)
  handlers : ∀ irq, irq < 16 → (s.irqHandlers irq ≠ 0 ↔ RegisteredIn ops irq)

theorem IrqInv.boot {s : Irqs} (h : IrqBoot s) : IrqInv [] (initIrqVectors (init8259A s)) := by
  obtain ⟨hsync, m, sl, hinit⟩ := init8259A_spec s
  have hmask : (init8259A s).cachedIrqMask = 0xffff := by
    rw [hinit]
    exact h.cachedIrqMask
  generalize init8259A s = s₁ at hsync hmask
  refine ⟨hsync.congr rfl rfl rfl, fun irq hirq => ?_, fun irq hirq => ?_⟩
  · rw [initIrqVectors, hmask]
    simp only [RegisteredIn, List.not_mem_nil, exists_false, or_self, iff_false, Bool.not_eq_false]
    interval_cases irq <;> rfl
  · simp [initIrqVectors, hirq, RegisteredIn]

theorem IrqInv.register {ops : List IrqOp} {s : Irqs} (h : IrqInv ops s) {handler : Nat} (h0 : handler ≠ 0)
    (hirq : s.irq handler < 16) : IrqInv (ops ++ [.register handler (s.irq handler)]) (registerIrqHandler s handler) := by
  obtain ⟨hsync, hmask, htable, -⟩ := registerIrqHandler_spec h.synced hirq
  refine ⟨hsync, fun irq hlt => ?_, fun irq hlt => ?_⟩
  · have hopened := h.opened irq hlt
    rw [hmask, getLsbD_enable, registeredIn_concat]
    by_cases he : irq = s.irq handler
    · simp [he]
    · simp [he, Ne.symm he, hopened]
  · have hhandlers := h.handlers irq hlt
    rw [htable, registeredIn_concat]
    by_cases he : irq = s.irq handler
    · simp [he, h0]
    · simp [he, Ne.symm he, hhandlers]

theorem IrqInv.handle {ops : List IrqOp} {s s' : Irqs} (h : IrqInv ops s) {irq fuel : Nat} (hirq : irq < 16)
    (hs : handleIrq fuel s irq = .ok s') : IrqInv (ops ++ [.handle irq]) s' := by
  obtain ⟨hsync, hmask, htable, -⟩ := handleIrq_spec h.synced hirq hs
  refine ⟨hsync, fun j hj => ?_, fun j hj => ?_⟩
  · have hopened := h.opened j hj
    rw [hmask, registeredIn_concat]
    by_cases he : j = irq
    · simp [he]
    · simp [he, hopened]
  · have hhandlers := h.handlers j hj
    rw [htable, registeredIn_concat]
    simp [hhandlers]

theorem IrqRun.inv {ops : List IrqOp} {s : Irqs} (h : IrqRun ops s) : IrqInv ops s := by
  induction h with
  | boot hboot => exact IrqInv.boot hboot
  | step _ hstep ih =>
    cases hstep with
    | register h0 hirq => exact ih.register h0 hirq
    | handle hirq hcomes =>
      obtain ⟨n, hn⟩ := hcomes
      exact ih.handle hirq (hn n (Nat.le_refl n))

/-- The way of a line to the processor, in the cached mask. -/
theorem reachable_iff {s : Irqs} (h : Synced s) {irq : Nat} (hirq : irq < 16) :
    Reachable s irq ↔ s.cachedIrqMask.getLsbD irq = false ∧ (8 ≤ irq → s.cachedIrqMask.getLsbD 2 = false) := by
  unfold Reachable
  rw [h.masterMask, h.slaveMask, h.masterCascade, h.slaveCascade, maskByte_getLsbD, maskByte_getLsbD, maskByte_getLsbD]
  by_cases h8 : 8 ≤ irq
  · have hsub : 8 * 1 + (irq - 8) = irq := by omega
    simp [h8, hsub, Nat.not_lt.2 h8, show irq - 8 < 8 by omega]
  · simp [h8, Nat.lt_of_not_le h8]

/-! ## Runs -/

/-- The chips and the variables at boot, a handler at 0x1000 for the timer and one at 0x2000 for a line of the slave. -/
def bootIrqs : Irqs where
  master := ⟨0, 0, 0, 0, 0, .ready⟩
  slave := ⟨0, 0, 0, 0, 0, .ready⟩
  cachedIrqMask := 0xffff
  spuriousMask := 0
  irqHandlers _ := 0
  irq handler := if handler = 0x2000 then 12 else 0
  handler _ := 0x100000
  next _ := 0
  prev _ := 0
  called := []
  messages := []

/-- The state after boot. -/
def freshIrqs : Irqs := initIrqVectors (init8259A bootIrqs)

theorem irqRun_fresh : IrqRun [] freshIrqs := .boot ⟨rfl, rfl⟩

/-- The first registration after boot. -/
theorem irqRun_register {handler : Nat} (h0 : handler ≠ 0) (hirq : freshIrqs.irq handler < 16) :
    IrqRun [.register handler (freshIrqs.irq handler)] (registerIrqHandler freshIrqs handler) :=
  irqRun_fresh.step (.register h0 hirq)

/-- The registration of the timer. -/
theorem irqRun_timer : IrqRun [.register 0x1000 0] (registerIrqHandler freshIrqs 0x1000) :=
  irqRun_register (by decide) (by decide)

/-- A tick of the timer is handled to the end. -/
theorem step_tick : ∃ s, IrqStep (registerIrqHandler freshIrqs 0x1000) (.handle 0) s := by
  refine ⟨enableIrq { ackIrq (registerIrqHandler freshIrqs 0x1000) 0 with called := [0x1000] } 0, .handle (by decide)
    ⟨2, fun fuel hfuel => ?_⟩⟩
  obtain ⟨fuel, rfl⟩ := Nat.exists_eq_add_of_le' hfuel
  rfl

/-- An interrupt on a line without a handler is handled to the end. -/
theorem handleIrq_of_none {s : Irqs} {irq : Nat} (hirq : irq < 16) (hnone : (ackIrq s irq).irqHandlers irq = 0) :
    ∃ s', IrqStep s (.handle irq) s' := by
  obtain ⟨s₁, hs₁⟩ : ∃ s₁, s₁ = { ackIrq s irq with messages := (ackIrq s irq).messages ++ [IrqMessage.noHandler irq] } :=
    ⟨_, rfl⟩
  refine ⟨enableIrq s₁ irq, .handle hirq ⟨1, fun fuel hfuel => ?_⟩⟩
  obtain ⟨fuel, rfl⟩ := Nat.exists_eq_add_of_le' hfuel
  simp only [handleIrq, hnone, callHandlers, reduceIte, bind_ok, hs₁]

/-! ## Only registered lines are open -/

/-- A line is open without a handler exactly if it was handled and no handler was registered for it: the comment in
`init_irq_vectors` holds as long as `handle_irq` runs for registered lines only. -/
theorem only_registered_open_iff {ops : List IrqOp} {s : Irqs} (h : IrqRun ops s) :
    OnlyRegisteredOpen s ↔ ∀ irq, .handle irq ∈ ops → irq < 16 → RegisteredIn ops irq := by
  obtain ⟨-, hopened, hhandlers⟩ := h.inv
  constructor
  · intro hopen irq hmem hirq
    exact (hhandlers irq hirq).1 (hopen irq hirq ((hopened irq hirq).2 (Or.inr hmem)))
  · intro hreg irq hirq hmask
    rw [hhandlers irq hirq]
    rcases (hopened irq hirq).1 hmask with hr | hmem
    · exact hr
    · exact hreg irq hmem hirq

/-- The timer's line after its registration and a tick. -/
theorem only_registered_open_iff_timer : ∃ s, IrqRun [.register 0x1000 0, .handle 0] s ∧ OnlyRegisteredOpen s := by
  obtain ⟨s, hstep⟩ := step_tick
  have hrun : IrqRun ([.register 0x1000 0] ++ [.handle 0]) s := irqRun_timer.step hstep
  refine ⟨s, hrun, (only_registered_open_iff hrun).2 fun irq hmem _ => ?_⟩
  obtain rfl : irq = 0 := by simpa using hmem
  exact ⟨0x1000, by simp⟩

/-- A spurious interrupt on line 5, for which no handler was ever registered, leaves the line open. -/
theorem only_registered_open_false : ∃ s, IrqRun [.handle 5] s ∧ ¬OnlyRegisteredOpen s := by
  obtain ⟨s, hstep⟩ := @handleIrq_of_none freshIrqs 5 (by decide) rfl
  have hrun : IrqRun ([] ++ [.handle 5]) s := irqRun_fresh.step hstep
  refine ⟨s, hrun, fun hopen => ?_⟩
  obtain ⟨-, hopened, hhandlers⟩ := hrun.inv
  have hmask := (hopened 5 (by decide)).2 (Or.inr (by simp))
  obtain ⟨handler, hmem⟩ := (hhandlers 5 (by decide)).1 (hopen 5 (by decide) hmask)
  simp at hmem

/-! ## Registered lines are deliverable -/

/-- Registered lines are deliverable exactly if none of them is on the slave or the cascade line was handled. -/
theorem deliverable_iff {ops : List IrqOp} {s : Irqs} (h : IrqRun ops s) (hcascade : ¬RegisteredIn ops 2) :
    Deliverable s ↔ (∀ irq, irq < 16 → RegisteredIn ops irq → irq < 8) ∨ .handle 2 ∈ ops := by
  obtain ⟨hsync, hopened, hhandlers⟩ := h.inv
  have htwo : s.cachedIrqMask.getLsbD 2 = false ↔ .handle 2 ∈ ops := by
    rw [hopened 2 (by decide), or_iff_right hcascade]
  constructor
  · intro hdel
    by_cases hhandled : .handle 2 ∈ ops
    · exact Or.inr hhandled
    · refine Or.inl fun irq hirq hreg => ?_
      by_contra h8
      have hne : irq ≠ 2 := fun he => hcascade (he ▸ hreg)
      have hreach := hdel irq hirq hne ((hhandlers irq hirq).2 hreg)
      exact hhandled (htwo.1 (((reachable_iff hsync hirq).1 hreach).2 (Nat.le_of_not_lt h8)))
  · intro hcond irq hirq _ htable
    have hreg := (hhandlers irq hirq).1 htable
    rw [reachable_iff hsync hirq]
    refine ⟨(hopened irq hirq).2 (Or.inl hreg), fun h8 => ?_⟩
    rcases hcond with hlow | hhandled
    · exact absurd (hlow irq hirq hreg) (Nat.not_lt.2 h8)
    · exact htwo.2 hhandled

/-- The timer's line, on the master. -/
theorem deliverable_iff_timer : Deliverable (registerIrqHandler freshIrqs 0x1000) :=
  (deliverable_iff irqRun_timer (by simp [RegisteredIn])).2 (Or.inl fun irq _ hreg => by
    simp only [RegisteredIn, List.mem_singleton, IrqOp.register.injEq, exists_eq_left] at hreg
    omega)

/-- A handler registered for line 12 never runs: its own bit is clear, the bit of the cascade line is set. -/
theorem deliverable_false :
    IrqRun [.register 0x2000 12] (registerIrqHandler freshIrqs 0x2000) ∧
      ¬RegisteredIn [.register 0x2000 12] 2 ∧ ¬Deliverable (registerIrqHandler freshIrqs 0x2000) := by
  refine ⟨irqRun_register (by decide) (by decide), by simp [RegisteredIn], fun hdel => ?_⟩
  have hreach := hdel 12 (by decide) (by decide) (by decide)
  exact absurd hreach.2.2 (by decide)

end BootPerl
