import BootPerl.Lib.NullList
import BootPerl.Theorems.InterruptLines

/-!
# The lists of interrupt handlers (`kernel/irq.c`)

From boot on, over every run of registrations and complete interrupts. As long as no handler is registered twice on a line, its
handlers make up a list from the table of heads on, the latest first, and an interrupt calls each of them once in that order. The
second registration of a handler closes the list into a loop, and no interrupt of the line is handled to the end any more.
-/

namespace BootPerl

open Outcome

/-- The handlers registered on a line, the latest first. -/
def registeredOn (ops : List IrqOp) (irq : Nat) : List Nat :=
  (ops.filterMap fun op =>
    match op with
    | .register handler line => if line = irq then some handler else none
    | .handle _ => none).reverse

@[simp] theorem registeredOn_nil (irq : Nat) : registeredOn [] irq = [] := rfl

@[simp] theorem registeredOn_register (ops : List IrqOp) (handler line irq : Nat) :
    registeredOn (ops ++ [.register handler line]) irq =
      if line = irq then handler :: registeredOn ops irq else registeredOn ops irq := by
  unfold registeredOn
  split
  · rename_i h
    simp [h]
  · rename_i h
    simp [h]

@[simp] theorem registeredOn_handle (ops : List IrqOp) (line irq : Nat) :
    registeredOn (ops ++ [.handle line]) irq = registeredOn ops irq := by
  simp [registeredOn]

/-! ## What the operations write -/

/-- `register_irq_handler` pushes the handler in front of the head of its line. -/
theorem registerIrqHandler_links {s : Irqs} (h : Synced s) {handler : Nat} (hirq : s.irq handler < 16) :
    (registerIrqHandler s handler).next = Function.update s.next handler (s.irqHandlers (s.irq handler)) ∧
      (registerIrqHandler s handler).prev = pushPrev 0 s.prev handler (s.irqHandlers (s.irq handler)) ∧
      (registerIrqHandler s handler).handler = s.handler := by
  unfold registerIrqHandler
  extract_lets s₁ s₂ s₃ s₄
  have hnext : s₂.next handler = s.irqHandlers (s.irq handler) := by
    simp only [s₂, s₁, Function.update_self]
  have h₃ : s₃ = { s₁ with prev := pushPrev 0 s.prev handler (s.irqHandlers (s.irq handler)) } := by
    simp only [s₃, hnext, pushPrev]
    split
    · rfl
    · rfl
  have h₄ : s₄ = { s₃ with irqHandlers := Function.update s.irqHandlers (s.irq handler) handler } := by
    simp only [s₄, h₃]
    rfl
  have hsync : Synced s₄ := h.congr (by rw [h₄, h₃]) (by rw [h₄, h₃]) (by rw [h₄, h₃])
  have hirq₄ : s₄.irq handler = s.irq handler := by rw [h₄, h₃]
  rw [hirq₄]
  obtain ⟨-, m, sl, henable⟩ := enableIrq_spec hsync hirq
  rw [henable, h₄, h₃]
  exact ⟨rfl, rfl, rfl⟩

/-- The handlers of a list are called in its order, those without a function are passed over. -/
theorem callHandlers_of_list {l : List Nat} : ∀ {s : Irqs} {before cur fuel : Nat}, NullList 0 s.next s.prev before cur l →
    l.length < fuel →
    callHandlers fuel s cur = .ok { s with called := s.called ++ l.filter fun x => decide (s.handler x ≠ 0) } := by
  induction l with
  | nil =>
    intro s before cur fuel h hfuel
    obtain ⟨fuel, rfl⟩ := Nat.exists_eq_add_of_lt hfuel
    obtain rfl : cur = 0 := h
    simp [callHandlers]
  | cons a l ih =>
    intro s before cur fuel h hfuel
    obtain ⟨rfl, h0, -, hrest⟩ := h
    obtain ⟨fuel, rfl⟩ := Nat.exists_eq_add_of_lt hfuel
    rw [callHandlers, if_neg h0]
    have hlt : l.length < (cur :: l).length + fuel := by
      rw [List.length_cons]
      omega
    by_cases hh : s.handler cur ≠ 0
    · have hcalls : (cur :: l).filter (fun x => decide (s.handler x ≠ 0)) = cur :: l.filter fun x => decide (s.handler x ≠ 0) :=
        List.filter_cons_of_pos (decide_eq_true hh)
      have hcall := @ih { s with called := s.called ++ [cur] } cur (s.next cur) _ hrest hlt
      rw [if_pos hh, hcalls, hcall, List.append_assoc, List.singleton_append]
    · have hcalls : (cur :: l).filter (fun x => decide (s.handler x ≠ 0)) = l.filter fun x => decide (s.handler x ≠ 0) :=
        List.filter_cons_of_neg (by simpa using hh)
      rw [if_neg hh, hcalls]
      exact ih hrest hlt

/-- A loop is never left. -/
theorem callHandlers_of_loop {P : Nat → Prop} (fuel : Nat) : ∀ {s : Irqs} {cur : Nat}, LoopIn 0 s.next P cur →
    callHandlers fuel s cur = .running := by
  induction fuel with
  | zero => intro s cur _; rfl
  | succ fuel ih =>
    intro s cur h
    obtain ⟨C, hcur, hC⟩ := h
    obtain ⟨h0, -, hnext⟩ := hC cur hcur
    rw [callHandlers, if_neg h0]
    split
    · exact ih ⟨C, hnext, hC⟩
    · exact ih ⟨C, hnext, hC⟩

/-! ## What a run leaves -/

/-- The handlers of a line: a list of those registered, or a loop once one of them was registered twice. -/
structure HandlerInv (ops : List IrqOp) (s : Irqs) (irq : Nat) : Prop where
  line : ∀ x ∈ registeredOn ops irq, s.irq x = irq ∧ x ≠ 0
  list : (registeredOn ops irq).Nodup → NullList 0 s.next s.prev 0 (s.irqHandlers irq) (registeredOn ops irq)
  loop : ¬(registeredOn ops irq).Nodup → LoopIn 0 s.next (fun x => s.irq x = irq) (s.irqHandlers irq)

/-- The head of a line that is not null is a handler of the line. -/
theorem HandlerInv.head {ops : List IrqOp} {s : Irqs} {irq : Nat} (h : HandlerInv ops s irq) (h0 : s.irqHandlers irq ≠ 0) :
    s.irq (s.irqHandlers irq) = irq := by
  by_cases hnd : (registeredOn ops irq).Nodup
  · exact (h.line _ ((h.list hnd).head_mem h0)).1
  · obtain ⟨C, hcur, hC⟩ := h.loop hnd
    exact (hC _ hcur).2.1

/-- Only the links, the heads and the lines of the handlers matter. -/
theorem HandlerInv.congr {ops ops' : List IrqOp} {s s' : Irqs} {irq : Nat} (h : HandlerInv ops s irq)
    (hops : registeredOn ops' irq = registeredOn ops irq) (hirq : s'.irq = s.irq) (hhead : s'.irqHandlers irq = s.irqHandlers irq)
    (hnext : ∀ x, s.irq x = irq → s'.next x = s.next x) (hprev : ∀ x, x ≠ 0 → s.irq x = irq → s'.prev x = s.prev x) :
    HandlerInv ops' s' irq := by
  obtain ⟨hline, hlist, hloop⟩ := h
  refine ⟨?_, ?_, ?_⟩
  · rw [hops, hirq]
    exact hline
  · rw [hops, hhead]
    exact fun hnd => (hlist hnd).congr (fun x hx => hnext x (hline x hx).1) fun x hx => hprev x (hline x hx).2 (hline x hx).1
  · rw [hops, hhead, hirq]
    exact fun hnd => (hloop hnd).congr hnext

theorem HandlerInv.boot (s : Irqs) {irq : Nat} (hirq : irq < 16) : HandlerInv [] (initIrqVectors s) irq := by
  refine ⟨by simp, fun _ => ?_, fun hnd => absurd List.nodup_nil hnd⟩
  rw [initIrqVectors, registeredOn_nil]
  exact if_pos hirq

theorem HandlerInv.register {ops : List IrqOp} {s : Irqs} (hsync : Synced s) (h : ∀ irq, irq < 16 → HandlerInv ops s irq)
    {handler : Nat} (h0 : handler ≠ 0) (hline : s.irq handler < 16) {irq : Nat} (hirq : irq < 16) :
    HandlerInv (ops ++ [.register handler (s.irq handler)]) (registerIrqHandler s handler) irq := by
  obtain ⟨-, -, htable, hfield⟩ := registerIrqHandler_spec hsync hline
  obtain ⟨hnext, hprev, -⟩ := registerIrqHandler_links hsync hline
  have hinv := h irq hirq
  by_cases he : s.irq handler = irq
  · subst he
    have hhead : (registerIrqHandler s handler).irqHandlers (s.irq handler) = handler := by
      rw [htable, Function.update_self]
    have hops : registeredOn (ops ++ [.register handler (s.irq handler)]) (s.irq handler) =
        handler :: registeredOn ops (s.irq handler) := by
      rw [registeredOn_register, if_pos rfl]
    have hmembers : ∀ x ∈ registeredOn ops (s.irq handler), s.irq x = s.irq handler := fun x hx => (hinv.line x hx).1
    refine ⟨?_, ?_, ?_⟩
    · rw [hops, hfield]
      intro x hx
      rcases List.mem_cons.1 hx with rfl | hx
      · exact ⟨rfl, h0⟩
      · exact hinv.line x hx
    · rw [hops, hhead, hnext, hprev]
      intro hnd
      obtain ⟨hx, hnd⟩ := List.nodup_cons.1 hnd
      exact (hinv.list hnd).push hnd h0 hx
    · rw [hops, hhead, hnext, hfield]
      intro hnd
      by_cases hold : (registeredOn ops (s.irq handler)).Nodup
      · have hx : handler ∈ registeredOn ops (s.irq handler) := by
          by_contra hx
          exact hnd (List.nodup_cons.2 ⟨hx, hold⟩)
        exact (hinv.list hold).push_mem hx hold hmembers
      · exact (hinv.loop hold).push h0 rfl
  · -- a push on another line: neither its handler nor its head is on this one
    refine hinv.congr ?_ hfield ?_ (fun x hx => ?_) fun x hx0 hx => ?_
    · rw [registeredOn_register, if_neg he]
    · rw [htable, Function.update_of_ne (Ne.symm he)]
    · have hne : x ≠ handler := fun hxe => he (hxe ▸ hx)
      rw [hnext, Function.update_of_ne hne]
    · have hne : x ≠ handler := fun hxe => he (hxe ▸ hx)
      rw [hprev]
      refine pushPrev_of_ne hne fun _ hxe => he ?_
      rw [← (h _ hline).head (hxe ▸ hx0), ← hxe, hx]

/-- The state in which `handle_irq` begins to call the handlers. -/
def acknowledged (s : Irqs) (irq : Nat) : Irqs :=
  let s := ackIrq s irq
  if s.irqHandlers irq = 0 then { s with messages := s.messages ++ [.noHandler irq] } else s

theorem handleIrq_eq (fuel : Nat) (s : Irqs) (irq : Nat) :
    handleIrq fuel s irq =
      (callHandlers fuel (acknowledged s irq) ((acknowledged s irq).irqHandlers irq)).bind fun s => .ok (enableIrq s irq) := rfl

/-- Until then it has touched the chips, the cached mask and the messages. -/
theorem acknowledged_spec {s : Irqs} (h : Synced s) {irq : Nat} (hirq : irq < 16) :
    Synced (acknowledged s irq) ∧ ∃ mask m sl sp ms, acknowledged s irq =
      { s with cachedIrqMask := mask, master := m, slave := sl, spuriousMask := sp, messages := ms } := by
  obtain ⟨hack, m, sl, sp, ms, heq⟩ := ackIrq_spec h hirq
  unfold acknowledged
  dsimp only
  split
  · exact ⟨hack.congr rfl rfl rfl, _, m, sl, sp, _, by rw [heq]⟩
  · exact ⟨hack, _, m, sl, sp, ms, heq⟩

/-- A handled interrupt leaves the table, the handlers and their links alone. -/
theorem handleIrq_links {s s' : Irqs} (h : Synced s) {irq fuel : Nat} (hirq : irq < 16) (hs : handleIrq fuel s irq = .ok s') :
    s'.irqHandlers = s.irqHandlers ∧ s'.irq = s.irq ∧ s'.next = s.next ∧ s'.prev = s.prev := by
  obtain ⟨hack, mask, m, sl, sp, ms, heq⟩ := acknowledged_spec h hirq
  rw [handleIrq_eq] at hs
  obtain ⟨s₁, hcall, hs'⟩ := bind_eq_ok hs
  obtain ⟨c, rfl⟩ := callHandlers_frame hcall
  cases hs'
  have hsync : Synced { acknowledged s irq with called := c } := hack.congr rfl rfl rfl
  obtain ⟨-, m', sl', henable⟩ := enableIrq_spec hsync hirq
  rw [henable, heq]
  exact ⟨rfl, rfl, rfl, rfl⟩

theorem IrqRun.handlers {ops : List IrqOp} {s : Irqs} (h : IrqRun ops s) : ∀ irq, irq < 16 → HandlerInv ops s irq := by
  induction h with
  | boot _ => exact fun irq hirq => HandlerInv.boot _ hirq
  | step hrun hstep ih =>
    have hsync := hrun.inv.synced
    cases hstep with
    | register h0 hline => exact fun irq hirq => HandlerInv.register hsync ih h0 hline hirq
    | handle hline hcomes =>
      obtain ⟨n, hn⟩ := hcomes
      obtain ⟨htable, hfield, hnext, hprev⟩ := handleIrq_links hsync hline (hn n (Nat.le_refl n))
      intro irq hirq
      refine (ih irq hirq).congr (registeredOn_handle _ _ _) hfield ?_ (fun x _ => ?_) fun x _ _ => ?_
      · rw [htable]
      · rw [hnext]
      · rw [hprev]

/-! ## The calls of an interrupt -/

/-- Without a double registration an interrupt calls each handler of its line, the latest first, unless it has no function. -/
theorem handleIrq_of_nodup {ops : List IrqOp} {s : Irqs} (h : IrqRun ops s) {irq : Nat} (hirq : irq < 16)
    (hnd : (registeredOn ops irq).Nodup) : ∃ s', Comes (fun fuel => handleIrq fuel s irq) (.ok s') ∧
      s'.called = s.called ++ (registeredOn ops irq).filter fun handler => decide (s.handler handler ≠ 0) := by
  have hlist := (h.handlers irq hirq).list hnd
  obtain ⟨hack, mask, m, sl, sp, ms, heq⟩ := acknowledged_spec h.inv.synced hirq
  have hlist' : NullList 0 (acknowledged s irq).next (acknowledged s irq).prev 0 ((acknowledged s irq).irqHandlers irq)
      (registeredOn ops irq) := by
    rw [heq]
    exact hlist
  obtain ⟨s₁, hs₁⟩ : ∃ s₁, s₁ = { acknowledged s irq with
      called := s.called ++ (registeredOn ops irq).filter fun handler => decide (s.handler handler ≠ 0) } := ⟨_, rfl⟩
  have hcall : ∀ fuel, (registeredOn ops irq).length < fuel →
      callHandlers fuel (acknowledged s irq) ((acknowledged s irq).irqHandlers irq) = .ok s₁ := by
    intro fuel hfuel
    rw [callHandlers_of_list hlist' hfuel, hs₁, heq]
  have hsync : Synced s₁ := hack.congr (by rw [hs₁]) (by rw [hs₁]) (by rw [hs₁])
  obtain ⟨-, m', sl', henable⟩ := enableIrq_spec hsync hirq
  refine ⟨enableIrq s₁ irq, ⟨(registeredOn ops irq).length + 1, fun fuel hfuel => ?_⟩, ?_⟩
  · dsimp only
    rw [handleIrq_eq, hcall fuel hfuel, bind_ok]
  · rw [henable, hs₁]

/-- After a double registration no interrupt of the line is handled to the end. -/
theorem handleIrq_of_not_nodup {ops : List IrqOp} {s : Irqs} (h : IrqRun ops s) {irq : Nat} (hirq : irq < 16)
    (hnd : ¬(registeredOn ops irq).Nodup) (fuel : Nat) : handleIrq fuel s irq = .running := by
  have hloop := (h.handlers irq hirq).loop hnd
  obtain ⟨-, mask, m, sl, sp, ms, heq⟩ := acknowledged_spec h.inv.synced hirq
  have hloop' : LoopIn 0 (acknowledged s irq).next (fun x => s.irq x = irq) ((acknowledged s irq).irqHandlers irq) := by
    rw [heq]
    exact hloop
  rw [handleIrq_eq, callHandlers_of_loop fuel hloop']
  rfl

/-- An interrupt is handled to the end exactly if no handler was registered twice on its line, and then each handler registered
there that has a function is called once, the latest registered first. -/
theorem handle_irq_calls {ops : List IrqOp} {s : Irqs} (h : IrqRun ops s) {irq : Nat} (hirq : irq < 16) :
    ((∃ s', Comes (fun fuel => handleIrq fuel s irq) (.ok s')) ↔ (registeredOn ops irq).Nodup) ∧
      ∀ s', Comes (fun fuel => handleIrq fuel s irq) (.ok s') →
        s'.called = s.called ++ (registeredOn ops irq).filter fun handler => decide (s.handler handler ≠ 0) := by
  have hiff : (∃ s', Comes (fun fuel => handleIrq fuel s irq) (.ok s')) ↔ (registeredOn ops irq).Nodup := by
    constructor
    · intro ⟨s', n, hn⟩
      by_contra hnd
      have hok : handleIrq n s irq = .ok s' := hn n (Nat.le_refl n)
      rw [handleIrq_of_not_nodup h hirq hnd] at hok
      cases hok
    · intro hnd
      obtain ⟨s', hs', -⟩ := handleIrq_of_nodup h hirq hnd
      exact ⟨s', hs'⟩
  refine ⟨hiff, fun s' hs' => ?_⟩
  obtain ⟨s₁, hs₁, hcalled⟩ := handleIrq_of_nodup h hirq (hiff.1 ⟨s', hs'⟩)
  rw [hs'.ok_inj hs₁]
  exact hcalled

/-- A second handler registered on the timer's line. -/
theorem irqRun_second : IrqRun [.register 0x1000 0, .register 0x3000 0]
    (registerIrqHandler (registerIrqHandler freshIrqs 0x1000) 0x3000) :=
  irqRun_timer.step (.register (by decide) (by decide))

/-- A tick of the timer calls both handlers of its line, the second one first. -/
theorem handle_irq_calls_timer :
    ∃ s', Comes (fun fuel => handleIrq fuel (registerIrqHandler (registerIrqHandler freshIrqs 0x1000) 0x3000) 0) (.ok s') ∧
      s'.called = [0x3000, 0x1000] := by
  obtain ⟨hiff, hcalled⟩ := handle_irq_calls irqRun_second (show 0 < 16 by decide)
  obtain ⟨s', hs'⟩ := hiff.2 (show [0x3000, 0x1000].Nodup by decide)
  exact ⟨s', hs', hcalled s' hs'⟩

end BootPerl
