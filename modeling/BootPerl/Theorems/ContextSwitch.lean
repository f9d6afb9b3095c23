import BootPerl.Lemmas.Switch
import BootPerl.Lib.Run

/-!
# The context switch is transparent

Tasks call `switch_to` in any order, and in between run code that leaves the memory of the tasks switched out alone. A call
returns with the registers and the stack that it was made with.
-/

namespace BootPerl

open Machine

/-- The processor, the task that runs, and the tasks that have called `switch_to` and are switched out. -/
structure SwitchState where
  machine : Machine
  current : UInt32
  out : UInt32 → Option Snapshot

/-- After the call of `switch_to` by the current task. -/
def SwitchState.switchTo (s : SwitchState) (next : UInt32) (top : Nat) : SwitchState where
  machine := s.machine.switchTo
  current := next
  out :=
    if next = s.current then s.out
    else Function.update (Function.update s.out s.current (some ⟨s.machine, top⟩)) next none

/-- The current task calls `switch_to(next, current)`, and its memory is no other task's. -/
structure Calls (s : SwitchState) (next : UInt32) (top : Nat) : Prop where
  called : Called ⟨s.machine, top⟩ next s.current
  apart : ∀ t c, s.out t = some c → ∀ x ∈ region s.current ⟨s.machine, top⟩, x ∉ region t c

/-- A task that has not run yet: the word on top of its stack is zero, and its stack is no other task's. -/
structure NewTask (s : SwitchState) (next : UInt32) (top E : Nat) : Prop where
  task : next.toNat + 0x40 ≤ 4294967296
  esp : s.machine.mem.load (next.toNat + 0x10) 4 = E
  stack : ∃ r a b, Words s.machine.mem E [0, r, a, b]
  room : E + 16 < 4294967296
  apart : ∀ x ∈ window (next.toNat + 0x10) 4 ∪ window E 16, x ∉ region s.current ⟨s.machine, top⟩
  others : ∀ t c, s.out t = some c → ∀ x ∈ window E 16, x ∉ region t c

/-- One task runs, and no other has. -/
def SwitchInit (s : SwitchState) : Prop := ∀ t, s.out t = none

/-- Code of the current task, or a call of `switch_to`: to the current task or one that is switched out, or to a new one. -/
inductive SwitchStep (s : SwitchState) : SwitchState → Prop where
  | run {m : Machine} : (∀ t c, s.out t = some c → ∀ x ∈ region t c, m.mem.byte x = s.machine.mem.byte x) →
      SwitchStep s { s with machine := m }
  | switchTo {next : UInt32} {top : Nat} : Calls s next top → next = s.current ∨ s.out next ≠ none →
      SwitchStep s (s.switchTo next top)
  | start {next : UInt32} {top E : Nat} : Calls s next top → next ≠ s.current → s.out next = none → NewTask s next top E →
      SwitchStep s (s.switchTo next top)

/-- Memory holds every task that is switched out, each in memory of its own. -/
structure SwitchInv (s : SwitchState) : Prop where
  current : s.out s.current = none
  saved : ∀ t c, s.out t = some c → ∃ next, Called c next t ∧ Saved s.machine.mem t c next
  apart : ∀ t c t' c', t ≠ t' → s.out t = some c → s.out t' = some c' → ∀ x ∈ region t c, x ∉ region t' c'

namespace SwitchInv
variable {s : SwitchState}

theorem init (h : SwitchInit s) : SwitchInv s :=
  ⟨h _, fun t c hc => by simp [h t] at hc, fun t c _ _ _ hc => by simp [h t] at hc⟩

/-- Code that leaves the memory of the tasks switched out. -/
theorem run (h : SwitchInv s) {m : Machine}
    (hm : ∀ t c, s.out t = some c → ∀ x ∈ region t c, m.mem.byte x = s.machine.mem.byte x) :
    SwitchInv { s with machine := m } := by
  refine ⟨h.current, fun t c hc => ?_, h.apart⟩
  obtain ⟨next, hcall, hsaved⟩ := h.saved t c hc
  exact ⟨next, hcall, hsaved.congr hcall (hm t c hc)⟩

/-- The words that a call pushes back lie in the memory of its task. -/
theorem window_region {c : Snapshot} {next prev : UInt32} (hc : Called c next prev) :
    ∀ x ∈ window (c.entry.esp.toNat + 4) 8, x ∈ region prev c := by
  intro x hx
  have h1 := hx.1
  have h2 := hx.2
  have h3 := hc.high
  exact Or.inl ⟨by omega, by omega⟩

/-- A switch to the current task. -/
theorem switchTo_self (h : SwitchInv s) {top : Nat} (hc : Calls s s.current top) :
    SwitchInv (s.switchTo s.current top) ∧ Returned ⟨s.machine, top⟩ s.machine.switchTo := by
  obtain ⟨hret, hframe⟩ := returned_self hc.called
  have hinv := h.run (m := s.machine.switchTo) fun t c ht x hx =>
    (hframe x fun hw => hc.apart t c ht x (window_region hc.called x hw) hx).1
  refine ⟨?_, hret⟩
  unfold SwitchState.switchTo
  rw [if_pos rfl]
  exact hinv

/-- The tasks that are switched out after a switch to another task. -/
theorem out_switchTo {next t : UInt32} {top : Nat} {c : Snapshot} (hne : next ≠ s.current)
    (h : (s.switchTo next top).out t = some c) :
    t ≠ next ∧ (t = s.current ∧ c = ⟨s.machine, top⟩ ∨ t ≠ s.current ∧ s.out t = some c) := by
  unfold SwitchState.switchTo at h
  rw [if_neg hne] at h
  dsimp only at h
  by_cases htn : t = next
  · rw [htn, Function.update_self] at h
    nomatch h
  · rw [Function.update_of_ne htn] at h
    refine ⟨htn, ?_⟩
    by_cases htc : t = s.current
    · rw [htc, Function.update_self] at h
      exact Or.inl ⟨htc, (Option.some.inj h).symm⟩
    · rw [Function.update_of_ne htc] at h
      exact Or.inr ⟨htc, h⟩

/-- What memory holds of the tasks that are switched out, after the save half. -/
theorem saved_saveTask (h : SwitchInv s) {next t : UInt32} {top : Nat} {c : Snapshot} (hc : Calls s next top)
    (hout : s.out t = some c) : ∃ n, Called c n t ∧ Saved s.machine.swapArgs.saveTask.mem t c n := by
  obtain ⟨-, hsave, -⟩ := saveTask_spec hc.called
  obtain ⟨n, hcall, hsaved⟩ := h.saved t c hout
  exact ⟨n, hcall, hsaved.congr hcall fun x hx => (hsave x fun hin => hc.apart t c hout x hin hx).1⟩

/-- A switch to another task whose second half writes to no memory of a task that is switched out then. -/
theorem switchTo_other (h : SwitchInv s) {next : UInt32} {top : Nat} (hc : Calls s next top) (hne : next ≠ s.current)
    {X : Set Nat} (hframe : Mem.Frame X s.machine.swapArgs.saveTask.mem s.machine.switchTo.mem)
    (hcur : ∀ x ∈ X, x ∉ region s.current ⟨s.machine, top⟩)
    (hout : ∀ t c, t ≠ next → s.out t = some c → ∀ x ∈ X, x ∉ region t c) : SwitchInv (s.switchTo next top) := by
  refine ⟨?_, fun t c ht => ?_, fun t c t' c' htt ht ht' x hx hx' => ?_⟩
  · have hcurrent : (s.switchTo next top).current = next := rfl
    rw [hcurrent]
    unfold SwitchState.switchTo
    rw [if_neg hne]
    exact Function.update_self _ _ _
  · obtain ⟨htn, ⟨rfl, rfl⟩ | ⟨-, hold⟩⟩ := out_switchTo hne ht
    · refine ⟨next, hc.called, (saveTask_spec hc.called).1.congr hc.called fun x hx => (hframe x fun hin => ?_).1⟩
      exact hcur x hin hx
    · obtain ⟨n, hcall, hsaved⟩ := h.saved_saveTask hc hold
      exact ⟨n, hcall, hsaved.congr hcall fun x hx => (hframe x fun hin => hout t c htn hold x hin hx).1⟩
  · obtain ⟨-, ⟨rfl, rfl⟩ | ⟨-, hold⟩⟩ := out_switchTo hne ht
    · obtain ⟨-, ⟨rfl, rfl⟩ | ⟨-, hold'⟩⟩ := out_switchTo hne ht'
      · exact htt rfl
      · exact hc.apart t' c' hold' x hx hx'
    · obtain ⟨-, ⟨rfl, rfl⟩ | ⟨-, hold'⟩⟩ := out_switchTo hne ht'
      · exact hc.apart t c hold x hx' hx
      · exact h.apart t c t' c' htt hold hold' x hx hx'

/-- A switch to a task that is switched out returns from its call. -/
theorem switchTo_out (h : SwitchInv s) {next : UInt32} {top : Nat} (hc : Calls s next top) {c : Snapshot}
    (hnext : s.out next = some c) : SwitchInv (s.switchTo next top) ∧ Returned c s.machine.switchTo := by
  have hne : next ≠ s.current := by
    rintro rfl
    rw [h.current] at hnext
    nomatch hnext
  obtain ⟨n, hcall, hsaved⟩ := h.saved_saveTask hc hnext
  obtain ⟨hret, hframe⟩ := resume_spec hcall hsaved (saveTask_spec hc.called).2.2
  have hto := switchTo_eq_resume hc.called hne
  dsimp only at hto
  rw [← hto] at hret hframe
  refine ⟨h.switchTo_other hc hne hframe (fun x hx hin => ?_) fun t c' htn ht x hx hin => ?_, hret⟩
  · exact hc.apart next c hnext x hin (window_region hcall x hx)
  · exact h.apart next c t c' (Ne.symm htn) hnext ht x (window_region hcall x hx) hin

/-- A switch to a new task. -/
theorem start (h : SwitchInv s) {next : UInt32} {top E : Nat} (hc : Calls s next top) (hne : next ≠ s.current)
    (hnew : NewTask s next top E) : SwitchInv (s.switchTo next top) := by
  obtain ⟨-, hsave, hebp⟩ := saveTask_spec hc.called
  obtain ⟨r, a, b, hwords⟩ := hnew.stack
  have hesp : s.machine.swapArgs.saveTask.mem.load (next.toNat + 0x10) 4 = E := by
    rw [hsave.load fun x h1 h2 => hnew.apart x (Or.inl ⟨h1, h2⟩)]
    exact hnew.esp
  have hwords' := hwords.of_frame hsave fun x hx => hnew.apart x (Or.inr hx)
  obtain ⟨-, -, -, hframe⟩ := resume_new hebp hnew.task hesp hwords' hnew.room
  have hto := switchTo_eq_resume hc.called hne
  dsimp only at hto
  rw [← hto] at hframe
  have hin : ∀ x ∈ window (E + 8) 8, x ∈ window E 16 := fun x hx => ⟨Nat.le_trans (Nat.le_add_right _ _) hx.1, hx.2⟩
  exact h.switchTo_other hc hne hframe (fun x hx => hnew.apart x (Or.inr (hin x hx)))
    fun t c _ ht x hx => hnew.others t c ht x (hin x hx)

/-- Every step keeps the invariant. -/
theorem step (h : SwitchInv s) {s' : SwitchState} (hstep : SwitchStep s s') : SwitchInv s' := by
  cases hstep with
  | run hm => exact h.run hm
  | @switchTo next top hc hnext =>
    by_cases he : next = s.current
    · subst he
      exact (h.switchTo_self hc).1
    · obtain ⟨c, hout⟩ := Option.ne_none_iff_exists'.1 (hnext.resolve_left he)
      exact (h.switchTo_out hc hout).1
  | start hc hne _ hnew => exact h.start hc hne hnew

end SwitchInv

/-- In every run, a call of `switch_to` that goes to a task switched out returns from the call that this task made, and a call
that goes to the current task returns at once, with the registers and the stack of the call. -/
theorem switch_to_transparent {s : SwitchState} (h : Reach SwitchInit SwitchStep s) {next : UInt32} {top : Nat}
    (hc : Calls s next top) :
    (next = s.current → Returned ⟨s.machine, top⟩ (s.switchTo next top).machine) ∧
      ∀ c, s.out next = some c → Returned c (s.switchTo next top).machine := by
  have hinv : SwitchInv s := h.invariant (fun _ => SwitchInv.init) fun _ _ hs hstep => hs.step hstep
  refine ⟨fun he => ?_, fun c hout => (hinv.switchTo_out hc hout).2⟩
  subst he
  exact (hinv.switchTo_self hc).2

/-- Memory and stack of a task at `0x1000` that calls `switch_to` for a new task at `0x1100`. -/
def firstCall : SwitchState where
  machine :=
    { eax := 0, ebx := 0, ecx := 0, edx := 0, esi := 0, edi := 0, ebp := 0, esp := 0x2000, eip := 0, cs := 0, ds := 0, es := 0, ss := 0,
      eflags := 0,
      mem := (((⟨fun _ => 0, fun _ => false⟩ : Mem).store 0x2004 4 0x1100).store 0x2008 4 0x1000).store 0x1110 4 0x3000 }
  current := 0x1000
  out _ := none

/-- The new task has run and calls `switch_to` for the first one. -/
def secondMachine : Machine :=
  { firstCall.machine with
    esp := 0x3100, mem := (firstCall.machine.switchTo.mem.store 0x3104 4 0x1000).store 0x3108 4 0x1100 }

def secondCall : SwitchState := { firstCall.switchTo 0x1100 0x2100 with machine := secondMachine }

theorem calls_firstCall : Calls firstCall 0x1100 0x2100 := by
  refine ⟨⟨⟨rfl, ?_, by decide⟩, by decide, by decide, by decide, by decide⟩, fun t c hc => by nomatch hc⟩
  exact ⟨by decide, by decide, by decide, trivial⟩

theorem newTask_firstCall : NewTask firstCall 0x1100 0x2100 0x3000 := by
  refine ⟨by decide, by decide, ⟨0, 0, 0, by decide, by decide, by decide, by decide, trivial⟩, by decide, fun x hx hin => ?_,
    fun t c hc => by nomatch hc⟩
  have hreg : (0x2000 ≤ x + 40 ∧ x < 0x2100) ∨ (0x1010 ≤ x ∧ x < 0x1016) := hin
  have hwin : (0x1110 ≤ x ∧ x < 0x1114) ∨ (0x3000 ≤ x ∧ x < 0x3010) := hx
  omega

theorem out_secondCall {t : UInt32} {c : Snapshot} (h : secondCall.out t = some c) : t = 0x1000 ∧ c = ⟨firstCall.machine, 0x2100⟩ := by
  have hout : secondCall.out = (firstCall.switchTo 0x1100 0x2100).out := rfl
  rw [hout] at h
  obtain ⟨-, ⟨ht, hc⟩ | ⟨-, hold⟩⟩ := @SwitchInv.out_switchTo firstCall 0x1100 t 0x2100 c (by decide) h
  · exact ⟨ht, hc⟩
  · nomatch hold

theorem byte_secondMachine {x : Nat} (hx : x < 0x3104) : secondMachine.mem.byte x = firstCall.machine.switchTo.mem.byte x := by
  unfold secondMachine
  dsimp only
  rw [Mem.byte_store_of_outside (by omega), Mem.byte_store_of_outside (by omega)]

theorem load_secondMachine : secondMachine.mem.load 0x3104 4 = 0x1000 ∧ secondMachine.mem.load 0x3108 4 = 0x1100 := by
  unfold secondMachine
  dsimp only
  rw [Mem.load_store_of_disjoint (by decide), Mem.load_store_four (by decide), Mem.load_store_four (by decide)]
  exact ⟨rfl, rfl⟩

theorem calls_secondCall : Calls secondCall 0x1000 0x3200 := by
  have htop : secondMachine.mem.load 0x3100 4 = secondMachine.top.toNat := (word_toNat secondMachine 0x3100).symm
  have hstack : StackAt secondMachine 0x3100 [secondMachine.top, 0x1000, 0x1100] :=
    ⟨rfl, ⟨htop, load_secondMachine.1, load_secondMachine.2, trivial⟩, by decide⟩
  refine ⟨⟨hstack, by decide, by decide, by decide, by decide⟩, fun t c hc x hx hin => ?_⟩
  obtain ⟨rfl, rfl⟩ := out_secondCall hc
  have hreg : (0x3100 ≤ x + 40 ∧ x < 0x3200) ∨ (0x1110 ≤ x ∧ x < 0x1116) := hx
  have hreg' : (0x2000 ≤ x + 40 ∧ x < 0x2100) ∨ (0x1010 ≤ x ∧ x < 0x1016) := hin
  omega

/-- The first task's call returns. -/
theorem switch_to_transparent_back : Returned ⟨firstCall.machine, 0x2100⟩ (secondCall.switchTo 0x1000 0x3200).machine := by
  have hfirst : Reach SwitchInit SwitchStep firstCall := .init fun _ => rfl
  have hstart := hfirst.step (.start calls_firstCall (by decide) rfl newTask_firstCall)
  have hrun : ∀ t c, (firstCall.switchTo 0x1100 0x2100).out t = some c → ∀ x ∈ region t c,
      secondMachine.mem.byte x = firstCall.machine.switchTo.mem.byte x := by
    intro t c hc x hx
    obtain ⟨rfl, rfl⟩ := out_secondCall hc
    have hreg : (0x2000 ≤ x + 40 ∧ x < 0x2100) ∨ (0x1010 ≤ x ∧ x < 0x1016) := hx
    exact byte_secondMachine (by omega)
  have hsecond : Reach SwitchInit SwitchStep secondCall := hstart.step (.run hrun)
  have hout : secondCall.out 0x1000 = some ⟨firstCall.machine, 0x2100⟩ := by
    unfold secondCall SwitchState.switchTo
    dsimp only
    rw [if_neg (by decide), Function.update_of_ne (by decide)]
    exact Function.update_self _ _ _
  exact (switch_to_transparent hsecond calls_secondCall).2 _ hout

end BootPerl
