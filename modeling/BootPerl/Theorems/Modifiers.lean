import Mathlib.Tactic.IntervalCases
import BootPerl.Keyboard
import BootPerl.Lib.Run

/-!
# The modifier bits and the keys held, over whole runs

A modifier bit follows its key, or its two keys as long as neither of them is released while the other is down: each of the two
Shift keys, and of the two Ctrl keys, clears the one bit when it is released.
-/

namespace BootPerl

/-! ## Keys and their scan codes -/

/-- A physical key: its make code, and whether a prefix 0xe0 comes before it. No break code is taken for a prefix, and what comes
with a prefix is no Shift key. -/
structure Key where
  ext : Bool
  code : Nat
  valid : 0 < code ∧ code < 0x80 ∧ code ≠ 0x60 ∧ code ≠ 0x61
  noShift : ext = true → code ≠ 0x2a ∧ code ≠ 0x36
  deriving DecidableEq

def leftShift : Key := ⟨false, 0x2a, by decide, by decide⟩

def rightShift : Key := ⟨false, 0x36, by decide, by decide⟩

def leftCtrl : Key := ⟨false, 0x1d, by decide, by decide⟩

def rightCtrl : Key := ⟨true, 0x1d, by decide, by decide⟩

def leftAlt : Key := ⟨false, 0x38, by decide, by decide⟩

def rightAlt : Key := ⟨true, 0x38, by decide, by decide⟩

/-- A key goes down, or repeats, or goes up. -/
inductive KeyEvent where
  | press (k : Key)
  | release (k : Key)

/-- The key of an event. -/
def KeyEvent.key : KeyEvent → Key
  | .press k => k
  | .release k => k

/-- The make code of a key, or with bit 7 its break code. -/
def KeyEvent.code : KeyEvent → Nat
  | .press k => k.code
  | .release k => k.code ||| 0x80

/-- The scan codes of an event. -/
def KeyEvent.codes (e : KeyEvent) : List Nat := if e.key.ext then [0xe0, e.code] else [e.code]

/-- One interrupt for each scan code. -/
def typeCodes : Keyboard → List Nat → Option Keyboard
  | s, [] => some s
  | s, code :: codes => (doKeyboardInt s code).bind fun s => typeCodes s codes

/-- The keyboard, and the keys that are down. -/
structure Typing where
  kbd : Keyboard
  down : Key → Bool

/-- At boot no key is down. -/
def TypingInit (s : Typing) : Prop := s.kbd = Keyboard.boot ∧ s.down = fun _ => false

/-- A complete key event: a key that is released was down. -/
inductive TypingStep (s : Typing) : KeyEvent → Typing → Prop where
  | press {k : Key} {kbd : Keyboard} : typeCodes s.kbd (KeyEvent.press k).codes = some kbd →
      TypingStep s (.press k) ⟨kbd, Function.update s.down k true⟩
  | release {k : Key} {kbd : Keyboard} : s.down k = true → typeCodes s.kbd (KeyEvent.release k).codes = some kbd →
      TypingStep s (.release k) ⟨kbd, Function.update s.down k false⟩

/-- A bit of `shifts` is set. -/
def Keyboard.On (s : Keyboard) (bit : BitVec 32) : Prop := s.shifts &&& bit ≠ 0

/-- The four bits say which modifier keys are down. -/
structure Follows (s : Typing) : Prop where
  shift : s.kbd.On shShift ↔ s.down leftShift = true ∨ s.down rightShift = true
  ctrl : s.kbd.On shCtrl ↔ s.down leftCtrl = true ∨ s.down rightCtrl = true
  lalt : s.kbd.On shLalt ↔ s.down leftAlt = true
  ralt : s.kbd.On shRalt ↔ s.down rightAlt = true

/-- No Shift key is released while the other is down, and no Ctrl key. -/
def Apart (s : Typing) : KeyEvent → Prop
  | .press _ => True
  | .release k => (k = leftShift → s.down rightShift = false) ∧ (k = rightShift → s.down leftShift = false) ∧
      (k = leftCtrl → s.down rightCtrl = false) ∧ (k = rightCtrl → s.down leftCtrl = false)

/-! ## Bits -/

section
variable {x b b' : BitVec 32}

theorem or_and_self_bit : (x ||| b) &&& b = b := by
  apply BitVec.eq_of_getLsbD_eq
  intro i _
  rw [BitVec.getLsbD_and, BitVec.getLsbD_or]
  cases x.getLsbD i <;> cases b.getLsbD i <;> rfl

theorem and_not_and_self_bit : (x &&& ~~~b) &&& b = 0 := by
  apply BitVec.eq_of_getLsbD_eq
  intro i hi
  simp only [BitVec.getLsbD_and, BitVec.getLsbD_not, hi, decide_true, Bool.true_and]
  cases x.getLsbD i <;> cases b.getLsbD i <;> simp

/-- Setting a bit leaves the others. -/
theorem or_and_bit (h : b &&& b' = 0) : (x ||| b) &&& b' = x &&& b' := by
  apply BitVec.eq_of_getLsbD_eq
  intro i _
  have hi : (b.getLsbD i && b'.getLsbD i) = false := by rw [← BitVec.getLsbD_and, h]; simp
  rw [BitVec.getLsbD_and, BitVec.getLsbD_or, BitVec.getLsbD_and, Bool.and_or_distrib_right, hi, Bool.or_false]

/-- Clearing a bit leaves the others. -/
theorem and_not_and_bit (h : b &&& b' = 0) : (x &&& ~~~b) &&& b' = x &&& b' := by
  apply BitVec.eq_of_getLsbD_eq
  intro i hi
  have hb : (b.getLsbD i && b'.getLsbD i) = false := by rw [← BitVec.getLsbD_and, h]; simp
  simp only [BitVec.getLsbD_and, BitVec.getLsbD_not, hi, decide_true, Bool.true_and]
  cases hx : b.getLsbD i
  · simp
  · rw [hx, Bool.true_and] at hb
    simp [hb]

end

/-- The four modifier bits. -/
def modifierBits : List (BitVec 32) := [shShift, shCtrl, shLalt, shRalt]

theorem modifierBits_disjoint : ∀ b ∈ modifierBits, ∀ b' ∈ modifierBits, b ≠ b' → b &&& b' = 0 := by
  simp [modifierBits, shShift, shCtrl, shLalt, shRalt]

theorem ne_zero_of_modifier : ∀ b ∈ modifierBits, b ≠ 0 := by
  simp [modifierBits, shShift, shCtrl, shLalt, shRalt]

/-! ## What a key does to the modifier bits -/

/-- A modifier key sets or clears its own bit only. -/
theorem setModifier_on (s : Keyboard) {b b' : BitVec 32} (hb : b ∈ modifierBits) (hb' : b' ∈ modifierBits) (code : Nat) :
    (setModifier s b code).On b' ↔ if b = b' then code &&& 0x80 = 0 else s.On b' := by
  unfold setModifier Keyboard.On
  by_cases hcode : code &&& 0x80 = 0
  · rw [if_neg (not_not_intro hcode)]
    split
    · rename_i he
      subst he
      have h0 := ne_zero_of_modifier b hb
      rw [or_and_self_bit]
      exact iff_of_true h0 hcode
    · rename_i hne
      simp only [or_and_bit (modifierBits_disjoint b hb b' hb' hne)]
  · rw [if_pos hcode]
    split
    · rename_i he
      subst he
      simp [and_not_and_self_bit, hcode]
    · rename_i hne
      simp only [and_not_and_bit (modifierBits_disjoint b hb b' hb' hne)]

/-- A lock key leaves the modifier bits alone. -/
theorem toggleLock_on (s : Keyboard) {b b' : BitVec 32} (h : b &&& b' = 0) : (toggleLock s b).On b' ↔ s.On b' := by
  unfold toggleLock Keyboard.On
  split
  · simp only [and_not_and_bit h]
  · simp only [or_and_bit h]

theorem modifierBits_numlock : ∀ b ∈ modifierBits, shNumlock &&& b = 0 := by
  simp [modifierBits, shShift, shCtrl, shLalt, shRalt, shNumlock]

theorem modifierBits_capslock : ∀ b ∈ modifierBits, shCapslock &&& b = 0 := by
  simp [modifierBits, shShift, shCtrl, shLalt, shRalt, shCapslock]

theorem addBuffer_shifts (s : Keyboard) (c : Char) : (addBuffer s c).shifts = s.shifts := by
  unfold addBuffer
  dsimp only
  split
  · rfl
  · rfl

/-- A letter leaves all bits alone. -/
theorem keyLetter_shifts (s : Keyboard) (code : Nat) : (keyLetter s code).shifts = s.shifts := by
  unfold keyLetter
  extract_lets c
  split
  · split
    · rfl
    · split
      · rfl
      · split
        · rfl
        · rfl
  · exact addBuffer_shifts _ _

/-- The bit that a function of `key_table` sets and clears. -/
def funcBit (e0 : Nat) : KeyFunc → BitVec 32
  | .shift => shShift
  | .ctrl => shCtrl
  | .alt => if e0 = 1 then shRalt else shLalt
  | _ => 0

/-- The function of a key sets or clears its own bit only. -/
theorem callKey_on {s s' : Keyboard} {code : Nat} (h : callKey s code = some s') {b : BitVec 32} (hb : b ∈ modifierBits) :
    s'.On b ↔ if funcBit s.e0 (keyTable.getD code .none) = b then code &&& 0x80 = 0 else s.On b := by
  have hne : (0 : BitVec 32) ≠ b := (ne_zero_of_modifier b hb).symm
  unfold callKey at h
  cases hf : keyTable.getD code .none with
  | shift =>
    rw [hf] at h
    cases h
    exact setModifier_on s (by simp [modifierBits]) hb code
  | ctrl =>
    rw [hf] at h
    cases h
    exact setModifier_on s (by simp [modifierBits]) hb code
  | alt =>
    rw [hf] at h
    cases h
    unfold keyAlt funcBit
    split
    · exact setModifier_on s (by simp [modifierBits]) hb code
    · exact setModifier_on s (by simp [modifierBits]) hb code
  | letter =>
    rw [hf] at h
    cases h
    simp only [funcBit, hne, if_false, Keyboard.On, keyLetter_shifts]
  | num =>
    rw [hf] at h
    cases h
    simp only [funcBit, hne, if_false]
    exact toggleLock_on s (modifierBits_numlock b hb)
  | caps =>
    rw [hf] at h
    cases h
    simp only [funcBit, hne, if_false]
    exact toggleLock_on s (modifierBits_capslock b hb)
  | keypad =>
    rw [hf] at h
    simp only [keyKeypad] at h
    split at h
    · cases h
    · cases h
      simp only [funcBit, hne, if_false]
      exact Iff.rfl
  | none =>
    rw [hf] at h
    cases h
    simp only [funcBit, hne, if_false]
  | scroll | sysreq | func | win | menu =>
    rw [hf] at h
    cases h
    simp only [funcBit, hne, if_false]
    exact Iff.rfl

/-! ## What an event does to the modifier bits -/

/-- The bit of a key. -/
def keyBit (k : Key) : BitVec 32 :=
  if k.code = 0x2a ∨ k.code = 0x36 then shShift
  else if k.code = 0x1d then shCtrl
  else if k.code = 0x38 then if k.ext then shRalt else shLalt
  else 0

/-- An event leaves its key down. -/
def KeyEvent.Down : KeyEvent → Prop
  | .press _ => True
  | .release _ => False

/-- The modifier functions in `key_table`: a key has the same one for its make and its break code. -/
theorem keyTable_modifier : ∀ code < 0x80, ∀ c ∈ [code, code ||| 0x80],
    (keyTable.getD c .none = .shift ↔ code = 0x2a ∨ code = 0x36) ∧ (keyTable.getD c .none = .ctrl ↔ code = 0x1d) ∧
      (keyTable.getD c .none = .alt ↔ code = 0x38) := by
  decide +kernel

/-- Bit 7 tells a break code from a make code. -/
theorem code_bits : ∀ code < 0x80, code &&& 0x80 = 0 ∧ (code ||| 0x80) &&& 0x80 ≠ 0 ∧ code ||| 0x80 = code + 0x80 := by
  decide

theorem KeyEvent.code_mem (e : KeyEvent) : e.code ∈ [e.key.code, e.key.code ||| 0x80] := by
  cases e with
  | press k => exact List.mem_cons_self
  | release k => exact List.mem_cons_of_mem _ List.mem_cons_self

/-- No code of a key is taken for a prefix, and bit 7 is clear if the key goes down. -/
theorem KeyEvent.code_not_prefix (e : KeyEvent) : e.code ≠ 0xe0 ∧ e.code ≠ 0xe1 ∧ (e.code &&& 0x80 = 0 ↔ e.Down) := by
  cases e with
  | press k =>
    have hlt := k.valid.2.1
    have hcode : (KeyEvent.press k).code = k.code := rfl
    rw [hcode]
    exact ⟨by omega, by omega, iff_of_true (code_bits k.code hlt).1 trivial⟩
  | release k =>
    obtain ⟨-, hlt, h60, h61⟩ := k.valid
    obtain ⟨-, hset, hadd⟩ := code_bits k.code hlt
    have hcode : (KeyEvent.release k).code = k.code ||| 0x80 := rfl
    rw [hcode]
    exact ⟨by omega, by omega, iff_of_false hset id⟩

/-- The function that an event calls works on the bit of its key. -/
theorem funcBit_event (e : KeyEvent) : funcBit (if e.key.ext then 1 else 0) (keyTable.getD e.code .none) = keyBit e.key := by
  obtain ⟨hshift, hctrl, halt⟩ := keyTable_modifier e.key.code e.key.valid.2.1 e.code e.code_mem
  unfold keyBit
  by_cases h1 : e.key.code = 0x2a ∨ e.key.code = 0x36
  · rw [if_pos h1, hshift.2 h1]
    rfl
  · rw [if_neg h1]
    by_cases h2 : e.key.code = 0x1d
    · rw [if_pos h2, hctrl.2 h2]
      rfl
    · rw [if_neg h2]
      by_cases h3 : e.key.code = 0x38
      · rw [if_pos h3, halt.2 h3]
        cases e.key.ext <;> rfl
      · rw [if_neg h3]
        cases hf : keyTable.getD e.code .none with
        | shift => exact absurd (hshift.1 hf) h1
        | ctrl => exact absurd (hctrl.1 hf) h2
        | alt => exact absurd (halt.1 hf) h3
        | _ => rfl

/-- A scan code that is no prefix calls its key, with the prefix that came before. -/
theorem doKeyboardInt_on {s s' : Keyboard} {e : KeyEvent} (he0 : s.e0 = if e.key.ext then 1 else 0)
    (h : doKeyboardInt s e.code = some s') :
    s'.e0 = 0 ∧ ∀ b ∈ modifierBits, (s'.On b ↔ if keyBit e.key = b then e.Down else s.On b) := by
  obtain ⟨h1, h2, hdown⟩ := e.code_not_prefix
  rw [doKeyboardInt, if_neg h1, if_neg h2, Option.map_eq_some_iff] at h
  obtain ⟨s₁, hcall, rfl⟩ := h
  refine ⟨rfl, fun b hb => ?_⟩
  have hon := callKey_on hcall hb
  rw [he0, funcBit_event, hdown] at hon
  exact hon

theorem typeCodes_one (s : Keyboard) (code : Nat) : typeCodes s [code] = doKeyboardInt s code := by
  simp only [typeCodes]
  exact Option.bind_fun_some _

theorem typeCodes_e0 (s : Keyboard) (code : Nat) : typeCodes s [0xe0, code] = doKeyboardInt { s with e0 := 1 } code :=
  typeCodes_one { s with e0 := 1 } code

/-- An event sets or clears the bit of its key and no other, and leaves no prefix behind. -/
theorem typeCodes_on {s s' : Keyboard} {e : KeyEvent} (he0 : s.e0 = 0) (h : typeCodes s e.codes = some s') :
    s'.e0 = 0 ∧ ∀ b ∈ modifierBits, (s'.On b ↔ if keyBit e.key = b then e.Down else s.On b) := by
  unfold KeyEvent.codes at h
  split at h
  · rename_i hext
    rw [typeCodes_e0] at h
    have he1 : ({ s with e0 := 1 } : Keyboard).e0 = if e.key.ext then 1 else 0 := by rw [if_pos hext]
    have hon := doKeyboardInt_on he1 h
    exact hon
  · rename_i hext
    rw [typeCodes_one] at h
    exact doKeyboardInt_on (by rw [he0, if_neg hext]) h

/-! ## Over whole runs -/

/-- The keys of each modifier bit. -/
theorem keyBit_eq (k : Key) :
    (keyBit k = shShift ↔ k = leftShift ∨ k = rightShift) ∧ (keyBit k = shCtrl ↔ k = leftCtrl ∨ k = rightCtrl) ∧
      (keyBit k = shLalt ↔ k = leftAlt) ∧ (keyBit k = shRalt ↔ k = rightAlt) := by
  obtain ⟨ext, code, valid, noShift⟩ := k
  simp only [keyBit, leftShift, rightShift, leftCtrl, rightCtrl, leftAlt, rightAlt, Key.mk.injEq]
  by_cases h1 : code = 0x2a ∨ code = 0x36
  · have hext : ext = false := by
      cases ext with
      | false => rfl
      | true => have := noShift rfl; omega
    rw [if_pos h1]
    simp only [hext, true_and, Bool.false_eq_true, false_and, or_false]
    refine ⟨iff_of_true trivial h1, iff_of_false (by decide) (by omega), iff_of_false (by decide) (by omega), by decide⟩
  · rw [if_neg h1]
    by_cases h2 : code = 0x1d
    · rw [if_pos h2]
      cases ext <;> simp [h2, shCtrl, shShift, shLalt, shRalt]
    · rw [if_neg h2]
      by_cases h3 : code = 0x38
      · rw [if_pos h3]
        cases ext <;> simp [h3, shCtrl, shShift, shLalt, shRalt]
      · rw [if_neg h3]
        obtain ⟨z1, z2, z3, z4⟩ :
            (0 : BitVec 32) ≠ shShift ∧ (0 : BitVec 32) ≠ shCtrl ∧ (0 : BitVec 32) ≠ shLalt ∧ (0 : BitVec 32) ≠ shRalt := by
          decide
        exact ⟨iff_of_false z1 (by omega), iff_of_false z2 (by omega), iff_of_false z3 (by omega), iff_of_false z4 (by omega)⟩

/-- Between events no prefix is pending and the bits follow the keys. -/
structure TypingInv (s : Typing) : Prop where
  e0 : s.kbd.e0 = 0
  follows : Follows s

/-- The bits after an event, by the keys that were down before. -/
theorem step_on {s s' : Typing} {e : KeyEvent} (he0 : s.kbd.e0 = 0) (h : TypingStep s e s') :
    s'.kbd.e0 = 0 ∧ (∀ b ∈ modifierBits, (s'.kbd.On b ↔ if keyBit e.key = b then e.Down else s.kbd.On b)) ∧
      ∀ k, s'.down k = true ↔ if k = e.key then e.Down else s.down k = true := by
  cases h with
  | @press k kbd hcodes =>
    obtain ⟨h1, h2⟩ := typeCodes_on he0 hcodes
    refine ⟨h1, h2, fun k' => ?_⟩
    by_cases hk : k' = k
    · simp [hk, KeyEvent.key, KeyEvent.Down]
    · simp [hk, KeyEvent.key]
  | @release k kbd hdown hcodes =>
    obtain ⟨h1, h2⟩ := typeCodes_on he0 hcodes
    refine ⟨h1, h2, fun k' => ?_⟩
    by_cases hk : k' = k
    · simp [hk, KeyEvent.key, KeyEvent.Down]
    · simp [hk, KeyEvent.key]

/-- A bit that one key works on goes on following it. -/
theorem one_follows {on on' d d' D : Prop} {k a : Key} (h : on ↔ d) (hon : on' ↔ if k = a then D else on)
    (hd : d' ↔ if a = k then D else d) : on' ↔ d' := by
  rw [hon, hd]
  by_cases hk : k = a
  · rw [if_pos hk, if_pos hk.symm]
  · rw [if_neg hk, if_neg (Ne.symm hk), h]

/-- A bit that two keys work on goes on following them exactly if neither is released while the other is down. -/
theorem two_follow {on on' da db da' db' D : Prop} {k a b : Key} (hab : a ≠ b) (h : on ↔ da ∨ db)
    (hon : on' ↔ if k = a ∨ k = b then D else on) (hda : da' ↔ if a = k then D else da) (hdb : db' ↔ if b = k then D else db) :
    (on' ↔ da' ∨ db') ↔ D ∨ (k = a → ¬db) ∧ (k = b → ¬da) := by
  rw [hon, hda, hdb]
  by_cases hka : k = a
  · have hbk : b ≠ k := fun he => hab (hka.symm.trans he.symm)
    have hkb : k ≠ b := hbk.symm
    rw [if_pos (Or.inl hka), if_pos hka.symm, if_neg hbk]
    by_cases hD : D
    · exact iff_of_true ⟨Or.inl, fun _ => hD⟩ (Or.inl hD)
    · simp [hD, hka, hab]
  · by_cases hkb : k = b
    · rw [if_pos (Or.inr hkb), if_neg (Ne.symm hka), if_pos hkb.symm]
      by_cases hD : D
      · exact iff_of_true ⟨Or.inr, fun _ => hD⟩ (Or.inl hD)
      · simp [hD, hkb, hab.symm]
    · rw [if_neg (not_or.2 ⟨hka, hkb⟩), if_neg (Ne.symm hka), if_neg (Ne.symm hkb)]
      simp [hka, hkb, h]

/-- After an event the bits follow the keys exactly if the event releases no key apart from its twin. -/
theorem TypingInv.step {s s' : Typing} {e : KeyEvent} (h : TypingInv s) (hstep : TypingStep s e s') :
    s'.kbd.e0 = 0 ∧ (Follows s' ↔ Apart s e) := by
  obtain ⟨h0, hon, hdown⟩ := step_on h.e0 hstep
  obtain ⟨hshift, hctrl, hlalt, hralt⟩ := keyBit_eq e.key
  obtain ⟨f1, f2, f3, f4⟩ := h.follows
  have hbit : ∀ b ∈ modifierBits, ∀ q : Prop, [Decidable q] → (keyBit e.key = b ↔ q) →
      (s'.kbd.On b ↔ if q then e.Down else s.kbd.On b) := by
    intro b hb q _ hq
    rw [hon b hb]
    exact iff_of_eq (if_congr hq rfl rfl)
  have hs := two_follow (by decide) f1 (hbit _ (by simp [modifierBits]) _ hshift) (hdown leftShift) (hdown rightShift)
  have hc := two_follow (by decide) f2 (hbit _ (by simp [modifierBits]) _ hctrl) (hdown leftCtrl) (hdown rightCtrl)
  have hl := one_follows f3 (hbit _ (by simp [modifierBits]) _ hlalt) (hdown leftAlt)
  have hr := one_follows f4 (hbit _ (by simp [modifierBits]) _ hralt) (hdown rightAlt)
  have hfollows : Follows s' ↔ (s'.kbd.On shShift ↔ s'.down leftShift = true ∨ s'.down rightShift = true) ∧
      (s'.kbd.On shCtrl ↔ s'.down leftCtrl = true ∨ s'.down rightCtrl = true) :=
    ⟨fun hf => ⟨hf.shift, hf.ctrl⟩, fun hf => ⟨hf.1, hf.2, hl, hr⟩⟩
  refine ⟨h0, ?_⟩
  rw [hfollows, hs, hc]
  cases e with
  | press k => simp [Apart, KeyEvent.Down]
  | release k => simp [Apart, KeyEvent.Down, KeyEvent.key, and_assoc]

/-- In every run in which no Shift key is released while the other is down, and no Ctrl key, the four modifier bits say which keys
are down after every event. Any other release breaks this. -/
theorem modifiers_follow {s : Typing} (h : Reach TypingInit (fun s s' => ∃ e, TypingStep s e s' ∧ Apart s e) s) :
    Follows s ∧ ∀ e s', TypingStep s e s' → (Follows s' ↔ Apart s e) := by
  have hinv : TypingInv s := h.invariant
    (by
      rintro ⟨kbd, down⟩ ⟨hkbd, hdown⟩
      dsimp only at hkbd hdown
      subst hkbd hdown
      refine ⟨rfl, ⟨?_, ?_, ?_, ?_⟩⟩ <;> simp [Keyboard.On, Keyboard.boot])
    (by
      rintro s s' hs ⟨e, hstep, hapart⟩
      obtain ⟨h0, hiff⟩ := hs.step hstep
      exact ⟨h0, hiff.2 hapart⟩)
  exact ⟨hinv.follows, fun e s' hstep => (hinv.step hstep).2⟩

/-! ## Two Shift keys -/

/-- No key is down. -/
def idleTyping : Typing := ⟨Keyboard.boot, fun _ => false⟩

/-- The left Shift key is down. -/
def leftTyping : Typing := ⟨keyShift Keyboard.boot 0x2a, Function.update idleTyping.down leftShift true⟩

/-- Both Shift keys are down. -/
def bothTyping : Typing := ⟨keyShift leftTyping.kbd 0x36, Function.update leftTyping.down rightShift true⟩

/-- The left Shift key is up again. -/
def rightTyping : Typing := ⟨keyShift bothTyping.kbd 0xaa, Function.update bothTyping.down leftShift false⟩

theorem step_left : TypingStep idleTyping (.press leftShift) leftTyping := .press rfl

theorem step_both : TypingStep leftTyping (.press rightShift) bothTyping := .press rfl

theorem step_right : TypingStep bothTyping (.release leftShift) rightTyping := .release (by decide) rfl

/-- The left Ctrl key is down with the left Shift key. -/
def leftsTyping : Typing := ⟨keyCtrl leftTyping.kbd 0x1d, Function.update leftTyping.down leftCtrl true⟩

/-- The left Shift key is up again, the left Ctrl key still down. -/
def ctrlTyping : Typing := ⟨keyShift leftsTyping.kbd 0xaa, Function.update leftsTyping.down leftShift false⟩

theorem step_lefts : TypingStep leftTyping (.press leftCtrl) leftsTyping := .press rfl

theorem step_ctrl : TypingStep leftsTyping (.release leftShift) ctrlTyping := .release (by decide) rfl

/-- The bits after the left Shift key went up with the left Ctrl key down. -/
theorem modifiers_follow_left :
    ctrlTyping.kbd.On shCtrl ∧ ¬ctrlTyping.kbd.On shShift ∧
      ∀ e s', TypingStep ctrlTyping e s' → (Follows s' ↔ Apart ctrlTyping e) := by
  obtain ⟨hfollows, hnext⟩ := modifiers_follow (s := ctrlTyping)
    ((((Reach.init ⟨rfl, rfl⟩).step ⟨.press leftShift, step_left, trivial⟩).step
      ⟨.press leftCtrl, step_lefts, trivial⟩).step ⟨.release leftShift, step_ctrl, by decide, by decide⟩)
  exact ⟨hfollows.ctrl.2 (Or.inl (by decide)), fun hon => absurd (hfollows.shift.1 hon) (by decide), hnext⟩

/-- Press both Shift keys and release the left one: the right one is down and the bit is clear. -/
theorem modifiers_follow_false :
    Reach TypingInit (fun s s' => ∃ e, TypingStep s e s') rightTyping ∧ rightTyping.down rightShift = true ∧
      ¬rightTyping.kbd.On shShift ∧ ¬Follows rightTyping := by
  have hrun : Reach TypingInit (fun s s' => ∃ e, TypingStep s e s') rightTyping :=
    (((Reach.init ⟨rfl, rfl⟩).step ⟨_, step_left⟩).step ⟨_, step_both⟩).step ⟨_, step_right⟩
  have hdown : rightTyping.down rightShift = true := by decide
  have hoff : ¬rightTyping.kbd.On shShift := by
    unfold Keyboard.On
    decide
  exact ⟨hrun, hdown, hoff, fun hf => hoff (hf.shift.2 (Or.inr hdown))⟩

end BootPerl
