import BootPerl.Theorems.KeyboardQueue
import BootPerl.Theorems.Modifiers

/-!
# What is typed

For every sequence of scan codes, with calls of `get_buffer` in between: what the keys do is said by the codes that came before. A
modifier is held if the last code of its keys was a make code, Caps Lock is on after an odd number of its codes, and a prefix is for the
next code only. The bits of `shifts` stand for no more than that, and `get_buffer` returns the text from the two layouts.
-/

namespace BootPerl

/-! ## The history -/

/-- A scan code that is no prefix, and the prefix before it. -/
structure Stroke where
  e0 : Nat
  code : Nat
  deriving DecidableEq, Repr

/-- What happens: an interrupt with a scan code, or a call of `get_buffer`. -/
inductive TextEvent where
  | scan (code : Nat)
  | get
  deriving DecidableEq, Repr

/-- What happens, once the prefixes are put to their codes. -/
inductive TextAction where
  | stroke (st : Stroke)
  | get
  deriving DecidableEq, Repr

/-- Put each prefix to the next code. -/
def textActions : Nat → List TextEvent → List TextAction
  | _, [] => []
  | e0, .get :: events => .get :: textActions e0 events
  | e0, .scan code :: events =>
    if code = 0xe0 then textActions 1 events
    else if code = 0xe1 then textActions 2 events
    else .stroke ⟨e0, code⟩ :: textActions 0 events

namespace Stroke

/-- The function of the key. -/
def func (st : Stroke) : KeyFunc := keyTable.getD st.code .none

/-- The modifier that the key works on. -/
def modifier (st : Stroke) : BitVec 32 := funcBit st.e0 st.func

/-- A make code. -/
def Makes (st : Stroke) : Prop := st.code &&& 0x80 = 0

instance (st : Stroke) : Decidable st.Makes := inferInstanceAs (Decidable (_ = _))

end Stroke

/-- A modifier is held: the last of its strokes was a make code. The latest stroke comes first. -/
def Held (bit : BitVec 32) (past : List Stroke) : Prop := ∃ st ∈ past.find? fun st => st.modifier = bit, st.Makes

instance (bit : BitVec 32) (past : List Stroke) : Decidable (Held bit past) := inferInstanceAs (Decidable (∃ st ∈ _, _))

/-- Caps Lock is on: there was an odd number of its strokes. -/
def CapsOn (past : List Stroke) : Prop := (past.countP fun st => st.func = .caps) % 2 = 1

instance (past : List Stroke) : Decidable (CapsOn past) := inferInstanceAs (Decidable (_ = _))

/-- The character of a key: Shift and Caps Lock together show the small letters. -/
def typedChar (past : List Stroke) (code : Nat) : Char :=
  if Held shShift past ↔ CapsOn past then letterMap.getD code nul else letterShiftMap.getD code nul

/-- What a character does while Ctrl is held. -/
def ctrlEffect (c : Char) : Option KeyEffect :=
  if c = 'm' ∨ c = 'M' then some .showMemory
  else if c = 'p' ∨ c = 'P' then some .showTasks
  else if c = 'v' ∨ c = 'V' then some .version
  else none

/-- What a stroke does, after others. -/
def strokeEffect (past : List Stroke) (st : Stroke) : Option KeyEffect :=
  match st.func with
  | .letter => if Held shCtrl past then ctrlEffect (typedChar past st.code) else some (.puts (typedChar past st.code))
  | .scroll => some (.printk "You pressed scroll\n")
  | .sysreq => some (.printk "You pressed sysreq\n")
  | .func => some (.printk "You pressed func\n")
  | .keypad => some (.printk "You pressed keypad\n")
  | .win => some (.printk "You pressed win\n")
  | .menu => some (.printk "You pressed menu\n")
  | _ => none

/-- Ctrl, Alt and Del. -/
def Reboots (past : List Stroke) (st : Stroke) : Prop :=
  st.code = 0x53 ∧ Held shCtrl past ∧ (Held shLalt past ∨ Held shRalt past)

instance (past : List Stroke) (st : Stroke) : Decidable (Reboots past st) := inferInstanceAs (Decidable (_ ∧ _ ∧ _))

/-- The calls of the buffer that a stroke makes. -/
def strokeCalls (past : List Stroke) (st : Stroke) : List BufferCall :=
  match strokeEffect past st with
  | some (.puts c) => [.add c]
  | _ => []

/-- What all strokes do, in order. -/
def textEffects : List Stroke → List TextAction → List KeyEffect
  | _, [] => []
  | past, .get :: as => textEffects past as
  | past, .stroke st :: as => (strokeEffect past st).toList ++ textEffects (st :: past) as

/-- The calls of the buffer, in order. -/
def textCalls : List Stroke → List TextAction → List BufferCall
  | _, [] => []
  | past, .get :: as => .get :: textCalls past as
  | past, .stroke st :: as => strokeCalls past st ++ textCalls (st :: past) as

/-- Some stroke reboots the machine. -/
def Rebooted : List Stroke → List TextAction → Prop
  | _, [] => False
  | past, .get :: as => Rebooted past as
  | past, .stroke st :: as => Reboots past st ∨ Rebooted (st :: past) as

/-- The keyboard, and what `get_buffer` returned. -/
structure TextRun where
  kbd : Keyboard
  returned : List Char

/-- One interrupt for each scan code, and the calls in between. -/
def runText : TextRun → List TextEvent → Option TextRun
  | t, [] => some t
  | t, .scan code :: events => (doKeyboardInt t.kbd code).bind fun kbd => runText { t with kbd := kbd } events
  | t, .get :: events => runText ⟨(getBuffer t.kbd).1, t.returned ++ [(getBuffer t.kbd).2]⟩ events

/-! ## The bits stand for the history -/

/-- What the keyboard remembers of the strokes. -/
structure Remembers (s : Keyboard) (past : List Stroke) : Prop where
  modifiers : ∀ b ∈ modifierBits, s.On b ↔ Held b past
  caps : s.On shCapslock ↔ CapsOn past

theorem remembers_boot : Remembers Keyboard.boot [] := by
  refine ⟨fun b _ => ?_, ?_⟩
  · refine iff_of_false (fun h => h (BitVec.zero_and)) ?_
    rintro ⟨st, h, -⟩
    cases h
  · exact iff_of_false (fun h => h BitVec.zero_and) (by decide)

/-- A stroke of a modifier decides whether it is held. -/
theorem held_cons (bit : BitVec 32) (st : Stroke) (past : List Stroke) :
    Held bit (st :: past) ↔ if st.modifier = bit then st.Makes else Held bit past := by
  unfold Held
  by_cases h : st.modifier = bit
  · simp [h]
  · simp [h]

theorem capsOn_cons (st : Stroke) (past : List Stroke) :
    CapsOn (st :: past) ↔ if st.func = .caps then ¬CapsOn past else CapsOn past := by
  unfold CapsOn
  by_cases h : st.func = .caps
  · rw [List.countP_cons_of_pos (by simpa using h), if_pos h]
    omega
  · rw [List.countP_cons_of_neg (by simpa using h), if_neg h]

/-- A modifier key leaves Caps Lock alone. -/
theorem setModifier_caps (s : Keyboard) {b : BitVec 32} (h : b &&& shCapslock = 0) (code : Nat) :
    (setModifier s b code).On shCapslock ↔ s.On shCapslock := by
  unfold setModifier Keyboard.On
  split
  · simp only [and_not_and_bit h]
  · simp only [or_and_bit h]

/-- A lock key toggles its bit. -/
theorem toggleLock_self (s : Keyboard) {b : BitVec 32} (h : b ≠ 0) : (toggleLock s b).On b ↔ ¬s.On b := by
  unfold toggleLock Keyboard.On
  split
  · rename_i hon
    simp only [and_not_and_self_bit]
    exact iff_of_false (fun hne => hne rfl) (not_not_intro hon)
  · rename_i hoff
    simp only [or_and_self_bit]
    exact iff_of_true h hoff

/-- Of all keys, Caps Lock alone changes its bit. -/
theorem callKey_caps {s s' : Keyboard} {code : Nat} (h : callKey s code = some s') :
    s'.On shCapslock ↔ if keyTable.getD code .none = .caps then ¬s.On shCapslock else s.On shCapslock := by
  unfold callKey at h
  cases hf : keyTable.getD code .none with
  | caps =>
    rw [hf] at h
    cases h
    exact toggleLock_self s (by decide)
  | shift =>
    rw [hf] at h
    cases h
    exact setModifier_caps s (by decide) code
  | ctrl =>
    rw [hf] at h
    cases h
    exact setModifier_caps s (by decide) code
  | alt =>
    rw [hf] at h
    cases h
    unfold keyAlt
    split
    · exact setModifier_caps s (by decide) code
    · exact setModifier_caps s (by decide) code
  | num =>
    rw [hf] at h
    cases h
    exact toggleLock_on s (by decide)
  | letter =>
    rw [hf] at h
    cases h
    simp only [Keyboard.On, keyLetter_shifts]
    exact Iff.rfl
  | keypad =>
    rw [hf] at h
    simp only [keyKeypad] at h
    split at h
    · cases h
    · cases h
      exact Iff.rfl
  | none | scroll | sysreq | func | win | menu =>
    rw [hf] at h
    cases h
    exact Iff.rfl

/-- A key that is called is remembered. -/
theorem Remembers.next {s s' : Keyboard} {past : List Stroke} (h : Remembers s past) {code : Nat}
    (hcall : callKey s code = some s') : Remembers s' (⟨s.e0, code⟩ :: past) := by
  refine ⟨fun b hb => ?_, ?_⟩
  · rw [callKey_on hcall hb, held_cons, h.modifiers b hb]
    exact Iff.rfl
  · rw [callKey_caps hcall, capsOn_cons, h.caps]
    exact Iff.rfl

/-! ## What a key does -/

/-- The character of a key, from the bits. -/
theorem Remembers.typedChar_eq {s : Keyboard} {past : List Stroke} (h : Remembers s past) (code : Nat) :
    (if s.shifts &&& shShift ≠ 0 ∧ ¬s.shifts &&& shCapslock ≠ 0 then letterShiftMap.getD code nul
      else if s.shifts &&& shCapslock ≠ 0 ∧ ¬s.shifts &&& shShift ≠ 0 then letterShiftMap.getD code nul
      else letterMap.getD code nul) = typedChar past code := by
  have hshift : s.shifts &&& shShift ≠ 0 ↔ Held shShift past := h.modifiers shShift (by simp [modifierBits])
  have hcaps : s.shifts &&& shCapslock ≠ 0 ↔ CapsOn past := h.caps
  simp only [hshift, hcaps, typedChar]
  by_cases h1 : Held shShift past
  · by_cases h2 : CapsOn past
    · simp [h1, h2]
    · simp [h1, h2]
  · by_cases h2 : CapsOn past
    · simp [h1, h2]
    · simp [h1, h2]

/-- `key_letter`, by the history. -/
theorem Remembers.keyLetter_eq {s : Keyboard} {past : List Stroke} (h : Remembers s past) (code : Nat) :
    keyLetter s code = if Held shCtrl past then (ctrlEffect (typedChar past code)).elim s s.effect
      else addBuffer s (typedChar past code) := by
  have hctrl : s.shifts &&& shCtrl ≠ 0 ↔ Held shCtrl past := h.modifiers shCtrl (by simp [modifierBits])
  unfold keyLetter
  rw [h.typedChar_eq code]
  refine if_congr hctrl ?_ rfl
  unfold ctrlEffect
  split
  · rfl
  · split
    · rfl
    · split
      · rfl
      · rfl

theorem addBuffer_effects (s : Keyboard) (c : Char) : (addBuffer s c).effects = s.effects ++ [.puts c] := by
  unfold addBuffer
  dsimp only
  split
  · rfl
  · rfl

/-- Only the buffer and its two indices matter. -/
theorem Buffered.congr {s s' : Keyboard} {l : List Char} (h : Buffered s l) (hb : s'.buffer = s.buffer)
    (hstart : s'.bufferStart = s.bufferStart) (hsize : s'.bufferSize = s.bufferSize) : Buffered s' l :=
  ⟨hsize.trans h.size, by rw [hb, hstart]; exact h.chars⟩

/-- The keyboard shows what the strokes did, and its buffer holds what a queue does. -/
structure Types (s s' : Keyboard) (effect : Option KeyEffect) : Prop where
  effects : s'.effects = s.effects ++ effect.toList
  buffer : (∀ c, effect ≠ some (.puts c)) → ∀ l, Buffered s l → Buffered s' l
  added : ∀ c, effect = some (.puts c) → ∀ l, Buffered s l → l.length ≤ bufferSize → Buffered s' (addRecent bufferSize l c)

theorem types_none (s : Keyboard) : Types s s none :=
  ⟨(List.append_nil _).symm, fun _ _ h => h, fun _ h => absurd h (Option.some_ne_none _).symm⟩

theorem types_effect (s : Keyboard) {e : KeyEffect} (he : ∀ c, e ≠ .puts c) : Types s (s.effect e) (some e) :=
  ⟨rfl, fun _ _ h => h.congr rfl rfl rfl, fun c h => absurd (Option.some.inj h) (he c)⟩

/-- A modifier or lock key writes to `shifts` only. -/
theorem types_shifts (s : Keyboard) (v : BitVec 32) : Types s { s with shifts := v } none :=
  ⟨(List.append_nil _).symm, fun _ _ h => h.congr rfl rfl rfl, fun _ h => absurd h (Option.some_ne_none _).symm⟩

theorem types_setModifier (s : Keyboard) (b : BitVec 32) (code : Nat) : Types s (setModifier s b code) none := by
  unfold setModifier
  split
  · exact types_shifts s _
  · exact types_shifts s _

theorem types_toggleLock (s : Keyboard) (b : BitVec 32) : Types s (toggleLock s b) none := by
  unfold toggleLock
  split
  · exact types_shifts s _
  · exact types_shifts s _

theorem ctrlEffect_ne (c d : Char) : ctrlEffect c ≠ some (.puts d) := by
  unfold ctrlEffect
  split_ifs <;> simp

theorem Remembers.types_letter {s : Keyboard} {past : List Stroke} (h : Remembers s past) (code : Nat) :
    Types s (keyLetter s code)
      (if Held shCtrl past then ctrlEffect (typedChar past code) else some (.puts (typedChar past code))) := by
  rw [h.keyLetter_eq]
  split
  · cases he : ctrlEffect (typedChar past code) with
    | none => exact types_none s
    | some e => exact types_effect s fun c hc => ctrlEffect_ne _ c (he.trans (congrArg some hc))
  · refine ⟨addBuffer_effects s _, fun hne => absurd rfl (hne _), fun c hc l hl hle => ?_⟩
    obtain rfl := KeyEffect.puts.inj (Option.some.inj hc)
    exact hl.addRecent hle _

/-- The function of a key does what the history says, and it is Ctrl-Alt-Del that it does not return from. -/
theorem Remembers.callKey_spec {s : Keyboard} {past : List Stroke} (h : Remembers s past) (code : Nat) :
    (callKey s code = none ∧ Reboots past ⟨s.e0, code⟩) ∨
      ∃ s', callKey s code = some s' ∧ ¬Reboots past ⟨s.e0, code⟩ ∧ Types s s' (strokeEffect past ⟨s.e0, code⟩) := by
  have hctrl : s.shifts &&& shCtrl ≠ 0 ↔ Held shCtrl past := h.modifiers shCtrl (by simp [modifierBits])
  have hlalt : s.shifts &&& shLalt ≠ 0 ↔ Held shLalt past := h.modifiers shLalt (by simp [modifierBits])
  have hralt : s.shifts &&& shRalt ≠ 0 ↔ Held shRalt past := h.modifiers shRalt (by simp [modifierBits])
  -- the Del key is on the keypad
  have hother : ∀ {f : KeyFunc}, keyTable.getD code .none = f → f ≠ .keypad → ¬Reboots past ⟨s.e0, code⟩ := by
    rintro f rfl hne ⟨hcode, -⟩
    dsimp only at hcode
    rw [hcode] at hne
    exact hne (by decide)
  unfold callKey strokeEffect Stroke.func
  dsimp only
  cases hf : keyTable.getD code .none with
  | keypad =>
    have hiff : (code = 0x53 ∧ s.shifts &&& shCtrl ≠ 0 ∧ (s.shifts &&& shLalt ≠ 0 ∨ s.shifts &&& shRalt ≠ 0)) ↔
        Reboots past ⟨s.e0, code⟩ := by
      rw [hctrl, hlalt, hralt]
      exact Iff.rfl
    dsimp only
    unfold keyKeypad
    by_cases hr : Reboots past ⟨s.e0, code⟩
    · exact Or.inl ⟨if_pos (hiff.2 hr), hr⟩
    · exact Or.inr ⟨_, if_neg (mt hiff.1 hr), hr, types_effect s fun c => by simp⟩
  | letter => exact Or.inr ⟨_, rfl, hother hf (by decide), h.types_letter code⟩
  | shift | ctrl => exact Or.inr ⟨_, rfl, hother hf (by decide), types_setModifier s _ code⟩
  | alt =>
    refine Or.inr ⟨_, rfl, hother hf (by decide), ?_⟩
    unfold keyAlt
    split
    · exact types_setModifier s _ code
    · exact types_setModifier s _ code
  | num | caps => exact Or.inr ⟨_, rfl, hother hf (by decide), types_toggleLock s _⟩
  | none => exact Or.inr ⟨_, rfl, hother hf (by decide), types_none s⟩
  | scroll | sysreq | func | win | menu =>
    exact Or.inr ⟨_, rfl, hother hf (by decide), types_effect s fun c => by simp⟩

/-! ## Runs -/

/-- The calls of a stroke, on the keyboard and on the queue. -/
theorem Types.calls {s s' : Keyboard} {past : List Stroke} {st : Stroke} (h : Types s s' (strokeEffect past st)) {q : QueueRun}
    (hheld : Buffered s q.pending) (hle : q.pending.length ≤ bufferSize) :
    Buffered s' ((strokeCalls past st).foldl QueueRun.call q).pending ∧
      ((strokeCalls past st).foldl QueueRun.call q).pending.length ≤ bufferSize ∧
      ((strokeCalls past st).foldl QueueRun.call q).returned = q.returned := by
  unfold strokeCalls
  split
  · rename_i c he
    exact ⟨h.added c he _ hheld hle, length_addRecent_le hle (Nat.succ_pos 16383) c, rfl⟩
  · rename_i hne
    exact ⟨h.buffer (fun c hc => hne c hc) _ hheld, hle, rfl⟩

/-- From a keyboard that remembers the strokes before, with a buffer that holds what a queue does. -/
theorem runText_spec (events : List TextEvent) : ∀ {t : TextRun} {past : List Stroke} {q : QueueRun}, Remembers t.kbd past →
    Buffered t.kbd q.pending → q.pending.length ≤ bufferSize → t.returned = q.returned →
    (runText t events = none ∧ Rebooted past (textActions t.kbd.e0 events)) ∨
      ∃ t', runText t events = some t' ∧ ¬Rebooted past (textActions t.kbd.e0 events) ∧
        t'.kbd.effects = t.kbd.effects ++ textEffects past (textActions t.kbd.e0 events) ∧
        Buffered t'.kbd ((textCalls past (textActions t.kbd.e0 events)).foldl QueueRun.call q).pending ∧
        t'.returned = ((textCalls past (textActions t.kbd.e0 events)).foldl QueueRun.call q).returned := by
  induction events with
  | nil => exact fun _ hheld _ hret => Or.inr ⟨_, rfl, id, (List.append_nil _).symm, hheld, hret⟩
  | cons event events ih =>
    intro t past q h hheld hle hret
    cases event with
    | get =>
      obtain ⟨hheld', hchar⟩ := hheld.getBuffer hle
      have hsame : (getBuffer t.kbd).1.shifts = t.kbd.shifts ∧ (getBuffer t.kbd).1.e0 = t.kbd.e0 ∧
          (getBuffer t.kbd).1.effects = t.kbd.effects := by
        unfold getBuffer
        split
        · exact ⟨rfl, rfl, rfl⟩
        · exact ⟨rfl, rfl, rfl⟩
      have hremembers : Remembers (getBuffer t.kbd).1 past :=
        ⟨fun b hb => by rw [Keyboard.On, hsame.1]; exact h.modifiers b hb, by rw [Keyboard.On, hsame.1]; exact h.caps⟩
      have hrest := @ih ⟨(getBuffer t.kbd).1, t.returned ++ [(getBuffer t.kbd).2]⟩ past (q.call .get) hremembers hheld'
        (Nat.le_trans (by rw [QueueRun.call, List.length_tail]; exact Nat.sub_le _ _) hle) (by rw [hret, hchar]; rfl)
      dsimp only at hrest
      rw [hsame.2.1, hsame.2.2] at hrest
      exact hrest
    | scan code =>
      rw [runText, doKeyboardInt, textActions]
      by_cases h0 : code = 0xe0
      · rw [if_pos h0, if_pos h0]
        exact @ih ⟨{ t.kbd with e0 := 1 }, t.returned⟩ past q ⟨h.modifiers, h.caps⟩ (hheld.congr rfl rfl rfl) hle hret
      · rw [if_neg h0, if_neg h0]
        by_cases h1 : code = 0xe1
        · rw [if_pos h1, if_pos h1]
          exact @ih ⟨{ t.kbd with e0 := 2 }, t.returned⟩ past q ⟨h.modifiers, h.caps⟩ (hheld.congr rfl rfl rfl) hle hret
        · rw [if_neg h1, if_neg h1]
          rcases h.callKey_spec code with ⟨hcall, hreboots⟩ | ⟨s', hcall, hreboots, htypes⟩
          · rw [hcall]
            exact Or.inl ⟨rfl, Or.inl hreboots⟩
          · rw [hcall, Option.map_some, Option.bind_some, textEffects, textCalls, List.foldl_append, Rebooted]
            obtain ⟨hheld', hle', hret'⟩ := htypes.calls hheld hle
            have hremembers := h.next hcall
            have hrest := @ih ⟨{ s' with e0 := 0 }, t.returned⟩ (⟨t.kbd.e0, code⟩ :: past) _ ⟨hremembers.modifiers, hremembers.caps⟩
              (hheld'.congr rfl rfl rfl) hle' (hret.trans hret'.symm)
            rcases hrest with ⟨hnone, hreboot⟩ | ⟨t', hsome, hreboot, heffects, hbuffered⟩
            · exact Or.inl ⟨hnone, Or.inr hreboot⟩
            · dsimp only at heffects
              rw [htypes.effects, List.append_assoc] at heffects
              exact Or.inr ⟨t', hsome, not_or.2 ⟨hreboots, hreboot⟩, heffects, hbuffered⟩

/-- For every sequence of scan codes and calls of `get_buffer` from boot on: the machine is rebooted exactly if Del comes while Ctrl and
Alt are held; otherwise the keys print, echo and run what the codes before them say, and `get_buffer` returns what a queue of
`BUFFER_SIZE` characters returns that the same text is put into. -/
theorem typed_text (events : List TextEvent) :
    (runText ⟨Keyboard.boot, []⟩ events = none ↔ Rebooted [] (textActions 0 events)) ∧
      ∀ t, runText ⟨Keyboard.boot, []⟩ events = some t →
        t.kbd.effects = textEffects [] (textActions 0 events) ∧
        t.returned = (QueueRun.run (textCalls [] (textActions 0 events))).returned ∧
        Buffered t.kbd (QueueRun.run (textCalls [] (textActions 0 events))).pending := by
  have hspec := @runText_spec events ⟨Keyboard.boot, []⟩ [] ⟨[], []⟩ remembers_boot ⟨rfl, circular_nil⟩ (Nat.zero_le _) rfl
  rcases hspec with ⟨hnone, hreboot⟩ | ⟨t', hsome, hreboot, heffects, hheld, hret⟩
  · refine ⟨iff_of_true hnone hreboot, fun t ht => ?_⟩
    rw [hnone] at ht
    cases ht
  · refine ⟨iff_of_false (by rw [hsome]; exact Option.some_ne_none t') hreboot, fun t ht => ?_⟩
    rw [hsome] at ht
    cases ht
    exact ⟨heffects, hret, hheld⟩

/-- The right Shift key, `a`, Caps Lock, `b`, and the Shift key let go. -/
example : textEffects [] (textActions 0 [.scan 0x36, .scan 0x1e, .scan 0x3a, .scan 0x30, .scan 0xb6, .scan 0x1e]) =
    [.puts 'A', .puts 'b', .puts 'A'] := by decide

end BootPerl
