import Mathlib.Logic.Function.Basic

/-!
# The keyboard (`kernel/keyboard.c`)

A scan code is a number below 256, and a `char` is a `Char` as in the log. What the keys do elsewhere is kept in `effects`, in
order. An interrupt runs with interrupts off, so it is one step; `get_buffer` does not, and is also given step by step.
-/

namespace BootPerl

/-- The functions in `key_table`. -/
inductive KeyFunc where
  | none
  | letter
  | shift
  | ctrl
  | alt
  | num
  | caps
  | scroll
  | sysreq
  | func
  | keypad
  | win
  | menu
  deriving DecidableEq, Repr

/-- What a key makes the rest of the kernel do: print a message or a character, or run one of the hooks of the Ctrl key. -/
inductive KeyEffect where
  | printk (msg : String)
  | puts (c : Char)
  | showMemory
  | showTasks
  | version
  deriving DecidableEq, Repr

/-- The variables of `keyboard.c`. -/
structure Keyboard where
  shifts : BitVec 32
  e0 : Nat
  buffer : Nat → Char
  bufferStart : Nat
  enteredChars : Nat
  bufferSize : Nat
  effects : List KeyEffect

def shShift : BitVec 32 := 0x0001

def shCtrl : BitVec 32 := 0x0004

def shLalt : BitVec 32 := 0x0010

def shRalt : BitVec 32 := 0x0020

def shNumlock : BitVec 32 := 0x0040

def shCapslock : BitVec 32 := 0x0080

/-- `BUFFER_SIZE`; `& BUFFER_MASK` is the remainder by it. -/
def bufferSize : Nat := 16384

/-- The variables at boot. -/
def Keyboard.boot : Keyboard where
  shifts := 0
  e0 := 0
  buffer _ := Char.ofNat 0
  bufferStart := 0
  enteredChars := 0
  bufferSize := 0
  effects := []

/-! ## The buffer -/

/-- The value of an `unsigned long`. -/
def ulong (n : Nat) : Nat := n % 4294967296

/-- `add_buffer`: add a character after the last, and echo it. A full buffer drops its oldest character. -/
def addBuffer (s : Keyboard) (c : Char) : Keyboard :=
  let s := { s with buffer := Function.update s.buffer (ulong (s.bufferStart + s.bufferSize) % BootPerl.bufferSize) c }
  let s :=
    if s.bufferSize < BootPerl.bufferSize then { s with bufferSize := s.bufferSize + 1 }
    else { s with bufferStart := ulong (s.bufferStart + 1) }
  { s with enteredChars := ulong (s.enteredChars + 1), effects := s.effects ++ [.puts c] }

/-- `buffer[buffer_start & BUFFER_MASK]`. -/
def readBuffer (s : Keyboard) : Char := s.buffer (s.bufferStart % BootPerl.bufferSize)

/-- `buffer_start++`. -/
def advanceStart (s : Keyboard) : Keyboard := { s with bufferStart := ulong (s.bufferStart + 1) }

/-- `buffer_size--`. -/
def shrinkBuffer (s : Keyboard) : Keyboard := { s with bufferSize := ulong (s.bufferSize + 4294967295) }

/-- `get_buffer`, with no interrupt in between: the oldest character, or zero if there is none. -/
def getBuffer (s : Keyboard) : Keyboard × Char :=
  if s.bufferSize = 0 then (s, Char.ofNat 0) else (shrinkBuffer (advanceStart s), readBuffer s)

/-! ## The keys -/

/-- `key_table`. -/
def keyTable : List KeyFunc := [
  .none, .letter, .letter, .letter, .letter, .letter, .letter, .letter, -- 00-07 s0 esc 1 2 3 4 5 6
  .letter, .letter, .letter, .letter, .letter, .letter, .letter, .letter, -- 08-0f 7 8 9 0 - = bs tab
  .letter, .letter, .letter, .letter, .letter, .letter, .letter, .letter, -- 10-17 q w e r t y u i
  .letter, .letter, .letter, .letter, .letter, .ctrl, .letter, .letter, -- 18-1f o p [ ] enter lctrl a s
  .letter, .letter, .letter, .letter, .letter, .letter, .letter, .letter, -- 20-27 d f g h j k l ;
  .letter, .letter, .shift, .letter, .letter, .letter, .letter, .letter, -- 28-2f ' ` lshift # z x c v
  .letter, .letter, .letter, .letter, .letter, .letter, .shift, .keypad, -- 30-37 b n m , . / rshift kp-*
  .alt, .letter, .caps, .func, .func, .func, .func, .func, -- 38-3f lalt sp caps f1 f2 f3 f4 f5
  .func, .func, .func, .func, .func, .num, .scroll, .keypad, -- 40-47 f6 f7 f8 f9 f10 num scr kp-7
  .keypad, .keypad, .keypad, .keypad, .keypad, .keypad, .keypad, .keypad, -- 48-4f kp: 8 9 - 4 5 6 + 1
  .keypad, .keypad, .keypad, .keypad, .sysreq, .none, .letter, .func, -- 50-57 kp: 2 3 0 - sysreq ? \ f11
  .func, .none, .none, .win, .win, .menu, .none, .none, -- 58-5f f12 ? ? lwin rwin menu ? ?
  .none, .none, .none, .none, .none, .none, .none, .none, -- 60-67
  .none, .none, .none, .none, .none, .none, .none, .none, -- 68-6f
  .none, .none, .none, .none, .none, .none, .none, .none, -- 70-77
  .none, .none, .none, .none, .none, .none, .none, .none, -- 78-7f
  .none, .none, .none, .none, .none, .none, .none, .none, -- 80-87
  .none, .none, .none, .none, .none, .none, .none, .none, -- 88-8f
  .none, .none, .none, .none, .none, .none, .none, .none, -- 90-97
  .none, .none, .none, .none, .none, .ctrl, .none, .none, -- 98-9f br br br br br lctrl br br
  .none, .none, .none, .none, .none, .none, .none, .none, -- a0-a7
  .none, .none, .shift, .none, .none, .none, .none, .none, -- a8-af br br lshift br br br br br
  .none, .none, .none, .none, .none, .none, .shift, .none, -- b0-b7 br br br br br br rshift br
  .alt, .none, .none, .none, .none, .none, .none, .none, -- b8-bf lalt br br br br br br br
  .none, .none, .none, .none, .none, .none, .none, .none, -- c0-c7
  .none, .none, .none, .none, .none, .none, .none, .none, -- c8-cf
  .none, .none, .none, .none, .none, .none, .none, .none, -- d0-d7
  .none, .none, .none, .none, .none, .none, .none, .none, -- d8-df
  .none, .none, .none, .none, .none, .none, .none, .none, -- e0-e7
  .none, .none, .none, .none, .none, .none, .none, .none, -- e8-ef
  .none, .none, .none, .none, .none, .none, .none, .none, -- f0-f7
  .none, .none, .none, .none, .none, .none, .none, .none] -- f8-ff

/-- The NUL character. -/
def nul : Char := Char.ofNat 0

/-- `letter_map`. -/
def letterMap : List Char := [
  nul, Char.ofNat 27, '1', '2', '3', '4', '5', '6', -- 00-07
  '7', '8', '9', '0', '-', '=', Char.ofNat 8, '\t', -- 08-0f
  'q', 'w', 'e', 'r', 't', 'y', 'u', 'i', -- 10-17
  'o', 'p', '[', ']', '\n', nul, 'a', 's', -- 18-1f
  'd', 'f', 'g', 'h', 'j', 'k', 'l', ';', -- 20-27
  Char.ofNat 39, Char.ofNat 96, nul, '#', 'z', 'x', 'c', 'v', -- 28-2f
  'b', 'n', 'm', ',', '.', '/', nul, nul, -- 30-37
  nul, ' ', nul, nul, nul, nul, nul, nul, -- 38-3f
  nul, nul, nul, nul, nul, nul, nul, nul, -- 40-47
  nul, nul, nul, nul, nul, nul, nul, nul, -- 48-4f
  nul, nul, nul, nul, nul, nul, Char.ofNat 92, nul] -- 50-57

/-- `letter_shift_map`. -/
def letterShiftMap : List Char := [
  nul, Char.ofNat 27, '!', Char.ofNat 34, Char.ofNat 0xa3, '$', '%', '^', -- 00-07
  '&', '*', '(', ')', '_', '+', Char.ofNat 8, '\t', -- 08-0f
  'Q', 'W', 'E', 'R', 'T', 'Y', 'U', 'I', -- 10-17
  'O', 'P', Char.ofNat 123, Char.ofNat 125, '\n', nul, 'A', 'S', -- 18-1f
  'D', 'F', 'G', 'H', 'J', 'K', 'L', ':', -- 20-27
  '@', Char.ofNat 0xac, nul, '~', 'Z', 'X', 'C', 'V', -- 28-2f
  'B', 'N', 'M', '<', '>', '?', nul, nul, -- 30-37
  nul, ' ', nul, nul, nul, nul, nul, nul, -- 38-3f
  nul, nul, nul, nul, nul, nul, nul, nul, -- 40-47
  nul, nul, nul, nul, nul, nul, nul, nul, -- 48-4f
  nul, nul, nul, nul, nul, nul, '|', nul] -- 50-57

/-- Add to what the keys did elsewhere. -/
def Keyboard.effect (s : Keyboard) (e : KeyEffect) : Keyboard := { s with effects := s.effects ++ [e] }

/-- A modifier key: set its bit, or clear it if the key is released. -/
def setModifier (s : Keyboard) (bit : BitVec 32) (code : Nat) : Keyboard :=
  if code &&& 0x80 ≠ 0 then { s with shifts := s.shifts &&& ~~~bit } else { s with shifts := s.shifts ||| bit }

/-- A lock key: toggle its bit. -/
def toggleLock (s : Keyboard) (bit : BitVec 32) : Keyboard :=
  if s.shifts &&& bit ≠ 0 then { s with shifts := s.shifts &&& ~~~bit } else { s with shifts := s.shifts ||| bit }

/-- `key_letter`: with Ctrl some letters run a hook, else the letter goes to the buffer. -/
def keyLetter (s : Keyboard) (code : Nat) : Keyboard :=
  let c :=
    if s.shifts &&& shShift ≠ 0 ∧ ¬s.shifts &&& shCapslock ≠ 0 then letterShiftMap.getD code nul
    else if s.shifts &&& shCapslock ≠ 0 ∧ ¬s.shifts &&& shShift ≠ 0 then letterShiftMap.getD code nul
    else letterMap.getD code nul
  if s.shifts &&& shCtrl ≠ 0 then
    if c = 'm' ∨ c = 'M' then s.effect .showMemory
    else if c = 'p' ∨ c = 'P' then s.effect .showTasks
    else if c = 'v' ∨ c = 'V' then s.effect .version
    else s
  else addBuffer s c

/-- `key_shift`. -/
def keyShift (s : Keyboard) (code : Nat) : Keyboard := setModifier s shShift code

/-- `key_ctrl`. -/
def keyCtrl (s : Keyboard) (code : Nat) : Keyboard := setModifier s shCtrl code

/-- `key_alt`: the prefix tells the right key from the left. -/
def keyAlt (s : Keyboard) (code : Nat) : Keyboard :=
  if s.e0 = 1 then setModifier s shRalt code else setModifier s shLalt code

/-- `key_num`. -/
def keyNum (s : Keyboard) : Keyboard := toggleLock s shNumlock

/-- `key_caps`. -/
def keyCaps (s : Keyboard) : Keyboard := toggleLock s shCapslock

/-- `key_keypad`: Ctrl, Alt and Del reboot the machine, from which no call returns. -/
def keyKeypad (s : Keyboard) (code : Nat) : Option Keyboard :=
  if code = 0x53 ∧ s.shifts &&& shCtrl ≠ 0 ∧ (s.shifts &&& shLalt ≠ 0 ∨ s.shifts &&& shRalt ≠ 0) then none
  else some (s.effect (.printk "You pressed keypad\n"))

/-- Call the function of a key. -/
def callKey (s : Keyboard) (code : Nat) : Option Keyboard :=
  match keyTable.getD code .none with
  | .none => some s
  | .letter => some (keyLetter s code)
  | .shift => some (keyShift s code)
  | .ctrl => some (keyCtrl s code)
  | .alt => some (keyAlt s code)
  | .num => some (keyNum s)
  | .caps => some (keyCaps s)
  | .scroll => some (s.effect (.printk "You pressed scroll\n"))
  | .sysreq => some (s.effect (.printk "You pressed sysreq\n"))
  | .func => some (s.effect (.printk "You pressed func\n"))
  | .keypad => keyKeypad s code
  | .win => some (s.effect (.printk "You pressed win\n"))
  | .menu => some (s.effect (.printk "You pressed menu\n"))

/-- `do_keyboard_int` with a scan code, up to its `wake_up_queue`: keep a prefix for the next code, or call the key. -/
def doKeyboardInt (s : Keyboard) (code : Nat) : Option Keyboard :=
  if code = 0xe0 then some { s with e0 := 1 }
  else if code = 0xe1 then some { s with e0 := 2 }
  else (callKey s code).map fun s => { s with e0 := 0 }

end BootPerl
