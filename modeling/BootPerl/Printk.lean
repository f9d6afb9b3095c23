import Mathlib.Logic.Function.Basic

/-!
# The kernel log (`kernel/printk.c`)

A `char` is a `Char`, of which the code meets those below 256. A call of `printk` is given the text that `vsprintf` puts at
`buf + 3`. Every console has a `write`, and what it is given is appended to `out`. The counters do not wrap: `log_start` is read
through a mask only.
-/

namespace BootPerl

/-- A console driver, with the characters written to it. -/
structure Console where
  loglevel : Nat
  out : List Char
  deriving DecidableEq, Repr

/-- `LOG_BUF_SIZE`; `& LOG_BUF_MASK` is the remainder by it. -/
def logBufSize : Nat := 16384

/-- `LOGLEVEL_DEFAULT`. -/
def loglevelDefault : Int := 4

/-- The variables of `printk.c`; the first console is the last one registered. -/
structure Log where
  buf : Nat → Char
  logBuf : Nat → Char
  logStart : Nat
  logSize : Nat
  loggedChars : Nat
  msgLevel : Int
  consoles : List Console

/-- The variables at boot. -/
def Log.boot : Log where
  buf _ := Char.ofNat 0
  logBuf _ := Char.ofNat 0
  logStart := 0
  logSize := 0
  loggedChars := 0
  msgLevel := -1
  consoles := []

/-- Store a text at `p`. -/
def putText (buf : Nat → Char) (p : Nat) : List Char → Nat → Char
  | [] => buf
  | c :: m => putText (Function.update buf p c) (p + 1) m

/-- The `len` characters at `p`. -/
def getText (buf : Nat → Char) (p : Nat) : Nat → List Char
  | 0 => []
  | len + 1 => buf p :: getText buf (p + 1) len

/-- A level tag at `p`: `<`, a digit from 0 to 7, `>`. -/
def IsTag (c₀ c₁ c₂ : Char) : Prop := c₀ = '<' ∧ '0' ≤ c₁ ∧ c₁ ≤ '7' ∧ c₂ = '>'

instance (c₀ c₁ c₂ : Char) : Decidable (IsTag c₀ c₁ c₂) := inferInstanceAs (Decidable (_ ∧ _ ∧ _ ∧ _))

/-- The level that a tag names: `p[1] - '0'`. -/
def tagLevel (c₁ : Char) : Int := (c₁.toNat : Int) - 48

/-- Add a character to the circular buffer. -/
def logChar (s : Log) (c : Char) : Log :=
  let s := { s with logBuf := Function.update s.logBuf ((s.logStart + s.logSize) % logBufSize) c }
  let s := if s.logSize < logBufSize then { s with logSize := s.logSize + 1 } else { s with logStart := s.logStart + 1 }
  { s with loggedChars := s.loggedChars + 1 }

/-- The inner loop of `printk`, with `n` characters to go: log up to the end of the line. Where it stopped, and `line_feed`. -/
def logLine : Nat → Log → Nat → Log × Nat × Nat
  | 0, s, p => (s, p, 0)
  | n + 1, s, p =>
    let s := logChar s (s.buf p)
    if s.buf p = '\n' ∨ s.buf p = '\r' then (s, p, 1) else logLine n s (p + 1)

/-- Give a text to the consoles that show its level. -/
def writeConsoles (s : Log) (text : List Char) : Log :=
  { s with consoles := s.consoles.map fun c => if s.msgLevel ≤ c.loglevel then { c with out := c.out ++ text } else c }

/-- The start of a line: find the level tag, or put one before the text. Where the line starts with its tag, and without. -/
def openLine (s : Log) (p : Nat) : Log × Nat × Nat :=
  if s.msgLevel < 0 then
    if IsTag (s.buf p) (s.buf (p + 1)) (s.buf (p + 2)) then ({ s with msgLevel := tagLevel (s.buf (p + 1)) }, p, p + 3)
    else ({ s with buf := putText s.buf (p - 3) ['<', '4', '>'], msgLevel := loglevelDefault }, p - 3, p)
  else (s, p, p)

/-- One turn of the outer loop of `printk`: log a line and write it out. -/
def printLine (bufEnd : Nat) (s : Log) (p : Nat) : Log × Nat :=
  let (s, p, msg) := openLine s p
  let (s, p, lineFeed) := logLine (bufEnd - p) s p
  let s := writeConsoles s (getText s.buf msg (p - msg + lineFeed))
  (if lineFeed = 1 then { s with msgLevel := -1 } else s, p + 1)

/-- The outer loop of `printk`. Each turn reads one line, so there are no more turns than characters. -/
def printLines (bufEnd : Nat) : Nat → Log → Nat → Log
  | 0, s, _ => s
  | turns + 1, s, p =>
    if p < bufEnd then
      let (s, p) := printLine bufEnd s p
      printLines bufEnd turns s p
    else s

/-- A formatted message that fits `buf + 3` with its final zero. -/
structure Message where
  text : List Char
  fits : text.length ≤ 1020

/-- `printk` of a message that `vsprintf` has formatted. -/
def printk (s : Log) (m : Message) : Log :=
  let s := { s with buf := putText s.buf 3 (m.text ++ [Char.ofNat 0]) }
  printLines (3 + m.text.length) m.text.length s 3

/-- The start of a chunk: find the level tag. What is left to write, and its level. -/
def openChunk (chunk : List Char) (msgLevel : Int) : List Char × Int :=
  let buf := fun k => chunk.getD k (Char.ofNat 0)
  if msgLevel < 0 then
    if IsTag (buf 0) (buf 1) (buf 2) then (chunk.drop 3, tagLevel (buf 1)) else (chunk, loglevelDefault)
  else (chunk, msgLevel)

/-- The loop of `register_console`, with `n` characters of the log to go from `p`: `chunk` holds those read and not written, and
the result is what `write` is given. -/
def replayLog (s : Log) (loglevel : Nat) : Nat → Nat → List Char → Int → List Char
  | 0, _, _, _ => []
  | n + 1, p, chunk, msgLevel =>
    let c := s.logBuf p
    let chunk := chunk ++ [c]
    let p := (p + 1) % logBufSize
    if c ≠ '\n' ∧ n ≠ 0 ∧ chunk.length < 15 then replayLog s loglevel n p chunk msgLevel
    else
      let (q, msgLevel) := openChunk chunk msgLevel
      let out := if msgLevel ≤ loglevel then q else []
      let msgLevel := if c = '\n' then -1 else msgLevel
      out ++ replayLog s loglevel n p [] msgLevel

/-- `register_console`: add a console and write the log to it. -/
def registerConsole (s : Log) (con : Console) : Log :=
  let out := replayLog s con.loglevel s.logSize (s.logStart % logBufSize) [] (-1)
  { s with consoles := { con with out := con.out ++ out } :: s.consoles }

end BootPerl
