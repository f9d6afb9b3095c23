import BootPerl.Ctype

/-!
# Formatting and reading numbers (`kernel/vsprintf.c`)

A `char` is a `Char` below 256, its byte for the macros of `kernel/ctype.h`, and a string the list of its characters before the NUL.
An `int` is an integer that wraps at 32 bits. The arguments are the words of the stack from `args` on, whatever was put there, and
`str` gives the string that an address stands for. What a function writes at `str` is the text that it appends.
-/

namespace BootPerl

/-- What an `int` keeps of a result. -/
def cInt (x : Int) : Int := (x + 2147483648) % 4294967296 - 2147483648

/-! ## Classes of characters -/

/-- `isdigit` of a `char`. -/
def isdigit (c : Char) : Bool := Ctype.isDigit (UInt8.ofNat c.toNat)

/-- `isxdigit` of a `char`. -/
def isxdigit (c : Char) : Bool := Ctype.isXdigit (UInt8.ofNat c.toNat)

/-- `toupper` of a `char`. -/
def toupper (c : Char) : Char := Char.ofNat (Ctype.toUpper (UInt8.ofNat c.toNat)).toNat

/-! ## Division -/

/-- `divl`: quotient and remainder of the 64-bit number `high:low`. A quotient of more than 32 bits is a divide error. -/
def divl (high low base : Nat) : Option (Nat × Nat) :=
  let n := high * 4294967296 + low
  if base = 0 ∨ 4294967296 ≤ n / base then none else some (n / base, n % base)

/-- `do_div`: divide the 64-bit number `n` in two steps. What is left in `n`, and the remainder. -/
def doDiv (n base : Nat) : Option (Nat × Nat) :=
  let low := n % 4294967296
  let high := n / 4294967296
  let upper := if high ≠ 0 then high % base else high
  let high := if high ≠ 0 then high / base else high
  (divl upper low base).bind fun r => some (high * 4294967296 + r.1, r.2)

/-! ## The loops that fill -/

/-- Write `c` and count `width` down, as long as it is over `bound`. What is written, and what `width` comes to. -/
def padDown (c : Char) (bound width : Int) : List Char × Int :=
  if bound < width then
    let rest := padDown c bound (width - 1)
    (c :: rest.1, rest.2)
  else ([], width)
termination_by (width - bound).toNat

/-- `while (bound < width--) *str++ = c`. -/
def padWhile (c : Char) (bound width : Int) : List Char × Int :=
  let rest := padDown c bound width
  (rest.1, cInt (rest.2 - 1))

/-! ## Numbers -/

/-- The flags to `number()`. -/
structure Flags where
  zeropad : Bool
  sign : Bool
  plus : Bool
  space : Bool
  left : Bool
  special : Bool
  large : Bool
  deriving DecidableEq, Repr

/-- No flag. -/
def Flags.none : Flags := ⟨false, false, false, false, false, false, false⟩

/-- `digits`, in small or in large letters. -/
def digitChars (large : Bool) : List Char :=
  if large then "0123456789ABCDEFGHIJKLMNOPQRSTUVWXYZ".toList else "0123456789abcdefghijklmnopqrstuvwxyz".toList

/-- The loop that fills `tmp`, which has room for `room` more: the digits of `num` before those it holds, in the order in which they
are printed. There is none when a division fails or the room is spent. -/
def fillDigits (digits : List Char) (base : Nat) : Nat → Nat → List Char → Option (List Char)
  | room, num, tmp =>
    if num = 0 then some tmp
    else
      match room with
      | 0 => none
      | room + 1 => (doDiv num base).bind fun r => fillDigits digits base room r.1 (digits.getD r.2 (Char.ofNat 0) :: tmp)

/-- The sign that is shown, if one is. -/
def signChar (num : BitVec 64) (type : Flags) : Option Char :=
  if type.sign then
    if num.toInt < 0 then some '-' else if type.plus then some '+' else if type.space then some ' ' else none
  else none

/-- `num` once its sign is known. -/
def magnitude (num : BitVec 64) (type : Flags) : BitVec 64 := if type.sign ∧ num.toInt < 0 then -num else num

/-- What shows the base: `0`, or `0` and the digit 33. -/
def basePrefix (digits : List Char) (base : Nat) (type : Flags) : List Char :=
  if type.special then if base = 8 then ['0'] else if base = 16 then ['0', digits.getD 33 (Char.ofNat 0)] else [] else []

/-- `number()`. There is no text for a base that it does not know, where it returns null. -/
def number (num : BitVec 64) (base : Nat) (size precision : Int) (type : Flags) : Option (List Char) :=
  let digits := digitChars type.large
  let type := if type.left then { type with zeropad := false } else type
  if base < 2 ∨ 36 < base then none
  else
    let c := if type.zeropad then '0' else ' '
    let sign := signChar num type
    let size := if sign ≠ none then cInt (size - 1) else size
    let num := magnitude num type
    let size := if type.special then if base = 16 then cInt (size - 2) else if base = 8 then cInt (size - 1) else size else size
    (if num = 0 then some ['0'] else fillDigits digits base 66 num.toNat []).bind fun tmp =>
      let i : Int := tmp.length
      let precision := if precision < i then i else precision
      let size := cInt (size - precision)
      let lead := if ¬type.zeropad ∧ ¬type.left then padWhile ' ' 0 size else ([], size)
      let fill := if ¬type.left then padWhile c 0 lead.2 else ([], lead.2)
      let zeros := padWhile '0' i precision
      let trail := padWhile ' ' 0 fill.2
      some (lead.1 ++ sign.toList ++ basePrefix digits base type ++ fill.1 ++ zeros.1 ++ tmp ++ trail.1)

/-! ## Reading the format -/

/-- The arguments, as words of the stack. -/
abbrev VaList := Nat → BitVec 32

/-- The arguments after the first. -/
def vaNext (args : VaList) : VaList := fun i => args (i + 1)

/-- What is left of the format, and the arguments that are left. -/
structure Reader where
  fmt : List Char
  args : VaList

/-- A conversion up to its letter. -/
structure Spec where
  flags : Flags
  fieldWidth : Int
  precision : Int
  qualifier : Option Char

/-- `skip_atoi`, with `i` read so far. -/
def skipAtoi (i : Int) : List Char → Int × List Char
  | [] => (i, [])
  | c :: fmt => if isdigit c then skipAtoi (cInt (i * 10 + c.toNat - 48)) fmt else (i, c :: fmt)

/-- Process flags. -/
def readFlags (flags : Flags) : List Char → Flags × List Char
  | '-' :: fmt => readFlags { flags with left := true } fmt
  | '+' :: fmt => readFlags { flags with plus := true } fmt
  | ' ' :: fmt => readFlags { flags with space := true } fmt
  | '#' :: fmt => readFlags { flags with special := true } fmt
  | '0' :: fmt => readFlags { flags with zeropad := true } fmt
  | fmt => (flags, fmt)

/-- A number of the format, or the next argument for a star, or -1. -/
def readInt (r : Reader) : Int × Reader :=
  match r.fmt with
  | [] => (-1, r)
  | c :: fmt =>
    if isdigit c then ((skipAtoi 0 r.fmt).1, { r with fmt := (skipAtoi 0 r.fmt).2 })
    else if c = '*' then ((r.args 0).toInt, ⟨fmt, vaNext r.args⟩)
    else (-1, r)

/-- Get the field width: one from an argument may be negative, and then the field is filled on the right. -/
def readWidth (flags : Flags) (r : Reader) : Flags × Int × Reader :=
  let width := readInt r
  if r.fmt.head? = some '*' ∧ width.1 < 0 then ({ flags with left := true }, cInt (-width.1), width.2) else (flags, width)

/-- Get the precision. -/
def readPrecision (r : Reader) : Int × Reader :=
  match r.fmt with
  | '.' :: fmt =>
    let precision := readInt { r with fmt := fmt }
    (if precision.1 < 0 then 0 else precision.1, precision.2)
  | _ => (-1, r)

/-- Get the conversion qualifier. -/
def readQualifier (r : Reader) : Option Char × Reader :=
  match r.fmt with
  | [] => (none, r)
  | c :: fmt => if c = 'h' ∨ c = 'l' ∨ c = 'L' ∨ c = 'Z' then (some c, { r with fmt := fmt }) else (none, r)

/-- What stands between a `%` and the letter. -/
def readSpec (r : Reader) : Spec × Reader :=
  let flags := readFlags Flags.none r.fmt
  let width := readWidth flags.1 { r with fmt := flags.2 }
  let precision := readPrecision width.2.2
  let qualifier := readQualifier precision.2
  (⟨width.1, width.2.1, precision.1, qualifier.1⟩, qualifier.2)

/-! ## Conversions -/

/-- `strnlen`. -/
def strnlen : List Char → Nat → Nat
  | [], _ => 0
  | _ :: _, 0 => 0
  | _ :: s, count + 1 => strnlen s count + 1

/-- The case `c`. -/
def charText (spec : Spec) (arg : BitVec 32) : List Char :=
  let lead := if ¬spec.flags.left then padDown ' ' 0 (cInt (spec.fieldWidth - 1)) else ([], spec.fieldWidth)
  let trail := padDown ' ' 0 (cInt (lead.2 - 1))
  lead.1 ++ Char.ofNat (arg.toNat % 256) :: trail.1

/-- The case `s`: a precision of -1 is the largest `size_t`. -/
def stringText (spec : Spec) (s : List Char) : List Char :=
  let len := cInt (strnlen s (spec.precision % 4294967296).toNat)
  let lead := if ¬spec.flags.left then padWhile ' ' len spec.fieldWidth else ([], spec.fieldWidth)
  let trail := padWhile ' ' len lead.2
  lead.1 ++ s.take len.toNat ++ trail.1

/-- The number that an integer conversion is given, by its qualifier and the flag `SIGN`. -/
def integerArg (qualifier : Option Char) (sign : Bool) (args : VaList) : BitVec 64 :=
  match qualifier with
  | some 'L' => args 1 ++ args 0
  | some 'l' => if sign then (args 0).signExtend 64 else (args 0).setWidth 64
  | some 'Z' => (args 0).setWidth 64
  | some 'h' => if sign then ((args 0).setWidth 16).signExtend 64 else ((args 0).setWidth 16).setWidth 64
  | _ => if sign then (args 0).signExtend 64 else (args 0).setWidth 64

/-- An integer conversion. -/
def integerText (spec : Spec) (base : Nat) (args : VaList) : Option (List Char) :=
  number (integerArg spec.qualifier spec.flags.sign args) base spec.fieldWidth spec.precision spec.flags

/-- The case `p`: a pointer takes eight digits when no width is given. -/
def pointerText (spec : Spec) (arg : BitVec 32) : Option (List Char) :=
  if spec.fieldWidth = -1 then number (arg.setWidth 64) 16 8 spec.precision { spec.flags with zeropad := true }
  else number (arg.setWidth 64) 16 spec.fieldWidth spec.precision spec.flags

/-- The text written from `buf` on, and what was stored for `%n`: where, and how many characters had been written. -/
structure Written where
  out : List Char
  counts : List (Nat × Nat)

/-- Write a text. -/
def Written.put (w : Written) (text : List Char) : Written := { w with out := w.out ++ text }

/-- The conversion of the letter `c`. -/
def convert (str : Nat → List Char) (spec : Spec) (args : VaList) (c : Char) (w : Written) : Option Written :=
  match c with
  | 'c' => some (w.put (charText spec (args 0)))
  | 's' => some (w.put (stringText spec (if args 0 = 0 then "<NULL>".toList else str (args 0).toNat)))
  | 'p' => (pointerText spec (args 0)).map w.put
  | 'n' => some { w with counts := w.counts ++ [((args 0).toNat, w.out.length)] }
  | '%' => some (w.put ['%'])
  | 'o' => (integerText spec 8 args).map w.put
  | 'X' => (integerText { spec with flags := { spec.flags with large := true } } 16 args).map w.put
  | 'x' => (integerText spec 16 args).map w.put
  | 'd' => (integerText { spec with flags := { spec.flags with sign := true } } 10 args).map w.put
  | 'i' => (integerText { spec with flags := { spec.flags with sign := true } } 10 args).map w.put
  | 'u' => (integerText spec 10 args).map w.put
  | c => some (w.put ['%', c])

/-- The arguments that the conversion leaves. -/
def argsAfter (spec : Spec) (args : VaList) (c : Char) : VaList :=
  if c = 'c' ∨ c = 's' ∨ c = 'p' ∨ c = 'n' then vaNext args
  else if c = 'o' ∨ c = 'X' ∨ c = 'x' ∨ c = 'd' ∨ c = 'i' ∨ c = 'u' then
    if spec.qualifier = some 'L' then vaNext (vaNext args) else vaNext args
  else args

/-- The loop of `vsprintf`. Each turn takes a character of the format at least. A format may end in a conversion without letter. -/
def vsprintfLoop (str : Nat → List Char) : Nat → Reader → Written → Option Written
  | 0, _, _ => none
  | fuel + 1, r, w =>
    match r.fmt with
    | [] => some w
    | c :: fmt =>
      if c ≠ '%' then vsprintfLoop str fuel { r with fmt := fmt } (w.put [c])
      else
        let spec := readSpec { r with fmt := fmt }
        match spec.2.fmt with
        | [] => vsprintfLoop str fuel spec.2 (w.put ['%'])
        | c :: fmt =>
          (convert str spec.1 spec.2.args c w).bind (vsprintfLoop str fuel ⟨fmt, argsAfter spec.1 spec.2.args c⟩)

/-- `vsprintf`. A NUL is written after the text. -/
def vsprintf (str : Nat → List Char) (fmt : List Char) (args : VaList) : Option Written :=
  vsprintfLoop str (fmt.length + 1) ⟨fmt, args⟩ ⟨[], []⟩

/-- `sprintf`. -/
def sprintf (str : Nat → List Char) (fmt : List Char) (args : VaList) : Option Written := vsprintf str fmt args

/-! ## Reading numbers -/

/-- The value of a digit. -/
def xdigitValue (c : Char) : Nat := if isdigit c then c.toNat - 48 else (toupper c).toNat - 65 + 10

/-- The loop of `simple_strtoul`: the result, and what is left of the string. -/
def strtoulLoop (base : Nat) (result : BitVec 32) : List Char → BitVec 32 × List Char
  | [] => (result, [])
  | c :: cp =>
    if isxdigit c ∧ xdigitValue c < base then strtoulLoop base (result * BitVec.ofNat 32 base + BitVec.ofNat 32 (xdigitValue c)) cp
    else (result, c :: cp)

/-- The base that a string shows, and what is left of it: `0x` before a digit shows 16, and `0` shows 8. -/
def strtoulBase (cp : List Char) : Nat × List Char :=
  match cp with
  | '0' :: cp =>
    match cp with
    | 'x' :: c :: cp => if isxdigit c then (16, c :: cp) else (8, 'x' :: c :: cp)
    | cp => (8, cp)
  | cp => (10, cp)

/-- `simple_strtoul`: the number, and the string from `endp` on. -/
def simpleStrtoul (cp : List Char) (base : Nat) : BitVec 32 × List Char :=
  if base = 0 then strtoulLoop (strtoulBase cp).1 0 (strtoulBase cp).2 else strtoulLoop base 0 cp

/-- `simple_strtol`. -/
def simpleStrtol (cp : List Char) (base : Nat) : BitVec 32 × List Char :=
  match cp with
  | '-' :: cp => (-(simpleStrtoul cp base).1, (simpleStrtoul cp base).2)
  | cp => simpleStrtoul cp base

end BootPerl
