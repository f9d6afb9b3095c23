import BootPerl.Printk
import BootPerl.Vectors
import BootPerl.Vsprintf

/-!
# Panics and exceptions (`kernel/panic.c`, `kernel/exception.c`)

What is printed before the machine halts. Strings are given to `printk` by their addresses. A text that does not fit its buffer has no
result here: the code would write past the end.
-/

namespace BootPerl

/-- `printk`, with its format: there is room for 1020 characters behind the first three of `buf`, and for the NUL. -/
def printkFormat (str : Nat → List Char) (s : Log) (fmt : List Char) (args : VaList) : Option Log :=
  (vsprintf str fmt args).bind fun w => if h : w.out.length ≤ 1020 then some (printk s ⟨w.out, h⟩) else none

/-- Words of the stack. -/
def wordArgs (ws : List (BitVec 32)) : VaList := fun i => ws.getD i 0

/-- The formats that `panic` gives to `printk`, each with its arguments: the text is at `buf`. What stands between the second and the
third is jumped over. -/
def panicFormats (buf : BitVec 32) : List (List Char × VaList) := [
  ("<0>\n".toList, wordArgs []),
  ("<0>*** Kernel panic: %s ***\n".toList, wordArgs [buf]),
  ("<0>\n".toList, wordArgs []),
  ("<0>*** System Halted ***\n".toList, wordArgs []),
  ("<0>*** It is now safe to power off your system ***\n".toList, wordArgs [])]

/-- Calls of `printk`, one after the other. -/
def printFormats (str : Nat → List Char) : Log → List (List Char × VaList) → Option Log
  | s, [] => some s
  | s, (fmt, args) :: calls => (printkFormat str s fmt args).bind fun s => printFormats str s calls

/-- `panic`, up to where the machine halts, with `buf` the address of its buffer of 1024 characters. -/
def panic (str : Nat → List Char) (buf : BitVec 32) (s : Log) (fmt : List Char) (args : VaList) : Option Log :=
  (vsprintf str fmt args).bind fun w =>
    if w.out.length < 1024 then printFormats (fun a => if a = buf.toNat then w.out else str a) s (panicFormats buf) else none

/-! ## Exceptions -/

/-- The strings of `exception.c`. -/
def exceptionNames : List String := [
  "de", "db", "NMI", "bp", "of", "br", "ud", "nm",
  "df", "reserved", "ts", "np", "ss", "gp", "pf", "reserved",
  "mf", "ac", "mc", "xf", "reserved", "reserved", "reserved", "reserved",
  "reserved", "reserved", "reserved", "reserved",
  "reserved", "reserved", "reserved", "reserved"]

/-- Where the strings are: those of `exception_names`, the literals, and the buffer of `panic`. -/
structure ExceptionStrings where
  str : Nat → List Char
  names : Nat → BitVec 32
  external : BitVec 32
  empty : BitVec 32
  ldt : BitVec 32
  gdt : BitVec 32
  panicBuf : BitVec 32

/-- How a name is printed, without an end of the line. -/
def exceptionFormat : List Char := "<0>exception: #%s".toList

/-- How a name with an error code is printed. -/
def exceptionEcFormat : List Char := "exception: #%s error code %08lx, %s%ssegment %04lx\n".toList

/-- `common_exception`. -/
def commonException (x : ExceptionStrings) (s : Log) (exception : BitVec 32) : Option Log :=
  (printkFormat x.str s exceptionFormat (wordArgs [x.names exception.toNat])).bind fun s =>
    panic x.str x.panicBuf s "A processor exception occured".toList (wordArgs [])

/-- The arguments of the format with an error code, which is a `long`: it is shifted with its sign. -/
def exceptionEcArgs (x : ExceptionStrings) (exception errorcode : BitVec 32) : VaList := wordArgs [
  x.names exception.toNat, errorcode,
  if errorcode &&& 0x1 ≠ 0 then x.external else x.empty,
  if errorcode &&& 0x2 ≠ 0 then x.ldt else if errorcode &&& 0x4 ≠ 0 then x.ldt else x.gdt,
  errorcode.sshiftRight 3]

/-- `common_exception_ec`. -/
def commonExceptionEc (x : ExceptionStrings) (s : Log) (exception errorcode : BitVec 32) : Option Log :=
  (printkFormat x.str s exceptionEcFormat (exceptionEcArgs x exception errorcode)).bind fun s =>
    panic x.str x.panicBuf s "A processor exception occured".toList (wordArgs [])

/-- `do_exception` of a vector: its stub, and the function that it jumps to, with what it finds on the stack. -/
def doException (x : ExceptionStrings) (s : Log) (nr : Nat) (m : Machine) : Option Log :=
  let m := m.exceptionStub (UInt32.ofNat nr)
  if nr ∈ exceptionEc then commonExceptionEc x s (m.arg 0).toBitVec (m.arg 1).toBitVec else commonException x s (m.arg 0).toBitVec

end BootPerl
