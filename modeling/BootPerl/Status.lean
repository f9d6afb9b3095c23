import BootPerl.Console
import BootPerl.Task
import BootPerl.Vsprintf

/-!
# The status line (`update_status` of `kernel/task.c`)

The last row of the screen shows the task that is to run. `msg2` is a buffer of 50 bytes on the stack, and nothing but its loop knows of
its size: what `sprintf` writes there is the text that it makes.
-/

namespace BootPerl

/-- The format of the status line. -/
def statusFormat : List Char := "[%d] %li <%08x> %s".toList

/-- Its arguments: `debug_phase`, `next->pid`, `current` and `next->name`. -/
def statusArgs (debugPhase : BitVec 32) (s : Sched) (next : Nat) : VaList := fun i =>
  match i with
  | 0 => debugPhase
  | 1 => BitVec.ofNat 32 (s.pid next)
  | 2 => BitVec.ofNat 32 s.current
  | 3 => BitVec.ofNat 32 (s.name next)
  | _ => 0

/-- The cell of a `char` of a message. -/
def statusCell (c : Char) : Nat := ((signedChar (UInt8.ofNat c.toNat) + 0x1700) % 65536).toNat

/-- The loop that clears `n` cells of the row from column `i` on. -/
def clearCells (m : Mem) (i : Nat) : Nat → Mem
  | 0 => m
  | n + 1 => clearCells (m.store (cellAddr (80 * 24 + i)) 2 (0x20 + 0x1700)) (i + 1) n

/-- The loops that show a message from column `col` on, with the characters from index `i` on left. What they leave in `i` comes with the
memory. -/
def showMessage (m : Mem) (col i : Nat) : List Char → Mem × Nat
  | [] => (m, i)
  | c :: msg =>
    if c ≠ Char.ofNat 0 ∧ i < 50 then showMessage (m.store (cellAddr (80 * 24 + i + col)) 2 (statusCell c)) col (i + 1) msg else (m, i)

/-- `update_status`: what is written from `msg2` on, and the memory of the screen. -/
def updateStatus (str : Nat → List Char) (videoInit debugPhase : BitVec 32) (s : Sched) (next : Nat) (m : Mem) :
    Option (List Char × Mem) :=
  if videoInit = 0 then some ([], m)
  else
    (sprintf str statusFormat (statusArgs debugPhase s next)).map fun w =>
      let m := m.store (cellAddr (80 * 24 + 0)) 2 (16 + 0x1e00)
      let m := m.store (cellAddr (80 * 24 + 79)) 2 (17 + 0x1e00)
      let m := clearCells m 1 78
      let shown := showMessage m 1 0 "Kernel operational ".toList
      let m := shown.1.store (cellAddr (80 * 24 + shown.2 + 1)) 2 (179 + 0x1000)
      (w.out ++ [Char.ofNat 0], (showMessage m 42 0 w.out).1)

end BootPerl
