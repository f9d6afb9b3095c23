import BootPerl.Memory

/-!
# The reports of the memory manager (`printpages`, `printblocks` and `show_memory` of `kernel/memory.c`)

Each walks a list from its head and prints what the nodes say. Of a line only the numbers are kept.
-/

namespace BootPerl

open Mem Outcome

/-- A line of `printpages`. -/
structure PageLine where
  start : Nat
  length : Nat
  next : Nat
  deriving DecidableEq, Repr

/-- A line of `printblocks`. -/
structure BlockLine where
  start : Nat
  size : Nat
  next : Nat
  deriving DecidableEq, Repr

/-- The loop of `printpages` and of `printblocks`: a line for each node from `p` on. -/
def printNodes {α : Type} (line : Nat → α) (m : Mem) : Nat → Nat → Outcome (List α)
  | 0, _ => .running
  | fuel + 1, p => if p ≠ 0 then (printNodes line m fuel (m.next p)).bind fun lines => .ok (line p :: lines) else .ok []

/-- Print the list of free pages, its head first. -/
def printpages (fuel : Nat) (v : HeapVars) (m : Mem) : Outcome (List PageLine) :=
  printNodes (fun p => ⟨addrToPage p, m.pages p, addrToPage (m.next p)⟩) m fuel v.pagesHead

/-- Print the list of free blocks, its head first. -/
def printblocks (fuel : Nat) (v : HeapVars) (m : Mem) : Outcome (List BlockLine) :=
  printNodes (fun p => ⟨p, m.size p, m.next p⟩) m fuel v.blocksHead

/-- A loop of `show_memory`: add up what the nodes from `p` on count. -/
def addNodes (count : Nat → Nat) (m : Mem) : Nat → Nat → Nat → Outcome Nat
  | 0, _, _ => .running
  | fuel + 1, freeMemory, p =>
    if p ≠ 0 then addNodes count m fuel ((freeMemory + count p) % 4294967296) (m.next p) else .ok freeMemory

/-- The two numbers of `show_memory`: free memory and all memory, in units of 1024 bytes; `pages` is what `kalloc_init` stored. -/
def showMemory (fuel : Nat) (v : HeapVars) (m : Mem) (pages : Nat) : Outcome (Nat × Int) :=
  (addNodes (fun p => m.pages p * pageSize) m fuel 0 v.pagesHead).bind fun freeMemory =>
    (addNodes m.size m fuel freeMemory v.blocksHead).bind fun freeMemory =>
      .ok (freeMemory / 1024, (toLong (pages * pageSize % 4294967296)).tdiv 1024)

/-- The variable `pages` after `kalloc_init`. -/
def kallocInitPages (memoryEnd : Nat) : Nat := memoryEnd / pageSize

end BootPerl
