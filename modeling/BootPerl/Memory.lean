import BootPerl.Lib.FreeList
import BootPerl.Lib.Outcome

/-!
# The memory manager (`kernel/memory.c`)

Two free lists: page runs hang from `pages_head`, blocks from `blocks_head`. Both keep their nodes in the memory they manage,
so every function is a function on the bytes of memory. `unsigned int`, `unsigned long` and pointers are numbers below
`2 ^ 32` and `unsigned short` numbers below `2 ^ 16`; where an operation of the source can wrap or truncate, so does the model's.

`panic` halts the machine and does not return. The debug output and the lock taken around it touch nothing modelled here.
-/

namespace BootPerl

/-- Where the linker put the two list heads, eight bytes each: apart, and in the kernel image, far below 256 MB. -/
structure HeapVars where
  pagesHead : Nat
  blocksHead : Nat
  headsApart : pagesHead + 8 ≤ blocksHead ∨ blocksHead + 8 ≤ pagesHead
  pagesLow : pagesHead + 8 ≤ 268435456
  blocksLow : blocksHead + 8 ≤ 268435456

/-! ## `struct freepage` and `struct freeblock` -/

namespace Mem

/-- `p->pages`, an `unsigned short`. -/
def pages (m : Mem) (p : Nat) : Nat := m.load p 2

def setPages (m : Mem) (p v : Nat) : Mem := m.store p 2 v

/-- `p->size` of a `struct freeblock`, and `h->size` of a `struct blockheader`. -/
def size (m : Mem) (p : Nat) : Nat := m.load p 4

def setSize (m : Mem) (p v : Nat) : Mem := m.store p 4 v

end Mem

open Mem

/-! ## Pages and addresses -/

def pageSize : Nat := 4096

/-- `sizeof(struct blockheader)`. -/
def headerSize : Nat := 4

/-- `sizeof(struct freeblock)`. -/
def freeblockSize : Nat := 8

/-- A 32-bit word read as a `long`. -/
def toLong (v : Nat) : Int := if v < 2147483648 then v else (v : Int) - 4294967296

/-- `(void *)(page * page_size)`: an `unsigned short` times 4096 fits an `int`. -/
def pageToAddr (page : Nat) : Nat := page * pageSize

/-- `(long)addr / page_size`, a signed division, returned as an `unsigned short`. -/
def addrToPage (addr : Nat) : Nat := ((toLong addr).tdiv pageSize % 65536).toNat

/-! ## The page list -/

/-- One run of all the pages between the two bounds. -/
def kallocInit (v : HeapVars) (m : Mem) (memoryStart memoryEnd : Nat) : Mem :=
  let m := m.setNext v.pagesHead memoryStart
  let m := m.setPages (m.next v.pagesHead) ((memoryEnd + 4294967296 - memoryStart) % 4294967296 / pageSize)
  m.setNext (m.next v.pagesHead) 0

/-- The last page of the first run. -/
def pageAllocate (v : HeapVars) (m : Mem) : Outcome (Mem × Nat) :=
  if m.next v.pagesHead = 0 then .panic "Out of pages to allocate"
  else if m.pages (m.next v.pagesHead) = 0 then .panic "Assertion failure"
  else
    let pageNumber := (addrToPage (m.next v.pagesHead) + (m.pages (m.next v.pagesHead) - 1)) % 65536
    let m := m.setPages (m.next v.pagesHead) (m.pages (m.next v.pagesHead) - 1)
    let m := if m.pages (m.next v.pagesHead) = 0 then m.setNext v.pagesHead (m.next (m.next v.pagesHead)) else m
    .ok (m, pageNumber)

/-- The loop of `page_allocate_consecutive`, from the node `cur` whose predecessor is `prev`, and the panic after it. -/
def takeConsecutive (m : Mem) (count : Nat) : Nat → Nat → Nat → Outcome (Mem × Nat)
  | 0, _, _ => .running
  | fuel + 1, prev, cur =>
    if cur = 0 then .panic "Not enough consecutive pages to complete alloc"
    else if count ≤ m.pages cur then
      let pageNumber := addrToPage cur
      let m := m.setPages cur (m.pages cur - count)
      let pageNumber := (pageNumber + m.pages cur) % 65536
      let m := if m.pages cur = 0 then m.setNext prev (m.next cur) else m
      .ok (m, pageNumber)
    else takeConsecutive m count fuel cur (m.next cur)

/-- The last `count` pages of the first run that has as many; `count` is an `unsigned short`. -/
def pageAllocateConsecutive (fuel : Nat) (v : HeapVars) (m : Mem) (count : Nat) : Outcome (Mem × Nat) :=
  if count = 0 then .panic "Assertion failure"
  else if m.next v.pagesHead = 0 then .panic "Out of pages to allocate"
  else if m.pages (m.next v.pagesHead) = 0 then .panic "Assertion failure"
  else takeConsecutive m count fuel v.pagesHead (m.next v.pagesHead)

/-- Step B3 of `page_release`: join the page with the run `p` after it, or point it there; the page count at the page. -/
def pageSpliceNext (m : Mem) (page p : Nat) : Mem × Nat :=
  let cur := pageToAddr page
  let n := 1
  if page + n = addrToPage p ∧ p ≠ 0 then (m.setNext cur (m.next p), (n + m.pages p) % 65536)
  else (m.setNext cur p, n)

/-- Step B4 of `page_release`: join the `n` pages with the run `q` before them, or link them in after it. -/
def pageSplicePrev (m : Mem) (page q n : Nat) : Mem :=
  let cur := pageToAddr page
  if addrToPage q + m.pages q = page then
    let m := m.setPages q (m.pages q + n)
    m.setNext q (m.next cur)
  else
    let m := m.setNext q cur
    m.setPages cur n

/-- Put one page back; `page` is an `unsigned short`. -/
def pageRelease (fuel : Nat) (v : HeapVars) (m : Mem) (page : Nat) : Outcome Mem :=
  match m.scan (pageToAddr page) fuel v.pagesHead with
  | none => .running
  | some (q, p) =>
    let (m, n) := pageSpliceNext m page p
    .ok (pageSplicePrev m page q n)

/-! ## The block list -/

/-- Step B3 of `mem_free`: join the `n` bytes at `cur` with the block `p` after them, or point them there; the byte count. -/
def blockSpliceNext (m : Mem) (cur n p : Nat) : Mem × Nat :=
  if (cur + n) % 4294967296 = p ∧ p ≠ 0 then (m.setNext cur (m.next p), (n + m.size p) % 4294967296)
  else (m.setNext cur p, n)

/-- Step B4 of `mem_free`: join the `n` bytes at `cur` with the block `q` before them, or link them in after it. Only the
second branch writes `cur->size`. -/
def blockSplicePrev (m : Mem) (cur q n : Nat) : Mem :=
  if (q + m.size q) % 4294967296 = cur then
    let m := m.setSize q (m.size q + n)
    m.setNext q (m.next cur)
  else
    let m := m.setNext q cur
    m.setSize cur n

/-- The loop that hands `c` pages from address `start` to the page list. -/
def releasePages (fuel : Nat) (v : HeapVars) : Nat → Mem → Nat → Outcome Mem
  | 0, m, _ => .ok m
  | c + 1, m, start =>
    (pageRelease fuel v m (addrToPage start)).bind fun m => releasePages fuel v c m ((start + pageSize) % 4294967296)

/-- The first page boundary at or above an address, as the source computes it. -/
def pageAlign (a : Nat) : Nat := (a + pageSize - 1) % 4294967296 / pageSize * pageSize

/-- The last part of `mem_free`: the whole pages of the block that the node at `cur` describes go to the page list. -/
def returnPages (fuel : Nat) (v : HeapVars) (m : Mem) (cur : Nat) : Outcome Mem :=
  if pageSize ≤ m.size cur then
    let start := pageAlign cur
    let size := (m.size cur + 4294967296 - (start + 4294967296 - cur) % 4294967296) % 4294967296
    releasePages fuel v (size / pageSize) m start
  else .ok m

/-- Put `n` bytes at `mem` on the block list, and return whole pages if `freepages` is set. -/
def memFree (fuel : Nat) (v : HeapVars) (m : Mem) (mem n : Nat) (freepages : Bool) : Outcome Mem :=
  match m.scan mem fuel v.blocksHead with
  | none => .running
  | some (q, p) =>
    let (m, n) := blockSpliceNext m mem n p
    let m := blockSplicePrev m mem q n
    if freepages then returnPages fuel v m mem else .ok m

/-- Free a block by its payload address: the header before it holds the payload size. -/
def kfree (fuel : Nat) (v : HeapVars) (m : Mem) (mem : Nat) : Outcome Mem :=
  let h := mem - headerSize
  let n := (m.size h + headerSize) % 4294967296
  memFree fuel v m h n true

/-- The search loop of `kalloc` (A2): the memory, the node found and its predecessor. At the end of the list it takes pages,
puts them on the block list and starts over. `pages` is the page count of the request, an `int` that
`page_allocate_consecutive` takes as an `unsigned short`. -/
def kallocSearch (v : HeapVars) (realsize : Nat) : Nat → Mem → Nat → Nat → Outcome (Mem × Nat × Nat)
  | 0, _, _, _ => .running
  | fuel + 1, m, q, p =>
    if p = 0 then
      let pages := (realsize + 4095) % 4294967296 / 4096
      (pageAllocateConsecutive fuel v m (pages % 65536)).bind fun (m, page) =>
        (memFree fuel v m (pageToAddr page) (pages * 4096 % 4294967296) false).bind fun m =>
          kallocSearch v realsize fuel m v.blocksHead (m.next v.blocksHead)
    else if m.size p < (realsize + freeblockSize) % 4294967296 then kallocSearch v realsize fuel m p (m.next p)
    else .ok (m, q, p)

/-- Step A4 of `kalloc`: the block is cut from the top of the node found; the payload address is returned. -/
def kallocSplit (m : Mem) (n realsize q p : Nat) : Mem × Nat :=
  let k := (m.size p + 4294967296 - realsize) % 4294967296
  let m := if k = 0 then m.setNext q (m.next p) else m.setSize p k
  let h := (p + k) % 4294967296
  let m := m.setSize h n
  (m, (h + headerSize) % 4294967296)

/-- Allocate `n` bytes. -/
def kalloc (fuel : Nat) (v : HeapVars) (m : Mem) (n : Nat) : Outcome (Mem × Nat) :=
  let realsize := (n + headerSize) % 4294967296
  (kallocSearch v realsize fuel m v.blocksHead (m.next v.blocksHead)).bind fun (m, q, p) =>
    .ok (kallocSplit m n realsize q p)

end BootPerl
