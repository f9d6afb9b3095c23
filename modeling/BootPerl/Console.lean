import BootPerl.Lib.Memory

/-!
# The text console (`kernel/console.c`)

The video memory is that of the machine, a cell two bytes from `0xb8000` on. An `int` is an `Int`, and `char` is signed. What goes
to the ports of the cursor is kept in order. The lock does not show: a call is one step.
-/

namespace BootPerl

/-- The fields of `struct vidparams` that the console uses. -/
structure VidParams where
  origX : UInt8
  origY : UInt8
  cols : UInt8
  lines : UInt8
  deriving DecidableEq, Repr

/-- The memory, the parameters, and the values written to the ports so far. -/
structure Video where
  mem : Mem
  params : VidParams
  ports : List (Nat × Nat)

/-- `memcpy` of `n` bytes: byte by byte from the lowest address up. -/
def memcpy (m : Mem) (dest src : Nat) : Nat → Mem
  | 0 => m
  | n + 1 => memcpy (m.set dest (m.byte src)) (dest + 1) (src + 1) n

/-- `vidmem`. -/
def vidmem : Nat := 0xb8000

/-- `vidport`. -/
def vidport : Nat := 0x3d0

/-- `CHAR_ATTR`. -/
def charAttr : Int := 0x0700

/-- The address of `vidmem[i]`. -/
def cellAddr (i : Int) : Nat := ((vidmem + 2 * i) % 4294967296).toNat

/-- The loop of `scroll` over `n` cells from `i` on: the sum binds closer than the mask. -/
def recolour (m : Mem) (i : Int) : Nat → Mem
  | 0 => m
  | n + 1 => recolour (m.store (cellAddr i) 2 (m.load (cellAddr i) 2 &&& (0xff + 0x2800))) (i + 1) n

/-- `scroll`: move the rows up by one, and recolour the last. -/
def scroll (m : Mem) (p : VidParams) : Mem :=
  let cols : Int := p.cols.toNat
  let lines : Int := p.lines.toNat
  let m := memcpy m vidmem (vidmem + p.cols.toNat * 2) (((lines - 1) * cols * 2) % 4294967296).toNat
  recolour m ((lines - 1) * cols) (lines * cols - (lines - 1) * cols).toNat

/-- The value of a `char`. -/
def signedChar (b : UInt8) : Int := if b.toNat < 128 then b.toNat else (b.toNat : Int) - 256

/-- The memory and the cursor while `con_write` runs. -/
structure Writing where
  mem : Mem
  x : Int
  y : Int

/-- Go to the first column of the next row; below the last row, scroll. -/
def nextRow (p : VidParams) (s : Writing) : Writing :=
  let s := { s with x := 0, y := s.y + 1 }
  if (p.lines.toNat : Int) ≤ s.y then { s with mem := scroll s.mem p, y := s.y - 1 } else s

/-- One turn of the loop of `con_write`. -/
def writeChar (p : VidParams) (s : Writing) (b : UInt8) : Writing :=
  let c := signedChar b
  let c := if c = 9 then 32 else c
  if c = 10 then nextRow p s
  else if c = 13 then { s with x := 0, y := s.y - 1 }
  else
    let s := { s with mem := s.mem.store (cellAddr (s.x + p.cols.toNat * s.y)) 2 ((c + charAttr) % 65536).toNat }
    let s := { s with x := s.x + 1 }
    if (p.cols.toNat : Int) ≤ s.x then nextRow p s else s

/-- The value of an `unsigned char`. -/
def uchar (i : Int) : UInt8 := UInt8.ofNat (i % 256).toNat

/-- `con_write`: write the text, store the cursor, and show it. -/
def conWrite (v : Video) (text : List UInt8) : Video :=
  let p := v.params
  let s := text.foldl (writeChar p) ⟨v.mem, p.origX.toNat, p.origY.toNat⟩
  let pos := (s.x + p.cols.toNat * s.y) * 2
  { mem := s.mem
    params := { p with origX := uchar s.x, origY := uchar s.y }
    ports := v.ports ++ [(14, vidport + 4), ((pos / 512 % 256).toNat, vidport + 5), (15, vidport + 4),
      ((pos / 2 % 256).toNat, vidport + 5)] }

end BootPerl
