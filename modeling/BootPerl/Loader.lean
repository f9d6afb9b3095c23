import BootPerl.Lib.Bytes
import BootPerl.Lib.Outcome

/-!
# The two boot stages (`boot/bootsect.S`, `boot/second.S`)

From the first stage at its own place to the kernel in high memory: the walk over `secaddr`, the map, the reads and the moves. The
BIOS is a parameter. What the stages print, the keyboard and the disk parameter table are left out, and so is the code after the
load.
-/

namespace BootPerl

/-- The registers of a read, function 2 of `int $0x13`. -/
structure Request where
  cx : Nat
  dx : Nat
  al : Nat
  deriving DecidableEq, Repr

/-- What a read leaves: the memory, the carry and the count in `%al`. -/
structure Reply where
  mem : Mem
  carry : Bool
  al : Nat

/-- The services of the BIOS: a read to `%es:%bx`, the reset of the drives, and the move of words between two addresses, which
fails with the carry. -/
structure Bios where
  read : Request → Nat → Mem → Reply
  reset : Mem → Mem
  move : Nat → Nat → Nat → Mem → Option Mem

/-- The memory, and the reads that were delivered so far. -/
structure Loader where
  mem : Mem
  reads : List Request

/-- `FIRSTSEG`, as an address. -/
def firstSeg : Nat := 0x8a000

/-- `SECONDSEG`. -/
def secondSeg : Nat := 0x8b000

/-- `SYSSEG`. -/
def sysSeg : Nat := 0x10000

/-- `SECOND`, an offset from `FIRSTSEG`. -/
def secondOff : Nat := 0x1000

/-- `MAP`, an offset from `SECONDSEG`. -/
def mapOff : Nat := 0x2000

/-- `d_addr`, an offset from `FIRSTSEG`. -/
def dAddr : Nat := 16

/-- An address record, as both stages load it. -/
def fetch (m : Mem) (a : Nat) : Request := { cx := m.load a 2, dx := m.load (a + 2) 2, al := m.load (a + 4) 1 }

/-! ## The first stage -/

/-- `lagain` and `sload`: read what the records say, one after the other, until one is zero; after an error, from the first. -/
def sload (bios : Bios) : Nat → Loader → Nat → Nat → Outcome Loader
  | 0, _, _, _ => .running
  | fuel + 1, s, si, bx =>
    let r := fetch s.mem (firstSeg + si)
    if r.cx ||| r.dx = 0 then .ok s
    else
      let reply := bios.read r (firstSeg + bx) s.mem
      if reply.carry then sload bios fuel { s with mem := bios.reset reply.mem } dAddr secondOff
      else sload bios fuel { mem := reply.mem, reads := s.reads ++ [r] } ((si + 5) % 65536) ((bx + 0x200) % 65536)

/-! ## The second stage -/

/-- `dsk_do_rw`: the read, tried again after an error; `%bp` counts down twice for each try. -/
def dskDoRw (bios : Bios) (r : Request) (addr : Nat) : Nat → Mem → Reply
  | bp + 2, m =>
    let reply := bios.read r addr m
    if reply.carry then dskDoRw bios r addr bp (bios.reset reply.mem) else reply
  | _, m => bios.read r addr m

/-- `cread`: a record without a sector is no read. The stack is cut so that `dsk_do_rw` returns to the caller of `cread`, with the
BIOS's own count in `%al`. -/
def cread (bios : Bios) (s : Loader) (r : Request) (addr : Nat) : Loader × Bool × Nat :=
  if r.cx = 0 then (s, false, r.al)
  else
    let reply := dskDoRw bios r addr 5 s.mem
    ({ mem := reply.mem, reads := if reply.carry then s.reads else s.reads ++ [r] }, reply.carry, reply.al)

/-- The loader, `moff`, and the address in the descriptor that the moves go to: its low word and its third byte. -/
structure High extends Loader where
  moff : Nat
  destLow : Nat
  destHigh : Nat

/-- `addw` to the low word of the address, and `adcb` to the third byte. -/
def addDest (s : High) (words : Nat) : High :=
  { s with
    destLow := (s.destLow + words) % 65536
    destHigh := (s.destHigh + (s.destLow + words) / 65536) % 256 }

/-- `rdhigh`: read to `SYSSEG`, and move what was read to high memory. -/
def rdhigh (bios : Bios) (s : High) (r : Request) : Outcome High :=
  let (l, carry, al) := cread bios s.toLoader r sysSeg
  if carry then .panic "\nError 0x"
  else
    let words := 256 * al -- tempal, in %ch
    match bios.move words sysSeg (s.destLow + 65536 * s.destHigh) l.mem with
    | none => .panic "\nBlock move error 0x"
    | some mem => .ok (addDest (addDest { s with mem := mem, reads := l.reads } words) words)

/-- `lfile`, with `bsmith_counter` before the fetch: every fetch counts it down, and at zero the machine stops. -/
def lfile (bios : Bios) : Nat → High → Outcome (High × Nat)
  | 0, _ => .running -- the counter starts above zero and is never left there
  | counter + 1, s =>
    let r := fetch s.mem (secondSeg + (mapOff + s.moff) % 65536)
    if counter = 0 then .panic " KERNEL BIGGER THAN THOUGHT"
    else if r.cx = 0 ∧ r.dx = 0 then .ok (s, counter)
    else (rdhigh bios { s with moff := (s.moff + 5) % 65536 } r).bind (lfile bios counter)

/-- `verify`: the stage's own header. -/
def Verified (m : Mem) : Prop :=
  m.load (secondSeg + 4) 4 = 0x544f4f42 ∧ m.load (secondSeg + 8) 2 = 2 ∧ m.load (secondSeg + 10) 2 = 0x1234 ∧
    m.load (secondSeg + 12) 2 = 1

instance (m : Mem) : Decidable (Verified m) := by
  unfold Verified
  infer_instance

/-- `loadmap`: the errors of these two reads are not looked at. -/
def loadmap (bios : Bios) (s : Loader) : Loader :=
  let s := (cread bios s (fetch s.mem (secondSeg + 16)) (secondSeg + mapOff)).1
  (cread bios s (fetch s.mem (secondSeg + 21)) (secondSeg + mapOff + 512)).1

/-- The second stage, from `verify` to the end of the load. -/
def secondStage (bios : Bios) (s : Loader) : Outcome (High × Nat) :=
  if Verified s.mem then lfile bios 194 { toLoader := loadmap bios s, moff := 0, destLow := 0, destHigh := 0x10 }
  else .panic "?"

/-- The whole load, with the first stage at `firstSeg`. -/
def boot (bios : Bios) (fuel : Nat) (m : Mem) : Outcome (High × Nat) :=
  (sload bios fuel { mem := m, reads := [] } dAddr secondOff).bind fun s =>
    if s.mem.load (firstSeg + 14) 1 % 2 = 1 then .panic "h" else secondStage bios s

/-! ## What the BIOS is relied on for -/

namespace Request

/-- The sector, counted from one: six bits of `%cl`. -/
def sector (r : Request) : Nat := r.cx % 64

/-- The track: `%ch`, and the other two bits of `%cl`. -/
def track (r : Request) : Nat := r.cx / 256 + 256 * (r.cx / 64 % 4)

/-- The head, in `%dh`. -/
def head (r : Request) : Nat := r.dx / 256

/-- The drive, in `%dl`. -/
def device (r : Request) : Nat := r.dx % 256

/-- The number of the first sector on a disk of two heads and 18 sectors a track. -/
def first (r : Request) : Nat := 36 * r.track + 18 * r.head + (r.sector - 1)

/-- The numbers of the sectors asked for. -/
def sectors (r : Request) : List Nat := List.range' r.first r.al

/-- The sectors lie on the first floppy, of 80 tracks, and in one cylinder. -/
structure OneCylinder (r : Request) : Prop where
  device : r.device = 0
  track : r.track < 80
  head : r.head < 2
  sector : 1 ≤ r.sector ∧ r.sector ≤ 18
  count : 0 < r.al ∧ 18 * r.head + (r.sector - 1) + r.al ≤ 36

end Request

/-- The bytes of the `k` sectors from `n` on. -/
def diskBytes (image : List UInt8) (n k : Nat) : List UInt8 := (image.drop (512 * n)).take (512 * k)

/-- What a BIOS may use while it serves: its own data, and the stack, below the second stage. -/
def BiosArea (x : Nat) : Prop := x < 0x500 ∨ (0x8a200 ≤ x ∧ x < 0x8b000)

/-- A window that a read may fill: in the memory below 640 KB, away from what the BIOS uses, and in one page of 64 KB. -/
structure Buffer (a n : Nat) : Prop where
  low : 0x500 ≤ a
  high : a + n ≤ 0xa0000
  stack : a + n ≤ 0x8a200 ∨ 0x8b000 ≤ a
  page : (a + n - 1) / 65536 = a / 65536

/-- Outside the `n` bytes at `a`, and outside what the BIOS uses, the memory is the same. -/
def Elsewhere (a n : Nat) (m m' : Mem) : Prop := ∀ x, x < a ∨ a + n ≤ x → ¬BiosArea x → m'.byte x = m.byte x

/-- The BIOS of a machine with the image on its floppy: a read of sectors in one cylinder delivers them with their count in `%al`,
and a move copies its words from below 1 MB to above. -/
structure Delivers (bios : Bios) (image : List UInt8) : Prop where
  read : ∀ r a m, r.OneCylinder → 512 * (r.first + r.al) ≤ image.length → Buffer a (512 * r.al) →
    (bios.read r a m).carry = false ∧ (bios.read r a m).al = r.al ∧
      Bytes (bios.read r a m).mem a (diskBytes image r.first r.al) ∧ Elsewhere a (512 * r.al) m (bios.read r a m).mem
  move : ∀ words src dest m, 0 < words → words ≤ 0x8000 → 0x500 ≤ src → src + 2 * words ≤ 0xa0000 →
    0x100000 ≤ dest → dest + 2 * words ≤ 0x1000000 →
    ∃ m', bios.move words src dest m = some m' ∧ (∀ i < 2 * words, m'.byte (dest + i) = m.byte (src + i)) ∧
      Elsewhere dest (2 * words) m m'

end BootPerl
