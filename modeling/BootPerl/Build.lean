import BootPerl.Lib.Bytes

/-!
# The image builder (`tools/build.c`)

A file is a list of bytes, and so is the image that `main` writes. The sizes are below 2^31 bytes, so that the `int` they pass
through does not overflow. A patched header is the buffer with bytes written over it.
-/

namespace BootPerl

/-- `struct sect_addr`: the registers of a read, five bytes. -/
structure SectAddr where
  sector : Nat
  track : Nat
  device : Nat
  head : Nat
  numSect : Nat
  deriving DecidableEq, Repr

/-- The five bytes. -/
def SectAddr.bytes (addr : SectAddr) : List UInt8 :=
  [UInt8.ofNat addr.sector, UInt8.ofNat addr.track, UInt8.ofNat addr.device, UInt8.ofNat addr.head, UInt8.ofNat addr.numSect]

/-- `CHUNKS`, the most sectors of one read. -/
def chunks : Nat := 36

/-- `SPT`, the sectors of a track. -/
def spt : Nat := 18

/-- `HEADS`. -/
def heads : Nat := 2

/-- `inc_sector`: the fields are bytes, and the sectors count from one. -/
def incSector (addr : SectAddr) (count : Nat) : SectAddr :=
  let sector := (addr.sector + count) % 256
  if spt < sector then
    let sector := sector - 1
    let head := (addr.head + sector / spt) % 256
    let sector := sector % spt
    let track := (addr.track + head / heads) % 256
    { addr with sector := sector + 1, track := track, head := head % heads }
  else { addr with sector := sector }

/-- A file read into a zeroed buffer of `n` bytes. -/
def readFile (n : Nat) (file : List UInt8) : List UInt8 := file.take n ++ List.replicate (n - file.length) 0

/-- The number of sectors for a file: a file of whole sectors gets one more. -/
def sectors (size : Nat) : Nat := size / 512 + 1

/-- A `word` of a header. -/
def headerWord (buf : List UInt8) (i : Nat) : Nat := (buf.getD i 0).toNat + 256 * (buf.getD (i + 1) 0).toNat

/-- The check of `signature`, `id`, `check` and `version`. -/
def IsHeader (buf : List UInt8) (id : Nat) : Prop :=
  (buf.drop 4).take 4 = [0x42, 0x4f, 0x4f, 0x54] ∧ headerWord buf 8 = id ∧ headerWord buf 10 = 0x1234 ∧ headerWord buf 12 = 1

instance (buf : List UInt8) (id : Nat) : Decidable (IsHeader buf id) := by
  unfold IsHeader
  infer_instance

/-- `flag &= ~0x01`. -/
def clearHalt (bsect : List UInt8) : List UInt8 := patchAt bsect 14 [bsect.getD 14 0 &&& 0xfe]

/-- The loop that enters the second stage's `total` sectors in `secaddr`. -/
def patchBsect (total i j : Nat) (nextsector : SectAddr) (bsect : List UInt8) : SectAddr × List UInt8 :=
  if i < total then
    let addr := { nextsector with numSect := min (total - i) chunks }
    patchBsect total (i + chunks) (j + 1) (incSector nextsector addr.numSect) (patchAt bsect (16 + 5 * j) addr.bytes)
  else (nextsector, bsect)
termination_by total - i
decreasing_by
  have hchunks : chunks = 36 := rfl
  omega

/-- The loop that enters the kernel's `total` sectors in the map. The head and the sector are those of a disk, so `remaining` does
not wrap. Nothing stops the loop at the end of the map: the list grows where the source stores past its buffer. -/
def patchMap (total i j : Nat) (nextsector : SectAddr) (map : List UInt8) : List UInt8 :=
  if i < total then
    let remaining := heads * spt - (spt * nextsector.head + nextsector.sector) + 1
    let count := if remaining < chunks then remaining else chunks
    let addr := { nextsector with numSect := min (total - i) count }
    patchMap total (i + count) (j + 1) (incSector nextsector addr.numSect) (patchAt map (5 * j) addr.bytes)
  else map
termination_by total - i
decreasing_by
  have hchunks : chunks = 36 := rfl
  split <;> omega

/-- The body of `main`: the image, or nothing where a file is rejected. Of the map the first 1024 bytes are written. -/
def build (bootsect second kernel : List UInt8) : Option (List UInt8) :=
  let bsect := readFile 512 bootsect
  if ¬IsHeader bsect 1 then none
  else
    let bsect := clearHalt bsect
    if 1024 * 8 < second.length then none
    else
      let secondsize := sectors second.length * 512
      let second := readFile secondsize second
      if ¬IsHeader second 2 then none
      else
        let mapsize := 1024
        let map := List.replicate mapsize 0
        let kernelsize := sectors kernel.length * 512
        let kernel := readFile kernelsize kernel
        let nextsector : SectAddr := { sector := 2, track := 0, device := 0, head := 0, numSect := 0 }
        let patched := patchBsect (secondsize / 512) 0 0 nextsector bsect
        let addr := { patched.1 with numSect := mapsize / 512 }
        let second := patchAt second 16 addr.bytes
        let map := patchMap (kernelsize / 512) 0 0 (incSector patched.1 addr.numSect) map
        some (patched.2 ++ second ++ map.take mapsize ++ kernel)

end BootPerl
