/-!
# The size of memory at boot (`boot/second.S`, `kernel/setup.c`)

The second stage asks the BIOS for the size of memory and leaves the two replies for the kernel; a kernel that a multiboot loader
started is told. The BIOS is a parameter: what `int $0x15` leaves in the registers, given those it is called with.
-/

namespace BootPerl

/-- The registers that `int $0x15` is called with and answers in, as far as `memsize` uses them. -/
structure BiosRegs where
  eax : UInt32
  ebx : UInt32
  carry : Bool
  deriving DecidableEq, Repr

/-- `%ax`, the low half of `%eax`. -/
def BiosRegs.ax (r : BiosRegs) : UInt16 := r.eax.toUInt16

/-- `%bx`, the low half of `%ebx`. -/
def BiosRegs.bx (r : BiosRegs) : UInt16 := r.ebx.toUInt16

/-- `%ah`, the high byte of `%ax`. -/
def BiosRegs.ah (r : BiosRegs) : UInt8 := (r.eax >>> 8).toUInt8

/-- `struct memparams`, at 0x8e020. -/
structure MemParams where
  memsize : UInt32
  oldsize : UInt16
  deriving DecidableEq, Repr

/-- `memsize`, entered with `eax`: the reply to function 0xe801, unless the carry says that there is none, and the reply to 0x88. -/
def memsize (int15 : BiosRegs → BiosRegs) (eax : UInt32) : MemParams :=
  let r := int15 { eax := eax &&& 0xffff0000 ||| 0xe801, ebx := 0, carry := false }
  if r.carry then
    { memsize := 0, oldsize := (int15 { r with eax := r.eax &&& 0xffff00ff ||| 0x8800 }).ax }
  else
    let ebx := (r.ebx &&& 0xffff) <<< 6
    let eax := r.eax &&& 0xffff
    let memSize := ebx &&& eax -- andl %eax, %fs:(MEM_SIZE)
    { memsize := memSize, oldsize := (int15 { r with eax := eax &&& 0xffff00ff ||| 0x8800, ebx := ebx }).ax }

/-- What `setup_trad` and `setup_grub` compute for `kalloc_init`. -/
structure MemBounds where
  memoryStart : UInt32
  memoryEnd : UInt32
  deriving DecidableEq, Repr

/-- The first page after the kernel, which ends at `kernelEnd`. -/
def firstPage (kernelEnd : UInt32) : UInt32 := (kernelEnd + 4095) &&& ~~~4095

/-- `setup_trad`: the larger of the two sizes that the second stage left. -/
def setupTrad (memseg : MemParams) (kernelEnd : UInt32) : MemBounds :=
  let memoryEnd := ((1 : UInt32) <<< 20) + (memseg.oldsize.toUInt32 <<< 10)
  let memoryAltEnd := ((1 : UInt32) <<< 20) + (memseg.memsize <<< 10)
  { memoryStart := firstPage kernelEnd, memoryEnd := if memoryEnd < memoryAltEnd then memoryAltEnd else memoryEnd }

/-- `setup_grub`: the size that the loader passed. -/
def setupGrub (memUpper kernelEnd : UInt32) : MemBounds :=
  { memoryStart := firstPage kernelEnd, memoryEnd := memUpper * 1024 }

end BootPerl
