import Mathlib.Tactic.IntervalCases
import BootPerl.Setup

/-!
# The two boot paths size memory

`memsize` intersects the two halves of the reply to function 0xe801 where it should add them, so the traditional path falls back on
the old reply and sees no more than 65535 KB above 1 MB; `setup_grub` forgets the first megabyte. On no machine are both right.
-/

namespace BootPerl

/-- A machine with `size` KB above 1 MB, all below 4 GB, and how its BIOS reports them: `ax` KB below 16 MB, `bx` blocks of 64 KB
above, and as much of them all as the old function can tell. -/
structure Reports (int15 : BiosRegs → BiosRegs) (size : Nat) (ax bx : UInt16) : Prop where
  below4GB : 0x100000 + 1024 * size < 4294967296
  low : ax.toNat ≤ 0x3c00
  sum : ax.toNat + 64 * bx.toNat = size
  e801 : ∀ r : BiosRegs, r.ax = 0xe801 → (int15 r).carry = false ∧ (int15 r).ax = ax ∧ (int15 r).bx = bx
  old : ∀ r : BiosRegs, r.ah = 0x88 → (int15 r).ax.toNat = min size 65535

/-! ## Bits -/

/-- The first call is for function 0xe801. -/
theorem ax_e801 (eax : UInt32) : (eax &&& 0xffff0000 ||| 0xe801).toUInt16 = 0xe801 := by
  apply UInt16.toBitVec_inj.1
  apply BitVec.eq_of_getLsbD_eq
  intro i hi
  interval_cases i <;> simp

/-- The second call is for function 0x88. -/
theorem ah_88 (eax : UInt32) : ((eax &&& 0xffff00ff ||| 0x8800) >>> 8).toUInt8 = 0x88 := by
  apply UInt8.toBitVec_inj.1
  apply BitVec.eq_of_getLsbD_eq
  intro i hi
  interval_cases i <;> simp

/-- The low half of a register, as a number. -/
theorem toNat_and_ffff (x : UInt32) : (x &&& 0xffff).toNat = x.toUInt16.toNat := by
  rw [UInt32.toNat_and, UInt32.toNat_toUInt16]
  exact Nat.and_two_pow_sub_one_eq_mod x.toNat 16

/-- Kilobytes as bytes, counted from the first megabyte. -/
theorem toNat_megabyte_add {x : UInt32} (h : x.toNat < 4193280) :
    (((1 : UInt32) <<< 20) + (x <<< 10)).toNat = 0x100000 + 1024 * x.toNat := by
  have hone : ((1 : UInt32) <<< 20).toNat = 0x100000 := rfl
  have hshift : (x <<< 10).toNat = 1024 * x.toNat := by
    rw [UInt32.toNat_shiftLeft]
    have h10 : (10 : UInt32).toNat % 32 = 10 := rfl
    rw [h10, Nat.shiftLeft_eq, Nat.mul_comm]
    exact Nat.mod_eq_of_lt (by omega)
  rw [UInt32.toNat_add, hone, hshift]
  exact Nat.mod_eq_of_lt (by omega)

/-! ## The sizes -/

section
variable {int15 : BiosRegs → BiosRegs} {size : Nat} {ax bx : UInt16}

/-- The old reply is right up to 65535 KB; the new one is cut to the memory below 16 MB, whatever there is above. -/
theorem memsize_spec (h : Reports int15 size ax bx) (eax : UInt32) :
    (memsize int15 eax).oldsize.toNat = min size 65535 ∧ (memsize int15 eax).memsize.toNat ≤ ax.toNat := by
  obtain ⟨hcarry, hax, -⟩ := h.e801 { eax := eax &&& 0xffff0000 ||| 0xe801, ebx := 0, carry := false } (ax_e801 eax)
  unfold memsize
  extract_lets r ebx eax' memSize
  have hcarry' : ¬r.carry = true := by rw [hcarry]; exact Bool.false_ne_true
  rw [if_neg hcarry']
  refine ⟨h.old _ (ah_88 eax'), ?_⟩
  have heax : eax'.toNat = ax.toNat := by
    rw [← hax]
    exact toNat_and_ffff r.eax
  calc memSize.toNat = ebx.toNat &&& eax'.toNat := UInt32.toNat_and ebx eax'
    _ ≤ eax'.toNat := Nat.and_le_right
    _ = ax.toNat := heax

/-- The traditional path sees what the old reply tells. -/
theorem setupTrad_spec (h : Reports int15 size ax bx) (eax kernelEnd : UInt32) :
    (setupTrad (memsize int15 eax) kernelEnd).memoryEnd.toNat = 0x100000 + 1024 * min size 65535 := by
  obtain ⟨hold, hnew⟩ := memsize_spec h eax
  have hlow := h.low
  have hsum := h.sum
  have h16 : (memsize int15 eax).oldsize.toUInt32.toNat = min size 65535 := by rw [UInt16.toNat_toUInt32, hold]
  have hend := toNat_megabyte_add (x := (memsize int15 eax).oldsize.toUInt32) (by omega)
  have halt := toNat_megabyte_add (x := (memsize int15 eax).memsize) (by omega)
  unfold setupTrad
  dsimp only
  rw [if_neg, hend, h16]
  rw [UInt32.lt_iff_toNat_lt, hend, halt, h16]
  omega

/-- The path of a multiboot loader takes the memory above the first megabyte for all memory. -/
theorem setupGrub_spec (h : Reports int15 size ax bx) {memUpper : UInt32} (hupper : memUpper.toNat = size) (kernelEnd : UInt32) :
    (setupGrub memUpper kernelEnd).memoryEnd.toNat = 1024 * size := by
  have h4 := h.below4GB
  unfold setupGrub
  dsimp only
  rw [UInt32.toNat_mul, hupper, Nat.mul_comm]
  exact Nat.mod_eq_of_lt (by change 1024 * size < 4294967296; omega)

/-- On no machine do both paths compute the end of memory. The traditional path does on machines with at most 65535 KB above 1 MB,
the other on none. -/
theorem memory_end_never (h : Reports int15 size ax bx) (eax : UInt32) {memUpper : UInt32} (hupper : memUpper.toNat = size)
    (kernelEnd : UInt32) :
    ¬((setupTrad (memsize int15 eax) kernelEnd).memoryEnd.toNat = 0x100000 + 1024 * size ∧
        (setupGrub memUpper kernelEnd).memoryEnd.toNat = 0x100000 + 1024 * size) ∧
      ((setupTrad (memsize int15 eax) kernelEnd).memoryEnd.toNat = 0x100000 + 1024 * size ↔ size ≤ 65535) ∧
      (setupGrub memUpper kernelEnd).memoryEnd.toNat ≠ 0x100000 + 1024 * size := by
  rw [setupTrad_spec h eax kernelEnd, setupGrub_spec h hupper kernelEnd]
  have hgrub : 1024 * size ≠ 0x100000 + 1024 * size := by omega
  exact ⟨fun hboth => hgrub hboth.2, by omega, hgrub⟩

end

/-- The BIOS of a machine with 128 MB. -/
def int15Of128MB (r : BiosRegs) : BiosRegs :=
  if r.ax = 0xe801 then { eax := 0x3c00, ebx := 1792, carry := false }
  else if r.ah = 0x88 then { r with eax := 0xffff, carry := false }
  else { r with carry := true }

theorem reports_128MB : Reports int15Of128MB 130048 0x3c00 1792 := by
  refine ⟨by decide, by decide, by decide, fun r hr => ?_, fun r hr => ?_⟩
  · rw [int15Of128MB, if_pos hr]
    exact ⟨rfl, rfl, rfl⟩
  · have hne : r.ax ≠ 0xe801 := by
      intro he
      have hah : r.ah = (r.ax >>> 8).toUInt8 := by
        apply UInt8.toBitVec_inj.1
        apply BitVec.eq_of_getLsbD_eq
        intro i hi
        interval_cases i <;> simp [BiosRegs.ah, BiosRegs.ax]
      rw [hah, he] at hr
      exact absurd hr (by decide)
    rw [int15Of128MB, if_neg hne, if_pos hr]
    rfl

/-- With 128 MB, both sizes are wrong. -/
theorem memory_end_never_128MB :
    ¬((setupTrad (memsize int15Of128MB 0) 0x123456).memoryEnd.toNat = 0x100000 + 1024 * 130048 ∧
        (setupGrub 130048 0x123456).memoryEnd.toNat = 0x100000 + 1024 * 130048) ∧
      ((setupTrad (memsize int15Of128MB 0) 0x123456).memoryEnd.toNat = 0x100000 + 1024 * 130048 ↔ 130048 ≤ 65535) ∧
      (setupGrub 130048 0x123456).memoryEnd.toNat ≠ 0x100000 + 1024 * 130048 :=
  memory_end_never reports_128MB 0 rfl 0x123456

/-- With 128 MB, the traditional path finds 65 MB and the other 127 MB. -/
theorem memory_end_false :
    Reports int15Of128MB 130048 0x3c00 1792 ∧
      (setupTrad (memsize int15Of128MB 0) 0x123456).memoryEnd.toNat = 68156416 ∧
      (setupGrub 130048 0x123456).memoryEnd.toNat = 133169152 ∧
      ¬((setupTrad (memsize int15Of128MB 0) 0x123456).memoryEnd.toNat = 0x100000 + 1024 * 130048 ∧
        (setupGrub 130048 0x123456).memoryEnd.toNat = 0x100000 + 1024 * 130048) := by
  refine ⟨reports_128MB, by decide, by decide, fun hboth => ?_⟩
  exact absurd hboth.1 (by decide)

end BootPerl
