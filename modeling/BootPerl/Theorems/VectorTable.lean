import BootPerl.Theorems.PayloadKept
import BootPerl.Vectors

/-!
# The vector table

The boot code fills the table several times over, so what counts is the order. The table lies in a block of `kalloc`, and as long as
all calls are tame and nobody writes there the processor finds the gates that boot left.
-/

namespace BootPerl

open Mem Outcome

/-! ## A gate -/

/-- The upper half of a word. -/
theorem and_upper {x : Nat} (hx : x < 4294967296) : x &&& 0xffff0000 = x / 65536 * 65536 := by
  have hmask : 0xffff0000 = (2 ^ 16 - 1) <<< 16 := rfl
  have hshift : x / 65536 * 65536 = (x >>> 16) <<< 16 := by
    rw [Nat.shiftRight_eq_div_pow, Nat.shiftLeft_eq]
  rw [hmask, hshift]
  refine Nat.eq_of_testBit_eq fun i => ?_
  rw [Nat.testBit_and, Nat.testBit_shiftLeft, Nat.testBit_shiftLeft, Nat.testBit_shiftRight, Nat.testBit_two_pow_sub_one]
  by_cases hi : 16 ≤ i
  · have hback : 16 + (i - 16) = i := by omega
    rw [hback]
    by_cases hlt : i - 16 < 16
    · simp [hi, hlt]
    · have hle : 2 ^ 32 ≤ 2 ^ i := Nat.pow_le_pow_right (by decide) (by omega)
      simp [Nat.testBit_lt_two_pow (Nat.lt_of_lt_of_le hx hle)]
  · simp [hi]

/-- What `set_gate` writes is read back, as long as its type and level have room in a gate. -/
theorem gateAt_setGate (m : Mem) (desc : Nat) {type dpl : UInt8} (htype : type.toNat < 32) (hdpl : dpl.toNat < 4) (addr : UInt32)
    (segment : UInt16) : gateAt (setGate m desc type dpl addr segment) desc = ⟨addr, segment, true, dpl.toNat, type.toNat⟩ := by
  have haddr := addr.toNat_lt
  have hsegment := segment.toNat_lt
  have hlow : ((segment.toUInt32 <<< 16) + (addr &&& (0xffff : UInt32)) : UInt32).toNat = segment.toNat * 65536 + addr.toNat % 65536 := by
    have hmask : addr.toNat &&& 65535 = addr.toNat % 65536 := Nat.and_two_pow_sub_one_eq_mod _ 16
    simp only [UInt32.toNat_add, UInt32.toNat_shiftLeft, UInt32.toNat_and, UInt16.toNat_toUInt32, UInt32.reduceToNat, hmask,
      Nat.shiftLeft_eq, Nat.reduceMod, Nat.reducePow]
    omega
  have hhigh : ((addr &&& (0xffff0000 : UInt32)) + ((1 : UInt32) <<< 15) + (dpl.toUInt32 <<< 13) + (type.toUInt32 <<< 8) : UInt32).toNat =
      addr.toNat / 65536 * 65536 + 32768 + dpl.toNat * 8192 + type.toNat * 256 := by
    simp only [UInt32.toNat_add, UInt32.toNat_shiftLeft, UInt32.toNat_and, UInt8.toNat_toUInt32, UInt32.reduceToNat,
      and_upper haddr, Nat.shiftLeft_eq, Nat.reduceMod, Nat.reducePow, Nat.one_mul]
    omega
  have hload : (setGate m desc type dpl addr segment).load desc 4 = segment.toNat * 65536 + addr.toNat % 65536 := by
    rw [setGate, load_store_of_disjoint (by omega), load_store_four (by omega), hlow]
  have hload' : (setGate m desc type dpl addr segment).load (desc + 4) 4 =
      addr.toNat / 65536 * 65536 + 32768 + dpl.toNat * 8192 + type.toNat * 256 := by
    rw [setGate, load_store_four (by omega), hhigh]
  have hbit : (addr.toNat / 65536 * 65536 + 32768 + dpl.toNat * 8192 + type.toNat * 256).testBit 15 = true := by
    rw [Nat.testBit_eq_decide_div_mod_eq, decide_eq_true_iff]
    omega
  have hoffset : (addr.toNat / 65536 * 65536 + 32768 + dpl.toNat * 8192 + type.toNat * 256) / 65536 * 65536 +
      (segment.toNat * 65536 + addr.toNat % 65536) % 65536 = addr.toNat := by omega
  have hselector : (segment.toNat * 65536 + addr.toNat % 65536) / 65536 = segment.toNat := by omega
  rw [gateAt, hload, hload']
  simp only [hoffset, hselector, hbit, UInt32.ofNat_toNat, UInt16.ofNat_toNat, Gate.mk.injEq, true_and]
  exact ⟨by omega, by omega⟩

/-- The bytes of the table. -/
def tableBytes (idt : Nat) : Set Nat := {x | idt ≤ x ∧ x < idt + 2048}

/-- The gate that `set_intr_gate` sets for a function of the kernel. -/
def intrGate (addr : UInt32) : Gate := ⟨addr, kernelCode, true, 0, 14⟩

/-- A gate is read from its eight bytes. -/
theorem gateAt_congr {m m' : Mem} {desc : Nat} (h : ∀ x, desc ≤ x → x < desc + 8 → m'.byte x = m.byte x) :
    gateAt m' desc = gateAt m desc := by
  have hlow : m'.load desc 4 = m.load desc 4 := load_congr fun x h1 h2 => h x h1 (by omega)
  have hhigh : m'.load (desc + 4) 4 = m.load (desc + 4) 4 := load_congr fun x h1 h2 => h x (by omega) (by omega)
  rw [gateAt, gateAt, hlow, hhigh]

/-- One gate is set, and the others stay. -/
theorem gateAt_setIntrGate (m : Mem) (idt n k : Nat) (addr : UInt32) :
    gateAt (setIntrGate m idt n addr) (idt + 8 * k) = if k = n then intrGate addr else gateAt m (idt + 8 * k) := by
  split
  · rename_i hk
    rw [hk, setIntrGate, gateAt_setGate m _ (by decide) (by decide)]
    rfl
  · refine gateAt_congr fun x h1 h2 => ?_
    rw [setIntrGate, setGate, byte_store_of_outside (by omega), byte_store_of_outside (by omega)]

/-- A loop sets the gates of its range. -/
theorem gateAt_setIntrGates (idt first : Nat) (addrs : Nat → UInt32) (n : Nat) : ∀ (m : Mem) (i k : Nat),
    gateAt (setIntrGates m idt first addrs i n) (idt + 8 * k) =
      if first + i ≤ k ∧ k < first + i + n then intrGate (addrs (k - first)) else gateAt m (idt + 8 * k) := by
  induction n with
  | zero =>
    intro m i k
    rw [setIntrGates, if_neg (by omega)]
  | succ n ih =>
    intro m i k
    rw [setIntrGates, ih, gateAt_setIntrGate]
    by_cases hk : k = first + i
    · have hi : k - first = i := by omega
      rw [if_neg (by omega), if_pos hk, if_pos (by omega), hi]
    · rw [if_neg hk]
      exact if_congr (by omega) rfl rfl

/-- The function that the gate of a vector leads to. -/
def Entries.vector (e : Entries) (n : Nat) : UInt32 :=
  if n < 32 then e.exceptionFuncs n
  else if firstVector ≤ n ∧ n < firstVector + 16 then e.interrupts (n - firstVector)
  else if n = 0x40 then e.syscall
  else e.unexpectedInt

/-- The table as boot leaves it: the exceptions have taken the place of `int3`. -/
theorem gateAt_setupVectors (e : Entries) (m : Mem) (idt : Nat) {n : Nat} (hn : n < 256) :
    gateAt (setupVectors e m idt) (idt + 8 * n) = intrGate (e.vector n) := by
  have hfirst : firstVector = 32 := rfl
  simp only [setupVectors, setupSyscalls, setupIrqVectors, setupExceptions, setupInterrupts, gateAt_setIntrGate, gateAt_setIntrGates,
    Entries.vector, hfirst, Nat.add_zero, Nat.zero_add]
  by_cases hexception : n < 32
  · rw [if_neg (by omega), if_neg (by omega), if_pos (by omega), if_pos hexception, Nat.sub_zero]
  · rw [if_neg hexception]
    by_cases hirq : 32 ≤ n ∧ n < 32 + 16
    · rw [if_neg (by omega), if_pos hirq, if_pos hirq]
    · rw [if_neg hirq, if_neg hirq]
      by_cases hsyscall : n = 0x40
      · rw [if_pos hsyscall, if_pos hsyscall]
      · rw [if_neg hsyscall, if_neg hsyscall, if_neg (by omega), if_neg (by omega), if_pos (by omega)]

/-! ## The table in its block -/

section
variable {b : BootMemory} {m : Mem} {live : List Block} {held : List Nat} {idt : Nat}

/-- The owner of a block stores into it. -/
theorem reach_store {block : Block} (hb : block ∈ live) (n : Nat) : ∀ {m : Mem} (a v : Nat), block.ptr ≤ a →
    a + n ≤ block.ptr + block.size → Reach b.HeapInit b.tameStep ⟨m, live, held⟩ →
    Reach b.HeapInit b.tameStep ⟨m.store a n v, live, held⟩ := by
  induction n with
  | zero => exact fun _ _ _ _ h => h
  | succ n ih =>
    intro m a v h1 h2 h
    exact ih (a + 1) (v / 256) (by omega) (by omega) (h.step ⟨.write a (UInt8.ofNat v), trivial, .writeBlock hb h1 (by omega)⟩)

variable (hb : ⟨idt, 2048⟩ ∈ live)

include hb

theorem reach_setIntrGate {n : Nat} (hn : n < 256) (addr : UInt32) (h : Reach b.HeapInit b.tameStep ⟨m, live, held⟩) :
    Reach b.HeapInit b.tameStep ⟨setIntrGate m idt n addr, live, held⟩ := by
  have hlow : idt ≤ idt + 8 * n ∧ idt + 8 * n + 4 ≤ idt + 2048 := by omega
  have hhigh : idt ≤ idt + 8 * n + 4 ∧ idt + 8 * n + 4 + 4 ≤ idt + 2048 := by omega
  simp only [setIntrGate, setGate]
  exact reach_store hb 4 _ _ hhigh.1 hhigh.2 (reach_store hb 4 _ _ hlow.1 hlow.2 h)

theorem reach_setIntrGates (first : Nat) (addrs : Nat → UInt32) (n : Nat) : ∀ {m : Mem} (i : Nat), first + i + n ≤ 256 →
    Reach b.HeapInit b.tameStep ⟨m, live, held⟩ → Reach b.HeapInit b.tameStep ⟨setIntrGates m idt first addrs i n, live, held⟩ := by
  induction n with
  | zero => exact fun _ _ h => h
  | succ n ih =>
    intro m i hle h
    exact ih (i + 1) (by omega) (reach_setIntrGate hb (by omega) _ h)

theorem reach_setupVectors (e : Entries) (h : Reach b.HeapInit b.tameStep ⟨m, live, held⟩) :
    Reach b.HeapInit b.tameStep ⟨setupVectors e m idt, live, held⟩ := by
  have hinterrupts := reach_setIntrGate hb (n := 3) (by decide) e.int3
    (reach_setIntrGates hb 0 (fun _ => e.unexpectedInt) 256 0 (by decide) h)
  have hexceptions := reach_setIntrGates hb 0 e.exceptionFuncs 32 0 (by decide) hinterrupts
  have hirqs := reach_setIntrGates hb firstVector e.interrupts 16 0 (by decide) hexceptions
  exact reach_setIntrGate hb (n := 0x40) (by decide) e.syscall hirqs

end

/-- Boot gets the block and sets up the table in it. -/
theorem reach_table {b : BootMemory} (e : Entries) {s : HeapState} (h : Reach b.HeapInit b.tameStep s) {m : Mem} {idt : Nat}
    (hcall : Comes (fun fuel => kalloc fuel b.toHeapVars s.mem 2048) (.ok (m, idt))) :
    Reach b.HeapInit b.tameStep ⟨setupVectors e m idt, ⟨idt, 2048⟩ :: s.live, s.held⟩ :=
  reach_setupVectors List.mem_cons_self e (h.step ⟨.kalloc 2048, trivial, .kalloc (by decide) hcall⟩)

/-- A tame call that leaves a block live and writes nothing there. -/
def LeavesBlock (v : HeapVars) (block : Block) (s s' : HeapState) : Prop :=
  ∃ c, Tame v s c ∧ HeapStep v s c s' ∧ block ∈ s'.live ∧ ∀ a x, c = .write a x → ¬(block.ptr ≤ a ∧ a < block.ptr + block.size)

/-- A live block is in use. -/
theorem uses_of_live {s : HeapState} {block : Block} (hb : block ∈ s.live) {a : Nat} (h1 : block.ptr ≤ a) (h2 : a < block.ptr + block.size) :
    s.Uses a := by
  have hpos := coverage_pos_of_mem (List.mem_map_of_mem (f := Block.region) hb) (a := a)
    (show block.ptr - 4 ≤ a ∧ a < block.ptr - 4 + (block.size + 4) by omega)
  rw [HeapState.Uses, coverage_append]
  exact Nat.add_pos_left hpos _

/-- After a run that leaves the table alone the processor finds the gates of boot, in any memory that has the bytes of the table. -/
theorem gates_of_run {b : BootMemory} (hlow : b.memoryEnd ≤ 268435456) (e : Entries) {m : Mem} {live : List Block} {held : List Nat}
    {idt : Nat} (hlive : ⟨idt, 2048⟩ ∈ live) (hsetup : Reach b.HeapInit b.tameStep ⟨setupVectors e m idt, live, held⟩)
    {s' : HeapState} (hrun : Reach (· = ⟨setupVectors e m idt, live, held⟩) (LeavesBlock b.toHeapVars ⟨idt, 2048⟩) s') {m' : Mem}
    (hbytes : ∀ x ∈ tableBytes idt, m'.byte x = s'.mem.byte x) {n : Nat} (hn : n < 256) :
    gateAt m' (idt + 8 * n) = intrGate (e.vector n) := by
  rw [← gateAt_setupVectors e m idt hn]
  refine gateAt_congr fun x h1 h2 => ?_
  have hin : x ∈ tableBytes idt := ⟨by omega, by omega⟩
  rw [hbytes x hin]
  suffices hall : HeapInv b.toHeapVars s' ∧ (⟨idt, 2048⟩ : Block) ∈ s'.live ∧ s'.mem.byte x = (setupVectors e m idt).byte x from hall.2.2
  refine hrun.invariant (I := fun t => HeapInv b.toHeapVars t ∧ (⟨idt, 2048⟩ : Block) ∈ t.live ∧
    t.mem.byte x = (setupVectors e m idt).byte x) ?_ ?_
  · rintro t rfl
    exact ⟨HeapInv.of_reach hlow hsetup, hlive, rfl⟩
  · rintro t t' ⟨hinv, hlive, hbyte⟩ ⟨c, hc, hs, hlive', hw⟩
    have hkept := hinv.byte_kept (uses_of_live hlive hin.1 hin.2)
      ⟨c, hc, hs, uses_of_live hlive' hin.1 hin.2, fun y he => hw x y he hin⟩
    exact ⟨hinv.step hc hs, hlive', hkept.trans hbyte⟩

/-- In every state reached by tame calls, once the table has been set up in a block of `kalloc`: in every run of tame calls from there
that leaves the table live and does not write to it, each vector has the gate of its function, and never that of `int3`. -/
theorem vectors_kept (b : BootMemory) (hlow : b.memoryEnd ≤ 268435456) (e : Entries) {s : HeapState}
    (h : Reach b.HeapInit b.tameStep s) {m : Mem} {idt : Nat}
    (hcall : Comes (fun fuel => kalloc fuel b.toHeapVars s.mem 2048) (.ok (m, idt))) {s' : HeapState}
    (hrun : Reach (· = ⟨setupVectors e m idt, ⟨idt, 2048⟩ :: s.live, s.held⟩) (LeavesBlock b.toHeapVars ⟨idt, 2048⟩) s') :
    Reach b.HeapInit b.tameStep ⟨setupVectors e m idt, ⟨idt, 2048⟩ :: s.live, s.held⟩ ∧
      ∀ n, n < 256 → gateAt s'.mem (idt + 8 * n) = intrGate (e.vector n) := by
  have hsetup := reach_table e h hcall
  exact ⟨hsetup, fun n hn => gates_of_run hlow e List.mem_cons_self hsetup hrun (fun _ _ => rfl) hn⟩

/-- Entries at addresses of their own. -/
def someEntries : Entries := ⟨0x1000, 0x1010, 0x1020, fun n => 0x2000 + 16 * UInt32.ofNat n, fun irq => 0x3000 + 16 * UInt32.ofNat irq⟩

/-- The state with the table at `0x203798`, below the block of `tinyBlock`. -/
def tinyTable (m : Mem) : HeapState := ⟨setupVectors someEntries m 0x203798, [⟨0x203798, 2048⟩, ⟨0x203f9c, 100⟩], []⟩

/-- On four pages the table comes out there, and then the owner of the other block writes to it. -/
theorem tinyTable_run : ∃ m, Comes (fun fuel => kalloc fuel tinyMemory.toHeapVars tinyBlock 2048) (.ok (m, 0x203798)) ∧
    Reach (· = tinyTable m) (LeavesBlock tinyMemory.toHeapVars ⟨0x203798, 2048⟩)
      ⟨(tinyTable m).mem.set 0x203f9c 7, (tinyTable m).live, []⟩ := by
  have hptr : kallocPtr (kalloc 3 tinyMemory.toHeapVars tinyBlock 2048) = some 0x203798 := by decide +kernel
  obtain ⟨m, hm⟩ := kalloc_of_ptr hptr
  have hwrite : HeapStep tinyMemory.toHeapVars (tinyTable m) (.write 0x203f9c 7)
      ⟨(tinyTable m).mem.set 0x203f9c 7, (tinyTable m).live, []⟩ :=
    .writeBlock (b := ⟨0x203f9c, 100⟩) (List.mem_cons_of_mem _ List.mem_cons_self) (by decide) (by decide)
  refine ⟨m, (settles_kalloc tinyMemory.toHeapVars tinyBlock 2048).comes hm, .step (.init rfl) ⟨.write 0x203f9c 7, trivial, hwrite, ?_, ?_⟩⟩
  · exact List.mem_cons_self
  · rintro a x he
    cases he
    decide

/-- The gates after that write. -/
theorem vectors_kept_tiny : ∃ m, Comes (fun fuel => kalloc fuel tinyMemory.toHeapVars tinyBlock 2048) (.ok (m, 0x203798)) ∧
    Reach tinyMemory.HeapInit tinyMemory.tameStep (tinyTable m) ∧
    ∀ n, n < 256 → gateAt ((tinyTable m).mem.set 0x203f9c 7) (0x203798 + 8 * n) = intrGate (someEntries.vector n) := by
  obtain ⟨m, hcomes, hrun⟩ := tinyTable_run
  obtain ⟨hsetup, hgates⟩ := vectors_kept tinyMemory (by decide) someEntries tinyBlock_reached hcomes hrun
  exact ⟨m, hcomes, hsetup, hgates⟩

end BootPerl
