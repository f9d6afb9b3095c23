import BootPerl.Lemmas.Oversize
import BootPerl.Theorems.HeapOwnership

/-!
# Requests of every size

Up to 256 MB with its header a request is safe, even one of 2 ^ 16 pages, whose page count is cut to zero. Beyond that no memory
would do, and `kalloc` is safe only when it panics. It does not always: the size wraps, or the page count is cut to fewer pages
than what is put on the block list. `Served` says when it comes to a block nevertheless.
-/

namespace BootPerl

open Mem Outcome

/-- `kalloc(n)` panics, or returns a pointer whose header and `n` bytes lie in memory that was on the block list or was handed over
from the page list, and what is on the block list afterwards was too. -/
def KallocSafe (v : HeapVars) (m : Mem) (bl pl : List Region) (n : Nat) : Prop :=
  (∃ msg, Comes (fun fuel => kalloc fuel v m n) (.panic msg)) ∨
    ∃ m' ptr bl' pl', Comes (fun fuel => kalloc fuel v m n) (.ok (m', ptr)) ∧ headerSize ≤ ptr ∧
      Linked 1 4 m' (⟨v.blocksHead, 0⟩ :: bl') ∧ (∀ r ∈ bl', 0 < r.addr) ∧
      Linked 4096 2 m' (⟨v.pagesHead, 0⟩ :: pl') ∧ (∀ r ∈ pl', 0 < r.addr) ∧
      (∀ a, ptr - headerSize ≤ a → a < ptr + n → a ∈ covered bl ∪ (covered pl \ covered pl')) ∧
      ∀ a ∈ covered bl', a ∈ covered bl ∪ (covered pl \ covered pl')

/-- The size that the search of `kalloc(n)` asks of a block. -/
def bytesSought (n : Nat) : Nat := (n + headerSize + freeblockSize) % 4294967296

/-- What a refill puts on the block list. -/
def bytesGiven (n : Nat) : Nat := (n + headerSize + 4095) % 4294967296 / pageSize * pageSize

/-- What a refill takes from a run: the page count goes through an `unsigned short`. -/
def bytesTaken (n : Nat) : Nat := (n + headerSize + 4095) % 4294967296 / pageSize % 65536 * pageSize

/-- A block has the size sought, or the runs have memory for refills that lead to one. -/
def Served (n : Nat) (bl pl : List Region) : Prop :=
  (∃ b ∈ bl, bytesSought n ≤ b.size) ∨
    0 < bytesTaken n ∧ Refills (bytesSought n) (bytesGiven n) (bytesTaken n) bl pl

/-- The sizes as `kalloc` computes them from the size with its header. -/
theorem kalloc_sizes (n : Nat) : ∃ count, ((n + headerSize) % 4294967296 + freeblockSize) % 4294967296 = bytesSought n ∧
    ((n + headerSize) % 4294967296 + 4095) % 4294967296 / 4096 % 65536 = count ∧ 4096 * count = bytesTaken n ∧
    ((n + headerSize) % 4294967296 + 4095) % 4294967296 / 4096 * 4096 % 4294967296 = bytesGiven n := by
  have hpages : ((n + headerSize) % 4294967296 + 4095) % 4294967296 = (n + headerSize + 4095) % 4294967296 := by omega
  rw [hpages]
  refine ⟨_, ?_, rfl, ?_, ?_⟩
  · unfold bytesSought
    omega
  · rw [bytesTaken, pageSize, Nat.mul_comm]
  · unfold bytesGiven pageSize
    omega

/-- A search that ends with a node that ends in memory, or as far above it as a refill does, makes `kalloc` return a block, and not
at the null address. -/
theorem Ends.kalloc_ne_zero {v : HeapVars} {m m' : Mem} {n q p j : Nat}
    (h : Ends v ((n + headerSize) % 4294967296) m v.blocksHead (m.next v.blocksHead) (.ok (m', q, p)) j)
    (hneed : ((n + headerSize) % 4294967296 + freeblockSize) % 4294967296 ≤ m'.size p)
    (hend : p + m'.size p ≤ 268435456 ∨ (n + headerSize) % 4294967296 + freeblockSize < 4294967296 ∧
      p + m'.size p ≤ 268435456 + 4096 + (n + headerSize) % 4294967296) :
    ∃ m'' ptr, ptr ≠ 0 ∧ Comes (fun fuel => BootPerl.kalloc fuel v m n) (.ok (m'', ptr)) := by
  have hlt : m'.size p < 4294967296 := m'.load_four_lt p
  refine ⟨_, _, ?_, h.kalloc rfl⟩
  rw [headerSize] at hneed hend ⊢
  rw [freeblockSize] at hneed hend
  omega

namespace Heap
variable {v : HeapVars} {m m' : Mem} {bl pl bl' pl' : List Region} {n ptr : Nat}

/-- What is taken from free memory is safe. -/
theorem kallocSafe_of_taken (h : Heap v m bl pl) (hok : Comes (fun fuel => BootPerl.kalloc fuel v m n) (.ok (m', ptr)))
    (hheap : SpacedHeap 1 v m' bl' pl') (hptr : 4 ≤ ptr)
    (hcov : ∀ a, coverage bl' a + coverage pl' a + Region.ind ⟨ptr - 4, n + 4⟩ a = coverage bl a + coverage pl a) :
    KallocSafe v m bl pl n := by
  have hfree : ∀ a, 0 < coverage bl' a + Region.ind ⟨ptr - 4, n + 4⟩ a → a ∈ covered bl ∪ (covered pl \ covered pl') := by
    intro a ha
    have h1 := hcov a
    have h2 := h.exclusive a
    rw [coverage_heads] at h2
    simp only [Set.mem_union, Set.mem_sdiff, mem_covered]
    omega
  refine Or.inr ⟨m', ptr, bl', pl', hok, hptr, hheap.blocks.linked, hheap.blocks.pos, hheap.pages.free.linked,
    hheap.pages.free.pos, fun a h1 h2 => hfree a ?_, fun a ha => hfree a ?_⟩
  · have hhas : Region.Has ⟨ptr - 4, n + 4⟩ a := by
      rw [headerSize] at h1
      exact ⟨h1, by dsimp only; omega⟩
    rw [Region.ind_of_has hhas]
    omega
  · exact Nat.lt_of_lt_of_le ha (Nat.le_add_right _ _)

/-- Up to 256 MB with its header a request is safe. -/
theorem kallocSafe_of_le (h : Heap v m bl pl) (hn : n + 4 ≤ 268435456) : KallocSafe v m bl pl n := by
  rcases h.kalloc_of_le hn with hp | ⟨m₁, ptr₁, _, bl₁, pl₁, hok, hheap, hcut, hcov, -⟩
  · exact Or.inl hp
  · exact h.kallocSafe_of_taken hok hheap.spaced (Nat.le_of_lt hcut.above) hcov

/-- Beyond 256 MB a request that returns is not safe: no memory is as large. -/
theorem not_kallocSafe_of_gt (h : Heap v m bl pl) (hn : 268435456 < n + 4)
    (hok : Comes (fun fuel => BootPerl.kalloc fuel v m n) (.ok (m', ptr))) : ¬KallocSafe v m bl pl n := by
  rintro (⟨msg, hp⟩ | ⟨m₁, ptr₁, bl₁, pl₁, hok₁, hptr, -, -, -, -, hin, -⟩)
  · exact absurd hp hok.not_panic
  · rw [headerSize] at hptr hin
    have hlast := hin (ptr₁ + n - 1) (by omega) (by omega)
    have hcov : 0 < coverage (bl ++ pl) (ptr₁ + n - 1) := by
      simp only [Set.mem_union, Set.mem_sdiff, mem_covered] at hlast
      rw [coverage_append]
      omega
    obtain ⟨r, hr, ha⟩ := coverage_pos_iff.1 hcov
    have hstop : r.stop ≤ 268435456 := (List.mem_append.1 hr).elim (h.blocks.low r) (h.pages.low r)
    simp only [Region.Has, Region.stop] at ha hstop
    omega

/-- A request that asks for no pages is served by a block or panics. -/
theorem kalloc_ends_unrefilled (h : Heap v m bl pl) (hzero : bytesTaken n = 0) :
    (Served n bl pl ∧ ∃ m' ptr, ptr ≠ 0 ∧ Comes (fun fuel => BootPerl.kalloc fuel v m n) (.ok (m', ptr))) ∨
      (¬Served n bl pl ∧ ∃ msg, Comes (fun fuel => BootPerl.kalloc fuel v m n) (.panic msg)) := by
  obtain ⟨count, hneed, hcount, htaken, -⟩ := kalloc_sizes n
  rw [show count = 0 by omega] at hcount
  rcases Ends.without_refill (v := v) (m := m) hneed hcount h.blocks.free.linked h.blocks.free.pos with
    ⟨f, q, hf, hsize, hends⟩ | ⟨hblocks, hends⟩
  · have hstop := h.blocks.low f hf
    have hread := h.spaced.blocks.size_eq hf
    simp only [Region.stop] at hstop
    exact Or.inl ⟨Or.inl ⟨f, hf, hsize⟩, hends.kalloc_ne_zero (by omega) (Or.inl (by omega))⟩
  · refine Or.inr ⟨?_, _, hends.kalloc rfl⟩
    rintro (⟨b, hb, hsize⟩ | ⟨hne, -⟩)
    · exact absurd hsize (Nat.not_le_of_lt (hblocks b hb))
    · omega

/-- The page count is cut: what goes on the block list is larger than all of memory. -/
theorem kalloc_ends_oversize (h : Heap v m bl pl) (hn : 268435456 < n + 4) (hlt : n + 4 + 4095 < 4294967296)
    (hpos : 0 < bytesTaken n) :
    (Served n bl pl ∧ ∃ m' ptr, ptr ≠ 0 ∧ Comes (fun fuel => BootPerl.kalloc fuel v m n) (.ok (m', ptr))) ∨
      (¬Served n bl pl ∧ ∃ msg, Comes (fun fuel => BootPerl.kalloc fuel v m n) (.panic msg)) := by
  obtain ⟨count, hneed, hcount, htaken, hgiven⟩ := kalloc_sizes n
  have hheader : headerSize = 4 := rfl
  have hnode : freeblockSize = 8 := rfl
  have hsmall : ∀ b ∈ bl, b.size < bytesSought n := fun b hb => by
    have h1 := h.blocks.low b hb
    simp only [Region.stop] at h1
    omega
  obtain ⟨hB, hsum, hle⟩ : 268435456 ≤ bytesGiven n ∧ bytesGiven n ≤ 4026531840 + 4096 * count ∧
      bytesSought n ≤ bytesGiven n + 8 := by omega
  rcases (h.inflated (bytesGiven n)).search hneed hcount hgiven (by omega) hB hsum hle hsmall with
    ⟨hyes, m', q, p, j, hsize, hend, hends⟩ | ⟨hno, msg, j, hends⟩
  · rw [htaken] at hyes
    exact Or.inl ⟨Or.inr ⟨hpos, hyes⟩, hends.kalloc_ne_zero (by omega) (Or.inr (by omega))⟩
  · rw [htaken] at hno
    refine Or.inr ⟨?_, _, hends.kalloc rfl⟩
    rintro (⟨b, hb, hsize⟩ | ⟨-, hyes⟩)
    · exact absurd hsize (Nat.not_le_of_lt (hsmall b hb))
    · exact hno hyes

/-- The size wraps to at most eleven bytes, and refills take a page. -/
theorem kalloc_ends_wrapped (h : Heap v m bl pl) (hge : 4294967296 ≤ n + 4 + 4095) (hn : n < 4294967296)
    (hpos : 0 < bytesTaken n) :
    (Served n bl pl ∧ ∃ m' ptr, ptr ≠ 0 ∧ Comes (fun fuel => BootPerl.kalloc fuel v m n) (.ok (m', ptr))) ∨
      (¬Served n bl pl ∧ ∃ msg, Comes (fun fuel => BootPerl.kalloc fuel v m n) (.panic msg)) := by
  obtain ⟨count, hneed, hcount, htaken, hgiven⟩ := kalloc_sizes n
  have hheader : headerSize = 4 := rfl
  have hnode : freeblockSize = 8 := rfl
  obtain rfl : count = 1 := by omega
  obtain ⟨hone, h0, hsmall⟩ : bytesGiven n = 4096 * 1 ∧ 0 < bytesSought n ∧ bytesSought n ≤ 4096 * 1 := by omega
  obtain ⟨j, bl₁, pl₁, m₁, hgather, hheap, -, hres⟩ :=
    h.spaced.search (Nat.le_refl 1) hneed hcount (hgiven.trans hone) (by decide)
  have hserved : (∃ f ∈ bl₁, bytesSought n ≤ f.size) ↔ Served n bl pl := by
    rw [hgather.stretch_iff (by decide) h0 hheap.blocks.spaced.canonical (hres.imp (fun hyes => ?_) fun hno => hno.2.1),
      stretch_servable_iff_of_le h.blocks.free.canonical h0 hsmall, Served, Refills, ← htaken, hone]
    · simp [hsmall]
    · obtain ⟨f, q, hf, hsize, -⟩ := hyes
      exact ⟨f, hf, hsize⟩
  rcases hres with ⟨f, q, hf, hsize, hends⟩ | ⟨hblocks, -, hends⟩
  · have hread := hheap.blocks.size_eq hf
    have hstop : f.stop ≤ 268435456 := by
      refine stop_le_of_covered (l := bl ++ pl) (fun r hr => ?_) (fun a ha => ?_) f hf (by omega)
      · exact (List.mem_append.1 hr).elim (h.blocks.low r) (h.pages.low r)
      · have := hgather.coverage a
        rw [coverage_append]
        omega
    simp only [Region.stop] at hstop
    exact Or.inl ⟨hserved.1 ⟨f, hf, hsize⟩, hends.kalloc_ne_zero (by omega) (Or.inl (by omega))⟩
  · refine Or.inr ⟨fun hyes => ?_, _, hends.kalloc rfl⟩
    obtain ⟨f, hf, hsize⟩ := hserved.2 hyes
    exact absurd hsize (Nat.not_le_of_lt (hblocks f hf))

/-- Beyond 256 MB `kalloc` returns exactly when it is served, and else panics. -/
theorem kalloc_ends_of_gt (h : Heap v m bl pl) (hn : 268435456 < n + 4) (hn' : n < 4294967296) :
    (Served n bl pl ∧ ∃ m' ptr, ptr ≠ 0 ∧ Comes (fun fuel => BootPerl.kalloc fuel v m n) (.ok (m', ptr))) ∨
      (¬Served n bl pl ∧ ∃ msg, Comes (fun fuel => BootPerl.kalloc fuel v m n) (.panic msg)) := by
  rcases Nat.eq_zero_or_pos (bytesTaken n) with hzero | hpos
  · exact h.kalloc_ends_unrefilled hzero
  · rcases Nat.lt_or_ge (n + 4 + 4095) 4294967296 with hlt | hge
    · exact h.kalloc_ends_oversize hn hlt hpos
    · exact h.kalloc_ends_wrapped hge hn' hpos

end Heap

/-- A request is safe exactly when it lies below 256 MB with its header, or nothing serves it: neither a block nor a refill has
the size that its search asks for. -/
theorem kalloc_safe_iff {v : HeapVars} {m : Mem} {bl pl : List Region} (h : Heap v m bl pl) {n : Nat} (hn : n < 4294967296) :
    KallocSafe v m bl pl n ↔ n + headerSize ≤ 268435456 ∨ ¬Served n bl pl := by
  rw [headerSize]
  rcases Nat.lt_or_ge 268435456 (n + 4) with hgt | hle
  · rcases h.kalloc_ends_of_gt hgt hn with ⟨hserved, m', ptr, -, hok⟩ | ⟨hserved, msg, hp⟩
    · refine ⟨fun hsafe => absurd hsafe (h.not_kallocSafe_of_gt hgt hok), ?_⟩
      rintro (hle | hnot)
      · omega
      · exact absurd hserved hnot
    · exact ⟨fun _ => Or.inr hserved, fun _ => Or.inl ⟨msg, hp⟩⟩
  · exact ⟨fun _ => Or.inl hle, fun _ => h.kallocSafe_of_le hle⟩

/-- A request for 100 bytes of a fresh memory of four pages is safe. -/
theorem kalloc_safe_iff_tiny : KallocSafe tinyMemory.toHeapVars tinyMemory.initial [] [tinyMemory.managed] 100 :=
  (kalloc_safe_iff (tinyMemory.heap_initial (by decide)) (by decide)).2 (Or.inl (by decide))

/-- Four pages are free. A request of 65537 pages is cut to one, the page is put on the block list as 65537 pages, and the block
returned has its header one byte below the end of memory and its payload beyond it. -/
theorem kalloc_safe_false : Heap tinyMemory.toHeapVars tinyMemory.initial [] [tinyMemory.managed] ∧
    (∃ m', Comes (fun fuel => kalloc fuel tinyMemory.toHeapVars tinyMemory.initial 268435453) (.ok (m', 0x204003))) ∧
      ¬KallocSafe tinyMemory.toHeapVars tinyMemory.initial [] [tinyMemory.managed] 268435453 := by
  have hheap : Heap tinyMemory.toHeapVars tinyMemory.initial [] [tinyMemory.managed] := tinyMemory.heap_initial (by decide)
  obtain ⟨m', hm'⟩ : ∃ m', kalloc 3 tinyMemory.toHeapVars tinyMemory.initial 268435453 = .ok (m', 0x204003) := ⟨_, rfl⟩
  have hok := (settles_kalloc _ _ _).comes hm'
  exact ⟨hheap, ⟨m', hok⟩, hheap.not_kallocSafe_of_gt (by decide) hok⟩

end BootPerl
