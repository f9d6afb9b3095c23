import BootPerl.Theorems.HeapOwnership

/-!
# What `kalloc` finds, and what it cuts

For a request whose page count fits an `unsigned short` the search comes to an end: each refill takes a page at least. What is
returned, with what stays free, is what was free before. Both hold of block lists whose blocks may touch; `mem_free` keeps gaps
between blocks, but nothing here needs them.
-/

namespace BootPerl

open Mem Outcome

/-- The pages in the runs of a list. -/
def freePages : List Region → Nat
  | [] => 0
  | r :: pl => r.size / 4096 + freePages pl

/-- The runs of a page list hold whole pages. -/
theorem PageList.total_eq {v : HeapVars} {m : Mem} {pl : List Region} (h : PageList v m pl) : total pl = 4096 * freePages pl := by
  have hwhole : ∀ r ∈ pl, 4096 * (r.size / 4096) = r.size := fun r hr => by
    have := h.pages_eq hr
    omega
  clear h
  induction pl with
  | nil => rfl
  | cons e es ih =>
    obtain ⟨he, hes⟩ := List.forall_mem_cons.1 hwhole
    rw [total, freePages, ih hes, Nat.mul_add, he]

/-- The search of `kalloc` ends: with a block that has room for the request and a node, or in a panic of
`page_allocate_consecutive`. It starts over at most once for each free page. -/
theorem kalloc_search_ends {v : HeapVars} {m : Mem} {bl pl : List Region} (h : SpacedHeap 0 v m bl pl) {n : Nat}
    (hn : pagesFor n < 65536) :
    ∃ k j, j ≤ freePages pl ∧ ∀ fuel, k ≤ fuel →
      kallocRestarts v ((n + headerSize) % 4294967296) fuel m v.blocksHead (m.next v.blocksHead) = j ∧
      ((∃ m' q f bl' pl', kallocSearch v ((n + headerSize) % 4294967296) fuel m v.blocksHead (m.next v.blocksHead) =
            .ok (m', q, f.addr) ∧ SpacedHeap 0 v m' bl' pl' ∧ f ∈ bl' ∧ n + headerSize + freeblockSize ≤ f.size) ∨
        ∃ msg, kallocSearch v ((n + headerSize) % 4294967296) fuel m v.blocksHead (m.next v.blocksHead) = .panic msg ∧
          (msg = "Out of pages to allocate" ∨ msg = "Not enough consecutive pages to complete alloc")) := by
  obtain ⟨hreal, hneed, hpages⟩ := sizes_eq (Nat.le_of_lt hn)
  have hpos : 0 < pagesFor n := by
    unfold pagesFor
    omega
  obtain ⟨j, bl', pl', m', hgather, hheap, -, hres⟩ := h.search (Nat.zero_le 1) hneed
    (show (n + 4 + 4095) % 4294967296 / 4096 % 65536 = pagesFor n by omega) (by omega) hpos
  have hrestarts : j ≤ freePages pl := by
    have h1 := hgather.total
    have h2 := h.pages.total_eq
    have h3 : j * 4096 ≤ j * (4096 * pagesFor n) := Nat.mul_le_mul_left j (by omega)
    omega
  rw [hreal]
  rcases hres with ⟨f, q, hf, hsize, hends⟩ | ⟨-, -, hends⟩
  · obtain ⟨k, hk⟩ := hends.apart
    exact ⟨k, j, hrestarts, fun fuel hfuel => ⟨(hk fuel hfuel).2, Or.inl ⟨m', q, f, bl', pl', (hk fuel hfuel).1, hheap, hf, hsize⟩⟩⟩
  · obtain ⟨k, hk⟩ := hends.apart
    refine ⟨k, j, hrestarts, fun fuel hfuel => ⟨(hk fuel hfuel).2, Or.inr ⟨_, (hk fuel hfuel).1, ?_⟩⟩⟩
    cases pl' with
    | nil => exact Or.inl rfl
    | cons r rs => exact Or.inr rfl

/-- A request for 100 bytes of a fresh memory of four pages. -/
theorem kalloc_search_ends_tiny :
    ∃ k j, j ≤ freePages [tinyMemory.managed] ∧ ∀ fuel, k ≤ fuel →
      kallocRestarts tinyMemory.toHeapVars ((100 + headerSize) % 4294967296) fuel tinyMemory.initial
          tinyMemory.blocksHead (tinyMemory.initial.next tinyMemory.blocksHead) = j ∧
      ((∃ m' q f bl' pl', kallocSearch tinyMemory.toHeapVars ((100 + headerSize) % 4294967296) fuel tinyMemory.initial
            tinyMemory.blocksHead (tinyMemory.initial.next tinyMemory.blocksHead) = .ok (m', q, f.addr) ∧
            SpacedHeap 0 tinyMemory.toHeapVars m' bl' pl' ∧ f ∈ bl' ∧ 100 + headerSize + freeblockSize ≤ f.size) ∨
        ∃ msg, kallocSearch tinyMemory.toHeapVars ((100 + headerSize) % 4294967296) fuel tinyMemory.initial
            tinyMemory.blocksHead (tinyMemory.initial.next tinyMemory.blocksHead) = .panic msg ∧
          (msg = "Out of pages to allocate" ∨ msg = "Not enough consecutive pages to complete alloc")) :=
  kalloc_search_ends (tinyMemory.heap_initial (by decide)).spaced.touching (by decide)

/-! ## What is cut -/

/-- When `kalloc` returns, the header, which holds `n`, and the `n` bytes after it together with the new free blocks and runs are
disjoint and make up the old free blocks and runs; both lists are well formed below 256 MB, and every block has room for its
node. -/
theorem kalloc_partitions {v : HeapVars} {m m' : Mem} {bl pl : List Region} (h : SpacedHeap 0 v m bl pl)
    (hlow : ∀ r ∈ bl, r.stop ≤ 268435456) {n ptr : Nat} (hn : pagesFor n < 65536)
    (hr : Comes (fun fuel => kalloc fuel v m n) (.ok (m', ptr))) :
    ∃ bl' pl', headerSize < ptr ∧ m'.size (ptr - headerSize) = n ∧
      ((⟨ptr - headerSize, headerSize + n⟩ : Region) :: (bl' ++ pl')).Pairwise Region.Disjoint ∧
      covered ((⟨ptr - headerSize, headerSize + n⟩ : Region) :: (bl' ++ pl')) = covered (bl ++ pl) ∧
      SpacedHeap 0 v m' bl' pl' ∧ ∀ r ∈ bl', freeblockSize ≤ r.size ∧ r.stop ≤ 268435456 := by
  rw [headerSize, Nat.add_comm 4 n]
  obtain ⟨j, bl₁, pl', hgather, -, ⟨m₁, ptr₁, bl', hok, -, hheap, hlow', hcut, -⟩ | ⟨-, -, hp⟩⟩ :=
    h.kalloc (Nat.zero_le 1) hlow hn
  · obtain ⟨rfl, rfl⟩ := Prod.mk.inj (hr.ok_inj hok)
    have hcov : ∀ a, coverage (⟨ptr - 4, n + 4⟩ :: (bl' ++ pl')) a = coverage (bl ++ pl) a := fun a => by
      have h1 := hgather.coverage a
      have h2 := hcut.coverage_eq a
      simp only [coverage_cons, coverage_append]
      omega
    have hex : Exclusive (⟨ptr - 4, n + 4⟩ :: (bl' ++ pl')) := fun a => by
      have h1 := h.exclusive a
      rw [SpacedHeap.coverage_heads] at h1
      rw [hcov, coverage_append]
      omega
    refine ⟨bl', pl', hcut.above, hcut.header, hex.pairwise, ?_, hheap, fun r hr' => ⟨hheap.blocks.room r hr', hlow' r hr'⟩⟩
    ext a
    rw [mem_covered, mem_covered, hcov]
  · exact absurd hp hr.not_panic

/-- The block of 100 bytes in the last page of a fresh memory. -/
theorem kalloc_partitions_tiny :
    ∃ bl' pl', headerSize < 0x203f9c ∧ tinyBlock.size (0x203f9c - headerSize) = 100 ∧
      ((⟨0x203f9c - headerSize, headerSize + 100⟩ : Region) :: (bl' ++ pl')).Pairwise Region.Disjoint ∧
      covered ((⟨0x203f9c - headerSize, headerSize + 100⟩ : Region) :: (bl' ++ pl')) = covered ([] ++ [tinyMemory.managed]) ∧
      SpacedHeap 0 tinyMemory.toHeapVars tinyBlock bl' pl' ∧ ∀ r ∈ bl', freeblockSize ≤ r.size ∧ r.stop ≤ 268435456 :=
  kalloc_partitions (tinyMemory.heap_initial (by decide)).spaced.touching (by simp) (by decide)
    ((settles_kalloc _ _ _).comes (show kalloc 3 tinyMemory.toHeapVars tinyMemory.initial 100 = .ok (tinyBlock, 0x203f9c) from rfl))

end BootPerl
