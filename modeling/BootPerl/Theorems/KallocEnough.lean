import BootPerl.Theorems.HeapOwnership

/-!
# When `kalloc` finds memory

The search asks for the pages of the request and its header, but takes a block only if there is room for a node as well. When
these eight bytes do not fit into the pages asked for, a refill alone is not enough, and `kalloc` panics although a run has the
pages that would do.
-/

namespace BootPerl

open Mem Outcome

namespace Heap
variable {v : HeapVars} {m : Mem} {bl pl : List Region}

/-- `kalloc` returns exactly when the free blocks, and what its page requests can take from the runs, hold a stretch of the size
its search asks for. -/
theorem kalloc_returns_iff_stretch (h : Heap v m bl pl) {n : Nat} (hn : pagesFor n < 65536) :
    (∃ m' ptr, Comes (fun fuel => BootPerl.kalloc fuel v m n) (.ok (m', ptr))) ↔
      Stretch (n + 12) (bl ++ pl.map (servable (4096 * pagesFor n))) := by
  have hpages : 0 < 4096 * pagesFor n := by
    unfold pagesFor
    omega
  obtain ⟨j, bl₁, pl', hgather, hspaced, hres⟩ := h.spaced.kalloc (Nat.le_refl 1) h.blocks.low hn
  rw [← hgather.stretch_iff hpages (show 0 < n + 12 by omega) hspaced.canonical (hres.imp (fun hok => ?_) fun hp => hp.2.1)]
  · rcases hres with ⟨m', ptr, bl', hok, hf, -⟩ | ⟨hblocks, -, hp⟩
    · exact ⟨fun _ => hf, fun _ => ⟨m', ptr, hok⟩⟩
    · constructor
      · rintro ⟨m', ptr, hok⟩
        exact absurd hp hok.not_panic
      · rintro ⟨f, hf, hsize⟩
        exact absurd hsize (Nat.not_le_of_lt (hblocks f hf))
  · obtain ⟨m', ptr, bl', -, hf, -⟩ := hok
    exact hf

end Heap

/-- With a run that has the pages for the request, its header and a node, `kalloc` returns exactly when the node fits into the
pages for the request and its header, or a block is large enough already, or two requests can be taken from one run, or one that
touches a free block: at the end of the run, or at its beginning when the whole run is taken. -/
theorem kalloc_returns_iff {v : HeapVars} {m : Mem} {bl pl : List Region} (h : Heap v m bl pl) {n : Nat}
    (henough : ∃ r ∈ pl, pageSize * ((n + headerSize + freeblockSize + 4095) / 4096) ≤ r.size) :
    (∃ m' ptr, Comes (fun fuel => kalloc fuel v m n) (.ok (m', ptr))) ↔
      n + headerSize + freeblockSize ≤ pageSize * pagesFor n ∨
      (∃ b ∈ bl, n + headerSize + freeblockSize ≤ b.size) ∨ (∃ r ∈ pl, 2 * (pageSize * pagesFor n) ≤ r.size) ∨
      ∃ r ∈ pl, ∃ b ∈ bl, pageSize * pagesFor n ≤ r.size ∧ (b.addr = r.stop ∨ b.stop = r.addr ∧ r.size = pageSize * pagesFor n) := by
  obtain ⟨r, hr, hsize⟩ := henough
  have hlt : m.pages r.addr < 65536 := m.load_two_lt _
  have hcount := h.pages.pages_eq hr
  simp only [headerSize, freeblockSize, pageSize] at hsize ⊢
  have hpages : pagesFor n ≤ (n + 4 + 8 + 4095) / 4096 := by
    unfold pagesFor
    omega
  have hreq : n + 4 ≤ 4096 * pagesFor n ∧ 4096 ≤ 4096 * pagesFor n := by
    unfold pagesFor
    omega
  rw [h.kalloc_returns_iff_stretch (show pagesFor n < 65536 by omega)]
  rcases Nat.lt_or_ge (4096 * pagesFor n) (n + 12) with hshort | hfits
  · rw [stretch_servable_iff h.blocks.free.canonical h.pages.free.canonical ?_ h.blocks.free.room hshort (by omega) (by omega)]
    · exact ⟨Or.inr, fun hor => hor.resolve_left (by omega)⟩
    · intro a
      have hex := h.exclusive a
      rw [Heap.coverage_heads] at hex
      rw [coverage_append]
      omega
  · rw [stretch_servable_iff_of_le h.blocks.free.canonical (by omega) hfits]
    exact ⟨fun _ => Or.inl (by omega), fun _ => Or.inr ⟨r, hr, by omega⟩⟩

/-- A request for 100 bytes of a fresh memory of four pages is served. -/
theorem kalloc_returns_iff_tiny :
    ∃ m' ptr, Comes (fun fuel => kalloc fuel tinyMemory.toHeapVars tinyMemory.initial 100) (.ok (m', ptr)) :=
  (kalloc_returns_iff (tinyMemory.heap_initial (by decide)) (by decide)).2 (Or.inl (by decide))

/-- Four pages are free and the search asks for a block of four pages at most, but takes three pages, which are too few, and has
one left. -/
theorem kalloc_returns_false : Heap tinyMemory.toHeapVars tinyMemory.initial [] [tinyMemory.managed] ∧
    (∃ r ∈ [tinyMemory.managed], pageSize * ((12284 + headerSize + freeblockSize + 4095) / 4096) ≤ r.size) ∧
      Comes (fun fuel => kalloc fuel tinyMemory.toHeapVars tinyMemory.initial 12284)
        (.panic "Not enough consecutive pages to complete alloc") := by
  refine ⟨tinyMemory.heap_initial (by decide), by decide, 6, fun fuel hfuel => ?_⟩
  obtain ⟨fuel, rfl⟩ := Nat.exists_eq_add_of_le' hfuel
  rfl

end BootPerl
