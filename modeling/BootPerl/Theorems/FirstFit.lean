import BootPerl.Theorems.PageAllocator

/-!
# Consecutive pages, first fit

`page_allocate_consecutive` takes the top pages of the lowest run that has as many, and panics when there is none. For one page
it does what `page_allocate` does, store for store.
-/

namespace BootPerl

open Mem Outcome

namespace PageList
variable {v : HeapVars} {m : Mem} {pl : List Region}

/-- For one page both functions take the last page of the first run. -/
theorem allocateConsecutive_one (h : PageList v m pl) {fuel : Nat} (hfuel : 0 < fuel) :
    pageAllocateConsecutive fuel v m 1 = pageAllocate v m := by
  obtain ⟨fuel, rfl⟩ := Nat.exists_eq_succ_of_ne_zero (Nat.ne_of_gt hfuel)
  have hnext := h.next_head
  cases pl with
  | nil =>
    rw [show firstAddr [] = 0 from rfl] at hnext
    rw [pageAllocateConsecutive, pageAllocate, if_neg Nat.one_ne_zero, if_pos hnext, if_pos hnext]
  | cons f post =>
    have hf : f ∈ f :: post := List.mem_cons_self
    have haddr := h.addr_ge hf
    have hsize := h.size_ge hf
    have hpages := h.pages_eq hf
    rw [show firstAddr (f :: post) = f.addr from rfl] at hnext
    have hlt : m.pages f.addr < 65536 := m.load_two_lt _
    have hread : (m.setPages f.addr (m.pages f.addr - 1)).pages f.addr = m.pages f.addr - 1 := load_store_two (by omega)
    -- `page_allocate` reads `pages_head.next` again after it has stored the count
    have hagain : (m.setPages f.addr (m.pages f.addr - 1)).next v.pagesHead = f.addr := by
      have hap : NodeApart f ⟨v.pagesHead, 0⟩ := ((List.pairwise_cons.1 h.free.pairwise_nodeApart).1 f hf).symm
      have hframe : Mem.Frame (nodeBytes [f]) m (m.setPages f.addr (m.pages f.addr - 1)) := frame_storeCount (by decide) f m _
      exact (load_of_nodeApart (Nat.le_refl 4) hframe hap).2.trans hnext
    rw [pageAllocateConsecutive, pageAllocate, hnext, if_neg Nat.one_ne_zero, if_neg (by omega), if_neg (by omega),
      if_neg (by omega), if_neg (by omega), takeConsecutive, if_neg (by omega), if_pos (by omega)]
    simp only [hagain, hread]

end PageList

/-- `page_allocate_consecutive` panics exactly when no run has `count` pages. Else it returns the first of the top `count` pages
of the lowest run that has as many, cuts them off that run and leaves every other run. One page is taken as by `page_allocate`. -/
theorem allocate_consecutive_first_fit {v : HeapVars} {m : Mem} {pl : List Region} (h : PageList v m pl) {count : Nat}
    (h0 : 0 < count) :
    ((∃ msg, Comes (fun fuel => pageAllocateConsecutive fuel v m count) (.panic msg)) ↔ ∀ r ∈ pl, r.size < 4096 * count) ∧
      ((∃ r ∈ pl, 4096 * count ≤ r.size) → ∃ pre f post m', pl = pre ++ f :: post ∧ (∀ r ∈ pre, r.size < 4096 * count) ∧
        4096 * count ≤ f.size ∧
        Comes (fun fuel => pageAllocateConsecutive fuel v m count) (.ok (m', (f.stop - 4096 * count) / 4096)) ∧
        PageList v m' (pre ++ carve (4096 * count) f ++ post)) ∧
      Comes (fun fuel => pageAllocateConsecutive fuel v m 1) (pageAllocate v m) := by
  have hone : Comes (fun fuel => pageAllocateConsecutive fuel v m 1) (pageAllocate v m) :=
    ⟨1, fun _ hfuel => h.allocateConsecutive_one hfuel⟩
  rcases h.consecutive_comes h0 with ⟨hnone, hp⟩ | ⟨pre, f, post, m', hpl, hpre, hk, hr, hpl', -⟩
  · refine ⟨⟨fun _ => hnone, fun _ => ⟨_, hp⟩⟩, ?_, hone⟩
    rintro ⟨r, hr, hsize⟩
    exact absurd hsize (Nat.not_le_of_lt (hnone r hr))
  · have hpage : (top (4096 * count) f).addr / 4096 = (f.stop - 4096 * count) / 4096 := by
      simp only [top, Region.stop]
      rw [Nat.add_sub_assoc hk]
    rw [hpage] at hr
    refine ⟨⟨?_, fun hnone => ?_⟩, fun _ => ⟨pre, f, post, m', hpl, hpre, hk, hr, hpl'⟩, hone⟩
    · rintro ⟨msg, hp⟩
      exact absurd hp hr.not_panic
    · exact absurd hk (Nat.not_le_of_lt (hnone f (by rw [hpl]; simp)))

/-- Three of the four pages of a fresh memory. -/
theorem allocate_consecutive_first_fit_tiny :
    (¬∃ msg, Comes (fun fuel => pageAllocateConsecutive fuel tinyMemory.toHeapVars tinyMemory.initial 3) (.panic msg)) ∧
      (∃ pre f post m', [tinyMemory.managed] = pre ++ f :: post ∧ (∀ r ∈ pre, r.size < 4096 * 3) ∧ 4096 * 3 ≤ f.size ∧
        Comes (fun fuel => pageAllocateConsecutive fuel tinyMemory.toHeapVars tinyMemory.initial 3)
          (.ok (m', (f.stop - 4096 * 3) / 4096)) ∧
        PageList tinyMemory.toHeapVars m' (pre ++ carve (4096 * 3) f ++ post)) ∧
      Comes (fun fuel => pageAllocateConsecutive fuel tinyMemory.toHeapVars tinyMemory.initial 1)
        (pageAllocate tinyMemory.toHeapVars tinyMemory.initial) := by
  obtain ⟨hpanic, hfit, hone⟩ := allocate_consecutive_first_fit (tinyMemory.pageList_initial (by decide)) (show 0 < 3 by decide)
  have hroom : 4096 * 3 ≤ tinyMemory.managed.size := by decide
  refine ⟨fun hp => ?_, hfit ⟨_, List.mem_singleton_self _, hroom⟩, hone⟩
  exact absurd hroom (Nat.not_le_of_lt (hpanic.1 hp _ (List.mem_singleton_self _)))

end BootPerl
