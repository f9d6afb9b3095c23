import BootPerl.Lemmas.Blocks
import BootPerl.Theorems.PageAllocator

/-!
# The order in which pages are released

A page list is canonical, so it is determined by the pages on it, and the pages on it after some releases do not depend on their
order. After a run of page calls that began with `kalloc_init`, releasing what is held leaves the one run that boot made.
-/

namespace BootPerl

open Mem Outcome

/-- What is asked of a page to be released: an `unsigned short`, not page 0, not on the list, and the list head not in it. -/
def Releasable (v : HeapVars) (pl : List Region) (page : Nat) : Prop :=
  0 < page ∧ page < 65536 ∧ ¬FreePage pl page ∧ Region.Apart ⟨v.pagesHead, 8⟩ (pageRegion page)

namespace PageList
variable {v : HeapVars} {m : Mem} {pl pl' : List Region}

/-- Runs are whole pages: an address is on the list when its page is. -/
theorem freePage_of_covered (h : PageList v m pl) {a : Nat} (ha : 0 < coverage pl a) : FreePage pl (a / 4096) := by
  obtain ⟨r, hr, hra⟩ := coverage_pos_iff.1 ha
  have hal := h.aligned r hr
  have hsize := h.pages_eq hr
  refine ⟨r, hr, ?_⟩
  simp only [Region.Has] at hra ⊢
  omega

/-- The head is not on the list. -/
theorem head_not_covered (h : PageList v m pl) {a : Nat} (ha : Region.Has ⟨v.pagesHead, 8⟩ a) : coverage pl a = 0 := by
  refine Nat.eq_zero_of_not_pos fun hpos => ?_
  obtain ⟨r, hr, hra⟩ := coverage_pos_iff.1 hpos
  have hap := h.free.headApart r hr
  simp only [Region.Apart, Region.stop, Region.Has] at hap hra ha
  omega

/-- Distinct releasable pages, the runs of the list and the head cover no address twice. -/
theorem exclusive_releasable (h : PageList v m pl) {pages : List Nat} (hnodup : pages.Nodup)
    (hpages : ∀ page ∈ pages, Releasable v pl page) : Exclusive (⟨v.pagesHead, 8⟩ :: (pages.map pageRegion ++ pl)) := by
  intro a
  rw [coverage_cons, coverage_append]
  have hone := h.free.canonical.spaced.exclusive a
  have hhead := Region.ind_le_one ⟨v.pagesHead, 8⟩ a
  by_cases hin : 0 < coverage (pages.map pageRegion) a
  · obtain ⟨r, hr, hra⟩ := coverage_pos_iff.1 hin
    obtain ⟨page, hpage, rfl⟩ := List.mem_map.1 hr
    obtain ⟨-, -, hoff, hap⟩ := hpages page hpage
    have hdiv : a / 4096 = page := by
      simp only [Region.Has, pageRegion] at hra
      omega
    have hcount : coverage (pages.map pageRegion) a ≤ 1 := by
      rw [coverage_pages]
      exact List.nodup_iff_count_le_one.1 hnodup _
    have hpl : coverage pl a = 0 := Nat.eq_zero_of_not_pos fun hpos => hoff (hdiv ▸ h.freePage_of_covered hpos)
    have hnot : ¬Region.Has ⟨v.pagesHead, 8⟩ a := fun ha => by
      simp only [Region.Apart, Region.stop, Region.Has, pageRegion] at hap ha hra
      omega
    rw [Region.ind_of_not_has hnot, hpl]
    omega
  · by_cases ha : Region.Has ⟨v.pagesHead, 8⟩ a
    · rw [h.head_not_covered ha]
      omega
    · rw [Region.ind_of_not_has ha]
      omega

/-- The memory holds one page list with a given cover. -/
theorem ext {m' : Mem} (h : PageList v m pl) (h' : PageList v m' pl') (hc : ∀ a, coverage pl a = coverage pl' a) : pl = pl' :=
  Canonical.ext h.free.canonical h'.free.canonical (fun r hr => by have := h.free.room r hr; omega)
    (fun r hr => by have := h'.free.room r hr; omega) hc

end PageList

/-- Releasing pages in any two orders yields one list of runs. After page calls that began with `kalloc_init`, releasing all
held pages in any order yields the one run of the managed memory. -/
theorem page_release_order :
    (∀ {v : HeapVars} {m : Mem} {pl : List Region} {pages pages' : List Nat}, PageList v m pl → pages.Nodup →
      (∀ page ∈ pages, Releasable v pl page) → pages'.Perm pages →
      ∃ m₁ m₂ pl', Comes (fun fuel => releaseAll fuel v pages m) (.ok m₁) ∧
        Comes (fun fuel => releaseAll fuel v pages' m) (.ok m₂) ∧ PageList v m₁ pl' ∧ PageList v m₂ pl') ∧
      ∀ (b : BootMemory) {s : PageState} {pages : List Nat}, b.memoryEnd ≤ 268435456 →
        Reach b.PageInit (PageStep b.toHeapVars) s → pages.Perm s.held →
        ∃ m', Comes (fun fuel => releaseAll fuel b.toHeapVars pages s.mem) (.ok m') ∧ PageList b.toHeapVars m' [b.managed] := by
  refine ⟨?_, ?_⟩
  · intro v m pl pages pages' h hnodup hpages hperm
    have hex := h.exclusive_releasable hnodup hpages
    have hpages' : ∀ page ∈ pages', Releasable v pl page := fun page hp => hpages page (hperm.subset hp)
    have hex' := h.exclusive_releasable (hperm.nodup_iff.2 hnodup) hpages'
    obtain ⟨m₁, pl₁, hok₁, hpl₁, hcov₁, -⟩ := h.releaseAll pages (fun page hp => ⟨(hpages page hp).1, (hpages page hp).2.1⟩) hex
    obtain ⟨m₂, pl₂, hok₂, hpl₂, hcov₂, -⟩ :=
      h.releaseAll pages' (fun page hp => ⟨(hpages' page hp).1, (hpages' page hp).2.1⟩) hex'
    have heq : pl₂ = pl₁ := hpl₂.ext hpl₁ fun a => by
      rw [hcov₁, hcov₂, coverage_perm (hperm.map pageRegion)]
    exact ⟨m₁, m₂, pl₁, hok₁, hok₂, hpl₁, heq ▸ hpl₂⟩
  · intro b s pages hend hs hperm
    have hone := b.onePage
    have habove := b.aboveKernel.1
    have hlow : b.managed.stop ≤ 268435456 := by
      simp only [BootMemory.managed, BootMemory.pageCount, Region.stop]
      omega
    obtain ⟨pl, hpl, hcov⟩ := hs.invariant (I := PageInv b) (fun _ hs => PageInv.init hlow hs) fun _ _ hi hs => hi.step hlow hs
    have hheld : ∀ a, coverage (pages.map pageRegion) a = coverage (s.held.map pageRegion) a :=
      coverage_perm (hperm.map pageRegion)
    obtain ⟨m', pl', hok, hpl', hcov', -⟩ := hpl.releaseAll pages (fun page hp => by
        obtain ⟨h0, h1, -⟩ := PageInv.held_page hlow hpl hcov (hperm.subset hp)
        exact ⟨h0, h1⟩) fun a => by
      have hall := hcov a
      rw [coverage_cons, coverage_append, hheld]
      by_cases ha : Region.Has ⟨b.pagesHead, 8⟩ a
      · have hnot : ¬b.managed.Has a := fun hm => by
          simp only [BootMemory.managed, Region.Has] at ha hm
          omega
        rw [Region.ind_of_not_has hnot] at hall
        rw [Region.ind_of_has ha]
        omega
      · have hone := b.managed.ind_le_one a
        rw [Region.ind_of_not_has ha]
        omega
    have hmanaged : pl' = [b.managed] := by
      refine Canonical.ext hpl'.free.canonical (List.pairwise_singleton _ _)
        (fun r hr => by have := hpl'.free.room r hr; omega) (fun r hr => ?_) fun a => ?_
      · rw [List.mem_singleton] at hr
        subst hr
        simp only [BootMemory.managed, BootMemory.pageCount]
        omega
      · have := hcov a
        rw [hcov', hheld, coverage_cons, coverage_nil]
        omega
    exact ⟨m', hok, hmanaged ▸ hpl'⟩

/-- Two pages above a fresh memory of four, released in either order, and the page held after one `page_allocate`. -/
theorem page_release_order_tiny :
    (∃ m₁ m₂ pl', Comes (fun fuel => releaseAll fuel tinyMemory.toHeapVars [0x300, 0x301] tinyMemory.initial) (.ok m₁) ∧
      Comes (fun fuel => releaseAll fuel tinyMemory.toHeapVars [0x301, 0x300] tinyMemory.initial) (.ok m₂) ∧
      PageList tinyMemory.toHeapVars m₁ pl' ∧ PageList tinyMemory.toHeapVars m₂ pl') ∧
      ∃ m', Comes (fun fuel => releaseAll fuel tinyMemory.toHeapVars [0x203] tinyHeld.mem) (.ok m') ∧
        PageList tinyMemory.toHeapVars m' [tinyMemory.managed] := by
  refine ⟨page_release_order.1 (tinyMemory.pageList_initial (by decide)) (by decide) (fun page hp => ?_) (by decide),
    page_release_order.2 tinyMemory (by decide) tinyHeld_reached (List.Perm.refl _)⟩
  simp only [List.mem_cons, List.not_mem_nil, or_false] at hp
  have hoff : ∀ {k : Nat}, 0x204 ≤ k → ¬FreePage [tinyMemory.managed] k := by
    rintro k hk ⟨r, hr, ha⟩
    rw [List.mem_singleton] at hr
    subst hr
    simp only [Region.Has, BootMemory.managed, BootMemory.pageCount, tinyMemory] at ha
    omega
  rcases hp with rfl | rfl
  · exact ⟨by decide, by decide, hoff (by decide), by simp only [Region.Apart]; decide⟩
  · exact ⟨by decide, by decide, hoff (by decide), by simp only [Region.Apart]; decide⟩

end BootPerl
