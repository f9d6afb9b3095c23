import BootPerl.Theorems.HeapOwnership

/-!
# What is in use keeps its contents

The memory manager stores into the list heads, into free memory and into what is being freed. So a byte of a live block, its header
included, or of a held page stays as it is in every run of tame calls, until its owner writes it or gives it back.
-/

namespace BootPerl

open Mem Outcome

/-- An address is in a live block or in a held page. -/
def HeapState.Uses (s : HeapState) (a : Nat) : Prop := 0 < coverage (s.live.map Block.region ++ s.held.map pageRegion) a

/-- A tame call, after which an address is in use, and which does not write it. -/
def LeavesAt (v : HeapVars) (a : Nat) (s s' : HeapState) : Prop :=
  ∃ c, Tame v s c ∧ HeapStep v s c s' ∧ s'.Uses a ∧ ∀ x, c ≠ .write a x

section
variable {v : HeapVars} {s s' : HeapState} {a : Nat}

/-- What is in use is in no free list and no list head. -/
theorem Owned.not_free {bl pl : List Region} (h : Owned v s.mem bl pl s.live s.held) (ha : s.Uses a) :
    coverage (v.heads ++ bl ++ pl) a = 0 := by
  have hex := h.exclusive a
  rw [Owned.coverage_all] at hex
  rw [HeapState.Uses, coverage_append] at ha
  omega

/-- What stays in use was not in the block that is freed. -/
theorem Owned.not_freed {bl pl : List Region} (h : Owned v s.mem bl pl s.live s.held) {b : Block} (hb : b ∈ s.live)
    (ha : HeapState.Uses ⟨s.mem, s.live.erase b, s.held⟩ a) : b.region.ind a = 0 := by
  have hex := h.exclusive a
  rw [Owned.coverage_all, Owned.coverage_erase hb] at hex
  rw [HeapState.Uses, coverage_append] at ha
  dsimp only at ha
  omega

/-- What stays in use was not in the page that is released. -/
theorem Owned.not_released {bl pl : List Region} (h : Owned v s.mem bl pl s.live s.held) {page : Nat} (hp : page ∈ s.held)
    (ha : HeapState.Uses ⟨s.mem, s.live, s.held.erase page⟩ a) : (pageRegion page).ind a = 0 := by
  have hperm : coverage (s.held.map pageRegion) a = (pageRegion page).ind a + coverage ((s.held.erase page).map pageRegion) a := by
    rw [← coverage_cons, ← List.map_cons]
    exact coverage_perm ((List.perm_cons_erase hp).map pageRegion) a
  have hex := h.exclusive a
  rw [Owned.coverage_all, hperm] at hex
  rw [HeapState.Uses, coverage_append] at ha
  dsimp only at ha
  omega

/-- A call keeps the byte of an address that is in use before and after, unless it writes it. -/
theorem HeapInv.byte_kept (h : HeapInv v s) (ha : s.Uses a) (hs : LeavesAt v a s s') : s'.mem.byte a = s.mem.byte a := by
  obtain ⟨bl, pl, h⟩ := h
  obtain ⟨c, hc, hstep, ha', hw⟩ := hs
  have hnone := h.not_free ha
  have hpages : a ∉ covered (⟨v.pagesHead, 8⟩ :: pl) := by
    rw [mem_covered]
    rw [Heap.coverage_heads] at hnone
    simp only [coverage_cons] at hnone ⊢
    omega
  cases hstep with
  | kalloc hn hr =>
    obtain ⟨-, -, -, -, hf⟩ := h.kalloc (add_four_le_of_pagesFor hn) hr
    exact (hf a (by rw [mem_covered]; omega)).1
  | @kfree m b hb hr =>
    obtain ⟨hroom, hnothing⟩ := hc bl h.blocks
    have hin := h.inside b hb
    have hout := h.not_freed hb ha'
    simp only [h.kfree_eq hb] at hr
    obtain ⟨-, hf⟩ := h.heap.memFree_keep (by omega) hroom (by omega) (by omega) (h.exclusive_block hb) hnothing hr
    refine (hf a ?_).1
    rw [mem_covered, coverage_cons]
    change ¬0 < b.region.ind a + coverage (v.heads ++ bl ++ pl) a
    omega
  | @memFree m r hu hr =>
    obtain ⟨hroom, hnothing⟩ := hc bl h.blocks
    obtain ⟨h0, hsize, hlow, hnobody⟩ := hu
    have hfree := hnobody bl pl h.blocks h.pages
    have hex : Exclusive (r :: (v.heads ++ bl ++ pl)) := fun x => by
      have hx := h.exclusive x
      rw [coverage_cons]
      rw [Owned.coverage_all] at hx
      by_cases hr : r.Has x
      · have := hfree x hr
        rw [Owned.coverage_all] at this
        rw [Region.ind_of_has hr]
        omega
      · rw [Region.ind_of_not_has hr]
        omega
    obtain ⟨-, hf⟩ := h.heap.memFree_keep hsize hroom h0 hlow hex hnothing hr
    refine (hf a ?_).1
    have hout : ¬r.Has a := fun hr => by
      have := hfree a hr
      rw [Owned.coverage_all] at this
      rw [HeapState.Uses, coverage_append] at ha
      omega
    rw [mem_covered, coverage_cons, Region.ind_of_not_has hout]
    omega
  | pageAllocate hr =>
    obtain ⟨-, -, -, -, -, hf⟩ := h.heap.pageAllocate hr
    exact (hf a hpages).1
  | pageAllocateConsecutive h0 _ hr =>
    obtain ⟨-, -, -, -, -, hf⟩ := h.heap.pageAllocateConsecutive h0 hr
    exact (hf a hpages).1
  | @pageRelease m page hp hr =>
    have hout := h.not_released hp ha'
    obtain ⟨h0, h1⟩ := h.page page hp
    obtain ⟨m₁, hok, -, hf⟩ := h.pages.release_comes page h0 h1 fun x => by
      have hx := h.exclusive x
      have hperm := Region.ind_le_one (pageRegion page) x
      have hheld : (pageRegion page).ind x ≤ coverage (s.held.map pageRegion) x := by
        have := coverage_perm ((List.perm_cons_erase hp).map pageRegion) x
        rw [List.map_cons, coverage_cons] at this
        omega
      rw [Owned.coverage_all, Heap.coverage_heads] at hx
      simp only [coverage_cons] at hx ⊢
      omega
    obtain rfl := hr.ok_inj hok
    refine (hf a ?_).1
    rw [mem_covered] at hpages ⊢
    simp only [coverage_cons] at hpages ⊢
    omega
  | @writeBlock b x c hb h1 h2 =>
    have hne : a ≠ x := fun he => hw c (by rw [he])
    exact if_neg hne
  | @writePage page x c hp hx =>
    have hne : a ≠ x := fun he => hw c (by rw [he])
    exact if_neg hne

end

/-- In every state reached by tame calls, and for every address in use: in every run of tame calls from there, the byte
stays as it is as long as it is in use and is not written. -/
theorem contents_kept (b : BootMemory) (hlow : b.memoryEnd ≤ 268435456) {s s' : HeapState} (h : Reach b.HeapInit b.tameStep s)
    {a : Nat} (ha : s.Uses a) (hrun : Reach (· = s) (LeavesAt b.toHeapVars a) s') : s'.mem.byte a = s.mem.byte a := by
  suffices hall : HeapInv b.toHeapVars s' ∧ s'.Uses a ∧ s'.mem.byte a = s.mem.byte a from hall.2.2
  refine hrun.invariant (I := fun t => HeapInv b.toHeapVars t ∧ t.Uses a ∧ t.mem.byte a = s.mem.byte a) ?_ ?_
  · rintro t rfl
    exact ⟨HeapInv.of_reach hlow h, ha, rfl⟩
  · rintro t t' ⟨hinv, huses, hbyte⟩ hstep
    have hkept := hinv.byte_kept huses hstep
    obtain ⟨c, hc, hs, huses', -⟩ := hstep
    exact ⟨hinv.step hc hs, huses', hkept.trans hbyte⟩

/-- The address that a call of `kalloc` returns. -/
def kallocPtr : Outcome (Mem × Nat) → Option Nat
  | .ok (_, ptr) => some ptr
  | _ => none

/-- A call that returns an address returns. -/
theorem kalloc_of_ptr {x : Outcome (Mem × Nat)} {ptr : Nat} (h : kallocPtr x = some ptr) : ∃ m, x = .ok (m, ptr) := by
  cases x with
  | ok r =>
    rw [kallocPtr, Option.some_inj] at h
    exact ⟨r.1, by rw [← h]⟩
  | panic msg => cases h
  | running => cases h

/-- The first byte of a block on four pages keeps its value while another is allocated. -/
theorem contents_kept_tiny : ∃ m, Comes (fun fuel => kalloc fuel tinyMemory.toHeapVars tinyBlock 8) (.ok (m, 0x203f90)) ∧
    m.byte 0x203f9c = tinyBlock.byte 0x203f9c := by
  have hptr : kallocPtr (kalloc 3 tinyMemory.toHeapVars tinyBlock 8) = some 0x203f90 := by decide +kernel
  obtain ⟨m, hm⟩ := kalloc_of_ptr hptr
  have hcomes := (settles_kalloc tinyMemory.toHeapVars tinyBlock 8).comes hm
  have hstep : HeapStep tinyMemory.toHeapVars ⟨tinyBlock, [⟨0x203f9c, 100⟩], []⟩ (.kalloc 8)
      ⟨m, [⟨0x203f90, 8⟩, ⟨0x203f9c, 100⟩], []⟩ := .kalloc (by decide) hcomes
  have huses : ∀ m, HeapState.Uses ⟨m, [⟨0x203f9c, 100⟩], []⟩ 0x203f9c := fun m => by
    simp only [HeapState.Uses]
    decide
  have huses' : ∀ m, HeapState.Uses ⟨m, [⟨0x203f90, 8⟩, ⟨0x203f9c, 100⟩], []⟩ 0x203f9c := fun m => by
    simp only [HeapState.Uses]
    decide
  have hleaves : LeavesAt tinyMemory.toHeapVars 0x203f9c ⟨tinyBlock, [⟨0x203f9c, 100⟩], []⟩
      ⟨m, [⟨0x203f90, 8⟩, ⟨0x203f9c, 100⟩], []⟩ :=
    ⟨.kalloc 8, trivial, hstep, huses' m, fun x => HeapCall.noConfusion⟩
  exact ⟨m, hcomes, contents_kept tinyMemory (by decide) tinyBlock_reached (huses tinyBlock) (.step (.init rfl) hleaves)⟩

end BootPerl
