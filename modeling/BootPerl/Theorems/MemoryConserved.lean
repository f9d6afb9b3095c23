import Mathlib.Algebra.Order.BigOperators.Group.Finset
import BootPerl.Lib.Sizes
import BootPerl.Report
import BootPerl.Theorems.HeapOwnership

/-!
# No memory is lost

From `kalloc_init` on, over every run of tame calls: every address that the memory manager was given is in exactly one free block,
run of free pages, live block or held page, and no other address is. So what `show_memory` prints as free is what
was given less what is in use.
-/

namespace BootPerl

open Mem Outcome

/-- The calls since `kalloc_init`, all of them tame, and the state they lead to. -/
inductive HeapRun (b : BootMemory) : List HeapCall → HeapState → Prop where
  | init : HeapRun b [] ⟨b.initial, [], []⟩
  | step {calls : List HeapCall} {s s' : HeapState} {c : HeapCall} : HeapRun b calls s → Tame b.toHeapVars s c →
      HeapStep b.toHeapVars s c s' → HeapRun b (calls ++ [c]) s'

/-- The region that a call gives to the memory manager. -/
def HeapCall.given : HeapCall → Option Region
  | .memFree r => some r
  | _ => none

/-- The regions given to the memory manager since `kalloc_init`. -/
def given (calls : List HeapCall) : List Region := calls.filterMap HeapCall.given

/-- All that the memory manager keeps track of. -/
def HeapState.tracked (s : HeapState) (bl pl : List Region) : List Region :=
  bl ++ pl ++ s.live.map Block.region ++ s.held.map pageRegion

/-- The lists are owned, and cover together with what the callers hold each address as often as `total` says. -/
def HeapTotal (v : HeapVars) (s : HeapState) (total : Nat → Nat) : Prop :=
  ∃ bl pl, Owned v s.mem bl pl s.live s.held ∧ ∀ a, coverage (s.tracked bl pl) a = total a

/-! ## One list in one memory -/

/-- A memory holds one block list. -/
theorem BlockList.unique {v : HeapVars} {m : Mem} {bl bl' : List Region} (h : BlockList v m bl) (h' : BlockList v m bl') : bl = bl' :=
  h.free.linked.unique h'.free.linked h.free.pos h'.free.pos

/-- A memory holds one page list. -/
theorem PageList.unique {v : HeapVars} {m : Mem} {pl pl' : List Region} (h : PageList v m pl) (h' : PageList v m pl') : pl = pl' :=
  h.free.linked.unique h'.free.linked h.free.pos h'.free.pos

/-! ## What each call does to the total -/

theorem coverage_tracked (s : HeapState) (bl pl : List Region) (a : Nat) :
    coverage (s.tracked bl pl) a =
      coverage bl a + coverage pl a + coverage (s.live.map Block.region) a + coverage (s.held.map pageRegion) a := by
  simp only [HeapState.tracked, coverage_append]

/-- The byte of a held page is its owner's to write. -/
theorem Owned.write_page {v : HeapVars} {m : Mem} {bl pl : List Region} {live : List Block} {held : List Nat}
    (h : Owned v m bl pl live held) {page a : Nat} {c : UInt8} (hp : page ∈ held) (ha : (pageRegion page).Has a) :
    Owned v (m.set a c) bl pl live held := by
  have hex := h.exclusive a
  have hheld := coverage_pos_of_mem (List.mem_map_of_mem hp) ha
  rw [Owned.coverage_all] at hex
  refine h.write (by omega) fun d hd hda => ?_
  have hin := h.inside d hd
  have hpos : 0 < coverage (live.map Block.region) a :=
    coverage_pos_of_mem (List.mem_map_of_mem hd) (show d.ptr - 4 ≤ a ∧ a < d.ptr - 4 + (d.size + 4) by omega)
  omega

/-- A call moves memory between the lists and the callers; only `mem_free` brings in new memory. -/
theorem HeapTotal.step {v : HeapVars} {s s' : HeapState} {c : HeapCall} {total : Nat → Nat} (h : HeapTotal v s total)
    (hc : Tame v s c) (hs : HeapStep v s c s') : HeapTotal v s' fun a => total a + coverage c.given.toList a := by
  obtain ⟨bl, pl, h, htotal⟩ := h
  have htracked : ∀ a, coverage (s.tracked bl pl) a = total a + coverage (none : Option Region).toList a := htotal
  simp only [coverage_tracked] at htotal
  cases hs with
  | kalloc hn hr =>
    have hle := add_four_le_of_pagesFor hn
    obtain ⟨bl', pl', howned, -, -⟩ := h.kalloc hle hr
    obtain ⟨-, bl'', pl'', hheap, -, hcov, -⟩ := h.heap.kalloc hle hr
    obtain rfl := hheap.blocks.unique howned.blocks
    obtain rfl := hheap.pages.unique howned.pages
    refine ⟨bl'', pl'', howned, fun a => ?_⟩
    have h1 := htotal a
    have h2 := hcov a
    simp only [coverage_tracked, List.map_cons, coverage_cons, Block.region, HeapCall.given, Option.toList_none, coverage_nil]
    omega
  | @kfree m b hb hr =>
    obtain ⟨hroom, hnone⟩ := hc bl h.blocks
    refine ⟨_, _, h.kfree hb hroom hnone hr, fun a => ?_⟩
    have h1 := htotal a
    rw [Owned.coverage_erase hb] at h1
    simp only [coverage_tracked, coverage_insert, HeapCall.given, Option.toList_none, coverage_nil]
    omega
  | @memFree m r hu hr =>
    obtain ⟨hroom, hnone⟩ := hc bl h.blocks
    obtain ⟨h0, hsize, hlow, hnobody⟩ := hu
    refine ⟨_, _, h.memFree h0 hsize hlow (hnobody bl pl h.blocks h.pages) hroom hnone hr, fun a => ?_⟩
    have h1 := htotal a
    simp only [coverage_tracked, coverage_insert, HeapCall.given, Option.toList_some, coverage_cons, coverage_nil]
    omega
  | @pageAllocate m page hr =>
    obtain ⟨pl', hheap, hcov, h0, hlow, hf⟩ := h.heap.pageAllocate hr
    refine ⟨bl, pl', h.takePages [page] hheap (fun a => by simpa using hcov a) (by simp; omega) hf, fun a => ?_⟩
    have h1 := htotal a
    have h2 := hcov a
    simp only [coverage_tracked, List.map_cons, coverage_cons, HeapCall.given, Option.toList_none, coverage_nil]
    omega
  | @pageAllocateConsecutive m count page h0 _ hr =>
    obtain ⟨pl', hheap, hcov, hp, hlow, hf⟩ := h.heap.pageAllocateConsecutive h0 hr
    refine ⟨bl, pl', h.takePages (List.range' page count) hheap (fun a => ?_) (fun q hq => ?_) hf, fun a => ?_⟩
    · rw [coverage_consecutive]
      exact hcov a
    · rw [List.mem_range'_1] at hq
      omega
    · have h1 := htotal a
      have h2 := hcov a
      simp only [coverage_tracked, List.map_append, coverage_append, coverage_consecutive, HeapCall.given, Option.toList_none,
        coverage_nil]
      omega
  | @pageRelease m page hp hr =>
    refine ⟨_, _, h.pageRelease hp hr, fun a => ?_⟩
    have hperm : coverage (s.held.map pageRegion) a =
        (pageRegion page).ind a + coverage ((s.held.erase page).map pageRegion) a := by
      rw [← coverage_cons, ← List.map_cons]
      exact coverage_perm ((List.perm_cons_erase hp).map pageRegion) a
    have h1 := htotal a
    simp only [coverage_tracked, coverage_insert, HeapCall.given, Option.toList_none, coverage_nil]
    omega
  | writeBlock hb h1 h2 => exact ⟨bl, pl, h.write_payload hb (Mem.Frame.set ⟨h1, h2⟩), htracked⟩
  | writePage hp ha => exact ⟨bl, pl, h.write_page hp ha, htracked⟩

theorem given_concat (calls : List HeapCall) (c : HeapCall) : given (calls ++ [c]) = given calls ++ c.given.toList := by
  rw [given, given, List.filterMap_append]
  cases hc : c.given with
  | none => simp [hc]
  | some r => simp [hc]

/-- What the memory manager keeps track of is what it was given. -/
theorem HeapRun.total {b : BootMemory} (hlow : b.memoryEnd ≤ 268435456) {calls : List HeapCall} {s : HeapState}
    (h : HeapRun b calls s) : HeapTotal b.toHeapVars s fun a => coverage (b.managed :: given calls) a := by
  induction h with
  | init =>
    have hstop : b.managed.stop ≤ 268435456 := by
      have hpage := b.onePage
      simp only [BootMemory.managed, BootMemory.pageCount, Region.stop]
      omega
    obtain ⟨hbl, hpl, hex⟩ := b.heap_initial hstop
    refine ⟨[], [b.managed], ⟨hbl, hpl, fun a => ?_, by simp, by simp, by simp⟩, fun a => ?_⟩
    · rw [Owned.coverage_all]
      exact hex a
    · simp [coverage_tracked, given]
  | @step calls s s' c _ hc hs ih =>
    obtain ⟨bl, pl, howned, htotal⟩ := ih.step hc hs
    refine ⟨bl, pl, howned, fun a => ?_⟩
    rw [htotal a, given_concat]
    simp only [coverage_cons, coverage_append]
    omega

/-- In every state reached by tame calls, each address is in as many free blocks, runs of free pages, live blocks and held pages
together as in the regions that the memory manager was given, and that is at most one. -/
theorem memory_conserved (b : BootMemory) (hlow : b.memoryEnd ≤ 268435456) {calls : List HeapCall} {s : HeapState}
    (h : HeapRun b calls s) :
    ∃ bl pl, Linked 1 4 s.mem (⟨b.blocksHead, 0⟩ :: bl) ∧ Linked 4096 2 s.mem (⟨b.pagesHead, 0⟩ :: pl) ∧
      ∀ a, coverage (s.tracked bl pl) a = coverage (b.managed :: given calls) a ∧ coverage (s.tracked bl pl) a ≤ 1 := by
  obtain ⟨bl, pl, howned, htotal⟩ := h.total hlow
  refine ⟨bl, pl, howned.blocks.free.linked, howned.pages.free.linked, fun a => ⟨htotal a, ?_⟩⟩
  have hex := howned.exclusive a
  rw [Owned.coverage_all, Heap.coverage_heads] at hex
  rw [coverage_tracked]
  omega

/-- A block is live on four pages. -/
theorem heapRun_tiny : HeapRun tinyMemory [.kalloc 100] ⟨tinyBlock, [⟨0x203f9c, 100⟩], []⟩ :=
  HeapRun.step .init trivial tinyBlock_step

/-- Two blocks and a page are allocated, a block is freed and the page released: the four pages are still all there is. -/
theorem memory_conserved_tiny : ∃ m bl pl,
    HeapRun tinyMemory [.kalloc 100, .kalloc 100, .pageAllocate, .kfree ⟨0x203f9c, 100⟩, .pageRelease 0x202]
        ⟨m, [⟨0x203f34, 100⟩], []⟩ ∧
      Linked 1 4 m (⟨tinyMemory.blocksHead, 0⟩ :: bl) ∧ Linked 4096 2 m (⟨tinyMemory.pagesHead, 0⟩ :: pl) ∧
      ∀ a, coverage ((⟨m, [⟨0x203f34, 100⟩], []⟩ : HeapState).tracked bl pl) a = coverage [tinyMemory.managed] a ∧
        coverage ((⟨m, [⟨0x203f34, 100⟩], []⟩ : HeapState).tracked bl pl) a ≤ 1 := by
  obtain ⟨m, m', h₂, h₃, h₄, h₅⟩ := tinySteps
  have hheld := (heapRun_tiny.step (c := .kalloc 100) trivial h₂).step (c := .pageAllocate) trivial h₃
  have hfreed := (hheld.step (c := .kfree ⟨0x203f9c, 100⟩) tinyTaken_tame h₄).step (c := .pageRelease 0x202) trivial h₅
  obtain ⟨bl, pl, hconserved⟩ := memory_conserved tinyMemory (by decide) hfreed
  exact ⟨m', bl, pl, hfreed, hconserved⟩

/-! ## The reports -/

/-- A report prints the nodes of a list in order. -/
theorem printNodes_eq {α : Type} {line : Nat → α} {u w : Nat} {m : Mem} {l : List Region} :
    ∀ {fuel : Nat}, Linked u w m l → (∀ r ∈ l, 0 < r.addr) → l.length < fuel →
      printNodes line m fuel (firstAddr l) = .ok (l.map fun r => line r.addr) := by
  induction l with
  | nil =>
    intro fuel _ _ hfuel
    obtain ⟨fuel, rfl⟩ := Nat.exists_eq_add_of_lt hfuel
    simp [printNodes, firstAddr]
  | cons e es ih =>
    intro fuel h hpos hfuel
    obtain ⟨fuel, rfl⟩ := Nat.exists_eq_add_of_le' (Nat.succ_le_of_lt (Nat.zero_lt_of_lt hfuel))
    obtain ⟨he, hes⟩ := List.forall_mem_cons.1 hpos
    have hrest := ih h.2.2 hes (Nat.lt_of_succ_lt_succ hfuel)
    have hne : e.addr ≠ 0 := Nat.ne_of_gt he
    rw [firstAddr, printNodes, if_pos hne, h.2.1, hrest, bind_ok, List.map_cons]

/-- A sum over the nodes of a list is the size of the list, if that fits a word. -/
theorem addNodes_eq {count : Nat → Nat} {u w : Nat} {m : Mem} {l : List Region} :
    ∀ {fuel n : Nat}, Linked u w m l → (∀ r ∈ l, 0 < r.addr) → (∀ r ∈ l, count r.addr = r.size) → l.length < fuel →
      n + totalSize l < 4294967296 → addNodes count m fuel n (firstAddr l) = .ok (n + totalSize l) := by
  induction l with
  | nil =>
    intro fuel n _ _ _ hfuel _
    obtain ⟨fuel, rfl⟩ := Nat.exists_eq_add_of_lt hfuel
    simp [addNodes, firstAddr]
  | cons e es ih =>
    intro fuel n h hpos hcount hfuel hfit
    obtain ⟨fuel, rfl⟩ := Nat.exists_eq_add_of_le' (Nat.succ_le_of_lt (Nat.zero_lt_of_lt hfuel))
    obtain ⟨he, hes⟩ := List.forall_mem_cons.1 hpos
    obtain ⟨hce, hces⟩ := List.forall_mem_cons.1 hcount
    rw [totalSize_cons] at hfit
    have hmod : (n + e.size) % 4294967296 = n + e.size := Nat.mod_eq_of_lt (by omega)
    have hrest := ih h.2.2 hes hces (Nat.lt_of_succ_lt_succ hfuel) (n := n + e.size) (by omega)
    have hne : e.addr ≠ 0 := Nat.ne_of_gt he
    rw [firstAddr, addNodes, if_pos hne, h.2.1, hce, hmod, hrest, totalSize_cons, Nat.add_assoc]

/-- The regions given lie below 256 MB. -/
theorem HeapRun.given_low {b : BootMemory} {calls : List HeapCall} {s : HeapState} (h : HeapRun b calls s) :
    ∀ r ∈ given calls, r.stop ≤ 268435456 := by
  induction h with
  | init => simp [given]
  | @step calls s s' c _ _ hs ih =>
    rw [given_concat]
    intro r hr
    rcases List.mem_append.1 hr with hr | hr
    · exact ih r hr
    · cases hs with
      | memFree hu _ =>
        rw [HeapCall.given, Option.toList_some, List.mem_singleton] at hr
        rw [hr]
        exact hu.2.2.1
      | _ => exact absurd hr (by simp [HeapCall.given])

theorem totalSize_pages (held : List Nat) : totalSize (held.map pageRegion) = 4096 * held.length := by
  induction held with
  | nil => rfl
  | cons page held ih =>
    rw [List.map_cons, totalSize_cons, ih, List.length_cons, Nat.mul_add, Nat.add_comm]
    rfl

/-- What is tracked lies below 256 MB. -/
theorem Owned.tracked_low {v : HeapVars} {s : HeapState} {bl pl : List Region} (h : Owned v s.mem bl pl s.live s.held) :
    ∀ r ∈ s.tracked bl pl, r.stop ≤ 268435456 := by
  intro r hr
  simp only [HeapState.tracked, List.mem_append, List.mem_map] at hr
  rcases hr with ((hr | hr) | ⟨d, hd, rfl⟩) | ⟨page, hp, rfl⟩
  · exact h.blocks.low r hr
  · exact h.pages.low r hr
  · have hin := h.inside d hd
    simp only [Block.region, Region.stop]
    omega
  · have hlt := (h.page page hp).2
    simp only [pageRegion, Region.stop]
    omega

/-- What is free, with what is in use, is what the memory manager was given. -/
theorem HeapRun.free_size {b : BootMemory} (hlow : b.memoryEnd ≤ 268435456) {calls : List HeapCall} {s : HeapState}
    (h : HeapRun b calls s) : ∃ bl pl, Owned b.toHeapVars s.mem bl pl s.live s.held ∧
      totalSize pl + totalSize bl + totalSize (s.live.map Block.region) + 4096 * s.held.length =
        b.managed.size + totalSize (given calls) ∧ totalSize pl + totalSize bl ≤ 268435456 := by
  obtain ⟨bl, pl, howned, htotal⟩ := h.total hlow
  have hmanaged : b.managed.stop ≤ 268435456 := by
    have hpage := b.onePage
    simp only [BootMemory.managed, BootMemory.pageCount, Region.stop]
    omega
  have hsize := totalSize_congr howned.tracked_low (List.forall_mem_cons.2 ⟨hmanaged, h.given_low⟩) htotal
  have hsum : totalSize (s.tracked bl pl) ≤ 268435456 := by
    rw [← sum_coverage howned.tracked_low]
    have hle : ∀ a ∈ Finset.range 268435456, coverage (s.tracked bl pl) a ≤ 1 := fun a _ => by
      have hex := howned.exclusive a
      rw [Owned.coverage_all, Heap.coverage_heads] at hex
      rw [coverage_tracked]
      omega
    exact Nat.le_trans (Finset.sum_le_sum hle) (by simp)
  simp only [HeapState.tracked, totalSize_append, totalSize_cons, totalSize_pages] at hsize hsum
  exact ⟨bl, pl, howned, by omega, by omega⟩

theorem totalSize_head (head : Nat) (l : List Region) : totalSize (⟨head, 0⟩ :: l) = totalSize l := by
  rw [totalSize_cons, Nat.zero_add]

/-- The second number of `show_memory`. -/
theorem allMemory_eq {memoryEnd : Nat} (hlow : memoryEnd ≤ 268435456) :
    (toLong (kallocInitPages memoryEnd * pageSize % 4294967296)).tdiv 1024 = memoryEnd / 4096 * 4 := by
  have hfit : memoryEnd / 4096 * 4096 < 2147483648 := by omega
  have hdiv : memoryEnd / 4096 * 4096 / 1024 = memoryEnd / 4096 * 4 := by omega
  rw [kallocInitPages, pageSize, Nat.mod_eq_of_lt (by omega), toLong, if_pos hfit]
  have htdiv : ((memoryEnd / 4096 * 4096 : Nat) : Int).tdiv 1024 = (memoryEnd / 4096 * 4096 / 1024 : Nat) := rfl
  rw [htdiv, hdiv]
  norm_cast

/-- In every state reached by tame calls, `printblocks` and `printpages` print the head and then the free blocks and
runs in ascending order, and `show_memory` prints as free what the memory manager was given less what is in use. -/
theorem memory_reports (b : BootMemory) (hlow : b.memoryEnd ≤ 268435456) (hpages : 0 < b.pagesHead) (hblocks : 0 < b.blocksHead)
    {calls : List HeapCall} {s : HeapState} (h : HeapRun b calls s) :
    ∃ bl pl, Canonical bl ∧ Canonical pl ∧
      (∃ lines, Comes (fun fuel => printblocks fuel b.toHeapVars s.mem) (.ok lines) ∧
        lines.map (fun l => (⟨l.start, l.size⟩ : Region)) = ⟨b.blocksHead, 0⟩ :: bl) ∧
      (∃ lines, Comes (fun fuel => printpages fuel b.toHeapVars s.mem) (.ok lines) ∧
        lines.map (fun l => (l.start, l.length)) = (b.pagesHead / 4096, 0) :: pl.map fun r => (r.addr / 4096, r.size / 4096)) ∧
      ∃ free, Comes (fun fuel => showMemory fuel b.toHeapVars s.mem (kallocInitPages b.memoryEnd))
          (.ok (free / 1024, b.memoryEnd / 4096 * 4)) ∧
        free = totalSize pl + totalSize bl ∧
        free + totalSize (s.live.map Block.region) + 4096 * s.held.length = b.managed.size + totalSize (given calls) := by
  obtain ⟨bl, pl, howned, hfree, hsum⟩ := h.free_size hlow
  have hbl := howned.blocks
  have hpl := howned.pages
  have hbpos : ∀ r ∈ (⟨b.blocksHead, 0⟩ : Region) :: bl, 0 < r.addr := List.forall_mem_cons.2 ⟨hblocks, hbl.free.pos⟩
  have hppos : ∀ r ∈ (⟨b.pagesHead, 0⟩ : Region) :: pl, 0 < r.addr := List.forall_mem_cons.2 ⟨hpages, hpl.free.pos⟩
  have hbcount : ∀ r ∈ (⟨b.blocksHead, 0⟩ : Region) :: bl, s.mem.size r.addr = r.size := fun r hr => by
    have hcount := hbl.free.linked.count r hr
    rwa [Nat.one_mul] at hcount
  have hpcount : ∀ r ∈ (⟨b.pagesHead, 0⟩ : Region) :: pl, s.mem.pages r.addr * pageSize = r.size := fun r hr => by
    have hcount := hpl.free.linked.count r hr
    rwa [Nat.mul_comm] at hcount
  refine ⟨bl, pl, hbl.free.canonical, hpl.free.canonical, ⟨_, ⟨bl.length + 2, fun fuel hfuel =>
    printNodes_eq hbl.free.linked hbpos hfuel⟩, ?_⟩, ⟨_, ⟨pl.length + 2, fun fuel hfuel =>
    printNodes_eq hpl.free.linked hppos hfuel⟩, ?_⟩, totalSize pl + totalSize bl, ?_, rfl, hfree⟩
  · rw [List.map_map]
    have hline : ∀ r ∈ (⟨b.blocksHead, 0⟩ : Region) :: bl, (⟨r.addr, s.mem.size r.addr⟩ : Region) = id r := fun r hr => by
      rw [hbcount r hr]
      rfl
    exact (List.map_congr_left hline).trans (List.map_id _)
  · rw [List.map_map]
    have hline : ∀ r ∈ (⟨b.pagesHead, 0⟩ : Region) :: pl, (addrToPage r.addr, s.mem.pages r.addr) = (r.addr / 4096, r.size / 4096) :=
      fun r hr => by
        have hcount := hpcount r hr
        have haddr : r.addr < 268435456 := by
          rcases List.mem_cons.1 hr with rfl | hr
          · have hheads := b.pagesLow
            dsimp only
            omega
          · have hstop := hpl.low r hr
            have hroom := hpl.free.room r hr
            simp only [Region.stop] at hstop
            omega
        rw [addrToPage_eq haddr, ← hcount, pageSize, Nat.mul_div_cancel _ (by decide)]
    refine (List.map_congr_left hline).trans ?_
    simp
  · refine ⟨max (bl.length + 2) (pl.length + 2), fun fuel hfuel => ?_⟩
    have hbfit : totalSize pl + totalSize (⟨b.blocksHead, 0⟩ :: bl) < 4294967296 := by
      rw [totalSize_head]
      omega
    have hpfit : 0 + totalSize (⟨b.pagesHead, 0⟩ :: pl) < 4294967296 := by
      rw [totalSize_head]
      omega
    have hb := addNodes_eq hbl.free.linked hbpos hbcount
      (Nat.lt_of_lt_of_le (Nat.lt_succ_self _) (Nat.le_trans (Nat.le_max_left _ _) hfuel)) hbfit
    have hp := @addNodes_eq (fun p => s.mem.pages p * pageSize) _ _ _ _ fuel 0 hpl.free.linked hppos hpcount
      (Nat.lt_of_lt_of_le (Nat.lt_succ_self _) (Nat.le_trans (Nat.le_max_right _ _) hfuel)) hpfit
    rw [firstAddr, totalSize_head] at hb hp
    rw [Nat.zero_add] at hp
    dsimp only
    rw [showMemory, hp, bind_ok, hb, bind_ok, allMemory_eq hlow]

/-- On four pages with a block of 100 bytes. -/
theorem memory_reports_tiny : ∃ free,
    Comes (fun fuel => showMemory fuel tinyMemory.toHeapVars tinyBlock (kallocInitPages tinyMemory.memoryEnd))
      (.ok (free / 1024, tinyMemory.memoryEnd / 4096 * 4)) ∧ free = 16280 := by
  obtain ⟨bl, pl, -, -, -, -, free, hshow, -, hfree⟩ := memory_reports tinyMemory (by decide) (by decide) (by decide) heapRun_tiny
  have hsum : free + 104 + 4096 * 0 = 16384 := hfree
  exact ⟨free, hshow, by omega⟩

end BootPerl
