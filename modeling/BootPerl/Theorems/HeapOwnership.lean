import BootPerl.Lemmas.Ownership
import BootPerl.Theorems.PageAllocator

/-!
# Who owns the heap, over whole runs

From `kalloc_init` on, over every run of calls of the memory manager. The live blocks, the held pages and the two lists stay
disjoint as long as no call frees what the memory manager frees wrongly: a region whose node does not fit it and the free block
it touches, or one in which `mem_free` finds a whole page, since the page goes to the page list and stays on the block list.
-/

namespace BootPerl

open Mem Outcome

/-- The memory, the live blocks and the pages held. -/
structure HeapState where
  mem : Mem
  live : List Block
  held : List Nat

/-- The calls of the memory manager, and a byte written by its owner. -/
inductive HeapCall where
  | kalloc (n : Nat)
  | kfree (b : Block)
  | memFree (r : Region)
  | pageAllocate
  | pageAllocateConsecutive (count : Nat)
  | pageRelease (page : Nat)
  | write (a : Nat) (c : UInt8)

/-- The region lies below 256 MB and nobody owns it: no caller, neither list and no list head. -/
def Unowned (v : HeapVars) (s : HeapState) (r : Region) : Prop :=
  0 < r.addr ∧ 0 < r.size ∧ r.stop ≤ 268435456 ∧ ∀ bl pl, BlockList v s.mem bl → PageList v s.mem pl →
    ∀ a, r.Has a → coverage (v.heads ++ bl ++ pl ++ s.live.map Block.region ++ s.held.map pageRegion) a = 0

/-- What each call does to the state. A call that panics has no next state. -/
inductive HeapStep (v : HeapVars) (s : HeapState) : HeapCall → HeapState → Prop where
  | kalloc {m : Mem} {n ptr : Nat} : (n + 4 + 4095) / 4096 < 65536 →
      Comes (fun fuel => BootPerl.kalloc fuel v s.mem n) (.ok (m, ptr)) → HeapStep v s (.kalloc n) ⟨m, ⟨ptr, n⟩ :: s.live, s.held⟩
  | kfree {m : Mem} {b : Block} : b ∈ s.live → Comes (fun fuel => BootPerl.kfree fuel v s.mem b.ptr) (.ok m) →
      HeapStep v s (.kfree b) ⟨m, s.live.erase b, s.held⟩
  | memFree {m : Mem} {r : Region} : Unowned v s r →
      Comes (fun fuel => BootPerl.memFree fuel v s.mem r.addr r.size true) (.ok m) →
      HeapStep v s (.memFree r) ⟨m, s.live, s.held⟩
  | pageAllocate {m : Mem} {page : Nat} : BootPerl.pageAllocate v s.mem = .ok (m, page) →
      HeapStep v s .pageAllocate ⟨m, s.live, page :: s.held⟩
  | pageAllocateConsecutive {m : Mem} {count page : Nat} : 0 < count → count < 65536 →
      Comes (fun fuel => BootPerl.pageAllocateConsecutive fuel v s.mem count) (.ok (m, page)) →
      HeapStep v s (.pageAllocateConsecutive count) ⟨m, s.live, List.range' page count ++ s.held⟩
  | pageRelease {m : Mem} {page : Nat} : page ∈ s.held →
      Comes (fun fuel => BootPerl.pageRelease fuel v s.mem page) (.ok m) →
      HeapStep v s (.pageRelease page) ⟨m, s.live, s.held.erase page⟩
  | writeBlock {b : Block} {a : Nat} {c : UInt8} : b ∈ s.live → b.ptr ≤ a → a < b.ptr + b.size →
      HeapStep v s (.write a c) ⟨s.mem.set a c, s.live, s.held⟩
  | writePage {page a : Nat} {c : UInt8} : page ∈ s.held → (pageRegion page).Has a →
      HeapStep v s (.write a c) ⟨s.mem.set a c, s.live, s.held⟩

/-- A region that is tame to free: with the free block directly above it, it has room for a node, and `mem_free` finds no whole page
in it. A page that it does find goes to the page list and stays in the block: on four pages `kalloc(12000)` gets such a region. -/
def TameFree (v : HeapVars) (m : Mem) (r : Region) : Prop :=
  ∀ bl, BlockList v m bl → 8 ≤ (joined r (after r.addr bl)).size ∧ wholePages r.addr (readBack v m bl r.addr r.size) = 0

/-- A call that frees nothing, or a region that is tame to free. -/
def Tame (v : HeapVars) (s : HeapState) : HeapCall → Prop
  | .kfree b => TameFree v s.mem b.region
  | .memFree r => TameFree v s.mem r
  | _ => True

/-- The state after `kalloc_init`: nothing is allocated. -/
def BootMemory.HeapInit (b : BootMemory) (s : HeapState) : Prop := s = ⟨b.initial, [], []⟩

/-- Any call. -/
def BootMemory.heapStep (b : BootMemory) (s s' : HeapState) : Prop := ∃ c, HeapStep b.toHeapVars s c s'

/-- A tame call. -/
def BootMemory.tameStep (b : BootMemory) (s s' : HeapState) : Prop := ∃ c, Tame b.toHeapVars s c ∧ HeapStep b.toHeapVars s c s'

/-- `kalloc_init` leaves an empty block list and one run of all the pages. -/
theorem BootMemory.heap_initial (b : BootMemory) (hlow : b.managed.stop ≤ 268435456) :
    Heap b.toHeapVars b.initial [] [b.managed] := by
  have hpl := b.pageList_initial hlow
  have habove := b.aboveKernel
  have hheads := b.headsApart
  have hstart : Mem.next (b.mem.setNext b.pagesHead b.memoryStart) b.pagesHead = b.memoryStart :=
    next_setNext (by have := b.onePage; have := b.addressable; omega)
  -- `kalloc_init` stores to the other head and to the first page only
  have hkeep : ∀ k, k + 4 ≤ 8 → b.initial.load (b.blocksHead + k) 4 = b.mem.load (b.blocksHead + k) 4 := by
    intro k hk
    simp only [BootMemory.initial, kallocInit, hstart]
    have hagain : Mem.next (Mem.setPages (b.mem.setNext b.pagesHead b.memoryStart) b.memoryStart
        ((b.memoryEnd + 4294967296 - b.memoryStart) % 4294967296 / pageSize)) b.pagesHead = b.memoryStart :=
      (load_store_of_disjoint (by omega)).trans hstart
    rw [hagain, setNext, load_store_of_disjoint (by omega), setPages, load_store_of_disjoint (by omega), setNext,
      load_store_of_disjoint (by omega)]
  have hbl : BlockList b.toHeapVars b.initial [] :=
    ⟨FreeList.nil ((hkeep 0 (by decide)).trans b.blocksZero.1) ((hkeep 4 (by decide)).trans b.blocksZero.2), by simp⟩
  refine ⟨hbl, hpl, fun a => ?_⟩
  simp only [HeapVars.heads, BootMemory.managed, List.append_nil, List.cons_append, List.nil_append, coverage_cons,
    coverage_nil, Region.ind]
  split_ifs <;> omega

/-- Some lists are owned together with what the callers hold. -/
def HeapInv (v : HeapVars) (s : HeapState) : Prop := ∃ bl pl, Owned v s.mem bl pl s.live s.held

namespace HeapInv
variable {v : HeapVars} {s s' : HeapState}

theorem init {b : BootMemory} (hlow : b.managed.stop ≤ 268435456) {s : HeapState} (h : b.HeapInit s) :
    HeapInv b.toHeapVars s := by
  subst h
  obtain ⟨hbl, hpl, hex⟩ := b.heap_initial hlow
  refine ⟨[], [b.managed], hbl, hpl, fun a => ?_, by simp, by simp, by simp⟩
  rw [Owned.coverage_all]
  exact hex a

theorem step {c : HeapCall} (h : HeapInv v s) (hc : Tame v s c) (hs : HeapStep v s c s') : HeapInv v s' := by
  obtain ⟨bl, pl, h⟩ := h
  cases hs with
  | kalloc hn hr =>
    obtain ⟨bl', pl', howned, -, -⟩ := h.kalloc (add_four_le_of_pagesFor hn) hr
    exact ⟨bl', pl', howned⟩
  | kfree hb hr =>
    obtain ⟨hroom, hnone⟩ := hc bl h.blocks
    exact ⟨_, _, h.kfree hb hroom hnone hr⟩
  | memFree hu hr =>
    obtain ⟨hroom, hnone⟩ := hc bl h.blocks
    obtain ⟨h0, hsize, hlow, hnobody⟩ := hu
    exact ⟨_, _, h.memFree h0 hsize hlow (hnobody bl pl h.blocks h.pages) hroom hnone hr⟩
  | @pageAllocate m page hr =>
    obtain ⟨pl', hheap, hcov, h0, hlow, hf⟩ := h.heap.pageAllocate hr
    exact ⟨bl, pl', h.takePages [page] hheap (fun a => by simpa using hcov a) (by simp; omega) hf⟩
  | @pageAllocateConsecutive m count page h0 _ hr =>
    obtain ⟨pl', hheap, hcov, hp, hlow, hf⟩ := h.heap.pageAllocateConsecutive h0 hr
    refine ⟨bl, pl', h.takePages (List.range' page count) hheap (fun a => ?_) (fun q hq => ?_) hf⟩
    · rw [coverage_consecutive]
      exact hcov a
    · rw [List.mem_range'_1] at hq
      omega
  | pageRelease hp hr => exact ⟨_, _, h.pageRelease hp hr⟩
  | writeBlock hb h1 h2 => exact ⟨bl, pl, h.write_payload hb (Mem.Frame.set ⟨h1, h2⟩)⟩
  | @writePage page a c hp ha =>
    have hex := h.exclusive a
    have hheld := coverage_pos_of_mem (List.mem_map_of_mem hp) ha
    rw [Owned.coverage_all] at hex
    refine ⟨bl, pl, h.write (by omega) fun d hd hda => ?_⟩
    have hpos : 0 < coverage (s.live.map Block.region) a := coverage_pos_of_mem (List.mem_map_of_mem hd) (by
      simp only [Region.Has, Block.region]
      omega)
    omega

/-- Every state reached by tame calls. -/
theorem of_reach {b : BootMemory} (hlow : b.memoryEnd ≤ 268435456) (h : Reach b.HeapInit b.tameStep s) :
    HeapInv b.toHeapVars s := by
  have hlow' : b.managed.stop ≤ 268435456 := by
    have := b.onePage
    simp only [BootMemory.managed, BootMemory.pageCount, Region.stop]
    omega
  refine h.invariant (I := HeapInv b.toHeapVars) (fun _ hs => HeapInv.init hlow' hs) ?_
  rintro s s' hi ⟨_, hc, hs⟩
  exact hi.step hc hs

end HeapInv

/-- In every state reached by tame calls, the live blocks, the held pages, the blocks of the block list and the
runs of the page list are pairwise disjoint. -/
theorem heap_ownership (b : BootMemory) (hlow : b.memoryEnd ≤ 268435456) {s : HeapState}
    (h : Reach b.HeapInit b.tameStep s) :
    ∃ bl pl, Linked 1 4 s.mem (⟨b.blocksHead, 0⟩ :: bl) ∧ Linked 4096 2 s.mem (⟨b.pagesHead, 0⟩ :: pl) ∧
      (s.live.map Block.region ++ s.held.map pageRegion ++ bl ++ pl).Pairwise Region.Disjoint := by
  obtain ⟨bl, pl, hown⟩ := HeapInv.of_reach hlow h
  refine ⟨bl, pl, hown.blocks.free.linked, hown.pages.free.linked, Exclusive.pairwise fun a => ?_⟩
  have := hown.exclusive a
  simp only [coverage_append] at this ⊢
  omega

/-- The memory after `kalloc(100)` on four pages: the last page is a block, cut at the top. -/
def tinyBlock : Mem :=
  (kallocSplit (blockSplicePrev (Mem.setNext (takePages tinyMemory.initial 0x110000 0x200000 1) 0x203000 0) 0x203000 0x110008 4096)
    100 104 0x110008 0x203000).1

theorem tinyBlock_step :
    HeapStep tinyMemory.toHeapVars ⟨tinyMemory.initial, [], []⟩ (.kalloc 100) ⟨tinyBlock, [⟨0x203f9c, 100⟩], []⟩ := by
  have hcall : kalloc 3 tinyMemory.toHeapVars tinyMemory.initial 100 = .ok (tinyBlock, 0x203f9c) := rfl
  exact HeapStep.kalloc (by decide) ((settles_kalloc _ _ _).comes hcall)

theorem tinyBlock_reached : Reach tinyMemory.HeapInit tinyMemory.tameStep ⟨tinyBlock, [⟨0x203f9c, 100⟩], []⟩ := by
  have hinit : Reach tinyMemory.HeapInit tinyMemory.tameStep ⟨tinyMemory.initial, [], []⟩ := Reach.init rfl
  exact hinit.step ⟨.kalloc 100, trivial, tinyBlock_step⟩

/-- The memory after a second `kalloc(100)`: both blocks lie at the top of the last page. -/
def tinyBlocks : Mem := (kallocSplit tinyBlock 100 104 0x110008 0x203000).1

/-- The page below that of the two blocks is allocated. -/
def tinyTaken : Mem := takePages tinyBlocks 0x110000 0x200000 1

/-- What is left below the two blocks is the one free block, and it does not touch the first of them. -/
theorem tinyTaken_tame : TameFree tinyMemory.toHeapVars tinyTaken (Block.region ⟨0x203f9c, 100⟩) := by
  intro bl hbl
  have hlinked : Linked 1 4 tinyTaken [⟨0x110008, 0⟩, ⟨0x203000, 0xf30⟩] := ⟨rfl, rfl, rfl, rfl, trivial⟩
  obtain rfl : bl = [⟨0x203000, 0xf30⟩] := hbl.free.linked.unique hlinked hbl.free.pos (by simp)
  exact ⟨by decide, by decide⟩

/-- A second block and a page are allocated; the first block is freed, the page released. -/
theorem tinySteps : ∃ m m',
    HeapStep tinyMemory.toHeapVars ⟨tinyBlock, [⟨0x203f9c, 100⟩], []⟩ (.kalloc 100)
        ⟨tinyBlocks, [⟨0x203f34, 100⟩, ⟨0x203f9c, 100⟩], []⟩ ∧
      HeapStep tinyMemory.toHeapVars ⟨tinyBlocks, [⟨0x203f34, 100⟩, ⟨0x203f9c, 100⟩], []⟩ .pageAllocate
        ⟨tinyTaken, [⟨0x203f34, 100⟩, ⟨0x203f9c, 100⟩], [0x202]⟩ ∧
      HeapStep tinyMemory.toHeapVars ⟨tinyTaken, [⟨0x203f34, 100⟩, ⟨0x203f9c, 100⟩], [0x202]⟩ (.kfree ⟨0x203f9c, 100⟩)
        ⟨m, [⟨0x203f34, 100⟩], [0x202]⟩ ∧
      HeapStep tinyMemory.toHeapVars ⟨m, [⟨0x203f34, 100⟩], [0x202]⟩ (.pageRelease 0x202) ⟨m', [⟨0x203f34, 100⟩], []⟩ := by
  have h₂ : kalloc 2 tinyMemory.toHeapVars tinyBlock 100 = .ok (tinyBlocks, 0x203f34) := rfl
  have h₃ : pageAllocate tinyMemory.toHeapVars tinyBlocks = .ok (tinyTaken, 0x202) := rfl
  obtain ⟨m, m', h₄, h₅⟩ : ∃ m m', kfree 3 tinyMemory.toHeapVars tinyTaken 0x203f9c = .ok m ∧
      pageRelease 3 tinyMemory.toHeapVars m 0x202 = .ok m' := ⟨_, _, rfl, rfl⟩
  refine ⟨m, m', ?_, ?_, ?_, ?_⟩
  · exact HeapStep.kalloc (by decide) ((settles_kalloc _ _ _).comes h₂)
  · exact HeapStep.pageAllocate h₃
  · exact HeapStep.kfree (by decide) ((settles_kfree _ _ _).comes h₄)
  · exact HeapStep.pageRelease List.mem_cons_self ((settles_pageRelease _ _ _).comes h₅)

/-- Two blocks and a page are allocated, a block is freed and the page released. -/
theorem heap_ownership_tiny : ∃ m bl pl, Reach tinyMemory.HeapInit tinyMemory.tameStep ⟨m, [⟨0x203f34, 100⟩], []⟩ ∧
    Linked 1 4 m (⟨tinyMemory.blocksHead, 0⟩ :: bl) ∧ Linked 4096 2 m (⟨tinyMemory.pagesHead, 0⟩ :: pl) ∧
      (([⟨0x203f34, 100⟩] : List Block).map Block.region ++ ([] : List Nat).map pageRegion ++ bl ++ pl).Pairwise
        Region.Disjoint := by
  obtain ⟨m, m', h₂, h₃, h₄, h₅⟩ := tinySteps
  have hheld := (tinyBlock_reached.step ⟨.kalloc 100, trivial, h₂⟩).step ⟨.pageAllocate, trivial, h₃⟩
  have hfreed := (hheld.step ⟨.kfree ⟨0x203f9c, 100⟩, tinyTaken_tame, h₄⟩).step ⟨.pageRelease 0x202, trivial, h₅⟩
  obtain ⟨bl, pl, hapart⟩ := heap_ownership tinyMemory (by decide) hfreed
  exact ⟨m', bl, pl, hfreed, hapart⟩

/-- On four pages: `kalloc(12000)`, `kfree` of it, two pages taken, `kalloc(8000)`. The addresses and pages returned. -/
def returnedTwice : Outcome (Mem × Nat × Nat × Nat × Nat) :=
  (kalloc 4 tinyMemory.toHeapVars tinyMemory.initial 12000).bind fun (m, ptr) =>
    (kfree 4 tinyMemory.toHeapVars m ptr).bind fun m =>
      (pageAllocate tinyMemory.toHeapVars m).bind fun (m, first) =>
        (pageAllocate tinyMemory.toHeapVars m).bind fun (m, second) =>
          (kalloc 4 tinyMemory.toHeapVars m 8000).bind fun (m, again) => .ok (m, ptr, first, second, again)

/-- What the calls return, without the memory. -/
def answers : Outcome (Mem × Nat × Nat × Nat × Nat) → Option (Nat × Nat × Nat × Nat)
  | .ok (_, r) => some r
  | _ => none

theorem answers_eq : answers returnedTwice = some (0x201120, 0x200, 0x202, 0x2020c0) := by decide +kernel

/-- The page that `kfree` returns stays in the free block: it is handed out as a page and, later, as part of a block. -/
theorem heap_ownership_false : ∃ s, Reach tinyMemory.HeapInit tinyMemory.heapStep s ∧
    s.live = [⟨0x2020c0, 8000⟩] ∧ s.held = [0x202, 0x200] ∧
      ∀ bl pl, ¬(s.live.map Block.region ++ s.held.map pageRegion ++ bl ++ pl).Pairwise Region.Disjoint := by
  have hrun := answers_eq
  cases hret : returnedTwice with
  | panic msg => rw [hret] at hrun; cases hrun
  | running => rw [hret] at hrun; cases hrun
  | ok r =>
    obtain ⟨m, ptr, first, second, again⟩ := r
    rw [hret] at hrun
    simp only [answers, Option.some.injEq, Prod.mk.injEq] at hrun
    obtain ⟨rfl, rfl, rfl, rfl⟩ := hrun
    obtain ⟨⟨m₁, p₁⟩, h₁, hret⟩ := bind_eq_ok hret
    obtain ⟨m₂, h₂, hret⟩ := bind_eq_ok hret
    obtain ⟨⟨m₃, p₃⟩, h₃, hret⟩ := bind_eq_ok hret
    obtain ⟨⟨m₄, p₄⟩, h₄, hret⟩ := bind_eq_ok hret
    obtain ⟨⟨m₅, p₅⟩, h₅, hret⟩ := bind_eq_ok hret
    simp only [ok.injEq, Prod.mk.injEq] at hret
    obtain ⟨-, rfl, rfl, rfl, rfl⟩ := hret
    have r₀ : Reach tinyMemory.HeapInit tinyMemory.heapStep ⟨tinyMemory.initial, [], []⟩ := Reach.init rfl
    have r₁ := r₀.step ⟨_, HeapStep.kalloc (by decide) ((settles_kalloc _ _ _).comes h₁)⟩
    have r₂ := r₁.step ⟨_, HeapStep.kfree List.mem_cons_self ((settles_kfree _ _ _).comes h₂)⟩
    have r₃ := r₂.step ⟨_, HeapStep.pageAllocate h₃⟩
    have r₄ := r₃.step ⟨_, HeapStep.pageAllocate h₄⟩
    have r₅ := r₄.step ⟨_, HeapStep.kalloc (by decide) ((settles_kalloc _ _ _).comes h₅)⟩
    refine ⟨_, r₅, by simp, rfl, fun bl pl hp => ?_⟩
    have hdisjoint : Region.Disjoint (Block.region ⟨0x2020c0, 8000⟩) (pageRegion 0x202) :=
      List.rel_of_pairwise_cons hp (List.mem_cons_self)
    exact hdisjoint 0x2020bc (by decide)

end BootPerl
