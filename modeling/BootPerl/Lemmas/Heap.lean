import BootPerl.Lemmas.Blocks
import BootPerl.Lib.FirstFit

/-!
# The two lists together

`Heap` says that both lists are well formed and that no address is on both, or in a list head. `kalloc` moves memory from the
free lists to the caller, `mem_free` moves it back; each statement counts what the lists cover before and after, and says that
only memory of the free lists and of the heads (and, for `mem_free`, of the region freed) is stored to.
-/

namespace BootPerl

open Mem Outcome

/-- Both lists are well formed, and no address is on both, twice on one, or in a list head. -/
structure Heap (v : HeapVars) (m : Mem) (bl pl : List Region) : Prop where
  blocks : BlockList v m bl
  pages : PageList v m pl
  exclusive : Exclusive (v.heads ++ bl ++ pl)

/-- The same, where blocks may lie anywhere in the address space with gaps of at least `g` between them: with none they may touch. -/
structure SpacedHeap (g : Nat) (v : HeapVars) (m : Mem) (bl pl : List Region) : Prop where
  blocks : SpacedList g 1 4 m v.blocksHead bl
  pages : PageList v m pl
  exclusive : Exclusive (v.heads ++ bl ++ pl)

/-- `page_allocate_consecutive` panics, or takes pages first fit; it stores into the free pages and the head only. -/
theorem PageList.firstFit_comes {v : HeapVars} {m : Mem} {pl : List Region} (h : PageList v m pl) {count : Nat} (h0 : 0 < count) :
    ((∀ r ∈ pl, r.size < 4096 * count) ∧
        Comes (fun fuel => pageAllocateConsecutive fuel v m count) (.panic (outOfPages pl))) ∨
      ∃ t pl' m' page, FirstFit (4096 * count) pl t pl' ∧
        Comes (fun fuel => pageAllocateConsecutive fuel v m count) (.ok (m', page)) ∧ t = ⟨page * 4096, 4096 * count⟩ ∧
        0 < page ∧ page * 4096 + 4096 * count ≤ 268435456 ∧ PageList v m' pl' ∧
        Mem.Frame (covered (⟨v.pagesHead, 8⟩ :: pl)) m m' := by
  rcases h.consecutive_comes h0 with hnone | ⟨pre, f, post, m', rfl, hpre, hk, hok, hpl', hf⟩
  · exact Or.inl hnone
  · have hmem : f ∈ pre ++ f :: post := by simp
    have hal := h.aligned f hmem
    have hsz := h.pages_eq hmem
    have haddr := h.addr_ge hmem
    have hstop := h.low f hmem
    simp only [Region.stop] at hstop
    have htop : top (4096 * count) f = ⟨(top (4096 * count) f).addr / 4096 * 4096, 4096 * count⟩ := by
      simp only [top, Region.mk.injEq, and_true]
      omega
    refine Or.inr ⟨_, _, m', _, FirstFit.intro hpre hk, hok, htop, ?_, ?_, hpl', hf.mono (nodeBytes_covered h.free.room)⟩
    all_goals
      simp only [top]
      omega

namespace SpacedHeap
variable {g : Nat} {v : HeapVars} {m m' : Mem} {bl pl : List Region}

/-- How often the heads, the blocks and the page runs cover an address. -/
theorem coverage_heads (v : HeapVars) (bl pl : List Region) (a : Nat) :
    coverage (v.heads ++ bl ++ pl) a =
      Region.ind ⟨v.pagesHead, 8⟩ a + Region.ind ⟨v.blocksHead, 8⟩ a + coverage bl a + coverage pl a := by
  simp only [HeapVars.heads, coverage_append, coverage_cons, coverage_nil]
  omega

/-- A step that stores outside the heads and the free lists keeps the heap. -/
theorem frame (h : SpacedHeap g v m bl pl) {X : Set Nat} (hf : Mem.Frame X m m')
    (hX : ∀ a ∈ covered (v.heads ++ bl ++ pl), a ∉ X) : SpacedHeap g v m' bl pl := by
  have hin : ∀ {r : Region}, r ∈ v.heads ++ bl ++ pl → ∀ a, r.Has a → a ∉ X :=
    fun hr a ha => hX a (coverage_pos_of_mem hr ha)
  refine ⟨h.blocks.frame (Nat.le_refl 4) hf fun r hr => hin ?_, h.pages.frame hf fun r hr => hin ?_, h.exclusive⟩
  · rcases List.mem_cons.1 hr with rfl | hr
    · simp [HeapVars.heads]
    · simp [hr]
  · rcases List.mem_cons.1 hr with rfl | hr
    · simp [HeapVars.heads]
    · simp [hr]

/-- A region put on the block list, while the page list stays. -/
theorem insertBlock (hg : g ≤ 1) (h : SpacedHeap g v m bl pl) {cur n : Nat} (hn : 0 < n)
    (hjoin : 8 ≤ (joined ⟨cur, n⟩ (after cur bl)).size) (hroom : ∀ r ∈ insert ⟨cur, n⟩ bl, 8 ≤ r.size) (h0 : 0 < cur)
    (hend : cur + n ≤ 4294967296) (hex : Exclusive (⟨cur, n⟩ :: (v.heads ++ bl ++ pl))) :
    ∃ m', (∀ fuel, bl.length < fuel → ∀ freepages, memFree fuel v m cur n freepages =
        if freepages then returnPages fuel v m' cur else .ok m') ∧
      SpacedHeap g v m' (insert ⟨cur, n⟩ bl) pl ∧ m'.size cur = readBack v m bl cur n ∧
      Mem.Frame (covered (⟨v.blocksHead, 8⟩ :: ⟨cur, n⟩ :: bl)) m m' := by
  have hcov : ∀ a, Region.ind ⟨cur, n⟩ a + coverage (v.heads ++ bl ++ pl) a ≤ 1 := hex
  have hap : ∀ r ∈ v.heads ++ bl ++ pl, 0 < r.size → Region.Apart ⟨cur, n⟩ r := apart_of_cover hex hn
  have hhead : Region.Apart ⟨v.blocksHead, 8⟩ ⟨cur, n⟩ := Or.symm (hap _ (by simp [HeapVars.heads]) (show 0 < 8 by decide))
  have hapb : ∀ r ∈ bl, Region.Apart ⟨cur, n⟩ r := fun r hr =>
    hap r (by simp [hr]) (by have := h.blocks.room r hr; omega)
  obtain ⟨m', hres, hbl, hread, hf⟩ := h.blocks.memFree_insert hg hn hjoin hroom h0 hend hapb hhead
  have hf' := hf.mono (nodeBytes_covered_insert (x := ⟨cur, n⟩) h.blocks.room hjoin)
  refine ⟨m', hres, ⟨hbl, h.pages.frame hf' fun r hr a ha hc => ?_, fun a => ?_⟩, hread, hf'⟩
  · have h1 : 0 < coverage (⟨v.pagesHead, 8⟩ :: pl) a := coverage_pos_of_mem hr ha
    have h2 := hcov a
    rw [mem_covered] at hc
    rw [coverage_heads] at h2
    simp only [coverage_cons] at h1 hc
    omega
  · have h2 := hcov a
    rw [coverage_heads] at h2 ⊢
    rw [coverage_insert]
    omega

/-! ## Pages taken -/

/-- The page list after a call that stored to its nodes only and took `taken` out of it, beside the block list. -/
theorem takeRegion (h : SpacedHeap g v m bl pl) {pl' : List Region} {taken : Region} (hpl : PageList v m' pl')
    (hcov : ∀ a, coverage pl' a + taken.ind a = coverage pl a) (hf : Mem.Frame (covered (⟨v.pagesHead, 8⟩ :: pl)) m m') :
    SpacedHeap g v m' bl pl' ∧ Exclusive (taken :: (v.heads ++ bl ++ pl')) := by
  have hex := h.exclusive
  refine ⟨⟨h.blocks.frame (Nat.le_refl 4) hf fun r hr a ha hc => ?_, hpl, fun a => ?_⟩, fun a => ?_⟩
  · have h1 : 0 < coverage (⟨v.blocksHead, 8⟩ :: bl) a := coverage_pos_of_mem hr ha
    have h2 := hex a
    rw [mem_covered] at hc
    rw [coverage_heads] at h2
    simp only [coverage_cons] at h1 hc
    omega
  · have h1 := hex a
    have h2 := hcov a
    rw [coverage_heads] at h1 ⊢
    omega
  · have h1 := hex a
    have h2 := hcov a
    rw [coverage_cons, coverage_heads]
    rw [coverage_heads] at h1
    omega

/-- `page_allocate_consecutive` panics, or takes pages first fit. -/
theorem consecutive (h : SpacedHeap g v m bl pl) {count : Nat} (h0 : 0 < count) :
    ((∀ r ∈ pl, r.size < 4096 * count) ∧
        Comes (fun fuel => pageAllocateConsecutive fuel v m count) (.panic (outOfPages pl))) ∨
      ∃ t pl' m' page, FirstFit (4096 * count) pl t pl' ∧
        Comes (fun fuel => pageAllocateConsecutive fuel v m count) (.ok (m', page)) ∧ t = ⟨page * 4096, 4096 * count⟩ ∧
        0 < page ∧ page * 4096 + 4096 * count ≤ 268435456 ∧ SpacedHeap g v m' bl pl' ∧
        Exclusive (t :: (v.heads ++ bl ++ pl')) ∧ Mem.Frame (covered (⟨v.pagesHead, 8⟩ :: pl)) m m' := by
  rcases h.pages.firstFit_comes h0 with hnone | ⟨t, pl', m', page, hfit, hok, ht, h1, hlow, hpl', hf⟩
  · exact Or.inl hnone
  · obtain ⟨hheap, hex⟩ := h.takeRegion hpl' hfit.coverage hf
    exact Or.inr ⟨t, pl', m', page, hfit, hok, ht, h1, hlow, hheap, hex, hf⟩

/-- A list with gaps is one whose blocks may touch. -/
theorem touching (h : SpacedHeap 1 v m bl pl) : SpacedHeap 0 v m bl pl :=
  ⟨{ h.blocks with spaced := h.blocks.spaced.imp fun hrs => Nat.le_of_succ_le hrs }, h.pages, h.exclusive⟩

end SpacedHeap

namespace Heap
variable {v : HeapVars} {m m' : Mem} {bl pl : List Region}

theorem spaced (h : Heap v m bl pl) : SpacedHeap 1 v m bl pl := ⟨h.blocks.free.spacedList, h.pages, h.exclusive⟩

theorem of_spaced (h : SpacedHeap 1 v m bl pl) (hlow : ∀ r ∈ bl, r.stop ≤ 268435456) : Heap v m bl pl :=
  ⟨⟨h.blocks.freeList, hlow⟩, h.pages, h.exclusive⟩

theorem coverage_heads (v : HeapVars) (bl pl : List Region) (a : Nat) :
    coverage (v.heads ++ bl ++ pl) a =
      Region.ind ⟨v.pagesHead, 8⟩ a + Region.ind ⟨v.blocksHead, 8⟩ a + coverage bl a + coverage pl a :=
  SpacedHeap.coverage_heads v bl pl a

theorem frame (h : Heap v m bl pl) {X : Set Nat} (hf : Mem.Frame X m m') (hX : ∀ a ∈ covered (v.heads ++ bl ++ pl), a ∉ X) :
    Heap v m' bl pl :=
  of_spaced (h.spaced.frame hf hX) h.blocks.low

/-- In a list with gaps the bytes put on it need room for a node with the block they touch only. -/
theorem insertBlock (h : Heap v m bl pl) {cur n : Nat} (hn : 0 < n) (hroom : 8 ≤ (joined ⟨cur, n⟩ (after cur bl)).size)
    (h0 : 0 < cur) (hlow : cur + n ≤ 268435456) (hex : Exclusive (⟨cur, n⟩ :: (v.heads ++ bl ++ pl))) :
    ∃ m', (∀ fuel, bl.length < fuel → ∀ freepages, memFree fuel v m cur n freepages =
        if freepages then returnPages fuel v m' cur else .ok m') ∧
      Heap v m' (insert ⟨cur, n⟩ bl) pl ∧ m'.size cur = readBack v m bl cur n ∧
      Mem.Frame (covered (⟨v.blocksHead, 8⟩ :: ⟨cur, n⟩ :: bl)) m m' := by
  have hap : ∀ r ∈ bl, Region.Apart ⟨cur, n⟩ r := fun r hr =>
    apart_of_cover hex hn r (by simp [hr]) (by have := h.blocks.free.room r hr; omega)
  have hcan : Canonical (insert ⟨cur, n⟩ bl) := spaced_insert (Nat.le_refl 1) h.blocks.free.canonical.spaced hn hap
  obtain ⟨m', hres, hheap, hread, hf⟩ := h.spaced.insertBlock (Nat.le_refl 1) hn hroom
    (hcan.room_insert h.blocks.free.room hn hroom) h0 (by omega) hex
  refine ⟨m', hres, of_spaced hheap (forall_insert ?_ hlow h.blocks.low), hread, hf⟩
  intro r s h1 h2 h3
  simp only [Region.stop] at *
  omega

/-- A page run taken by `page_allocate_consecutive` leaves the page list. -/
theorem pageAllocateConsecutive (h : Heap v m bl pl) {count page : Nat} (h0 : 0 < count)
    (hr : Comes (fun fuel => BootPerl.pageAllocateConsecutive fuel v m count) (.ok (m', page))) :
    ∃ pl', Heap v m' bl pl' ∧ (∀ a, coverage pl' a + Region.ind ⟨page * 4096, 4096 * count⟩ a = coverage pl a) ∧ 0 < page ∧
      page * 4096 + 4096 * count ≤ 268435456 ∧ Mem.Frame (covered (⟨v.pagesHead, 8⟩ :: pl)) m m' := by
  rcases h.spaced.consecutive h0 with ⟨-, hp⟩ | ⟨t, pl', m₁, page₁, hfit, hok, rfl, hpos, hlow, hheap, -, hf⟩
  · exact absurd hp hr.not_panic
  · obtain ⟨rfl, rfl⟩ := Prod.mk.inj (hr.ok_inj hok)
    exact ⟨pl', of_spaced hheap h.blocks.low, hfit.coverage, hpos, hlow, hf⟩

/-- The page taken by `page_allocate` leaves the page list. -/
theorem pageAllocate (h : Heap v m bl pl) {page : Nat} (hr : BootPerl.pageAllocate v m = .ok (m', page)) :
    ∃ pl', Heap v m' bl pl' ∧ (∀ a, coverage pl' a + (pageRegion page).ind a = coverage pl a) ∧ 0 < page ∧
      page * 4096 + 4096 ≤ 268435456 ∧ Mem.Frame (covered (⟨v.pagesHead, 8⟩ :: pl)) m m' := by
  rcases h.pages.allocate with ⟨-, hp⟩ | ⟨f, post, m1, rfl, hok, hpl', hf⟩
  · rw [hp] at hr
    cases hr
  · rw [hok] at hr
    simp only [ok.injEq, Prod.mk.injEq] at hr
    obtain ⟨rfl, rfl⟩ := hr
    have hmem : f ∈ f :: post := List.mem_cons_self
    have hal := h.pages.aligned f hmem
    have hsz := h.pages.pages_eq hmem
    have hge := h.pages.size_ge hmem
    have haddr := h.pages.addr_ge hmem
    have hstop := h.pages.low f hmem
    simp only [Region.stop] at hstop
    have htop : pageRegion ((top 4096 f).addr / 4096) = top 4096 f := by
      simp only [pageRegion, top, Region.mk.injEq, and_true]
      omega
    have hcov : ∀ a, coverage (carve 4096 f ++ post) a + (top 4096 f).ind a = coverage (f :: post) a := by
      intro a
      have := coverage_carve hge a
      simp only [coverage_append, coverage_cons]
      omega
    have hf' := hf.mono (nodeBytes_covered h.pages.free.room)
    rw [htop]
    refine ⟨_, of_spaced (h.spaced.takeRegion hpl' hcov hf').1 h.blocks.low, hcov, ?_, ?_, hf'⟩
    all_goals
      simp only [top]
      omega

/-! ## `mem_free` -/

/-- The joined block lies below 256 MB. -/
theorem joined_low (h : Heap v m bl pl) {cur n : Nat} (hlow : cur + n ≤ 268435456) :
    cur + (joined ⟨cur, n⟩ (after cur bl)).size ≤ 268435456 := by
  have hsub := after_sublist cur bl
  cases hafter : after cur bl with
  | nil => exact hlow
  | cons f fs =>
    rw [hafter] at hsub
    have hf := h.blocks.low f (hsub.subset List.mem_cons_self)
    by_cases ht : Region.stop ⟨cur, n⟩ = f.addr
    · rw [joined_of_touch ht]
      simp only [Region.stop] at ht hf ⊢
      omega
    · rw [joined_of_gap ht]
      exact hlow

/-- When `mem_free` finds no whole page, the region freed is on the block list and the page list is as it was. -/
theorem memFree_keep (h : Heap v m bl pl) {cur n : Nat} (hn : 0 < n) (hroom : 8 ≤ (joined ⟨cur, n⟩ (after cur bl)).size)
    (h0 : 0 < cur) (hlow : cur + n ≤ 268435456) (hex : Exclusive (⟨cur, n⟩ :: (v.heads ++ bl ++ pl)))
    (hnone : wholePages cur (readBack v m bl cur n) = 0)
    (hr : Comes (fun fuel => memFree fuel v m cur n true) (.ok m')) :
    Heap v m' (insert ⟨cur, n⟩ bl) pl ∧ Mem.Frame (covered (⟨cur, n⟩ :: (v.heads ++ bl ++ pl))) m m' := by
  obtain ⟨m₁, hres, hheap, hread, hf⟩ := h.insertBlock hn hroom h0 hlow hex
  have hm : Comes (fun fuel => memFree fuel v m cur n true) (.ok m₁) := by
    refine ⟨bl.length + 1, fun fuel hfuel => ?_⟩
    dsimp only
    rw [hres fuel hfuel, if_pos rfl]
    exact PageList.returnPages_none (by rw [hread]; exact hnone) (by omega) fuel
  obtain rfl := hr.ok_inj hm
  refine ⟨hheap, hf.mono fun a ha => ?_⟩
  rw [mem_covered] at ha ⊢
  rw [coverage_cons, coverage_heads]
  simp only [coverage_cons] at ha
  omega

/-- When what `mem_free` reads back does not exceed the joined block, the call returns and stores into free memory, the heads
and the region freed only. -/
theorem memFree_frame (h : Heap v m bl pl) {cur n : Nat} (hn : 0 < n) (hroom : 8 ≤ (joined ⟨cur, n⟩ (after cur bl)).size)
    (h0 : 0 < cur) (hlow : cur + n ≤ 268435456) (hex : Exclusive (⟨cur, n⟩ :: (v.heads ++ bl ++ pl)))
    (hback : readBack v m bl cur n ≤ (joined ⟨cur, n⟩ (after cur bl)).size) :
    ∃ m', Comes (fun fuel => memFree fuel v m cur n true) (.ok m') ∧
      Mem.Frame (covered (⟨cur, n⟩ :: (v.heads ++ bl ++ pl))) m m' := by
  obtain ⟨m₁, hres, hheap, hread, hf₁⟩ := h.insertBlock hn hroom h0 hlow hex
  have hjoin := h.joined_low hlow
  -- the block read back lies in the region freed and the block it touches
  have hin : ∀ a, Region.ind ⟨cur, m₁.size cur⟩ a ≤ Region.ind ⟨cur, n⟩ a + coverage bl a := by
    intro a
    have h1 := ind_joined_le ⟨cur, n⟩ (after cur bl) a
    have h2 := coverage_sublist (after_sublist cur bl) a
    have h3 : (joined ⟨cur, n⟩ (after cur bl)).addr = cur := joined_addr _ _
    have h4 : Region.ind ⟨cur, m₁.size cur⟩ a ≤ (joined ⟨cur, n⟩ (after cur bl)).ind a := by
      simp only [Region.ind, h3, hread]
      split_ifs <;> omega
    omega
  obtain ⟨m₂, pl', hok, -, -, hf₂⟩ := hheap.pages.returnPages h0 (by rw [hread]; omega) (fun a => by
    have h1 := hex a
    have h2 := hin a
    rw [coverage_cons, coverage_heads] at h1
    simp only [coverage_cons]
    omega)
  refine ⟨m₂, ?_, (hf₁.mono fun a ha => ?_).trans (hf₂.mono fun a ha => ?_)⟩
  · obtain ⟨k, hk⟩ := hok
    refine ⟨max k (bl.length + 1), fun fuel hfuel => ?_⟩
    dsimp only
    rw [hres fuel (by omega), if_pos rfl]
    exact hk fuel (by omega)
  · rw [mem_covered] at ha ⊢
    rw [coverage_cons, coverage_heads]
    simp only [coverage_cons] at ha
    omega
  · have h2 := hin a
    rw [mem_covered] at ha ⊢
    rw [coverage_cons, coverage_heads]
    simp only [coverage_cons] at ha
    omega

end Heap

/-! ### A region too small for a node -/

/-- Step B4 stores into the node before and into the size field at `cur` only, and marks stay. -/
theorem frame_blockSplicePrev (m : Mem) (cur q n : Nat) :
    Mem.Frame {a | (q ≤ a ∧ a < q + 8) ∨ (cur ≤ a ∧ a < cur + 4)} m (blockSplicePrev m cur q n) ∧
      ∀ a, m.dirty a = true → (blockSplicePrev m cur q n).dirty a = true := by
  have hq : ∀ a, q ≤ a → a < q + 8 → a ∈ {a | (q ≤ a ∧ a < q + 8) ∨ (cur ≤ a ∧ a < cur + 4)} := fun a h1 h2 => Or.inl ⟨h1, h2⟩
  simp only [blockSplicePrev]
  split
  · refine ⟨Mem.Frame.trans (Mem.Frame.store fun x h1 h2 => hq x h1 (by omega))
      (Mem.Frame.store fun x h1 h2 => hq x (by omega) (by omega)), fun a h => dirty_store_of_dirty (dirty_store_of_dirty h)⟩
  · refine ⟨Mem.Frame.trans (Mem.Frame.store fun x h1 h2 => hq x (by omega) (by omega))
      (Mem.Frame.store fun x h1 h2 => Or.inr ⟨h1, h2⟩), fun a h => dirty_store_of_dirty (dirty_store_of_dirty h)⟩

/-- After step B4 the size field at `cur` holds what it held before, or the count of bytes. -/
theorem size_blockSplicePrev {m : Mem} {cur q n : Nat} (hq : q + 8 ≤ cur ∨ cur + 4 ≤ q) (hn : n < 4294967296) :
    (blockSplicePrev m cur q n).size cur = m.size cur ∨ (blockSplicePrev m cur q n).size cur = n := by
  simp only [blockSplicePrev]
  split
  · refine Or.inl ?_
    rw [Mem.size, setNext, load_store_of_disjoint (by omega), setSize, load_store_of_disjoint (by omega)]
    rfl
  · exact Or.inr (load_store_four hn)

namespace BlockList
variable {v : HeapVars} {m : Mem} {bl : List Region}

/-- A region too small for a node that touches no block above it: its `next` field is stored past its end. No page is
returned. -/
theorem memFree_small (h : BlockList v m bl) {cur n : Nat} (hn : 4 ≤ n) (h0 : 0 < cur)
    (hroom : (joined ⟨cur, n⟩ (after cur bl)).size < 8) (hlow : cur + n ≤ 268435456) (hex : Exclusive (⟨cur, n⟩ :: ⟨v.blocksHead, 8⟩ :: bl))
    (hsize : m.size cur < 4096) :
    ∃ m', Comes (fun fuel => memFree fuel v m cur n true) (.ok m') ∧
      Mem.Frame (covered (⟨cur, 8⟩ :: ⟨v.blocksHead, 8⟩ :: bl)) m m' ∧
      ∀ a, cur + 4 ≤ a → a < cur + 8 → m'.dirty a = true := by
  have hap := apart_of_cover hex (show 0 < n by omega)
  -- the block after is not touched
  have hnext : blockSpliceNext m cur n (firstAddr (after cur bl)) = (m.setNext cur (firstAddr (after cur bl)), n) := by
    rw [h.free.spacedList.blockSpliceNext_eq h0 (by omega) _ fun r hr => (after_sublist cur bl).subset hr]
    refine spliceNext_gap fun hc => ?_
    have hsub := after_sublist cur bl
    cases hafter : after cur bl with
    | nil =>
      rw [hafter] at hc
      exact hc.2 rfl
    | cons f fs =>
      rw [hafter] at hc hroom hsub
      have ht : Region.stop ⟨cur, n⟩ = f.addr := by
        have := hc.1
        simp only [firstAddr] at this
        simp only [Region.stop]
        omega
      rw [joined_of_touch ht] at hroom
      have := h.free.room f (hsub.subset List.mem_cons_self)
      dsimp only at hroom
      omega
  -- the node before lies apart from the size field
  have hq : ∀ a, (before cur ⟨v.blocksHead, 0⟩ bl).addr ≤ a → a < (before cur ⟨v.blocksHead, 0⟩ bl).addr + 8 →
      a ∈ covered (⟨v.blocksHead, 8⟩ :: bl) ∧ ¬(cur ≤ a ∧ a < cur + 4) := by
    intro a h1 h2
    have hin : a ∈ covered (⟨v.blocksHead, 8⟩ :: bl) := nodeBytes_covered h.free.room a ⟨_, before_mem cur bl _, h1, h2⟩
    refine ⟨hin, fun hc => ?_⟩
    obtain ⟨r, hr, ha⟩ := coverage_pos_iff.1 hin
    exact disjoint_of_cover hex r hr a ⟨by simp only [Region.Has]; omega, ha⟩
  obtain ⟨hfr, hdirty⟩ := frame_blockSplicePrev (m.setNext cur (firstAddr (after cur bl))) cur
    (before cur ⟨v.blocksHead, 0⟩ bl).addr n
  have hqa : (before cur ⟨v.blocksHead, 0⟩ bl).addr + 8 ≤ cur ∨ cur + 4 ≤ (before cur ⟨v.blocksHead, 0⟩ bl).addr := by
    by_contra hn
    exact (hq (max (before cur ⟨v.blocksHead, 0⟩ bl).addr cur) (by omega) (by omega)).2 (by omega)
  have hn8 : n < 8 := Nat.lt_of_le_of_lt (le_joined_size ⟨cur, n⟩ _) hroom
  have hread := size_blockSplicePrev (m := m.setNext cur (firstAddr (after cur bl))) hqa (show n < 4294967296 by omega)
  have hkeep : (m.setNext cur (firstAddr (after cur bl))).size cur = m.size cur := load_store_of_disjoint (by omega)
  refine ⟨blockSplicePrev (m.setNext cur (firstAddr (after cur bl))) cur (before cur ⟨v.blocksHead, 0⟩ bl).addr n,
    ⟨bl.length + 1, fun fuel hfuel => ?_⟩, Mem.Frame.trans (Mem.Frame.store fun x h1 h2 => ?_) (hfr.mono fun a ha => ?_),
    fun a h1 h2 => ?_⟩
  · have hnone : ¬4096 ≤ Mem.size (blockSplicePrev (m.setNext cur (firstAddr (after cur bl))) cur
        (before cur ⟨v.blocksHead, 0⟩ bl).addr n) cur := by omega
    dsimp only
    rw [memFree, h.free.scan_eq cur hfuel]
    simp only [hnext]
    rw [if_pos trivial, returnPages, pageSize, if_neg hnone]
  · rw [mem_covered, coverage_cons, Region.ind_of_has (by simp only [Region.Has]; omega)]
    omega
  · rcases ha with ⟨h1, h2⟩ | ⟨h1, h2⟩
    · have := (hq a h1 h2).1
      rw [mem_covered] at this ⊢
      rw [coverage_cons]
      omega
    · rw [mem_covered, coverage_cons, Region.ind_of_has (by simp only [Region.Has]; omega)]
      omega
  · refine hdirty a ?_
    rw [setNext, dirty_store, decide_eq_true (by omega), Bool.or_true]

end BlockList

end BootPerl
