import BootPerl.Lemmas.Pages
import BootPerl.Lemmas.Fuel

/-!
# The block list

What `mem_free` and `kalloc` do to a well-formed block list beside a well-formed page list. `mem_free` inserts a region; what
it then reads back from `cur->size` (`readBack`) decides which pages it hands to the page list. `kalloc` carves from the top of
a block, after it has moved pages from the page list to the block list as often as the search needed.
-/

namespace BootPerl

open Mem Outcome

/-- The two list heads in the kernel's data. -/
def HeapVars.heads (v : HeapVars) : List Region := [⟨v.pagesHead, 8⟩, ⟨v.blocksHead, 8⟩]

/-- A well-formed block list: a free list counted in bytes, below 256 MB. -/
structure BlockList (v : HeapVars) (m : Mem) (bl : List Region) : Prop where
  free : FreeList 1 4 m v.blocksHead bl
  low : ∀ r ∈ bl, r.stop ≤ 268435456

/-- What `cur->size` reads after `n` bytes at `cur` went on the list: what it read before when the block before them took them
in, since only the other branch of step B4 writes the field. -/
def readBack (v : HeapVars) (m : Mem) (bl : List Region) (cur n : Nat) : Nat :=
  if (before cur ⟨v.blocksHead, 0⟩ bl).stop = cur then m.size cur else (joined ⟨cur, n⟩ (after cur bl)).size

/-- How many whole pages `mem_free` finds in a block of `size` bytes at `cur`. -/
def wholePages (cur size : Nat) : Nat := if 4096 ≤ size then (size - (pageAlign cur - cur)) / 4096 else 0

namespace SpacedList
variable {g : Nat} {v : HeapVars} {m m' : Mem} {bl : List Region}

/-- The `size` field of a block. -/
theorem size_eq (h : SpacedList g 1 4 m v.blocksHead bl) {r : Region} (hr : r ∈ bl) : m.size r.addr = r.size := by
  have := h.linked.count r (List.mem_cons_of_mem _ hr)
  rwa [Nat.one_mul] at this

theorem size_head (h : SpacedList g 1 4 m v.blocksHead bl) : m.size v.blocksHead = 0 := by
  have := h.linked.count _ List.mem_cons_self
  rwa [Nat.one_mul] at this

/-! ## `mem_free` -/

/-- Step B3 is the merge with the node after: nothing wraps. -/
theorem blockSpliceNext_eq (h : SpacedList g 1 4 m v.blocksHead bl) {cur n : Nat} (h0 : 0 < cur) (hend : cur + n ≤ 4294967296)
    (es : List Region) (hes : ∀ r ∈ es, r ∈ bl) :
    blockSpliceNext m cur n (firstAddr es) = m.spliceNext 1 4 (firstAddr es) cur n := by
  cases es with
  | nil =>
    have hgap : ¬((cur + n) % 4294967296 = 0 ∧ 0 ≠ 0) := fun hc => hc.2 rfl
    rw [show firstAddr [] = 0 from rfl, spliceNext_gap fun hc => hc.2 rfl, blockSpliceNext, if_neg hgap]
  | cons f fs =>
    have hf := hes f List.mem_cons_self
    have hpos := h.pos f hf
    have hroom := h.room f hf
    have hstop := h.bound f hf
    have hsize := h.size_eq hf
    simp only [Region.stop] at hstop
    rw [show firstAddr (f :: fs) = f.addr from rfl, blockSpliceNext]
    by_cases hc : cur + 1 * n = f.addr
    · have htouch : (cur + n) % 4294967296 = f.addr ∧ f.addr ≠ 0 := by omega
      have hsum : (n + m.size f.addr) % 4294967296 = n + m.size f.addr := by omega
      rw [spliceNext_touch hc htouch.2, if_pos htouch, hsum]
      rfl
    · have hgap : ¬((cur + n) % 4294967296 = f.addr ∧ f.addr ≠ 0) := by omega
      rw [spliceNext_gap fun hh => hc hh.1, if_neg hgap]

/-- Step B4 is the merge with the node before. -/
theorem blockSplicePrev_eq (h : SpacedList g 1 4 m v.blocksHead bl) {cur n : Nat} (h0 : 0 < cur) (hlt : cur < 4294967296)
    {q : Region} (hq : q ∈ (⟨v.blocksHead, 0⟩ : Region) :: bl) (hm : m'.size q.addr = m.size q.addr) :
    blockSplicePrev m' cur q.addr n = m'.splicePrev 1 4 q.addr cur n := by
  have hv := v.blocksLow
  have hload : m'.load q.addr 4 = m'.size q.addr := rfl
  have hiff : (q.addr + m'.size q.addr) % 4294967296 = cur ↔ q.addr + 1 * m'.load q.addr 4 = cur := by
    rw [hload, hm]
    rcases List.mem_cons.1 hq with rfl | hq
    · rw [h.size_head]
      dsimp only
      omega
    · have hstop := h.bound q hq
      have hsize := h.size_eq hq
      simp only [Region.stop] at hstop
      omega
  simp only [blockSplicePrev, splicePrev, hiff]
  rfl

/-- The bytes put on the list become a region inserted into it, if they and every region afterwards have room for a node; after
that `mem_free` looks for whole pages in what it reads back. -/
theorem memFree_insert (hg : g ≤ 1) (h : SpacedList g 1 4 m v.blocksHead bl) {cur n : Nat} (hn : 0 < n)
    (hjoin : 8 ≤ (joined ⟨cur, n⟩ (after cur bl)).size) (hroom : ∀ r ∈ insert ⟨cur, n⟩ bl, 8 ≤ r.size) (h0 : 0 < cur)
    (hend : cur + n ≤ 4294967296) (hap : ∀ r ∈ bl, Region.Apart ⟨cur, n⟩ r) (hhead : Region.Apart ⟨v.blocksHead, 8⟩ ⟨cur, n⟩) :
    ∃ m', (∀ fuel, bl.length < fuel → ∀ freepages, memFree fuel v m cur n freepages =
        if freepages then returnPages fuel v m' cur else .ok m') ∧
      SpacedList g 1 4 m' v.blocksHead (insert ⟨cur, n⟩ bl) ∧ m'.size cur = readBack v m bl cur n ∧
      Mem.Frame (nodeBytes (⟨v.blocksHead, 0⟩ :: ⟨cur, n⟩ :: bl)) m m' := by
  have hx : (⟨cur, 1 * n⟩ : Region) = ⟨cur, n⟩ := by rw [Nat.one_mul]
  have hsub := after_sublist cur bl
  have hclosed : ∀ r s : Region, 0 < r.addr ∧ r.stop ≤ 4294967296 → 0 < s.addr ∧ s.stop ≤ 4294967296 → r.stop = s.addr →
      0 < r.addr ∧ Region.stop ⟨r.addr, r.size + s.size⟩ ≤ 4294967296 := by
    rintro r s ⟨h1, h2⟩ ⟨h3, h4⟩ h5
    simp only [Region.stop] at *
    omega
  have hbounds : ∀ r ∈ bl, 0 < r.addr ∧ r.stop ≤ 4294967296 := fun r hr => ⟨h.pos r hr, h.bound r hr⟩
  have hsmall : ∀ r : Region, 0 < r.addr ∧ r.stop ≤ 4294967296 → r.size < 256 ^ 4 := by
    rintro r ⟨h1, h2⟩
    simp only [Region.stop] at h2
    omega
  have hfit : ∀ r ∈ insert ⟨cur, n⟩ bl, r.size < 1 * 256 ^ 4 := fun r hr => by
    rw [Nat.one_mul]
    exact hsmall r (forall_insert (x := ⟨cur, n⟩) hclosed ⟨h0, hend⟩ hbounds r hr)
  obtain ⟨hlist, hframe⟩ := h.splice hg (by decide) cur n (by omega) (by rwa [hx]) (by rwa [hx]) h0 (by omega) (by rwa [hx])
    (by rwa [hx]) (by rwa [hx])
  rw [hx] at hlist hframe
  have hq : NodeApart (before cur ⟨v.blocksHead, 0⟩ bl) ⟨cur, n⟩ := h.nodeApart_before (x := ⟨cur, n⟩) hn hjoin hap hhead
  have hkeep : (m.spliceNext 1 4 (firstAddr (after cur bl)) cur n).1.size (before cur ⟨v.blocksHead, 0⟩ bl).addr =
      m.size (before cur ⟨v.blocksHead, 0⟩ bl).addr :=
    (load_of_nodeApart (Nat.le_refl 4) (frame_spliceNext ⟨cur, n⟩ m _ n) hq.symm).1
  have hmem := before_mem cur bl ⟨v.blocksHead, 0⟩
  refine ⟨_, fun fuel hf freepages => ?_, hlist, ?_, hframe⟩
  · rw [memFree, h.scan_eq cur hf]
    simp only [h.blockSpliceNext_eq h0 hend _ fun r hr => hsub.subset hr]
    rw [h.blockSplicePrev_eq h0 (by omega) hmem hkeep]
    rfl
  · -- the count read back is the joined size, unless the block before took the bytes in
    have hlinked : Linked 1 4 m (after cur bl) := linked_after h.linked.2.2
    have hsnd : 1 * (m.spliceNext 1 4 (firstAddr (after cur bl)) cur n).2 = _ :=
      spliceNext_snd hlinked fun r hr => h.pos r (hsub.subset hr)
    rw [hx, Nat.one_mul] at hsnd
    have hjoined : (joined ⟨cur, n⟩ (after cur bl)).size < 256 ^ 4 :=
      hsmall _ (forall_absorb (x := ⟨cur, n⟩) hclosed ⟨h0, hend⟩ (fun r hr => hbounds r (hsub.subset hr)) _ (joined_mem_absorb _ _))
    have hread := load_splice (u := 1) (Nat.le_refl 4) hq (hsnd ▸ hjoined)
    have hcount := h.linked.count _ hmem
    rw [hsnd, hcount] at hread
    exact hread

end SpacedList

/-- A step that stores outside the head and the free blocks keeps the block list. -/
theorem BlockList.frame {v : HeapVars} {m m' : Mem} {bl : List Region} (h : BlockList v m bl) {X : Set Nat} (hf : Mem.Frame X m m')
    (hX : ∀ r ∈ (⟨v.blocksHead, 8⟩ : Region) :: bl, ∀ a, r.Has a → a ∉ X) : BlockList v m' bl :=
  ⟨h.free.frame (by decide) hf hX, h.low⟩

/-! ## The pages `mem_free` returns -/

/-- Release pages one after the other. -/
def releaseAll (fuel : Nat) (v : HeapVars) : List Nat → Mem → Outcome Mem
  | [], m => .ok m
  | page :: pages, m => (pageRelease fuel v m page).bind (releaseAll fuel v pages)

/-- The numbers of `c` pages from address `start` on, as the loop of `mem_free` computes them. -/
def pagesFrom : Nat → Nat → List Nat
  | 0, _ => []
  | c + 1, start => addrToPage start :: pagesFrom c ((start + pageSize) % 4294967296)

/-- The loop of `mem_free` releases these pages. -/
theorem releasePages_eq (fuel : Nat) (v : HeapVars) (c : Nat) :
    ∀ (m : Mem) (start : Nat), releasePages fuel v c m start = releaseAll fuel v (pagesFrom c start) m := by
  induction c with
  | zero => intro m start; rfl
  | succ c ih =>
    intro m start
    rw [releasePages, pagesFrom, releaseAll]
    exact congrArg _ (funext fun m => ih m _)

/-- Below 256 MB they are consecutive. -/
theorem pagesFrom_eq (c : Nat) : ∀ {start : Nat}, start % 4096 = 0 → start + 4096 * c ≤ 268435456 →
    pagesFrom c start = List.range' (start / 4096) c := by
  induction c with
  | zero => intro start _ _; rfl
  | succ c ih =>
    intro start hal hlow
    have hnext : (start + pageSize) % 4294967296 = start + 4096 := by
      rw [pageSize]
      omega
    have hpage : (start + 4096) / 4096 = start / 4096 + 1 := by omega
    rw [pagesFrom, hnext, addrToPage_eq (by omega), ih (by omega) (by omega), hpage, List.range'_succ]

namespace PageList
variable {v : HeapVars} {m : Mem} {pl : List Region}

/-- Releasing one page covers it, and stores into it, into the free pages and into the head only. -/
theorem release_comes (h : PageList v m pl) (page : Nat) (h0 : 0 < page) (hp : page < 65536)
    (hex : Exclusive (⟨v.pagesHead, 8⟩ :: pageRegion page :: pl)) :
    ∃ m', Comes (fun fuel => pageRelease fuel v m page) (.ok m') ∧ PageList v m' (insert (pageRegion page) pl) ∧
      Mem.Frame (covered (⟨v.pagesHead, 8⟩ :: pageRegion page :: pl)) m m' := by
  have hap : ∀ r ∈ pl, (pageRegion page).Apart r := by
    refine fun r hr => apart_of_cover (l := pl) (fun a => ?_) (show 0 < 4096 by decide) r hr ?_
    · have := hex a
      simp only [coverage_cons] at this ⊢
      omega
    · exact Nat.lt_of_lt_of_le (by decide) (h.free.room r hr)
  have hhead : Region.Apart ⟨v.pagesHead, 8⟩ (pageRegion page) :=
    apart_of_cover hex (show 0 < 8 by decide) _ List.mem_cons_self (show 0 < 4096 by decide)
  obtain ⟨m', hok, hpl, hf⟩ := h.release h0 hp hap hhead (Nat.lt_succ_self _)
  refine ⟨m', (settles_pageRelease v m page).comes hok, hpl, hf.mono (nodeBytes_covered ?_)⟩
  exact List.forall_mem_cons.2 ⟨show 8 ≤ 4096 by decide, h.free.room⟩

/-- Releasing pages covers them, and stores into them, into the free pages and into the head only. -/
theorem releaseAll (pages : List Nat) : ∀ {m : Mem} {pl : List Region}, PageList v m pl → (∀ page ∈ pages, 0 < page ∧ page < 65536) →
    Exclusive (⟨v.pagesHead, 8⟩ :: (pages.map pageRegion ++ pl)) →
    ∃ m' pl', Comes (fun fuel => BootPerl.releaseAll fuel v pages m) (.ok m') ∧ PageList v m' pl' ∧
      (∀ a, coverage pl' a = coverage (pages.map pageRegion) a + coverage pl a) ∧
      Mem.Frame (covered (⟨v.pagesHead, 8⟩ :: (pages.map pageRegion ++ pl))) m m' := by
  induction pages with
  | nil => exact fun {m pl} h _ _ => ⟨m, pl, Comes.const _, h, fun a => (Nat.zero_add _).symm, Mem.Frame.refl _ _⟩
  | cons page pages ih =>
    intro m pl h hrange hex
    obtain ⟨hpage, hpages⟩ := List.forall_mem_cons.1 hrange
    obtain ⟨m₁, hok₁, hpl₁, hf₁⟩ := h.release_comes page hpage.1 hpage.2 fun a => by
      have := hex a
      simp only [coverage_cons, coverage_append, List.map_cons] at this ⊢
      omega
    have hcov₁ : ∀ a, coverage (insert (pageRegion page) pl) a = (pageRegion page).ind a + coverage pl a := coverage_insert _ _
    obtain ⟨m₂, pl₂, hok₂, hpl₂, hcov₂, hf₂⟩ := ih hpl₁ hpages fun a => by
      have := hex a
      simp only [coverage_cons, coverage_append, List.map_cons, hcov₁] at this ⊢
      omega
    refine ⟨m₂, pl₂, hok₁.bind hok₂, hpl₂, fun a => ?_, (hf₁.mono ?_).trans (hf₂.mono ?_)⟩
    · rw [hcov₂, hcov₁, List.map_cons, coverage_cons]
      omega
    all_goals
      intro a
      simp only [mem_covered, coverage_cons, coverage_append, List.map_cons, hcov₁]
      omega

/-- Releasing `c` pages from `start` on covers them, and stores into them, into the free pages and into the head only. -/
theorem releasePages (h : PageList v m pl) (c : Nat) {start : Nat} (hal : start % 4096 = 0) (h0 : 0 < start)
    (hlow : start + 4096 * c ≤ 268435456) (hex : Exclusive (⟨v.pagesHead, 8⟩ :: ⟨start, 4096 * c⟩ :: pl)) :
    ∃ m' pl', Comes (fun fuel => BootPerl.releasePages fuel v c m start) (.ok m') ∧ PageList v m' pl' ∧
      (∀ a, coverage pl' a = Region.ind ⟨start, 4096 * c⟩ a + coverage pl a) ∧
      Mem.Frame (covered (⟨v.pagesHead, 8⟩ :: ⟨start, 4096 * c⟩ :: pl)) m m' := by
  have hcov : ∀ a, coverage ((List.range' (start / 4096) c).map pageRegion) a = Region.ind ⟨start, 4096 * c⟩ a := fun a => by
    rw [coverage_consecutive, Nat.div_mul_cancel (Nat.dvd_of_mod_eq_zero hal)]
  obtain ⟨m', pl', hok, hpl, hcov', hf⟩ := h.releaseAll (List.range' (start / 4096) c) (fun page hp => by
    rw [List.mem_range'_1] at hp
    omega) fun a => by
      have := hex a
      simp only [coverage_cons, coverage_append, hcov] at this ⊢
      exact this
  refine ⟨m', pl', ?_, hpl, fun a => ?_, hf.mono fun a ha => ?_⟩
  · simp only [releasePages_eq, pagesFrom_eq c hal hlow]
    exact hok
  · rw [hcov', hcov]
  · simp only [mem_covered, coverage_cons, coverage_append, hcov] at ha ⊢
    exact ha

/-- The first page boundary of a block that reaches the next one, and what is left of the block above it. -/
theorem pageAlign_eq {cur : Nat} (hlow : cur + 4096 ≤ 4294967296) : pageAlign cur = (cur + 4095) / 4096 * 4096 := by
  rw [pageAlign, pageSize]
  omega

/-- `mem_free` releases the whole pages of the block. -/
theorem returnPages_eq {cur : Nat} (hlow : cur + 4096 ≤ 4294967296) (fuel : Nat) :
    BootPerl.returnPages fuel v m cur =
      if 4096 ≤ m.size cur then BootPerl.releasePages fuel v (wholePages cur (m.size cur)) m (pageAlign cur) else .ok m := by
  rw [BootPerl.returnPages, pageSize]
  split
  · rename_i hs
    have hlt : m.size cur < 4294967296 := m.load_four_lt cur
    have hal := pageAlign_eq hlow
    have hsize : (m.size cur + 4294967296 - (pageAlign cur + 4294967296 - cur) % 4294967296) % 4294967296 =
        m.size cur - (pageAlign cur - cur) := by omega
    rw [wholePages, if_pos hs]
    simp only [hsize]
  · rfl

/-- A block without a whole page leaves the memory as it is. -/
theorem returnPages_none {cur : Nat} (h0 : wholePages cur (m.size cur) = 0) (hlow : cur + 4096 ≤ 4294967296) (fuel : Nat) :
    BootPerl.returnPages fuel v m cur = .ok m := by
  rw [returnPages_eq hlow, h0]
  split <;> rfl

/-- The whole pages of a block apart from the page list go to it. -/
theorem returnPages (h : PageList v m pl) {cur : Nat} (h0 : 0 < cur) (hlow : cur + m.size cur ≤ 268435456)
    (hex : Exclusive (⟨v.pagesHead, 8⟩ :: ⟨cur, m.size cur⟩ :: pl)) :
    ∃ m' pl', Comes (fun fuel => BootPerl.returnPages fuel v m cur) (.ok m') ∧ PageList v m' pl' ∧
      (∀ a, coverage pl' a = Region.ind ⟨pageAlign cur, 4096 * wholePages cur (m.size cur)⟩ a + coverage pl a) ∧
      Mem.Frame (covered (⟨v.pagesHead, 8⟩ :: ⟨cur, m.size cur⟩ :: pl)) m m' := by
  simp only [returnPages_eq (show cur + 4096 ≤ 4294967296 by omega)]
  by_cases hs : 4096 ≤ m.size cur
  · have hal := pageAlign_eq (show cur + 4096 ≤ 4294967296 by omega)
    have hw : 4096 * wholePages cur (m.size cur) ≤ m.size cur - (pageAlign cur - cur) := by
      rw [wholePages, if_pos hs]
      omega
    have hin : ∀ a, Region.ind ⟨pageAlign cur, 4096 * wholePages cur (m.size cur)⟩ a ≤ Region.ind ⟨cur, m.size cur⟩ a := by
      intro a
      simp only [Region.ind]
      split_ifs <;> omega
    simp only [if_pos hs]
    obtain ⟨m', pl', hok, hpl, hcov, hf⟩ := h.releasePages (wholePages cur (m.size cur))
      (show pageAlign cur % 4096 = 0 by omega) (show 0 < pageAlign cur by omega) (by omega) (fun a => by
        have h1 := hex a
        have h2 := hin a
        simp only [coverage_cons] at h1 ⊢
        omega)
    refine ⟨m', pl', hok, hpl, hcov, hf.mono fun a ha => ?_⟩
    have := hin a
    simp only [mem_covered, coverage_cons] at ha ⊢
    omega
  · have hz : ∀ a, Region.ind ⟨pageAlign cur, 4096 * wholePages cur (m.size cur)⟩ a = 0 := by
      intro a
      rw [wholePages, if_neg hs]
      exact Region.ind_of_not_has (by simp only [Region.Has]; omega)
    simp only [if_neg hs]
    exact ⟨m, pl, Comes.const _, h, fun a => by rw [hz]; omega, Mem.Frame.refl _ _⟩

end PageList

end BootPerl
