import BootPerl.Theorems.KfreeFrame

/-!
# What `mem_free` does to the block list, and which pages it returns

`mem_free(mem, n, 0)` adds exactly the region to the free bytes and keeps the list canonical. `mem_free(mem, n, 1)` then releases
pages, counted from `cur->size`. Step B4 writes that field only when the block before does not take the region in, so the pages
are those of the merged block, whatever the region held, exactly when no free block ends where the region begins.
-/

namespace BootPerl

open Mem Outcome

/-- A block list of eight bytes, and above them a word that reads 8192. -/
def staleMem : Mem :=
  (((⟨fun _ => 0, fun _ => false⟩ : Mem).setNext 0x110008 0x200000).setSize 0x200000 8).setSize 0x200008 8192

theorem staleMem_blocks : BlockList adjacentVars staleMem [⟨0x200000, 8⟩] := by
  have hlinked : Linked 1 4 staleMem [⟨adjacentVars.blocksHead, 0⟩, ⟨0x200000, 8⟩] := ⟨rfl, rfl, rfl, rfl, trivial⟩
  refine ⟨⟨hlinked, List.pairwise_singleton _ _, ?_, ?_, ?_, ?_⟩, ?_⟩
  all_goals
    intro r hr
    rw [List.mem_singleton] at hr
    subst hr
  · exact Nat.le_refl 8
  · decide
  · decide
  · exact Or.inl (by decide)
  · decide

/-- Regions that lie above the block. -/
theorem disjoint_staleMem {mem n : Nat} (hmem : 0x200008 ≤ mem) :
    (∀ r ∈ [(⟨0x200000, 8⟩ : Region)], Region.Disjoint ⟨mem, n⟩ r) ∧ Region.Disjoint ⟨adjacentVars.blocksHead, 8⟩ ⟨mem, n⟩ := by
  refine ⟨fun r hr a ha => ?_, fun a ha => ?_⟩
  · rw [List.mem_singleton] at hr
    subst hr
    simp only [Region.Has] at ha
    omega
  · simp only [Region.Has, adjacentVars] at ha
    omega

section
variable {v : HeapVars} {m : Mem} {bl : List Region}

/-! ## Insertion -/

/-- A region put on the list becomes a region inserted into it. -/
theorem FreeList.memFree_comes (h : FreeList 1 4 m v.blocksHead bl) {mem n : Nat} (hn : 8 ≤ n) (h0 : 0 < mem)
    (hend : mem + n ≤ 4294967296) (hap : ∀ r ∈ bl, Region.Disjoint ⟨mem, n⟩ r)
    (hhead : Region.Disjoint ⟨v.blocksHead, 8⟩ ⟨mem, n⟩) :
    ∃ m', Comes (fun fuel => memFree fuel v m mem n false) (.ok m') ∧ FreeList 1 4 m' v.blocksHead (insert ⟨mem, n⟩ bl) ∧
      m'.size mem = readBack v m bl mem n := by
  have hap' : ∀ r ∈ bl, Region.Apart ⟨mem, n⟩ r := fun r hr =>
    (hap r hr).apart (by dsimp only; omega) (by have := h.room r hr; omega)
  have hhead' : Region.Apart ⟨v.blocksHead, 8⟩ ⟨mem, n⟩ := hhead.apart (show 0 < 8 by decide) (by dsimp only; omega)
  have hjoin : 8 ≤ (joined ⟨mem, n⟩ (after mem bl)).size := Nat.le_trans hn (le_joined_size ⟨mem, n⟩ _)
  have hroom : ∀ r ∈ insert ⟨mem, n⟩ bl, 8 ≤ r.size :=
    forall_insert (fun r s hr _ _ => Nat.le_trans hr (Nat.le_add_right _ _)) hn h.room
  obtain ⟨m', hres, hlist, hread, -⟩ := h.spacedList.memFree_insert (Nat.le_refl 1) (by omega) hjoin hroom h0 hend hap' hhead'
  exact ⟨m', ⟨bl.length + 1, fun fuel hfuel => hres fuel hfuel false⟩, hlist.freeList, hread⟩

/-- `mem_free` without the return of pages keeps the list canonical: ascending, no two blocks overlapping or adjacent, each with
room for its node. The free bytes are those from before and the region. The null pointer is no region. -/
theorem block_insertion (h : FreeList 1 4 m v.blocksHead bl) {mem n : Nat} (hn : 8 ≤ n) (h0 : 0 < mem)
    (hend : mem + n ≤ 4294967296) (hap : ∀ r ∈ bl, Region.Disjoint ⟨mem, n⟩ r)
    (hhead : Region.Disjoint ⟨v.blocksHead, 8⟩ ⟨mem, n⟩) :
    ∃ m' bl', Comes (fun fuel => memFree fuel v m mem n false) (.ok m') ∧ FreeList 1 4 m' v.blocksHead bl' ∧
      ∀ a, a ∈ covered bl' ↔ a ∈ covered bl ∨ Region.Has ⟨mem, n⟩ a := by
  obtain ⟨m', hres, hlist, -⟩ := h.memFree_comes hn h0 hend hap hhead
  refine ⟨m', _, hres, hlist, fun a => ?_⟩
  rw [mem_covered, coverage_insert, mem_covered, ← Region.ind_pos_iff]
  omega

theorem block_insertion_stale : ∃ m' bl', Comes (fun fuel => memFree fuel adjacentVars staleMem 0x200008 8 false) (.ok m') ∧
    FreeList 1 4 m' adjacentVars.blocksHead bl' ∧
      ∀ a, a ∈ covered bl' ↔ a ∈ covered [⟨0x200000, 8⟩] ∨ Region.Has ⟨0x200008, 8⟩ a :=
  block_insertion staleMem_blocks.free (Nat.le_refl 8) (by decide) (by decide) (disjoint_staleMem (Nat.le_refl _)).1
    (disjoint_staleMem (Nat.le_refl _)).2

/-! ## The pages returned -/

/-- The pages that `mem_free` passes to `page_release`, from the node at `cur` after the insertion. -/
def returnedPages (m : Mem) (cur : Nat) : List Nat :=
  if pageSize ≤ m.size cur then
    let start := pageAlign cur
    let size := (m.size cur + 4294967296 - (start + 4294967296 - cur) % 4294967296) % 4294967296
    pagesFrom (size / pageSize) start
  else []

/-- `mem_free` inserts and then releases these pages, in this order. -/
theorem memFree_eq_releaseAll (fuel : Nat) (v : HeapVars) (m : Mem) (mem n : Nat) :
    memFree fuel v m mem n true =
      (memFree fuel v m mem n false).bind fun m' => releaseAll fuel v (returnedPages m' mem) m' := by
  unfold memFree
  cases hscan : m.scan mem fuel v.blocksHead with
  | none => rfl
  | some qp =>
    simp only [if_true, Bool.false_eq_true, if_false, bind_ok, returnPages, returnedPages]
    split
    · exact releasePages_eq _ _ _ _ _
    · rfl

/-- The region holds the whole page. -/
def Whole (r : Region) (page : Nat) : Prop := ∀ a, (pageRegion page).Has a → r.Has a

theorem whole_iff {r : Region} {page : Nat} : Whole r page ↔ r.addr ≤ page * 4096 ∧ page * 4096 + 4096 ≤ r.stop := by
  simp only [Whole, Region.Has, pageRegion, Region.stop]
  constructor
  · intro h
    obtain ⟨hfirst, -⟩ := h (page * 4096) ⟨Nat.le_refl _, by omega⟩
    obtain ⟨-, hlast⟩ := h (page * 4096 + 4095) ⟨Nat.le_add_right _ _, by omega⟩
    exact ⟨hfirst, hlast⟩
  · intro h a ha
    omega

/-- On the memory `m` the call `mem_free(mem, n, 1)` releases each whole page of the free block that covers the region once, and
no other page. -/
def ReturnsWholePages (v : HeapVars) (m : Mem) (mem n : Nat) : Prop :=
  ∃ m' bl' r, Comes (fun fuel => memFree fuel v m mem n false) (.ok m') ∧ FreeList 1 4 m' v.blocksHead bl' ∧ r ∈ bl' ∧
    (∀ a, Region.Has ⟨mem, n⟩ a → r.Has a) ∧ (returnedPages m' mem).Nodup ∧ ∀ page, page ∈ returnedPages m' mem ↔ Whole r page

/-- Below 256 MB the pages returned are the whole pages of the bytes that `cur->size` counts from `cur` on. -/
theorem returnedPages_eq {mem : Nat} (hlow : mem + m.size mem ≤ 268435456) :
    returnedPages m mem = List.range' (pageAlign mem / 4096) (wholePages mem (m.size mem)) := by
  have hal := PageList.pageAlign_eq (show mem + 4096 ≤ 4294967296 by omega)
  unfold returnedPages wholePages
  rw [pageSize]
  split
  · rename_i hs
    have hsize : (m.size mem + 4294967296 - (pageAlign mem + 4294967296 - mem) % 4294967296) % 4294967296 =
        m.size mem - (pageAlign mem - mem) := by omega
    simp only [hsize]
    exact pagesFrom_eq _ (by omega) (by omega)
  · rfl

theorem mem_returnedPages {mem page : Nat} (hlow : mem + m.size mem ≤ 268435456) :
    page ∈ returnedPages m mem ↔ Whole ⟨mem, m.size mem⟩ page := by
  have hal := PageList.pageAlign_eq (show mem + 4096 ≤ 4294967296 by omega)
  rw [returnedPages_eq hlow, List.mem_range'_1, whole_iff, wholePages]
  simp only [Region.stop]
  split <;> omega

/-- The region freed may hold any bytes: the list is the same. -/
theorem BlockList.congr_region (h : BlockList v m bl) {m₁ : Mem} {mem n : Nat} (hap : ∀ r ∈ bl, Region.Disjoint ⟨mem, n⟩ r)
    (hhead : Region.Disjoint ⟨v.blocksHead, 8⟩ ⟨mem, n⟩) (hb : ∀ a, ¬Region.Has ⟨mem, n⟩ a → m₁.byte a = m.byte a) :
    FreeList 1 4 m₁ v.blocksHead bl := by
  refine h.free.congr (Nat.le_refl 4) fun r hr a ha => hb a fun hin => ?_
  rcases List.mem_cons.1 hr with rfl | hr
  · exact hhead a ⟨ha, hin⟩
  · exact hap r hr a ⟨hin, ha⟩

/-- When no block ends at the region, `cur->size` is the size of the block that covers it. -/
theorem returns_whole_pages (h : FreeList 1 4 m v.blocksHead bl) (hlows : ∀ r ∈ bl, r.stop ≤ 268435456) {mem n : Nat} (hn : 8 ≤ n)
    (h0 : 0 < mem) (hlow : mem + n ≤ 268435456) (hap : ∀ r ∈ bl, Region.Disjoint ⟨mem, n⟩ r)
    (hhead : Region.Disjoint ⟨v.blocksHead, 8⟩ ⟨mem, n⟩) (hnone : ∀ r ∈ bl, r.stop ≠ mem) : ReturnsWholePages v m mem n := by
  obtain ⟨m', hres, hlist, hread⟩ := h.memFree_comes hn h0 (by omega) hap hhead
  have hne : v.blocksHead ≠ mem := fun heq =>
    hhead mem ⟨by simp only [Region.Has]; omega, by simp only [Region.Has]; omega⟩
  have hstop : (before mem ⟨v.blocksHead, 0⟩ bl).stop ≠ mem := by
    rcases List.mem_cons.1 (before_mem mem bl ⟨v.blocksHead, 0⟩) with heq | hmem
    · rw [heq]
      exact hne
    · exact hnone _ hmem
  have hjoined : joined ⟨mem, n⟩ (after mem bl) ∈ insert ⟨mem, n⟩ bl := by
    have hin := joined_mem_insertAfter (x := ⟨mem, n⟩) bl (e := ⟨v.blocksHead, 0⟩) hstop
    rw [insertAfter_head hne] at hin
    refine (List.mem_cons.1 hin).resolve_left fun heq => ?_
    have hsize := le_joined_size ⟨mem, n⟩ (after mem bl)
    rw [heq] at hsize
    simp only at hsize
    omega
  have haddr : (joined ⟨mem, n⟩ (after mem bl)).addr = mem := joined_addr _ _
  have hregion : joined ⟨mem, n⟩ (after mem bl) = ⟨mem, m'.size mem⟩ := by
    have hsize : m'.size mem = (joined ⟨mem, n⟩ (after mem bl)).size := by rw [hread, readBack, if_neg hstop]
    rw [hsize]
    exact congrArg (fun a => (⟨a, _⟩ : Region)) haddr
  rw [hregion] at hjoined
  have hend : mem + m'.size mem ≤ 268435456 := by
    have hlows' : ∀ r ∈ insert ⟨mem, n⟩ bl, r.stop ≤ 268435456 := by
      refine forall_insert ?_ hlow hlows
      intro r s h1 h2 h3
      simp only [Region.stop] at *
      omega
    exact hlows' _ hjoined
  refine ⟨m', _, ⟨mem, m'.size mem⟩, hres, hlist, hjoined, fun a ha => ?_, ?_, fun page => mem_returnedPages hend⟩
  · have hle := le_joined_size ⟨mem, n⟩ (after mem bl)
    rw [hregion] at hle
    simp only [Region.Has] at ha hle ⊢
    omega
  · rw [returnedPages_eq hend]
    exact List.nodup_range'

/-- A region below which a block ends: `cur->size` stays what it was, and any value may be there. -/
theorem readBack_of_touch (h : FreeList 1 4 m v.blocksHead bl) {b : Region} (hb : b ∈ bl) (n : Nat) :
    readBack v m bl b.stop n = m.size b.stop := by
  have hroom := h.room b hb
  have hbefore : before b.stop ⟨v.blocksHead, 0⟩ bl = b := before_eq_of_stop h.canonical hb (by omega) rfl
  rw [readBack, if_pos (by rw [hbefore])]

/-- The pages returned are the whole pages of the merged block, whatever the region held, exactly when no free block ends where
the region begins. -/
theorem mem_free_returns_whole_pages_iff (h : BlockList v m bl) {mem n : Nat} (hn : 8 ≤ n) (h0 : 0 < mem)
    (hlow : mem + n ≤ 268435456) (hap : ∀ r ∈ bl, Region.Disjoint ⟨mem, n⟩ r)
    (hhead : Region.Disjoint ⟨v.blocksHead, 8⟩ ⟨mem, n⟩) :
    (∀ m₁ : Mem, (∀ a, ¬Region.Has ⟨mem, n⟩ a → m₁.byte a = m.byte a) → ReturnsWholePages v m₁ mem n) ↔
      ∀ r ∈ bl, r.stop ≠ mem := by
  constructor
  · intro hall b hb hstop
    subst hstop
    -- two contents of the region: a size of nothing, and one of more than a page
    have hcase : ∀ k, k < 4294967296 → ∃ r m', r ∈ insert ⟨b.stop, n⟩ bl ∧ r.Has b.stop ∧ m'.size b.stop = k ∧
        ∀ page, page ∈ returnedPages m' b.stop ↔ Whole r page := by
      intro k hk
      have hbytes : ∀ a, ¬Region.Has ⟨b.stop, n⟩ a → (m.setSize b.stop k).byte a = m.byte a := by
        intro a ha
        simp only [Region.Has] at ha
        exact byte_store_of_outside (by omega)
      have hfree := h.congr_region hap hhead hbytes
      obtain ⟨m', hres, hlist, hread⟩ := hfree.memFree_comes hn h0 (by omega) hap hhead
      obtain ⟨m₂, bl₂, r, hres₂, hlist₂, hr, hcovers, -, hpages⟩ := hall _ hbytes
      obtain rfl := hres₂.ok_inj hres
      obtain rfl := hlist₂.linked.unique hlist.linked hlist₂.pos hlist.pos
      refine ⟨r, m₂, hr, hcovers _ ?_, ?_, hpages⟩
      · simp only [Region.Has]
        omega
      · rw [hread, readBack_of_touch hfree hb]
        exact load_store_four hk
    obtain ⟨r, m₁, hr, hin, hsize, hpages⟩ := hcase 0 (by decide)
    obtain ⟨r', m₂, hr', hin', hsize', hpages'⟩ := hcase 8192 (by decide)
    have hsame : r = r' := by
      by_contra hne
      have hcan : Canonical (insert ⟨b.stop, n⟩ bl) := spaced_insert (Nat.le_refl 1) h.free.canonical.spaced (by dsimp only; omega)
        fun s hs => (hap s hs).apart (by dsimp only; omega) (by have := h.free.room s hs; omega)
      have hsep := hcan.separate hr hr' hne
      simp only [Region.Has, Region.stop] at hin hin' hsep
      omega
    subst hsame
    have hal := PageList.pageAlign_eq (show b.stop + 4096 ≤ 4294967296 by omega)
    have hfirst : addrToPage (pageAlign b.stop) ∈ returnedPages m₂ b.stop := by
      unfold returnedPages
      rw [hsize', pageSize, if_pos (by decide)]
      have hcount : (8192 + 4294967296 - (pageAlign b.stop + 4294967296 - b.stop) % 4294967296) % 4294967296 / 4096 =
          (8192 - (pageAlign b.stop - b.stop)) / 4096 - 1 + 1 := by omega
      dsimp only
      rw [hcount, pagesFrom]
      exact List.mem_cons_self
    have hnone : addrToPage (pageAlign b.stop) ∉ returnedPages m₁ b.stop := by
      unfold returnedPages
      rw [hsize, pageSize, if_neg (by decide)]
      exact List.not_mem_nil
    exact hnone ((hpages _).2 ((hpages' _).1 hfirst))
  · intro hnone m₁ hbytes
    exact returns_whole_pages (h.congr_region hap hhead hbytes) h.low hn h0 hlow hap hhead hnone

end

/-- Two pages freed away from the free block go to the page list. -/
theorem mem_free_returns_whole_pages_iff_stale : ReturnsWholePages adjacentVars staleMem 0x300000 8192 :=
  (mem_free_returns_whole_pages_iff staleMem_blocks (by decide) (by decide) (by decide) (disjoint_staleMem (by decide)).1
    (disjoint_staleMem (by decide)).2).2 (by decide) staleMem fun _ _ => rfl

/-- Eight bytes freed above a free block of eight: the word that lay in them sends a page to the page list, and the merged block
has sixteen bytes. -/
theorem mem_free_returns_whole_pages_false : BlockList adjacentVars staleMem [⟨0x200000, 8⟩] ∧
    (∀ r ∈ [(⟨0x200000, 8⟩ : Region)], Region.Disjoint ⟨0x200008, 8⟩ r) ∧
      Region.Disjoint ⟨adjacentVars.blocksHead, 8⟩ ⟨0x200008, 8⟩ ∧ ¬ReturnsWholePages adjacentVars staleMem 0x200008 8 := by
  have hap := disjoint_staleMem (n := 8) (Nat.le_refl 0x200008)
  refine ⟨staleMem_blocks, hap.1, hap.2, ?_⟩
  rintro ⟨m', bl', r, hres, hlist, hr, -, -, hpages⟩
  have hcall : memFree 2 adjacentVars staleMem 0x200008 8 false =
      .ok (blockSplicePrev (staleMem.setNext 0x200008 0) 0x200008 0x200000 8) := rfl
  obtain rfl := hres.ok_inj ((settles_memFree _ _ _ _ _).comes hcall)
  have hmerged : Linked 1 4 (blockSplicePrev (staleMem.setNext 0x200008 0) 0x200008 0x200000 8)
      [⟨adjacentVars.blocksHead, 0⟩, ⟨0x200000, 16⟩] := ⟨rfl, rfl, rfl, rfl, trivial⟩
  have hbl : bl' = [⟨0x200000, 16⟩] := hlist.linked.unique hmerged hlist.pos (by decide)
  rw [hbl, List.mem_singleton] at hr
  have hpassed : 0x201 ∈ returnedPages (blockSplicePrev (staleMem.setNext 0x200008 0) 0x200008 0x200000 8) 0x200008 := by
    decide +kernel
  have hwhole := whole_iff.1 ((hpages 0x201).1 hpassed)
  rw [hr] at hwhole
  exact absurd hwhole (by decide)

end BootPerl
