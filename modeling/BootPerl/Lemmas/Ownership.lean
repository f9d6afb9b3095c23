import Mathlib.Data.List.Nodup
import BootPerl.Lemmas.Search

/-!
# Who owns which memory

The callers of the memory manager hold `kalloc` blocks and pages. `Owned` puts them beside the two lists: everything is
disjoint, and the header before each block holds its size.
-/

namespace BootPerl

open Mem Outcome

/-- A block a caller got from `kalloc`: the address returned and the size asked for. -/
structure Block where
  ptr : Nat
  size : Nat
  deriving DecidableEq, Repr

/-- The memory of a block: its header and its payload. -/
def Block.region (b : Block) : Region := ⟨b.ptr - 4, b.size + 4⟩

/-- The lists are well formed, and the lists, the live blocks and the held pages cover no address twice. -/
structure Owned (v : HeapVars) (m : Mem) (bl pl : List Region) (live : List Block) (held : List Nat) : Prop where
  blocks : BlockList v m bl
  pages : PageList v m pl
  exclusive : Exclusive (v.heads ++ bl ++ pl ++ live.map Block.region ++ held.map pageRegion)
  header : ∀ b ∈ live, m.size (b.ptr - 4) = b.size
  inside : ∀ b ∈ live, 4 < b.ptr ∧ b.ptr + b.size ≤ 268435456
  page : ∀ page ∈ held, 0 < page ∧ page < 65536

namespace Owned
variable {v : HeapVars} {m m' : Mem} {bl pl : List Region} {live : List Block} {held : List Nat}

/-- How often everything covers an address. -/
theorem coverage_all (v : HeapVars) (bl pl : List Region) (live : List Block) (held : List Nat) (a : Nat) :
    coverage (v.heads ++ bl ++ pl ++ live.map Block.region ++ held.map pageRegion) a =
      coverage (v.heads ++ bl ++ pl) a + coverage (live.map Block.region) a + coverage (held.map pageRegion) a := by
  rw [coverage_append, coverage_append]

theorem heap (h : Owned v m bl pl live held) : Heap v m bl pl := by
  refine ⟨h.blocks, h.pages, fun a => ?_⟩
  have := h.exclusive a
  rw [coverage_all] at this
  omega

/-- A live block beside the others. -/
theorem coverage_erase {b : Block} (hb : b ∈ live) (a : Nat) :
    coverage (live.map Block.region) a = b.region.ind a + coverage ((live.erase b).map Block.region) a := by
  rw [← coverage_cons, ← List.map_cons]
  exact coverage_perm ((List.perm_cons_erase hb).map Block.region) a

/-- The memory of a live block is apart from the heads and the free lists. -/
theorem exclusive_block (h : Owned v m bl pl live held) {b : Block} (hb : b ∈ live) :
    Exclusive (b.region :: (v.heads ++ bl ++ pl)) := by
  intro a
  have h1 := h.exclusive a
  rw [coverage_all, coverage_erase hb] at h1
  rw [coverage_cons]
  omega

/-- What `kfree` reads back from a live block is at most the block it is joined to. -/
theorem readBack_le (h : Owned v m bl pl live held) {b : Block} (hb : b ∈ live) :
    readBack v m bl (b.ptr - 4) (b.size + 4) ≤ (joined ⟨b.ptr - 4, b.size + 4⟩ (after (b.ptr - 4) bl)).size := by
  have hle := le_joined_size ⟨b.ptr - 4, b.size + 4⟩ (after (b.ptr - 4) bl)
  dsimp only at hle
  unfold readBack
  split
  · rw [h.header b hb]
    omega
  · exact Nat.le_refl _

/-- The size that `kfree` frees. -/
theorem kfree_eq (h : Owned v m bl pl live held) {b : Block} (hb : b ∈ live) (fuel : Nat) :
    kfree fuel v m b.ptr = memFree fuel v m (b.ptr - 4) (b.size + 4) true := by
  have hin := h.inside b hb
  have hn : (m.size (b.ptr - 4) + 4) % 4294967296 = b.size + 4 := by
    rw [h.header b hb]
    omega
  rw [kfree, headerSize, hn]

/-- Headers outside the memory a step stores to stay. -/
theorem header_frame (h : Owned v m bl pl live held) {X : Set Nat} (hf : Mem.Frame X m m') {live' : List Block}
    (hsub : ∀ b ∈ live', b ∈ live) (hX : ∀ a ∈ X, coverage (live'.map Block.region) a = 0) :
    ∀ b ∈ live', m'.size (b.ptr - 4) = b.size := by
  intro b hb
  rw [← h.header b (hsub b hb)]
  refine hf.load fun a h1 h2 ha => ?_
  have h3 : 0 < coverage (live'.map Block.region) a :=
    coverage_pos_of_mem (List.mem_map_of_mem hb) (by simp only [Region.Has, Block.region]; omega)
  have h4 := hX a ha
  omega

/-- Memory of the free lists and of the heads is in no live block. -/
theorem coverage_live_of_covered (h : Owned v m bl pl live held) : ∀ a ∈ covered (v.heads ++ bl ++ pl),
    coverage (live.map Block.region) a = 0 := by
  intro a ha
  have h1 := h.exclusive a
  rw [mem_covered] at ha
  rw [coverage_all] at h1
  omega

/-! ### What each call does to who owns what -/

/-- `kalloc` hands a block of free memory to the caller, with a free block below its header. -/
theorem kalloc (h : Owned v m bl pl live held) {n ptr : Nat} (hn : n + 4 ≤ 268435456)
    (hr : Comes (fun fuel => BootPerl.kalloc fuel v m n) (.ok (m', ptr))) :
    ∃ bl' pl', Owned v m' bl' pl' (⟨ptr, n⟩ :: live) held ∧ (∃ r ∈ bl', r.stop = ptr - 4) ∧
      Mem.Frame (covered (v.heads ++ bl ++ pl)) m m' := by
  obtain ⟨bl₁, bl', pl', hheap, hcut, hcov, hf⟩ := h.heap.kalloc hn hr
  refine ⟨bl', pl', ⟨hheap.blocks, hheap.pages, fun a => ?_, ?_, ?_, h.page⟩, hcut.below, hf⟩
  · have h1 := h.exclusive a
    have h2 := hcov a
    rw [coverage_all, Heap.coverage_heads] at h1 ⊢
    rw [List.map_cons, coverage_cons]
    simp only [Block.region]
    omega
  · exact List.forall_mem_cons.2 ⟨hcut.header, h.header_frame hf (fun _ hb => hb) h.coverage_live_of_covered⟩
  · exact List.forall_mem_cons.2 ⟨⟨hcut.above, hcut.low⟩, h.inside⟩

/-- `kfree` that finds no whole page puts the block of the caller on the block list. -/
theorem kfree (h : Owned v m bl pl live held) {b : Block} (hb : b ∈ live)
    (hroom : 8 ≤ (joined b.region (after b.region.addr bl)).size)
    (hnone : wholePages b.region.addr (readBack v m bl b.region.addr b.region.size) = 0)
    (hr : Comes (fun fuel => BootPerl.kfree fuel v m b.ptr) (.ok m')) :
    Owned v m' (insert b.region bl) pl (live.erase b) held := by
  have hin := h.inside b hb
  simp only [h.kfree_eq hb] at hr
  obtain ⟨hheap, hf⟩ := h.heap.memFree_keep (by omega) hroom (by omega) (by omega) (h.exclusive_block hb) hnone hr
  have hblock : (⟨b.ptr - 4, b.size + 4⟩ : Region) = b.region := rfl
  rw [hblock] at hheap hf
  refine ⟨hheap.blocks, hheap.pages, fun a => ?_, h.header_frame hf (fun _ => List.mem_of_mem_erase) fun a ha => ?_,
    fun c hc => h.inside c (List.mem_of_mem_erase hc), h.page⟩
  · have h1 := h.exclusive a
    rw [coverage_all, Heap.coverage_heads, coverage_erase hb] at h1
    rw [coverage_all, Heap.coverage_heads, coverage_insert]
    omega
  · have h1 := h.exclusive a
    rw [coverage_all, coverage_erase hb] at h1
    rw [mem_covered, coverage_cons] at ha
    omega

/-- `mem_free` that finds no whole page puts memory nobody owns on the block list. -/
theorem memFree (h : Owned v m bl pl live held) {r : Region} (h0 : 0 < r.addr) (hsize : 0 < r.size) (hlow : r.stop ≤ 268435456)
    (hnobody : ∀ a, r.Has a → coverage (v.heads ++ bl ++ pl ++ live.map Block.region ++ held.map pageRegion) a = 0)
    (hroom : 8 ≤ (joined r (after r.addr bl)).size) (hnone : wholePages r.addr (readBack v m bl r.addr r.size) = 0)
    (hr : Comes (fun fuel => BootPerl.memFree fuel v m r.addr r.size true) (.ok m')) :
    Owned v m' (insert r bl) pl live held := by
  have hfree : ∀ a, r.ind a + coverage (v.heads ++ bl ++ pl ++ live.map Block.region ++ held.map pageRegion) a ≤ 1 := by
    intro a
    have h1 := h.exclusive a
    by_cases ha : r.Has a
    · rw [Region.ind_of_has ha, hnobody a ha]
    · rw [Region.ind_of_not_has ha]
      omega
  have hex : Exclusive (r :: (v.heads ++ bl ++ pl)) := fun a => by
    have := hfree a
    rw [coverage_all] at this
    rw [coverage_cons]
    omega
  obtain ⟨hheap, hf⟩ := h.heap.memFree_keep hsize hroom h0 hlow hex hnone hr
  have hregion : (⟨r.addr, r.size⟩ : Region) = r := rfl
  rw [hregion] at hheap hf
  refine ⟨hheap.blocks, hheap.pages, fun a => ?_, h.header_frame hf (fun _ hb => hb) fun a ha => ?_, h.inside, h.page⟩
  · have h1 := hfree a
    rw [coverage_all, Heap.coverage_heads] at h1 ⊢
    rw [coverage_insert]
    omega
  · have h1 := hfree a
    rw [coverage_all] at h1
    rw [mem_covered, coverage_cons] at ha
    omega

/-- Pages taken from the page list are held. -/
theorem takePages (h : Owned v m bl pl live held) {pl' : List Region} (taken : List Nat) (hheap : Heap v m' bl pl')
    (hcov : ∀ a, coverage pl' a + coverage (taken.map pageRegion) a = coverage pl a)
    (hpage : ∀ page ∈ taken, 0 < page ∧ page < 65536) (hf : Mem.Frame (covered (⟨v.pagesHead, 8⟩ :: pl)) m m') :
    Owned v m' bl pl' live (taken ++ held) := by
  refine ⟨hheap.blocks, hheap.pages, fun a => ?_, h.header_frame hf (fun _ hb => hb) fun a ha => ?_, h.inside, fun page hp => ?_⟩
  · have h1 := h.exclusive a
    have h2 := hcov a
    rw [coverage_all, Heap.coverage_heads] at h1 ⊢
    rw [List.map_append, coverage_append]
    omega
  · refine h.coverage_live_of_covered a ?_
    rw [mem_covered] at ha ⊢
    rw [Heap.coverage_heads]
    rw [coverage_cons] at ha
    omega
  · exact (List.mem_append.1 hp).elim (hpage page) (h.page page)

/-- `page_release` puts a held page on the page list. -/
theorem pageRelease (h : Owned v m bl pl live held) {page : Nat} (hp : page ∈ held)
    (hr : Comes (fun fuel => BootPerl.pageRelease fuel v m page) (.ok m')) :
    Owned v m' bl (insert (pageRegion page) pl) live (held.erase page) := by
  have hperm : ∀ a, coverage (held.map pageRegion) a =
      (pageRegion page).ind a + coverage ((held.erase page).map pageRegion) a := by
    intro a
    rw [← coverage_cons, ← List.map_cons]
    exact coverage_perm ((List.perm_cons_erase hp).map pageRegion) a
  obtain ⟨h0, h1⟩ := h.page page hp
  obtain ⟨m₁, hok, hpl, hf⟩ := h.pages.release_comes page h0 h1 (fun a => by
    have h2 := h.exclusive a
    rw [coverage_all, Heap.coverage_heads, hperm] at h2
    simp only [coverage_cons]
    omega)
  obtain rfl := hr.ok_inj hok
  have hout : ∀ a ∈ covered (⟨v.pagesHead, 8⟩ :: pageRegion page :: pl),
      coverage (⟨v.blocksHead, 8⟩ :: bl) a + coverage (live.map Block.region) a = 0 := by
    intro a ha
    have h2 := h.exclusive a
    rw [coverage_all, Heap.coverage_heads, hperm] at h2
    rw [mem_covered] at ha
    simp only [coverage_cons] at ha ⊢
    omega
  refine ⟨h.blocks.frame hf fun r hr a ha hc => ?_, hpl, fun a => ?_, h.header_frame hf (fun _ hb => hb) fun a ha => ?_,
    h.inside, fun q hq => h.page q (List.mem_of_mem_erase hq)⟩
  · have h2 := coverage_pos_of_mem hr ha
    have h3 := hout a hc
    omega
  · have h2 := h.exclusive a
    rw [coverage_all, Heap.coverage_heads, hperm] at h2
    rw [coverage_all, Heap.coverage_heads, coverage_insert]
    omega
  · have h3 := hout a ha
    omega

/-- Stores outside the lists, the heads and the headers change none of them. -/
theorem frame (h : Owned v m bl pl live held) {X : Set Nat} (hf : Mem.Frame X m m')
    (hlists : ∀ a ∈ X, coverage (v.heads ++ bl ++ pl) a = 0) (hheaders : ∀ b ∈ live, ∀ a ∈ X, ¬(b.ptr - 4 ≤ a ∧ a < b.ptr)) :
    Owned v m' bl pl live held := by
  have hheap := h.heap.frame hf fun a ha hx => by
    have := hlists a hx
    rw [mem_covered] at ha
    omega
  refine ⟨hheap.blocks, hheap.pages, h.exclusive, fun b hb => ?_, h.inside, h.page⟩
  rw [← h.header b hb]
  refine hf.load fun x h1 h2 hx => hheaders b hb x hx ?_
  have := h.inside b hb
  omega

/-- A byte written outside the lists, the heads and the headers changes none of them. -/
theorem write (h : Owned v m bl pl live held) {a : Nat} {c : UInt8} (hlists : coverage (v.heads ++ bl ++ pl) a = 0)
    (hheaders : ∀ b ∈ live, ¬(b.ptr - 4 ≤ a ∧ a < b.ptr)) : Owned v (m.set a c) bl pl live held :=
  h.frame (Mem.Frame.set (Set.mem_singleton a)) (fun x hx => by rw [Set.mem_singleton_iff.1 hx]; exact hlists)
    fun b hb x hx => by rw [Set.mem_singleton_iff.1 hx]; exact hheaders b hb

/-- The payload of a live block is its owner's to write. -/
theorem write_payload (h : Owned v m bl pl live held) {b : Block} (hb : b ∈ live)
    (hf : Mem.Frame {a | b.ptr ≤ a ∧ a < b.ptr + b.size} m m') : Owned v m' bl pl live held := by
  have hin : ∀ a, b.ptr ≤ a ∧ a < b.ptr + b.size → b.region.ind a = 1 := fun a ha =>
    Region.ind_of_has (by simp only [Region.Has, Block.region]; omega)
  have hall : ∀ a, coverage (v.heads ++ bl ++ pl) a + b.region.ind a + coverage ((live.erase b).map Block.region) a ≤ 1 := by
    intro a
    have := h.exclusive a
    rw [coverage_all, coverage_erase hb] at this
    omega
  refine h.frame hf (fun a ha => ?_) fun c hc a ha hheader => ?_
  · have h1 := hall a
    have h2 := hin a ha
    omega
  · by_cases hcb : c = b
    · subst hcb
      exact absurd hheader.2 (Nat.not_lt_of_le ha.1)
    · have h1 := hall a
      have h2 := hin a ha
      have h3 : 0 < coverage ((live.erase b).map Block.region) a :=
        coverage_pos_of_mem (List.mem_map_of_mem ((List.mem_erase_of_ne hcb).2 hc))
          (by simp only [Region.Has, Block.region]; omega)
      omega

/-- No mark is part of the lists or of a header. -/
theorem clean (h : Owned v m bl pl live held) : Owned v m.clean bl pl live held := by
  have hlink : ∀ {u w : Nat} {l : List Region}, Linked u w m l → Linked u w m.clean l := fun hl =>
    hl.congr fun r _ => ⟨load_clean m _ _, load_clean m _ _⟩
  have hblocks : BlockList v m.clean bl := ⟨{ h.blocks.free with linked := hlink h.blocks.free.linked }, h.blocks.low⟩
  have hpages : PageList v m.clean pl :=
    ⟨{ h.pages.free with linked := hlink h.pages.free.linked }, h.pages.aligned, h.pages.low⟩
  exact ⟨hblocks, hpages, h.exclusive, fun b hb => (load_clean m _ _).trans (h.header b hb), h.inside, h.page⟩

/-- What `kfree` of a live block stores to: when the block, with the free block above it that it touches, has room for a node, the
block, free memory and the heads; else a node at the block, past its end, and the lists. -/
theorem kfree_cases (h : Owned v m bl pl live held) {b : Block} (hb : b ∈ live) :
    (8 ≤ (joined ⟨b.ptr - 4, b.size + 4⟩ (after (b.ptr - 4) bl)).size ∧
        ∃ m', Comes (fun fuel => BootPerl.kfree fuel v m b.ptr) (.ok m') ∧
          Mem.Frame (covered (b.region :: (v.heads ++ bl ++ pl))) m m') ∨
      ∃ m', b.size < 4 ∧ Comes (fun fuel => BootPerl.kfree fuel v m b.ptr) (.ok m') ∧
        Mem.Frame (covered (⟨b.ptr - 4, 8⟩ :: ⟨v.blocksHead, 8⟩ :: bl)) m m' ∧
        ∀ a, b.ptr ≤ a → a < b.ptr + 4 → m'.dirty a = true := by
  have hin := h.inside b hb
  have hex := h.exclusive_block hb
  simp only [h.kfree_eq hb]
  by_cases hroom : 8 ≤ (joined ⟨b.ptr - 4, b.size + 4⟩ (after (b.ptr - 4) bl)).size
  · exact Or.inl ⟨hroom, h.heap.memFree_frame (by omega) hroom (by omega) (by omega) hex (h.readBack_le hb)⟩
  · have hjoin := le_joined_size ⟨b.ptr - 4, b.size + 4⟩ (after (b.ptr - 4) bl)
    have hheader := h.header b hb
    dsimp only at hjoin
    obtain ⟨m', hr, hf, hd⟩ := h.blocks.memFree_small (by omega) (by omega) (Nat.lt_of_not_le hroom) (by omega) (fun a => by
      have h1 := hex a
      rw [coverage_cons, Heap.coverage_heads] at h1
      simp only [coverage_cons]
      have h2 : Region.ind ⟨b.ptr - 4, b.size + 4⟩ a = b.region.ind a := rfl
      omega) (by omega)
    exact Or.inr ⟨m', by omega, hr, hf, fun a h1 h2 => hd a (by omega) (by omega)⟩

end Owned

end BootPerl
