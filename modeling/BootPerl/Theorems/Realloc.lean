import BootPerl.Lemmas.Console
import BootPerl.Perlwrap
import BootPerl.Theorems.KallocSizes

/-!
# `realloc` keeps the contents

The copy of `realloc` reads as many bytes as the new block has, past the end of the old one and perhaps from the new block itself.
It writes to the new block only, so each byte of the old block is still there when its turn comes. `kfree` then stores a node
where the old block was, which may reach four bytes past its end; but the new block was cut from the top of a free block, and what
is left of that lies between. All this is for a block that memory can hold: beyond 256 MB `kalloc` returns a block all the same, with
its page count cut to sixteen bits.
-/

namespace BootPerl

open Mem Outcome

/-- `realloc(b, size)` returns a block of `size` bytes: it and its header lie in memory that was free, the header holds the size, and
it is apart from all other live blocks. Its bytes are those of `b` as far as both go. -/
def ReallocKeeps (v : HeapVars) (m : Mem) (bl pl : List Region) (live : List Block) (b : Block) (size : Nat) : Prop :=
  ∃ m' p, Comes (fun fuel => realloc fuel v m b.ptr size) (.ok (m', p)) ∧ headerSize ≤ p ∧
    (∀ a, p - headerSize ≤ a → a < p + size → a ∈ covered (bl ++ pl)) ∧ m'.size (p - headerSize) = size ∧
    (∀ c ∈ live.erase b, Region.Disjoint (Block.region ⟨p, size⟩) c.region) ∧
    ∀ i, i < min b.size size → m'.byte (p + i) = m.byte (b.ptr + i)

section
variable {v : HeapVars} {m m' : Mem} {bl pl : List Region} {live : List Block} {held : List Nat} {b c : Block}

/-- The calls that `realloc` is made of. -/
theorem realloc_comes {m₁ : Mem} {ptr size p : Nat} (hptr : ptr ≠ 0) (hp : p ≠ 0) (h0 : 0 < size)
    (hk : Comes (fun fuel => kalloc fuel v m size) (.ok (m₁, p)))
    (hfree : Comes (fun fuel => kfree fuel v (memcpy m₁ p ptr size) ptr) (.ok m')) :
    Comes (fun fuel => realloc fuel v m ptr size) (.ok (m', p)) := by
  obtain ⟨k₁, hk₁⟩ := hk
  obtain ⟨k₂, hk₂⟩ := hfree
  refine ⟨max k₁ k₂, fun fuel hfuel => ?_⟩
  have hnew := hk₁ fuel (by omega)
  have hold := hk₂ fuel (by omega)
  have hsize : size ≠ 0 := Nat.ne_of_gt h0
  dsimp only at hnew hold ⊢
  simp only [realloc, if_pos hsize, hnew, bind_ok, if_neg (not_and_of_not_right (size ≠ 0) hp),
    if_pos (show ptr ≠ 0 ∧ size ≠ 0 from ⟨hptr, hsize⟩), if_pos hptr, hold]

/-- `kfree` of one block leaves another alone when a free block lies below its header. -/
theorem kfree_keeps (h : Owned v m bl pl (c :: live) held) (hb : b ∈ live) (hbelow : ∃ r ∈ bl, r.stop = c.ptr - 4) :
    ∃ m', Comes (fun fuel => kfree fuel v m b.ptr) (.ok m') ∧ ∀ a, c.region.Has a → m'.byte a = m.byte a := by
  have hb' : b ∈ c :: live := List.mem_cons_of_mem _ hb
  have hinb := h.inside b hb'
  have hinc := h.inside c List.mem_cons_self
  have hall : ∀ a, coverage (v.heads ++ bl ++ pl) a + c.region.ind a + b.region.ind a ≤ 1 := by
    intro a
    have h1 := h.exclusive a
    rw [Owned.coverage_all, List.map_cons, coverage_cons, Owned.coverage_erase hb] at h1
    omega
  rcases h.kfree_cases hb' with ⟨-, m', hr, hf⟩ | ⟨m', hsmall, hr, hf, -⟩
  · refine ⟨m', hr, fun a ha => (hf a fun hx => ?_).1⟩
    have h1 := hall a
    rw [Region.ind_of_has ha] at h1
    rw [mem_covered, coverage_cons] at hx
    omega
  · obtain ⟨r, hr', hstop⟩ := hbelow
    have hroom := h.blocks.free.room r hr'
    have hrb : ∀ a, r.Has a → ¬b.region.Has a := fun a har hab => by
      have h1 := hall a
      have h2 := coverage_pos_of_mem (l := v.heads ++ bl ++ pl) (by simp [hr']) har
      rw [Region.ind_of_has hab] at h1
      omega
    have hcb : ∀ a, c.region.Has a → ¬b.region.Has a := fun a hac hab => by
      have h1 := hall a
      rw [Region.ind_of_has hac, Region.ind_of_has hab] at h1
      omega
    refine ⟨m', hr, fun a ha => (hf a fun hx => ?_).1⟩
    rw [mem_covered] at hx
    simp only [coverage_cons] at hx
    by_cases hnode : Region.Has ⟨b.ptr - 4, 8⟩ a
    · -- the node would reach over the free block below the header
      have hfirst := hcb (b.ptr - 4)
      have hlow := hrb (b.ptr - 4)
      simp only [Region.Has, Region.stop, Block.region] at *
      omega
    · rw [Region.ind_of_not_has hnode] at hx
      have h1 := hall a
      rw [Region.ind_of_has ha, Heap.coverage_heads] at h1
      omega

/-- `realloc` returns the block that `kalloc` does. -/
theorem realloc_ptr {m₁ : Mem} {ptr size p q : Nat} (h0 : 0 < size)
    (hk : Comes (fun fuel => kalloc fuel v m size) (.ok (m₁, p)))
    (hr : Comes (fun fuel => realloc fuel v m ptr size) (.ok (m', q))) : q = p := by
  obtain ⟨k₁, hk₁⟩ := hk
  obtain ⟨k₂, hk₂⟩ := hr
  have hnew := hk₁ (max k₁ k₂) (Nat.le_max_left _ _)
  have hall := hk₂ (max k₁ k₂) (Nat.le_max_right _ _)
  have hsize : size ≠ 0 := Nat.ne_of_gt h0
  dsimp only at hnew hall
  simp only [realloc, if_pos hsize, hnew, bind_ok] at hall
  split at hall
  · rename_i hnull
    exact ((Prod.mk.inj (ok.inj hall)).2.symm).trans hnull.2.symm
  · obtain ⟨m₂, -, hret⟩ := bind_eq_ok hall
    exact (Prod.mk.inj (ok.inj hret)).2.symm

/-- Up to 256 MB the contents are kept. -/
theorem Owned.reallocKeeps {m₁ : Mem} {size p : Nat} (h : Owned v m bl pl live held) (hb : b ∈ live) (h0 : 0 < size)
    (hn : size + 4 ≤ 268435456) (hk : Comes (fun fuel => BootPerl.kalloc fuel v m size) (.ok (m₁, p))) :
    ReallocKeeps v m bl pl live b size := by
  have hinb := h.inside b hb
  obtain ⟨_, _, _, -, -, hcov, -⟩ := h.heap.kalloc hn hk
  obtain ⟨bl', pl', howned, hbelow, hf₁⟩ := h.kalloc hn hk
  obtain ⟨habove, hlow⟩ := howned.inside ⟨p, size⟩ List.mem_cons_self
  dsimp only at habove hlow
  have hcopy : Mem.Frame {a | p ≤ a ∧ a < p + size} m₁ (memcpy m₁ p b.ptr size) := frame_memcpy fun x h1 h2 => ⟨h1, h2⟩
  have howned' : Owned v (memcpy m₁ p b.ptr size) bl' pl' (⟨p, size⟩ :: live) held :=
    howned.write_payload List.mem_cons_self hcopy
  obtain ⟨m', hfree, hkeep⟩ := kfree_keeps howned' hb hbelow
  have hdisj : ∀ c ∈ live, Region.Disjoint (Block.region ⟨p, size⟩) c.region := by
    intro c hc a ha
    have h1 := howned.exclusive a
    have h2 := coverage_pos_of_mem (List.mem_map_of_mem (f := Block.region) hc) ha.2
    rw [Owned.coverage_all, List.map_cons, coverage_cons, Region.ind_of_has ha.1] at h1
    omega
  refine ⟨m', p, ?_, ?_, fun a h1 h2 => ?_, ?_, fun c hc => hdisj c (List.mem_of_mem_erase hc), fun i hi => ?_⟩
  · exact realloc_comes (by omega) (by omega) h0 hk hfree
  · rw [headerSize]
    exact Nat.le_of_lt habove
  · have hfree := hcov a
    rw [headerSize] at h1
    rw [Region.ind_of_has ⟨h1, show a < p - 4 + (size + 4) by omega⟩] at hfree
    rw [mem_covered, coverage_append]
    omega
  · refine Eq.trans ?_ (howned'.header ⟨p, size⟩ List.mem_cons_self)
    exact load_congr fun x h1 h2 => hkeep x (by simp only [Region.Has, Block.region, headerSize] at *; omega)
  · rw [hkeep (p + i) (by simp only [Region.Has, Block.region]; omega)]
    have hout : ¬(p ≤ b.ptr + i ∧ b.ptr + i < p + size) := fun hin =>
      hdisj b hb (b.ptr + i) ⟨by simp only [Region.Has, Block.region]; omega, by simp only [Region.Has, Block.region]; omega⟩
    rw [byte_memcpy_of_outside (by omega) hout]
    refine (hf₁ (b.ptr + i) fun hx => ?_).1
    have h1 := h.coverage_live_of_covered _ hx
    have h2 := coverage_pos_of_mem (List.mem_map_of_mem (f := Block.region) hb) (a := b.ptr + i)
      (by simp only [Region.Has, Block.region]; omega)
    omega

end

/-- When `kalloc` has a block of the new size, `realloc` of a live block keeps the contents exactly when the new size lies below
256 MB with its header. -/
theorem realloc_keeps_contents_iff {v : HeapVars} {m m₁ : Mem} {bl pl : List Region} {live : List Block} {held : List Nat} {b : Block}
    (h : Owned v m bl pl live held) (hb : b ∈ live) {size p : Nat} (h0 : 0 < size)
    (hk : Comes (fun fuel => kalloc fuel v m size) (.ok (m₁, p))) :
    ReallocKeeps v m bl pl live b size ↔ size + headerSize ≤ 268435456 := by
  constructor
  · rintro ⟨m', p', -, habove, hfree, -⟩
    have hlow : ∀ r ∈ bl ++ pl, r.stop ≤ 268435456 := fun r hr => (List.mem_append.1 hr).elim (h.blocks.low r) (h.pages.low r)
    have hin : ∀ a, 0 < coverage [⟨p' - headerSize, size + headerSize⟩] a → 0 < coverage (bl ++ pl) a := fun a ha => by
      obtain ⟨r, hr, hlow, hhigh⟩ := coverage_pos_iff.1 ha
      obtain rfl := List.mem_singleton.1 hr
      exact hfree a hlow (by dsimp only at hhigh; omega)
    have hstop := stop_le_of_covered hlow hin _ (List.mem_singleton_self _) (Nat.add_pos_left h0 _)
    exact Nat.le_trans (Nat.le_add_left _ _) hstop
  · intro hle
    exact h.reallocKeeps hb h0 hle hk

/-- A block of 100 bytes in the last page of a fresh memory, made 200 bytes long: the new block is cut from below the old one. -/
theorem realloc_keeps_contents_iff_tiny :
    ∃ bl pl, Owned tinyMemory.toHeapVars tinyBlock bl pl [⟨0x203f9c, 100⟩] [] ∧
      ReallocKeeps tinyMemory.toHeapVars tinyBlock bl pl [⟨0x203f9c, 100⟩] ⟨0x203f9c, 100⟩ 200 := by
  obtain ⟨bl, pl, howned⟩ := HeapInv.of_reach (b := tinyMemory) (by decide) tinyBlock_reached
  have hcall : kalloc 2 tinyMemory.toHeapVars tinyBlock 200 = .ok ((kallocSplit tinyBlock 200 204 0x110008 0x203000).1, 0x203ed0) :=
    rfl
  refine ⟨bl, pl, howned, ?_⟩
  exact (realloc_keeps_contents_iff howned List.mem_cons_self (by decide) ((settles_kalloc _ _ _).comes hcall)).2 (by decide)

/-- The other of two blocks of 100 bytes, made 268435453 bytes long. No sum wraps, but the 65537 pages are cut to one: `kalloc` returns
a block that begins in that page and goes on over the live block. -/
theorem realloc_keeps_contents_false :
    ∃ bl pl, Owned tinyMemory.toHeapVars tinyBlocks bl pl [⟨0x203f34, 100⟩, ⟨0x203f9c, 100⟩] [] ∧
      (∃ m₁, Comes (fun fuel => kalloc fuel tinyMemory.toHeapVars tinyBlocks 268435453) (.ok (m₁, 0x203003))) ∧
      268435453 + headerSize + 4095 < 4294967296 ∧
      ¬Region.Disjoint (Block.region ⟨0x203003, 268435453⟩) (Block.region ⟨0x203f34, 100⟩) ∧
      ¬ReallocKeeps tinyMemory.toHeapVars tinyBlocks bl pl [⟨0x203f34, 100⟩, ⟨0x203f9c, 100⟩] ⟨0x203f9c, 100⟩ 268435453 := by
  obtain ⟨-, -, hstep, -⟩ := tinySteps
  obtain ⟨bl, pl, howned⟩ := HeapInv.of_reach (b := tinyMemory) (by decide) (tinyBlock_reached.step ⟨.kalloc 100, trivial, hstep⟩)
  obtain ⟨m₁, hm₁⟩ : ∃ m₁, kalloc 4 tinyMemory.toHeapVars tinyBlocks 268435453 = .ok (m₁, 0x203003) := ⟨_, rfl⟩
  have hk := (settles_kalloc _ _ _).comes hm₁
  have hmeet : ¬Region.Disjoint (Block.region ⟨0x203003, 268435453⟩) (Block.region ⟨0x203f34, 100⟩) := fun hdis =>
    hdis 0x203f34 (by decide)
  refine ⟨bl, pl, howned, ⟨m₁, hk⟩, by decide, hmeet, ?_⟩
  rintro ⟨m', p, hr, -, -, -, hdis, -⟩
  obtain rfl := realloc_ptr (by decide) hk hr
  exact hmeet (hdis ⟨0x203f34, 100⟩ (by decide))

end BootPerl
