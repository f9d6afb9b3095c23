import BootPerl.Lemmas.Ownership

/-!
# What `kfree` stores to

The bytes freed become a list node of eight bytes, but a block of `n` bytes is freed as `n + 4`. So the memory `kfree` stores to
is the block, free memory and the list heads exactly when the block has four bytes or more, or what lies directly above it, up
to the end of the node, is free anyway.
-/

namespace BootPerl

open Mem Outcome

/-- `kfree` of the block returns, stores into the block, the free lists and the heads only, and changes no byte of another live
block. The marks of the memory are cleared before the call, so that they tell what it stores to. -/
def KfreeHarmless (v : HeapVars) (m : Mem) (bl pl : List Region) (live : List Block) (b : Block) : Prop :=
  ∃ m', Comes (fun fuel => kfree fuel v m.clean b.ptr) (.ok m') ∧
    (∀ a, m'.dirty a = true → a ∈ covered (b.region :: (v.heads ++ bl ++ pl))) ∧
    ∀ c ∈ live.erase b, ∀ a, c.region.Has a → m'.byte a = m.byte a

section
variable {v : HeapVars} {m : Mem} {bl pl : List Region} {live : List Block} {held : List Nat} {b : Block}

/-- What a frame around the block, the free lists and the heads says about the call. -/
theorem harmless_of_frame (h : Owned v m bl pl live held) (hb : b ∈ live) {m' : Mem}
    (hr : Comes (fun fuel => kfree fuel v m.clean b.ptr) (.ok m'))
    (hf : Mem.Frame (covered (b.region :: (v.heads ++ bl ++ pl))) m.clean m') : KfreeHarmless v m bl pl live b := by
  refine ⟨m', hr, fun a ha => hf.dirty_mem (dirty_clean m a) ha, fun c hc a ha => (hf a fun hcov => ?_).1⟩
  have h1 := h.exclusive a
  have h2 : 0 < coverage ((live.erase b).map Block.region) a := coverage_pos_of_mem (List.mem_map_of_mem hc) ha
  rw [Owned.coverage_all, Owned.coverage_erase hb] at h1
  rw [mem_covered, coverage_cons] at hcov
  omega

/-- Memory directly above a block that joins a free block to make room for a node is free. -/
theorem covered_above (h : Owned v m bl pl live held) (hb : b ∈ live)
    (hroom : 8 ≤ (joined ⟨b.ptr - 4, b.size + 4⟩ (after (b.ptr - 4) bl)).size) :
    ∀ a, b.ptr + b.size ≤ a → a < b.ptr + 4 → a ∈ covered (v.heads ++ bl ++ pl) := by
  intro a h1 h2
  have hin := h.inside b hb
  have hsub := after_sublist (b.ptr - 4) bl
  cases hafter : after (b.ptr - 4) bl with
  | nil =>
    rw [hafter] at hroom
    simp only [joined] at hroom
    omega
  | cons f fs =>
    rw [hafter] at hroom hsub
    have hf : f ∈ bl := hsub.subset List.mem_cons_self
    by_cases ht : Region.stop ⟨b.ptr - 4, b.size + 4⟩ = f.addr
    · have := h.blocks.free.room f hf
      simp only [Region.stop] at ht
      exact coverage_pos_of_mem (r := f) (by simp [hf]) (by simp only [Region.Has]; omega)
    · simp only [joined_of_gap ht] at hroom
      omega

/-- Either the node has room in the block and the free block it touches, or the call stores past the end of the block. -/
theorem kfree_cases (h : Owned v m bl pl live held) (hb : b ∈ live) :
    (KfreeHarmless v m bl pl live b ∧ ∀ a, b.ptr + b.size ≤ a → a < b.ptr + 4 → a ∈ covered (v.heads ++ bl ++ pl)) ∨
      ∃ m', b.size < 4 ∧ Comes (fun fuel => kfree fuel v m.clean b.ptr) (.ok m') ∧
        Mem.Frame (covered (⟨b.ptr - 4, 8⟩ :: ⟨v.blocksHead, 8⟩ :: bl)) m.clean m' ∧
        ∀ a, b.ptr ≤ a → a < b.ptr + 4 → m'.dirty a = true := by
  rcases h.clean.kfree_cases hb with ⟨hroom, m', hr, hf⟩ | hsmall
  · exact Or.inl ⟨harmless_of_frame h hb hr hf, covered_above h hb hroom⟩
  · exact Or.inr hsmall

end

theorem adjacent_apart : 0x110000 + 8 ≤ 0x110008 ∨ 0x110008 + 8 ≤ 0x110000 := by decide

theorem adjacent_pagesLow : 0x110000 + 8 ≤ 268435456 := by decide

theorem adjacent_blocksLow : 0x110008 + 8 ≤ 268435456 := by decide

def adjacentVars : HeapVars := ⟨0x110000, 0x110008, adjacent_apart, adjacent_pagesLow, adjacent_blocksLow⟩

end BootPerl
