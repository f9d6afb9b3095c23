import BootPerl.Lemmas.Search

/-!
# Requests beyond the page counter

`kalloc` counts pages in an `int` and asks for them in an `unsigned short`. From 2 ^ 16 pages on, what it then puts on the block
list is described as much larger than what it took. `Inflated` says what the lists are like while that goes on: each block is as
large as it says, or says that it has `B` bytes. No block touches what follows, so the merges of `mem_free` are few, and the search
comes to a block of the size asked for or to a panic, as the runs that are left decide.
-/

namespace BootPerl

open Mem Outcome

/-! ## A block of any size -/

/-- The eight bytes of a node. -/
def nodeRegion (r : Region) : Region := ⟨r.addr, 8⟩

section
variable {v : HeapVars} {m : Mem} {l : List Region} {x B : Nat}

/-- Nothing follows a block that is described as reaching over the end of memory. -/
theorem blockSpliceNext_oversize (hlow : ∀ r ∈ l, r.addr < 268435456) (habove : ∀ r ∈ l, x < r.addr) (hx : x < 268435456)
    (hB : 268435456 ≤ B) (hB' : B < 4294967296) : blockSpliceNext m x B (firstAddr l) = (m.setNext x (firstAddr l), B) := by
  rw [blockSpliceNext, if_neg]
  rintro ⟨hsum, h0⟩
  cases l with
  | nil => exact h0 rfl
  | cons f fs =>
    have h1 := hlow f List.mem_cons_self
    have h2 := habove f List.mem_cons_self
    rw [firstAddr] at hsum
    omega

theorem spliceNext_oversize (hlow : ∀ r ∈ l, r.addr < 268435456) (hB : 268435456 ≤ B) :
    m.spliceNext 1 4 (firstAddr l) x B = (m.setNext x (firstAddr l), B) := by
  have hfirst := firstAddr_lt (by decide) hlow
  exact spliceNext_gap fun hc => by omega

/-- Where no block ends, such a block is linked in as it is. -/
theorem memFree_oversize (hl : Linked 1 4 m (⟨v.blocksHead, 0⟩ :: l)) (hpos : ∀ r ∈ l, 0 < r.addr)
    (hlow : ∀ r ∈ l, r.addr < 268435456) (hasc : l.Pairwise fun r s => r.addr < s.addr)
    (hsep : ((⟨v.blocksHead, 0⟩ : Region) :: l).Pairwise NodeApart) (hx : x < 268435456)
    (hap : ∀ r ∈ (⟨v.blocksHead, 0⟩ : Region) :: l, NodeApart r ⟨x, B⟩) (hB : 268435456 ≤ B) (hB' : B < 4294967296)
    (hgap : ∀ r ∈ l, r.addr < x → (r.addr + r.size) % 4294967296 ≠ x) :
    ∃ m' pre post, l = pre ++ post ∧ (∀ r ∈ pre, r.addr < x) ∧ (∀ r ∈ post, x < r.addr) ∧
      (∀ fuel, l.length < fuel → memFree fuel v m x B false = .ok m') ∧
      Linked 1 4 m' (⟨v.blocksHead, 0⟩ :: (pre ++ ⟨x, B⟩ :: post)) ∧
      Mem.Frame (nodeBytes (⟨v.blocksHead, 0⟩ :: ⟨x, B⟩ :: l)) m m' := by
  have hv := v.blocksLow
  have hone : (⟨x, 1 * B⟩ : Region) = ⟨x, B⟩ := by rw [Nat.one_mul]
  have hne : ∀ r ∈ (⟨v.blocksHead, 0⟩ : Region) :: l, r.addr ≠ x := fun r hr heq => by
    have := hap r hr
    simp only [NodeApart] at this
    omega
  -- no node at or below `x` ends there, whether the sum wraps or not
  have hmod : ∀ r ∈ (⟨v.blocksHead, 0⟩ : Region) :: l, r.addr ≤ x → (r.addr + r.size) % 4294967296 ≠ x := by
    refine List.forall_mem_cons.2 ⟨fun _ => ?_, fun r hr hle => hgap r hr ?_⟩
    · have := hne _ List.mem_cons_self
      dsimp only at this ⊢
      omega
    · exact Nat.lt_of_le_of_ne hle (hne r (List.mem_cons_of_mem _ hr))
  have hstop : ∀ r ∈ (⟨v.blocksHead, 0⟩ : Region) :: l, r.stop ≠ x := fun r hr heq => by
    simp only [Region.stop] at heq
    exact hmod r hr (by omega) (by omega)
  have hsub := after_sublist x l
  have hnext := blockSpliceNext_oversize (m := m) (fun r hr => hlow r (hsub.subset hr)) (lt_of_mem_after hasc) hx hB hB'
  have hsplice := spliceNext_oversize (m := m) (x := x) (fun r hr => hlow r (hsub.subset hr)) hB
  obtain ⟨pre, post, heql, hpre, hpost, hlinked, hframe⟩ := linked_splice_of_gap (u := 1) (n := B) (by decide) (Nat.le_refl 4) hl hpos
    (fun r hr => Nat.lt_trans (hlow r hr) (by decide)) (Nat.lt_trans hx (by decide)) hasc hsep (by rwa [hone]) hstop
    (fun r hr => by
      have := hlow r hr
      omega) hB'
  rw [hone] at hlinked hframe
  refine ⟨_, pre, post, heql, hpre, hpost, fun fuel hfuel => ?_, hlinked, hframe⟩
  have hmem := before_mem x l ⟨v.blocksHead, 0⟩
  have hq : ((before x ⟨v.blocksHead, 0⟩ l).addr + (before x ⟨v.blocksHead, 0⟩ l).size) % 4294967296 ≠ x := by
    rcases before_le x l ⟨v.blocksHead, 0⟩ with heq | ⟨-, hle⟩
    · have := hne _ List.mem_cons_self
      rw [heq]
      dsimp only at this ⊢
      omega
    · exact hmod _ hmem hle
  have hkeep : (m.setNext x (firstAddr (after x l))).load (before x ⟨v.blocksHead, 0⟩ l).addr 4 =
      (before x ⟨v.blocksHead, 0⟩ l).size := by
    rw [(load_of_nodeApart (Nat.le_refl 4) (frame_setNext ⟨x, B⟩ m _) (hap _ hmem).symm).1]
    exact (Nat.one_mul _).symm.trans (hl.count _ hmem)
  rw [memFree, scan_eq hl hpos hfuel]
  simp only [hnext, splice, hsplice, splicePrev, hkeep, Nat.one_mul, blockSplicePrev, Mem.size]
  rw [if_neg hq, if_neg (show ¬_ + _ = x from hstop _ hmem)]
  rfl

/-- The block that ends there takes it in. -/
theorem memFree_oversize_touch {pre post : List Region} {q : Region}
    (hl : Linked 1 4 m (⟨v.blocksHead, 0⟩ :: (pre ++ q :: post))) (hpos : ∀ r ∈ pre ++ q :: post, 0 < r.addr)
    (hlow : ∀ r ∈ post, r.addr < 268435456) (hsep : (⟨v.blocksHead, 0⟩ :: (pre ++ q :: post)).Pairwise NodeApart)
    (hx : x < 268435456) (hap : ∀ r ∈ (⟨v.blocksHead, 0⟩ : Region) :: (pre ++ q :: post), NodeApart r ⟨x, B⟩)
    (hB : 268435456 ≤ B) (hpre : ∀ r ∈ pre, r.addr ≤ x) (hq : q.stop = x) (hpost : ∀ r ∈ post, x < r.addr)
    (hfit : q.size + B < 4294967296) :
    ∃ m', (∀ fuel, (pre ++ q :: post).length < fuel → memFree fuel v m x B false = .ok m') ∧
      Linked 1 4 m' (⟨v.blocksHead, 0⟩ :: (pre ++ ⟨q.addr, q.size + B⟩ :: post)) := by
  have hmem : q ∈ (⟨v.blocksHead, 0⟩ : Region) :: (pre ++ q :: post) := by simp
  have hfirst : firstAddr post < 4294967296 := Nat.lt_trans (firstAddr_lt (by decide) hlow) (by decide)
  obtain ⟨hbefore, hafter⟩ := before_append (e := ⟨v.blocksHead, 0⟩)
    (show q.addr ≤ x by simp only [Region.stop] at hq; omega) hpost hpre
  -- the node at `x` first, then the one before it
  have hf₁ : Mem.Frame (nodeBytes [⟨x, B⟩]) m (m.setNext x (firstAddr post)) := frame_setNext ⟨x, B⟩ m _
  have hl₁ := hl.frame_node (Nat.le_refl 4) hf₁ fun r hr => (hap r hr).symm
  have hsize : (m.setNext x (firstAddr post)).size q.addr = q.size := (Nat.one_mul _).symm.trans (hl₁.count q hmem)
  have hf₂ := frame_storeCount (Nat.le_refl 4) q (m.setNext x (firstAddr post)) (q.size + B)
  have hnext : ((m.setNext x (firstAddr post)).setSize q.addr (q.size + B)).next x = firstAddr post :=
    (load_of_nodeApart (Nat.le_refl 4) hf₂ (hap q hmem)).2.trans (next_setNext hfirst)
  have htouch : (q.addr + q.size) % 4294967296 = x := by
    simp only [Region.stop] at hq
    omega
  refine ⟨_, fun fuel hfuel => ?_, linked_resize (Nat.le_refl 4)
    (hf₂.trans (frame_setNext q ((m.setNext x (firstAddr post)).setSize q.addr (q.size + B)) (firstAddr post))) ?_
    (next_setNext hfirst) (⟨v.blocksHead, 0⟩ :: pre) hl₁ hsep⟩
  · rw [memFree, scan_eq hl hpos hfuel, hbefore, hafter]
    simp only [blockSpliceNext_oversize hlow hpost hx hB (show B < 4294967296 by omega), blockSplicePrev, hsize]
    rw [if_pos htouch, hnext]
    rfl
  · rw [Nat.one_mul, load_setNext_count (Nat.le_refl 4)]
    exact load_storeCount hfit

end

/-! ## The lists while they are gathered -/

/-- The nodes of disjoint regions lie apart. -/
theorem nodeApart_of_exclusive {l : List Region} (h : Exclusive (l.map nodeRegion)) : l.Pairwise NodeApart :=
  (List.pairwise_map.1 h.pairwise).imp fun hrs => hrs.apart (show 0 < 8 by decide) (show 0 < 8 by decide)

theorem mem_nodeBytes {l : List Region} {a : Nat} : a ∈ nodeBytes l ↔ 0 < coverage (l.map nodeRegion) a := by
  simp only [coverage_pos_iff, List.mem_map, exists_exists_and_eq_and]
  rfl

/-- A block is as large as it says, and apart from the free pages, or says that it has `B` bytes. -/
structure Inflated (v : HeapVars) (B : Nat) (m : Mem) (l pl : List Region) : Prop where
  linked : Linked 1 4 m (⟨v.blocksHead, 0⟩ :: l)
  pages : PageList v m pl
  exclusive : Exclusive (v.heads ++ l.map nodeRegion ++ pl)
  pos : ∀ r ∈ l, 0 < r.addr
  low : ∀ r ∈ l, r.addr < 268435456
  order : l.Pairwise fun r s => r.addr < s.addr ∧ (r.size = B ∨ r.stop ≤ s.addr)
  real : ∀ r ∈ l, r.size = B ∨ 8 ≤ r.size ∧ r.stop ≤ 268435456 ∧ ∀ a, r.Has a → coverage pl a = 0

/-- A well-formed heap to begin with. -/
theorem Heap.inflated {v : HeapVars} {m : Mem} {bl pl : List Region} (h : Heap v m bl pl) (B : Nat) : Inflated v B m bl pl := by
  have hroom := h.blocks.free.room
  have hnodes : ∀ a, coverage (bl.map nodeRegion) a ≤ coverage bl a := fun a => by
    clear h
    induction bl with
    | nil => exact Nat.le_refl _
    | cons r rs ih =>
      obtain ⟨hr, hrs⟩ := List.forall_mem_cons.1 hroom
      have := ih hrs
      simp only [List.map_cons, coverage_cons, nodeRegion, Region.ind]
      split_ifs <;> omega
  refine ⟨h.blocks.free.linked, h.pages, fun a => ?_, h.blocks.free.pos, fun r hr => ?_,
    h.blocks.free.canonical.imp fun hrs => ?_, fun r hr => Or.inr ⟨hroom r hr, h.blocks.low r hr, fun a ha => ?_⟩⟩
  · have h1 := h.exclusive a
    have h2 := hnodes a
    rw [Heap.coverage_heads] at h1 ⊢
    omega
  · have h1 := hroom r hr
    have h2 := h.blocks.low r hr
    simp only [Region.stop] at h2
    omega
  · simp only [Region.stop] at hrs ⊢
    exact ⟨by omega, Or.inr (by omega)⟩
  · have h1 := h.exclusive a
    have h2 := coverage_pos_of_mem hr ha
    rw [Heap.coverage_heads] at h1
    omega

/-- Some run has the `taken` bytes that a refill takes, and the `given` bytes that it puts on the list, or these and the block that
ends where the run begins, have size `need`. -/
def Refills (need given taken : Nat) (l pl : List Region) : Prop :=
  ∃ r ∈ pl, taken ≤ r.size ∧ (need ≤ given ∨ r.size % taken = 0 ∧ ∃ b ∈ l, b.stop = r.addr)

namespace Inflated
variable {v : HeapVars} {B x K : Nat} {m m' : Mem} {l pl : List Region}

/-- How often the heads, the nodes of the blocks and the page runs cover an address. -/
theorem coverage_nodes (v : HeapVars) (l pl : List Region) (a : Nat) :
    coverage (v.heads ++ l.map nodeRegion ++ pl) a =
      Region.ind ⟨v.pagesHead, 8⟩ a + coverage ((⟨v.blocksHead, 0⟩ :: l).map nodeRegion) a + coverage pl a := by
  simp only [HeapVars.heads, nodeRegion, List.map_cons, coverage_append, coverage_cons, coverage_nil]
  omega

theorem nodeApart (h : Inflated v B m l pl) : ((⟨v.blocksHead, 0⟩ : Region) :: l).Pairwise NodeApart := by
  refine nodeApart_of_exclusive fun a => ?_
  have := h.exclusive a
  rw [coverage_nodes] at this
  omega

/-- Memory beside all of them is apart from the nodes. -/
theorem nodeApart_of_beside (hex : Exclusive (⟨x, K⟩ :: (v.heads ++ l.map nodeRegion ++ pl))) (hK : 8 ≤ K) :
    ∀ r ∈ (⟨v.blocksHead, 0⟩ : Region) :: l, NodeApart r ⟨x, B⟩ := by
  have hex' : Exclusive (⟨x, K⟩ :: (⟨v.blocksHead, 0⟩ :: l).map nodeRegion) := fun a => by
    have := hex a
    rw [coverage_cons, coverage_nodes] at this
    rw [coverage_cons]
    omega
  intro r hr
  have hap := apart_of_cover hex' (show 0 < K by omega) (nodeRegion r) (List.mem_map_of_mem hr) (show 0 < 8 by decide)
  simp only [Region.Apart, Region.stop, nodeRegion] at hap
  simp only [NodeApart]
  omega

/-- `page_allocate_consecutive` panics, or takes pages first fit. -/
theorem consecutive (h : Inflated v B m l pl) {count : Nat} (h0 : 0 < count) :
    ((∀ r ∈ pl, r.size < 4096 * count) ∧
        Comes (fun fuel => pageAllocateConsecutive fuel v m count) (.panic (outOfPages pl))) ∨
      ∃ t pl' m' page, FirstFit (4096 * count) pl t pl' ∧
        Comes (fun fuel => pageAllocateConsecutive fuel v m count) (.ok (m', page)) ∧ t = ⟨page * 4096, 4096 * count⟩ ∧
        0 < page ∧ page * 4096 + 4096 * count ≤ 268435456 ∧ Inflated v B m' l pl' ∧
        Exclusive (t :: (v.heads ++ l.map nodeRegion ++ pl')) := by
  rcases h.pages.firstFit_comes h0 with hnone | ⟨t, pl', m', page, hfit, hok, ht, h1, hlow, hpl', hf⟩
  · exact Or.inl hnone
  · have hex : ∀ a, coverage (v.heads ++ l.map nodeRegion ++ pl') a + t.ind a ≤ 1 := fun a => by
      have h1 := h.exclusive a
      have h2 := hfit.coverage a
      rw [coverage_append] at h1 ⊢
      omega
    refine Or.inr ⟨t, pl', m', page, hfit, hok, ht, h1, hlow,
      { h with linked := ?_, pages := hpl', exclusive := ?_, real := ?_ }, ?_⟩
    · refine h.linked.frame (Nat.le_refl 4) hf fun r hr a h1 h2 hc => ?_
      have hnode := coverage_pos_of_mem (List.mem_map_of_mem hr) (show (nodeRegion r).Has a from ⟨h1, h2⟩)
      have hone := h.exclusive a
      rw [coverage_nodes] at hone
      rw [mem_covered, coverage_cons] at hc
      omega
    · exact fun a => Nat.le_of_add_right_le (hex a)
    · intro r hr
      rcases h.real r hr with heq | ⟨hroom, hend, hout⟩
      · exact Or.inl heq
      · refine Or.inr ⟨hroom, hend, fun a ha => ?_⟩
        have h1 := hout a ha
        have h2 := hfit.coverage a
        omega
    · intro a
      rw [coverage_cons, Nat.add_comm]
      exact hex a

/-- A block that ends in a run ends where the run begins. -/
theorem addr_eq_of_stop (h : Inflated v B m l pl) (hB : 268435456 ≤ B) {b f : Region} (hb : b ∈ l) (hf : f ∈ pl)
    (hin : f.Has b.stop) : f.addr = b.stop := by
  have hend := h.pages.low f hf
  rcases h.real b hb with heq | ⟨hroom, -, hout⟩
  · simp only [Region.Has, Region.stop] at hin hend
    omega
  · by_contra hne
    simp only [Region.Has, Region.stop] at hin hne
    have h1 := hout (b.stop - 1) ⟨by simp only [Region.stop]; omega, by simp only [Region.stop]; omega⟩
    have h2 := coverage_pos_of_mem hf (a := b.stop - 1) ⟨by simp only [Region.stop]; omega, by simp only [Region.stop]; omega⟩
    omega

/-- Memory taken from the runs goes as `B` bytes to the block that ends there. -/
theorem put_touch (h : Inflated v B m l pl) (hx : x + K ≤ 268435456) (hK : 8 ≤ K) (hB : 268435456 ≤ B)
    (hsum : B ≤ 4026531840 + K) (hap : ∀ r ∈ (⟨v.blocksHead, 0⟩ : Region) :: l, NodeApart r ⟨x, B⟩) {b : Region} (hb : b ∈ l)
    (hstop : b.stop = x) :
    ∃ m' pre s post, Comes (fun fuel => memFree fuel v m x B false) (.ok m') ∧
      Linked 1 4 m' (⟨v.blocksHead, 0⟩ :: (pre ++ s :: post)) ∧ (∀ r ∈ pre ++ s :: post, 0 < r.addr) ∧ (∀ r ∈ pre, r ∈ l) ∧
      B + 8 ≤ s.size ∧ s.addr + s.size = x + B := by
  have haddr := h.pos b hb
  have hreal := h.real b hb
  obtain ⟨pre, post, rfl⟩ := List.append_of_mem hb
  obtain ⟨-, hbp, hpre⟩ := List.pairwise_append.1 h.order
  simp only [Region.stop] at hstop hreal hbp
  rcases hreal with heq | ⟨hroom, -, -⟩
  · omega
  · have hpost : ∀ r ∈ post, x < r.addr := fun r hr => by
      have h1 := hap r (by simp [hr])
      have h2 := ((List.pairwise_cons.1 hbp).1 r hr).2
      simp only [NodeApart] at h1
      omega
    have hle : ∀ r ∈ pre, r.addr ≤ x := fun r hr => by
      have := (hpre r hr b List.mem_cons_self).1
      omega
    obtain ⟨m', hok, hl⟩ := memFree_oversize_touch h.linked h.pos (fun r hr => h.low r (by simp [hr])) h.nodeApart (by omega)
      hap hB hle hstop hpost (by omega)
    have hpos := h.pos
    simp only [List.forall_mem_append, List.forall_mem_cons] at hpos
    refine ⟨m', pre, ⟨b.addr, b.size + B⟩, post, ⟨_, hok⟩, hl, ?_, fun r hr => by simp [hr], by dsimp only; omega,
      by dsimp only; omega⟩
    simp only [List.forall_mem_append, List.forall_mem_cons]
    exact hpos

/-- Where no block ends it goes to the list as a block of its own. -/
theorem put_gap (h : Inflated v B m l pl) (h0 : 0 < x) (hx : x + K ≤ 268435456) (hK : 8 ≤ K) (hB : 268435456 ≤ B)
    (hB' : B < 4294967296) (hex : Exclusive (⟨x, K⟩ :: (v.heads ++ l.map nodeRegion ++ pl)))
    (hbeside : ∀ r ∈ l, r.size = B ∨ ∀ a, r.Has a → ¬Region.Has ⟨x, K⟩ a) (hgap : ∀ b ∈ l, b.stop ≠ x) :
    ∃ m' pre post, l = pre ++ post ∧ Comes (fun fuel => memFree fuel v m x B false) (.ok m') ∧
      Inflated v B m' (pre ++ ⟨x, B⟩ :: post) pl := by
  obtain ⟨m', pre, post, rfl, hpre, hpost, hok, hl, hf⟩ := memFree_oversize h.linked h.pos h.low (h.order.imp fun hrs => hrs.1)
    h.nodeApart (show x < 268435456 by omega) (nodeApart_of_beside hex hK) hB hB' fun r hr hlt => by
      have h1 := hgap r hr
      have h2 := h.low r hr
      have h3 := h.real r hr
      simp only [Region.stop] at h1 h3
      omega
  have hnode : ∀ a, Region.ind ⟨x, 8⟩ a ≤ Region.ind ⟨x, K⟩ a := fun a => by
    simp only [Region.ind]
    split_ifs <;> omega
  have hpos := h.pos
  have hlow := h.low
  have hreal := h.real
  refine ⟨m', pre, post, rfl, ⟨_, hok⟩, hl, h.pages.frame hf fun r hr a ha hc => ?_, fun a => ?_, ?_, ?_, ?_, ?_⟩
  · have h1 := coverage_pos_of_mem hr ha
    have h2 := hex a
    have h3 := hnode a
    rw [mem_nodeBytes] at hc
    rw [coverage_cons, coverage_nodes] at h2
    simp only [List.map_cons, coverage_cons, nodeRegion] at h1 h2 h3 hc
    omega
  · have h2 := hex a
    have h3 := hnode a
    rw [coverage_cons, coverage_nodes] at h2
    rw [coverage_nodes]
    simp only [List.map_cons, List.map_append, coverage_cons, coverage_append, nodeRegion] at h2 h3 ⊢
    omega
  · simp only [List.forall_mem_append, List.forall_mem_cons] at hpos ⊢
    exact ⟨hpos.1, h0, hpos.2⟩
  · simp only [List.forall_mem_append, List.forall_mem_cons] at hlow ⊢
    exact ⟨hlow.1, by omega, hlow.2⟩
  · obtain ⟨hopre, hopost, hprepost⟩ := List.pairwise_append.1 h.order
    refine List.pairwise_append.2 ⟨hopre, List.pairwise_cons.2 ⟨fun r hr => ⟨hpost r hr, Or.inl rfl⟩, hopost⟩, fun r hr => ?_⟩
    refine List.forall_mem_cons.2 ⟨⟨hpre r hr, ?_⟩, hprepost r hr⟩
    refine (hbeside r (by simp [hr])).imp_right fun hout => ?_
    by_contra hlt
    have := hpre r hr
    simp only [Region.stop] at hlt
    exact hout x ⟨by omega, by omega⟩ ⟨Nat.le_refl _, by dsimp only; omega⟩
  · simp only [List.forall_mem_append, List.forall_mem_cons] at hreal ⊢
    exact ⟨hreal.1, Or.inl trivial, hreal.2⟩

/-- While refills do not lead to a block of size `need`, the runs that are left decide as the runs did before. -/
theorem refills_iff {need : Nat} {pl' pre post : List Region} {t : Region} (hneed : B < need) (hB : 268435456 ≤ B) (h0 : 0 < K)
    (hlow : ∀ r ∈ pl, r.addr < 268435456) (hfit : FirstFit K pl t pl') (hgap : ∀ b ∈ pre ++ post, b.stop ≠ t.addr) :
    Refills need B K (pre ++ ⟨t.addr, B⟩ :: post) pl' ↔ Refills need B K (pre ++ post) pl := by
  -- the new block ends above all runs
  have hends : ∀ {a}, a < 268435456 → ((∃ b ∈ pre ++ ⟨t.addr, B⟩ :: post, b.stop = a) ↔ ∃ b ∈ pre ++ post, b.stop = a) := by
    intro a ha
    have hne : t.addr + B ≠ a := by omega
    simp only [List.mem_append, List.mem_cons, or_and_right, exists_or, exists_eq_left, Region.stop, hne, false_or]
  cases hfit with
  | @intro rpre rpost f hsmall hK =>
    have hf : f.addr < 268435456 := hlow f (by simp)
    constructor
    · rintro ⟨r, hr, hk, hge | ⟨hmod, hb⟩⟩
      · exact absurd hge (Nat.not_le_of_lt hneed)
      · simp only [List.mem_append] at hr
        rcases hr with (hr | hr) | hr
        · exact ⟨r, by simp [hr], hk, Or.inr ⟨hmod, (hends (hlow r (by simp [hr]))).1 hb⟩⟩
        · unfold carve at hr
          split at hr
          · exact absurd hr List.not_mem_nil
          · rw [List.mem_singleton] at hr
            subst hr
            exact ⟨f, by simp, hK, Or.inr ⟨by rw [Nat.mod_eq_sub_mod hK]; exact hmod, (hends hf).1 hb⟩⟩
        · exact ⟨r, by simp [hr], hk, Or.inr ⟨hmod, (hends (hlow r (by simp [hr]))).1 hb⟩⟩
    · rintro ⟨r, hr, hk, hge | ⟨hmod, hb⟩⟩
      · exact absurd hge (Nat.not_le_of_lt hneed)
      · have hb' := (hends (hlow r hr)).2 hb
        simp only [List.mem_append, List.mem_cons] at hr
        rcases hr with hr | rfl | hr
        · exact ⟨r, by simp [hr], hk, Or.inr ⟨hmod, hb'⟩⟩
        · have hne : r.size ≠ K := by
            rintro rfl
            obtain ⟨b, hb, hstop⟩ := hb
            refine hgap b hb (hstop.trans ?_)
            rw [top, Nat.sub_self, Nat.add_zero]
          have hrest : (r.size - K) % K = 0 := by rwa [← Nat.mod_eq_sub_mod hK]
          refine ⟨⟨r.addr, r.size - K⟩, by simp [carve, hne], ?_, Or.inr ⟨hrest, hb'⟩⟩
          exact Nat.le_of_dvd (show 0 < r.size - K by omega) (Nat.dvd_of_mod_eq_zero hrest)
        · exact ⟨r, by simp [hr], hk, Or.inr ⟨hmod, hb'⟩⟩

/-- When no block has size `need`, the search comes to one exactly when a refill, after others, leads to one; else it panics. The
block ends no further above memory than a refill does. -/
theorem search {realsize need count : Nat} (hneed : (realsize + freeblockSize) % 4294967296 = need)
    (hcount : (realsize + 4095) % 4294967296 / 4096 % 65536 = count)
    (hbytes : (realsize + 4095) % 4294967296 / 4096 * 4096 % 4294967296 = B) (h0 : 0 < count) (hB : 268435456 ≤ B)
    (hsum : B ≤ 4026531840 + 4096 * count) (hle : need ≤ B + 8) (h : Inflated v B m l pl) (hsmall : ∀ r ∈ l, r.size < need) :
    (Refills need B (4096 * count) l pl ∧ ∃ m' q p j, need ≤ m'.size p ∧ p + m'.size p ≤ 268435456 + B ∧
        Ends v realsize m v.blocksHead (m.next v.blocksHead) (.ok (m', q, p)) j) ∨
      (¬Refills need B (4096 * count) l pl ∧
        ∃ msg j, Ends v realsize m v.blocksHead (m.next v.blocksHead) (.panic msg) j) := by
  induction hn : total pl using Nat.strong_induction_on generalizing m l pl with
  | _ n ih =>
    have hscan : ∀ {y j}, (∀ q, Ends v realsize m q 0 y j) → Ends v realsize m v.blocksHead (m.next v.blocksHead) y j := by
      intro y j hy
      rw [show m.next v.blocksHead = firstAddr l from h.linked.2.1]
      exact Ends.scan hneed h.linked h.pos hsmall hy
    rcases h.consecutive h0 with ⟨hnone, hp⟩ | ⟨t, pl', m₁, page, hfit, h₁, rfl, hpage, hlow, hinfl, hex⟩
    · refine Or.inr ⟨?_, _, 0, hscan fun _ => Ends.exhausted hcount hp⟩
      rintro ⟨r, hr, hk, -⟩
      exact absurd hk (Nat.not_le_of_lt (hnone r hr))
    · obtain ⟨f, hf, hK, htop⟩ := hfit.exists_top
      simp only [top, Region.mk.injEq, and_true] at htop
      have hbeside : ∀ r ∈ l, r.size = B ∨ ∀ a, r.Has a → ¬Region.Has ⟨page * 4096, 4096 * count⟩ a := fun r hr => by
        rcases h.real r hr with heq | ⟨-, -, hout⟩
        · exact Or.inl heq
        · refine Or.inr fun a ha ht => ?_
          have h1 := hout a ha
          have h2 := hfit.coverage a
          rw [Region.ind_of_has ht] at h2
          omega
      -- where a refill leads to a block of the size sought, the search ends with it
      have hfound : ∀ {m₂ pre s post}, Comes (fun fuel => memFree fuel v m₁ (page * 4096) B false) (.ok m₂) →
          Linked 1 4 m₂ (⟨v.blocksHead, 0⟩ :: (pre ++ s :: post)) → (∀ r ∈ pre ++ s :: post, 0 < r.addr) → (∀ r ∈ pre, r ∈ l) →
          need ≤ s.size → s.addr + s.size = page * 4096 + B → ∃ m' q p j, need ≤ m'.size p ∧ p + m'.size p ≤ 268435456 + B ∧
            Ends v realsize m v.blocksHead (m.next v.blocksHead) (.ok (m', q, p)) j := by
        intro m₂ pre s post h₂ hl₂ hpos₂ hpre hs hend
        obtain ⟨q, hq⟩ := Ends.found hneed hs hl₂ hpos₂ fun r hr => hsmall r (hpre r hr)
        rw [← hl₂.2.1] at hq
        have hsize : m₂.size s.addr = s.size := (Nat.one_mul _).symm.trans (hl₂.count s (by simp))
        exact ⟨m₂, q, s.addr, _, by omega, by omega, hscan fun _ => Ends.refill hcount hbytes h₁ h₂ hq⟩
      by_cases htouch : ∃ b ∈ l, b.stop = page * 4096
      · obtain ⟨b, hb, hstop⟩ := htouch
        obtain ⟨m₂, pre, s, post, h₂, hl₂, hpos₂, hpre, hs, hend⟩ := hinfl.put_touch hlow (by omega) hB hsum
          (nodeApart_of_beside hex (by omega)) hb hstop
        -- the whole run was taken
        have haddr := h.addr_eq_of_stop hB hb hf ⟨by omega, by omega⟩
        have hsize : f.size = 4096 * count := by omega
        exact Or.inl ⟨⟨f, hf, hK, Or.inr ⟨by rw [hsize, Nat.mod_self], b, hb, haddr.symm⟩⟩,
          hfound h₂ hl₂ hpos₂ hpre (by omega) hend⟩
      · have hgap : ∀ b ∈ l, b.stop ≠ page * 4096 := fun b hb hstop => htouch ⟨b, hb, hstop⟩
        obtain ⟨m₂, pre, post, rfl, h₂, hinfl₂⟩ := hinfl.put_gap (by omega) hlow (by omega) hB (by omega) hex hbeside hgap
        by_cases hneed' : need ≤ B
        · exact Or.inl ⟨⟨f, hf, hK, Or.inl hneed'⟩, hfound h₂ hinfl₂.linked hinfl₂.pos (fun r hr => by simp [hr]) hneed' rfl⟩
        · have hlows : ∀ r ∈ pl, r.addr < 268435456 := fun r hr => by
            have h1 := h.pages.low r hr
            have h2 := h.pages.size_ge hr
            simp only [Region.stop] at h1
            omega
          have htotal := hfit.total
          rw [← refills_iff (Nat.lt_of_not_le hneed') hB (by omega) hlows hfit hgap]
          have hsmall₂ : ∀ r ∈ pre ++ (⟨page * 4096, B⟩ : Region) :: post, r.size < need := by
            simp only [List.forall_mem_append, List.forall_mem_cons] at hsmall ⊢
            exact ⟨hsmall.1, Nat.lt_of_not_le hneed', hsmall.2⟩
          rcases ih _ (by omega) hinfl₂ hsmall₂ rfl with ⟨hyes, m', q, p, j, hs, hend, hy⟩ | ⟨hno, msg, j, hy⟩
          · exact Or.inl ⟨hyes, m', q, p, _, hs, hend, hscan fun _ => Ends.refill hcount hbytes h₁ h₂ hy⟩
          · exact Or.inr ⟨hno, msg, _, hscan fun _ => Ends.refill hcount hbytes h₁ h₂ hy⟩

end Inflated

end BootPerl
