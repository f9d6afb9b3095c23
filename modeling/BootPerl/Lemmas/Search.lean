import BootPerl.Lemmas.Heap

/-!
# `kalloc`

The search loop of `kalloc` walks the block list and, at its end, moves pages to the block list and starts over. On well-formed
lists it does what `Gather` does on lists of regions, and comes to an end: with the first block that is large enough, or in the
panic of `page_allocate_consecutive`. `Ends` says to which, and after how many restarts. The block found is cut at its top.
-/

namespace BootPerl

open Mem Outcome

/-- The search of `kalloc`, and how often it starts over. -/
def kallocCounted (v : HeapVars) (realsize : Nat) : Nat → Mem → Nat → Nat → Outcome (Mem × Nat × Nat) × Nat
  | 0, _, _, _ => (.running, 0)
  | fuel + 1, m, q, p =>
    if p = 0 then
      let pages := (realsize + 4095) % 4294967296 / 4096
      let refilled := (pageAllocateConsecutive fuel v m (pages % 65536)).bind fun (m, page) =>
        memFree fuel v m (pageToAddr page) (pages * 4096 % 4294967296) false
      match refilled with
      | .ok m =>
        let found := kallocCounted v realsize fuel m v.blocksHead (m.next v.blocksHead)
        (found.1, found.2 + 1)
      | .panic msg => (.panic msg, 0)
      | .running => (.running, 0)
    else if m.size p < (realsize + freeblockSize) % 4294967296 then kallocCounted v realsize fuel m p (m.next p)
    else (.ok (m, q, p), 0)

/-- Without the count it is the search. -/
theorem kallocCounted_fst (v : HeapVars) (realsize : Nat) : ∀ (fuel : Nat) (m : Mem) (q p : Nat),
    (kallocCounted v realsize fuel m q p).1 = kallocSearch v realsize fuel m q p := by
  intro fuel
  induction fuel with
  | zero => exact fun _ _ _ => rfl
  | succ fuel ih =>
    intro m q p
    rw [kallocCounted, kallocSearch]
    split
    · dsimp only
      cases pageAllocateConsecutive fuel v m ((realsize + 4095) % 4294967296 / 4096 % 65536) with
      | ok r =>
        obtain ⟨m₁, page⟩ := r
        simp only [bind_ok]
        cases memFree fuel v m₁ (pageToAddr page) ((realsize + 4095) % 4294967296 / 4096 * 4096 % 4294967296) false with
        | ok m₂ => exact ih m₂ _ _
        | panic msg => rfl
        | running => rfl
      | panic msg => rfl
      | running => rfl
    · split
      · exact ih m p _
      · rfl

/-- How often the search of `kalloc` starts over. -/
def kallocRestarts (v : HeapVars) (realsize fuel : Nat) (m : Mem) (q p : Nat) : Nat := (kallocCounted v realsize fuel m q p).2

/-- The search from the node `p`, whose predecessor is `q`, comes to `x` after `j` restarts. -/
def Ends (v : HeapVars) (realsize : Nat) (m : Mem) (q p : Nat) (x : Outcome (Mem × Nat × Nat)) (j : Nat) : Prop :=
  ∃ n, ∀ fuel, n ≤ fuel → kallocCounted v realsize fuel m q p = (x, j)

namespace Ends
variable {v : HeapVars} {realsize need : Nat} {m m₁ m₂ : Mem} {q p page j : Nat} {x : Outcome (Mem × Nat × Nat)}

/-- The search and the count apart. -/
theorem apart (h : Ends v realsize m q p x j) :
    ∃ n, ∀ fuel, n ≤ fuel → kallocSearch v realsize fuel m q p = x ∧ kallocRestarts v realsize fuel m q p = j := by
  obtain ⟨n, hn⟩ := h
  refine ⟨n, fun fuel hfuel => ?_⟩
  rw [← kallocCounted_fst, kallocRestarts, hn fuel hfuel]
  exact ⟨rfl, rfl⟩

theorem comes (h : Ends v realsize m q p x j) : Comes (fun fuel => kallocSearch v realsize fuel m q p) x := by
  obtain ⟨n, hn⟩ := h.apart
  exact ⟨n, fun fuel hfuel => (hn fuel hfuel).1⟩

/-- The node is large enough. -/
theorem here (hp : p ≠ 0) (hsize : (realsize + freeblockSize) % 4294967296 ≤ m.size p) :
    Ends v realsize m q p (.ok (m, q, p)) 0 := by
  refine ⟨1, fun fuel hfuel => ?_⟩
  obtain ⟨fuel, rfl⟩ := Nat.exists_eq_add_of_le' hfuel
  rw [kallocCounted, if_neg hp, if_neg (Nat.not_lt_of_le hsize)]

/-- The node is too small: on to the next. -/
theorem next (hp : p ≠ 0) (hsize : m.size p < (realsize + freeblockSize) % 4294967296)
    (h : Ends v realsize m p (m.next p) x j) : Ends v realsize m q p x j := by
  obtain ⟨n, hn⟩ := h
  refine ⟨n + 1, fun fuel hfuel => ?_⟩
  obtain ⟨fuel, rfl⟩ := Nat.exists_eq_add_of_le' (Nat.le_trans (Nat.le_add_left 1 n) hfuel)
  rw [kallocCounted, if_neg hp, if_pos hsize]
  exact hn fuel (by omega)

/-- The end of the list: pages go to the block list, and the search starts over. -/
theorem refill {count bytes : Nat} (hcount : (realsize + 4095) % 4294967296 / 4096 % 65536 = count)
    (hbytes : (realsize + 4095) % 4294967296 / 4096 * 4096 % 4294967296 = bytes)
    (h₁ : Comes (fun fuel => pageAllocateConsecutive fuel v m count) (.ok (m₁, page)))
    (h₂ : Comes (fun fuel => memFree fuel v m₁ (pageToAddr page) bytes false) (.ok m₂))
    (h : Ends v realsize m₂ v.blocksHead (m₂.next v.blocksHead) x j) : Ends v realsize m q 0 x (j + 1) := by
  obtain ⟨n₁, hn₁⟩ := h₁
  obtain ⟨n₂, hn₂⟩ := h₂
  obtain ⟨n, hn⟩ := h
  refine ⟨n₁ + n₂ + n + 1, fun fuel hfuel => ?_⟩
  obtain ⟨fuel, rfl⟩ := Nat.exists_eq_add_of_le' (Nat.le_trans (Nat.le_add_left 1 _) hfuel)
  have hagain := hn fuel (by omega)
  have hpages := hn₁ fuel (by omega)
  have hblock := hn₂ fuel (by omega)
  dsimp only at hpages hblock
  rw [kallocCounted, if_pos rfl]
  simp only [hcount, hbytes, hpages, bind_ok, hblock, hagain]

/-- The end of the list, and no pages: the panic. -/
theorem exhausted {count : Nat} {msg : String} (hcount : (realsize + 4095) % 4294967296 / 4096 % 65536 = count)
    (h : Comes (fun fuel => pageAllocateConsecutive fuel v m count) (.panic msg)) :
    Ends v realsize m q 0 (.panic msg) 0 := by
  obtain ⟨n, hn⟩ := h
  refine ⟨n + 1, fun fuel hfuel => ?_⟩
  obtain ⟨fuel, rfl⟩ := Nat.exists_eq_add_of_le' (Nat.le_trans (Nat.le_add_left 1 _) hfuel)
  have hpages := hn fuel (by omega)
  dsimp only at hpages
  rw [kallocCounted, if_pos rfl]
  simp only [hcount, hpages]
  rfl

/-- Blocks that are too small are passed by. -/
theorem scan (hneed : (realsize + freeblockSize) % 4294967296 = need) {es : List Region} :
    ∀ {e : Region}, Linked 1 4 m (e :: es) → (∀ r ∈ es, 0 < r.addr) → (∀ r ∈ es, r.size < need) →
      (∀ q, Ends v realsize m q 0 x j) → Ends v realsize m e.addr (firstAddr es) x j := by
  induction es with
  | nil => exact fun _ _ _ h => h _
  | cons f fs ih =>
    intro e hl hpos hsmall h
    have hsize : m.size f.addr = f.size := (Nat.one_mul _).symm.trans hl.2.2.1
    refine next (Nat.ne_of_gt (hpos f List.mem_cons_self)) ?_ ?_
    · rw [firstAddr, hsize, hneed]
      exact hsmall f List.mem_cons_self
    · have hnext : m.next f.addr = firstAddr fs := hl.2.2.2.1
      rw [firstAddr, hnext]
      exact ih hl.2.2 (fun r hr => hpos r (List.mem_cons_of_mem _ hr)) (fun r hr => hsmall r (List.mem_cons_of_mem _ hr)) h

/-- The first block that is large enough is found. -/
theorem found (hneed : (realsize + freeblockSize) % 4294967296 = need) {f : Region} {post : List Region} (hf : need ≤ f.size)
    {pre : List Region} : ∀ {e : Region}, Linked 1 4 m (e :: (pre ++ f :: post)) → (∀ r ∈ pre ++ f :: post, 0 < r.addr) →
      (∀ r ∈ pre, r.size < need) → ∃ q, Ends v realsize m e.addr (firstAddr (pre ++ f :: post)) (.ok (m, q, f.addr)) 0 := by
  induction pre with
  | nil =>
    intro e hl hpos _
    have hsize : m.size f.addr = f.size := (Nat.one_mul _).symm.trans hl.2.2.1
    refine ⟨e.addr, here (Nat.ne_of_gt (hpos f List.mem_cons_self)) ?_⟩
    change _ ≤ m.size f.addr
    rw [hneed, hsize]
    exact hf
  | cons c pre ih =>
    intro e hl hpos hsmall
    have hsize : m.size c.addr = c.size := (Nat.one_mul _).symm.trans hl.2.2.1
    have hnext : m.next c.addr = firstAddr (pre ++ f :: post) := hl.2.2.2.1
    obtain ⟨q, hq⟩ := ih hl.2.2 (fun r hr => hpos r (List.mem_cons_of_mem _ hr)) fun r hr => hsmall r (List.mem_cons_of_mem _ hr)
    refine ⟨q, next (Nat.ne_of_gt (hpos c List.mem_cons_self)) ?_ ?_⟩
    · change m.size c.addr < _
      rw [hsize, hneed]
      exact hsmall c List.mem_cons_self
    · change Ends v realsize m c.addr (m.next c.addr) _ _
      rw [hnext]
      exact hq

/-- A search that asks for no pages finds the first block that is large enough, or panics. -/
theorem without_refill (hneed : (realsize + freeblockSize) % 4294967296 = need)
    (hcount : (realsize + 4095) % 4294967296 / 4096 % 65536 = 0) {bl : List Region} (hl : Linked 1 4 m (⟨v.blocksHead, 0⟩ :: bl))
    (hpos : ∀ r ∈ bl, 0 < r.addr) :
    (∃ f q, f ∈ bl ∧ need ≤ f.size ∧ Ends v realsize m v.blocksHead (m.next v.blocksHead) (.ok (m, q, f.addr)) 0) ∨
      ((∀ r ∈ bl, r.size < need) ∧ Ends v realsize m v.blocksHead (m.next v.blocksHead) (.panic "Assertion failure") 0) := by
  rw [show m.next v.blocksHead = firstAddr bl from hl.2.1]
  rcases first_or_none need bl with hsmall | ⟨pre, f, post, rfl, hpre, hf⟩
  · exact Or.inr ⟨hsmall, scan hneed hl hpos hsmall fun _ => exhausted hcount (Comes.const _)⟩
  · obtain ⟨q, hq⟩ := found hneed hf hl hpos hpre
    exact Or.inl ⟨f, q, by simp, hf, hq⟩

/-- `kalloc` cuts the block that its search comes to. -/
theorem kalloc {n : Nat} (hreal : (n + headerSize) % 4294967296 = realsize)
    (h : Ends v realsize m v.blocksHead (m.next v.blocksHead) x j) :
    Comes (fun fuel => BootPerl.kalloc fuel v m n) (x.bind fun (m, q, p) => .ok (kallocSplit m n realsize q p)) := by
  obtain ⟨k, hk⟩ := h.comes
  refine ⟨k, fun fuel hfuel => ?_⟩
  have hx := hk fuel hfuel
  dsimp only at hx ⊢
  rw [BootPerl.kalloc, hreal, hx]

end Ends

namespace SpacedHeap
variable {g : Nat} {v : HeapVars} {m m' : Mem} {bl pl : List Region}

theorem next_head (h : SpacedHeap g v m bl pl) : m.next v.blocksHead = firstAddr bl := h.blocks.linked.2.1

/-- One refill of `kalloc`: pages taken first fit go to the block list. -/
theorem refill (hg : g ≤ 1) (h : SpacedHeap g v m bl pl) {count : Nat} (h0 : 0 < count) :
    ((∀ r ∈ pl, r.size < 4096 * count) ∧
        Comes (fun fuel => pageAllocateConsecutive fuel v m count) (.panic (outOfPages pl))) ∨
      ∃ t pl' m₁ page m₂, FirstFit (4096 * count) pl t pl' ∧
        Comes (fun fuel => pageAllocateConsecutive fuel v m count) (.ok (m₁, page)) ∧
        Comes (fun fuel => memFree fuel v m₁ (pageToAddr page) (4096 * count) false) (.ok m₂) ∧
        SpacedHeap g v m₂ (insert t bl) pl' ∧ Mem.Frame (covered (v.heads ++ bl ++ pl)) m m₂ := by
  rcases h.consecutive h0 with hnone | ⟨t, pl', m₁, page, hfit, hok, rfl, hpage, hlow, hheap, hex, hf₁⟩
  · exact Or.inl hnone
  · have hjoin := le_joined_size ⟨page * 4096, 4096 * count⟩ (after (page * 4096) bl)
    have hroom : ∀ r ∈ insert ⟨page * 4096, 4096 * count⟩ bl, 8 ≤ r.size :=
      forall_insert (fun r s hr _ _ => Nat.le_trans hr (Nat.le_add_right _ _)) (by dsimp only; omega) h.blocks.room
    dsimp only at hjoin
    obtain ⟨m₂, hres, hheap', -, hf₂⟩ := hheap.insertBlock hg (by omega) (by omega) hroom (by omega) (by omega) hex
    refine Or.inr ⟨_, pl', m₁, page, m₂, hfit, hok, ⟨bl.length + 1, fun fuel hfuel => hres fuel hfuel false⟩, hheap',
      (hf₁.mono fun a ha => ?_).trans (hf₂.mono fun a ha => ?_)⟩
    · rw [mem_covered] at ha ⊢
      rw [coverage_heads]
      rw [coverage_cons] at ha
      omega
    · have hcov := hfit.coverage a
      rw [mem_covered] at ha ⊢
      rw [coverage_heads]
      simp only [coverage_cons] at ha
      omega

/-- The search gathers pages until there is a block of size `need`, and finds the first; or until no run is left that has as many
pages as it asks for, and panics. -/
theorem search (hg : g ≤ 1) {realsize need count : Nat} (hneed : (realsize + freeblockSize) % 4294967296 = need)
    (hcount : (realsize + 4095) % 4294967296 / 4096 % 65536 = count)
    (hbytes : (realsize + 4095) % 4294967296 / 4096 * 4096 % 4294967296 = 4096 * count) (h0 : 0 < count)
    (h : SpacedHeap g v m bl pl) :
    ∃ j bl' pl' m', Gather need (4096 * count) bl pl j bl' pl' ∧ SpacedHeap g v m' bl' pl' ∧
      Mem.Frame (covered (v.heads ++ bl ++ pl)) m m' ∧
      ((∃ f q, f ∈ bl' ∧ need ≤ f.size ∧ Ends v realsize m v.blocksHead (m.next v.blocksHead) (.ok (m', q, f.addr)) j) ∨
        ((∀ r ∈ bl', r.size < need) ∧ (∀ r ∈ pl', r.size < 4096 * count) ∧
          Ends v realsize m v.blocksHead (m.next v.blocksHead) (.panic (outOfPages pl')) j)) := by
  induction hn : total pl using Nat.strong_induction_on generalizing m bl pl with
  | _ n ih =>
    rw [h.next_head]
    rcases first_or_none need bl with hsmall | ⟨pre, f, post, rfl, hpre, hf⟩
    · have hscan : ∀ {x j}, (∀ q, Ends v realsize m q 0 x j) → Ends v realsize m v.blocksHead (firstAddr bl) x j :=
        Ends.scan hneed h.blocks.linked h.blocks.pos hsmall
      rcases h.refill hg h0 with ⟨hnone, hp⟩ | ⟨t, pl₁, m₁, page, m₂, hfit, h₁, h₂, hheap, hfr⟩
      · exact ⟨0, bl, pl, m, Gather.nil bl pl, h, Mem.Frame.refl _ _,
          Or.inr ⟨hsmall, hnone, hscan fun _ => Ends.exhausted hcount hp⟩⟩
      · -- the page list has become shorter
        have hless := hfit.total
        obtain ⟨j, bl', pl', m', hgather, hheap', hfr', hres⟩ := ih (total pl₁) (by omega) hheap rfl
        refine ⟨j + 1, bl', pl', m', Gather.cons hsmall hfit hgather, hheap', hfr.trans (hfr'.mono fun a ha => ?_), ?_⟩
        · have hcov := hfit.coverage a
          rw [mem_covered, coverage_heads] at ha ⊢
          rw [coverage_insert] at ha
          omega
        · rcases hres with ⟨f, q, hf, hsize, hends⟩ | ⟨hblocks, hruns, hends⟩
          · exact Or.inl ⟨f, q, hf, hsize, hscan fun _ => Ends.refill hcount hbytes h₁ h₂ hends⟩
          · exact Or.inr ⟨hblocks, hruns, hscan fun _ => Ends.refill hcount hbytes h₁ h₂ hends⟩
    · obtain ⟨q, hq⟩ := Ends.found hneed hf h.blocks.linked h.blocks.pos hpre
      exact ⟨0, _, pl, m, Gather.nil _ pl, h, Mem.Frame.refl _ _, Or.inl ⟨f, q, by simp, hf, hq⟩⟩

/-- Cutting a request from the top of a block with room for it and a node leaves the rest of the block below a header and the
address returned. -/
theorem kallocSplit (h : SpacedHeap g v m bl pl) {n q : Nat} {f : Region} (hf : f ∈ bl) (hsize : n + 4 + 8 ≤ f.size)
    (hstop : f.stop < 4294967296) :
    ∃ bl', SpacedHeap g v (BootPerl.kallocSplit m n (n + 4) q f.addr).1 bl' pl ∧
      (BootPerl.kallocSplit m n (n + 4) q f.addr).2 = (top (n + 4) f).addr + 4 ∧
      (BootPerl.kallocSplit m n (n + 4) q f.addr).1.size (top (n + 4) f).addr = n ∧
      (∀ a, coverage bl' a + (top (n + 4) f).ind a = coverage bl a) ∧ (∃ r ∈ bl', r.stop = (top (n + 4) f).addr) ∧
      Mem.Frame (covered bl) m (BootPerl.kallocSplit m n (n + 4) q f.addr).1 := by
  obtain ⟨pre, post, rfl⟩ := List.append_of_mem hf
  have hread : m.size f.addr = f.size := h.blocks.size_eq hf
  simp only [Region.stop] at hstop
  have hk : (m.size f.addr + 4294967296 - (n + 4)) % 4294967296 = f.size - (n + 4) := by omega
  have hcarve : pre ++ carve (n + 4) f ++ post = pre ++ ⟨f.addr, 1 * (f.size - (n + 4))⟩ :: post := by
    rw [carve, if_neg (by omega), Nat.one_mul]
    simp
  have htop : f.addr + (f.size - (n + 4)) = (top (n + 4) f).addr := rfl
  have hmodh : (f.addr + (f.size - (n + 4))) % 4294967296 = (top (n + 4) f).addr := by rw [← htop]; omega
  have hmodp : ((top (n + 4) f).addr + headerSize) % 4294967296 = (top (n + 4) f).addr + 4 := by
    rw [← htop, headerSize]
    omega
  simp only [BootPerl.kallocSplit, hk, if_neg (show f.size - (n + 4) ≠ 0 by omega), hmodh, hmodp]
  have hlinked : Linked 1 4 (m.setSize f.addr (f.size - (n + 4)))
      (⟨v.blocksHead, 0⟩ :: (pre ++ carve (n + 4) f ++ post)) := by
    rw [hcarve]
    exact linked_shrink (Nat.le_refl 4) (show f.size - (n + 4) < 256 ^ 4 by omega) (⟨v.blocksHead, 0⟩ :: pre)
      h.blocks.linked h.blocks.pairwise_nodeApart
  have hbl : SpacedList g 1 4 (m.setSize f.addr (f.size - (n + 4))) v.blocksHead (pre ++ carve (n + 4) f ++ post) :=
    h.blocks.of_carve (fun _ => by omega) hlinked
  have hcov : ∀ a, coverage (pre ++ carve (n + 4) f ++ post) a + (top (n + 4) f).ind a = coverage (pre ++ f :: post) a := by
    intro a
    have := coverage_carve (show n + 4 ≤ f.size by omega) a
    simp only [coverage_append, coverage_cons]
    omega
  -- the two stores: the count of the block cut, and the header
  have hfr₁ : Mem.Frame (covered [f]) m (m.setSize f.addr (f.size - (n + 4))) := Mem.Frame.store fun x h1 h2 =>
    coverage_pos_of_mem List.mem_cons_self (by simp only [Region.Has]; omega)
  have hfr₂ : Mem.Frame (covered [top (n + 4) f]) (m.setSize f.addr (f.size - (n + 4)))
      ((m.setSize f.addr (f.size - (n + 4))).setSize (top (n + 4) f).addr n) := Mem.Frame.store fun x h1 h2 =>
    coverage_pos_of_mem List.mem_cons_self (by simp only [Region.Has, top] at h1 h2 ⊢; omega)
  have hheap : SpacedHeap g v (m.setSize f.addr (f.size - (n + 4))) (pre ++ carve (n + 4) f ++ post) pl := by
    refine ⟨hbl, h.pages.frame hfr₁ fun r hr a ha hc => ?_, fun a => ?_⟩
    · have h1 : 0 < coverage (⟨v.pagesHead, 8⟩ :: pl) a := coverage_pos_of_mem hr ha
      have h2 := h.exclusive a
      rw [mem_covered] at hc
      rw [coverage_heads] at h2
      simp only [coverage_cons, coverage_append, coverage_nil] at h1 h2 hc
      omega
    · have h1 := h.exclusive a
      have h2 := hcov a
      rw [coverage_heads] at h1 ⊢
      omega
  refine ⟨_, hheap.frame hfr₂ fun a ha hc => ?_, trivial, load_store_four (by omega), hcov, ?_, ?_⟩
  · have h1 := h.exclusive a
    have h2 := hcov a
    rw [mem_covered] at ha hc
    rw [coverage_heads] at h1 ha
    simp only [coverage_cons, coverage_nil] at hc
    omega
  · rw [hcarve, Nat.one_mul]
    exact ⟨⟨f.addr, f.size - (n + 4)⟩, by simp, htop⟩
  · refine (hfr₁.mono fun a ha => ?_).trans (hfr₂.mono fun a ha => ?_)
    · rw [mem_covered] at ha ⊢
      simp only [coverage_cons, coverage_append, coverage_nil] at ha ⊢
      omega
    · have h2 := hcov a
      rw [mem_covered] at ha ⊢
      simp only [coverage_cons, coverage_nil] at ha
      omega

end SpacedHeap

/-! ## What `kalloc` comes to -/

/-- The pages that `kalloc(n)` asks for at a time. -/
def pagesFor (n : Nat) : Nat := (n + 4 + 4095) / 4096

/-- A page count that fits an `unsigned short` is one of less than 256 MB. -/
theorem add_four_le_of_pagesFor {n : Nat} (hn : pagesFor n < 65536) : n + 4 ≤ 268435456 := by
  unfold pagesFor at hn
  omega

/-- Up to 2 ^ 16 pages no size wraps. -/
theorem sizes_eq {n : Nat} (hn : pagesFor n ≤ 65536) : (n + headerSize) % 4294967296 = n + 4 ∧
    (n + 4 + freeblockSize) % 4294967296 = n + 12 ∧ (n + 4 + 4095) % 4294967296 / 4096 = pagesFor n := by
  unfold headerSize freeblockSize
  unfold pagesFor at hn ⊢
  omega

/-- A block of `n` bytes at `ptr` was cut from the blocks `bl`, and `bl'` is left: a header before it holds its size, and a free
block lies below the header. -/
structure Cut (m' : Mem) (bl bl' : List Region) (n ptr : Nat) : Prop where
  above : 4 < ptr
  low : ptr + n ≤ 268435456
  header : m'.size (ptr - 4) = n
  coverage_eq : ∀ a, coverage bl' a + Region.ind ⟨ptr - 4, n + 4⟩ a = coverage bl a
  below : ∃ r ∈ bl', r.stop = ptr - 4

namespace SpacedHeap
variable {g : Nat} {v : HeapVars} {m m' : Mem} {bl pl : List Region}

/-- `kalloc` gathers pages until there is a block with room for the request and a node, and cuts the request from it; or until no
run is left that has as many pages as it asks for, and panics. -/
theorem kalloc (hg : g ≤ 1) (h : SpacedHeap g v m bl pl) (hlow : ∀ r ∈ bl, r.stop ≤ 268435456) {n : Nat}
    (hn : pagesFor n < 65536) :
    ∃ j bl₁ pl', Gather (n + 12) (4096 * pagesFor n) bl pl j bl₁ pl' ∧ Spaced g bl₁ ∧
      ((∃ m' ptr bl', Comes (fun fuel => BootPerl.kalloc fuel v m n) (.ok (m', ptr)) ∧ (∃ r ∈ bl₁, n + 12 ≤ r.size) ∧
          SpacedHeap g v m' bl' pl' ∧ (∀ r ∈ bl', r.stop ≤ 268435456) ∧ Cut m' bl₁ bl' n ptr ∧
          Mem.Frame (covered (v.heads ++ bl ++ pl)) m m') ∨
        ((∀ r ∈ bl₁, r.size < n + 12) ∧ (∀ r ∈ pl', r.size < 4096 * pagesFor n) ∧
          Comes (fun fuel => BootPerl.kalloc fuel v m n) (.panic (outOfPages pl')))) := by
  obtain ⟨hreal, hneed, hpages⟩ := sizes_eq (Nat.le_of_lt hn)
  have hcount : (n + 4 + 4095) % 4294967296 / 4096 % 65536 = pagesFor n := by omega
  have hbytes : (n + 4 + 4095) % 4294967296 / 4096 * 4096 % 4294967296 = 4096 * pagesFor n := by omega
  have hpos : 0 < pagesFor n := by
    unfold pagesFor
    omega
  obtain ⟨j, bl₁, pl', m₁, hgather, hheap, hfr, hres⟩ := h.search hg hneed hcount hbytes hpos
  refine ⟨j, bl₁, pl', hgather, hheap.blocks.spaced, ?_⟩
  -- free memory stays below 256 MB
  have hlows : ∀ {l : List Region}, (∀ a, 0 < coverage l a → 0 < coverage bl a + coverage pl a) →
      ∀ r ∈ l, 0 < r.size → r.stop ≤ 268435456 := by
    intro l hl
    refine stop_le_of_covered (l := bl ++ pl) (fun r hr => ?_) fun a ha => ?_
    · exact (List.mem_append.1 hr).elim (hlow r) (h.pages.low r)
    · rw [coverage_append]
      exact hl a ha
  rcases hres with ⟨f, q, hf, hsize, hends⟩ | ⟨hblocks, hruns, hends⟩
  · have hfstop : f.stop ≤ 268435456 := by
      refine hlows (fun a ha => ?_) f hf (by omega)
      have := hgather.coverage a
      omega
    have hfpos := hheap.blocks.pos f hf
    obtain ⟨bl', hheap', hptr, hheader, hcov, hbelow, hfr'⟩ := hheap.kallocSplit (n := n) (q := q) hf (by omega) (by omega)
    refine Or.inl ⟨_, (BootPerl.kallocSplit m₁ n (n + 4) q f.addr).2, bl', hends.kalloc hreal, ⟨f, hf, hsize⟩, hheap',
      fun r hr => ?_, ?_, ?_⟩
    · refine hlows (fun a ha => ?_) r hr (by have := hheap'.blocks.room r hr; omega)
      have h1 := hcov a
      have h2 := hgather.coverage a
      omega
    · simp only [Region.stop] at hfstop
      have haddr : (top (n + 4) f).addr = f.addr + (f.size - (n + 4)) := rfl
      have hregion : (⟨(top (n + 4) f).addr + 4 - 4, n + 4⟩ : Region) = top (n + 4) f := rfl
      rw [hptr]
      exact ⟨by omega, by omega, hheader, fun a => by rw [hregion]; exact hcov a, hbelow⟩
    · refine hfr.trans (hfr'.mono fun a ha => ?_)
      have := hgather.coverage a
      rw [mem_covered] at ha ⊢
      rw [coverage_heads]
      omega
  · exact Or.inr ⟨hblocks, hruns, hends.kalloc hreal⟩

end SpacedHeap

namespace Heap
variable {v : HeapVars} {m m' : Mem} {bl pl : List Region} {n ptr : Nat}

/-- Up to 256 MB with its header `kalloc` panics, or moves the header and the payload it returns out of the free lists and stores
into free memory and heads only. -/
theorem kalloc_of_le (h : Heap v m bl pl) (hn : n + 4 ≤ 268435456) :
    (∃ msg, Comes (fun fuel => BootPerl.kalloc fuel v m n) (.panic msg)) ∨
      ∃ m' ptr bl₁ bl' pl', Comes (fun fuel => BootPerl.kalloc fuel v m n) (.ok (m', ptr)) ∧ Heap v m' bl' pl' ∧
        Cut m' bl₁ bl' n ptr ∧
        (∀ a, coverage bl' a + coverage pl' a + Region.ind ⟨ptr - 4, n + 4⟩ a = coverage bl a + coverage pl a) ∧
        Mem.Frame (covered (v.heads ++ bl ++ pl)) m m' := by
  by_cases hpages : pagesFor n < 65536
  · obtain ⟨j, bl₁, pl', hgather, -, ⟨m₁, ptr₁, bl', hok, -, hheap, hlow, hcut, hf⟩ | ⟨-, -, hp⟩⟩ :=
      h.spaced.kalloc (Nat.le_refl 1) h.blocks.low hpages
    · refine Or.inr ⟨m₁, ptr₁, bl₁, bl', pl', hok, Heap.of_spaced hheap hlow, hcut, fun a => ?_, hf⟩
      have h1 := hgather.coverage a
      have h2 := hcut.coverage_eq a
      omega
    · exact Or.inl ⟨_, hp⟩
  · -- the page count is cut to zero
    have hmost : pagesFor n ≤ 65536 := by
      unfold pagesFor
      omega
    obtain ⟨hreal, hneed, hcount⟩ := sizes_eq hmost
    rcases Ends.without_refill (v := v) (m := m) hneed (by omega) h.blocks.free.linked h.blocks.free.pos with
      ⟨f, q, hf, hsize, hends⟩ | ⟨-, hends⟩
    · have hstop := h.blocks.low f hf
      have hfpos := h.blocks.free.pos f hf
      obtain ⟨bl₂, hheap, hptr, hheader, hcov, hbelow, hfr⟩ :=
        h.spaced.kallocSplit (n := n) (q := q) hf (by omega) (by omega)
      have haddr : (top (n + 4) f).addr = f.addr + (f.size - (n + 4)) := rfl
      have hregion : (⟨(top (n + 4) f).addr + 4 - 4, n + 4⟩ : Region) = top (n + 4) f := rfl
      have hok : Comes (fun fuel => BootPerl.kalloc fuel v m n)
          (.ok ((BootPerl.kallocSplit m n (n + 4) q f.addr).1, (top (n + 4) f).addr + 4)) := by
        rw [← hptr]
        exact hends.kalloc hreal
      -- the blocks that are left lie where the blocks lay
      have hlow : ∀ r ∈ bl₂, r.stop ≤ 268435456 := fun r hr => by
        refine stop_le_of_covered h.blocks.low (fun a ha => ?_) r hr ?_
        · have := hcov a
          omega
        · have := hheap.blocks.room r hr
          omega
      simp only [Region.stop] at hstop
      refine Or.inr ⟨_, _, bl, bl₂, pl, hok, Heap.of_spaced hheap hlow,
        ⟨by omega, by omega, hheader, fun a => by rw [hregion]; exact hcov a, hbelow⟩, fun a => ?_, hfr.mono fun a ha => ?_⟩
      · have h1 := hcov a
        rw [hregion]
        omega
      · rw [mem_covered] at ha ⊢
        rw [coverage_heads]
        omega
    · exact Or.inl ⟨_, hends.kalloc hreal⟩

/-- What `kalloc` does when it returns a block. -/
theorem kalloc (h : Heap v m bl pl) (hn : n + 4 ≤ 268435456) (hr : Comes (fun fuel => BootPerl.kalloc fuel v m n) (.ok (m', ptr))) :
    ∃ bl₁ bl' pl', Heap v m' bl' pl' ∧ Cut m' bl₁ bl' n ptr ∧
      (∀ a, coverage bl' a + coverage pl' a + Region.ind ⟨ptr - 4, n + 4⟩ a = coverage bl a + coverage pl a) ∧
      Mem.Frame (covered (v.heads ++ bl ++ pl)) m m' := by
  rcases h.kalloc_of_le hn with ⟨msg, hp⟩ | ⟨m₁, ptr₁, bl₁, bl', pl', hok, hheap, hcut, hcov, hf⟩
  · exact absurd hp hr.not_panic
  · obtain ⟨rfl, rfl⟩ := Prod.mk.inj (hr.ok_inj hok)
    exact ⟨bl₁, bl', pl', hheap, hcut, hcov, hf⟩

end Heap

end BootPerl
