import BootPerl.Perlwrap
import BootPerl.Theorems.KallocEnough
import BootPerl.Theorems.KallocSizes

/-!
# `calloc` and the product

The product of the two arguments is cut to 32 bits before `kalloc` sees it, and `kalloc` itself is wrong beyond 256 MB. `Available`
says for every size when `kalloc` finds a block; a product that is larger than memory is then served with a block that is too small.
-/

namespace BootPerl

open Mem Outcome

/-- `calloc` panics, or returns null, or a block for the whole product: its header says so, header and payload were free and nothing
else was taken, and the payload is zero. -/
def CallocHonours (v : HeapVars) (m : Mem) (bl pl : List Region) (nmemb size : Nat) : Prop :=
  (∃ msg, Comes (fun fuel => calloc fuel v m nmemb size) (.panic msg)) ∨
    ∃ m' ptr, Comes (fun fuel => calloc fuel v m nmemb size) (.ok (m', ptr)) ∧ (ptr = 0 ∨
      ∃ bl' pl', Heap v m' bl' pl' ∧ headerSize ≤ ptr ∧ nmemb * size ≤ m'.size (ptr - headerSize) ∧
        (∀ a, coverage bl' a + coverage pl' a + Region.ind ⟨ptr - headerSize, nmemb * size + headerSize⟩ a =
          coverage bl a + coverage pl a) ∧
        ∀ i, i < nmemb * size → m'.byte (ptr + i) = 0)

/-- `kalloc(n)` finds a block: in the free blocks and in what its page requests can take from the runs there is a stretch of the size
that its search asks for, or, from 2 ^ 16 pages on, it is served as `Served` says. -/
def Available (n : Nat) (bl pl : List Region) : Prop :=
  if pagesFor n < 65536 then Stretch (bytesSought n) (bl ++ pl.map (servable (pageSize * pagesFor n))) else Served n bl pl

/-! ## Filling memory -/

section
variable {m : Mem} {s n : Nat} {c : Int}

/-- A fill writes to its window only. -/
theorem frame_memset {X : Set Nat} : ∀ {m : Mem} {s : Nat}, s + n < 4294967296 → (∀ x, s ≤ x → x < s + n → x ∈ X) →
    Mem.Frame X m (memset m s c n) := by
  induction n with
  | zero =>
    intro m s _ _
    exact Mem.Frame.refl X m
  | succ n ih =>
    intro m s hlt h
    have hnext : (s + 1) % 4294967296 = s + 1 := Nat.mod_eq_of_lt (by omega)
    rw [memset, hnext]
    exact (Mem.Frame.set (h s (Nat.le_refl _) (by omega))).trans (ih (by omega) fun x hx hx' => h x (by omega) (by omega))

/-- Every byte of the window is filled. -/
theorem byte_memset : ∀ {m : Mem} {s i : Nat}, s + n < 4294967296 → i < n → (memset m s c n).byte (s + i) = uchar c := by
  induction n with
  | zero =>
    intro m s i _ hi
    exact absurd hi (Nat.not_lt_zero i)
  | succ n ih =>
    intro m s i hlt hi
    have hnext : (s + 1) % 4294967296 = s + 1 := Nat.mod_eq_of_lt (by omega)
    rw [memset, hnext]
    cases i with
    | zero =>
      -- the rest of the fill lies above the first byte
      have hf : Mem.Frame {x | s + 1 ≤ x ∧ x < s + 1 + n} (m.set s (uchar c)) (memset (m.set s (uchar c)) (s + 1) c n) :=
        frame_memset (by omega) fun x h1 h2 => ⟨h1, h2⟩
      exact (hf s fun hx => absurd hx.1 (Nat.not_succ_le_self s)).1.trans (if_pos rfl)
    | succ i =>
      rw [show s + (i + 1) = s + 1 + i by omega]
      exact ih (by omega) (by omega)

end

/-! ## What `calloc` comes to -/

namespace Heap
variable {v : HeapVars} {m m' : Mem} {bl pl : List Region} {n ptr nmemb size : Nat}

/-- `kalloc` returns a block exactly when one is available, and else panics. -/
theorem kalloc_ends (h : Heap v m bl pl) (hn : n < 4294967296) :
    (Available n bl pl ∧ ∃ m' ptr, ptr ≠ 0 ∧ Comes (fun fuel => BootPerl.kalloc fuel v m n) (.ok (m', ptr))) ∨
      (¬Available n bl pl ∧ ∃ msg, Comes (fun fuel => BootPerl.kalloc fuel v m n) (.panic msg)) := by
  by_cases hpages : pagesFor n < 65536
  · have hsought : bytesSought n = n + 12 := by
      unfold bytesSought headerSize freeblockSize
      unfold pagesFor at hpages
      omega
    rw [Available, if_pos hpages, hsought, pageSize, ← h.kalloc_returns_iff_stretch hpages]
    obtain ⟨j, bl₁, pl₁, -, -, ⟨m₁, ptr₁, bl₂, hok, -, -, -, hcut, -⟩ | ⟨-, -, hp⟩⟩ :=
      h.spaced.kalloc (Nat.le_refl 1) h.blocks.low hpages
    · exact Or.inl ⟨⟨m₁, ptr₁, hok⟩, m₁, ptr₁, Nat.ne_of_gt (Nat.zero_lt_of_lt hcut.above), hok⟩
    · refine Or.inr ⟨?_, _, hp⟩
      rintro ⟨m₁, ptr₁, hok⟩
      exact absurd hp hok.not_panic
  · rw [Available, if_neg hpages]
    rcases Nat.lt_or_ge 268435456 (n + 4) with hgt | hle
    · exact h.kalloc_ends_of_gt hgt hn
    · -- exactly 2 ^ 16 pages: the page count is cut to zero
      refine h.kalloc_ends_unrefilled ?_
      unfold bytesTaken headerSize pageSize
      unfold pagesFor at hpages
      omega

/-- A product that fits memory with a header is not cut. -/
theorem product_of_le (hle : nmemb * size + headerSize ≤ 268435456) : nmemb * size % 4294967296 = nmemb * size :=
  Nat.mod_eq_of_lt (by rw [headerSize] at hle; omega)

/-- A call that panics under `calloc`. -/
theorem calloc_panics {msg : String} (hp : Comes (fun fuel => BootPerl.kalloc fuel v m (nmemb * size % 4294967296)) (.panic msg)) :
    Comes (fun fuel => calloc fuel v m nmemb size) (.panic msg) := by
  obtain ⟨k, hk⟩ := hp
  refine ⟨k, fun fuel hfuel => ?_⟩
  have := hk fuel hfuel
  dsimp only at this ⊢
  rw [calloc, this]
  rfl

/-- A block that `calloc` fills. -/
theorem calloc_comes (hok : Comes (fun fuel => BootPerl.kalloc fuel v m (nmemb * size % 4294967296)) (.ok (m', ptr))) :
    Comes (fun fuel => calloc fuel v m nmemb size) (.ok (memset m' ptr 0 (nmemb * size % 4294967296), ptr)) :=
  hok.bind (Comes.const _)

/-- With its header below 256 MB the product is honoured. -/
theorem callocHonours_of_le (h : Heap v m bl pl) (hle : nmemb * size + headerSize ≤ 268435456) :
    CallocHonours v m bl pl nmemb size := by
  have hprod := product_of_le hle
  rw [headerSize] at hle
  rcases h.kalloc_of_le hle with ⟨msg, hp⟩ | ⟨m₁, ptr, _, bl', pl', hok, hheap, hcut, hcov, -⟩
  · rw [← hprod] at hp
    exact Or.inl ⟨msg, calloc_panics hp⟩
  · have hptr := hcut.above
    have hlow := hcut.low
    rw [← hprod] at hok
    have hcall := calloc_comes hok
    rw [hprod] at hcall
    -- the fill stays in the payload
    have hfill : Mem.Frame {x | ptr ≤ x ∧ x < ptr + nmemb * size} m₁ (memset m₁ ptr 0 (nmemb * size)) :=
      frame_memset (by omega) fun x h1 h2 => ⟨h1, h2⟩
    refine Or.inr ⟨_, ptr, hcall, Or.inr ⟨bl', pl', hheap.frame hfill fun a ha hx => ?_, Nat.le_of_lt hptr, ?_, hcov,
      fun i hi => byte_memset (by omega) hi⟩⟩
    · have h1 := hcov a
      have h2 := h.exclusive a
      simp only [Set.mem_ofPred_eq] at hx
      have hin : Region.Has ⟨ptr - 4, nmemb * size + 4⟩ a := ⟨by dsimp only; omega, by dsimp only; omega⟩
      rw [Region.ind_of_has hin] at h1
      rw [coverage_heads] at h2
      rw [mem_covered, coverage_heads] at ha
      omega
    · refine Nat.le_of_eq (Eq.trans hcut.header.symm (hfill.load fun x h1 h2 hx => ?_).symm)
      simp only [Set.mem_ofPred_eq] at hx
      omega

/-- A larger product is not honoured by a block: no memory is as large. -/
theorem not_callocHonours_of_gt (h : Heap v m bl pl) (hgt : 268435456 < nmemb * size + headerSize) (hptr : ptr ≠ 0)
    (hok : Comes (fun fuel => BootPerl.kalloc fuel v m (nmemb * size % 4294967296)) (.ok (m', ptr))) :
    ¬CallocHonours v m bl pl nmemb size := by
  have hcall := calloc_comes hok
  rintro (⟨msg, hp⟩ | ⟨m₁, ptr₁, hok₁, hres⟩)
  · exact absurd hp hcall.not_panic
  · obtain ⟨-, rfl⟩ := Prod.mk.inj (hcall.ok_inj hok₁)
    obtain ⟨bl', pl', -, habove, -, hcov, -⟩ := hres.resolve_left hptr
    rw [headerSize] at hgt habove hcov
    have hlast := hcov (ptr + nmemb * size - 1)
    have hin : Region.Has ⟨ptr - 4, nmemb * size + 4⟩ (ptr + nmemb * size - 1) :=
      ⟨by dsimp only; omega, by dsimp only; omega⟩
    rw [Region.ind_of_has hin] at hlast
    have hpos : 0 < coverage bl (ptr + nmemb * size - 1) + coverage pl (ptr + nmemb * size - 1) := by omega
    rw [← coverage_append] at hpos
    obtain ⟨r, hr, ha⟩ := coverage_pos_iff.1 hpos
    have hstop : r.stop ≤ 268435456 := (List.mem_append.1 hr).elim (h.blocks.low r) (h.pages.low r)
    simp only [Region.Has, Region.stop] at ha hstop
    omega

end Heap

/-- `calloc` honours the product exactly when it lies below 256 MB with a header, or no block is available for what 32 bits are left
of it. -/
theorem calloc_honours_iff {v : HeapVars} {m : Mem} {bl pl : List Region} (h : Heap v m bl pl) (nmemb size : Nat) :
    CallocHonours v m bl pl nmemb size ↔
      nmemb * size + headerSize ≤ 268435456 ∨ ¬Available (nmemb * size % 4294967296) bl pl := by
  rcases Nat.lt_or_ge 268435456 (nmemb * size + headerSize) with hgt | hle
  · rcases h.kalloc_ends (Nat.mod_lt (nmemb * size) (by decide)) with ⟨hyes, m', ptr, hptr, hok⟩ | ⟨hno, msg, hp⟩
    · refine ⟨fun hhon => absurd hhon (h.not_callocHonours_of_gt hgt hptr hok), ?_⟩
      rintro (hle | hno)
      · omega
      · exact absurd hyes hno
    · exact ⟨fun _ => Or.inr hno, fun _ => Or.inl ⟨msg, Heap.calloc_panics hp⟩⟩
  · exact ⟨fun _ => Or.inl hle, fun _ => h.callocHonours_of_le hle⟩

/-- Ten objects of ten bytes in a fresh memory of four pages. -/
theorem calloc_honours_iff_tiny :
    CallocHonours tinyMemory.toHeapVars tinyMemory.initial [] [tinyMemory.managed] 10 10 :=
  (calloc_honours_iff (tinyMemory.heap_initial (by decide)) 10 10).2 (Or.inl (by decide))

/-- Four pages are free. 65536 objects of 65536 bytes are none at all in 32 bits, and get a block without a payload. -/
theorem calloc_honours_false : Heap tinyMemory.toHeapVars tinyMemory.initial [] [tinyMemory.managed] ∧
    (∃ m', Comes (fun fuel => calloc fuel tinyMemory.toHeapVars tinyMemory.initial 65536 65536) (.ok (m', 0x204000)) ∧
      m'.size (0x204000 - headerSize) = 0) ∧
    ¬CallocHonours tinyMemory.toHeapVars tinyMemory.initial [] [tinyMemory.managed] 65536 65536 := by
  have hheap : Heap tinyMemory.toHeapVars tinyMemory.initial [] [tinyMemory.managed] := tinyMemory.heap_initial (by decide)
  obtain ⟨m', hm', hsize⟩ : ∃ m', kalloc 3 tinyMemory.toHeapVars tinyMemory.initial (65536 * 65536 % 4294967296) = .ok (m', 0x204000) ∧
      m'.size (0x204000 - headerSize) = 0 := ⟨_, rfl, rfl⟩
  have hok := (settles_kalloc _ _ _).comes hm'
  exact ⟨hheap, ⟨m', Heap.calloc_comes hok, hsize⟩, hheap.not_callocHonours_of_gt (by decide) (by decide) hok⟩

end BootPerl
