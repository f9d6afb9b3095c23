import BootPerl.Lemmas.Fuel

/-!
# The page list

What `page_allocate`, `page_allocate_consecutive` and `page_release` do to a well-formed page list, as operations on the list of
runs: carving from the top of a run, and inserting one page. Every statement says that the call returns (or panics), what list
the memory holds afterwards, and that only nodes of the list are stored to.
-/

namespace BootPerl

open Mem Outcome

/-- Below 256 MB an address has its page number, with no truncation. -/
theorem addrToPage_eq {a : Nat} (h : a < 268435456) : addrToPage a = a / 4096 := by
  have hl : toLong a = (a : Int) := if_pos (by omega)
  have hd : ((a : Int).tdiv pageSize) = ((a / 4096 : Nat) : Int) := by
    rw [Int.tdiv_eq_ediv_of_nonneg (by omega)]
    rfl
  rw [addrToPage, hl, hd]
  omega

/-- The memory under one page. -/
def pageRegion (page : Nat) : Region := ⟨page * 4096, 4096⟩

/-- A run of consecutive pages covers the memory of its pages. -/
theorem coverage_consecutive (count : Nat) : ∀ page a,
    coverage ((List.range' page count).map pageRegion) a = (⟨page * 4096, 4096 * count⟩ : Region).ind a := by
  induction count with
  | zero =>
    intro page a
    exact (Region.ind_of_not_has (by simp only [Region.Has]; omega)).symm
  | succ count ih =>
    intro page a
    have hm := Region.ind_merge (pageRegion page) ⟨(page + 1) * 4096, 4096 * count⟩
      (by simp only [Region.stop, pageRegion]; omega) a
    simp only [pageRegion] at hm
    rw [List.range'_succ, List.map_cons, coverage_cons, ih, show 4096 * (count + 1) = 4096 + 4096 * count by omega, hm]
    rfl

/-- The pages of a list that hold an address. -/
theorem coverage_pages (pages : List Nat) (a : Nat) : coverage (pages.map pageRegion) a = pages.count (a / 4096) := by
  induction pages with
  | nil => rfl
  | cons page pages ih =>
    have hiff : page * 4096 ≤ a ∧ a < page * 4096 + 4096 ↔ page = a / 4096 := by omega
    have hind : (pageRegion page).ind a = if page == a / 4096 then 1 else 0 := by
      simp only [Region.ind, pageRegion, beq_iff_eq]
      exact if_congr hiff rfl rfl
    rw [List.map_cons, coverage_cons, ih, hind, List.count_cons, Nat.add_comm]

/-- A well-formed page list: a free list counted in pages, its runs aligned and below 256 MB. -/
structure PageList (v : HeapVars) (m : Mem) (pl : List Region) : Prop where
  free : FreeList 4096 2 m v.pagesHead pl
  aligned : ∀ r ∈ pl, r.addr % 4096 = 0
  low : ∀ r ∈ pl, r.stop ≤ 268435456

namespace PageList
variable {v : HeapVars} {m m' : Mem} {pl : List Region}

/-- The `pages` field of a run and of the head. -/
theorem pages_eq (h : PageList v m pl) {r : Region} (hr : r ∈ pl) : 4096 * m.pages r.addr = r.size :=
  h.free.linked.count r (List.mem_cons_of_mem _ hr)

theorem pages_head (h : PageList v m pl) : m.pages v.pagesHead = 0 := by
  have := h.free.linked.count _ List.mem_cons_self
  simp only at this
  simp only [pages]
  omega

/-- A run holds whole pages, at least one. -/
theorem size_ge (h : PageList v m pl) {r : Region} (hr : r ∈ pl) : 4096 ≤ r.size := by
  have h1 := h.pages_eq hr
  have h2 := h.free.room r hr
  omega

theorem addr_ge (h : PageList v m pl) {r : Region} (hr : r ∈ pl) : 4096 ≤ r.addr := by
  have h1 := h.aligned r hr
  have h2 := h.free.pos r hr
  omega

theorem next_head (h : PageList v m pl) : m.next v.pagesHead = firstAddr pl := h.free.linked.2.1

/-- A step that stores outside the head and the free pages keeps the page list. -/
theorem frame (h : PageList v m pl) {X : Set Nat} (hf : Mem.Frame X m m')
    (hX : ∀ r ∈ (⟨v.pagesHead, 8⟩ : Region) :: pl, ∀ a, r.Has a → a ∉ X) : PageList v m' pl :=
  ⟨h.free.frame (by decide) hf hX, h.aligned, h.low⟩

/-! ## `kalloc_init` -/

/-- `kalloc_init` leaves one run, of the whole pages between the bounds, when they lie above the head and below 256 MB. -/
theorem init {m : Mem} (hm : m.pages v.pagesHead = 0) {memoryStart memoryEnd : Nat} (hal : memoryStart % 4096 = 0)
    (habove : v.pagesHead + 8 ≤ memoryStart) (hone : memoryStart + 4096 ≤ memoryEnd) (hend : memoryEnd < 4294967296)
    (hlow : memoryStart + 4096 * ((memoryEnd - memoryStart) / 4096) ≤ 268435456) :
    PageList v (kallocInit v m memoryStart memoryEnd) [⟨memoryStart, 4096 * ((memoryEnd - memoryStart) / 4096)⟩] := by
  have hsize : (memoryEnd + 4294967296 - memoryStart) % 4294967296 / 4096 = (memoryEnd - memoryStart) / 4096 := by omega
  simp only [kallocInit, pageSize, hsize]
  have hn1 : (m.setNext v.pagesHead memoryStart).next v.pagesHead = memoryStart := next_setNext (by omega)
  rw [hn1]
  have hn2 : ((m.setNext v.pagesHead memoryStart).setPages memoryStart ((memoryEnd - memoryStart) / 4096)).next
      v.pagesHead = memoryStart := (load_store_of_disjoint (by omega)).trans hn1
  rw [hn2]
  refine ⟨⟨⟨?_, ?_, ?_, ?_, trivial⟩, List.pairwise_singleton _ _, ?_, ?_, ?_, ?_⟩, ?_, ?_⟩
  · show 4096 * Mem.load _ v.pagesHead 2 = 0
    rw [setNext, load_store_of_disjoint (by omega), setPages, load_store_of_disjoint (by omega), setNext,
      load_store_of_disjoint (by omega)]
    simp only [pages] at hm
    rw [hm]
  · show Mem.load _ (v.pagesHead + 4) 4 = memoryStart
    rw [setNext, load_store_of_disjoint (by omega)]
    exact hn2
  · show 4096 * Mem.load _ memoryStart 2 = _
    rw [load_setNext_count (by decide), setPages, load_store_two (by omega)]
  · exact next_setNext (by decide)
  all_goals
    intro r hr
    rw [List.mem_singleton] at hr
    subst hr
    simp only [Region.Apart, Region.stop]
    omega

/-! ## `page_release` -/

/-- On a well-formed list step B3 is the merge with the node after: page numbers compare like addresses. -/
theorem pageSpliceNext_eq (h : PageList v m pl) {page : Nat} (h0 : 0 < page) (es : List Region) (hes : ∀ r ∈ es, r ∈ pl) :
    pageSpliceNext m page (firstAddr es) = m.spliceNext 4096 2 (firstAddr es) (page * 4096) 1 := by
  cases es with
  | nil =>
    have hgap : ¬(page + 1 = addrToPage 0 ∧ 0 ≠ 0) := fun hc => hc.2 rfl
    rw [show firstAddr [] = 0 from rfl, spliceNext_gap fun hc => hc.2 rfl, pageSpliceNext, if_neg hgap]
    rfl
  | cons f fs =>
    have hf := hes f List.mem_cons_self
    have hlow := h.low f hf
    have hal := h.aligned f hf
    have haddr := h.addr_ge hf
    have hsize := h.size_ge hf
    have hpages := h.pages_eq hf
    simp only [Region.stop] at hlow
    rw [show firstAddr (f :: fs) = f.addr from rfl, pageSpliceNext, addrToPage_eq (by omega)]
    by_cases hc : page * 4096 + 4096 * 1 = f.addr
    · have htouch : page + 1 = f.addr / 4096 ∧ f.addr ≠ 0 := by omega
      have hmod : (1 + m.pages f.addr) % 65536 = 1 + m.pages f.addr := by omega
      rw [spliceNext_touch hc htouch.2, if_pos htouch, hmod]
      rfl
    · have hgap : ¬(page + 1 = f.addr / 4096 ∧ f.addr ≠ 0) := by omega
      rw [spliceNext_gap fun hh => hc hh.1, if_neg hgap]
      rfl

/-- On a well-formed list step B4 is the merge with the node before: the head's page is not the page released. -/
theorem pageSplicePrev_eq (h : PageList v m pl) {page n : Nat} (hhead : Region.Apart ⟨v.pagesHead, 8⟩ (pageRegion page))
    {q : Region} (hq : q ∈ (⟨v.pagesHead, 0⟩ : Region) :: pl) (hm : m'.pages q.addr = m.pages q.addr) :
    pageSplicePrev m' page q.addr n = m'.splicePrev 4096 2 q.addr (page * 4096) n := by
  have hv := v.pagesLow
  have hload : m'.load q.addr 2 = m'.pages q.addr := rfl
  have hiff : addrToPage q.addr + m'.pages q.addr = page ↔ q.addr + 4096 * m'.load q.addr 2 = page * 4096 := by
    rw [hload, hm]
    rcases List.mem_cons.1 hq with rfl | hq
    · simp only [Region.Apart, Region.stop, pageRegion] at hhead
      rw [h.pages_head, addrToPage_eq (by dsimp only; omega)]
      dsimp only
      omega
    · have hlow := h.low q hq
      have hal := h.aligned q hq
      have hsize := h.size_ge hq
      simp only [Region.stop] at hlow
      rw [addrToPage_eq (by omega)]
      omega
  simp only [pageSplicePrev, splicePrev, hiff]
  rfl

/-- Releasing a page inserts it into the list of runs. -/
theorem release (h : PageList v m pl) {page fuel : Nat} (h0 : 0 < page) (hp : page < 65536)
    (hap : ∀ r ∈ pl, (pageRegion page).Apart r) (hhead : Region.Apart ⟨v.pagesHead, 8⟩ (pageRegion page))
    (hf : pl.length < fuel) :
    ∃ m', pageRelease fuel v m page = .ok m' ∧ PageList v m' (insert (pageRegion page) pl) ∧
      Mem.Frame (nodeBytes (⟨v.pagesHead, 0⟩ :: pageRegion page :: pl)) m m' := by
  have hregion : pageRegion page = ⟨page * 4096, 4096 * 1⟩ := rfl
  have hall : ∀ r ∈ insert (pageRegion page) pl, r.addr % 4096 = 0 ∧ r.stop ≤ 268435456 ∧ 4096 ≤ r.addr := by
    refine forall_insert ?_ ?_ fun r hr => ⟨h.aligned r hr, h.low r hr, h.addr_ge hr⟩
    · rintro r s ⟨h1, h2, h3⟩ ⟨h4, h5, h6⟩ h7
      simp only [Region.stop] at *
      omega
    · simp only [pageRegion, Region.stop]
      omega
  have hfit : ∀ r ∈ insert (pageRegion page) pl, r.size < 4096 * 256 ^ 2 := by
    intro r hr
    obtain ⟨-, h2, h3⟩ := hall r hr
    simp only [Region.stop] at h2
    omega
  have hscan : m.scan (pageToAddr page) fuel v.pagesHead = _ := h.free.scan_eq (page * 4096) hf
  have hroom : 8 ≤ (joined ⟨page * 4096, 4096 * 1⟩ (after (page * 4096) pl)).size := by
    have hle := le_joined_size ⟨page * 4096, 4096 * 1⟩ (after (page * 4096) pl)
    dsimp only at hle ⊢
    omega
  obtain ⟨hfree, hframe⟩ := h.free.splice (by decide) (page * 4096) 1 (by decide) hroom (by omega) (by omega) hap hhead
    (hregion ▸ hfit)
  have hq := before_mem (page * 4096) pl ⟨v.pagesHead, 0⟩
  have hqa : NodeApart (pageRegion page) (before (page * 4096) ⟨v.pagesHead, 0⟩ pl) := by
    rcases List.mem_cons.1 hq with hq | hq
    · rw [hq]
      simp only [Region.Apart, Region.stop, pageRegion, NodeApart] at hhead ⊢
      omega
    · exact nodeApart_of_apart (show 8 ≤ 4096 by decide) (h.free.room _ hq) (hap _ hq)
  have hkeep : (m.spliceNext 4096 2 (firstAddr (after (page * 4096) pl)) (page * 4096) 1).1.pages
      (before (page * 4096) ⟨v.pagesHead, 0⟩ pl).addr = m.pages (before (page * 4096) ⟨v.pagesHead, 0⟩ pl).addr :=
    (load_of_nodeApart (by decide) (frame_spliceNext (pageRegion page) m _ 1) hqa).1
  have hnext := h.pageSpliceNext_eq h0 (after (page * 4096) pl) fun r hr => (after_sublist _ _).subset hr
  refine ⟨_, ?_, ⟨hfree, fun r hr => (hall r hr).1, fun r hr => (hall r hr).2.1⟩, hframe⟩
  rw [pageRelease, hscan]
  simp only [hnext]
  exact congrArg Outcome.ok (h.pageSplicePrev_eq hhead hq hkeep)

/-! ## `page_allocate` and `page_allocate_consecutive` -/

end PageList

/-- Taking `count` pages from the top of the run `cur`, which is unlinked from `prev` when none is left. -/
def takePages (m : Mem) (prev cur count : Nat) : Mem :=
  let m := m.setPages cur (m.pages cur - count)
  if m.pages cur = 0 then m.setNext prev (m.next cur) else m

/-- Taking pages carves the run they are in. -/
theorem linked_takePages {m : Mem} {e f : Region} {fs : List Region} (count : Nat) (h : Linked 4096 2 m (e :: f :: fs))
    (hsep : (e :: f :: fs).Pairwise NodeApart) (hlt : ∀ r ∈ fs, r.addr < 4294967296) (hk : 4096 * count ≤ f.size) :
    Linked 4096 2 (takePages m e.addr f.addr count) (e :: (carve (4096 * count) f ++ fs)) ∧
      Mem.Frame (nodeBytes [e, f]) m (takePages m e.addr f.addr count) := by
  have hcount : 4096 * m.pages f.addr = f.size := h.2.2.1
  have hlt2 : m.pages f.addr < 65536 := m.load_two_lt _
  have hshrink : Linked 4096 2 (m.setPages f.addr (m.pages f.addr - count))
      (e :: ⟨f.addr, 4096 * (m.pages f.addr - count)⟩ :: fs) :=
    linked_shrink (by decide) (show m.pages f.addr - count < 65536 by omega) [e] h hsep
  have hf1 : Mem.Frame (nodeBytes [e, f]) m (m.setPages f.addr (m.pages f.addr - count)) :=
    (frame_storeCount (by decide) f m _).mono (nodeBytes_mono (by simp))
  have hread : (m.setPages f.addr (m.pages f.addr - count)).pages f.addr = m.pages f.addr - count :=
    load_store_two (by omega)
  rw [takePages, hread, carve]
  by_cases hz : m.pages f.addr - count = 0
  · rw [if_pos hz, if_pos (by omega)]
    have hef : ∀ r ∈ fs, NodeApart e r := fun r hr => (List.pairwise_cons.1 hsep).1 r (List.mem_cons_of_mem _ hr)
    have hunlink := linked_unlink (by decide) hshrink hef hlt
    refine ⟨hunlink, hf1.trans ?_⟩
    exact (frame_setNext e _ _).mono (nodeBytes_mono (by simp))
  · rw [if_neg hz, if_neg (by omega)]
    refine ⟨?_, hf1⟩
    rw [show f.size - 4096 * count = 4096 * (m.pages f.addr - count) by omega]
    exact hshrink

/-- The scan for `count` consecutive pages: it panics when no run has as many, and else carves the first that has. -/
theorem takeConsecutive_spec {m : Mem} {count : Nat} (h0 : 0 < count) {es : List Region} :
    ∀ {e fuel}, Linked 4096 2 m (e :: es) → (e :: es).Pairwise NodeApart → (∀ r ∈ es, 0 < r.addr) →
      (∀ r ∈ es, r.stop ≤ 268435456 ∧ r.addr % 4096 = 0) → es.length < fuel →
      ((∀ r ∈ es, r.size < 4096 * count) ∧
        takeConsecutive m count fuel e.addr (firstAddr es) = .panic "Not enough consecutive pages to complete alloc") ∨
      ∃ pre f post m', es = pre ++ f :: post ∧ (∀ r ∈ pre, r.size < 4096 * count) ∧ 4096 * count ≤ f.size ∧
        takeConsecutive m count fuel e.addr (firstAddr es) = .ok (m', (top (4096 * count) f).addr / 4096) ∧
        Linked 4096 2 m' (e :: (pre ++ carve (4096 * count) f ++ post)) ∧ Mem.Frame (nodeBytes (e :: es)) m m' := by
  induction es with
  | nil =>
    intro e fuel _ _ _ _ hf
    obtain ⟨fuel, rfl⟩ := Nat.exists_eq_succ_of_ne_zero (Nat.ne_of_gt hf)
    exact Or.inl ⟨by simp, rfl⟩
  | cons f fs ih =>
    intro e fuel hl hsep hpos hlow hf
    obtain ⟨fuel, rfl⟩ := Nat.exists_eq_succ_of_ne_zero (Nat.ne_of_gt (Nat.zero_lt_of_lt hf))
    rw [List.forall_mem_cons] at hpos hlow
    have hcount : 4096 * m.pages f.addr = f.size := hl.2.2.1
    have hf0 : f.addr ≠ 0 := by omega
    have hstop : f.addr + f.size ≤ 268435456 := hlow.1.1
    rw [show firstAddr (f :: fs) = f.addr from rfl, takeConsecutive, if_neg hf0]
    by_cases hc : count ≤ m.pages f.addr
    · have hlt : ∀ r ∈ fs, r.addr < 4294967296 := fun r hr => by
        have := (hlow.2 r hr).1
        simp only [Region.stop] at this
        omega
      obtain ⟨hlk, hfr⟩ := linked_takePages count hl hsep hlt (by omega)
      refine Or.inr ⟨[], f, fs, takePages m e.addr f.addr count, rfl, by simp, by omega, ?_, hlk,
        hfr.mono (nodeBytes_mono (by simp))⟩
      have hread : (m.setPages f.addr (m.pages f.addr - count)).pages f.addr = m.pages f.addr - count :=
        load_store_two (by omega)
      have hpage : (f.addr / 4096 + (m.pages f.addr - count)) % 65536 = (top (4096 * count) f).addr / 4096 := by
        simp only [top]
        omega
      rw [if_pos hc, addrToPage_eq (by omega)]
      simp only [hread, hpage]
      exact congrArg Outcome.ok (Prod.ext (by rw [takePages, hread]) rfl)
    · rw [if_neg hc]
      have hnext : m.next f.addr = firstAddr fs := hl.2.2.2.1
      rw [hnext]
      obtain ⟨hef, hsep'⟩ := List.pairwise_cons.1 hsep
      have hkeep : ∀ a, e.addr ≤ a → a < e.addr + 8 → a ∉ nodeBytes (f :: fs) := by
        rintro a h1 h2 ⟨r, hr, ha⟩
        have := hef r hr
        simp only [NodeApart] at this
        omega
      rcases ih hl.2.2 hsep' hpos.2 hlow.2 (by simpa using hf) with ⟨hall, hp⟩ | ⟨pre, g, post, m', rfl, hpre, hg, hr, hlk, hfr⟩
      · exact Or.inl ⟨List.forall_mem_cons.2 ⟨by omega, hall⟩, hp⟩
      · refine Or.inr ⟨f :: pre, g, post, m', rfl, List.forall_mem_cons.2 ⟨by omega, hpre⟩, hg, hr, ⟨?_, ?_, hlk⟩,
          hfr.mono (nodeBytes_mono fun r hr => List.mem_cons_of_mem _ hr)⟩
        · rw [hfr.load fun x h1 h2 => hkeep x h1 (by omega)]
          exact hl.1
        · rw [Mem.next, hfr.load fun x h1 h2 => hkeep x (by omega) (by omega)]
          exact hl.2.1

/-- What `page_allocate_consecutive` panics with when no run is long enough. -/
def outOfPages : List Region → String
  | [] => "Out of pages to allocate"
  | _ :: _ => "Not enough consecutive pages to complete alloc"

namespace PageList
variable {v : HeapVars} {m m' : Mem} {pl : List Region}

/-- After the top of one run is carved off, in memory and in the list, the page list is well formed. -/
theorem carve_run (h : PageList v m pl) {pre post : List Region} {f : Region} {count : Nat} (hpl : pl = pre ++ f :: post)
    (hk : 4096 * count ≤ f.size)
    (hl : Linked 4096 2 m' (⟨v.pagesHead, 0⟩ :: (pre ++ carve (4096 * count) f ++ post))) :
    PageList v m' (pre ++ carve (4096 * count) f ++ post) := by
  subst hpl
  have hf : f ∈ pre ++ f :: post := by simp
  have hsize := h.pages_eq hf
  have hlow := h.low f hf
  refine ⟨h.free.of_carve (fun hne => by omega) hl, forall_carve h.aligned fun _ => h.aligned f hf,
    forall_carve h.low fun _ => ?_⟩
  simp only [Region.stop] at hlow ⊢
  omega

theorem low_aligned (h : PageList v m pl) : ∀ r ∈ pl, r.stop ≤ 268435456 ∧ r.addr % 4096 = 0 :=
  fun r hr => ⟨h.low r hr, h.aligned r hr⟩

/-- On an empty list `page_allocate` panics; else it takes the last page of the first run. -/
theorem allocate (h : PageList v m pl) :
    (pl = [] ∧ pageAllocate v m = .panic "Out of pages to allocate") ∨
      ∃ f post m', pl = f :: post ∧ pageAllocate v m = .ok (m', (top 4096 f).addr / 4096) ∧
        PageList v m' (carve 4096 f ++ post) ∧ Mem.Frame (nodeBytes (⟨v.pagesHead, 0⟩ :: pl)) m m' := by
  have hnext := h.next_head
  cases pl with
  | nil =>
    refine Or.inl ⟨rfl, ?_⟩
    rw [show firstAddr [] = 0 from rfl] at hnext
    rw [pageAllocate, if_pos hnext]
  | cons f post =>
    have hf : f ∈ f :: post := List.mem_cons_self
    have hlow := h.low f hf
    have haddr := h.addr_ge hf
    have hsize := h.size_ge hf
    have hpages := h.pages_eq hf
    simp only [Region.stop] at hlow
    rw [show firstAddr (f :: post) = f.addr from rfl] at hnext
    have hlt : ∀ r ∈ post, r.addr < 4294967296 := fun r hr => by
      have h1 := h.free.bound r (List.mem_cons_of_mem _ hr)
      have h2 := h.size_ge (List.mem_cons_of_mem f hr)
      simp only [Region.stop] at h1
      omega
    obtain ⟨hlk, hfr⟩ := linked_takePages 1 h.free.linked h.free.pairwise_nodeApart hlt (by omega)
    -- the head still points to the run when `pages_head.next` is read again
    have hagain : (m.setPages f.addr (m.pages f.addr - 1)).next v.pagesHead = f.addr := by
      have hap : NodeApart f ⟨v.pagesHead, 0⟩ := ((List.pairwise_cons.1 h.free.pairwise_nodeApart).1 f hf).symm
      have hf2 : Mem.Frame (nodeBytes [f]) m (m.setPages f.addr (m.pages f.addr - 1)) := frame_storeCount (by decide) f m _
      exact (load_of_nodeApart (Nat.le_refl 4) hf2 hap).2.trans hnext
    have hpage : (f.addr / 4096 + (m.pages f.addr - 1)) % 65536 = (top 4096 f).addr / 4096 := by
      simp only [top]
      omega
    refine Or.inr ⟨f, post, takePages m v.pagesHead f.addr 1, rfl, ?_, h.carve_run (List.nil_append _).symm (by omega) hlk,
      hfr.mono (nodeBytes_mono (by simp))⟩
    rw [pageAllocate, hnext, if_neg (by omega), if_neg (by omega), addrToPage_eq (by omega)]
    simp only [hagain, hpage]
    rfl

/-- `page_allocate_consecutive` panics when no run has `count` pages, and else carves the first that has. -/
theorem allocateConsecutive (h : PageList v m pl) {count fuel : Nat} (h0 : 0 < count) (hf : pl.length < fuel) :
    ((∀ r ∈ pl, r.size < 4096 * count) ∧ pageAllocateConsecutive fuel v m count = .panic (outOfPages pl)) ∨
      ∃ pre f post m', pl = pre ++ f :: post ∧ (∀ r ∈ pre, r.size < 4096 * count) ∧ 4096 * count ≤ f.size ∧
        pageAllocateConsecutive fuel v m count = .ok (m', (top (4096 * count) f).addr / 4096) ∧
        PageList v m' (pre ++ carve (4096 * count) f ++ post) ∧ Mem.Frame (nodeBytes (⟨v.pagesHead, 0⟩ :: pl)) m m' := by
  have hnext := h.next_head
  have hspec := takeConsecutive_spec h0 h.free.linked h.free.pairwise_nodeApart h.free.pos h.low_aligned hf
  rw [pageAllocateConsecutive, if_neg (by omega), hnext]
  by_cases hnil : firstAddr pl = 0
  · have hpl : pl = [] := by
      cases pl with
      | nil => rfl
      | cons f post => exact absurd hnil (Nat.ne_of_gt (h.free.pos f List.mem_cons_self))
    subst hpl
    exact Or.inl ⟨by simp, if_pos hnil⟩
  · have hpages : m.pages (firstAddr pl) ≠ 0 := by
      cases pl with
      | nil => exact absurd rfl hnil
      | cons f post =>
        have h1 := h.pages_eq (List.mem_cons_self : f ∈ f :: post)
        have h2 := h.size_ge (List.mem_cons_self : f ∈ f :: post)
        simp only [firstAddr]
        omega
    rw [if_neg hnil, if_neg hpages]
    rcases hspec with ⟨hall, hp⟩ | ⟨pre, f, post, m', hpl, hpre, hk, hr, hlk, hfr⟩
    · refine Or.inl ⟨hall, hp.trans ?_⟩
      cases pl with
      | nil => exact absurd rfl hnil
      | cons f post => rfl
    · exact Or.inr ⟨pre, f, post, m', hpl, hpre, hk, hr, h.carve_run hpl hk hlk, hfr⟩

/-- The same, whatever the fuel. -/
theorem consecutive_comes (h : PageList v m pl) {count : Nat} (h0 : 0 < count) :
    ((∀ r ∈ pl, r.size < 4096 * count) ∧
        Comes (fun fuel => pageAllocateConsecutive fuel v m count) (.panic (outOfPages pl))) ∨
      ∃ pre f post m', pl = pre ++ f :: post ∧ (∀ r ∈ pre, r.size < 4096 * count) ∧ 4096 * count ≤ f.size ∧
        Comes (fun fuel => pageAllocateConsecutive fuel v m count) (.ok (m', (top (4096 * count) f).addr / 4096)) ∧
        PageList v m' (pre ++ carve (4096 * count) f ++ post) ∧ Mem.Frame (nodeBytes (⟨v.pagesHead, 0⟩ :: pl)) m m' := by
  rcases h.allocateConsecutive h0 (Nat.lt_succ_self _) with ⟨hnone, -⟩ | ⟨pre, f, post, m', hpl, hpre, hk, hok, hpl', hf⟩
  · refine Or.inl ⟨hnone, pl.length + 1, fun fuel hfuel => ?_⟩
    rcases h.allocateConsecutive h0 hfuel with ⟨-, hp⟩ | ⟨pre, f, post, m', rfl, -, hk, -⟩
    · exact hp
    · exact absurd hk (Nat.not_le_of_lt (hnone f (by simp)))
  · exact Or.inr ⟨pre, f, post, m', hpl, hpre, hk, (settles_pageAllocateConsecutive v m count).comes hok, hpl', hf⟩

end PageList

end BootPerl
