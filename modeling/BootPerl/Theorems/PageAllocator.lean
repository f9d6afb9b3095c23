import Mathlib.Data.List.Nodup
import BootPerl.Lemmas.Pages
import BootPerl.Lib.Run

/-!
# The page allocator

From `kalloc_init` on, over every run of page calls: the list stays canonical, and each page of the managed memory is on it or
held by a caller, never both and never twice. And which memory sizes the allocator manages whole: those up to 256 MB, since page
numbers and page counts are `unsigned short`.
-/

namespace BootPerl

open Mem Outcome

/-- The machine when boot calls `kalloc_init`: the list heads hold their initialisers, and the bounds of memory are a page
boundary above the kernel's data and a 32-bit address at least one page higher. -/
structure BootMemory extends HeapVars where
  mem : Mem
  memoryStart : Nat
  memoryEnd : Nat
  pagesZero : mem.pages pagesHead = 0
  blocksZero : mem.size blocksHead = 0 ∧ mem.next blocksHead = 0
  aligned : memoryStart % 4096 = 0
  aboveKernel : pagesHead + 8 ≤ memoryStart ∧ blocksHead + 8 ≤ memoryStart
  onePage : memoryStart + 4096 ≤ memoryEnd
  addressable : memoryEnd < 4294967296

namespace BootMemory

/-- The memory after `kalloc_init`. -/
def initial (b : BootMemory) : Mem := kallocInit b.toHeapVars b.mem b.memoryStart b.memoryEnd

/-- The number of the first page. -/
def firstPage (b : BootMemory) : Nat := b.memoryStart / 4096

/-- How many whole pages lie between the bounds. -/
def pageCount (b : BootMemory) : Nat := (b.memoryEnd - b.memoryStart) / 4096

/-- The whole pages between the bounds. -/
def managed (b : BootMemory) : Region := ⟨b.memoryStart, 4096 * b.pageCount⟩

/-- `kalloc_init` on a memory whose whole pages lie below 256 MB leaves one run of them all. -/
theorem pageList_initial (b : BootMemory) (hlow : b.managed.stop ≤ 268435456) :
    PageList b.toHeapVars b.initial [b.managed] :=
  PageList.init b.pagesZero b.aligned b.aboveKernel.1 b.onePage b.addressable hlow

end BootMemory

/-! ## The pages on the list -/

/-- The page lies in a run of the list. -/
def FreePage (pl : List Region) (page : Nat) : Prop := ∃ r ∈ pl, r.Has (page * 4096)

/-- The first address of a page held by a caller is covered by the pages held. -/
theorem has_pageRegion (page : Nat) : (pageRegion page).Has (page * 4096) := by
  simp only [Region.Has, pageRegion]
  omega

/-! ## Runs of page calls -/

/-- The memory, and the pages callers hold. -/
structure PageState where
  mem : Mem
  held : List Nat

/-- One call, or one byte a caller writes to a page it holds. A call that panics has no next state. -/
inductive PageStep (v : HeapVars) : PageState → PageState → Prop where
  | allocate {s : PageState} {m : Mem} {page : Nat} :
      pageAllocate v s.mem = .ok (m, page) → PageStep v s ⟨m, page :: s.held⟩
  | allocateConsecutive {s : PageState} {m : Mem} {count page : Nat} : 0 < count → count < 65536 →
      Comes (fun fuel => pageAllocateConsecutive fuel v s.mem count) (.ok (m, page)) →
      PageStep v s ⟨m, List.range' page count ++ s.held⟩
  | release {s : PageState} {m : Mem} {page : Nat} : page ∈ s.held →
      Comes (fun fuel => pageRelease fuel v s.mem page) (.ok m) → PageStep v s ⟨m, s.held.erase page⟩
  | write {s : PageState} {page a : Nat} {c : UInt8} : page ∈ s.held → (pageRegion page).Has a →
      PageStep v s ⟨s.mem.set a c, s.held⟩

/-- The state after `kalloc_init`: no page is held. -/
def BootMemory.PageInit (b : BootMemory) (s : PageState) : Prop := s = ⟨b.initial, []⟩

/-- The memory holds a page list that, with the pages held, covers the managed memory exactly once and nothing else. -/
def PageInv (b : BootMemory) (s : PageState) : Prop :=
  ∃ pl, PageList b.toHeapVars s.mem pl ∧
    ∀ a, coverage pl a + coverage (s.held.map pageRegion) a = b.managed.ind a

namespace PageInv
variable {b : BootMemory} {s : PageState} {pl : List Region}

/-- A covered address is a managed one. -/
theorem managed_of_pos (hcov : ∀ a, coverage pl a + coverage (s.held.map pageRegion) a = b.managed.ind a) {a : Nat}
    (h : 0 < coverage pl a ∨ 0 < coverage (s.held.map pageRegion) a) : b.managed.Has a := by
  have := hcov a
  exact Region.ind_pos_iff.1 (by omega)

/-- A page held is a managed page, off the list and apart from the head. -/
theorem held_page (hlow : b.managed.stop ≤ 268435456)
    (hpl : PageList b.toHeapVars s.mem pl) (hcov : ∀ a, coverage pl a + coverage (s.held.map pageRegion) a = b.managed.ind a)
    {page : Nat} (hp : page ∈ s.held) :
    0 < page ∧ page < 65536 ∧ (∀ r ∈ pl, (pageRegion page).Apart r) ∧
      Region.Apart ⟨b.pagesHead, 8⟩ (pageRegion page) := by
  have hmem : pageRegion page ∈ s.held.map pageRegion := List.mem_map_of_mem hp
  have hman := managed_of_pos hcov (Or.inr (coverage_pos_of_mem hmem (has_pageRegion page)))
  have hab := b.aboveKernel.1
  have hal := b.aligned
  simp only [BootMemory.managed, Region.stop, Region.Has] at hlow hman
  refine ⟨by omega, by omega, fun r hr => ?_, ?_⟩
  · refine Region.Disjoint.apart ?_ (show 0 < 4096 by decide) (by have := hpl.free.room r hr; omega)
    rintro a ⟨h1, h2⟩
    have h3 := coverage_pos_of_mem hmem h1
    have h4 := coverage_pos_of_mem hr h2
    have h5 := hcov a
    have h6 := b.managed.ind_le_one a
    omega
  · simp only [Region.Apart, Region.stop, pageRegion]
    omega

/-- `page_release` puts a held page back on the list. -/
theorem held_release (hlow : b.managed.stop ≤ 268435456) (hpl : PageList b.toHeapVars s.mem pl)
    (hcov : ∀ a, coverage pl a + coverage (s.held.map pageRegion) a = b.managed.ind a) {page : Nat} (hp : page ∈ s.held) :
    ∃ m', Comes (fun fuel => pageRelease fuel b.toHeapVars s.mem page) (.ok m') ∧
      PageList b.toHeapVars m' (insert (pageRegion page) pl) := by
  obtain ⟨h0, h1, hap, hhead⟩ := held_page hlow hpl hcov hp
  obtain ⟨m', hok, hpl', -⟩ := hpl.release h0 h1 hap hhead (Nat.lt_succ_self pl.length)
  exact ⟨m', (settles_pageRelease _ _ _).comes hok, hpl'⟩

theorem init (hlow : b.managed.stop ≤ 268435456) {s : PageState} (h : b.PageInit s) : PageInv b s := by
  subst h
  exact ⟨[b.managed], b.pageList_initial hlow, fun a => by simp⟩

theorem step (hlow : b.managed.stop ≤ 268435456) {s s' : PageState} (h : PageInv b s)
    (hs : PageStep b.toHeapVars s s') : PageInv b s' := by
  obtain ⟨pl, hpl, hcov⟩ := h
  cases hs with
  | allocate hr =>
    rcases hpl.allocate with ⟨-, hp⟩ | ⟨f, post, m', rfl, hok, hpl', -⟩
    · rw [hp] at hr
      cases hr
    · rw [hok] at hr
      cases hr
      refine ⟨_, hpl', fun a => ?_⟩
      have hf : f ∈ f :: post := List.mem_cons_self
      have hc := coverage_carve (hpl.size_ge hf) a
      have hal := hpl.aligned f hf
      have hsz := hpl.pages_eq hf
      have htop : pageRegion ((top 4096 f).addr / 4096) = top 4096 f := by
        simp only [pageRegion, top, Region.mk.injEq, and_true]
        omega
      have := hcov a
      simp only [coverage_append, coverage_cons, List.map_cons, htop] at this ⊢
      omega
  | @allocateConsecutive m count page h0 _ hr =>
    rcases hpl.consecutive_comes h0 with ⟨-, hp⟩ | ⟨pre, f, post, m', rfl, -, hk, hok, hpl', -⟩
    · exact absurd hp hr.not_panic
    · have heq := hr.unique hok
      cases heq
      refine ⟨_, hpl', fun a => ?_⟩
      have hf : f ∈ pre ++ f :: post := by simp
      have hc := coverage_carve hk a
      have hal := hpl.aligned f hf
      have hsz := hpl.pages_eq hf
      have htop : (top (4096 * count) f).addr / 4096 * 4096 = (top (4096 * count) f).addr := by
        simp only [top]
        omega
      have := hcov a
      simp only [coverage_append, coverage_cons, List.map_append, coverage_consecutive, htop] at this ⊢
      simp only [top] at hc ⊢
      omega
  | @release m page hp hr =>
    obtain ⟨m', hok, hpl'⟩ := held_release hlow hpl hcov hp
    obtain rfl := hr.ok_inj hok
    refine ⟨_, hpl', fun a => ?_⟩
    have hperm := coverage_perm ((List.perm_cons_erase hp).map pageRegion) a
    have := hcov a
    rw [List.map_cons, coverage_cons] at hperm
    dsimp only
    rw [coverage_insert]
    omega
  | @write page a c hp ha =>
    refine ⟨pl, hpl.frame (Mem.Frame.set (Set.mem_singleton a)) fun r hr x hx hxa => ?_, hcov⟩
    rw [Set.mem_singleton_iff] at hxa
    subst hxa
    obtain ⟨-, -, hap, hhead⟩ := held_page hlow hpl hcov hp
    have hrap : (pageRegion page).Apart r := by
      rcases List.mem_cons.1 hr with rfl | hr
      · exact Or.symm hhead
      · exact hap r hr
    simp only [Region.Apart, Region.stop, Region.Has] at hrap ha hx
    omega

end PageInv

/-- The invariant holds in every state reached. -/
theorem PageInv.of_reach {b : BootMemory} (hlow : b.memoryEnd ≤ 268435456) {s : PageState}
    (h : Reach b.PageInit (PageStep b.toHeapVars) s) : b.managed.stop ≤ 268435456 ∧ PageInv b s := by
  have hlow' : b.managed.stop ≤ 268435456 := by
    have := b.onePage
    simp only [BootMemory.managed, BootMemory.pageCount, Region.stop]
    omega
  exact ⟨hlow', h.invariant (fun _ hs => PageInv.init hlow' hs) fun _ _ hi hs => hi.step hlow' hs⟩

/-- In every state reached by page calls `page_release` of a held page returns. -/
theorem page_release_returns (b : BootMemory) (hlow : b.memoryEnd ≤ 268435456) {s : PageState}
    (h : Reach b.PageInit (PageStep b.toHeapVars) s) {page : Nat} (hp : page ∈ s.held) :
    ∃ m, PageStep b.toHeapVars s ⟨m, s.held.erase page⟩ := by
  obtain ⟨hlow', pl, hpl, hcov⟩ := PageInv.of_reach hlow h
  obtain ⟨m, hok, -⟩ := PageInv.held_release hlow' hpl hcov hp
  exact ⟨m, PageStep.release hp hok⟩

/-- In every state reached by page calls the page list is canonical and acyclic, every run is non-empty, and the free pages and
the held pages are disjoint and together the initial pages, each held once. -/
theorem page_allocator_invariant (b : BootMemory) (hlow : b.memoryEnd ≤ 268435456) {s : PageState}
    (h : Reach b.PageInit (PageStep b.toHeapVars) s) :
    ∃ pl, Linked 4096 2 s.mem (⟨b.pagesHead, 0⟩ :: pl) ∧ (∀ r ∈ pl, 0 < r.addr ∧ 4096 ≤ r.size) ∧
      (pl.Pairwise fun r t => r.stop < t.addr) ∧ s.held.Nodup ∧ (∀ page ∈ s.held, ¬FreePage pl page) ∧
      ∀ page, FreePage pl page ∨ page ∈ s.held ↔ b.firstPage ≤ page ∧ page < b.firstPage + b.pageCount := by
  obtain ⟨-, pl, hpl, hcov⟩ := PageInv.of_reach hlow h
  have hal := b.aligned
  have hfree : ∀ page, FreePage pl page ↔ 0 < coverage pl (page * 4096) := fun page => coverage_pos_iff.symm
  have hheld : ∀ page, page ∈ s.held ↔ 0 < coverage (s.held.map pageRegion) (page * 4096) := by
    intro page
    rw [coverage_pos_iff]
    constructor
    · exact fun hp => ⟨_, List.mem_map_of_mem hp, has_pageRegion page⟩
    · rintro ⟨r, hr, ha⟩
      obtain ⟨p, hp, rfl⟩ := List.mem_map.1 hr
      simp only [Region.Has, pageRegion] at ha
      have : p = page := by omega
      exact this ▸ hp
  refine ⟨pl, hpl.free.linked, fun r hr => ⟨hpl.free.pos r hr, hpl.size_ge hr⟩, hpl.free.canonical, ?_, ?_, ?_⟩
  · have hex : Exclusive (s.held.map pageRegion) := fun a => by
      have := hcov a
      have := b.managed.ind_le_one a
      omega
    refine List.Pairwise.imp (fun {p q} hd hpq => ?_) (List.pairwise_map.1 hex.pairwise)
    exact hd (p * 4096) ⟨has_pageRegion p, hpq ▸ has_pageRegion p⟩
  · intro page hp hf
    have h1 := (hheld page).1 hp
    have h2 := (hfree page).1 hf
    have h3 := hcov (page * 4096)
    have h4 := b.managed.ind_le_one (page * 4096)
    omega
  · intro page
    have h3 := hcov (page * 4096)
    have hman : b.managed.Has (page * 4096) ↔ b.firstPage ≤ page ∧ page < b.firstPage + b.pageCount := by
      simp only [BootMemory.managed, BootMemory.firstPage, Region.Has]
      omega
    rw [hfree, hheld, ← hman, ← Region.ind_pos_iff]
    omega

/-- Four pages from 2 MB on, the heads in the kernel image below, every byte zero. -/
def tinyMemory : BootMemory where
  pagesHead := 0x110000
  blocksHead := 0x110008
  headsApart := by decide
  pagesLow := by decide
  blocksLow := by decide
  mem := ⟨fun _ => 0, fun _ => false⟩
  memoryStart := 0x200000
  memoryEnd := 0x204000
  pagesZero := rfl
  blocksZero := ⟨rfl, rfl⟩
  aligned := by decide
  aboveKernel := by decide
  onePage := by decide
  addressable := by decide

/-- The last of the four pages is allocated. -/
def tinyHeld : PageState := ⟨takePages tinyMemory.initial 0x110000 0x200000 1, [0x203]⟩

theorem tinyHeld_reached : Reach tinyMemory.PageInit (PageStep tinyMemory.toHeapVars) tinyHeld := by
  have hinit : Reach tinyMemory.PageInit (PageStep tinyMemory.toHeapVars) ⟨tinyMemory.initial, []⟩ := Reach.init rfl
  have hcall : pageAllocate tinyMemory.toHeapVars tinyMemory.initial = .ok (tinyHeld.mem, 0x203) := rfl
  exact hinit.step (PageStep.allocate hcall)

/-- Two pages are allocated, and the first is released. -/
theorem page_allocator_invariant_tiny :
    ∃ m pl, Reach tinyMemory.PageInit (PageStep tinyMemory.toHeapVars) ⟨m, [0x202]⟩ ∧
      Linked 4096 2 m (⟨0x110000, 0⟩ :: pl) ∧ (∀ r ∈ pl, 0 < r.addr ∧ 4096 ≤ r.size) ∧
      (pl.Pairwise fun r t => r.stop < t.addr) ∧ ([0x202] : List Nat).Nodup ∧ (∀ page ∈ [0x202], ¬FreePage pl page) ∧
      ∀ page, FreePage pl page ∨ page ∈ [0x202] ↔ 0x200 ≤ page ∧ page < 0x200 + 4 := by
  obtain ⟨m₁, hcall⟩ : ∃ m₁, pageAllocate tinyMemory.toHeapVars tinyHeld.mem = .ok (m₁, 0x202) := ⟨_, rfl⟩
  have htwo : Reach tinyMemory.PageInit (PageStep tinyMemory.toHeapVars) ⟨m₁, [0x202, 0x203]⟩ :=
    tinyHeld_reached.step (PageStep.allocate hcall)
  obtain ⟨m, hrelease⟩ := page_release_returns tinyMemory (by decide) htwo (show 0x203 ∈ [0x202, 0x203] by decide)
  obtain ⟨pl, hpl⟩ := page_allocator_invariant tinyMemory (by decide) (htwo.step hrelease)
  exact ⟨m, pl, htwo.step hrelease, hpl⟩

/-! ## Which memory is managed whole -/

/-- Call `page_allocate` until it panics: the pages returned, in order. No answer if the calls given are not enough. -/
def allocateAll (v : HeapVars) : Nat → Mem → Option (List Nat)
  | 0, _ => none
  | calls + 1, m =>
    match pageAllocate v m with
    | .ok (m, page) => (allocateAll v calls m).map (page :: ·)
    | .panic _ => some []
    | .running => none

/-- Repeated `page_allocate` returns each managed page once before it panics, and `page_to_addr` gives each its address. -/
def BootMemory.AllUsable (b : BootMemory) : Prop :=
  ∃ calls pages, allocateAll b.toHeapVars calls b.initial = some pages ∧ pages.Nodup ∧
    (∀ page, page ∈ pages ↔ b.firstPage ≤ page ∧ page < b.firstPage + b.pageCount) ∧
    ∀ page ∈ pages, pageToAddr page = b.memoryStart + 4096 * (page - b.firstPage)

/-- `page_allocate` returns an `unsigned short`. -/
theorem pageAllocate_lt {v : HeapVars} {m m' : Mem} {page : Nat} (h : pageAllocate v m = .ok (m', page)) :
    page < 65536 := by
  unfold pageAllocate at h
  split at h
  · cases h
  · split at h
    · cases h
    · simp only [ok.injEq, Prod.mk.injEq] at h
      obtain ⟨-, rfl⟩ := h
      exact Nat.mod_lt _ (by decide)

theorem allocateAll_lt {v : HeapVars} {calls : Nat} :
    ∀ {m : Mem} {pages : List Nat}, allocateAll v calls m = some pages → ∀ page ∈ pages, page < 65536 := by
  induction calls with
  | zero => intro m pages h; cases h
  | succ calls ih =>
    intro m pages h
    rw [allocateAll] at h
    split at h
    · rename_i m' page hp
      obtain ⟨rest, hrest, rfl⟩ := Option.map_eq_some_iff.1 h
      exact List.forall_mem_cons.2 ⟨pageAllocate_lt hp, ih hrest⟩
    · cases h
      simp
    · cases h

/-- The list of the run of `count` pages from page `first` on. -/
def runOf (first count : Nat) : List Region := if count = 0 then [] else [⟨first * 4096, 4096 * count⟩]

/-- A list of one run is handed out from the top, page by page. -/
theorem allocateAll_run {v : HeapVars} {first : Nat} (count : Nat) :
    ∀ {m : Mem}, PageList v m (runOf first count) →
      allocateAll v (count + 1) m = some (List.range' first count).reverse := by
  induction count with
  | zero =>
    intro m h
    rcases h.allocate with ⟨-, hp⟩ | ⟨f, post, m', hpl, -⟩
    · simp [allocateAll, hp]
    · simp [runOf] at hpl
  | succ count ih =>
    intro m h
    rcases h.allocate with ⟨hnil, -⟩ | ⟨f, post, m', hpl, hok, hpl', -⟩
    · simp [runOf] at hnil
    · rw [runOf, if_neg (Nat.succ_ne_zero count), List.cons.injEq] at hpl
      obtain ⟨rfl, rfl⟩ := hpl
      have hcarve : carve 4096 ⟨first * 4096, 4096 * (count + 1)⟩ ++ [] = runOf first count := by
        simp only [carve, runOf, List.append_nil]
        by_cases h0 : count = 0
        · rw [if_pos (by omega), if_pos h0]
        · rw [if_neg (by omega), if_neg h0, show 4096 * (count + 1) - 4096 = 4096 * count by omega]
      have hpage : (top 4096 ⟨first * 4096, 4096 * (count + 1)⟩).addr / 4096 = first + count := by
        simp only [top]
        omega
      rw [hcarve] at hpl'
      rw [allocateAll, hok]
      simp only [hpage, ih hpl', Option.map_some]
      rw [List.range'_concat, List.reverse_append]
      simp

/-- Pages are usable only up to 256 MB: a page number is an `unsigned short`. -/
theorem BootMemory.AllUsable.low {b : BootMemory} (h : b.AllUsable) : b.memoryEnd < 268435456 + 4096 := by
  obtain ⟨calls, pages, hall, -, hmem, -⟩ := h
  have hone := b.onePage
  have hal := b.aligned
  have hlast : b.firstPage + b.pageCount - 1 ∈ pages := by
    rw [hmem]
    simp only [pageCount]
    omega
  have := allocateAll_lt hall _ hlast
  simp only [firstPage, pageCount] at this
  omega

/-- All managed memory is usable exactly when its last whole page ends at or below 256 MB. -/
theorem all_usable_iff (b : BootMemory) : b.AllUsable ↔ b.memoryEnd < 268435456 + 4096 := by
  refine ⟨fun h => h.low, fun h => ?_⟩
  have hone := b.onePage
  have hal := b.aligned
  have hstart : b.firstPage * 4096 = b.memoryStart := by
    simp only [BootMemory.firstPage]
    omega
  have hrun : [b.managed] = runOf b.firstPage b.pageCount := by
    have h0 : b.pageCount ≠ 0 := by
      simp only [BootMemory.pageCount]
      omega
    rw [runOf, if_neg h0, hstart]
    rfl
  have hpl := b.pageList_initial (by simp only [BootMemory.managed, BootMemory.pageCount, Region.stop]; omega)
  rw [hrun] at hpl
  refine ⟨_, _, allocateAll_run _ hpl, List.nodup_reverse.2 List.nodup_range', fun page => ?_, fun page hp => ?_⟩
  · rw [List.mem_reverse, List.mem_range'_1]
  · rw [List.mem_reverse, List.mem_range'_1] at hp
    obtain ⟨hp, -⟩ := hp
    rw [← hstart, pageToAddr, pageSize, Nat.mul_comm 4096, ← Nat.add_mul, Nat.add_sub_of_le hp]

/-- Memory from 2 MB to 258 MB: 65536 pages, a count that `kalloc_init` truncates to zero. -/
def largeMemory : BootMemory :=
  { tinyMemory with
    memoryEnd := 0x10200000
    onePage := by decide
    addressable := by decide }

/-- On 256 MB of memory above 2 MB the first `page_allocate` already fails its assertion: no page is usable. -/
theorem all_usable_false : pageAllocate largeMemory.toHeapVars largeMemory.initial = .panic "Assertion failure" ∧
    ¬largeMemory.AllUsable :=
  ⟨rfl, fun h => absurd h.low (by decide)⟩

end BootPerl
