import Mathlib.Data.Set.Basic
import Mathlib.Data.List.Basic
import Mathlib.Tactic.SplitIfs

/-!
# Regions of memory and coalescing lists of them

A region is an address and a size. How many regions of a list cover an address is a number (`coverage`), so that who owns what
is arithmetic: a list whose coverage is at most one everywhere is a list of disjoint regions, an operation that moves memory
from one list to another keeps the sum of the two coverages, and merging two neighbours changes no coverage at all.

The second half is the coalescing free list: regions in ascending order with a gap between any two (`Canonical`), insertion that
merges with the neighbours it touches (`insert`), and carving from the top of a region (`carve`).
-/

namespace BootPerl

/-- The addresses from `addr` up to `addr + size`. -/
structure Region where
  addr : Nat
  size : Nat
  deriving DecidableEq, Repr

namespace Region

/-- The first address after the region. -/
def stop (r : Region) : Nat := r.addr + r.size

/-- The region contains the address. -/
def Has (r : Region) (a : Nat) : Prop := r.addr ≤ a ∧ a < r.addr + r.size

instance (r : Region) (a : Nat) : Decidable (r.Has a) := inferInstanceAs (Decidable (_ ∧ _))

/-- No address is in both regions. -/
def Disjoint (r s : Region) : Prop := ∀ a, ¬(r.Has a ∧ s.Has a)

/-- One region ends before the other begins. -/
def Apart (r s : Region) : Prop := r.stop ≤ s.addr ∨ s.stop ≤ r.addr

/-- One if the region contains the address, else zero. -/
def ind (r : Region) (a : Nat) : Nat := if r.addr ≤ a ∧ a < r.addr + r.size then 1 else 0

theorem ind_le_one (r : Region) (a : Nat) : r.ind a ≤ 1 := by
  unfold ind
  split <;> omega

theorem ind_of_has {r : Region} {a : Nat} (h : r.Has a) : r.ind a = 1 := if_pos h

theorem ind_of_not_has {r : Region} {a : Nat} (h : ¬r.Has a) : r.ind a = 0 := if_neg h

theorem ind_pos_iff {r : Region} {a : Nat} : 0 < r.ind a ↔ r.Has a := by
  by_cases h : r.Has a
  · simp [ind_of_has h, h]
  · simp [ind_of_not_has h, h]

/-- Two regions that touch cover what the region they make up covers. -/
theorem ind_merge (r s : Region) (h : r.stop = s.addr) (a : Nat) :
    (⟨r.addr, r.size + s.size⟩ : Region).ind a = r.ind a + s.ind a := by
  simp only [ind, stop] at h ⊢
  split_ifs <;> omega

/-- Disjoint regions that both hold an address lie apart. -/
theorem Disjoint.apart {r s : Region} (h : r.Disjoint s) (hr : 0 < r.size) (hs : 0 < s.size) : r.Apart s := by
  by_contra hn
  simp only [Apart, stop, not_or, not_le] at hn
  refine h (max r.addr s.addr) ⟨⟨?_, ?_⟩, ⟨?_, ?_⟩⟩ <;> omega

end Region

/-! ## Coverage -/

/-- How many regions of the list contain the address. -/
def coverage : List Region → Nat → Nat
  | [], _ => 0
  | r :: l, a => r.ind a + coverage l a

@[simp] theorem coverage_nil (a : Nat) : coverage [] a = 0 := rfl

@[simp] theorem coverage_cons (r : Region) (l : List Region) (a : Nat) : coverage (r :: l) a = r.ind a + coverage l a := rfl

@[simp] theorem coverage_append (l₁ l₂ : List Region) (a : Nat) :
    coverage (l₁ ++ l₂) a = coverage l₁ a + coverage l₂ a := by
  induction l₁ with
  | nil => simp
  | cons r l₁ ih => simp only [List.cons_append, coverage_cons, ih]; omega

/-- An address is covered when some region of the list contains it. -/
theorem coverage_pos_iff {l : List Region} {a : Nat} : 0 < coverage l a ↔ ∃ r ∈ l, r.Has a := by
  induction l with
  | nil => simp
  | cons r l ih =>
    rw [coverage_cons, List.exists_mem_cons_iff, ← ih, ← Region.ind_pos_iff]
    omega

theorem coverage_pos_of_mem {l : List Region} {r : Region} {a : Nat} (hr : r ∈ l) (ha : r.Has a) : 0 < coverage l a :=
  coverage_pos_iff.2 ⟨r, hr, ha⟩

/-- The addresses a list covers. -/
def covered (l : List Region) : Set Nat := {a | 0 < coverage l a}

theorem mem_covered {l : List Region} {a : Nat} : a ∈ covered l ↔ 0 < coverage l a := Iff.rfl

/-- A bound on the ends of the regions of a list bounds every region that the list covers. -/
theorem stop_le_of_covered {l l' : List Region} {b : Nat} (hl : ∀ r ∈ l, r.stop ≤ b)
    (h : ∀ a, 0 < coverage l' a → 0 < coverage l a) : ∀ r ∈ l', 0 < r.size → r.stop ≤ b := by
  intro r hr h0
  obtain ⟨s, hs, ha⟩ := coverage_pos_iff.1 (h (r.stop - 1) (coverage_pos_of_mem hr ⟨by
    simp only [Region.stop]
    omega, by
    simp only [Region.stop]
    omega⟩))
  have hstop := hl s hs
  simp only [Region.Has, Region.stop] at ha hstop ⊢
  omega

/-- Coverage does not depend on the order of the list. -/
theorem coverage_perm {l₁ l₂ : List Region} (h : l₁.Perm l₂) (a : Nat) : coverage l₁ a = coverage l₂ a := by
  induction h with
  | nil => rfl
  | cons r _ ih => rw [coverage_cons, coverage_cons, ih]
  | swap r s l => simp only [coverage_cons]; omega
  | trans _ _ ih₁ ih₂ => exact ih₁.trans ih₂

/-- A part of a list covers no address more often than the list. -/
theorem coverage_sublist {l₁ l₂ : List Region} (h : l₁.Sublist l₂) (a : Nat) : coverage l₁ a ≤ coverage l₂ a := by
  induction h with
  | slnil => exact Nat.le_refl _
  | cons r _ ih => exact Nat.le_trans ih (Nat.le_add_left _ _)
  | cons_cons r _ ih => exact Nat.add_le_add_left ih _

/-- No address is covered twice. -/
def Exclusive (l : List Region) : Prop := ∀ a, coverage l a ≤ 1

/-- Where no address is covered twice, any two regions of the list are disjoint. -/
theorem Exclusive.pairwise {l : List Region} (h : Exclusive l) : l.Pairwise Region.Disjoint := by
  induction l with
  | nil => exact List.Pairwise.nil
  | cons r l ih =>
    refine List.pairwise_cons.2 ⟨?_, ih fun a => ?_⟩
    · rintro s hs a ⟨hr, hs'⟩
      have h1 := h a
      have h2 := coverage_pos_of_mem hs hs'
      rw [coverage_cons, Region.ind_of_has hr] at h1
      omega
    · have := h a
      rw [coverage_cons] at this
      omega

/-- A region that together with a list covers no address twice is disjoint from every region of the list. -/
theorem disjoint_of_cover {x : Region} {l : List Region} (h : Exclusive (x :: l)) : ∀ r ∈ l, x.Disjoint r :=
  (List.pairwise_cons.1 h.pairwise).1

/-- The same, for regions that are not empty. -/
theorem apart_of_cover {x : Region} {l : List Region} (h : Exclusive (x :: l)) (hx : 0 < x.size) :
    ∀ r ∈ l, 0 < r.size → x.Apart r :=
  fun r hr h0 => (disjoint_of_cover h r hr).apart hx h0

/-! ## Coalescing lists -/

/-- Ascending order with a gap between any two regions. -/
def Canonical (l : List Region) : Prop := l.Pairwise fun r s => r.stop < s.addr

/-- Ascending order with at least `g` addresses between any two regions: with none they may touch, with one they are canonical. -/
def Spaced (g : Nat) (l : List Region) : Prop := l.Pairwise fun r s => r.stop + g ≤ s.addr

/-- Put `x` before a list, merging it with the first region of the list when the two touch. -/
def absorb (x : Region) : List Region → List Region
  | [] => [x]
  | f :: fs => if x.stop = f.addr then ⟨x.addr, x.size + f.size⟩ :: fs else x :: f :: fs

/-- The first region of `absorb x l`: `x`, with the first region of the list when the two touch. -/
def joined (x : Region) : List Region → Region
  | [] => x
  | f :: _ => if x.stop = f.addr then ⟨x.addr, x.size + f.size⟩ else x

/-- Insert `x` into a list whose first region `e` starts below it, merging neighbours that touch. -/
def insertAfter (e x : Region) : List Region → List Region
  | [] => absorb e (absorb x [])
  | f :: fs => if x.addr < f.addr then absorb e (absorb x (f :: fs)) else e :: insertAfter f x fs

/-- Insert `x` into an ascending list, merging neighbours that touch. -/
def insert (x : Region) : List Region → List Region
  | [] => [x]
  | e :: es => if x.addr < e.addr then absorb x (e :: es) else insertAfter e x es

/-- What is left of a region after its top `k` addresses are taken. -/
def carve (k : Nat) (e : Region) : List Region := if e.size = k then [] else [⟨e.addr, e.size - k⟩]

/-- The top `k` addresses of a region. -/
def top (k : Nat) (e : Region) : Region := ⟨e.addr + (e.size - k), k⟩

theorem absorb_of_touch {x f : Region} (h : x.stop = f.addr) (fs : List Region) :
    absorb x (f :: fs) = ⟨x.addr, x.size + f.size⟩ :: fs := if_pos h

theorem absorb_of_gap {x f : Region} (h : x.stop ≠ f.addr) (fs : List Region) : absorb x (f :: fs) = x :: f :: fs :=
  if_neg h

theorem joined_of_touch {x f : Region} (h : x.stop = f.addr) (fs : List Region) :
    joined x (f :: fs) = ⟨x.addr, x.size + f.size⟩ := if_pos h

theorem joined_of_gap {x f : Region} (h : x.stop ≠ f.addr) (fs : List Region) : joined x (f :: fs) = x := if_neg h

theorem le_joined_size (x : Region) (l : List Region) : x.size ≤ (joined x l).size := by
  cases l with
  | nil => exact Nat.le_refl _
  | cons f fs =>
    rw [joined]
    split
    · exact Nat.le_add_right _ _
    · exact Nat.le_refl _

theorem joined_addr (x : Region) (l : List Region) : (joined x l).addr = x.addr := by
  cases l with
  | nil => rfl
  | cons f fs =>
    rw [joined]
    split <;> rfl

theorem joined_mem_absorb (x : Region) (l : List Region) : joined x l ∈ absorb x l := by
  cases l with
  | nil => exact List.mem_singleton_self x
  | cons f fs =>
    rw [joined, absorb]
    split <;> exact List.mem_cons_self

/-- After the first region of `absorb x l` come regions of the list. -/
theorem mem_of_mem_tail_absorb {x r : Region} {l : List Region} (h : r ∈ (absorb x l).tail) : r ∈ l := by
  cases l with
  | nil => exact absurd h List.not_mem_nil
  | cons f fs =>
    rw [absorb] at h
    split at h
    · exact List.mem_cons_of_mem _ h
    · exact h

theorem coverage_absorb (x : Region) (l : List Region) (a : Nat) : coverage (absorb x l) a = x.ind a + coverage l a := by
  cases l with
  | nil => rfl
  | cons f fs =>
    simp only [absorb]
    split
    · rename_i h
      simp only [coverage_cons, Region.ind_merge _ _ h]
      omega
    · rfl

/-- What the joined region covers, the region put before the list or the list covers. -/
theorem ind_joined_le (x : Region) (l : List Region) (a : Nat) : (joined x l).ind a ≤ x.ind a + coverage l a := by
  cases l with
  | nil => exact Nat.le_refl _
  | cons f fs =>
    rw [joined]
    split
    · rename_i h
      rw [Region.ind_merge _ _ h, coverage_cons]
      omega
    · exact Nat.le_add_right _ _

theorem coverage_insertAfter (x : Region) (a : Nat) (es : List Region) :
    ∀ e, coverage (insertAfter e x es) a = x.ind a + coverage (e :: es) a := by
  induction es with
  | nil => intro e; simp only [insertAfter, coverage_absorb, coverage_cons]; omega
  | cons f fs ih =>
    intro e
    rw [insertAfter]
    split
    · simp only [coverage_absorb, coverage_cons]; omega
    · simp only [ih, coverage_cons]; omega

/-- Insertion covers what was covered and the region inserted. -/
theorem coverage_insert (x : Region) (l : List Region) (a : Nat) : coverage (insert x l) a = x.ind a + coverage l a := by
  cases l with
  | nil => rfl
  | cons e es =>
    rw [insert]
    split
    · exact coverage_absorb _ _ _
    · exact coverage_insertAfter _ _ _ _

/-- Carving splits a region into what is left and what is taken. -/
theorem coverage_carve {k : Nat} {e : Region} (hk : k ≤ e.size) (a : Nat) :
    coverage (carve k e) a + (top k e).ind a = e.ind a := by
  have hs := Region.ind_merge ⟨e.addr, e.size - k⟩ (top k e) rfl a
  simp only [top, Nat.sub_add_cancel hk] at hs
  have he : (⟨e.addr, e.size⟩ : Region).ind a = e.ind a := rfl
  unfold carve top
  split
  · rename_i h
    have h0 : (⟨e.addr, e.size - k⟩ : Region).ind a = 0 :=
      Region.ind_of_not_has (by simp only [Region.Has]; omega)
    rw [coverage_nil]
    omega
  · rw [coverage_cons, coverage_nil]
    omega

/-! ## What holds of every region after an insertion -/

section
variable {P : Region → Prop}

theorem forall_absorb (hP : ∀ r s, P r → P s → r.stop = s.addr → P ⟨r.addr, r.size + s.size⟩) {x : Region}
    {l : List Region} (hx : P x) (hl : ∀ r ∈ l, P r) : ∀ r ∈ absorb x l, P r := by
  cases l with
  | nil => simpa [absorb] using hx
  | cons f fs =>
    rw [List.forall_mem_cons] at hl
    rw [absorb]
    split
    · rename_i h
      exact List.forall_mem_cons.2 ⟨hP _ _ hx hl.1 h, hl.2⟩
    · exact List.forall_mem_cons.2 ⟨hx, List.forall_mem_cons.2 hl⟩

theorem forall_insertAfter (hP : ∀ r s, P r → P s → r.stop = s.addr → P ⟨r.addr, r.size + s.size⟩) {x : Region}
    (hx : P x) {es : List Region} : ∀ {e}, P e → (∀ r ∈ es, P r) → ∀ r ∈ insertAfter e x es, P r := by
  induction es with
  | nil => intro e he hes; exact forall_absorb hP he (forall_absorb hP hx hes)
  | cons f fs ih =>
    intro e he hes
    rw [insertAfter]
    split
    · exact forall_absorb hP he (forall_absorb hP hx hes)
    · rw [List.forall_mem_cons] at hes
      exact List.forall_mem_cons.2 ⟨he, ih hes.1 hes.2⟩

/-- A property that merging keeps holds of every region after an insertion if it held of every region before it. -/
theorem forall_insert (hP : ∀ r s, P r → P s → r.stop = s.addr → P ⟨r.addr, r.size + s.size⟩) {x : Region}
    {l : List Region} (hx : P x) (hl : ∀ r ∈ l, P r) : ∀ r ∈ insert x l, P r := by
  cases l with
  | nil => simpa [insert] using hx
  | cons e es =>
    rw [insert]
    split
    · exact forall_absorb hP hx hl
    · rw [List.forall_mem_cons] at hl
      exact forall_insertAfter hP hx hl.1 hl.2

end

/-- What holds of every region, and of what carving leaves of one, holds of every region after the carving. -/
theorem forall_carve {P : Region → Prop} {k : Nat} {pre post : List Region} {e : Region} (h : ∀ r ∈ pre ++ e :: post, P r)
    (he : e.size ≠ k → P ⟨e.addr, e.size - k⟩) : ∀ r ∈ pre ++ carve k e ++ post, P r := by
  intro r hr
  rw [List.mem_append, List.mem_append] at hr
  rcases hr with (hr | hr) | hr
  · exact h r (List.mem_append_left _ hr)
  · unfold carve at hr
    split at hr
    · exact absurd hr List.not_mem_nil
    · rename_i hne
      rw [List.mem_singleton] at hr
      exact hr ▸ he hne
  · exact h r (List.mem_append_right _ (List.mem_cons_of_mem _ hr))

/-! ## Order -/

theorem absorb_ge {x : Region} {l : List Region} {b : Nat} (hx : b ≤ x.addr) (hl : ∀ r ∈ l, b ≤ r.addr) :
    ∀ r ∈ absorb x l, b ≤ r.addr :=
  forall_absorb (fun _ _ h _ _ => h) hx hl

theorem insertAfter_ge {e x : Region} {es : List Region} {b : Nat} (hx : b ≤ x.addr) (he : b ≤ e.addr)
    (hl : ∀ r ∈ es, b ≤ r.addr) : ∀ r ∈ insertAfter e x es, b ≤ r.addr :=
  forall_insertAfter (fun _ _ h _ _ => h) hx he hl

section
variable {g : Nat}

theorem Canonical.spaced {l : List Region} (h : Canonical l) : Spaced 1 l := h

theorem Spaced.canonical {l : List Region} (h : Spaced 1 l) : Canonical l := h

theorem Spaced.tail {e : Region} {es : List Region} (h : Spaced g (e :: es)) : Spaced g es := List.Pairwise.of_cons h

/-- The regions of an ascending list start above the end of the first. -/
theorem Spaced.stop_le {e : Region} {es : List Region} (h : Spaced g (e :: es)) : ∀ r ∈ es, e.stop ≤ r.addr :=
  fun _ hr => Nat.le_of_add_right_le (List.rel_of_pairwise_cons h hr)

/-- An ascending list covers no address twice. -/
theorem Spaced.exclusive {l : List Region} (h : Spaced g l) : Exclusive l := by
  induction l with
  | nil => exact fun a => Nat.zero_le 1
  | cons e es ih =>
    intro a
    rw [coverage_cons]
    by_cases ha : e.Has a
    · have hes : coverage es a = 0 := Nat.eq_zero_of_not_pos fun hpos => by
        obtain ⟨r, hr, hra⟩ := coverage_pos_iff.1 hpos
        have hstop := h.stop_le r hr
        simp only [Region.Has, Region.stop] at ha hra hstop
        omega
      rw [hes, Region.ind_of_has ha]
    · rw [Region.ind_of_not_has ha, Nat.zero_add]
      exact ih h.tail a

end

/-- Two regions of a canonical list have a gap between them. -/
theorem Canonical.separate {l : List Region} (h : Canonical l) {r s : Region} (hr : r ∈ l) (hs : s ∈ l) (hne : r ≠ s) :
    r.stop < s.addr ∨ s.stop < r.addr := by
  induction l with
  | nil => exact absurd hr List.not_mem_nil
  | cons e es ih =>
    obtain ⟨he, hes⟩ := List.pairwise_cons.1 h
    rcases List.mem_cons.1 hr with hr | hr <;> rcases List.mem_cons.1 hs with hs | hs
    · exact absurd (hr.trans hs.symm) hne
    · exact Or.inl (hr ▸ he s hs)
    · exact Or.inr (hs ▸ he r hr)
    · exact ih hes hr hs

/-- The address after a region of a canonical list is in the gap that follows it. -/
theorem Canonical.coverage_stop {l : List Region} (h : Canonical l) {e : Region} (he : e ∈ l) : coverage l e.stop = 0 := by
  refine Nat.eq_zero_of_not_pos fun hpos => ?_
  obtain ⟨r, hr, ha⟩ := coverage_pos_iff.1 hpos
  by_cases hne : e = r
  · subst hne
    simp only [Region.Has, Region.stop] at ha
    omega
  · have hsep := h.separate he hr hne
    simp only [Region.Has, Region.stop] at ha hsep
    omega

/-- The first region of a canonical list starts at the first address the list covers. -/
theorem Canonical.addr_le {e : Region} {es : List Region} (h : Canonical (e :: es)) {a : Nat} (ha : 0 < coverage (e :: es) a) :
    e.addr ≤ a := by
  obtain ⟨r, hr, hra⟩ := coverage_pos_iff.1 ha
  rcases List.mem_cons.1 hr with rfl | hr
  · exact hra.1
  · have hstop := h.spaced.stop_le r hr
    simp only [Region.stop, Region.Has] at hstop hra
    omega

/-- The first region of a list does not reach past the first of a canonical list that covers the same. -/
theorem Canonical.head_le {e f : Region} {es fs : List Region} (h' : Canonical (f :: fs))
    (hc : ∀ a, coverage (e :: es) a = coverage (f :: fs) a) (haddr : e.addr = f.addr) : e.stop ≤ f.stop := by
  by_contra hlt
  have hin : e.Has f.stop := by
    simp only [Region.Has, Region.stop] at hlt ⊢
    omega
  have hpos := coverage_pos_of_mem (l := e :: es) List.mem_cons_self hin
  rw [hc, h'.coverage_stop List.mem_cons_self] at hpos
  exact Nat.lt_irrefl 0 hpos

/-- A canonical list of non-empty regions is determined by the addresses it covers. -/
theorem Canonical.ext {l : List Region} :
    ∀ {l' : List Region}, Canonical l → Canonical l' → (∀ r ∈ l, 0 < r.size) → (∀ r ∈ l', 0 < r.size) →
      (∀ a, coverage l a = coverage l' a) → l = l' := by
  have hfirst : ∀ {e : Region} (es : List Region), 0 < e.size → 0 < coverage (e :: es) e.addr := fun _ he =>
    coverage_pos_of_mem List.mem_cons_self ⟨Nat.le_refl _, by omega⟩
  induction l with
  | nil =>
    intro l' _ _ _ h0 hc
    cases l' with
    | nil => rfl
    | cons f fs =>
      have hpos := hfirst fs (h0 f List.mem_cons_self)
      rw [← hc, coverage_nil] at hpos
      exact absurd hpos (Nat.lt_irrefl 0)
  | cons e es ih =>
    intro l' h h' h0 h0' hc
    have he := h0 e List.mem_cons_self
    cases l' with
    | nil =>
      have hpos := hfirst es he
      rw [hc, coverage_nil] at hpos
      exact absurd hpos (Nat.lt_irrefl 0)
    | cons f fs =>
      have hf := h0' f List.mem_cons_self
      have haddr : e.addr = f.addr := by
        have h1 := h.addr_le (a := f.addr) (by rw [hc]; exact hfirst fs hf)
        have h2 := h'.addr_le (a := e.addr) (by rw [← hc]; exact hfirst es he)
        exact Nat.le_antisymm h1 h2
      have hle := h'.head_le hc haddr
      have hge := h.head_le (fun a => (hc a).symm) haddr.symm
      have hef : e = f := by
        simp only [Region.stop] at hle hge
        have hsize : e.size = f.size := by omega
        cases e
        cases f
        simp only at haddr hsize
        rw [haddr, hsize]
      subst hef
      refine congrArg (e :: ·) (ih h.of_cons h'.of_cons (fun r hr => h0 r (List.mem_cons_of_mem _ hr))
        (fun r hr => h0' r (List.mem_cons_of_mem _ hr)) fun a => ?_)
      have hca := hc a
      simp only [coverage_cons] at hca
      omega

section
variable {g : Nat}

theorem spaced_absorb (hg : g ≤ 1) {x : Region} {l : List Region} (hx : ∀ r ∈ l, x.stop ≤ r.addr) (hl : Spaced g l) :
    Spaced g (absorb x l) := by
  cases l with
  | nil => exact List.pairwise_singleton _ _
  | cons f fs =>
    have hf := List.pairwise_cons.1 hl
    have hxf := hx f List.mem_cons_self
    rw [absorb]
    split
    · rename_i h
      refine List.pairwise_cons.2 ⟨fun r hr => ?_, hf.2⟩
      have := hf.1 r hr
      simp only [Region.stop] at this h ⊢
      omega
    · rename_i h
      refine List.pairwise_cons.2 ⟨fun r hr => ?_, hl⟩
      rcases List.mem_cons.1 hr with rfl | hr
      · omega
      · have := hf.1 r hr
        simp only [Region.stop] at this hxf ⊢
        omega

/-- A region apart from the regions of an ascending list that starts below the first of them ends below them all. -/
theorem Spaced.stop_le_of_lt {x f : Region} {fs : List Region} (h : Spaced g (f :: fs))
    (ha : ∀ r ∈ f :: fs, x.Apart r) (hlt : x.addr < f.addr) : ∀ r ∈ f :: fs, x.stop ≤ r.addr := by
  have hf : x.stop ≤ f.addr := by
    rcases ha f List.mem_cons_self with h1 | h1
    · exact h1
    · simp only [Region.stop] at h1
      omega
  intro r hr
  rcases List.mem_cons.1 hr with rfl | hr
  · exact hf
  · have := h.stop_le r hr
    simp only [Region.stop] at this hf ⊢
    omega

theorem spaced_insertAfter (hg : g ≤ 1) {x : Region} {es : List Region} :
    ∀ {e}, Spaced g (e :: es) → e.addr ≤ x.addr → 0 < x.size → (∀ r ∈ e :: es, x.Apart r) →
      Spaced g (insertAfter e x es) := by
  induction es with
  | nil =>
    intro e _ he hx ha
    have hex := ha e List.mem_cons_self
    simp only [Region.Apart, Region.stop] at hex
    refine spaced_absorb hg (fun r hr => ?_) (List.pairwise_singleton _ _)
    rw [absorb, List.mem_singleton] at hr
    subst hr
    simp only [Region.stop]
    omega
  | cons f fs ih =>
    intro e hc he hx ha
    have hex : e.stop ≤ x.addr := by
      have := ha e List.mem_cons_self
      simp only [Region.Apart, Region.stop] at this ⊢
      omega
    have ha' : ∀ r ∈ f :: fs, x.Apart r := fun r hr => ha r (List.mem_cons_of_mem _ hr)
    rw [insertAfter]
    split
    · rename_i hlt
      exact spaced_absorb hg (absorb_ge hex hc.stop_le) (spaced_absorb hg (hc.tail.stop_le_of_lt ha' hlt) hc.tail)
    · rename_i hlt
      have hef : e.stop + g ≤ f.addr := List.rel_of_pairwise_cons hc List.mem_cons_self
      refine List.pairwise_cons.2 ⟨fun r hr => ?_, ih hc.tail (by omega) hx ha'⟩
      have hfs : ∀ s ∈ fs, f.addr ≤ s.addr := fun s hs =>
        Nat.le_trans (Nat.le_add_right _ _) (hc.tail.stop_le s hs)
      have := insertAfter_ge (Nat.le_of_not_lt hlt) (Nat.le_refl _) hfs r hr
      omega

/-- Insertion of a non-empty region apart from all others keeps a list ascending, and with gaps if it had them. -/
theorem spaced_insert (hg : g ≤ 1) {x : Region} {l : List Region} (hl : Spaced g l) (hx : 0 < x.size)
    (ha : ∀ r ∈ l, x.Apart r) : Spaced g (insert x l) := by
  cases l with
  | nil => exact List.pairwise_singleton _ _
  | cons e es =>
    rw [insert]
    split
    · rename_i h
      exact spaced_absorb hg (hl.stop_le_of_lt ha h) hl
    · exact spaced_insertAfter hg hl (by omega) hx ha

/-- Replacing a region of an ascending list by what carving leaves of it keeps the list ascending. -/
theorem spaced_carve {k : Nat} {pre post : List Region} {e : Region} (h : Spaced g (pre ++ e :: post)) :
    Spaced g (pre ++ carve k e ++ post) := by
  unfold carve
  split
  · rw [List.append_nil]
    exact List.Pairwise.sublist (by simp) h
  · simp only [Spaced, List.pairwise_append, List.pairwise_cons, List.append_assoc, List.singleton_append,
      List.mem_cons, forall_eq_or_imp, Region.stop] at h ⊢
    refine ⟨h.1, ⟨fun r hr => ?_, h.2.1.2⟩, h.2.2⟩
    have := h.2.1.1 r hr
    omega

end

/-- A region that touches the start of a listed one does not stay as it is when it is inserted. -/
theorem not_mem_insert_of_touch {x f : Region} {l : List Region} (hc : Canonical (insert x l)) (hx : 0 < x.size) (hf : f ∈ l)
    (h0 : 0 < f.size) (h : x.stop = f.addr) : x ∉ insert x l := by
  intro hmem
  have hhas : f.Has x.stop := by
    simp only [Region.Has, h]
    omega
  have hcov := coverage_insert x l x.stop
  have hpos := coverage_pos_of_mem hf hhas
  obtain ⟨t, ht, hta⟩ := coverage_pos_iff.1 (show 0 < coverage (insert x l) x.stop by omega)
  have hne : x ≠ t := by
    rintro rfl
    simp only [Region.Has, Region.stop] at hta
    omega
  have hsep := hc.separate hmem ht hne
  simp only [Region.Has, Region.stop] at hta hsep
  omega

end BootPerl
