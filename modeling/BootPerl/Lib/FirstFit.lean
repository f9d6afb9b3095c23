import BootPerl.Lib.Region

/-!
# First fit, and gathering by first fit

A request for `k` addresses takes the top of the first region that has as many. An allocator with a coarse list behind a fine one
refills the fine one by such requests until it holds a region large enough, or until the coarse list has none left of size `k`:
`Gather` is that loop on the two lists, with the number of requests. The addresses that requests of size `k` can ever take from a
region are its top multiple of `k` (`servable`).
-/

namespace BootPerl

/-- The addresses in the regions of a list, counted. -/
def total : List Region → Nat
  | [] => 0
  | r :: l => r.size + total l

@[simp] theorem total_append (l₁ l₂ : List Region) : total (l₁ ++ l₂) = total l₁ + total l₂ := by
  induction l₁ with
  | nil => exact (Nat.zero_add _).symm
  | cons r l₁ ih =>
    rw [List.cons_append, total, total, ih]
    omega

theorem total_carve {k : Nat} {e : Region} (hk : k ≤ e.size) : total (carve k e) + k = e.size := by
  unfold carve
  split
  · rename_i h
    rw [total, h]
    omega
  · simp only [total]
    omega

/-- No region of a list has `k` addresses, or there is a first one that has. -/
theorem first_or_none (k : Nat) (l : List Region) :
    (∀ r ∈ l, r.size < k) ∨ ∃ pre f post, l = pre ++ f :: post ∧ (∀ r ∈ pre, r.size < k) ∧ k ≤ f.size := by
  induction l with
  | nil => exact Or.inl fun r hr => absurd hr List.not_mem_nil
  | cons e es ih =>
    rcases Nat.lt_or_ge e.size k with hlt | hge
    · rcases ih with hall | ⟨pre, f, post, rfl, hpre, hf⟩
      · exact Or.inl (List.forall_mem_cons.2 ⟨hlt, hall⟩)
      · exact Or.inr ⟨e :: pre, f, post, rfl, List.forall_mem_cons.2 ⟨hlt, hpre⟩, hf⟩
    · exact Or.inr ⟨[], e, es, rfl, fun r hr => absurd hr List.not_mem_nil, hge⟩

/-- The first region of `l` with `k` addresses loses its top `k`, which are `t`, and `l` becomes `l'`. -/
inductive FirstFit (k : Nat) : List Region → Region → List Region → Prop where
  | intro {pre post : List Region} {f : Region} : (∀ r ∈ pre, r.size < k) → k ≤ f.size →
      FirstFit k (pre ++ f :: post) (top k f) (pre ++ carve k f ++ post)

section
variable {k : Nat} {l l' : List Region} {t : Region}

/-- What is taken is the top of a region that has as much. -/
theorem FirstFit.exists_top (h : FirstFit k l t l') : ∃ f ∈ l, k ≤ f.size ∧ t = top k f := by
  cases h with
  | @intro pre post f _ hk => exact ⟨f, by simp, hk, rfl⟩

/-- What is taken is taken out of the list. -/
theorem FirstFit.coverage (h : FirstFit k l t l') (a : Nat) : coverage l' a + t.ind a = coverage l a := by
  cases h with
  | intro _ hk =>
    have hcarve := coverage_carve hk a
    simp only [coverage_append, coverage_cons]
    omega

theorem FirstFit.total (h : FirstFit k l t l') : total l' + k = total l := by
  cases h with
  | intro _ hk =>
    have hcarve := total_carve hk
    simp only [total_append, BootPerl.total]
    omega

end

/-- Requests of size `k` refill the first list from the second as long as no region of the first has size `need`: the lists
before, the number of requests, the lists after. -/
inductive Gather (need k : Nat) : List Region → List Region → Nat → List Region → List Region → Prop where
  | nil (bl pl : List Region) : Gather need k bl pl 0 bl pl
  | cons {bl pl bl' pl' pl'' : List Region} {t : Region} {j : Nat} : (∀ b ∈ bl, b.size < need) → FirstFit k pl t pl'' →
      Gather need k (insert t bl) pl'' j bl' pl' → Gather need k bl pl (j + 1) bl' pl'

namespace Gather
variable {need k j : Nat} {bl pl bl' pl' : List Region}

/-- Addresses move from the one list to the other. -/
theorem coverage (h : Gather need k bl pl j bl' pl') (a : Nat) :
    coverage bl' a + coverage pl' a = coverage bl a + coverage pl a := by
  induction h with
  | nil bl pl => rfl
  | cons _ hfit _ ih =>
    have hout := hfit.coverage a
    rw [ih, coverage_insert]
    omega

/-- Each request takes `k` addresses. -/
theorem total (h : Gather need k bl pl j bl' pl') : BootPerl.total pl' + j * k = BootPerl.total pl := by
  induction h with
  | nil bl pl => omega
  | cons _ hfit _ ih =>
    have hout := hfit.total
    rw [Nat.succ_mul]
    omega

end Gather

/-! ## What requests can take -/

/-- The addresses of a region that requests of size `k` take from its top before less than `k` is left. -/
def servable (k : Nat) (r : Region) : Region := top (k * (r.size / k)) r

/-- Taking the top `k` leaves the rest of what requests can take. -/
theorem coverage_servable_carve {k : Nat} {r : Region} (hk0 : 0 < k) (hk : k ≤ r.size) (a : Nat) :
    coverage ((carve k r).map (servable k)) a + (top k r).ind a = (servable k r).ind a := by
  have hdiv : r.size / k = (r.size - k) / k + 1 := Nat.div_eq_sub_div hk0 hk
  have hle : k * ((r.size - k) / k) ≤ r.size - k := Nat.mul_div_le _ _
  have hrest : coverage ((carve k r).map (servable k)) a =
      Region.ind ⟨r.addr + (r.size - k - k * ((r.size - k) / k)), k * ((r.size - k) / k)⟩ a := by
    unfold carve
    split
    · rename_i h
      rw [h, Nat.sub_self, Nat.zero_div, Nat.mul_zero]
      exact (Region.ind_of_not_has (by simp only [Region.Has]; omega)).symm
    · rfl
  have hmerge := Region.ind_merge ⟨r.addr + (r.size - k - k * ((r.size - k) / k)), k * ((r.size - k) / k)⟩ (top k r)
    (by simp only [Region.stop, top]; omega) a
  have hwhole : servable k r = ⟨r.addr + (r.size - k - k * ((r.size - k) / k)), k * ((r.size - k) / k) + k⟩ := by
    rw [servable, top, hdiv, Nat.mul_succ]
    simp only [Region.mk.injEq, and_true]
    omega
  rw [hrest, hwhole]
  exact hmerge.symm

theorem servable_of_lt {k : Nat} {r : Region} (h : r.size < k) (a : Nat) : (servable k r).ind a = 0 := by
  rw [servable, Nat.div_eq_of_lt h, Nat.mul_zero]
  exact Region.ind_of_not_has (by simp only [Region.Has, top]; omega)

theorem ind_servable_le (k : Nat) (r : Region) (a : Nat) : (servable k r).ind a ≤ r.ind a := by
  have hle : k * (r.size / k) ≤ r.size := Nat.mul_div_le _ _
  by_cases h : (servable k r).Has a
  · have hr : r.Has a := by
      simp only [servable, top, Region.Has] at h ⊢
      omega
    rw [Region.ind_of_has hr]
    exact Region.ind_le_one _ _
  · rw [Region.ind_of_not_has h]
    exact Nat.zero_le _

/-- The first list and what requests can take from the second are kept. -/
theorem Gather.coverage_servable {need k j : Nat} {bl pl bl' pl' : List Region} (hk : 0 < k)
    (h : Gather need k bl pl j bl' pl') (a : Nat) :
    BootPerl.coverage bl' a + BootPerl.coverage (pl'.map (servable k)) a =
      BootPerl.coverage bl a + BootPerl.coverage (pl.map (servable k)) a := by
  induction h with
  | nil bl pl => rfl
  | cons _ hfit _ ih =>
    cases hfit with
    | intro _ hsize =>
      have hcarve := coverage_servable_carve hk hsize a
      rw [ih, coverage_insert]
      simp only [List.map_append, List.map_cons, coverage_append, coverage_cons]
      omega

/-! ## Intervals -/

/-- The list covers `n` consecutive addresses. -/
def Stretch (n : Nat) (l : List Region) : Prop := ∃ a, ∀ x, a ≤ x → x < a + n → 0 < coverage l x

/-- In a canonical list a stretch lies in one region. -/
theorem Canonical.stretch_iff {n : Nat} (hn : 0 < n) {l : List Region} (h : Canonical l) :
    Stretch n l ↔ ∃ r ∈ l, n ≤ r.size := by
  constructor
  · rintro ⟨a, ha⟩
    obtain ⟨r, hr, hin⟩ := coverage_pos_iff.1 (ha a (Nat.le_refl a) (by omega))
    refine ⟨r, hr, ?_⟩
    by_contra hlt
    simp only [Region.Has] at hin
    have hstop := ha r.stop (by simp only [Region.stop]; omega) (by simp only [Region.stop]; omega)
    rw [h.coverage_stop hr] at hstop
    exact Nat.lt_irrefl 0 hstop
  · rintro ⟨r, hr, hsize⟩
    exact ⟨r.addr, fun x h1 h2 => coverage_pos_of_mem hr ⟨h1, by omega⟩⟩

theorem Stretch.mono {n : Nat} {l l' : List Region} (h : Stretch n l) (hl : ∀ a, 0 < coverage l a → 0 < coverage l' a) :
    Stretch n l' := by
  obtain ⟨a, ha⟩ := h
  exact ⟨a, fun x h1 h2 => hl x (ha x h1 h2)⟩

section
variable {k slack need : Nat} {bl pl : List Region}

/-- An address that is covered is in a block or in what requests can take from a run. -/
theorem coverage_servable_iff {x : Nat} : 0 < coverage (bl ++ pl.map (servable k)) x ↔
    (∃ b ∈ bl, b.Has x) ∨ ∃ r ∈ pl, (servable k r).Has x := by
  rw [coverage_append, Nat.add_pos_iff_pos_or_pos, coverage_pos_iff, coverage_pos_iff]
  simp only [List.mem_map, exists_exists_and_eq_and]

theorem has_of_servable {r : Region} {x : Nat} (h : (servable k r).Has x) : r.Has x := by
  have hle := ind_servable_le k r x
  rw [Region.ind_of_has h] at hle
  exact Region.ind_pos_iff.1 hle

/-- A run of at least `k` addresses gives its top `k` to requests. -/
theorem servable_has_top {r : Region} (hk : k ≤ r.size) (h0 : 0 < k) {x : Nat} (h : (top k r).Has x) : (servable k r).Has x := by
  have hone : k * 1 ≤ k * (r.size / k) := Nat.mul_le_mul_left k ((Nat.one_le_div_iff h0).2 hk)
  have hle : k * (r.size / k) ≤ r.size := Nat.mul_div_le _ _
  simp only [servable, top, Region.Has] at h ⊢
  omega

/-- When no run has size `k`, a stretch is in a block. -/
theorem Canonical.exists_of_stretch (hbl : Canonical bl) (h0 : 0 < need) (hruns : ∀ r ∈ pl, r.size < k)
    (h : Stretch need (bl ++ pl.map (servable k))) : ∃ b ∈ bl, need ≤ b.size := by
  refine (hbl.stretch_iff h0).1 (h.mono fun a ha => ?_)
  rcases coverage_servable_iff.1 ha with hb | ⟨r, hr, hx⟩
  · exact coverage_pos_iff.2 hb
  · have hz := servable_of_lt (hruns r hr) a
    rw [Region.ind_of_has hx] at hz
    exact absurd hz (by decide)

theorem stretch_of_block (h : ∃ b ∈ bl, need ≤ b.size) : Stretch need (bl ++ pl.map (servable k)) := by
  obtain ⟨b, hb, hsize⟩ := h
  exact ⟨b.addr, fun x h1 h2 => coverage_servable_iff.2 (Or.inl ⟨b, hb, h1, by omega⟩)⟩

/-- A stretch no longer than a request is in a block, or in what a request takes. -/
theorem stretch_servable_iff_of_le (hbl : Canonical bl) (h0 : 0 < need) (hle : need ≤ k) :
    Stretch need (bl ++ pl.map (servable k)) ↔ (∃ b ∈ bl, need ≤ b.size) ∨ ∃ r ∈ pl, k ≤ r.size := by
  constructor
  · intro hstretch
    by_cases hruns : ∃ r ∈ pl, k ≤ r.size
    · exact Or.inr hruns
    · exact Or.inl (hbl.exists_of_stretch h0 (fun r hr => Nat.lt_of_not_le fun hge => hruns ⟨r, hr, hge⟩) hstretch)
  · rintro (hb | ⟨r, hr, hsize⟩)
    · exact stretch_of_block hb
    · refine ⟨(top k r).addr, fun x h1 h2 => coverage_servable_iff.2 (Or.inr ⟨r, hr, ?_⟩)⟩
      exact servable_has_top hsize (by omega) ⟨h1, by simp only [top] at h2 ⊢; omega⟩

/-- When gathering has come to its end, there is a block of size `need` exactly when blocks and what requests can take from the
runs held a stretch of that size before. -/
theorem Gather.stretch_iff {j : Nat} {bl' pl' : List Region} (hk : 0 < k) (h0 : 0 < need) (hcan : Canonical bl')
    (h : Gather need k bl pl j bl' pl') (hend : (∃ f ∈ bl', need ≤ f.size) ∨ ∀ r ∈ pl', r.size < k) :
    (∃ f ∈ bl', need ≤ f.size) ↔ Stretch need (bl ++ pl.map (servable k)) := by
  have hcov : ∀ a, BootPerl.coverage (bl' ++ pl'.map (servable k)) a = BootPerl.coverage (bl ++ pl.map (servable k)) a := by
    intro a
    rw [coverage_append, coverage_append, h.coverage_servable hk]
  constructor
  · intro hf
    exact (stretch_of_block hf).mono fun a ha => by rwa [← hcov]
  · intro hstretch
    rcases hend with hf | hruns
    · exact hf
    · exact hcan.exists_of_stretch h0 hruns (hstretch.mono fun a ha => by rwa [hcov])

/-- A run of less than two requests gives its top `k` to one. -/
theorem servable_of_one {r : Region} (hk : k ≤ r.size) (htwo : r.size < 2 * k) : servable k r = top k r := by
  have hdiv : r.size / k = 1 := Nat.div_eq_of_lt_le (by omega) (by omega)
  rw [servable, hdiv, Nat.mul_one]

/-- The address below what a request takes is in a block only when the request takes the whole run. -/
theorem touch_below (hpl : Canonical pl) (hex : Exclusive (bl ++ pl)) {r : Region} (hr : r ∈ pl) (hk : k ≤ r.size)
    (htwo : r.size < 2 * k) {x : Nat} (hx : x + 1 = (top k r).addr) (hcov : 0 < coverage (bl ++ pl.map (servable k)) x) :
    ∃ b ∈ bl, b.stop = r.addr ∧ r.size = k := by
  have hdisj := (List.pairwise_append.1 hex.pairwise).2.2
  simp only [top] at hx
  rcases coverage_servable_iff.1 hcov with ⟨b, hb, hbx⟩ | ⟨s, hs, hsx⟩
  · have hsize : r.size = k := by
      by_contra hne
      exact hdisj b hb r hr x ⟨hbx, by simp only [Region.Has]; omega⟩
    have hnot := hdisj b hb r hr r.addr
    simp only [Region.Has] at hbx hnot
    refine ⟨b, hb, ?_, hsize⟩
    simp only [Region.stop]
    omega
  · by_cases hrs : r = s
    · subst hrs
      rw [servable_of_one hk htwo] at hsx
      simp only [top, Region.Has] at hsx
      omega
    · have hsx' := has_of_servable hsx
      have hsep := hpl.separate hr hs hrs
      simp only [Region.Has, Region.stop] at hsx' hsep
      omega

/-- The address above a run is in a block only when the block begins there. -/
theorem touch_above (hpl : Canonical pl) (hex : Exclusive (bl ++ pl)) {r : Region} (hr : r ∈ pl) (h0 : 0 < r.size)
    (hcov : 0 < coverage (bl ++ pl.map (servable k)) r.stop) : ∃ b ∈ bl, b.addr = r.stop := by
  rcases coverage_servable_iff.1 hcov with ⟨b, hb, hbx⟩ | ⟨s, hs, hsx⟩
  · have hnot := (List.pairwise_append.1 hex.pairwise).2.2 b hb r hr (r.stop - 1)
    simp only [Region.Has, Region.stop] at hbx hnot
    refine ⟨b, hb, ?_⟩
    simp only [Region.stop]
    omega
  · have hpos := coverage_pos_of_mem hs (has_of_servable hsx)
    rw [hpl.coverage_stop hr] at hpos
    exact absurd hpos (Nat.lt_irrefl 0)

/-- Blocks and what requests of size `k` can take from the runs hold a stretch slightly longer than `k` in one of four ways: in a
block, in two requests from one run, in a request and the block above the run, or in a request of a whole run and the block
below it. -/
theorem stretch_servable_iff (hbl : Canonical bl) (hpl : Canonical pl) (hex : Exclusive (bl ++ pl))
    (hroom : ∀ b ∈ bl, slack ≤ b.size) (hlt : k < need) (hle : need ≤ k + slack) (hslack : slack ≤ k) :
    Stretch need (bl ++ pl.map (servable k)) ↔ (∃ b ∈ bl, need ≤ b.size) ∨ (∃ r ∈ pl, 2 * k ≤ r.size) ∨
      ∃ r ∈ pl, ∃ b ∈ bl, k ≤ r.size ∧ (b.addr = r.stop ∨ b.stop = r.addr ∧ r.size = k) := by
  have h0 : 0 < k := by omega
  constructor
  · rintro ⟨a, ha⟩
    by_cases hmeet : ∃ x, a ≤ x ∧ x < a + need ∧ ∃ r ∈ pl, (servable k r).Has x
    · obtain ⟨x, hax, hxa, r, hr, hx⟩ := hmeet
      by_cases htwo : 2 * k ≤ r.size
      · exact Or.inr (Or.inl ⟨r, hr, htwo⟩)
      · -- one request fits: the stretch leaves it at one end
        have hone : k ≤ r.size := by
          by_contra hsmall
          have hz := servable_of_lt (Nat.lt_of_not_le hsmall) x
          rw [Region.ind_of_has hx] at hz
          exact absurd hz (by decide)
        rw [servable_of_one hone (Nat.lt_of_not_le htwo)] at hx
        simp only [top, Region.Has] at hx
        refine Or.inr (Or.inr ⟨r, hr, ?_⟩)
        by_cases hbelow : a < r.addr + (r.size - k)
        · obtain ⟨b, hb, hstop, hsize⟩ := touch_below hpl hex hr hone (Nat.lt_of_not_le htwo)
            (show r.addr + (r.size - k) - 1 + 1 = _ by simp only [top]; omega) (ha _ (by omega) (by omega))
          exact ⟨b, hb, hone, Or.inr ⟨hstop, hsize⟩⟩
        · obtain ⟨b, hb, haddr⟩ := touch_above hpl hex hr (by omega)
            (ha _ (by simp only [Region.stop]; omega) (by simp only [Region.stop]; omega))
          exact ⟨b, hb, hone, Or.inl haddr⟩
    · refine Or.inl ((hbl.stretch_iff (by omega)).1 ⟨a, fun x h1 h2 => ?_⟩)
      rcases coverage_servable_iff.1 (ha x h1 h2) with hb | hr
      · exact coverage_pos_iff.2 hb
      · exact absurd ⟨x, h1, h2, hr⟩ hmeet
  · rintro (hb | ⟨r, hr, hsize⟩ | ⟨r, hr, b, hb, hsize, htouch⟩)
    · exact stretch_of_block hb
    · have htwo : k * 2 ≤ k * (r.size / k) := Nat.mul_le_mul_left k ((Nat.le_div_iff_mul_le h0).2 hsize)
      exact ⟨(servable k r).addr, fun x h1 h2 => coverage_servable_iff.2 (Or.inr ⟨r, hr, h1, by
        simp only [servable, top] at h1 h2 ⊢
        omega⟩)⟩
    · have hblock := hroom b hb
      have hin : ∀ x, r.stop - k ≤ x → x < r.stop → 0 < coverage (bl ++ pl.map (servable k)) x := fun x h1 h2 =>
        coverage_servable_iff.2 (Or.inr ⟨r, hr, servable_has_top hsize h0 (by simp only [top, Region.Has, Region.stop] at *; omega)⟩)
      have hblk : ∀ x, b.Has x → 0 < coverage (bl ++ pl.map (servable k)) x := fun x hx =>
        coverage_servable_iff.2 (Or.inl ⟨b, hb, hx⟩)
      rcases htouch with habove | ⟨hbelow, hwhole⟩
      · refine ⟨r.stop - k, fun x h1 h2 => ?_⟩
        rcases Nat.lt_or_ge x r.stop with hx | hx
        · exact hin x h1 hx
        · refine hblk x ⟨by omega, ?_⟩
          simp only [Region.stop] at *
          omega
      · refine ⟨b.stop - slack, fun x h1 h2 => ?_⟩
        simp only [Region.stop] at *
        rcases Nat.lt_or_ge x r.addr with hx | hx
        · exact hblk x ⟨by omega, by omega⟩
        · exact hin x (by omega) (by omega)

end

end BootPerl
