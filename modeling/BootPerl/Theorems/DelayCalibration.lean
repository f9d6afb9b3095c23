import BootPerl.Calibrate
import BootPerl.Lib.Bits

/-!
# What the calibration of the delay loop comes to

The machine is a threshold `T`: a delay of `T` loops or more is longer than a tick. The first loop brackets `T` between two powers of
two, and each turn of the second halves the gap. But the first loop doubles before it tests, so nothing below its second value is
ever tried: a threshold up to the initial value is not found.
-/

namespace BootPerl

open Outcome

/-- `__delay(l)` is longer than a tick from `T` loops on. -/
def longerFrom (T l : Nat) : Bool := decide (T ≤ l)

/-- `calibrate_delay` terminates with a value below the threshold that a 256th more of it reaches. -/
def Calibrates (T : Nat) : Prop :=
  ∃ l, Comes (calibrateDelay (longerFrom T)) (.ok l) ∧ l < T ∧ T ≤ l + l / 256

/-! ## The first loop -/

/-- The first loop stops at the first power of two that is too long, of those above the one that it starts from. -/
theorem doubleDelay_comes {T : Nat} (hT : T ≤ 2147483648) (d : Nat) : ∀ {k : Nat}, k + d = 30 →
    ∃ j, k < j ∧ j < 32 ∧ T ≤ 2 ^ j ∧ (j = k + 1 ∨ 2 ^ (j - 1) < T) ∧
      Comes (fun fuel => doubleDelay (longerFrom T) fuel (2 ^ k)) (.ok (2 ^ j)) := by
  induction d with
  | zero =>
    intro k hk
    obtain rfl : k = 30 := hk
    refine ⟨31, by decide, by decide, hT, Or.inl rfl, 1, fun fuel hfuel => ?_⟩
    obtain ⟨fuel, rfl⟩ := Nat.exists_eq_add_of_le' hfuel
    exact if_pos (decide_eq_true hT)
  | succ d ih =>
    intro k hk
    have hlt : 2 ^ (k + 1) < 4294967296 := Nat.pow_lt_pow_right (n := 32) (by decide) (show k + 1 < 32 by omega)
    have hshift : 2 ^ k <<< 1 % 4294967296 = 2 ^ (k + 1) := by
      rw [Nat.shiftLeft_eq, Nat.pow_one, ← Nat.pow_succ]
      exact Nat.mod_eq_of_lt hlt
    have hne : 2 ^ (k + 1) ≠ 0 := Nat.ne_of_gt (Nat.two_pow_pos _)
    by_cases hstop : T ≤ 2 ^ (k + 1)
    · refine ⟨k + 1, Nat.lt_succ_self k, by omega, hstop, Or.inl rfl, 1, fun fuel hfuel => ?_⟩
      obtain ⟨fuel, rfl⟩ := Nat.exists_eq_add_of_le' hfuel
      dsimp only
      rw [doubleDelay, hshift, if_neg hne, longerFrom, decide_eq_true hstop, if_pos rfl]
    · obtain ⟨j, hkj, hj, hTj, hbelow, hcomes⟩ := ih (k := k + 1) (by omega)
      refine ⟨j, by omega, hj, hTj, Or.inr ?_, ?_⟩
      · rcases hbelow with rfl | hlt
        · exact Nat.lt_of_not_le hstop
        · exact hlt
      · obtain ⟨n, hn⟩ := hcomes
        refine ⟨n + 1, fun fuel hfuel => ?_⟩
        obtain ⟨fuel, rfl⟩ := Nat.exists_eq_add_of_le' (Nat.le_trans (Nat.le_add_left 1 n) hfuel)
        have hlong : longerFrom T (2 ^ (k + 1)) = false := decide_eq_false hstop
        dsimp only
        rw [doubleDelay, hshift, if_neg hne, hlong, if_neg Bool.false_ne_true]
        exact hn fuel (by omega)

/-! ## The second loop -/

section
variable {T x b : Nat}

/-- One turn keeps the bit exactly when the delay is not too long with it. -/
theorem refineDelay_succ (h : 2 ^ (b + 1) ∣ x) (hx : x < 4294967296) (hb : b < 32) (prec : Nat) :
    refineDelay (longerFrom T) (prec + 1) x (2 ^ (b + 1)) =
      refineDelay (longerFrom T) prec (if T ≤ x + 2 ^ b then x else x + 2 ^ b) (2 ^ b) := by
  have hshift : 2 ^ (b + 1) >>> 1 = 2 ^ b := by
    rw [Nat.shiftRight_eq_div_pow, Nat.pow_one, Nat.pow_succ, Nat.mul_div_cancel _ (by decide)]
  have hclear : (x ||| 2 ^ b) &&& (4294967295 ^^^ 2 ^ b) = x := and_not_two_pow (w := 32) h hx hb
  rw [or_two_pow h] at hclear
  rw [refineDelay, hshift, if_neg (Nat.ne_of_gt (Nat.two_pow_pos b)), or_two_pow h]
  simp only [hclear, longerFrom, decide_eq_true_eq]

/-- What a turn leaves is a multiple of the bit, no smaller, and in 32 bits. -/
theorem refineDelay_step (h : 2 ^ (b + 1) ∣ x) (hx : x + 2 ^ (b + 1) ≤ 4294967296) :
    2 ^ b ∣ (if T ≤ x + 2 ^ b then x else x + 2 ^ b) ∧ x ≤ (if T ≤ x + 2 ^ b then x else x + 2 ^ b) ∧
      (if T ≤ x + 2 ^ b then x else x + 2 ^ b) + 2 ^ b ≤ 4294967296 := by
  have hdvd : 2 ^ b ∣ x := Nat.dvd_trans (Nat.pow_dvd_pow 2 (Nat.le_succ b)) h
  rw [Nat.pow_succ] at hx
  split
  · exact ⟨hdvd, Nat.le_refl x, by omega⟩
  · exact ⟨Nat.dvd_add hdvd (Nat.dvd_refl _), Nat.le_add_right _ _, by omega⟩

/-- The loop never goes below the value that it starts from. -/
theorem refineDelay_ge (prec : Nat) : ∀ {x b : Nat}, prec ≤ b → b < 32 → 2 ^ b ∣ x → x + 2 ^ b ≤ 4294967296 →
    x ≤ refineDelay (longerFrom T) prec x (2 ^ b) := by
  induction prec with
  | zero => exact fun _ _ _ _ => Nat.le_refl _
  | succ prec ih =>
    intro x b hprec hb hdvd hx
    obtain ⟨b, rfl⟩ := Nat.exists_eq_add_of_le' (Nat.le_trans (Nat.le_add_left 1 prec) hprec)
    obtain ⟨hdvd', hge, hx'⟩ := refineDelay_step (T := T) hdvd hx
    have hpos := Nat.two_pow_pos (b + 1)
    rw [refineDelay_succ hdvd (by omega) (by omega)]
    exact Nat.le_trans hge (ih (by omega) (by omega) hdvd' hx')

/-- A threshold between the value and the value with the bit stays there, for a lower bit after each turn. -/
theorem refineDelay_brackets (prec : Nat) : ∀ {x b : Nat}, prec ≤ b → b < 32 → 2 ^ b ∣ x → x + 2 ^ b ≤ 4294967296 →
    x < T → T ≤ x + 2 ^ b →
      refineDelay (longerFrom T) prec x (2 ^ b) < T ∧ T ≤ refineDelay (longerFrom T) prec x (2 ^ b) + 2 ^ (b - prec) := by
  induction prec with
  | zero => exact fun _ _ _ _ hlow hhigh => ⟨hlow, hhigh⟩
  | succ prec ih =>
    intro x b hprec hb hdvd hx hlow hhigh
    obtain ⟨b, rfl⟩ := Nat.exists_eq_add_of_le' (Nat.le_trans (Nat.le_add_left 1 prec) hprec)
    obtain ⟨hdvd', -, hx'⟩ := refineDelay_step (T := T) hdvd hx
    have hpos := Nat.two_pow_pos (b + 1)
    rw [refineDelay_succ hdvd (by omega) (by omega), Nat.add_sub_add_right]
    refine ih (by omega) (by omega) hdvd' hx' ?_ ?_
    · split <;> omega
    · rw [Nat.pow_succ] at hhigh
      split <;> omega

end

/-! ## The calibration -/

/-- Both loops: the second starts from half of the power of two that the first stops at. -/
theorem calibrateDelay_comes {T : Nat} (hT : T ≤ 2147483648) :
    ∃ b, 12 ≤ b ∧ b < 31 ∧ T ≤ 2 ^ (b + 1) ∧ (b = 12 ∨ 2 ^ b < T) ∧
      Comes (calibrateDelay (longerFrom T)) (.ok (refineDelay (longerFrom T) lpsPrec (2 ^ b) (2 ^ b))) := by
  obtain ⟨j, hkj, hj, hTj, hbelow, hcomes⟩ := doubleDelay_comes hT 18 (k := 12) rfl
  obtain ⟨b, rfl⟩ := Nat.exists_eq_add_of_le' (Nat.zero_lt_of_lt hkj)
  have hshift : 2 ^ (b + 1) >>> 1 = 2 ^ b := by
    rw [Nat.shiftRight_eq_div_pow, Nat.pow_one, Nat.pow_succ, Nat.mul_div_cancel _ (by decide)]
  refine ⟨b, by omega, by omega, hTj, ?_, ?_⟩
  · rcases hbelow with heq | hlt
    · exact Or.inl (by omega)
    · exact Or.inr hlt
  · have hrest := hcomes.bind (g := fun _ l => .ok (refineDelay (longerFrom T) lpsPrec (l >>> 1) (l >>> 1))) (Comes.const _)
    rw [hshift] at hrest
    exact hrest

/-- Up to 2 ^ 31 the calibration finds the threshold exactly when it lies above the initial value. -/
theorem calibrate_delay_iff {T : Nat} (hT : T ≤ 2147483648) : Calibrates T ↔ 4096 < T := by
  obtain ⟨b, hb, hb', hTb, hbelow, hcomes⟩ := calibrateDelay_comes hT
  have hroom : 2 ^ b + 2 ^ b ≤ 4294967296 := by
    have := Nat.pow_le_pow_right (n := 2) (by decide) (show b + 1 ≤ 32 by omega)
    rwa [Nat.pow_succ, Nat.mul_two] at this
  have hlow : 2 ^ 12 ≤ 2 ^ b := Nat.pow_le_pow_right (by decide) hb
  have hge := refineDelay_ge (T := T) lpsPrec (x := 2 ^ b) (b := b) (by rw [lpsPrec]; omega) (by omega) (Nat.dvd_refl _) hroom
  constructor
  · rintro ⟨l, hl, hlt, -⟩
    obtain rfl := hcomes.ok_inj hl
    omega
  · intro hT'
    have hbT : 2 ^ b < T := hbelow.elim (fun h12 => by rw [h12]; exact hT') fun hlt => hlt
    rw [Nat.pow_succ, Nat.mul_two] at hTb
    obtain ⟨hlt, hle⟩ := refineDelay_brackets (T := T) lpsPrec (x := 2 ^ b) (b := b) (by rw [lpsPrec]; omega) (by omega)
      (Nat.dvd_refl _) hroom hbT hTb
    refine ⟨_, hcomes, hlt, Nat.le_trans hle (Nat.add_le_add_left ?_ _)⟩
    -- the last bit is a 256th of the value that the second loop starts from
    rw [Nat.le_div_iff_mul_le (by decide), lpsPrec, show 256 = 2 ^ 8 by rfl, ← Nat.pow_add, Nat.sub_add_cancel (by omega)]
    exact hge

/-- A machine that does 5000 loops in a tick. -/
theorem calibrate_delay_iff_5000 : Calibrates 5000 := (calibrate_delay_iff (by decide)).2 (by decide)

/-- A machine that does 1000 loops in a tick is taken for one that does 4096. -/
theorem calibrate_delay_false : Comes (calibrateDelay (longerFrom 1000)) (.ok 4096) ∧ ¬Calibrates 1000 := by
  have hcomes : Comes (calibrateDelay (longerFrom 1000)) (.ok 4096) := by
    refine ⟨1, fun fuel hfuel => ?_⟩
    obtain ⟨fuel, rfl⟩ := Nat.exists_eq_add_of_le' hfuel
    rfl
  refine ⟨hcomes, ?_⟩
  rintro ⟨l, hl, hlt, -⟩
  obtain rfl := hcomes.ok_inj hl
  exact absurd hlt (by decide)

end BootPerl
