import Mathlib.Data.Nat.Digits.Lemmas

/-!
# Numerals

The numeral of a number in a base, most significant digit first, over any symbols, and what a list of symbols comes to when it is read
from the left.
-/

namespace BootPerl

/-- The numeral of `n`: one digit for zero, and no leading zero otherwise. -/
def numeral {σ : Type} (symbol : Nat → σ) (base n : Nat) : List σ :=
  if n = 0 then [symbol 0] else (base.digits n).reverse.map symbol

/-- What a list of symbols comes to, read after the number `start`. -/
def horner {σ : Type} (base : Nat) (value : σ → Nat) (start : Nat) (l : List σ) : Nat :=
  l.foldl (fun v c => v * base + value c) start

section
variable {σ : Type} {symbol : Nat → σ} {value : σ → Nat} {base : Nat}

theorem numeral_length (n : Nat) : (numeral symbol base n).length = max 1 (base.digits n).length := by
  unfold numeral
  split
  · rename_i h0
    rw [h0, Nat.digits_zero]
    rfl
  · rename_i h0
    have hpos : 0 < (base.digits n).length := List.length_pos_iff.2 (Nat.digits_ne_nil_iff_ne_zero.2 h0)
    rw [List.length_map, List.length_reverse, max_eq_right hpos]

/-- The symbols of a numeral are those of its base. -/
theorem mem_numeral (hb : 1 < base) {n : Nat} {c : σ} (h : c ∈ numeral symbol base n) : ∃ d, d < base ∧ symbol d = c := by
  unfold numeral at h
  split at h
  · exact ⟨0, Nat.lt_of_succ_lt hb, (List.mem_singleton.1 h).symm⟩
  · obtain ⟨d, hd, rfl⟩ := List.mem_map.1 h
    exact ⟨d, Nat.digits_lt_base hb (List.mem_reverse.1 hd), rfl⟩

/-- A symbol for zero in front of all others changes nothing. -/
theorem horner_replicate {z : σ} (hz : value z = 0) (k : Nat) (l : List σ) :
    horner base value 0 (List.replicate k z ++ l) = horner base value 0 l := by
  induction k with
  | zero => rfl
  | succ k ih =>
    rw [List.replicate_succ, List.cons_append, horner, List.foldl_cons, hz, Nat.zero_mul]
    exact ih

/-- Digits, of which the last is the least, come to their number. -/
theorem horner_reverse (h : ∀ d < base, value (symbol d) = d) (l : List Nat) (hl : ∀ d ∈ l, d < base) :
    horner base value 0 (l.reverse.map symbol) = Nat.ofDigits base l := by
  induction l with
  | nil => rfl
  | cons d l ih =>
    have hrest := ih fun e he => hl e (List.mem_cons_of_mem d he)
    rw [horner] at hrest ⊢
    rw [List.reverse_cons, List.map_append, List.foldl_append, hrest, List.map_singleton, List.foldl_cons, List.foldl_nil,
      h d (hl d List.mem_cons_self), Nat.ofDigits_cons, Nat.mul_comm, Nat.add_comm]

/-- A numeral is read back. -/
theorem horner_numeral (hb : 1 < base) (h : ∀ d < base, value (symbol d) = d) (n : Nat) :
    horner base value 0 (numeral symbol base n) = n := by
  unfold numeral
  split
  · rename_i h0
    rw [h0, horner, List.foldl_cons, List.foldl_nil, h 0 (Nat.lt_of_succ_lt hb), Nat.zero_mul]
  · rw [horner_reverse h _ fun d hd => Nat.digits_lt_base hb hd, Nat.ofDigits_digits]

/-- Reading on only makes a number greater. -/
theorem le_horner (hb : 0 < base) (l : List σ) : ∀ start, start ≤ horner base value start l := by
  induction l with
  | nil => exact fun start => Nat.le_refl start
  | cons c l ih =>
    intro start
    have hstep : start ≤ start * base + value c := Nat.le_trans (Nat.le_mul_of_pos_right start hb) (Nat.le_add_right _ _)
    exact Nat.le_trans hstep (ih _)

end

/-- The test for a number that a further digit takes over a limit, made without the number. -/
theorem limit_lt_iff {base limit i d : Nat} (hd : d < base) :
    limit < i * base + d ↔ i > limit / base ∨ i = limit / base ∧ d > limit % base := by
  have hlimit := Nat.div_add_mod limit base
  have hmod := Nat.mod_lt limit (Nat.zero_lt_of_lt hd)
  rcases Nat.lt_trichotomy i (limit / base) with h | rfl | h
  · have hmul : base * (i + 1) ≤ base * (limit / base) := Nat.mul_le_mul_left base h
    rw [Nat.mul_succ, Nat.mul_comm base i] at hmul
    refine iff_of_false (by omega) ?_
    rintro (hgt | ⟨heq, -⟩)
    · exact Nat.lt_asymm h hgt
    · exact Nat.ne_of_lt h heq
  · rw [Nat.mul_comm base] at hlimit
    constructor
    · exact fun h => Or.inr ⟨rfl, by omega⟩
    · rintro (hgt | ⟨-, hgt⟩)
      · exact absurd hgt (Nat.lt_irrefl _)
      · omega
  · have hmul : base * (limit / base + 1) ≤ base * i := Nat.mul_le_mul_left base h
    rw [Nat.mul_succ, Nat.mul_comm base i] at hmul
    exact iff_of_true (by omega) (Or.inl h)

end BootPerl
