import BootPerl.Lemmas.Console
import BootPerl.Lib.CString
import BootPerl.Perlwrap

/-!
# Comparing strings up to a length

`strncmp` compares signed characters, and the C library unsigned ones. The two orders agree on two bytes of the same half of the range,
and are opposite on two bytes of different halves.
-/

namespace BootPerl

open Mem

/-- The sign of the lexicographic comparison of two byte strings, as unsigned bytes. -/
def lexSign (a b : List UInt8) : Int :=
  match compare a b with
  | .lt => -1
  | .eq => 0
  | .gt => 1

/-- `strncmp` gives the order of the C library. -/
def StrncmpOrders (m : Mem) (s1 s2 n : Nat) : Prop :=
  (strncmp m s1 s2 n).sign = lexSign (cutString m s1 n) (cutString m s2 n)

/-- Two bytes of the same half of the range: both are below 128, or neither is. -/
def SameHalf (a b : UInt8) : Prop := a < 128 ↔ b < 128

instance (a b : UInt8) : Decidable (SameHalf a b) := inferInstanceAs (Decidable (a < 128 ↔ b < 128))

/-- Where the strings first differ, up to `n` bytes and to their end, the two bytes are of the same half. A string that ends there counts
with its NUL. -/
def FirstDifferenceInHalf (m : Mem) (s1 s2 n : Nat) : Prop :=
  ∀ i < n, (∀ j < i, m.byte (s1 + j) = m.byte (s2 + j) ∧ m.byte (s1 + j) ≠ 0) → m.byte (s1 + i) ≠ m.byte (s2 + i) →
    SameHalf (m.byte (s1 + i)) (m.byte (s2 + i))

/-! ## One turn -/

/-- The order of two characters is that of their bytes in one half of the range, and the opposite one between the halves. -/
theorem signedChar_lt_iff {a b : UInt8} (h : a ≠ b) : signedChar a < signedChar b ↔ (SameHalf a b ↔ a < b) := by
  have ha := a.toNat_lt
  have hb := b.toNat_lt
  have hne : a.toNat ≠ b.toNat := fun he => h (UInt8.toNat_inj.1 he)
  have hhalf : SameHalf a b ↔ (a.toNat < 128 ↔ b.toNat < 128) := by
    rw [SameHalf, UInt8.lt_iff_toNat_lt, UInt8.lt_iff_toNat_lt]
    rfl
  rw [hhalf, UInt8.lt_iff_toNat_lt, signedChar, signedChar]
  split_ifs <;> omega

theorem sign_ite_iff {P Q : Prop} [Decidable P] [Decidable Q] :
    (if P then (-1 : Int) else 1).sign = (if Q then -1 else 1) ↔ (P ↔ Q) := by
  by_cases hP : P
  · by_cases hQ : Q <;> simp [hP, hQ]
  · by_cases hQ : Q <;> simp [hP, hQ]

/-- Where the characters differ, the turn decides. -/
theorem strncmpFrom_of_ne {m : Mem} {s1 s2 i : Nat} (h : m.byte (s1 + i) ≠ m.byte (s2 + i)) (left : Nat) :
    strncmpFrom m s1 s2 (left + 1) i = if signedChar (m.byte (s1 + i)) < signedChar (m.byte (s2 + i)) then -1 else 1 := by
  have hne : signedChar (m.byte (s1 + i)) ≠ signedChar (m.byte (s2 + i)) := fun he => h (signedChar_inj.1 he)
  rw [strncmpFrom]
  split
  · rfl
  · rename_i hnot
    exact if_pos (lt_of_le_of_ne (Int.not_lt.1 hnot) (Ne.symm hne))

/-- Where they are the same, the loop ends with the strings, or goes on. -/
theorem strncmpFrom_of_eq {m : Mem} {s1 s2 i : Nat} (h : m.byte (s1 + i) = m.byte (s2 + i)) (left : Nat) :
    strncmpFrom m s1 s2 (left + 1) i = if m.byte (s2 + i) = 0 then 0 else strncmpFrom m s1 s2 left (i + 1) := by
  rw [strncmpFrom, h, if_neg (Int.lt_irrefl _), if_neg (Int.lt_irrefl _)]
  refine if_congr ?_ rfl rfl
  rw [or_self, signedChar_eq_zero_iff]

section
variable {m : Mem} {p q n : Nat}

/-- Where the first bytes differ, they decide. -/
theorem lexSign_of_ne (h : m.byte p ≠ m.byte q) :
    lexSign (cutString m p (n + 1)) (cutString m q (n + 1)) = if m.byte p < m.byte q then -1 else 1 := by
  have hpos : ∀ {b : UInt8}, b ≠ 0 → 0 < b := fun hb => UInt8.pos_iff_ne_zero.2 hb
  rw [cutString, cutString]
  by_cases hp : m.byte p = 0
  · have hq : m.byte q ≠ 0 := fun hq => h (hp.trans hq.symm)
    rw [if_pos hp, if_neg hq, hp, if_pos (hpos hq), lexSign, List.compare_nil_cons]
  · by_cases hq : m.byte q = 0
    · rw [if_neg hp, if_pos hq, hq, if_neg (UInt8.not_lt.2 (UInt8.le_of_lt (hpos hp))), lexSign, List.compare_cons_nil]
    · rw [if_neg hp, if_neg hq, lexSign, List.compare_cons_cons]
      by_cases hlt : m.byte p < m.byte q
      · rw [if_pos hlt, Std.compare_eq_lt.2 hlt]
        rfl
      · have hgt : m.byte q < m.byte p := UInt8.lt_of_le_of_ne (UInt8.not_lt.1 hlt) (Ne.symm h)
        rw [if_neg hlt, Std.compare_eq_gt.2 hgt]
        rfl

/-- Where they are the same, the strings end, or the rest decides. -/
theorem lexSign_of_eq (h : m.byte p = m.byte q) : lexSign (cutString m p (n + 1)) (cutString m q (n + 1)) =
    if m.byte q = 0 then 0 else lexSign (cutString m (p + 1) n) (cutString m (q + 1) n) := by
  rw [cutString, cutString, h]
  split
  · rfl
  · rw [lexSign, List.compare_cons_cons, Std.ReflOrd.compare_self]
    rfl

/-- The condition looks at the first bytes, and at the rest only where they are the same. -/
theorem firstDifferenceInHalf_succ : FirstDifferenceInHalf m p q (n + 1) ↔
    (m.byte p ≠ m.byte q → SameHalf (m.byte p) (m.byte q)) ∧
      (m.byte p = m.byte q → m.byte q ≠ 0 → FirstDifferenceInHalf m (p + 1) (q + 1) n) := by
  constructor
  · intro h
    refine ⟨fun hne => h 0 (Nat.succ_pos n) (fun j hj => absurd hj (Nat.not_lt_zero j)) hne, fun heq h0 i hi hsame hne => ?_⟩
    rw [Nat.add_right_comm p, Nat.add_right_comm q] at hne ⊢
    refine h (i + 1) (Nat.succ_lt_succ hi) (fun j hj => ?_) hne
    cases j with
    | zero => exact ⟨heq, fun hz => h0 (heq.symm.trans hz)⟩
    | succ j =>
      have hj' := hsame j (Nat.lt_of_succ_lt_succ hj)
      rwa [Nat.add_right_comm p, Nat.add_right_comm q] at hj'
  · rintro ⟨hfirst, hrest⟩ i hi hsame hne
    cases i with
    | zero => exact hfirst hne
    | succ i =>
      obtain ⟨heq, h0⟩ := hsame 0 (Nat.succ_pos i)
      have hnext := hrest heq (fun hz => h0 (heq.trans hz)) i (Nat.lt_of_succ_lt_succ hi)
      rw [Nat.add_right_comm p, Nat.add_right_comm q] at hnext
      refine hnext (fun j hj => ?_) hne
      have hj' := hsame (j + 1) (Nat.succ_lt_succ hj)
      rwa [← Nat.add_assoc, ← Nat.add_assoc, Nat.add_right_comm p, Nat.add_right_comm q] at hj'

end

/-- From every index on, the loop gives the order exactly when the condition holds from there on. -/
theorem strncmpFrom_sign_iff (m : Mem) (s1 s2 left : Nat) : ∀ i, (strncmpFrom m s1 s2 left i).sign =
    lexSign (cutString m (s1 + i) left) (cutString m (s2 + i) left) ↔ FirstDifferenceInHalf m (s1 + i) (s2 + i) left := by
  induction left with
  | zero => exact fun i => iff_of_true rfl fun j hj => absurd hj (Nat.not_lt_zero j)
  | succ left ih =>
    intro i
    rw [firstDifferenceInHalf_succ]
    by_cases heq : m.byte (s1 + i) = m.byte (s2 + i)
    · rw [strncmpFrom_of_eq heq, lexSign_of_eq heq]
      by_cases h0 : m.byte (s2 + i) = 0
      · rw [if_pos h0, if_pos h0]
        exact iff_of_true rfl ⟨fun hne => absurd heq hne, fun _ hne => absurd h0 hne⟩
      · rw [if_neg h0, if_neg h0]
        have hrest := ih (i + 1)
        rw [← Nat.add_assoc, ← Nat.add_assoc] at hrest
        exact hrest.trans ⟨fun h => ⟨fun hne => absurd heq hne, fun _ _ => h⟩, fun h => h.2 heq h0⟩
    · rw [strncmpFrom_of_ne heq, lexSign_of_ne heq]
      -- the sign is right when the two orders give the same answer
      have horder := signedChar_lt_iff heq
      have hsign : (if signedChar (m.byte (s1 + i)) < signedChar (m.byte (s2 + i)) then (-1 : Int) else 1).sign =
          (if m.byte (s1 + i) < m.byte (s2 + i) then -1 else 1) ↔ SameHalf (m.byte (s1 + i)) (m.byte (s2 + i)) := by
        rw [sign_ite_iff, horder]
        tauto
      exact hsign.trans ⟨fun h => ⟨fun _ => h, fun he => absurd he heq⟩, fun h => h.1 heq⟩

/-- `strncmp` gives the order of the C library exactly when the strings first differ in two bytes of the same half, if they differ. -/
theorem strncmp_orders_iff (m : Mem) (s1 s2 n : Nat) : StrncmpOrders m s1 s2 n ↔ FirstDifferenceInHalf m s1 s2 n :=
  strncmpFrom_sign_iff m s1 s2 n 0

/-- A memory that holds "a" at 16 and at 32 the letter that Latin-1 has at 233. -/
def twoLetters : Mem where
  byte x := if x = 16 then 97 else if x = 32 then 233 else 0
  dirty _ := false

/-- `strncmp` puts the letter of the upper half before "a". -/
theorem strncmp_orders_false :
    CString twoLetters 16 [97] ∧ CString twoLetters 32 [233] ∧ strncmp twoLetters 16 32 1 = 1 ∧ ¬StrncmpOrders twoLetters 16 32 1 := by
  have hfirst : CString twoLetters 16 [97] := by simp [CString, twoLetters]
  have hsecond : CString twoLetters 32 [233] := by simp [CString, twoLetters]
  have hcmp : strncmp twoLetters 16 32 1 = 1 := by decide
  refine ⟨hfirst, hsecond, hcmp, ?_⟩
  rw [StrncmpOrders, hfirst.cutString_eq, hsecond.cutString_eq, hcmp]
  decide

end BootPerl
