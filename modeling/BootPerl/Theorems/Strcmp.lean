import BootPerl.Lemmas.Console
import BootPerl.Lib.CString
import BootPerl.Perlwrap

/-!
# Comparing strings

The loop of `strcmp` does not advance. It ends in its first turn or never: it never ends when both strings begin with the same
character. Where it ends, the first characters decide, as they do for `strncmp`.
-/

namespace BootPerl

open Mem Outcome

/-- `strcmp` returns, with the sign that `strncmp` gives for every length beyond both strings. -/
def StrcmpAgrees (m : Mem) (s1 s2 : Nat) (a b : List UInt8) : Prop :=
  ∃ r, Comes (fun fuel => strcmp fuel m s1 s2) (.ok r) ∧
    ∀ n, a.length < n → b.length < n → r.sign = (strncmp m s1 s2 n).sign

section
variable {m : Mem} {s1 s2 : Nat}

/-- On the same first character the loop goes on for ever. -/
theorem strcmp_running (h0 : m.byte s1 ≠ 0) (heq : m.byte s1 = m.byte s2) (fuel : Nat) : strcmp fuel m s1 s2 = .running := by
  induction fuel with
  | zero => rfl
  | succ fuel ih =>
    have hc : signedChar (m.byte s2) ≠ 0 := fun hz => h0 (heq.trans (signedChar_eq_zero_iff.1 hz))
    rw [strcmp, heq, if_pos ⟨hc, hc⟩, if_neg (Int.lt_irrefl _), if_neg (Int.lt_irrefl _)]
    exact ih

/-- Otherwise the first characters decide in the first turn, as in the first turn of `strncmp`. -/
theorem strcmp_comes (h : m.byte s1 = 0 ∨ m.byte s2 = 0 ∨ m.byte s1 ≠ m.byte s2) :
    Comes (fun fuel => strcmp fuel m s1 s2) (.ok (strncmp m s1 s2 1)) := by
  have hne : signedChar (m.byte s1) = 0 ∨ signedChar (m.byte s2) = 0 ∨ signedChar (m.byte s1) ≠ signedChar (m.byte s2) := by
    rwa [signedChar_eq_zero_iff, signedChar_eq_zero_iff, Ne, signedChar_inj]
  refine ⟨1, fun fuel hfuel => ?_⟩
  obtain ⟨fuel, rfl⟩ := Nat.exists_eq_add_of_le' hfuel
  simp only [strcmp, strncmp, strncmpFrom, Nat.add_zero]
  split_ifs <;> first | rfl | omega

/-- `strncmp` looks no further than the first characters when these decide. -/
theorem strncmp_first (h : m.byte s1 = 0 ∨ m.byte s2 = 0 ∨ m.byte s1 ≠ m.byte s2) (n : Nat) :
    strncmp m s1 s2 (n + 1) = strncmp m s1 s2 1 := by
  have hne : signedChar (m.byte s1) = 0 ∨ signedChar (m.byte s2) = 0 ∨ signedChar (m.byte s1) ≠ signedChar (m.byte s2) := by
    rwa [signedChar_eq_zero_iff, signedChar_eq_zero_iff, Ne, signedChar_inj]
  simp only [strncmp, strncmpFrom, Nat.add_zero]
  split_ifs <;> first | rfl | omega

end

/-- `strcmp` terminates and agrees with `strncmp` exactly when one of the strings is empty or their first characters differ. -/
theorem strcmp_agrees_iff {m : Mem} {s1 s2 : Nat} {a b : List UInt8} (ha : CString m s1 a) (hb : CString m s2 b) :
    StrcmpAgrees m s1 s2 a b ↔ a = [] ∨ b = [] ∨ a.head? ≠ b.head? := by
  constructor
  · rintro ⟨r, hr, -⟩
    by_contra hcon
    push Not at hcon
    obtain ⟨hane, hbne, hhead⟩ := hcon
    obtain ⟨fuel, -, hfuel⟩ := hr.exists_ge 0
    have h0 : m.byte s1 ≠ 0 := fun hz => hane (ha.byte_eq_zero_iff.1 hz)
    rw [strcmp_running h0 ((ha.head?_eq_iff hb hane hbne).1 hhead)] at hfuel
    cases hfuel
  · intro h
    have hfirst : m.byte s1 = 0 ∨ m.byte s2 = 0 ∨ m.byte s1 ≠ m.byte s2 := by
      rw [ha.byte_eq_zero_iff, hb.byte_eq_zero_iff]
      by_cases hane : a = []
      · exact Or.inl hane
      · by_cases hbne : b = []
        · exact Or.inr (Or.inl hbne)
        · have hhead := (h.resolve_left hane).resolve_left hbne
          exact Or.inr (Or.inr fun heq => hhead ((ha.head?_eq_iff hb hane hbne).2 heq))
    refine ⟨_, strcmp_comes hfirst, fun n hn _ => ?_⟩
    obtain ⟨k, rfl⟩ : ∃ k, n = k + 1 := ⟨n - 1, by omega⟩
    rw [strncmp_first hfirst k]

/-- A memory that holds "no" at 16 and "on" at 32. -/
def twoWords : Mem where
  byte a := if a = 16 ∨ a = 33 then 110 else if a = 17 ∨ a = 32 then 111 else 0
  dirty _ := false

/-- "no" and "on" differ at once. -/
theorem strcmp_agrees_iff_words : StrcmpAgrees twoWords 16 32 [110, 111] [111, 110] :=
  (strcmp_agrees_iff (by simp [CString, twoWords]) (by simp [CString, twoWords])).2 (Or.inr (Or.inr (by decide)))

/-- `strcmp` of "no" and "no" does not return. -/
theorem strcmp_agrees_false : CString twoWords 16 [110, 111] ∧ ¬StrcmpAgrees twoWords 16 16 [110, 111] [110, 111] := by
  have hno : CString twoWords 16 [110, 111] := by simp [CString, twoWords]
  refine ⟨hno, ?_⟩
  rintro ⟨r, hr, -⟩
  obtain ⟨fuel, -, hfuel⟩ := hr.exists_ge 0
  rw [strcmp_running (by decide) rfl] at hfuel
  cases hfuel

end BootPerl
