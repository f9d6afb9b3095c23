import BootPerl.Lib.Memory

/-!
# Strings in memory

The text at an address: bytes other than NUL, and a NUL after them.
-/

namespace BootPerl

/-- `s` lies at `p` and ends there with a NUL. -/
def CString (m : Mem) : Nat → List UInt8 → Prop
  | p, [] => m.byte p = 0
  | p, c :: s => m.byte p = c ∧ c ≠ 0 ∧ CString m (p + 1) s

namespace CString
variable {m : Mem} {p : Nat} {c : UInt8} {s : List UInt8}

/-- An empty string begins with its NUL. -/
theorem byte_nil (h : CString m p []) : m.byte p = 0 := h

/-- A string that is not empty begins with its first character. -/
theorem byte_cons (h : CString m p (c :: s)) : m.byte p = c := h.1

/-- A character of a string is not the NUL. -/
theorem ne_zero (h : CString m p (c :: s)) : c ≠ 0 := h.2.1

/-- No character of a string is a NUL. -/
theorem ne_zero_of_mem (h : CString m p s) : ∀ x ∈ s, x ≠ 0 := by
  induction s generalizing p with
  | nil => exact fun x hx => absurd hx List.not_mem_nil
  | cons c s ih =>
    intro x hx
    rcases List.mem_cons.1 hx with rfl | hx
    · exact h.ne_zero
    · exact ih h.2.2 x hx

/-- Where a string begins with a NUL, it is empty. -/
theorem byte_eq_zero_iff (h : CString m p s) : m.byte p = 0 ↔ s = [] := by
  cases s with
  | nil => exact ⟨fun _ => rfl, fun _ => h.byte_nil⟩
  | cons c s => exact ⟨fun h0 => absurd (h.byte_cons.symm.trans h0) h.ne_zero, fun h0 => absurd h0 (List.cons_ne_nil c s)⟩

/-- Two strings that are not empty begin alike when their first bytes are the same. -/
theorem head?_eq_iff {q : Nat} {t : List UInt8} (h : CString m p s) (h' : CString m q t) (hs : s ≠ []) (ht : t ≠ []) :
    s.head? = t.head? ↔ m.byte p = m.byte q := by
  cases s with
  | nil => exact absurd rfl hs
  | cons c s =>
    cases t with
    | nil => exact absurd rfl ht
    | cons d t => rw [h.byte_cons, h'.byte_cons, List.head?_cons, List.head?_cons, Option.some_inj]

/-- What stands behind the first characters of a string. -/
theorem append_right {t : List UInt8} (h : CString m p (s ++ t)) : CString m (p + s.length) t := by
  induction s generalizing p with
  | nil => exact h
  | cons c s ih =>
    have ht := ih h.2.2
    rwa [Nat.add_right_comm] at ht

/-- A character of a string. -/
theorem byte_eq {i : Nat} (h : CString m p s) (hi : s[i]? = some c) : m.byte (p + i) = c := by
  induction s generalizing p i with
  | nil => cases hi
  | cons d s ih =>
    cases i with
    | zero =>
      cases hi
      exact h.byte_cons
    | succ i =>
      have hc := ih h.2.2 hi
      rwa [Nat.add_right_comm] at hc

end CString

/-- The string at `p`, cut at `n` bytes and at its first NUL. -/
def cutString (m : Mem) : Nat → Nat → List UInt8
  | _, 0 => []
  | p, n + 1 => if m.byte p = 0 then [] else m.byte p :: cutString m (p + 1) n

/-- Where a string ends with a NUL, it is cut at `n` bytes. -/
theorem CString.cutString_eq {m : Mem} (n : Nat) : ∀ {p : Nat} {s : List UInt8}, CString m p s → cutString m p n = s.take n := by
  induction n with
  | zero => exact fun _ => rfl
  | succ n ih =>
    intro p s h
    rw [cutString]
    cases s with
    | nil => rw [if_pos h.byte_nil, List.take_nil]
    | cons c s => rw [h.byte_cons, if_neg h.ne_zero, List.take_succ_cons, ih h.2.2]

end BootPerl
