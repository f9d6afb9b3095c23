import BootPerl.Lib.Memory
import Mathlib.Data.List.Basic

/-!
# Byte strings, in lists and in memory

A list of bytes at an address, how it splits and what is read from it, and a list of bytes written over a part of another.
-/

namespace BootPerl

/-- The bytes `bs` lie at `a` and upward. -/
def Bytes (m : Mem) (a : Nat) (bs : List UInt8) : Prop := ∀ i b, bs[i]? = some b → m.byte (a + i) = b

section
variable {m m' : Mem} {a : Nat} {bs cs : List UInt8}

theorem bytes_nil : Bytes m a [] := by
  intro i b h
  simp at h

/-- A string is read from its own bytes. -/
theorem Bytes.congr (h : Bytes m a bs) (hb : ∀ x, a ≤ x → x < a + bs.length → m'.byte x = m.byte x) : Bytes m' a bs := by
  intro i b hi
  have hlt := (List.getElem?_eq_some_iff.1 hi).1
  rw [hb _ (by omega) (by omega)]
  exact h i b hi

theorem bytes_append : Bytes m a (bs ++ cs) ↔ Bytes m a bs ∧ Bytes m (a + bs.length) cs := by
  constructor
  · intro h
    refine ⟨fun i b hi => ?_, fun i b hi => ?_⟩
    · refine h i b ?_
      rw [List.getElem?_append_left (List.getElem?_eq_some_iff.1 hi).1]
      exact hi
    · rw [Nat.add_assoc]
      refine h _ b ?_
      rw [List.getElem?_append_right (Nat.le_add_right _ _), Nat.add_sub_cancel_left]
      exact hi
  · rintro ⟨h1, h2⟩ i b hi
    rcases Nat.lt_or_ge i bs.length with hlt | hge
    · rw [List.getElem?_append_left hlt] at hi
      exact h1 i b hi
    · rw [List.getElem?_append_right hge] at hi
      have := h2 _ b hi
      rwa [Nat.add_assoc, Nat.add_sub_cancel' hge] at this

/-- A part of a string. -/
theorem Bytes.slice (h : Bytes m a bs) (i n : Nat) : Bytes m (a + i) ((bs.drop i).take n) := by
  intro j b hj
  obtain ⟨hlt, -⟩ := List.getElem?_eq_some_iff.1 hj
  rw [List.length_take] at hlt
  rw [List.getElem?_take_of_lt (by omega), List.getElem?_drop] at hj
  rw [Nat.add_assoc]
  exact h _ b hj

/-- One byte of a string. -/
theorem Bytes.byte_getD (h : Bytes m a bs) {i : Nat} (hi : i < bs.length) : m.byte (a + i) = bs.getD i 0 := by
  refine h i _ ?_
  rw [List.getD_eq_getElem?_getD, List.getElem?_eq_getElem hi, Option.getD_some]

/-- The little-endian number that a string spells. -/
def leNat : List UInt8 → Nat
  | [] => 0
  | b :: bs => b.toNat + 256 * leNat bs

/-- A number is loaded from its string. -/
theorem Bytes.load_eq : ∀ {a : Nat}, Bytes m a bs → m.load a bs.length = leNat bs := by
  induction bs with
  | nil => intro a _; rfl
  | cons b bs ih =>
    intro a h
    have hfirst : m.byte a = b := h 0 b rfl
    have hrest : Bytes m (a + 1) bs := by
      intro i c hi
      have hc := h (i + 1) c hi
      rwa [Nat.add_comm i 1, ← Nat.add_assoc] at hc
    rw [List.length_cons, Mem.load, leNat, hfirst, ih hrest]

/-- Store a string. -/
def Mem.put (m : Mem) (a : Nat) : List UInt8 → Mem
  | [] => m
  | b :: bs => (m.set a b).put (a + 1) bs

theorem byte_put_of_outside {x : Nat} :
    ∀ {m : Mem} {a : Nat}, x < a ∨ a + bs.length ≤ x → (m.put a bs).byte x = m.byte x := by
  induction bs with
  | nil => intro m a _; rfl
  | cons b bs ih =>
    intro m a h
    rw [List.length_cons] at h
    rw [Mem.put, ih (by omega)]
    exact if_neg (by omega)

/-- A string stored is a string read. -/
theorem bytes_put : ∀ {m : Mem} {a : Nat}, Bytes (m.put a bs) a bs := by
  induction bs with
  | nil => intro m a; exact bytes_nil
  | cons b bs ih =>
    intro m a i c hi
    cases i with
    | zero =>
      rw [List.getElem?_cons_zero, Option.some_inj] at hi
      have hfirst : (m.put a (b :: bs)).byte a = (m.set a b).byte a := byte_put_of_outside (Or.inl (Nat.lt_add_one a))
      exact hfirst.trans ((if_pos rfl).trans hi)
    | succ i =>
      rw [List.getElem?_cons_succ] at hi
      have ha : a + (i + 1) = a + 1 + i := by omega
      rw [Mem.put, ha]
      exact ih i c hi

end

/-! ## Writing over a part -/

/-- The list with the bytes from `off` on replaced by `bs`. -/
def patchAt (buf : List UInt8) (off : Nat) (bs : List UInt8) : List UInt8 := buf.take off ++ bs ++ buf.drop (off + bs.length)

section
variable {buf bs : List UInt8} {off : Nat}

theorem length_patchAt (h : off + bs.length ≤ buf.length) : (patchAt buf off bs).length = buf.length := by
  rw [patchAt, List.length_append, List.length_append, List.length_take, List.length_drop]
  omega

/-- The bytes that were written. -/
theorem patchAt_inside (h : off + bs.length ≤ buf.length) {i : Nat} (hi : i < bs.length) :
    (patchAt buf off bs)[off + i]? = bs[i]? := by
  have hlen : (buf.take off).length = off := List.length_take_of_le (by omega)
  rw [patchAt, List.append_assoc, List.getElem?_append_right (by omega), hlen, Nat.add_sub_cancel_left,
    List.getElem?_append_left hi]

/-- The other bytes stay. -/
theorem patchAt_outside (h : off + bs.length ≤ buf.length) {i : Nat} (hi : i < off ∨ off + bs.length ≤ i) :
    (patchAt buf off bs)[i]? = buf[i]? := by
  have hlen : (buf.take off).length = off := List.length_take_of_le (by omega)
  rcases hi with hi | hi
  · rw [patchAt, List.append_assoc, List.getElem?_append_left (by omega), List.getElem?_take_of_lt hi]
  · rw [patchAt, List.getElem?_append_right (by rw [List.length_append]; omega), List.length_append, hlen, List.getElem?_drop]
    congr 1
    omega

/-- A part before the written bytes. -/
theorem slice_patchAt (h : off ≤ buf.length) {i n : Nat} (hi : i + n ≤ off) :
    ((patchAt buf off bs).drop i).take n = (buf.drop i).take n := by
  have hlen : (buf.take off).length = off := List.length_take_of_le h
  have hmin : min n (off - i) = n := Nat.min_eq_left (by omega)
  rw [patchAt, List.append_assoc, List.drop_append_of_le_length (by omega),
    List.take_append_of_le_length (by rw [List.length_drop]; omega), List.drop_take, List.take_take, hmin]

theorem le_length_patchAt (buf : List UInt8) (off : Nat) (bs : List UInt8) : buf.length ≤ (patchAt buf off bs).length := by
  rw [patchAt, List.length_append, List.length_append, List.length_take, List.length_drop]
  omega

/-- The written bytes in memory. -/
theorem Bytes.patched {m : Mem} {a : Nat} (h : Bytes m a (patchAt buf off bs)) (hoff : off + bs.length ≤ buf.length) :
    Bytes m (a + off) bs := by
  intro i b hi
  have hlt := (List.getElem?_eq_some_iff.1 hi).1
  rw [Nat.add_assoc]
  refine h _ b ?_
  rw [patchAt_inside hoff hlt]
  exact hi

/-- Leading zeros written over. -/
theorem patchAt_append_replicate {pre : List UInt8} {n : Nat} :
    patchAt (pre ++ List.replicate n 0) pre.length bs = pre ++ bs ++ List.replicate (n - bs.length) 0 := by
  have hdrop : (pre ++ List.replicate n 0).drop (pre.length + bs.length) = List.replicate (n - bs.length) (0 : UInt8) := by
    rw [List.drop_length_add_append, List.drop_replicate]
  rw [patchAt, List.take_left, hdrop]

end

end BootPerl
