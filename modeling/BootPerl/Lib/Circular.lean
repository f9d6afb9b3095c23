import Mathlib.Data.List.DropRight
import Mathlib.Data.Nat.ModEq
import Mathlib.Logic.Function.Basic

/-!
# Lists in a circular buffer

A buffer of `n` slots holds a list from a slot on, wrapping at the end. Adding to the tail keeps the list as long as it is shorter
than the buffer, and drops its first element once it is not; taking the head moves the start by one slot. A buffer that is written
to in this way holds the last `n` elements of all that were added.
-/

namespace BootPerl

/-- The `n` slots of `buf`, from the slot `start` on (modulo `n`), hold the list. -/
def Circular {α : Type} (buf : Nat → α) (n start : Nat) (l : List α) : Prop :=
  ∀ i x, l[i]? = some x → buf ((start + i) % n) = x

section
variable {α : Type} {buf : Nat → α} {n start : Nat} {l : List α} {x : α}

theorem circular_nil : Circular buf n start [] := by
  intro i x h
  simp at h

/-- Only the slot counts that a list starts in. -/
theorem Circular.congr_start (h : Circular buf n start l) {start' : Nat} (hs : start' % n = start % n) :
    Circular buf n start' l := by
  intro i x hx
  rw [Nat.add_mod, hs, ← Nat.add_mod]
  exact h i x hx

/-- The first element lies at the start. -/
theorem Circular.head (h : Circular buf n start (x :: l)) : buf (start % n) = x := h 0 x rfl

/-- The other elements lie from the next slot on. -/
theorem Circular.tail (h : Circular buf n start (x :: l)) : Circular buf n (start + 1) l := by
  intro i y hy
  rw [Nat.add_assoc, Nat.add_comm 1 i]
  exact h (i + 1) y hy

/-- Two places less than a turn apart are different slots. -/
theorem add_mod_ne {i j : Nat} (hij : i < j) (hj : j < i + n) : (start + i) % n ≠ (start + j) % n := by
  intro he
  have hmod : i ≡ j [MOD n] := Nat.ModEq.add_left_cancel' start he
  have hle : n ≤ j - i := Nat.le_of_dvd (Nat.sub_pos_of_lt hij) ((Nat.modEq_iff_dvd' (Nat.le_of_lt hij)).1 hmod)
  omega

/-- A slot that holds no element can be written to. -/
theorem Circular.update (h : Circular buf n start l) {k : Nat} (hk : l.length ≤ k) (hn : k < n) (y : α) :
    Circular (Function.update buf ((start + k) % n) y) n start l := by
  intro i x hx
  have hi : i < l.length := (List.getElem?_eq_some_iff.1 hx).1
  rw [Function.update_of_ne (add_mod_ne (by omega) (by omega))]
  exact h i x hx

/-- Where there is room, an element is added at the tail. -/
theorem Circular.push (h : Circular buf n start l) (hlt : l.length < n) (y : α) :
    Circular (Function.update buf ((start + l.length) % n) y) n start (l ++ [y]) := by
  intro i x hx
  rcases Nat.lt_or_ge i l.length with hi | hi
  · rw [List.getElem?_append_left hi] at hx
    exact h.update (Nat.le_refl _) hlt y i x hx
  · rw [List.getElem?_append_right hi, List.getElem?_singleton] at hx
    split at hx
    · rename_i h0
      have he : i = l.length := by omega
      rw [he, Function.update_self]
      exact Option.some.inj hx
    · cases hx

/-- Where there is none, it takes the slot of the first. -/
theorem Circular.rotate (h : Circular buf n start (x :: l)) (hn : (x :: l).length = n) (y : α) :
    Circular (Function.update buf ((start + n) % n) y) n (start + 1) (l ++ [y]) := by
  have hlen : l.length + 1 = n := hn
  have hslot : start + n = start + 1 + l.length := by omega
  rw [hslot]
  exact h.tail.push (by omega) y

/-- The list with an element added, where it may have `n` elements: once it has, the first makes room. -/
def addRecent (n : Nat) (l : List α) (y : α) : List α := if l.length < n then l ++ [y] else l.tail ++ [y]

theorem length_addRecent_le (h : l.length ≤ n) (hn : 0 < n) (y : α) : (addRecent n l y).length ≤ n := by
  unfold addRecent
  split
  · rw [List.length_append, List.length_singleton]
    omega
  · rw [List.length_append, List.length_singleton, List.length_tail]
    omega

/-- The slot after the list takes the element added, and the start moves when the first makes room. -/
theorem Circular.addRecent (h : Circular buf n start l) (hle : l.length ≤ n) (hn : 0 < n) (y : α) :
    Circular (Function.update buf ((start + l.length) % n) y) n (if l.length < n then start else start + 1)
      (BootPerl.addRecent n l y) := by
  unfold BootPerl.addRecent
  split
  · rename_i hlt
    exact h.push hlt y
  · rename_i hfull
    cases l with
    | nil => exact absurd hn hfull
    | cons x l =>
      have hlen : (x :: l).length = n := by omega
      rw [hlen]
      exact h.rotate hlen y

/-- Read from its start on, the buffer gives the list. -/
theorem Circular.read (h : Circular buf n start l) : (List.range l.length).map (fun i => buf ((start + i) % n)) = l := by
  refine List.ext_getElem (by rw [List.length_map, List.length_range]) fun i hi hi' => ?_
  rw [List.getElem_map, List.getElem_range]
  exact h i _ (List.getElem?_eq_getElem hi')

/-- Of all the elements added so far, `l`, the buffer holds the last `n`, and `size` counts them. -/
structure Keeps (buf : Nat → α) (n start size : Nat) (l : List α) : Prop where
  size : size = min n l.length
  held : Circular buf n start (l.rtake n)

theorem length_rtake (n : Nat) (l : List α) : (l.rtake n).length = min n l.length := by
  rw [List.rtake, List.length_drop]
  omega

theorem keeps_nil : Keeps buf n start 0 [] := ⟨(Nat.min_zero n).symm, by rw [List.rtake_nil]; exact circular_nil⟩

variable {size : Nat}

/-- Where there is room, an element is added. -/
theorem Keeps.push (h : Keeps buf n start size l) (hlt : size < n) (y : α) :
    Keeps (Function.update buf ((start + size) % n) y) n start (size + 1) (l ++ [y]) := by
  have hsize := h.size
  have hlen : l.length = size := by omega
  have hwhole : ∀ k : List α, k.length ≤ n → k.rtake n = k := fun k hk => by
    rw [List.rtake, Nat.sub_eq_zero_of_le hk, List.drop_zero]
  have hle : (l ++ [y]).length ≤ n := by
    rw [List.length_append, List.length_singleton]
    omega
  have hheld := h.held
  rw [hwhole l (by omega)] at hheld
  refine ⟨by rw [Nat.min_eq_right hle, List.length_append, List.length_singleton, hlen], ?_⟩
  rw [hwhole _ hle, ← hlen]
  exact hheld.push (by omega) y

/-- Where there is none, it takes the slot of the oldest. -/
theorem Keeps.rotate (h : Keeps buf n start size l) (hn : 0 < n) (hfull : ¬size < n) (y : α) :
    Keeps (Function.update buf ((start + size) % n) y) n (start + 1) size (l ++ [y]) := by
  have hsize := h.size
  have hsn : size = n := by omega
  obtain ⟨m, rfl⟩ := Nat.exists_eq_add_of_le' hn
  obtain ⟨x, k, hk⟩ : ∃ x k, l.rtake (m + 1) = x :: k := by
    refine List.exists_cons_of_ne_nil fun hnil => ?_
    have hlen := length_rtake (m + 1) l
    rw [hnil, List.length_nil] at hlen
    omega
  have hlen : (x :: k).length = m + 1 := by
    rw [← hk, length_rtake]
    omega
  have hlast : l.rtake m = k := by
    have hle : m + 1 ≤ l.length := by omega
    have hdrop : l.drop (l.length - m) = (l.drop (l.length - (m + 1))).drop 1 := by
      rw [List.drop_drop]
      congr 1
      omega
    rw [List.rtake] at hk ⊢
    rw [hdrop, hk, List.drop_succ_cons, List.drop_zero]
  have hheld := h.held
  rw [hk] at hheld
  refine ⟨?_, ?_⟩
  · rw [List.length_append, List.length_singleton]
    omega
  · rw [List.rtake_concat_succ, hlast, hsn]
    exact hheld.rotate hlen y

end

end BootPerl
