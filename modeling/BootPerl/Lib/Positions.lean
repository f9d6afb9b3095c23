import Mathlib.Data.List.Basic

/-!
# Where something stands in a list

The index that is chosen of those at which a property holds: the first one, or the last one.
-/

namespace BootPerl

/-- Of the indices at which `P` holds in `l`, one before which, in the order `R`, there is no other; none where `P` holds nowhere. -/
def Chosen {α : Type} (R : Nat → Nat → Prop) (P : α → Prop) (l : List α) : Option Nat → Prop
  | none => ∀ x ∈ l, ¬P x
  | some i => (∃ x, l[i]? = some x ∧ P x) ∧ ∀ j x, l[j]? = some x → P x → ¬R j i

/-- The first index at which `P` holds. -/
abbrev FirstIn {α : Type} (P : α → Prop) (l : List α) (r : Option Nat) : Prop := Chosen (· < ·) P l r

/-- The last index at which `P` holds. -/
abbrev LastIn {α : Type} (P : α → Prop) (l : List α) (r : Option Nat) : Prop := Chosen (· > ·) P l r

section
variable {α : Type} {R : Nat → Nat → Prop} {P Q : α → Prop} {l : List α} {x : α} {r : Option Nat}

/-- Only the elements of the list matter. -/
theorem Chosen.congr (h : Chosen R P l r) (hPQ : ∀ x ∈ l, P x ↔ Q x) : Chosen R Q l r := by
  cases r with
  | none => exact fun x hx hQ => h x hx ((hPQ x hx).2 hQ)
  | some i =>
    obtain ⟨⟨x, hx, hP⟩, hbefore⟩ := h
    exact ⟨⟨x, hx, (hPQ x (List.mem_of_getElem? hx)).1 hP⟩, fun j y hy hQ =>
      hbefore j y hy ((hPQ y (List.mem_of_getElem? hy)).2 hQ)⟩

/-- Where `P` holds nowhere, there is none. -/
theorem Chosen.eq_none (h : Chosen R P l r) (hP : ∀ x ∈ l, ¬P x) : r = none := by
  cases r with
  | none => rfl
  | some i =>
    obtain ⟨⟨x, hx, hPx⟩, -⟩ := h
    exact absurd hPx (hP x (List.mem_of_getElem? hx))

/-- One more element at the end, at which `P` does not hold, changes nothing. -/
theorem Chosen.concat (h : Chosen R P l r) (hx : ¬P x) : Chosen R P (l ++ [x]) r := by
  cases r with
  | none =>
    intro y hy
    rcases List.mem_append.1 hy with hy | hy
    · exact h y hy
    · rwa [List.mem_singleton.1 hy]
  | some i =>
    obtain ⟨⟨y, hy, hP⟩, hbefore⟩ := h
    refine ⟨⟨y, ?_, hP⟩, fun j z hz hPz => ?_⟩
    · rw [List.getElem?_append_left (List.getElem?_eq_some_iff.1 hy).1, hy]
    · rcases Nat.lt_or_ge j l.length with hj | hj
      · rw [List.getElem?_append_left hj] at hz
        exact hbefore j z hz hPz
      · rw [List.getElem?_append_right hj] at hz
        have hzx := List.mem_singleton.1 (List.mem_of_getElem? hz)
        exact absurd (hzx ▸ hPz) hx

/-- One more element in front, at which `P` does not hold, moves the index. -/
theorem Chosen.cons (hR : ∀ {i j}, R (i + 1) (j + 1) → R i j) (h : Chosen R P l r) (hx : ¬P x) :
    Chosen R P (x :: l) (r.map (· + 1)) := by
  cases r with
  | none =>
    intro y hy
    rcases List.mem_cons.1 hy with rfl | hy
    · exact hx
    · exact h y hy
  | some i =>
    obtain ⟨⟨y, hy, hP⟩, hbefore⟩ := h
    refine ⟨⟨y, by rwa [List.getElem?_cons_succ], hP⟩, fun j z hz hPz hj => ?_⟩
    cases j with
    | zero => exact absurd (Option.some.inj hz ▸ hPz) hx
    | succ j => exact hbefore j z hz hPz (hR hj)

/-- The first element is the first. -/
theorem firstIn_cons (hx : P x) : FirstIn P (x :: l) (some 0) :=
  ⟨⟨x, rfl, hx⟩, fun j _ _ _ => Nat.not_lt_zero j⟩

/-- The first element is the last if `P` holds nowhere after it, and another one is the last otherwise. -/
theorem lastIn_cons (hx : P x) (h : LastIn P l r) : LastIn P (x :: l) (some (r.elim 0 (· + 1))) := by
  cases r with
  | none =>
    refine ⟨⟨x, rfl, hx⟩, fun j y hy hPy hj => ?_⟩
    cases j with
    | zero => exact absurd hj (Nat.lt_irrefl 0)
    | succ j => exact h y (List.mem_of_getElem? hy) hPy
  | some i =>
    obtain ⟨⟨y, hy, hP⟩, hbefore⟩ := h
    refine ⟨⟨y, by rwa [Option.elim_some, List.getElem?_cons_succ], hP⟩, fun j z hz hPz hj => ?_⟩
    cases j with
    | zero => exact absurd hj (Nat.not_lt_zero _)
    | succ j => exact hbefore j z hz hPz (Nat.lt_of_succ_lt_succ hj)

end

end BootPerl
