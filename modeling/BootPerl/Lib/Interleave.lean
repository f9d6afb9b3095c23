import Mathlib.Data.List.Basic

/-!
# Two parties on one state

Steps of two kinds, each of which reads and changes its own part of a state and leaves the other part alone. In whatever order they
come, each part ends as it does with the steps of its own kind only.
-/

namespace BootPerl

variable {σ α β : Type}

/-- Steps of two kinds that keep apart: `A s t` says that two states have the same part of the first kind, `B s t` that they have
the same part of the second. `P` and `Q` are the steps in question, and `I` is kept by all of them. -/
structure Parties (f : σ → α → σ) (g : σ → β → σ) (P : α → Prop) (Q : β → Prop) (I : σ → Prop) (A B : σ → σ → Prop) : Prop where
  keeps_left : ∀ {s a}, I s → P a → I (f s a)
  keeps_right : ∀ {s b}, I s → Q b → I (g s b)
  own_left : ∀ {s t a}, I s → I t → P a → A s t → A (f s a) (f t a)
  other_left : ∀ {s t a}, I s → P a → B s t → B (f s a) t
  own_right : ∀ {s t b}, I s → I t → Q b → B s t → B (g s b) (g t b)
  other_right : ∀ {s t b}, I s → Q b → A s t → A (g s b) t

/-- A step of either kind. -/
def eitherStep (f : σ → α → σ) (g : σ → β → σ) (s : σ) : α ⊕ β → σ := Sum.elim (f s) (g s)

section
variable {f : σ → α → σ} {g : σ → β → σ} {P : α → Prop} {Q : β → Prop} {I : σ → Prop} {A B : σ → σ → Prop}

/-- All steps keep the invariant. -/
theorem Parties.foldl (h : Parties f g P Q I A B) {l : List (α ⊕ β)} : ∀ {s : σ}, I s → (∀ x ∈ l, Sum.elim P Q x) →
    I (l.foldl (eitherStep f g) s) := by
  induction l with
  | nil => exact fun hs _ => hs
  | cons x l ih =>
    intro s hs hl
    rw [List.forall_mem_cons] at hl
    cases x with
    | inl a => exact ih (h.keeps_left hs hl.1) hl.2
    | inr b => exact ih (h.keeps_right hs hl.1) hl.2

/-- In any order of the steps, each part ends as with the steps of its own kind only. -/
theorem Parties.apart (h : Parties f g P Q I A B) {l : List (α ⊕ β)} : ∀ {s t u : σ}, I s → I t → I u →
    (∀ x ∈ l, Sum.elim P Q x) → A s t → B s u →
    A (l.foldl (eitherStep f g) s) ((l.filterMap Sum.getLeft?).foldl f t) ∧
      B (l.foldl (eitherStep f g) s) ((l.filterMap Sum.getRight?).foldl g u) := by
  induction l with
  | nil => exact fun _ _ _ _ hA hB => ⟨hA, hB⟩
  | cons x l ih =>
    intro s t u hs ht hu hl hA hB
    rw [List.forall_mem_cons] at hl
    cases x with
    | inl a =>
      exact ih (h.keeps_left hs hl.1) (h.keeps_left ht hl.1) hu hl.2 (h.own_left hs ht hl.1 hA) (h.other_left hs hl.1 hB)
    | inr b =>
      exact ih (h.keeps_right hs hl.1) ht (h.keeps_right hu hl.1) hl.2 (h.other_right hs hl.1 hA) (h.own_right hs hu hl.1 hB)

end

end BootPerl
