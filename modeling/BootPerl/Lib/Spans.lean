import Mathlib.Data.List.Basic

/-!
# Spans

The longest beginning of a list whose elements all have a property: it exists, and there is one only.
-/

namespace BootPerl

variable {α : Type}

/-- A list is empty, or goes on with an element without the property. -/
def StopsAt (p : α → Prop) (l : List α) : Prop := ∀ c ∈ l.head?, ¬p c

theorem stopsAt_nil (p : α → Prop) : StopsAt p [] := fun _ h => nomatch h

theorem stopsAt_cons {p : α → Prop} {c : α} {l : List α} : StopsAt p (c :: l) ↔ ¬p c := by
  constructor
  · exact fun h => h c rfl
  · rintro h d hd
    obtain rfl := Option.some.inj hd
    exact h

/-- Every list begins with a span. -/
theorem exists_span (p : α → Prop) [DecidablePred p] (l : List α) : ∃ a u, l = a ++ u ∧ (∀ c ∈ a, p c) ∧ StopsAt p u := by
  induction l with
  | nil => exact ⟨[], [], rfl, fun _ h => absurd h List.not_mem_nil, stopsAt_nil p⟩
  | cons c l ih =>
    by_cases hc : p c
    · obtain ⟨a, u, rfl, ha, hu⟩ := ih
      exact ⟨c :: a, u, rfl, List.forall_mem_cons.2 ⟨hc, ha⟩, hu⟩
    · exact ⟨[], c :: l, rfl, fun _ h => absurd h List.not_mem_nil, stopsAt_cons.2 hc⟩

/-- What has the property throughout is a beginning of the span. -/
theorem span_prefix {p : α → Prop} {a : List α} : ∀ {b u v : List α}, (∀ c ∈ a, p c) → StopsAt p v → a ++ u = b ++ v → a <+: b := by
  induction a with
  | nil => exact fun _ _ _ => List.nil_prefix
  | cons c a ih =>
    intro b u v ha hv h
    obtain ⟨hc, ha⟩ := List.forall_mem_cons.1 ha
    cases b with
    | nil =>
      rw [List.nil_append] at h
      rw [← h, List.cons_append, stopsAt_cons] at hv
      exact absurd hc hv
    | cons d b =>
      obtain ⟨rfl, htail⟩ := List.cons.inj h
      exact List.cons_prefix_cons.2 ⟨rfl, ih ha hv htail⟩

/-- A list begins with one span. -/
theorem span_unique {p : α → Prop} {a b u v : List α} (ha : ∀ c ∈ a, p c) (hb : ∀ c ∈ b, p c) (hu : StopsAt p u) (hv : StopsAt p v)
    (h : a ++ u = b ++ v) : a = b ∧ u = v := by
  have hab := span_prefix ha hv h
  have hba := span_prefix hb hu h.symm
  obtain rfl := hab.eq_of_length_le hba.length_le
  exact ⟨rfl, List.append_cancel_left h⟩

end BootPerl
