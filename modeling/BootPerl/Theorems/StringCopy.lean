import BootPerl.Lib.CString
import BootPerl.Perlwrap

/-!
# Copying strings

`strcpy` and `strcat` copy upwards and look for the NUL as they go. Where the copy begins behind the first character of the string and not
behind its NUL, the NUL is overwritten before it is read, and every character read from then on is one that was written.
-/

namespace BootPerl

open Outcome

/-- A copy to `p` of the string of `len` characters at `src` overwrites the NUL before it is read. -/
def Overruns (p src len : Nat) : Prop := src < p ∧ p ≤ src + len

/-- The bytes of a string of `len` characters at `p`. -/
def stringBytes (p len : Nat) : Set Nat := {x | p ≤ x ∧ x ≤ p + len}

section
variable {m m' : Mem} {l : List UInt8}

/-- A string is read from its own bytes. -/
theorem CString.congr : ∀ {p : Nat}, CString m p l → (∀ x ∈ stringBytes p l.length, m'.byte x = m.byte x) → CString m' p l := by
  induction l with
  | nil =>
    intro p h hb
    exact (hb p ⟨Nat.le_refl p, Nat.le_refl p⟩).trans h
  | cons c l ih =>
    intro p h hb
    refine ⟨(hb p ⟨Nat.le_refl p, Nat.le_add_right _ _⟩).trans h.byte_cons, h.ne_zero, ih h.2.2 fun x hx => hb x ?_⟩
    obtain ⟨hlow, hhigh⟩ := hx
    rw [List.length_cons]
    exact ⟨by omega, by omega⟩

/-- A string is as long as it was, and goes on with another. -/
theorem CString.append {d : List UInt8} : ∀ {p : Nat}, CString m p d → (∀ x, x < p + d.length → m'.byte x = m.byte x) →
    CString m' (p + d.length) l → CString m' p (d ++ l) := by
  induction d with
  | nil => exact fun _ _ hl => hl
  | cons c d ih =>
    intro p h hb hl
    rw [List.length_cons, Nat.add_comm d.length, ← Nat.add_assoc] at hb hl
    exact ⟨(hb p (by omega)).trans h.byte_cons, h.ne_zero, ih h.2.2 hb hl⟩

/-- A copy that does not overrun ends, with the string where it was to be, and writes nowhere else. -/
theorem copyString_comes : ∀ {m : Mem} {dest src : Nat}, CString m src l → ¬Overruns dest src l.length → src + l.length < 4294967296 →
    dest + l.length < 4294967296 → ∃ m', Comes (fun fuel => copyString fuel m dest src) (.ok m') ∧ CString m' dest l ∧
      Mem.Frame (stringBytes dest l.length) m m' := by
  induction l with
  | nil =>
    intro m dest src h _ _ _
    have h0 : ¬m.byte src ≠ 0 := not_not.2 h.byte_nil
    refine ⟨m.set dest 0, .turn (fun fuel => by rw [copyString, if_neg h0]) (.const _), if_pos rfl, ?_⟩
    exact Mem.Frame.set ⟨Nat.le_refl _, Nat.le_refl _⟩
  | cons c l ih =>
    intro m dest src h hno hsrc hdest
    have h0 : m.byte src ≠ 0 := by
      rw [h.byte_cons]
      exact h.ne_zero
    rw [List.length_cons] at hno hsrc hdest
    have hrest : CString (m.set dest (m.byte src)) (src + 1) l := by
      refine h.2.2.congr fun x hx => if_neg fun hxd => hno ?_
      obtain ⟨hlow, hhigh⟩ := hx
      exact ⟨by omega, by omega⟩
    obtain ⟨m', hcomes, hcopy, hframe⟩ := @ih (m.set dest (m.byte src)) (dest + 1) (src + 1) hrest
      (fun hover => hno ⟨Nat.lt_of_succ_lt_succ hover.1, by have := hover.2; omega⟩) (by omega) (by omega)
    refine ⟨m', .turn (fun fuel => ?_) hcomes, ⟨?_, h.ne_zero, hcopy⟩, ?_⟩
    · rw [copyString, if_pos h0, Nat.mod_eq_of_lt (by omega), Nat.mod_eq_of_lt (by omega)]
    · have hout : dest ∉ stringBytes (dest + 1) l.length := fun hx => absurd hx.1 (Nat.not_succ_le_self dest)
      rw [(hframe dest hout).1]
      exact (if_pos rfl).trans h.byte_cons
    · have hfirst : Mem.Frame (stringBytes dest (l.length + 1)) m (m.set dest (m.byte src)) :=
        Mem.Frame.set ⟨Nat.le_refl _, Nat.le_add_right _ _⟩
      refine hfirst.trans (hframe.mono fun x hx => ?_)
      obtain ⟨hlow, hhigh⟩ := hx
      exact ⟨by omega, by omega⟩

end

/-- Between what is read and what is written there are `k` bytes, none of them NUL: so it stays, and the copy goes on for ever. -/
theorem copyString_running {k : Nat} (hk : 0 < k) (hk' : k < 4294967296) (fuel : Nat) : ∀ {m : Mem} {src : Nat}, src < 4294967296 →
    (∀ i < k, m.byte ((src + i) % 4294967296) ≠ 0) → copyString fuel m ((src + k) % 4294967296) src = .running := by
  induction fuel with
  | zero => exact fun _ _ => rfl
  | succ fuel ih =>
    intro m src hsrc h
    have h0 : m.byte src ≠ 0 := by
      have hfirst := h 0 hk
      rwa [Nat.add_zero, Nat.mod_eq_of_lt hsrc] at hfirst
    have hdest : ((src + k) % 4294967296 + 1) % 4294967296 = ((src + 1) % 4294967296 + k) % 4294967296 := by omega
    rw [copyString, if_pos h0, hdest]
    refine ih (Nat.mod_lt _ (by decide)) fun i hi => ?_
    by_cases hwritten : ((src + 1) % 4294967296 + i) % 4294967296 = (src + k) % 4294967296
    · rw [hwritten]
      exact fun hz => h0 ((if_pos rfl).symm.trans hz)
    · have hnext : ((src + 1) % 4294967296 + i) % 4294967296 = (src + (i + 1)) % 4294967296 := by omega
      have hlt : i + 1 < k := by
        rcases Nat.lt_or_ge (i + 1) k with hlt | hge
        · exact hlt
        · obtain rfl : k = i + 1 := Nat.le_antisymm hge hi
          exact absurd hnext hwritten
      have hold := h (i + 1) hlt
      rw [← hnext] at hold
      exact fun hz => hold ((if_neg hwritten).symm.trans hz)

/-- A copy that overruns goes on for ever. -/
theorem copyString_overruns {m : Mem} {dest src : Nat} {l : List UInt8} (h : CString m src l) (hsrc : src + l.length < 4294967296)
    (hover : Overruns dest src l.length) (fuel : Nat) : copyString fuel m dest src = .running := by
  obtain ⟨hlow, hhigh⟩ := hover
  obtain ⟨k, rfl⟩ := Nat.exists_eq_add_of_lt hlow
  have hrun := @copyString_running (k + 1) (Nat.succ_pos k) (by omega) fuel m src (by omega) fun i hi => by
    have hi' : i < l.length := by omega
    rw [Nat.mod_eq_of_lt (by omega), h.byte_eq (List.getElem?_eq_getElem hi')]
    exact h.ne_zero_of_mem _ (List.getElem_mem hi')
  rwa [Nat.mod_eq_of_lt (by omega)] at hrun

/-- The end of a string is its NUL. -/
theorem stringEnd_comes {m : Mem} {d : List UInt8} : ∀ {p : Nat}, CString m p d → p + d.length < 4294967296 →
    Comes (fun fuel => stringEnd fuel m p) (.ok (p + d.length)) := by
  induction d with
  | nil =>
    intro p h _
    have h0 : ¬m.byte p ≠ 0 := not_not.2 h.byte_nil
    exact .turn (fun fuel => by rw [stringEnd, if_neg h0]; rfl) (.const _)
  | cons c d ih =>
    intro p h hlt
    have h0 : m.byte p ≠ 0 := by
      rw [h.byte_cons]
      exact h.ne_zero
    rw [List.length_cons, Nat.add_comm d.length, ← Nat.add_assoc] at hlt ⊢
    exact .turn (fun fuel => by rw [stringEnd, if_pos h0, Nat.mod_eq_of_lt (by omega)]) (ih h.2.2 hlt)

/-- The loop to the end of a string comes nowhere else. -/
theorem stringEnd_cases {m : Mem} {d : List UInt8} (fuel : Nat) : ∀ {p : Nat}, CString m p d → p + d.length < 4294967296 →
    stringEnd fuel m p = .running ∨ stringEnd fuel m p = .ok (p + d.length) := by
  induction d generalizing fuel with
  | nil =>
    intro p h _
    cases fuel with
    | zero => exact Or.inl rfl
    | succ fuel =>
      rw [stringEnd, if_neg (not_not.2 h.byte_nil)]
      exact Or.inr rfl
  | cons c d ih =>
    intro p h hlt
    cases fuel with
    | zero => exact Or.inl rfl
    | succ fuel =>
      have h0 : m.byte p ≠ 0 := by
        rw [h.byte_cons]
        exact h.ne_zero
      rw [List.length_cons, Nat.add_comm d.length, ← Nat.add_assoc] at hlt ⊢
      rw [stringEnd, if_pos h0, Nat.mod_eq_of_lt (by omega)]
      exact ih fuel h.2.2 hlt

/-- A call without an end, whatever the fuel. -/
def NeverEnds {α : Type} (f : Nat → Outcome α) : Prop := ∀ fuel, f fuel = .running

/-- For every string: `strcpy`, and `strcat` behind every other string, leave the copy where it was to be and write nowhere else, unless
the copy begins behind the first character of the string and not behind its NUL; then they never end. -/
theorem string_copies {m : Mem} {src : Nat} {l : List UInt8} (h : CString m src l) (hsrc : src + l.length < 4294967296) (dest : Nat) :
    (dest + l.length < 4294967296 →
      (Overruns dest src l.length → NeverEnds fun fuel => strcpy fuel m dest src) ∧
      (¬Overruns dest src l.length → ∃ m', Comes (fun fuel => strcpy fuel m dest src) (.ok (m', dest)) ∧ CString m' dest l ∧
        Mem.Frame (stringBytes dest l.length) m m')) ∧
    ∀ d : List UInt8, CString m dest d → dest + d.length + l.length < 4294967296 →
      (Overruns (dest + d.length) src l.length → NeverEnds fun fuel => strcat fuel m dest src) ∧
      (¬Overruns (dest + d.length) src l.length → ∃ m', Comes (fun fuel => strcat fuel m dest src) (.ok (m', dest)) ∧
        CString m' dest (d ++ l) ∧ Mem.Frame (stringBytes (dest + d.length) l.length) m m') := by
  refine ⟨fun hdest => ⟨fun hover fuel => ?_, fun hno => ?_⟩, fun d hd hdest => ⟨fun hover fuel => ?_, fun hno => ?_⟩⟩
  · dsimp only
    rw [strcpy, copyString_overruns h hsrc hover]
    rfl
  · obtain ⟨m', hcomes, hcopy, hframe⟩ := copyString_comes h hno hsrc hdest
    exact ⟨m', hcomes.bind (.const _), hcopy, hframe⟩
  · dsimp only
    rw [strcat]
    rcases stringEnd_cases fuel hd (Nat.lt_of_le_of_lt (Nat.le_add_right _ _) hdest) with hrun | hend
    · rw [hrun]
      rfl
    · rw [hend, bind_ok, copyString_overruns h hsrc hover]
      rfl
  · have hend := stringEnd_comes hd (Nat.lt_of_le_of_lt (Nat.le_add_right _ _) hdest)
    obtain ⟨m', hcomes, hcopy, hframe⟩ := copyString_comes h hno hsrc hdest
    refine ⟨m', hend.bind (hcomes.bind (.const _)), hd.append (fun x hx => (hframe x fun hin => ?_).1) hcopy, hframe⟩
    exact absurd hin.1 (Nat.not_le.2 hx)

/-- `ab` at 16. -/
def copiedText : Mem := ⟨fun a => if a = 16 then 97 else if a = 17 then 98 else 0, fun _ => false⟩

theorem cString_copiedText : CString copiedText 16 [97, 98] := by simp [CString, copiedText]

/-- A copy to 64, and a string behind itself. -/
theorem string_copies_ab : (∃ m', Comes (fun fuel => strcpy fuel copiedText 64 16) (.ok (m', 64)) ∧ CString m' 64 [97, 98] ∧
      Mem.Frame (stringBytes 64 2) copiedText m') ∧ NeverEnds fun fuel => strcat fuel copiedText 16 16 :=
  ⟨((string_copies cString_copiedText (by decide) 64).1 (by decide)).2 fun h => absurd h.2 (by decide),
    ((string_copies cString_copiedText (by decide) 16).2 _ cString_copiedText (by decide)).1 ⟨by decide, by decide⟩⟩

end BootPerl
