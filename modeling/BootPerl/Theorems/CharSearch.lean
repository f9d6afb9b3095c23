import BootPerl.Lemmas.Console
import BootPerl.Lib.CString
import BootPerl.Lib.Positions
import BootPerl.Perlwrap

/-!
# Searching for a character

`strchr`, `strrchr` and `memchr` compare a signed character with the `int` that they are given. No character has a value outside
-128 to 127; the searches of a string end before its NUL.
-/

namespace BootPerl

open Mem Outcome

/-- An `int` that is the value of a character. -/
def IsCharValue (c : Int) : Prop := -128 ≤ c ∧ c ≤ 127

/-- The `n` bytes at `s`. -/
def blockBytes (m : Mem) (s n : Nat) : List UInt8 := (List.range n).map fun i => m.byte ((s + i) % 4294967296)

/-- `strchr` returns the first position of the character, the NUL included. -/
def StrchrFinds (m : Mem) (p : Nat) (s : List UInt8) (c : Int) : Prop :=
  ∃ r, Comes (fun fuel => strchr fuel m p c) (.ok (r.map (p + ·))) ∧ FirstIn (· = uchar c) (s ++ [0]) r

/-- `strrchr` returns the last position of the character, the NUL included. -/
def StrrchrFinds (m : Mem) (p : Nat) (s : List UInt8) (c : Int) : Prop :=
  ∃ r, Comes (fun fuel => strrchr fuel m p c) (.ok (r.map (p + ·))) ∧ LastIn (· = uchar c) (s ++ [0]) r

/-- `memchr` returns the first position of the byte. -/
def MemchrFinds (m : Mem) (p n : Nat) (c : Int) : Prop :=
  ∃ r, memchr m p c n = r.map (fun i => (p + i) % 4294967296) ∧ FirstIn (· = uchar c) (blockBytes m p n) r

/-! ## What the loops find -/

/-- A character has the value `c` when it is the byte of `c`, provided that `c` is the value of a character. -/
theorem signedChar_eq_uchar_iff {c : Int} (hc : IsCharValue c) (b : UInt8) : signedChar b = c ↔ b = uchar c := by
  obtain ⟨hlow, hhigh⟩ := hc
  have hb := b.toNat_lt
  rw [← UInt8.toNat_inj, uchar, UInt8.toNat_ofNat', signedChar]
  split <;> omega

/-- Every character has the value of one. -/
theorem isCharValue_signedChar (b : UInt8) : IsCharValue (signedChar b) := by
  have hb := b.toNat_lt
  unfold IsCharValue signedChar
  split <;> omega

/-- `strchr` finds the first character with the value. -/
theorem strchr_comes {m : Mem} {c : Int} {s : List UInt8} : ∀ {p : Nat}, CString m p s →
    ∃ r, Comes (fun fuel => strchr fuel m p c) (.ok (r.map (p + ·))) ∧ FirstIn (signedChar · = c) s r := by
  induction s with
  | nil =>
    intro p h
    refine ⟨none, ⟨1, fun fuel hfuel => ?_⟩, fun x hx => absurd hx List.not_mem_nil⟩
    obtain ⟨fuel, rfl⟩ := Nat.exists_eq_add_of_le' hfuel
    simp [strchr, h.byte_nil, signedChar]
  | cons x s ih =>
    intro p h
    have hx : signedChar (m.byte p) ≠ 0 := by
      rw [h.byte_cons, Ne, signedChar_eq_zero_iff]
      exact h.ne_zero
    by_cases hc : signedChar x = c
    · refine ⟨some 0, ⟨1, fun fuel hfuel => ?_⟩, firstIn_cons hc⟩
      obtain ⟨fuel, rfl⟩ := Nat.exists_eq_add_of_le' hfuel
      dsimp only
      rw [strchr, if_pos hx, h.byte_cons, if_pos hc]
      rfl
    · obtain ⟨r, ⟨k, hk⟩, hr⟩ := ih h.2.2
      refine ⟨r.map (· + 1), ⟨k + 1, fun fuel hfuel => ?_⟩, hr.cons Nat.lt_of_succ_lt_succ hc⟩
      obtain ⟨fuel, rfl⟩ := Nat.exists_eq_add_of_le' (Nat.le_trans (Nat.le_add_left 1 k) hfuel)
      dsimp only
      rw [strchr, if_pos hx, h.byte_cons, if_neg hc, Option.map_map]
      refine (hk fuel (by omega)).trans ?_
      congr 2
      exact funext fun i => by dsimp only [Function.comp]; omega

/-- `strrchr` finds the last character with the value, and keeps its match where there is none. -/
theorem strrchrFrom_comes {m : Mem} {c : Int} {s : List UInt8} : ∀ {p : Nat} {matched : Option Nat}, CString m p s →
    ∃ r, Comes (fun fuel => strrchrFrom fuel m p c matched) (.ok ((r.map (p + ·)).or matched)) ∧ LastIn (signedChar · = c) s r := by
  induction s with
  | nil =>
    intro p matched h
    refine ⟨none, ⟨1, fun fuel hfuel => ?_⟩, fun x hx => absurd hx List.not_mem_nil⟩
    obtain ⟨fuel, rfl⟩ := Nat.exists_eq_add_of_le' hfuel
    simp [strrchrFrom, h.byte_nil, signedChar]
  | cons x s ih =>
    intro p matched h
    have hx : signedChar (m.byte p) ≠ 0 := by
      rw [h.byte_cons, Ne, signedChar_eq_zero_iff]
      exact h.ne_zero
    obtain ⟨r, ⟨k, hk⟩, hr⟩ := @ih (p + 1) (if signedChar x = c then some p else matched) h.2.2
    have hnext : ∀ fuel, k + 1 ≤ fuel → strrchrFrom fuel m p c matched =
        .ok ((r.map (p + 1 + ·)).or (if signedChar x = c then some p else matched)) := by
      intro fuel hfuel
      obtain ⟨fuel, rfl⟩ := Nat.exists_eq_add_of_le' (Nat.le_trans (Nat.le_add_left 1 k) hfuel)
      rw [strrchrFrom, if_pos hx, h.byte_cons]
      exact hk fuel (by omega)
    by_cases hc : signedChar x = c
    · refine ⟨some (r.elim 0 (· + 1)), ⟨k + 1, fun fuel hfuel => ?_⟩, lastIn_cons hc hr⟩
      dsimp only
      rw [hnext fuel hfuel, if_pos hc]
      cases r with
      | none => rfl
      | some i => simp [Nat.add_comm 1, Nat.add_assoc]
    · refine ⟨r.map (· + 1), ⟨k + 1, fun fuel hfuel => ?_⟩, hr.cons Nat.lt_of_succ_lt_succ hc⟩
      dsimp only
      rw [hnext fuel hfuel, if_neg hc]
      cases r with
      | none => rfl
      | some i => simp [Nat.add_comm 1, Nat.add_assoc]

/-- `memchr` finds the first byte whose character has the value. -/
theorem memchrFrom_finds (m : Mem) (p : Nat) (c : Int) (left : Nat) : ∀ i, ∃ r,
    memchrFrom m p c left i = r.map (fun j => (p + (i + j)) % 4294967296) ∧
      FirstIn (signedChar · = c) ((List.range' i left).map fun j => m.byte ((p + j) % 4294967296)) r := by
  induction left with
  | zero => exact fun i => ⟨none, rfl, fun x hx => absurd hx List.not_mem_nil⟩
  | succ left ih =>
    intro i
    rw [memchrFrom, List.range'_succ, List.map_cons]
    by_cases hc : signedChar (m.byte ((p + i) % 4294967296)) = c
    · exact ⟨some 0, if_pos hc, firstIn_cons hc⟩
    · obtain ⟨r, hr, hfirst⟩ := ih (i + 1)
      refine ⟨r.map (· + 1), ?_, hfirst.cons Nat.lt_of_succ_lt_succ hc⟩
      rw [if_neg hc, hr, Option.map_map]
      congr 1
      exact funext fun j => by rw [Function.comp, Nat.add_right_comm i 1 j, Nat.add_assoc i j 1]

theorem memchr_finds (m : Mem) (p n : Nat) (c : Int) : ∃ r, memchr m p c n = r.map (fun i => (p + i) % 4294967296) ∧
    FirstIn (signedChar · = c) (blockBytes m p n) r := by
  obtain ⟨r, hr, hfirst⟩ := memchrFrom_finds m p c n 0
  simp only [Nat.zero_add] at hr
  rw [← List.range_eq_range'] at hfirst
  exact ⟨r, hr, hfirst⟩

/-! ## What is found is what is sought -/

section
variable {R : Nat → Nat → Prop} {l : List UInt8} {c : Int} {r : Option Nat}

/-- For the value of a character, what is found is what is sought. -/
theorem Chosen.of_charValue (h : Chosen R (signedChar · = c) l r) (hc : IsCharValue c) : Chosen R (· = uchar c) l r :=
  h.congr fun x _ => signedChar_eq_uchar_iff hc x

/-- For any other `int` nothing is found. -/
theorem Chosen.eq_none_of_not (h : Chosen R (signedChar · = c) l r) (hc : ¬IsCharValue c) : r = none :=
  h.eq_none fun x _ hx => hc (hx ▸ isCharValue_signedChar x)

/-- What is found in a block is what is sought, for the value of a character or for a byte that is not there. -/
theorem chosen_block_iff (h : Chosen R (signedChar · = c) l r) : Chosen R (· = uchar c) l r ↔ IsCharValue c ∨ uchar c ∉ l := by
  by_cases hc : IsCharValue c
  · exact iff_of_true (h.of_charValue hc) (Or.inl hc)
  · rw [h.eq_none_of_not hc, or_iff_right hc]
    exact ⟨fun hnone hmem => hnone _ hmem rfl, fun hmem x hx he => hmem (he ▸ hx)⟩

/-- What is found in a string is what is sought in it and in its NUL, unless the NUL itself is sought. -/
theorem chosen_string_iff (h : Chosen R (signedChar · = c) l r) (h0 : ∀ x ∈ l, x ≠ 0) :
    Chosen R (· = uchar c) (l ++ [0]) r ↔ uchar c ≠ 0 ∧ (IsCharValue c ∨ uchar c ∉ l) := by
  constructor
  · intro hfound
    have hnone : r = none → uchar c ∉ l ++ [0] := by
      rintro rfl hmem
      exact hfound _ hmem rfl
    have hne : uchar c ≠ 0 := by
      intro hz
      -- the loop ends before the NUL
      have hr : r = none := by
        by_cases hc : IsCharValue c
        · exact (h.of_charValue hc).eq_none fun x hx he => h0 x hx (he.trans hz)
        · exact h.eq_none_of_not hc
      exact hnone hr (List.mem_append_right l (List.mem_singleton.2 hz))
    refine ⟨hne, or_iff_not_imp_left.2 fun hc hmem => ?_⟩
    exact hnone (h.eq_none_of_not hc) (List.mem_append_left [0] hmem)
  · rintro ⟨hne, hc⟩
    exact ((chosen_block_iff h).2 hc).concat (Ne.symm hne)

end

/-- A search of a string returns what is sought exactly if this is not the NUL, and is the value of a character or not there. -/
theorem string_search_iff {m : Mem} {p : Nat} {s : List UInt8} (h : CString m p s) {R : Nat → Nat → Prop} {c : Int}
    {f : Nat → Outcome (Option Nat)} {r : Option Nat} (hr : Comes f (.ok (r.map (p + ·)))) (hfirst : Chosen R (signedChar · = c) s r) :
    (∃ r', Comes f (.ok (r'.map (p + ·))) ∧ Chosen R (· = uchar c) (s ++ [0]) r') ↔ uchar c ≠ 0 ∧ (IsCharValue c ∨ uchar c ∉ s) := by
  rw [← chosen_string_iff hfirst h.ne_zero_of_mem]
  constructor
  · rintro ⟨r', hr', hfound⟩
    have he : r = r' := Option.map_injective (fun _ _ => Nat.add_left_cancel) (hr.ok_inj hr')
    rwa [he]
  · exact fun hfound => ⟨r, hr, hfound⟩

theorem strchr_finds_iff {m : Mem} {p : Nat} {s : List UInt8} (h : CString m p s) (c : Int) :
    StrchrFinds m p s c ↔ uchar c ≠ 0 ∧ (IsCharValue c ∨ uchar c ∉ s) := by
  obtain ⟨r, hr, hfirst⟩ := @strchr_comes m c s p h
  exact string_search_iff h hr hfirst

theorem strrchr_finds_iff {m : Mem} {p : Nat} {s : List UInt8} (h : CString m p s) (c : Int) :
    StrrchrFinds m p s c ↔ uchar c ≠ 0 ∧ (IsCharValue c ∨ uchar c ∉ s) := by
  obtain ⟨r, hr, hlast⟩ := @strrchrFrom_comes m c s p none h
  rw [Option.or_none] at hr
  exact string_search_iff h hr hlast

/-- `memchr` finds what is sought exactly if it is the value of a character or not there. -/
theorem memchr_finds_iff (m : Mem) (p n : Nat) (c : Int) : MemchrFinds m p n c ↔ IsCharValue c ∨ uchar c ∉ blockBytes m p n := by
  obtain ⟨r, hr, hfirst⟩ := memchr_finds m p n c
  constructor
  · rintro ⟨r', hr', hfound⟩
    refine or_iff_not_imp_left.2 fun hc hmem => ?_
    -- nothing is found, so nothing may be there
    have hnone : r' = none := by
      rw [hr, hfirst.eq_none_of_not hc, Option.map_none] at hr'
      exact Option.map_eq_none_iff.1 hr'.symm
    rw [hnone] at hfound
    exact hfound _ hmem rfl
  · exact fun hc => ⟨r, hr, (chosen_block_iff hfirst).2 hc⟩

/-- `strchr` and `strrchr` find every character of a string and its NUL exactly when it is not the NUL that is sought, and the `int` is the
value of a character or the string does not hold its byte. `memchr` finds every byte of a block under the second condition. -/
theorem char_search_iff {m : Mem} {p : Nat} {s : List UInt8} (h : CString m p s) (c : Int) (q n : Nat) :
    (StrchrFinds m p s c ↔ uchar c ≠ 0 ∧ (IsCharValue c ∨ uchar c ∉ s)) ∧
      (StrrchrFinds m p s c ↔ uchar c ≠ 0 ∧ (IsCharValue c ∨ uchar c ∉ s)) ∧
      (MemchrFinds m q n c ↔ IsCharValue c ∨ uchar c ∉ blockBytes m q n) :=
  ⟨strchr_finds_iff h c, strrchr_finds_iff h c, memchr_finds_iff m q n c⟩

/-- A memory that holds, at 16, an "n" and the letter that Latin-1 has at 233. -/
def accented : Mem where
  byte a := if a = 16 then 110 else if a = 17 then 233 else 0
  dirty _ := false

theorem cString_accented : CString accented 16 [110, 233] := by simp [CString, accented]

/-- As the value of a character, the letter at 233 is found. -/
theorem char_search_iff_accented : StrchrFinds accented 16 [110, 233] (-23) ∧ StrrchrFinds accented 16 [110, 233] (-23) ∧
    MemchrFinds accented 16 2 (-23) := by
  obtain ⟨hfirst, hlast, hblock⟩ := char_search_iff cString_accented (-23) 16 2
  exact ⟨hfirst.2 (by unfold IsCharValue; decide), hlast.2 (by unfold IsCharValue; decide), hblock.2 (by unfold IsCharValue; decide)⟩

/-- As an unsigned character it is not, and neither is the NUL. -/
theorem char_search_false : CString accented 16 [110, 233] ∧ ¬StrchrFinds accented 16 [110, 233] 233 ∧
    ¬StrchrFinds accented 16 [110, 233] 0 ∧ ¬StrrchrFinds accented 16 [110, 233] 233 ∧ ¬MemchrFinds accented 16 2 233 := by
  rw [strchr_finds_iff cString_accented, strchr_finds_iff cString_accented, strrchr_finds_iff cString_accented, memchr_finds_iff]
  unfold IsCharValue
  exact ⟨cString_accented, by decide, by decide, by decide, by decide⟩

end BootPerl
