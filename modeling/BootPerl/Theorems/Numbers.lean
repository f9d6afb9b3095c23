import BootPerl.Lemmas.Vsprintf

/-!
# Formatted numbers

`do_div` divides a number of 64 bits in two steps, neither of which can fault. What `number()` makes of a number with it is read back as
the number, and fills its field.
-/

namespace BootPerl

/-! ## Division -/

/-- The upper word that `do_div` leaves for `divl`. -/
def upperWord (n base : Nat) : Nat := if n / 4294967296 ≠ 0 then n / 4294967296 % base else n / 4294967296

/-- For every number of 64 bits `do_div` leaves the quotient and yields the remainder, and the quotient of its `divl` is no more than
32 bits long. -/
theorem two_step_division (n : BitVec 64) {base : Nat} (hb : 2 ≤ base) :
    doDiv n.toNat base = some (n.toNat / base, n.toNat % base) ∧
      (upperWord n.toNat base * 4294967296 + n.toNat % 4294967296) / base < 4294967296 ∧
      divl (upperWord n.toNat base) (n.toNat % 4294967296) base ≠ none := by
  have hpos : 0 < base := by omega
  have hupper : upperWord n.toNat base < base := by
    unfold upperWord
    split
    · exact Nat.mod_lt _ hpos
    · omega
  have hfits := div_limb_lt hupper (Nat.mod_lt n.toNat (by decide : 0 < 4294967296))
  refine ⟨doDiv_eq hpos n.toNat, hfits, ?_⟩
  unfold divl
  dsimp only
  rw [if_neg (not_or.2 ⟨Nat.ne_of_gt hpos, Nat.not_le.2 hfits⟩)]
  exact Option.some_ne_none _

/-- The largest number, in the base that needs the most digits. -/
theorem two_step_division_largest : doDiv 18446744073709551615 2 = some (9223372036854775807, 1) :=
  (two_step_division (BitVec.allOnes 64) (by decide)).1

/-! ## The text of a number -/

/-- The number that is meant: signed under the flag `SIGN`. -/
def numberValue (num : BitVec 64) (type : Flags) : Int := if type.sign then num.toInt else num.toNat

/-- How the sign is shown. -/
def shownSign (value : Int) (type : Flags) : List Char :=
  if value < 0 then ['-'] else if type.sign ∧ type.plus then ['+'] else if type.sign ∧ type.space then [' '] else []

/-- How the base is shown. -/
def shownBase (base : Nat) (type : Flags) : List Char :=
  if type.special ∧ base = 8 then ['0'] else if type.special ∧ base = 16 then ['0', if type.large then 'X' else 'x'] else []

/-- What `number()` should write: blanks, the sign, the base, zeros, the digits of the magnitude, and blanks. -/
def IsNumberText (value : Int) (base : Nat) (type : Flags) (t : List Char) : Prop :=
  ∃ lead zeros trail, t = List.replicate lead ' ' ++ shownSign value type ++ shownBase base type ++ List.replicate zeros '0' ++
    numeral (digitSymbol type.large) base value.natAbs ++ List.replicate trail ' '

/-- The value of a digit, in small or in large letters. -/
def digitValue (c : Char) : Nat := if c.isDigit then c.toNat - 48 else if c.isUpper then c.toNat - 55 else c.toNat - 87

/-- Skip what shows the base, and read digits up to the next blank. -/
def readDigits (base : Nat) (type : Flags) (t : List Char) : Nat :=
  horner base digitValue 0 ((t.drop (shownBase base type).length).takeWhile (· ≠ ' '))

/-- Read a number: skip blanks, take a sign, and read what is left. -/
def readNumber (base : Nat) (type : Flags) (t : List Char) : Int :=
  match t.dropWhile (· = ' ') with
  | '-' :: t => -readDigits base type t
  | '+' :: t => readDigits base type t
  | t => readDigits base type t

theorem magnitude_toNat (num : BitVec 64) (type : Flags) : (magnitude num type).toNat = (numberValue num type).natAbs := by
  unfold magnitude numberValue
  by_cases hs : type.sign
  · rw [if_pos hs]
    have hlt := num.isLt
    by_cases hneg : num.toInt < 0
    · rw [if_pos ⟨hs, hneg⟩, BitVec.toNat_neg]
      rw [BitVec.toInt_eq_toNat_cond] at hneg ⊢
      split at hneg <;> omega
    · rw [if_neg fun h => hneg h.2]
      rw [BitVec.toInt_eq_toNat_cond] at hneg ⊢
      split at hneg <;> omega
  · rw [if_neg hs, if_neg fun h => hs h.1]
    rfl

theorem signChar_toList (num : BitVec 64) (type : Flags) : (signChar num type).toList = shownSign (numberValue num type) type := by
  unfold signChar shownSign numberValue
  by_cases hs : type.sign
  · simp only [hs, if_true, true_and]
    split
    · rfl
    · split
      · rfl
      · split <;> rfl
  · have hpos : ¬((num.toNat : Int) < 0) := Int.not_lt.2 (Int.natCast_nonneg _)
    simp [hs, hpos]

theorem basePrefix_eq (base : Nat) (type : Flags) : basePrefix (digitChars type.large) base type = shownBase base type := by
  unfold basePrefix shownBase
  by_cases hs : type.special
  · simp only [hs, if_true, true_and]
    split
    · rfl
    · split
      · cases type.large <;> rfl
      · rfl
  · simp [hs]

/-! ## Reading it back -/

/-- A digit has its value, and is neither a blank nor a sign. -/
theorem digitValue_symbol (large : Bool) : ∀ d < 36, digitValue (digitSymbol large d) = d ∧ digitSymbol large d ≠ ' ' ∧
    digitSymbol large d ≠ '-' ∧ digitSymbol large d ≠ '+' := by
  cases large <;> decide

theorem dropWhile_blanks (k : Nat) {l : List Char} (h : l.head? ≠ some ' ') :
    (List.replicate k ' ' ++ l).dropWhile (· = ' ') = l := by
  induction k with
  | zero =>
    cases l with
    | nil => rfl
    | cons c l =>
      have hc : c ≠ ' ' := fun hc => h (congrArg some hc)
      simp [hc]
  | succ k ih => simpa [List.replicate_succ] using ih

theorem takeWhile_blanks {l : List Char} (h : ∀ c ∈ l, c ≠ ' ') (k : Nat) :
    (l ++ List.replicate k ' ').takeWhile (· ≠ ' ') = l := by
  rw [List.takeWhile_append_of_pos fun c hc => decide_eq_true (h c hc)]
  cases k with
  | zero => exact List.append_nil l
  | succ k => simp [List.replicate_succ]

/-- What shows the base, and the digits, hold neither a blank nor a sign. -/
theorem shown_ne {base : Nat} (hb : 2 ≤ base) (hb' : base ≤ 36) (type : Flags) (zeros n : Nat) :
    ∀ c ∈ shownBase base type ++ (List.replicate zeros '0' ++ numeral (digitSymbol type.large) base n), c ≠ ' ' ∧ c ≠ '-' ∧ c ≠ '+' := by
  intro c hc
  rcases List.mem_append.1 hc with hc | hc
  · unfold shownBase at hc
    split at hc
    · obtain rfl := List.mem_singleton.1 hc
      decide
    · split at hc
      · rcases List.mem_cons.1 hc with rfl | hc
        · decide
        · obtain rfl := List.mem_singleton.1 hc
          cases type.large <;> decide
      · exact absurd hc List.not_mem_nil
  · rcases List.mem_append.1 hc with hc | hc
    · obtain rfl := List.eq_of_mem_replicate hc
      decide
    · obtain ⟨d, hd, rfl⟩ := mem_numeral (Nat.lt_of_succ_le hb) hc
      exact (digitValue_symbol type.large d (Nat.lt_of_lt_of_le hd hb')).2

/-- The digits are read back. -/
theorem readDigits_shown {base : Nat} (hb : 2 ≤ base) (hb' : base ≤ 36) (type : Flags) (zeros n trail : Nat) :
    readDigits base type (shownBase base type ++ (List.replicate zeros '0' ++ numeral (digitSymbol type.large) base n) ++
      List.replicate trail ' ') = n := by
  have hne := shown_ne hb hb' type zeros n
  have hread : ∀ d < base, digitValue (digitSymbol type.large d) = d := fun d hd =>
    (digitValue_symbol type.large d (Nat.lt_of_lt_of_le hd hb')).1
  rw [readDigits, List.append_assoc, List.drop_left, takeWhile_blanks fun c hc => (hne c (List.mem_append_right _ hc)).1,
    horner_replicate (show digitValue '0' = 0 from rfl), horner_numeral (Nat.lt_of_succ_le hb) hread]

theorem readNumber_minus (base : Nat) (type : Flags) (k : Nat) (l : List Char) :
    readNumber base type (List.replicate k ' ' ++ '-' :: l) = -readDigits base type l := by
  have hhead : ('-' :: l).head? ≠ some ' ' := by simp
  rw [readNumber, dropWhile_blanks k hhead]
  rfl

theorem readNumber_plus (base : Nat) (type : Flags) (k : Nat) (l : List Char) :
    readNumber base type (List.replicate k ' ' ++ '+' :: l) = readDigits base type l := by
  have hhead : ('+' :: l).head? ≠ some ' ' := by simp
  rw [readNumber, dropWhile_blanks k hhead]
  rfl

theorem readNumber_plain (base : Nat) (type : Flags) (k : Nat) {c : Char} (h : c ≠ ' ' ∧ c ≠ '-' ∧ c ≠ '+') (l : List Char) :
    readNumber base type (List.replicate k ' ' ++ c :: l) = readDigits base type (c :: l) := by
  obtain ⟨hblank, hminus, hplus⟩ := h
  have hhead : (c :: l).head? ≠ some ' ' := by simpa using hblank
  rw [readNumber, dropWhile_blanks k hhead]
  split
  · rename_i heq
    exact absurd (List.cons.inj heq).1 hminus
  · rename_i heq
    exact absurd (List.cons.inj heq).1 hplus
  · rfl

/-- The text is read back. -/
theorem readNumber_text {base : Nat} (hb : 2 ≤ base) (hb' : base ≤ 36) {value : Int} {type : Flags} {t : List Char}
    (h : IsNumberText value base type t) : readNumber base type t = value := by
  obtain ⟨lead, zeros, trail, rfl⟩ := h
  have hdigits := readDigits_shown hb hb' type zeros value.natAbs trail
  have hne := shown_ne hb hb' type zeros value.natAbs
  have hlen : 0 < (numeral (digitSymbol type.large) base value.natAbs).length := by
    rw [numeral_length]
    exact Nat.le_max_left 1 _
  obtain ⟨c, l, hcl⟩ := List.exists_cons_of_length_pos (l := shownBase base type ++ (List.replicate zeros '0' ++
    numeral (digitSymbol type.large) base value.natAbs)) (by rw [List.length_append, List.length_append]; omega)
  rw [hcl] at hdigits hne
  have hc := hne c List.mem_cons_self
  have htext : ∀ s, List.replicate lead ' ' ++ s ++ shownBase base type ++ List.replicate zeros '0' ++
      numeral (digitSymbol type.large) base value.natAbs ++ List.replicate trail ' ' =
      List.replicate lead ' ' ++ (s ++ c :: (l ++ List.replicate trail ' ')) := by
    intro s
    rw [← List.cons_append, ← hcl]
    simp only [List.append_assoc]
  rw [List.cons_append] at hdigits
  rw [htext, shownSign]
  split
  · rename_i hneg
    rw [List.singleton_append, readNumber_minus, hdigits]
    omega
  · rename_i hpos
    have habs : (value.natAbs : Int) = value := Int.natAbs_of_nonneg (Int.not_lt.1 hpos)
    split
    · rw [List.singleton_append, readNumber_plus, hdigits, habs]
    · split
      · -- a blank for a sign is one more blank
        have hblank : List.replicate lead ' ' ++ ([' '] ++ c :: (l ++ List.replicate trail ' ')) =
            List.replicate (lead + 1) ' ' ++ c :: (l ++ List.replicate trail ' ') := by
          rw [← List.append_assoc, ← List.replicate_succ']
        rw [hblank, readNumber_plain base type (lead + 1) hc, hdigits, habs]
      · rw [List.nil_append, readNumber_plain base type lead hc, hdigits, habs]

/-! ## The field -/

/-- Where nothing wraps, one loop at most fills the field. -/
theorem number_shape {base : Nat} (hb : 2 ≤ base) (hb' : base ≤ 36) (num : BitVec 64) {size precision : Int} (hsize : -1 ≤ size)
    (hsize' : size < 1073741824) (hprecision : precision < 1073741824) (type : Flags) :
    ∃ t, number num base size precision type = some t ∧ IsNumberText (numberValue num type) base type t := by
  have hshown := numberShown_le (Nat.lt_of_succ_le hb) num precision type
  have hleft : cInt (size - numberShown num base precision type) = size - numberShown num base precision type :=
    cInt_of_mem (by omega) (by omega)
  have heq := number_eq hb hb' num size precision type
  dsimp only at heq
  rw [hleft, signChar_toList, basePrefix_eq, magnitude_toNat] at heq
  refine ⟨_, heq, ?_⟩
  generalize hd : size - (numberShown num base precision type : Int) = left
  generalize precision.toNat - digitCount base (numberValue num type).natAbs = zeros
  -- once a loop has counted down, no other writes anything
  obtain ⟨hdone, hdone'⟩ := @counted_toNat left (by omega)
  cases hl : type.left with
  | true =>
    have hz : type.settled.zeropad = false := Flags.settled_zeropad ((Flags.settled_left type).trans hl)
    exact ⟨0, zeros, left.toNat, by simp [padWhile_eq]⟩
  | false =>
    cases hz : type.settled.zeropad with
    | true => exact ⟨0, left.toNat + zeros, 0, by simp [padWhile_eq, hdone, ← List.replicate_append_replicate]⟩
    | false => exact ⟨left.toNat, zeros, 0, by simp [padWhile_eq, hdone, hdone']⟩

/-- For all flags, bases, widths and precisions, the text of a number consists of blanks, sign, base, zeros, digits and blanks, is read back
as the number, and is as long as the field, or as what it shows if that is longer. -/
theorem number_text {base : Nat} (hb : 2 ≤ base) (hb' : base ≤ 36) (num : BitVec 64) {size precision : Int} (hsize : -1 ≤ size)
    (hsize' : size < 1073741824) (hprecision : precision < 1073741824) (type : Flags) :
    ∃ t, number num base size precision type = some t ∧ IsNumberText (numberValue num type) base type t ∧
      readNumber base type t = numberValue num type ∧
      t.length = max size.toNat ((shownSign (numberValue num type) type).length + (shownBase base type).length +
        max (numeral (digitSymbol type.large) base (numberValue num type).natAbs).length precision.toNat) := by
  obtain ⟨t, ht, htext⟩ := number_shape hb hb' num hsize hsize' hprecision type
  refine ⟨t, ht, htext, readNumber_text hb hb' htext, ?_⟩
  obtain ⟨t', ht', hlen⟩ := number_length hb hb' num size precision type
  obtain rfl := Option.some.inj (ht.symm.trans ht')
  rw [hlen, numberLength_eq (Nat.lt_of_succ_le hb) num hsize hsize' hprecision type, numberShown, signChar_toList,
    ← basePrefix_length (digitChars type.large), basePrefix_eq, magnitude_toNat, digitCount, ← numeral_length, max_comm precision.toNat]

/-- The least number in a field of 24, with zeros. -/
theorem number_text_least : ∃ t, number 0x8000000000000000 10 24 (-1) ⟨true, true, false, false, false, false, false⟩ = some t ∧
    readNumber 10 ⟨true, true, false, false, false, false, false⟩ t = -9223372036854775808 ∧ t.length = 24 := by
  obtain ⟨t, ht, -, hread, hlen⟩ := @number_text 10 (by decide) (by decide) 0x8000000000000000 24 (-1) (by decide) (by decide)
    (by decide) ⟨true, true, false, false, false, false, false⟩
  refine ⟨t, ht, hread, ?_⟩
  rw [hlen]
  decide

end BootPerl
