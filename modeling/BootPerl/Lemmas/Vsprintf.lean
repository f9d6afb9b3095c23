import BootPerl.Lib.Division
import BootPerl.Lib.Numerals
import BootPerl.Vsprintf

/-!
# What a formatted text is, and how long

Each conversion shows something, in the fewest characters that it takes, and fills its field with blanks or zeros. What is shown and
the field decide the length; the loops that fill count down an `int`, and one that starts at the least `int` finds the largest.
-/

namespace BootPerl

/-! ## The integers -/

theorem cInt_sub (x y : Int) : cInt (cInt x - y) = cInt (x - y) := by
  unfold cInt
  omega

theorem cInt_of_mem {x : Int} (h : -2147483648 ≤ x) (h' : x < 2147483648) : cInt x = x := by
  unfold cInt
  omega

theorem cInt_toNat_le (n : Nat) : (cInt n).toNat ≤ n := by
  unfold cInt
  omega

/-! ## Division -/

/-- `do_div` divides, and never fails. -/
theorem doDiv_eq {base : Nat} (hb : 0 < base) (n : Nat) : doDiv n base = some (n / base, n % base) := by
  have hlow : n % 4294967296 < 4294967296 := Nat.mod_lt _ (by decide)
  have hsplit : n / 4294967296 * 4294967296 + n % 4294967296 = n := Nat.div_add_mod' n 4294967296
  have hupper : (if n / 4294967296 ≠ 0 then n / 4294967296 % base else n / 4294967296) = n / 4294967296 % base := by
    split
    · rfl
    · rename_i h0
      rw [Classical.not_not.1 h0, Nat.zero_mod]
  have hhigh : (if n / 4294967296 ≠ 0 then n / 4294967296 / base else n / 4294967296) = n / 4294967296 / base := by
    split
    · rfl
    · rename_i h0
      rw [Classical.not_not.1 h0, Nat.zero_div]
  have hfits : ¬(base = 0 ∨ 4294967296 ≤ (n / 4294967296 % base * 4294967296 + n % 4294967296) / base) := by
    have hlt := div_limb_lt (Nat.mod_lt (n / 4294967296) hb) hlow
    omega
  unfold doDiv divl
  dsimp only
  rw [hupper, hhigh, if_neg hfits, Option.bind_some, ← div_limbs hb, ← mod_limbs, hsplit]

/-- The digits, of which there are no more than `tmp` has room for. -/
theorem fillDigits_eq {digits : List Char} {base : Nat} (hb : 1 < base) (room : Nat) :
    ∀ {n : Nat} {tmp : List Char}, (base.digits n).length ≤ room → fillDigits digits base room n tmp =
      some ((base.digits n).reverse.map (fun d => digits.getD d (Char.ofNat 0)) ++ tmp) := by
  induction room with
  | zero =>
    intro n tmp h
    obtain rfl : n = 0 := Nat.digits_eq_nil_iff_eq_zero.1 (List.length_eq_zero_iff.1 (Nat.le_zero.1 h))
    simp [fillDigits]
  | succ room ih =>
    intro n tmp h
    rw [fillDigits]
    by_cases h0 : n = 0
    · simp [h0]
    · have hdigits := Nat.digits_def' hb (Nat.pos_of_ne_zero h0)
      rw [hdigits, List.length_cons] at h
      rw [if_neg h0, hdigits, doDiv_eq (Nat.lt_of_succ_lt hb), Option.bind_some, ih (Nat.le_of_succ_le_succ h)]
      simp

/-! ## The loops that fill -/

theorem padDown_eq (c : Char) (bound width : Int) :
    padDown c bound width = (List.replicate (width - bound).toNat c, min bound width) := by
  fun_induction padDown c bound width with
  | case1 width hlt rest ih =>
    have hn : (width - bound).toNat = (width - 1 - bound).toNat + 1 := by omega
    have hmin : min bound (width - 1) = min bound width := by omega
    simp only [rest]
    rw [ih, hn, List.replicate_succ, hmin]
  | case2 width hle =>
    have hn : (width - bound).toNat = 0 := by omega
    rw [hn, List.replicate_zero, min_eq_right (by omega)]

theorem padWhile_eq (c : Char) (bound width : Int) :
    padWhile c bound width = (List.replicate (width - bound).toNat c, cInt (min bound width - 1)) := by
  unfold padWhile
  rw [padDown_eq]

/-- What a loop leaves of the width fills nothing more, where no `int` wraps, and neither does what the next loop leaves. -/
theorem counted_toNat {width : Int} (h : -2147483646 < width) :
    (cInt (min 0 width - 1)).toNat = 0 ∧ (cInt (min 0 (cInt (min 0 width - 1)) - 1)).toNat = 0 := by
  rw [cInt_of_mem (x := min 0 width - 1) (by omega) (by omega), cInt_of_mem (by omega) (by omega)]
  omega

/-- How much is written by so many loops `while (bound < width--)`, one after the other. -/
def blanks (bound : Int) : Nat → Int → Nat
  | 0, _ => 0
  | loops + 1, width => (width - bound).toNat + blanks bound loops (cInt (min bound width - 1))

/-- The first loop fills the field, and the others write nothing, where no `int` wraps. -/
theorem blanks_of_le {bound : Int} (loops : Nat) : ∀ {width : Int}, -2147483648 + loops < bound → bound < 2147483648 →
    -2147483648 + (loops + 1 : Int) ≤ width → width < 2147483648 → blanks bound (loops + 1) width = (width - bound).toNat := by
  induction loops with
  | zero =>
    intro width _ _ _ _
    rw [blanks, blanks, Nat.add_zero]
  | succ loops ih =>
    intro width h1 h2 h3 h4
    rw [blanks, cInt_of_mem (by omega) (by omega), ih (by omega) h2 (by omega) (by omega)]
    omega

/-! ## Numbers -/

/-- The loops of `number()` that fill the field: one on the right, and before it one for zeros or blanks, and one for blanks. -/
def fillLoops (type : Flags) : Nat := if type.left then 1 else if type.zeropad then 2 else 3

theorem number_fill_length {zeropad left : Bool} (h : left = true → zeropad = false) (c : Char) (size : Int) :
    let lead := if ¬zeropad ∧ ¬left then padWhile ' ' 0 size else ([], size)
    let fill := if ¬left then padWhile c 0 lead.2 else ([], lead.2)
    lead.1.length + fill.1.length + (padWhile ' ' 0 fill.2).1.length =
      blanks 0 (if left then 1 else if zeropad then 2 else 3) size := by
  cases left with
  | true => simp [padWhile_eq, blanks]
  | false => cases zeropad <;> simp [padWhile_eq, blanks, Nat.add_assoc]

/-- How many digits show a number. -/
def digitCount (base n : Nat) : Nat := max 1 (base.digits n).length

/-- How many characters show the base. -/
def prefixLength (base : Nat) (type : Flags) : Nat :=
  if type.special then if base = 8 then 1 else if base = 16 then 2 else 0 else 0

theorem basePrefix_length (digits : List Char) (base : Nat) (type : Flags) :
    (basePrefix digits base type).length = prefixLength base type := by
  unfold basePrefix prefixLength
  split
  · split
    · rfl
    · split <;> rfl
  · rfl

/-- How many characters show a number: the sign, the base, and the digits, which the precision fills with zeros. -/
def numberShown (num : BitVec 64) (base : Nat) (precision : Int) (type : Flags) : Nat :=
  (signChar num type).toList.length + prefixLength base type + max precision.toNat (digitCount base (magnitude num type).toNat)

/-- The size that is left, once what is shown is taken off. -/
theorem number_size (num : BitVec 64) (base : Nat) (size p : Int) (type : Flags) :
    cInt ((if type.special then
        if base = 16 then cInt ((if signChar num type ≠ none then cInt (size - 1) else size) - 2)
        else if base = 8 then cInt ((if signChar num type ≠ none then cInt (size - 1) else size) - 1)
        else if signChar num type ≠ none then cInt (size - 1) else size
      else if signChar num type ≠ none then cInt (size - 1) else size) - p) =
      cInt (size - ((signChar num type).toList.length + prefixLength base type + p)) := by
  have hsign : ∀ q, cInt ((if signChar num type ≠ none then cInt (size - 1) else size) - q) =
      cInt (size - ((signChar num type).toList.length + q)) := by
    intro q
    cases signChar num type with
    | none => simp
    | some c => rw [if_pos (Option.some_ne_none c), cInt_sub, Int.sub_sub]; rfl
  generalize (if signChar num type ≠ none then cInt (size - 1) else size) = s at hsign ⊢
  rw [Int.add_assoc, ← hsign]
  unfold prefixLength
  by_cases h8 : base = 8
  · subst h8
    split
    · exact (cInt_sub _ _).trans (by rw [Int.sub_sub]; rfl)
    · simp
  · by_cases h16 : base = 16
    · subst h16
      split
      · exact (cInt_sub _ _).trans (by rw [Int.sub_sub]; rfl)
      · simp
    · simp [h8, h16]

/-- A number of 64 bits has no more digits than `tmp` has room for. -/
theorem digits_length_le {base : Nat} (hb : 1 < base) (num : BitVec 64) : (base.digits num.toNat).length ≤ 66 := by
  refine (Nat.digits_length_le_iff hb _).2 ?_
  calc num.toNat < 2 ^ 64 := num.isLt
    _ ≤ 2 ^ 66 := Nat.pow_le_pow_right (by decide) (by decide)
    _ ≤ base ^ 66 := Nat.pow_le_pow_left hb 66

/-- A digit of a base. -/
def digitSymbol (large : Bool) (d : Nat) : Char := (digitChars large).getD d (Char.ofNat 0)

/-- The digits that `number()` finds. -/
theorem number_digits {base : Nat} (hb : 1 < base) (large : Bool) (num : BitVec 64) :
    (if num = 0 then some ['0'] else fillDigits (digitChars large) base 66 num.toNat []) =
      some (numeral (digitSymbol large) base num.toNat) := by
  unfold numeral
  by_cases h0 : num = 0
  · rw [if_pos h0, h0]
    cases large <;> rfl
  · have hpos : num.toNat ≠ 0 := fun h => h0 (BitVec.eq_of_toNat_eq h)
    rw [if_neg h0, if_neg hpos, fillDigits_eq hb 66 (digits_length_le hb num), List.append_nil]
    rfl

theorem numberShown_le {base : Nat} (hb : 1 < base) (num : BitVec 64) (precision : Int) (type : Flags) :
    numberShown num base precision type ≤ 3 + max precision.toNat 66 := by
  have hsign : (signChar num type).toList.length ≤ 1 := Option.length_toList_le
  have hprefix : prefixLength base type ≤ 2 := by
    unfold prefixLength
    split_ifs <;> decide
  have hcount : digitCount base (magnitude num type).toNat ≤ 66 := max_le (by decide) (digits_length_le hb _)
  unfold numberShown
  omega

/-- The flag `LEFT` takes `ZEROPAD` back. -/
def Flags.settled (type : Flags) : Flags := if type.left then { type with zeropad := false } else type

theorem Flags.settled_left (type : Flags) : type.settled.left = type.left := by
  unfold Flags.settled
  split <;> rfl

theorem Flags.settled_zeropad {type : Flags} (h : type.settled.left = true) : type.settled.zeropad = false := by
  rw [Flags.settled_left] at h
  rw [Flags.settled, if_pos h]

theorem fillLoops_settled (type : Flags) : fillLoops type.settled = fillLoops type := by
  unfold fillLoops Flags.settled
  split <;> simp_all

theorem numberShown_settled (num : BitVec 64) (base : Nat) (precision : Int) (type : Flags) :
    numberShown num base precision type.settled = numberShown num base precision type := by
  unfold Flags.settled
  split <;> rfl

theorem magnitude_settled (num : BitVec 64) (type : Flags) : magnitude num type.settled = magnitude num type := by
  unfold Flags.settled
  split <;> rfl

theorem signChar_settled (num : BitVec 64) (type : Flags) : signChar num type.settled = signChar num type := by
  unfold Flags.settled
  split <;> rfl

theorem basePrefix_settled (digits : List Char) (base : Nat) (type : Flags) :
    basePrefix digits base type.settled = basePrefix digits base type := by
  unfold Flags.settled
  split <;> rfl

/-- The text of a number: what fills its field is blank, or zeros after the sign and the base. -/
theorem number_eq {base : Nat} (hb : 2 ≤ base) (hb' : base ≤ 36) (num : BitVec 64) (size precision : Int) (type : Flags) :
    let n := (magnitude num type).toNat
    let left := cInt (size - numberShown num base precision type)
    let lead := if ¬type.settled.zeropad ∧ ¬type.left then padWhile ' ' 0 left else ([], left)
    let fill := if ¬type.left then padWhile (if type.settled.zeropad then '0' else ' ') 0 lead.2 else ([], lead.2)
    number num base size precision type =
      some (lead.1 ++ (signChar num type).toList ++ basePrefix (digitChars type.large) base type ++ fill.1 ++
        List.replicate (precision.toNat - digitCount base n) '0' ++ numeral (digitSymbol type.large) base n ++
        (padWhile ' ' 0 fill.2).1) := by
  intro n left lead fill
  have hbase : ¬(base < 2 ∨ 36 < base) := by omega
  have hlen : (numeral (digitSymbol type.large) base n).length = digitCount base n := numeral_length n
  unfold number
  extract_lets digits settled c sign size₁ num₁ size₂
  have hnum : num₁ = magnitude num type := magnitude_settled num type
  rw [if_neg hbase, hnum, number_digits (Nat.lt_of_succ_le hb), Option.bind_some]
  extract_lets i precision₁ size₃ lead₁ fill₁ zeros trail
  have hprecision : precision₁ = (max precision.toNat (digitCount base n) : Nat) := by
    simp only [precision₁, i, n, ← hlen]
    split <;> omega
  have hsize : size₃ = left := by
    have hleft := number_size num base size precision₁ type.settled
    rw [hprecision] at hleft
    simp only [size₃, left]
    rw [hprecision, ← numberShown_settled, numberShown, magnitude_settled]
    exact hleft
  have hzeros : zeros.1 = List.replicate (precision.toNat - digitCount base n) '0' := by
    have hcount : (precision₁ - i).toNat = precision.toNat - digitCount base n := by
      simp only [hprecision, i, n, hlen]
      omega
    simp only [zeros, padWhile_eq, hcount]
  have hsettled : settled.left = type.left := type.settled_left
  have hlead : lead₁ = lead := by
    simp only [lead₁, lead, hsize, hsettled]
    rfl
  have hfill : fill₁ = fill := by
    simp only [fill₁, fill, hlead, hsettled]
    rfl
  have hsign : sign = signChar num type := signChar_settled num type
  have hbase : basePrefix digits base settled = basePrefix (digitChars type.large) base type :=
    basePrefix_settled (digitChars type.large) base type
  simp only [trail, hlead, hfill, hzeros, hsign, hbase]
  rfl

/-- Without width and precision, a number is the sign, the base and the digits. -/
theorem number_bare {base : Nat} (hb : 2 ≤ base) (hb' : base ≤ 36) (num : BitVec 64) (type : Flags) :
    number num base (-1) (-1) type = some ((signChar num type).toList ++ basePrefix (digitChars type.large) base type ++
      numeral (digitSymbol type.large) base (magnitude num type).toNat) := by
  have hshown := numberShown_le (Nat.lt_of_succ_le hb) num (-1) type
  have heq := number_eq hb hb' num (-1) (-1) type
  dsimp only at heq
  rw [heq, cInt_of_mem (by omega) (by omega)]
  generalize hd : -1 - (numberShown num base (-1) type : Int) = left
  have hnone : left.toNat = 0 := by omega
  obtain ⟨hdone, hdone'⟩ := @counted_toNat left (by omega)
  cases type.left with
  | true => simp [padWhile_eq, hnone]
  | false => cases type.settled.zeropad <;> simp [padWhile_eq, hnone, hdone, hdone']

/-- The digits of a number, with zeros before them up to a width. -/
def zeroPadded (width n : Nat) : List Char :=
  List.replicate (width - (numeral (digitSymbol false) 16 n).length) '0' ++ numeral (digitSymbol false) 16 n

/-- A number in base 16 with as many digits as a width says. -/
theorem number_zeroPadded (x : BitVec 32) {width : Nat} (hw : width < 1073741824) :
    number (x.setWidth 64) 16 width (-1) { Flags.none with zeropad := true } = some (zeroPadded width x.toNat) := by
  have hmag : (magnitude (x.setWidth 64) { Flags.none with zeropad := true }).toNat = x.toNat := by
    have hlt := x.isLt
    rw [magnitude, if_neg (by simp [Flags.none]), BitVec.toNat_setWidth]
    exact Nat.mod_eq_of_lt (by omega)
  have hshown : numberShown (x.setWidth 64) 16 (-1) { Flags.none with zeropad := true } = digitCount 16 x.toNat := by
    rw [numberShown, hmag]
    exact (Nat.zero_add _).trans (max_eq_right (Nat.zero_le _))
  have hcount : digitCount 16 x.toNat ≤ 8 := max_le (by decide) ((Nat.digits_length_le_iff (by decide) _).2 x.isLt)
  have heq := @number_eq 16 (by decide) (by decide) (x.setWidth 64) width (-1) { Flags.none with zeropad := true }
  dsimp only at heq
  rw [heq, hshown, hmag, cInt_of_mem (by omega) (by omega), zeroPadded, numeral_length]
  generalize hd : (width : Int) - (digitCount 16 x.toNat : Int) = left
  have hleft : left.toNat = width - max 1 (Nat.digits 16 x.toNat).length := by
    rw [digitCount] at hd hcount
    omega
  obtain ⟨hdone, -⟩ := @counted_toNat left (by omega)
  simp [padWhile_eq, hdone, hleft, Flags.settled, Flags.none, signChar, basePrefix]

/-- How long a number is: what is shown, and what fills its field. -/
def numberLength (num : BitVec 64) (base : Nat) (size precision : Int) (type : Flags) : Nat :=
  numberShown num base precision type + blanks 0 (fillLoops type) (cInt (size - numberShown num base precision type))

/-- Where nothing wraps, a number is as long as its field, or as what it shows if that is longer. -/
theorem numberLength_eq {base : Nat} (hb : 1 < base) (num : BitVec 64) {size precision : Int} (hsize : -1 ≤ size)
    (hsize' : size < 1073741824) (hprecision : precision < 1073741824) (type : Flags) :
    numberLength num base size precision type = max size.toNat (numberShown num base precision type) := by
  have hshown := numberShown_le hb num precision type
  obtain ⟨loops, hloops, hle⟩ : ∃ loops, fillLoops type = loops + 1 ∧ loops ≤ 2 := by
    unfold fillLoops
    split_ifs
    · exact ⟨0, rfl, by decide⟩
    · exact ⟨1, rfl, by decide⟩
    · exact ⟨2, rfl, by decide⟩
  rw [numberLength, hloops, cInt_of_mem (by omega) (by omega), blanks_of_le loops (by omega) (by omega) (by omega) (by omega)]
  omega

/-- A number has a text, of this length. -/
theorem number_length {base : Nat} (hb : 2 ≤ base) (hb' : base ≤ 36) (num : BitVec 64) (size precision : Int) (type : Flags) :
    ∃ t, number num base size precision type = some t ∧ t.length = numberLength num base size precision type := by
  refine ⟨_, number_eq hb hb' num size precision type, ?_⟩
  have hshown : numberShown num base precision type = (signChar num type).toList.length +
      (basePrefix (digitChars type.large) base type).length + (precision.toNat - digitCount base (magnitude num type).toNat +
        (numeral (digitSymbol type.large) base (magnitude num type).toNat).length) := by
    rw [numberShown, basePrefix_length, numeral_length, digitCount]
    omega
  have hfill := number_fill_length type.settled_zeropad (if type.settled.zeropad then '0' else ' ')
    (cInt (size - numberShown num base precision type))
  have hloops : (if type.settled.left then 1 else if type.settled.zeropad then 2 else 3) = fillLoops type := fillLoops_settled type
  rw [hloops, Flags.settled_left] at hfill
  rw [numberLength, ← hfill]
  simp only [List.length_append, List.length_replicate]
  omega

/-! ## Conversions -/

/-- The loops of the cases `c` and `s` that fill the field: one on the right, and before it one on the left. -/
def sideLoops (flags : Flags) : Nat := if flags.left then 1 else 2

/-- A character, and what fills its field. -/
def charLength (spec : Spec) : Nat := 1 + blanks 0 (sideLoops spec.flags) (cInt (spec.fieldWidth - 1))

theorem charText_length (spec : Spec) (arg : BitVec 32) : (charText spec arg).length = charLength spec := by
  unfold charText charLength sideLoops
  cases spec.flags.left <;> simp [padDown_eq, blanks] <;> omega

theorem strnlen_eq (s : List Char) : ∀ count, strnlen s count = min s.length count := by
  induction s with
  | nil => intro count; simp [strnlen]
  | cons c s ih =>
    intro count
    cases count with
    | zero => simp [strnlen]
    | succ count => rw [strnlen, ih, List.length_cons, Nat.succ_min_succ]

/-- How many characters of a string are shown: no more than the precision, and the number is an `int`. -/
def stringShown (spec : Spec) (s : List Char) : Int := cInt (min s.length (spec.precision % 4294967296).toNat : Nat)

/-- A string, and what fills its field. -/
def stringLength (spec : Spec) (s : List Char) : Nat :=
  (stringShown spec s).toNat + blanks (stringShown spec s) (sideLoops spec.flags) spec.fieldWidth

theorem stringText_length (spec : Spec) (s : List Char) : (stringText spec s).length = stringLength spec s := by
  have hle : (stringShown spec s).toNat ≤ s.length := by
    rw [stringShown]
    exact Nat.le_trans (cInt_toNat_le _) (Nat.min_le_left _ _)
  have hlen : cInt (strnlen s (spec.precision % 4294967296).toNat) = stringShown spec s := by rw [strnlen_eq, stringShown]
  unfold stringText stringLength sideLoops
  rw [hlen]
  generalize stringShown spec s = len at hle ⊢
  have htake : (s.take len.toNat).length = len.toNat := by rw [List.length_take, Nat.min_eq_left hle]
  cases spec.flags.left with
  | true =>
    simp only [padWhile_eq, blanks, List.length_append, htake, List.length_replicate, List.length_nil, not_true, if_true, if_false,
      Nat.zero_add, Nat.add_zero]
  | false =>
    simp only [padWhile_eq, blanks, List.length_append, htake, List.length_replicate, Bool.false_eq_true, not_false_iff, if_true,
      if_false]
    rw [Nat.add_zero, Nat.add_comm _ len.toNat, Nat.add_assoc]

/-- Without width and precision, a string is shown whole. -/
theorem stringLength_whole {s : List Char} (h : s.length < 2147483648) : stringLength ⟨Flags.none, -1, -1, none⟩ s = s.length := by
  have hshown : stringShown ⟨Flags.none, -1, -1, none⟩ s = s.length := by
    have hmin : min s.length ((-1 : Int) % 4294967296).toNat = s.length := Nat.min_eq_left (by omega)
    rw [stringShown, hmin, cInt_of_mem (by omega) (by omega)]
  have hloops : sideLoops Flags.none = 1 + 1 := rfl
  rw [stringLength, hshown, hloops, blanks_of_le 1 (by omega) (by omega) (by decide) (by decide)]
  dsimp only
  omega

/-- How long an integer conversion is. -/
def integerLength (spec : Spec) (base : Nat) (args : VaList) : Nat :=
  numberLength (integerArg spec.qualifier spec.flags.sign args) base spec.fieldWidth spec.precision spec.flags

/-- How long a pointer is. -/
def pointerLength (spec : Spec) (arg : BitVec 32) : Nat :=
  if spec.fieldWidth = -1 then numberLength (arg.setWidth 64) 16 8 spec.precision { spec.flags with zeropad := true }
  else numberLength (arg.setWidth 64) 16 spec.fieldWidth spec.precision spec.flags

/-- How long the conversion of a letter is. -/
def convLength (str : Nat → List Char) (spec : Spec) (args : VaList) (c : Char) : Nat :=
  match c with
  | 'c' => charLength spec
  | 's' => stringLength spec (if args 0 = 0 then "<NULL>".toList else str (args 0).toNat)
  | 'p' => pointerLength spec (args 0)
  | 'n' => 0
  | '%' => 1
  | 'o' => integerLength spec 8 args
  | 'X' => integerLength { spec with flags := { spec.flags with large := true } } 16 args
  | 'x' => integerLength spec 16 args
  | 'd' => integerLength { spec with flags := { spec.flags with sign := true } } 10 args
  | 'i' => integerLength { spec with flags := { spec.flags with sign := true } } 10 args
  | 'u' => integerLength spec 10 args
  | _ => 2

/-- The pointer of a `%n`. -/
def countPointer (args : VaList) (c : Char) : List Nat := if c = 'n' then [(args 0).toNat] else []

/-- From `w` to `w'`, `n` characters are written, and counts are stored through `pointers`. -/
structure Adds (w w' : Written) (n : Nat) (pointers : List Nat) : Prop where
  length : w'.out.length = w.out.length + n
  counts : w'.counts.map Prod.fst = w.counts.map Prod.fst ++ pointers

theorem Adds.trans {w w' w'' : Written} {m n : Nat} {p q : List Nat} (h : Adds w w' m p) (h' : Adds w' w'' n q) :
    Adds w w'' (m + n) (p ++ q) :=
  ⟨by rw [h'.length, h.length, Nat.add_assoc], by rw [h'.counts, h.counts, List.append_assoc]⟩

theorem adds_nil (w : Written) : Adds w w 0 [] := ⟨rfl, (List.append_nil _).symm⟩

/-- A text. -/
theorem adds_put (w : Written) {text : List Char} {n : Nat} (h : text.length = n) : Adds w (w.put text) n [] :=
  ⟨by rw [Written.put, List.length_append, h], (List.append_nil _).symm⟩

/-- A text that there is. -/
theorem adds_map_put (w : Written) {text : Option (List Char)} {n : Nat} (h : ∃ t, text = some t ∧ t.length = n) :
    ∃ w', text.map w.put = some w' ∧ Adds w w' n [] := by
  obtain ⟨t, rfl, hlen⟩ := h
  exact ⟨_, rfl, adds_put w hlen⟩

theorem integerText_length {base : Nat} (hb : 2 ≤ base) (hb' : base ≤ 36) (spec : Spec) (args : VaList) :
    ∃ t, integerText spec base args = some t ∧ t.length = integerLength spec base args := number_length hb hb' _ _ _ _

theorem pointerText_length (spec : Spec) (arg : BitVec 32) :
    ∃ t, pointerText spec arg = some t ∧ t.length = pointerLength spec arg := by
  unfold pointerText pointerLength
  split
  · exact number_length (by decide) (by decide) _ _ _ _
  · exact number_length (by decide) (by decide) _ _ _ _

/-- Every conversion is done, with its length, and only `%n` stores a count. -/
theorem convert_adds (str : Nat → List Char) (spec : Spec) (args : VaList) (c : Char) (w : Written) :
    ∃ w', convert str spec args c w = some w' ∧ Adds w w' (convLength str spec args c) (countPointer args c) := by
  unfold convert
  split
  · exact ⟨_, rfl, adds_put w (charText_length _ _)⟩
  · exact ⟨_, rfl, adds_put w (stringText_length _ _)⟩
  · exact adds_map_put w (pointerText_length _ _)
  · exact ⟨_, rfl, rfl, List.map_append⟩
  · exact ⟨_, rfl, adds_put w rfl⟩
  · exact adds_map_put w (integerText_length (by decide) (by decide) _ _)
  · exact adds_map_put w (integerText_length (by decide) (by decide) _ _)
  · exact adds_map_put w (integerText_length (by decide) (by decide) _ _)
  · exact adds_map_put w (integerText_length (by decide) (by decide) _ _)
  · exact adds_map_put w (integerText_length (by decide) (by decide) _ _)
  · exact adds_map_put w (integerText_length (by decide) (by decide) _ _)
  · rename_i hn _ _ _ _ _ _ _
    have hlen : convLength str spec args c = 2 := by
      unfold convLength
      split <;> first | rfl | contradiction
    rw [hlen, countPointer, if_neg hn]
    exact ⟨_, rfl, adds_put w rfl⟩

/-! ## The whole format -/

/-- What a turn of the loop of `vsprintf` finds: a character, a conversion, or a `%` at the end. -/
inductive Piece where
  | plain (c : Char)
  | conv (spec : Spec) (args : VaList) (c : Char)
  | percent

/-- How long a piece is. -/
def Piece.length (str : Nat → List Char) : Piece → Nat
  | .plain _ => 1
  | .conv spec args c => convLength str spec args c
  | .percent => 1

/-- The pointer that a piece stores a count through. -/
def Piece.pointer : Piece → List Nat
  | .plain _ => []
  | .conv _ args c => countPointer args c
  | .percent => []

/-- The pieces of a format. -/
def pieces : Nat → Reader → List Piece
  | 0, _ => []
  | fuel + 1, r =>
    match r.fmt with
    | [] => []
    | c :: fmt =>
      if c ≠ '%' then .plain c :: pieces fuel { r with fmt := fmt }
      else
        let spec := readSpec { r with fmt := fmt }
        match spec.2.fmt with
        | [] => .percent :: pieces fuel spec.2
        | c :: fmt => .conv spec.1 spec.2.args c :: pieces fuel ⟨fmt, argsAfter spec.1 spec.2.args c⟩

/-- How long the text of a format is. -/
def formatLength (str : Nat → List Char) (fmt : List Char) (args : VaList) : Nat :=
  ((pieces (fmt.length + 1) ⟨fmt, args⟩).map (Piece.length str)).sum

/-- The pointers that a format stores counts through. -/
def countPointers (fmt : List Char) (args : VaList) : List Nat := (pieces (fmt.length + 1) ⟨fmt, args⟩).flatMap Piece.pointer

/-- The ten digits are digits in the table. -/
theorem isdigit_of_range {c : Char} (h : 48 ≤ c.toNat) (h' : c.toNat ≤ 57) : isdigit c := by
  unfold isdigit
  interval_cases c.toNat <;> rfl

theorem skipAtoi_length (fmt : List Char) : ∀ i, (skipAtoi i fmt).2.length ≤ fmt.length := by
  induction fmt with
  | nil => exact fun _ => Nat.le_refl _
  | cons c fmt ih =>
    intro i
    rw [skipAtoi]
    split
    · exact Nat.le_succ_of_le (ih _)
    · exact Nat.le_refl _

theorem readFlags_length (flags : Flags) (fmt : List Char) : (readFlags flags fmt).2.length ≤ fmt.length := by
  fun_induction readFlags flags fmt with
  | case6 => exact Nat.le_refl _
  | _ flags fmt ih => exact Nat.le_succ_of_le ih

theorem readInt_length (r : Reader) : (readInt r).2.fmt.length ≤ r.fmt.length := by
  unfold readInt
  split
  · exact Nat.le_refl _
  · rename_i c fmt hfmt
    split
    · exact skipAtoi_length _ _
    · split
      · rw [hfmt]
        exact Nat.le_succ _
      · exact Nat.le_refl _

theorem readWidth_length (flags : Flags) (r : Reader) : (readWidth flags r).2.2.fmt.length ≤ r.fmt.length := by
  unfold readWidth
  dsimp only
  split
  · exact readInt_length r
  · exact readInt_length r

theorem readPrecision_length (r : Reader) : (readPrecision r).2.fmt.length ≤ r.fmt.length := by
  unfold readPrecision
  split
  · rename_i fmt hfmt
    rw [hfmt]
    exact Nat.le_succ_of_le (readInt_length _)
  · exact Nat.le_refl _

theorem readQualifier_length (r : Reader) : (readQualifier r).2.fmt.length ≤ r.fmt.length := by
  unfold readQualifier
  split
  · exact Nat.le_refl _
  · rename_i c fmt hfmt
    split
    · rw [hfmt]
      exact Nat.le_succ _
    · exact Nat.le_refl _

/-- Reading takes characters off the format. -/
theorem readSpec_length (r : Reader) : (readSpec r).2.fmt.length ≤ r.fmt.length := by
  unfold readSpec
  exact (readQualifier_length _).trans ((readPrecision_length _).trans ((readWidth_length _ _).trans (readFlags_length _ _)))

/-- A turn of the loop that finds a character. -/
theorem vsprintfLoop_plain (str : Nat → List Char) (fuel : Nat) {c : Char} (hc : c ≠ '%') (fmt : List Char) (args : VaList)
    (w : Written) : vsprintfLoop str (fuel + 1) ⟨c :: fmt, args⟩ w = vsprintfLoop str fuel ⟨fmt, args⟩ (w.put [c]) := if_pos hc

/-- A turn of the loop that finds a conversion. -/
theorem vsprintfLoop_conv {str : Nat → List Char} (fuel : Nat) {fmt rest : List Char} {args left : VaList} {spec : Spec} {c : Char}
    {w w' : Written} (hread : readSpec ⟨fmt, args⟩ = (spec, ⟨c :: rest, left⟩)) (hconv : convert str spec left c w = some w') :
    vsprintfLoop str (fuel + 1) ⟨'%' :: fmt, args⟩ w = vsprintfLoop str fuel ⟨rest, argsAfter spec left c⟩ w' := by
  rw [vsprintfLoop]
  simp only [ne_eq, not_true_eq_false, if_false, hread, hconv, Option.bind_some]

/-- The loop ends, and has written the pieces. -/
theorem vsprintfLoop_adds (str : Nat → List Char) (fuel : Nat) : ∀ {r : Reader} (w : Written), r.fmt.length < fuel →
    ∃ w', vsprintfLoop str fuel r w = some w' ∧
      Adds w w' ((pieces fuel r).map (Piece.length str)).sum ((pieces fuel r).flatMap Piece.pointer) := by
  induction fuel with
  | zero => exact fun _ h => absurd h (Nat.not_lt_zero _)
  | succ fuel ih =>
    intro r w h
    -- a piece is written, and then the rest of the format
    have hrest : ∀ {r' : Reader} {w₁ : Written} {p : Piece}, r'.fmt.length < fuel → Adds w w₁ (p.length str) p.pointer →
        ∃ w', vsprintfLoop str fuel r' w₁ = some w' ∧
          Adds w w' ((p :: pieces fuel r').map (Piece.length str)).sum ((p :: pieces fuel r').flatMap Piece.pointer) := by
      intro r' w₁ p hlt hadds
      obtain ⟨w', hw', hadds'⟩ := ih w₁ hlt
      rw [List.map_cons, List.sum_cons, List.flatMap_cons]
      exact ⟨w', hw', hadds.trans hadds'⟩
    rw [vsprintfLoop, pieces]
    cases hfmt : r.fmt with
    | nil => exact ⟨w, rfl, adds_nil w⟩
    | cons c fmt =>
      rw [hfmt, List.length_cons] at h
      dsimp only
      split
      · exact hrest (p := .plain c) (Nat.lt_of_succ_lt_succ h) (adds_put w rfl)
      · have hread := readSpec_length { r with fmt := fmt }
        cases hspec : (readSpec { r with fmt := fmt }).2.fmt with
        | nil =>
          refine hrest (p := .percent) ?_ (adds_put w rfl)
          rw [hspec]
          exact Nat.lt_of_le_of_lt (Nat.zero_le _) (Nat.lt_of_succ_lt_succ h)
        | cons c fmt' =>
          rw [hspec, List.length_cons] at hread
          obtain ⟨w₁, hw₁, hadds⟩ := convert_adds str (readSpec { r with fmt := fmt }).1 (readSpec { r with fmt := fmt }).2.args c w
          dsimp only at hread ⊢
          rw [hw₁, Option.bind_some]
          exact hrest (p := .conv _ _ c) (Nat.lt_trans hread (Nat.lt_of_succ_lt_succ h)) hadds

/-- `vsprintf` ends. Its text is as long as the format and the arguments say, and its counts go where they say. -/
theorem vsprintf_adds (str : Nat → List Char) (fmt : List Char) (args : VaList) :
    ∃ w, vsprintf str fmt args = some w ∧ w.out.length = formatLength str fmt args ∧
      w.counts.map Prod.fst = countPointers fmt args := by
  obtain ⟨w, hw, hadds⟩ := vsprintfLoop_adds str (fmt.length + 1) (r := ⟨fmt, args⟩) ⟨[], []⟩ (Nat.lt_succ_self _)
  exact ⟨w, hw, hadds.length.trans (Nat.zero_add _), hadds.counts⟩

end BootPerl
