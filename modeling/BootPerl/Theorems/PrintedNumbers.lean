import BootPerl.Screen
import BootPerl.Theorems.LongestNumeral
import BootPerl.Theorems.Numbers

/-!
# Printed numbers, read by the C library

What `number()` prints is a numeral of `strtoul`, for every base, width, precision and flag: the blanks in front and the space of a positive
number are white space, and the prefix of a base is one that `strtoul` knows.
-/

namespace BootPerl

open Outcome Ctype

theorem charBytes_append (t u : List Char) : charBytes (t ++ u) = charBytes t ++ charBytes u := List.map_append

theorem charBytes_replicate (k : Nat) (c : Char) : charBytes (List.replicate k c) = List.replicate k (UInt8.ofNat c.toNat) :=
  List.map_replicate

/-- A digit as a byte. -/
def digitByte (large : Bool) (d : Nat) : UInt8 := UInt8.ofNat (digitSymbol large d).toNat

theorem digitNumber_digitByte (large : Bool) : ∀ d < 36, digitNumber (digitByte large d) = d := by
  cases large <;> decide

theorem charBytes_numeral (large : Bool) (base n : Nat) :
    charBytes (numeral (digitSymbol large) base n) = numeral (digitByte large) base n := by
  unfold numeral
  split
  · rfl
  · rw [charBytes, List.map_map]
    rfl

/-- The sign as `strtoul` sees it. -/
theorem shownSign_cut (value : Int) (type : Flags) : ∃ k sign, charBytes (shownSign value type) = List.replicate k 32 ++ Sign.text sign ∧
    sign.apply (BitVec.ofNat 32 value.natAbs) = BitVec.ofInt 32 value := by
  have hpos : ¬value < 0 → BitVec.ofNat 32 value.natAbs = BitVec.ofInt 32 value := by
    intro h
    rw [← BitVec.ofInt_natCast, Int.natAbs_of_nonneg (Int.not_lt.1 h)]
  unfold shownSign
  split
  · rename_i hneg
    refine ⟨0, .minus, rfl, ?_⟩
    rw [Sign.apply, ← BitVec.ofInt_natCast, Int.ofNat_natAbs_of_nonpos (Int.le_of_lt hneg), BitVec.ofInt_neg, BitVec.neg_neg]
  · rename_i h
    split
    · exact ⟨0, .plus, rfl, hpos h⟩
    · split
      · exact ⟨1, .none, rfl, hpos h⟩
      · exact ⟨0, .none, rfl, hpos h⟩

/-- The prefix of a base as `strtoul` sees it. -/
theorem shownBase_cut (base : Nat) (type : Flags) : ∃ shown k, charBytes (shownBase base type) = shown ++ List.replicate k 48 ∧
    (shown = [] ∨ base = 16 ∧ ∃ x : UInt8, (x = 88 ∨ x = 120) ∧ shown = [48, x]) := by
  unfold shownBase
  split
  · exact ⟨[], 1, rfl, Or.inl rfl⟩
  · split
    · rename_i h
      cases type.large with
      | true => exact ⟨[48, 88], 0, rfl, Or.inr ⟨h.2, 88, Or.inl rfl, rfl⟩⟩
      | false => exact ⟨[48, 120], 0, rfl, Or.inr ⟨h.2, 120, Or.inr rfl, rfl⟩⟩
    · exact ⟨[], 0, rfl, Or.inl rfl⟩

section
variable {base : Nat} (hb : 2 ≤ base) (hb' : base ≤ 36)
include hb hb'

/-- Zeros and a numeral are digits. -/
theorem digits_below (large : Bool) (k n : Nat) : ∀ c ∈ List.replicate k 48 ++ numeral (digitByte large) base n, digitNumber c < base := by
  intro c hc
  rcases List.mem_append.1 hc with hc | hc
  · obtain ⟨-, rfl⟩ := List.mem_replicate.1 hc
    exact Nat.lt_of_lt_of_le (by decide) hb
  · obtain ⟨d, hd, rfl⟩ := mem_numeral hb hc
    rwa [digitNumber_digitByte large d (Nat.lt_of_lt_of_le hd hb')]

/-- The number of zeros and a numeral. -/
theorem horner_digits (large : Bool) (k n : Nat) :
    horner base digitNumber 0 (List.replicate k 48 ++ numeral (digitByte large) base n) = n := by
  rw [horner_replicate (by decide)]
  exact horner_numeral hb (fun d hd => digitNumber_digitByte large d (Nat.lt_of_lt_of_le hd hb')) n

/-- The text of a number is cut into its parts. -/
theorem exists_numberCut {value : Int} {type : Flags} {t : List Char} (h : IsNumberText value base type t) :
    ∃ x : NumeralCut base (charBytes t), x.digits ≠ [] ∧ horner x.inBase digitNumber 0 x.digits = value.natAbs ∧
      x.sign.apply (BitVec.ofNat 32 value.natAbs) = BitVec.ofInt 32 value ∧ ∃ trail, x.rest = List.replicate trail 32 := by
  obtain ⟨lead, zeros, trail, rfl⟩ := h
  obtain ⟨k, sign, hsign, hvalue⟩ := shownSign_cut value type
  obtain ⟨shown, z, hbase, hshown⟩ := shownBase_cut base type
  have hbelow := digits_below hb hb' type.large (z + zeros) value.natAbs
  have hhorner := horner_digits hb hb' type.large (z + zeros) value.natAbs
  have hne : List.replicate (z + zeros) 48 ++ numeral (digitByte type.large) base value.natAbs ≠ [] := by
    have hlen := @numeral_length _ (digitByte type.large) base value.natAbs
    intro hnil
    rw [(List.append_eq_nil_iff.1 hnil).2, List.length_nil] at hlen
    omega
  have htext : charBytes (List.replicate lead ' ' ++ shownSign value type ++ shownBase base type ++ List.replicate zeros '0' ++
      numeral (digitSymbol type.large) base value.natAbs ++ List.replicate trail ' ') = List.replicate (lead + k) 32 ++ (sign.text ++
      (shown ++ ((List.replicate (z + zeros) 48 ++ numeral (digitByte type.large) base value.natAbs) ++ List.replicate trail 32))) := by
    simp only [charBytes_append, charBytes_replicate, charBytes_numeral, hsign, hbase, ← List.replicate_append_replicate,
      List.append_assoc]
    rfl
  rw [htext]
  generalize List.replicate (z + zeros) 48 ++ numeral (digitByte type.large) base value.natAbs = digits at hbelow hhorner hne
  have hblank : ∀ c ∈ List.replicate trail (32 : UInt8), c = 32 := fun c hc => (List.mem_replicate.1 hc).2
  have hstops : StopsAt (digitNumber · < base) (List.replicate trail 32) := by
    intro c hc
    rw [hblank c (List.mem_of_mem_head? hc)]
    exact Nat.not_lt.2 hb'
  have hcuts : CutsBase base (digits ++ List.replicate trail 32) base shown := by
    rcases hshown with rfl | ⟨rfl, x, hx, rfl⟩
    · have hplain : plainBase base (digits ++ List.replicate trail 32) = base := if_pos (Nat.ne_of_gt (Nat.lt_of_lt_of_le Nat.two_pos hb))
      have hno : base = 0 ∨ base = 16 → ∀ x l, digits ++ List.replicate trail 32 = 48 :: x :: l → ¬(x = 88 ∨ x = 120) := by
        intro hbase x l hl hx
        have hmem : x ∈ digits ++ List.replicate trail 32 := by
          rw [hl]
          exact List.mem_cons_of_mem _ List.mem_cons_self
        have hle : base ≤ 16 := by omega
        rcases List.mem_append.1 hmem with hmem | hmem
        · have hlt := Nat.lt_of_lt_of_le (hbelow x hmem) hle
          rcases hx with rfl | rfl
          · exact absurd hlt (by decide)
          · exact absurd hlt (by decide)
        · obtain rfl := hblank x hmem
          exact absurd hx (by decide)
      have hcut := CutsBase.plain hno
      rwa [hplain] at hcut
    · exact .hex (Or.inr rfl) hx
  obtain ⟨c, u, hu, hc⟩ := NumeralText.head (Or.inr hb) hb'
    ⟨[], .none, base, shown, digits, fun _ h => absurd h List.not_mem_nil, hcuts.shows hne, hne, hbelow⟩ (List.replicate trail 32)
  obtain ⟨hspace, hplus, hminus⟩ := digitNumber_lt_facts c hc
  refine ⟨⟨List.replicate (lead + k) 32, sign, base, shown, digits, List.replicate trail 32, rfl, fun c hc => ?_, ?_, fun _ => ?_, hcuts,
    hbelow, hstops⟩, hne, hhorner, hvalue, trail, rfl⟩
  · obtain ⟨-, rfl⟩ := List.mem_replicate.1 hc
    decide
  · rw [hu]
    exact sign.stopsAt_space hspace u
  · rw [hu]
    exact stopsAt_cons.2 (not_or.2 ⟨hplus, hminus⟩)

end

/-- For every number of 64 bits, base, width, precision and flags: what `number()` prints is read by `strtoul` in the same base as the
number, or as `ULONG_MAX` with `ERANGE` if its magnitude is too large, up to the blanks behind it; and `atoi` reads every decimal `int`. -/
theorem printed_number_read {base : Nat} (hb : 2 ≤ base) (hb' : base ≤ 36) (num : BitVec 64) {size precision : Int} (hsize : -1 ≤ size)
    (hsize' : size < 1073741824) (hprecision : precision < 1073741824) (type : Flags) {m : Mem} {nptr : Nat} (hp : 0 < nptr) :
    ∃ t, number num base size precision type = some t ∧ (CString m nptr (charBytes t) →
      (∃ endptr trail, CString m endptr (List.replicate trail 32) ∧ Comes (fun fuel => strtoul fuel m nptr base)
        (.ok (if ulongMax < (numberValue num type).natAbs then ⟨BitVec.ofNat 32 ulongMax, some .erange, some endptr⟩
          else ⟨BitVec.ofInt 32 (numberValue num type), none, some endptr⟩))) ∧
      (base = 10 → -2147483648 ≤ numberValue num type → numberValue num type < 2147483648 →
        Comes (fun fuel => atoi fuel m nptr) (.ok (numberValue num type)))) := by
  obtain ⟨t, ht, htext⟩ := number_shape hb hb' num hsize hsize' hprecision type
  refine ⟨t, ht, fun h => ?_⟩
  obtain ⟨x, hne, hnumber, hvalue, trail, hrest⟩ := exists_numberCut hb hb' htext
  have hcomes := strtoul_cut (Or.inr hb) hb' hp x h
  rw [NumeralCut.converted, if_neg hne, hnumber, hvalue] at hcomes
  constructor
  · refine ⟨nptr + (x.space.length + x.sign.text.length + x.shown.length + x.digits.length), trail, ?_, hcomes⟩
    rw [x.text] at h
    have hblanks := h.append_right.append_right.append_right.append_right
    rw [hrest] at hblanks
    simp only [Nat.add_assoc] at hblanks ⊢
    exact hblanks
  · rintro rfl hlow hhigh
    have hsmall : ¬ulongMax < (numberValue num type).natAbs := by
      rw [ulongMax]
      omega
    rw [if_neg hsmall] at hcomes
    have hint : (BitVec.ofInt 32 (numberValue num type)).toInt = numberValue num type := by
      rw [BitVec.toInt_ofInt]
      exact Int.bmod_eq_of_le (by omega) (by omega)
    have hatoi := hcomes.bind (g := fun _ r => .ok r.value.toInt) (.const _)
    dsimp only at hatoi
    rw [hint] at hatoi
    exact hatoi

/-- A number in a field of three, printed and read. -/
theorem printed_number_read_minusFive : number (-5) 10 3 (-1) { Flags.none with sign := true } = some [' ', '-', '5'] ∧
    Comes (fun fuel => atoi fuel minusFive 16) (.ok (-5)) := by
  obtain ⟨t, ht, hread⟩ := @printed_number_read 10 (by decide) (by decide) (-5) 3 (-1) (by decide) (by decide) (by decide)
    { Flags.none with sign := true } minusFive 16 (by decide)
  have hprint : number (-5) 10 3 (-1) { Flags.none with sign := true } = some [' ', '-', '5'] := by
    decide +kernel
  obtain rfl := Option.some.inj (hprint.symm.trans ht)
  exact ⟨hprint, (hread cString_minusFive).2 rfl (by decide) (by decide)⟩

end BootPerl
