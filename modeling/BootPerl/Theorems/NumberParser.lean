import BootPerl.Theorems.Numbers

/-!
# Reading what was formatted

`simple_strtoul` and `simple_strtol` read numbers, `sprintf` prints them. `%#lX` shows the base in a large letter, and the parser knows the
small one only.
-/

namespace BootPerl

/-- A conversion for an `unsigned long`, and the base that its text is read with. -/
inductive Pairing where
  | lu
  | lo
  | lx
  | lX
  | specialLo
  | specialLx
  | specialLX
  deriving DecidableEq

/-- The format. -/
def Pairing.format : Pairing → List Char
  | .lu => "%lu".toList
  | .lo => "%lo".toList
  | .lx => "%lx".toList
  | .lX => "%lX".toList
  | .specialLo => "%#lo".toList
  | .specialLx => "%#lx".toList
  | .specialLX => "%#lX".toList

/-- The base that the parser is given; zero leaves it to the text. -/
def Pairing.base : Pairing → Nat
  | .lu => 10
  | .lo => 8
  | .lx => 16
  | .lX => 16
  | .specialLo => 0
  | .specialLx => 0
  | .specialLX => 0

/-- What `sprintf` prints for an `unsigned long`, `simple_strtoul` reads to its end and returns. -/
def ReadsBack (str : Nat → List Char) (args : VaList) (c : Pairing) : Prop :=
  ∃ w, sprintf str c.format args = some w ∧ simpleStrtoul w.out c.base = (args 0, [])

/-- What `sprintf` prints for a `long`, `simple_strtol` reads to its end and returns. -/
def ReadsBackSigned (str : Nat → List Char) (args : VaList) : Prop :=
  ∃ w, sprintf str "%ld".toList args = some w ∧ simpleStrtol w.out 10 = (args 0, [])

/-! ## Printing -/

/-- An integer conversion of a `long`, with flags. -/
def longSpec (flags : Flags) : Spec := ⟨flags, -1, -1, some 'l'⟩

/-- A format that is one integer conversion prints the number. -/
theorem sprintf_integer {str : Nat → List Char} {fmt : List Char} {args : VaList} (flags : Flags) {spec : Spec} {c : Char} {base : Nat}
    {t : List Char} (hread : readSpec ⟨fmt, args⟩ = (spec, ⟨[c], args⟩))
    (hconv : convert str spec args c ⟨[], []⟩ = (integerText (longSpec flags) base args).map (Written.put ⟨[], []⟩))
    (ht : integerText (longSpec flags) base args = some t) : sprintf str ('%' :: fmt) args = some ⟨t, []⟩ := by
  rw [ht] at hconv
  exact vsprintfLoop_conv (fmt.length + 1) hread hconv

/-- An unsigned conversion prints what shows the base, and the digits. -/
theorem integerText_unsigned {base : Nat} (hb : 2 ≤ base) (hb' : base ≤ 36) {flags : Flags} (hs : flags.sign = false) (args : VaList) :
    integerText (longSpec flags) base args =
      some (basePrefix (digitChars flags.large) base flags ++ numeral (digitSymbol flags.large) base (args 0).toNat) := by
  have hsign : signChar ((args 0).setWidth 64) flags = none := by simp [signChar, hs]
  have hmag : (magnitude ((args 0).setWidth 64) flags).toNat = (args 0).toNat := by
    have hlt := (args 0).isLt
    simp [magnitude, hs]
    omega
  have harg : integerArg (some 'l') flags.sign args = (args 0).setWidth 64 := by simp [integerArg, hs]
  rw [integerText, longSpec, harg, number_bare hb hb', hsign, hmag]
  rfl

/-- The text of each conversion. -/
def Pairing.text (v : Nat) : Pairing → List Char
  | .lu => numeral (digitSymbol false) 10 v
  | .lo => numeral (digitSymbol false) 8 v
  | .lx => numeral (digitSymbol false) 16 v
  | .lX => numeral (digitSymbol true) 16 v
  | .specialLo => '0' :: numeral (digitSymbol false) 8 v
  | .specialLx => '0' :: 'x' :: numeral (digitSymbol false) 16 v
  | .specialLX => '0' :: 'X' :: numeral (digitSymbol true) 16 v

theorem sprintf_pairing (str : Nat → List Char) (args : VaList) (c : Pairing) :
    sprintf str c.format args = some ⟨c.text (args 0).toNat, []⟩ := by
  cases c with
  | lu => exact sprintf_integer Flags.none rfl rfl (integerText_unsigned (by decide) (by decide) rfl args)
  | lo => exact sprintf_integer Flags.none rfl rfl (integerText_unsigned (by decide) (by decide) rfl args)
  | lx => exact sprintf_integer Flags.none rfl rfl (integerText_unsigned (by decide) (by decide) rfl args)
  | lX =>
    exact sprintf_integer { Flags.none with large := true } rfl rfl (integerText_unsigned (by decide) (by decide) rfl args)
  | specialLo =>
    exact sprintf_integer { Flags.none with special := true } rfl rfl (integerText_unsigned (by decide) (by decide) rfl args)
  | specialLx =>
    exact sprintf_integer { Flags.none with special := true } rfl rfl (integerText_unsigned (by decide) (by decide) rfl args)
  | specialLX =>
    exact sprintf_integer { Flags.none with special := true, large := true } rfl rfl
      (integerText_unsigned (by decide) (by decide) rfl args)

/-! ## Reading -/

/-- A digit of a base up to 16 is one to the parser, with its value. -/
theorem xdigitValue_symbol (large : Bool) : ∀ d < 16, xdigitValue (digitSymbol large d) = d ∧ isxdigit (digitSymbol large d) := by
  cases large <;> decide

/-- The loop reads digits to their end. -/
theorem strtoulLoop_eq {base : Nat} {l : List Char} : ∀ {start : Nat}, (∀ c ∈ l, isxdigit c ∧ xdigitValue c < base) →
    strtoulLoop base (BitVec.ofNat 32 start) l = (BitVec.ofNat 32 (horner base xdigitValue start l), []) := by
  induction l with
  | nil => exact fun _ => rfl
  | cons c l ih =>
    intro start h
    rw [strtoulLoop, if_pos (h c List.mem_cons_self), ← BitVec.ofNat_mul, ← BitVec.ofNat_add]
    exact ih fun c hc => h c (List.mem_cons_of_mem _ hc)

section
variable {base : Nat} (hb : 2 ≤ base) (hb' : base ≤ 16)
include hb hb'

/-- The loop reads a numeral. -/
theorem strtoulLoop_numeral (large : Bool) (n : Nat) : strtoulLoop base 0 (numeral (digitSymbol large) base n) = (BitVec.ofNat 32 n, []) := by
  have hvalue : ∀ d < base, xdigitValue (digitSymbol large d) = d := fun d hd =>
    (xdigitValue_symbol large d (Nat.lt_of_lt_of_le hd hb')).1
  have hdigits : ∀ c ∈ numeral (digitSymbol large) base n, isxdigit c ∧ xdigitValue c < base := by
    intro c hc
    obtain ⟨d, hd, rfl⟩ := mem_numeral (Nat.lt_of_succ_le hb) hc
    obtain ⟨hval, hx⟩ := xdigitValue_symbol large d (Nat.lt_of_lt_of_le hd hb')
    exact ⟨hx, hval.symm ▸ hd⟩
  have hloop := @strtoulLoop_eq base _ 0 hdigits
  rwa [horner_numeral (Nat.lt_of_succ_le hb) hvalue] at hloop

/-- A numeral begins with a digit. -/
theorem numeral_eq_cons (large : Bool) (n : Nat) : ∃ c l, numeral (digitSymbol large) base n = c :: l ∧ isxdigit c := by
  obtain ⟨c, l, hcl⟩ := List.exists_cons_of_length_pos (l := numeral (digitSymbol large) base n)
    (by rw [numeral_length]; exact Nat.le_max_left 1 _)
  obtain ⟨d, hd, hc⟩ := mem_numeral (Nat.lt_of_succ_le hb) (hcl ▸ List.mem_cons_self)
  exact ⟨c, l, hcl, hc ▸ (xdigitValue_symbol large d (Nat.lt_of_lt_of_le hd hb')).2⟩

end

/-- `0` before a digit shows the base 8. -/
theorem strtoulBase_octal {c : Char} (hc : isxdigit c) (l : List Char) : strtoulBase ('0' :: c :: l) = (8, c :: l) := by
  have hx : c ≠ 'x' := by
    rintro rfl
    exact absurd hc (by decide)
  cases l with
  | nil => simp [strtoulBase]
  | cons d l => simp [strtoulBase, hx]

/-- Every conversion but `%#lX` is read back. -/
theorem simpleStrtoul_text (c : Pairing) (v : Nat) :
    simpleStrtoul (c.text v) c.base = if c = .specialLX then (0, (c.text v).tail) else (BitVec.ofNat 32 v, []) := by
  cases c with
  | lu => exact strtoulLoop_numeral (by decide) (by decide) false v
  | lo => exact strtoulLoop_numeral (by decide) (by decide) false v
  | lx => exact strtoulLoop_numeral (by decide) (by decide) false v
  | lX => exact strtoulLoop_numeral (by decide) (by decide) true v
  | specialLo =>
    obtain ⟨c, l, hcl, hc⟩ := @numeral_eq_cons 8 (by decide) (by decide) false v
    have hloop := @strtoulLoop_numeral 8 (by decide) (by decide) false v
    rw [hcl] at hloop
    rw [Pairing.text, hcl, simpleStrtoul, Pairing.base, if_pos rfl, strtoulBase_octal hc]
    exact hloop
  | specialLx =>
    obtain ⟨c, l, hcl, hc⟩ := @numeral_eq_cons 16 (by decide) (by decide) false v
    have hloop := @strtoulLoop_numeral 16 (by decide) (by decide) false v
    have hbase : strtoulBase ('0' :: 'x' :: c :: l) = (16, c :: l) := if_pos hc
    rw [hcl] at hloop
    rw [Pairing.text, hcl, simpleStrtoul, Pairing.base, if_pos rfl, hbase]
    exact hloop
  | specialLX => rfl

/-- What `%ld` prints: the sign and the digits. -/
theorem sprintf_long (str : Nat → List Char) (args : VaList) : sprintf str "%ld".toList args =
    some ⟨(if (args 0).toInt < 0 then ['-'] else []) ++ numeral (digitSymbol false) 10 (args 0).toInt.natAbs, []⟩ := by
  have hvalue : numberValue ((args 0).signExtend 64) { Flags.none with sign := true } = (args 0).toInt :=
    BitVec.toInt_signExtend_of_le (by decide)
  have htext := @number_bare 10 (by decide) (by decide) ((args 0).signExtend 64) { Flags.none with sign := true }
  rw [signChar_toList, magnitude_toNat, hvalue] at htext
  refine sprintf_integer { Flags.none with sign := true } rfl rfl (htext.trans ?_)
  rw [shownSign]
  split <;> rfl

/-- What `%ld` prints is read back, the least number too. -/
theorem reads_back_long (str : Nat → List Char) (args : VaList) : ReadsBackSigned str args := by
  refine ⟨_, sprintf_long str args, ?_⟩
  have hread : simpleStrtoul (numeral (digitSymbol false) 10 (args 0).toInt.natAbs) 10 = (BitVec.ofNat 32 (args 0).toInt.natAbs, []) :=
    strtoulLoop_numeral (by decide) (by decide) false _
  dsimp only
  split
  · rename_i hneg
    have hback : -BitVec.ofNat 32 (args 0).toInt.natAbs = args 0 := by
      rw [← BitVec.ofInt_natCast, Int.ofNat_natAbs_of_nonpos (Int.le_of_lt hneg), BitVec.ofInt_neg, BitVec.neg_neg, BitVec.ofInt_toInt]
    rw [List.singleton_append, simpleStrtol, hread, hback]
  · rename_i hpos
    have hback : BitVec.ofNat 32 (args 0).toInt.natAbs = args 0 := by
      rw [← BitVec.ofInt_natCast, Int.natAbs_of_nonneg (Int.not_lt.1 hpos), BitVec.ofInt_toInt]
    obtain ⟨c, l, hcl, hc⟩ := @numeral_eq_cons 10 (by decide) (by decide) false (args 0).toInt.natAbs
    rw [hback] at hread
    rw [List.nil_append, ← hread, hcl]
    unfold simpleStrtol
    split
    · rename_i heq
      obtain ⟨rfl, -⟩ := List.cons.inj heq
      exact absurd hc (by decide)
    · rfl

/-- What is printed is read back for every value and every conversion but `%#lX`, and never for that one. -/
theorem reads_back_iff (str : Nat → List Char) (args : VaList) :
    (∀ c, ReadsBack str args c ↔ c ≠ .specialLX) ∧ ReadsBackSigned str args := by
  refine ⟨fun c => ?_, reads_back_long str args⟩
  have htext := simpleStrtoul_text c (args 0).toNat
  constructor
  · rintro ⟨w, hw, hread⟩ rfl
    obtain rfl := Option.some.inj ((sprintf_pairing str args .specialLX).symm.trans hw)
    rw [if_pos rfl, hread] at htext
    exact absurd (Prod.ext_iff.1 htext).2 (List.cons_ne_nil _ _).symm
  · intro hc
    refine ⟨_, sprintf_pairing str args c, ?_⟩
    rw [htext, if_neg hc, BitVec.ofNat_toNat, BitVec.setWidth_eq]

/-- `%#lX` of 255 prints `0XFF`, of which the parser reads a zero. -/
theorem reads_back_false :
    (∃ w, sprintf (fun _ => []) "%#lX".toList (fun _ => 255) = some w ∧ w.out = ['0', 'X', 'F', 'F'] ∧
      simpleStrtoul w.out 0 = (0, ['X', 'F', 'F'])) ∧ ¬ReadsBack (fun _ => []) (fun _ => 255) .specialLX := by
  have hprint := sprintf_pairing (fun _ => []) (fun _ => 255) .specialLX
  refine ⟨⟨_, hprint, by decide, rfl⟩, ?_⟩
  rintro ⟨w, hw, hread⟩
  obtain rfl := Option.some.inj (hprint.symm.trans hw)
  exact absurd (Prod.ext_iff.1 hread).2 (by decide)

end BootPerl
