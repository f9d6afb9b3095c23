import BootPerl.Lib.CString
import BootPerl.Lib.Numerals
import BootPerl.Lib.Spans
import BootPerl.Strtoul

/-!
# The longest numeral

`strtoul` converts the longest beginning of its string that is a numeral in the base it is given. Its test for an overflow, made before
each digit is added, says exactly whether the number is too large; and where `0x` has no digit behind it, the zero is the numeral.
-/

namespace BootPerl

open Outcome Ctype

/-- How a sign is shown. -/
inductive Sign where
  | none
  | plus
  | minus
  deriving DecidableEq, Repr

/-- The text of a sign. -/
def Sign.text : Sign → List UInt8
  | .none => []
  | .plus => [43]
  | .minus => [45]

/-- What a sign makes of a number. -/
def Sign.apply : Sign → BitVec 32 → BitVec 32
  | .minus, v => -v
  | .none, v => v
  | .plus, v => v

/-- The number that a digit or an unaccented letter stands for; 36, which no base has, for other characters. -/
def digitNumber (c : UInt8) : Nat :=
  if 48 ≤ c ∧ c ≤ 57 then c.toNat - 48
  else if 65 ≤ c ∧ c ≤ 90 then c.toNat - 55
  else if 97 ≤ c ∧ c ≤ 122 then c.toNat - 87
  else 36

/-- The base of digits that nothing is shown before, when the caller gives `base`: zero leaves it to the first digit. -/
def plainBase (base : Nat) (digits : List UInt8) : Nat :=
  if base ≠ 0 then base else if digits.head? = some 48 then 8 else 10

/-- The base of a numeral, and what shows it, when the caller gives `base`. -/
inductive ShowsBase (base : Nat) (digits : List UInt8) : Nat → List UInt8 → Prop where
  | plain : ShowsBase base digits (plainBase base digits) []
  | hex {x : UInt8} : base = 0 ∨ base = 16 → x = 88 ∨ x = 120 → ShowsBase base digits 16 [48, x]

/-- A numeral when the caller gives `base`: white space, a sign, what shows the base, and digits. -/
structure NumeralText (base : Nat) where
  space : List UInt8
  sign : Sign
  inBase : Nat
  shown : List UInt8
  digits : List UInt8
  spaces : ∀ c ∈ space, isSpace c = true
  shows : ShowsBase base digits inBase shown
  nonempty : digits ≠ []
  below : ∀ c ∈ digits, digitNumber c < inBase

namespace NumeralText
variable {base : Nat}

/-- What it looks like. -/
def text (x : NumeralText base) : List UInt8 := x.space ++ (x.sign.text ++ (x.shown ++ x.digits))

/-- The number, without the sign. -/
def number (x : NumeralText base) : Nat := horner x.inBase digitNumber 0 x.digits

/-- What a conversion of it at `nptr` leaves: a number that is too large is `ULONG_MAX`, with or without a sign. -/
def converted (x : NumeralText base) (nptr : Nat) : Converted :=
  if ulongMax < x.number then ⟨BitVec.ofNat 32 ulongMax, some .erange, some (nptr + x.text.length)⟩
  else ⟨x.sign.apply (BitVec.ofNat 32 x.number), none, some (nptr + x.text.length)⟩

end NumeralText

/-! ## Characters -/

/-- The digit of a character, as the code finds it. -/
theorem charDigit_eq (c : UInt8) : if digitNumber c < 36 then charDigit c = some (UInt8.ofNat (digitNumber c))
    else charDigit c = none ∨ 36 ≤ ((charDigit c).getD 0).toNat :=
  forall_byte (p := fun c => if digitNumber c < 36 then charDigit c = some (UInt8.ofNat (digitNumber c))
    else charDigit c = none ∨ 36 ≤ ((charDigit c).getD 0).toNat) (by decide +kernel) c

/-- A digit is neither a space nor a sign. -/
theorem digitNumber_lt_facts (c : UInt8) : digitNumber c < 36 → isSpace c = false ∧ c ≠ 43 ∧ c ≠ 45 :=
  forall_byte (p := fun c => digitNumber c < 36 → isSpace c = false ∧ c ≠ 43 ∧ c ≠ 45) (by decide +kernel) c

/-- Two characters have `X` as their capital letter. -/
theorem toUpper_eq_iff (c : UInt8) : toUpper c = 88 ↔ c = 88 ∨ c = 120 :=
  forall_byte (p := fun c => toUpper c = 88 ↔ c = 88 ∨ c = 120) (by decide +kernel) c

/-! ## The loops -/

section
variable {m : Mem}

/-- Behind a sign, or none, no space comes before a character that is none. -/
theorem Sign.stopsAt_space (sign : Sign) {c : UInt8} (hc : isSpace c = false) (u : List UInt8) :
    StopsAt (isSpace · = true) (sign.text ++ c :: u) := by
  cases sign with
  | none =>
    refine stopsAt_cons.2 ?_
    rw [hc]
    decide
  | plus => exact stopsAt_cons.2 (by decide)
  | minus => exact stopsAt_cons.2 (by decide)

theorem Sign.apply_zero (sign : Sign) : sign.apply 0#32 = 0#32 := by
  cases sign with
  | none => rfl
  | plus => rfl
  | minus => rfl

/-- The sign that the code keeps does what the sign does. -/
theorem Sign.ite_minus (sign : Sign) (v : BitVec 32) : (if decide (sign = .minus) = true then -v else v) = sign.apply v := by
  cases sign with
  | none => rfl
  | plus => rfl
  | minus => rfl

/-- The NUL stops what it does not have the property for. -/
theorem CString.byte_stops {p : UInt8 → Prop} {s : Nat} {l : List UInt8} (h : CString m s l) (hl : StopsAt p l) (h0 : ¬p 0) :
    ¬p (m.byte s) := by
  cases l with
  | nil => rwa [h.byte_nil]
  | cons c l =>
    rw [h.byte_cons]
    exact stopsAt_cons.1 hl

/-- The loop over white space ends behind it. -/
theorem skipSpace_comes {sp l : List UInt8} : ∀ {s : Nat}, CString m s (sp ++ l) → (∀ c ∈ sp, isSpace c = true) →
    StopsAt (isSpace · = true) l → Comes (fun fuel => skipSpace fuel m s) (.ok (s + sp.length)) := by
  induction sp with
  | nil =>
    intro s h _ hl
    have hstop : ¬isSpace (m.byte s) = true := h.byte_stops hl (by decide)
    exact .turn (fun fuel => by rw [skipSpace, if_neg hstop]; rfl) (.const _)
  | cons c sp ih =>
    intro s h hsp hl
    have hrest := ih h.2.2 (fun d hd => hsp d (List.mem_cons_of_mem c hd)) hl
    have hc : isSpace (m.byte s) = true := by
      rw [h.byte_cons]
      exact hsp c List.mem_cons_self
    rw [List.length_cons, Nat.add_comm sp.length, ← Nat.add_assoc]
    exact .turn (fun fuel => by rw [skipSpace, if_pos hc]) hrest

/-- The sign is taken, and nothing where there is none. -/
theorem takeSign_eq {sign : Sign} {l : List UInt8} {s : Nat} (h : CString m s (sign.text ++ l))
    (hl : sign = .none → StopsAt (fun c => c = 43 ∨ c = 45) l) : takeSign m s = (decide (sign = .minus), s + sign.text.length) := by
  cases sign with
  | plus =>
    have hb : m.byte s = 43 := h.byte_cons
    rw [takeSign, hb]
    rfl
  | minus =>
    have hb : m.byte s = 45 := h.byte_cons
    rw [takeSign, hb]
    rfl
  | none =>
    have hb : m.byte s ≠ 43 ∧ m.byte s ≠ 45 := not_or.1 (h.byte_stops (hl rfl) (by decide))
    rw [takeSign, if_neg hb.2, if_neg hb.1]
    rfl

/-- The base that a text shows that goes on with `rest`, and what shows it, when the caller gives `base`. -/
inductive CutsBase (base : Nat) (rest : List UInt8) : Nat → List UInt8 → Prop where
  | plain : (base = 0 ∨ base = 16 → ∀ x l, rest = 48 :: x :: l → ¬(x = 88 ∨ x = 120)) → CutsBase base rest (plainBase base rest) []
  | hex {x : UInt8} : base = 0 ∨ base = 16 → x = 88 ∨ x = 120 → CutsBase base rest 16 [48, x]

theorem CutsBase.length_shown {base b : Nat} {rest shown : List UInt8} (h : CutsBase base rest b shown) (hne : shown ≠ []) :
    shown.length = 2 := by
  cases h with
  | plain _ => exact absurd rfl hne
  | hex _ _ => rfl

/-- The base is found as it is shown. -/
theorem takeBase_eq {base b : Nat} {shown rest : List UInt8} {s : Nat} (h : CString m s (shown ++ rest)) (hcut : CutsBase base rest b shown) :
    takeBase m s base = (b, s + shown.length) := by
  cases hcut with
  | hex hbase hx =>
    have h0 : m.byte s = 48 := h.byte_cons
    have h1 : toUpper (m.byte (s + 1)) = 88 := by
      rw [h.2.2.byte_cons]
      exact (toUpper_eq_iff _).2 hx
    rw [takeBase, if_pos h0, if_pos ⟨hbase, h1⟩]
    rfl
  | plain hno =>
    have hhead : m.byte s = 48 ↔ rest.head? = some 48 := by
      cases rest with
      | nil =>
        rw [h.byte_nil]
        exact iff_of_false (by decide) (by simp)
      | cons c rest => rw [h.byte_cons, List.head?_cons, Option.some_inj]
    have hhex : m.byte s = 48 → ¬((base = 0 ∨ base = 16) ∧ toUpper (m.byte (s + 1)) = 88) := by
      rintro h0 ⟨hbase, h1⟩
      obtain ⟨l, rfl⟩ := List.head?_eq_some_iff.1 (hhead.1 h0)
      rw [toUpper_eq_iff] at h1
      cases l with
      | nil =>
        rw [h.2.2.byte_nil] at h1
        exact absurd h1 (by decide)
      | cons x l =>
        rw [h.2.2.byte_cons] at h1
        exact hno hbase x l rfl h1
    unfold takeBase plainBase
    by_cases h0 : m.byte s = 48
    · rw [if_pos h0, if_neg (hhex h0), if_pos (hhead.1 h0)]
      split
      · rename_i hz
        rw [if_neg (not_not.2 hz)]
        rfl
      · rfl
    · rw [if_neg h0, if_neg fun h => h0 (hhead.2 h)]
      split
      · rename_i hz
        rw [if_neg (not_not.2 hz)]
        rfl
      · rfl

/-- The digits end at a character that is none. -/
theorem takeDigits_stop {base : Nat} (hb : base ≤ 36) {d : Digits} (hd : ¬digitNumber (m.byte d.s) < base) (fuel : Nat) :
    takeDigits m base (fuel + 1) d = .ok d := by
  have hdigit := charDigit_eq (m.byte d.s)
  rw [takeDigits]
  split
  · rfl
  · split
    · rfl
    · split
      · rfl
      · rename_i c hc
        rw [hc] at hdigit
        have hle : base ≤ c.toNat := by
          split at hdigit
          · obtain rfl := Option.some.inj hdigit
            rw [UInt8.toNat_ofNat', Nat.mod_eq_of_lt (by omega)]
            exact Nat.not_lt.1 hd
          · rcases hdigit with hnone | hge
            · cases hnone
            · exact Nat.le_trans hb hge
        rw [if_pos hle]

/-- A digit is taken. -/
theorem takeDigits_step {base : Nat} (hb : base ≤ 36) {d : Digits} (hs : 0 < d.s) (hd : digitNumber (m.byte d.s) < base) (fuel : Nat) :
    takeDigits m base (fuel + 1) d =
      if ulongMax < d.i * base + digitNumber (m.byte d.s) then takeDigits m base fuel ⟨d.s + 1, d.i, true⟩
      else takeDigits m base fuel ⟨d.s + 1, d.i * base + digitNumber (m.byte d.s), d.overflow⟩ := by
  have hlt : digitNumber (m.byte d.s) < 36 := Nat.lt_of_lt_of_le hd hb
  have hdigit := charDigit_eq (m.byte d.s)
  rw [if_pos hlt] at hdigit
  have hvalue : (UInt8.ofNat (digitNumber (m.byte d.s))).toNat = digitNumber (m.byte d.s) := by
    rw [UInt8.toNat_ofNat', Nat.mod_eq_of_lt (by omega)]
  have hne : m.byte d.s ≠ 0 := by
    intro h0
    rw [h0] at hlt
    exact absurd hlt (by decide)
  rw [takeDigits, if_neg hne, if_neg (Nat.ne_of_gt hs), hdigit]
  dsimp only
  rw [hvalue, if_neg (Nat.not_le.2 hd)]
  by_cases hover : ulongMax < d.i * base + digitNumber (m.byte d.s)
  · rw [if_pos hover, if_pos ((limit_lt_iff hd).1 hover)]
  · have hfits : d.i * base + digitNumber (m.byte d.s) < 4294967296 := Nat.lt_succ_of_le (Nat.not_lt.1 hover)
    rw [if_neg hover, if_neg fun h => hover ((limit_lt_iff hd).2 h), Nat.mod_eq_of_lt hfits]

/-- The loop over the digits ends behind them, with their number unless it is too large, and then with `overflow` set. -/
theorem takeDigits_comes {base : Nat} (hpos : 0 < base) (hb : base ≤ 36) {ds rest : List UInt8} : ∀ {d : Digits},
    CString m d.s (ds ++ rest) → 0 < d.s → (∀ c ∈ ds, digitNumber c < base) → StopsAt (digitNumber · < base) rest →
    ∃ i, Comes (fun fuel => takeDigits m base fuel d)
        (.ok ⟨d.s + ds.length, i, d.overflow || decide (ulongMax < horner base digitNumber d.i ds ∧ ds ≠ [])⟩) ∧
      (horner base digitNumber d.i ds ≤ ulongMax → i = horner base digitNumber d.i ds) := by
  induction ds with
  | nil =>
    intro d h _ _ hstop
    have hd : ¬digitNumber (m.byte d.s) < base := h.byte_stops hstop (Nat.not_lt.2 hb)
    refine ⟨d.i, .turn (takeDigits_stop hb hd) ?_, fun _ => rfl⟩
    simpa using Comes.const _
  | cons c ds ih =>
    intro d h hs hds hstop
    have hc : digitNumber (m.byte d.s) < base := by
      rw [h.byte_cons]
      exact hds c List.mem_cons_self
    have hrest := fun i o => @ih ⟨d.s + 1, i, o⟩ h.2.2 (Nat.succ_pos _) (fun x hx => hds x (List.mem_cons_of_mem c hx)) hstop
    have hhorner : horner base digitNumber d.i (c :: ds) = horner base digitNumber (d.i * base + digitNumber c) ds := rfl
    have hle := @le_horner _ digitNumber base hpos ds (d.i * base + digitNumber c)
    have hstep := fun fuel => takeDigits_step hb hs hc fuel
    rw [h.byte_cons] at hstep
    rw [hhorner, List.length_cons, Nat.add_comm ds.length, ← Nat.add_assoc]
    by_cases hover : ulongMax < d.i * base + digitNumber c
    · obtain ⟨i, hcomes, -⟩ := hrest d.i true
      refine ⟨i, .turn (fun fuel => (hstep fuel).trans (if_pos hover)) ?_,
        fun hfits => absurd (Nat.lt_of_lt_of_le hover hle) (Nat.not_lt.2 hfits)⟩
      have hlarge : ulongMax < horner base digitNumber (d.i * base + digitNumber c) ds := Nat.lt_of_lt_of_le hover hle
      simpa [hlarge] using hcomes
    · obtain ⟨i, hcomes, hi⟩ := hrest (d.i * base + digitNumber c) d.overflow
      refine ⟨i, .turn (fun fuel => (hstep fuel).trans (if_neg hover)) ?_, hi⟩
      have hsame : (ulongMax < horner base digitNumber (d.i * base + digitNumber c) ds ∧ ds ≠ []) ↔
          ulongMax < horner base digitNumber (d.i * base + digitNumber c) ds := by
        refine and_iff_left_of_imp fun hlarge hnil => ?_
        rw [hnil] at hlarge
        exact hover hlarge
      simpa [hsame] using hcomes

end

/-! ## The cut of a string -/

/-- A string cut as the code does: white space, a sign, what shows the base, digits, and the rest, each as long as it can be. -/
structure NumeralCut (base : Nat) (l : List UInt8) where
  space : List UInt8
  sign : Sign
  inBase : Nat
  shown : List UInt8
  digits : List UInt8
  rest : List UInt8
  text : l = space ++ (sign.text ++ (shown ++ (digits ++ rest)))
  spaces : ∀ c ∈ space, isSpace c = true
  spaceStops : StopsAt (isSpace · = true) (sign.text ++ (shown ++ (digits ++ rest)))
  signStops : sign = .none → StopsAt (fun c => c = 43 ∨ c = 45) (shown ++ (digits ++ rest))
  cutsBase : CutsBase base (digits ++ rest) inBase shown
  below : ∀ c ∈ digits, digitNumber c < inBase
  stops : StopsAt (digitNumber · < inBase) rest

/-- What the conversion of a cut string leaves. -/
def NumeralCut.converted {base : Nat} {l : List UInt8} (x : NumeralCut base l) (nptr : Nat) : Converted :=
  if x.digits = [] then
    ⟨0, none, some (if x.shown = [] then nptr else nptr + (x.space.length + x.sign.text.length + 1))⟩
  else if ulongMax < horner x.inBase digitNumber 0 x.digits then
    ⟨BitVec.ofNat 32 ulongMax, some .erange, some (nptr + (x.space.length + x.sign.text.length + x.shown.length + x.digits.length))⟩
  else
    ⟨x.sign.apply (BitVec.ofNat 32 (horner x.inBase digitNumber 0 x.digits)), none,
      some (nptr + (x.space.length + x.sign.text.length + x.shown.length + x.digits.length))⟩

/-- A sign, or none. -/
theorem exists_sign (t : List UInt8) :
    ∃ (sign : Sign) (u : List UInt8), t = sign.text ++ u ∧ (sign = .none → StopsAt (fun c => c = 43 ∨ c = 45) u) := by
  cases t with
  | nil => exact ⟨.none, [], rfl, fun _ => stopsAt_nil _⟩
  | cons c t =>
    by_cases hplus : c = 43
    · exact ⟨.plus, t, by rw [hplus]; rfl, fun h => nomatch h⟩
    · by_cases hminus : c = 45
      · exact ⟨.minus, t, by rw [hminus]; rfl, fun h => nomatch h⟩
      · exact ⟨.none, c :: t, rfl, fun _ => stopsAt_cons.2 (not_or.2 ⟨hplus, hminus⟩)⟩

/-- What shows the base, or nothing. -/
theorem exists_cutsBase (base : Nat) (t : List UInt8) : ∃ b shown rest, t = shown ++ rest ∧ CutsBase base rest b shown := by
  by_cases h : (base = 0 ∨ base = 16) ∧ ∃ x l, t = 48 :: x :: l ∧ (x = 88 ∨ x = 120)
  · obtain ⟨hbase, x, l, rfl, hx⟩ := h
    exact ⟨16, [48, x], l, rfl, .hex hbase hx⟩
  · exact ⟨_, [], t, rfl, .plain fun hbase x l hl hx => h ⟨hbase, x, l, hl, hx⟩⟩

/-- Every string can be cut. -/
theorem exists_cut (base : Nat) (l : List UInt8) : Nonempty (NumeralCut base l) := by
  obtain ⟨space, t, rfl, hspace, hstop⟩ := exists_span (isSpace · = true) l
  obtain ⟨sign, t, rfl, hsign⟩ := exists_sign t
  obtain ⟨b, shown, t, rfl, hcut⟩ := exists_cutsBase base t
  obtain ⟨digits, rest, rfl, hdigits, hrest⟩ := exists_span (digitNumber · < b) t
  exact ⟨⟨space, sign, b, shown, digits, rest, rfl, hspace, hstop, hsign, hcut, hdigits, hrest⟩⟩

/-- Where no digit was found, `endptr` is set to the `x` behind a zero, or to the string. -/
theorem noConv_eq {m : Mem} {nptr base : Nat} {l : List UInt8} (x : NumeralCut base l) (h : CString m nptr l) :
    noConv m nptr (nptr + x.space.length + x.sign.text.length + x.shown.length) =
      ⟨0, none, some (if x.shown = [] then nptr else nptr + (x.space.length + x.sign.text.length + 1))⟩ := by
  rw [x.text] at h
  have hshown := h.append_right.append_right
  have hcuts := x.cutsBase
  rw [noConv]
  generalize x.inBase = b at hcuts
  generalize x.shown = shown at hcuts hshown h ⊢
  cases hcuts with
  | hex hbase hx =>
    have h0 : m.byte (nptr + x.space.length + x.sign.text.length) = 48 := hshown.byte_cons
    have h1 : toUpper (m.byte (nptr + x.space.length + x.sign.text.length + 1)) = 88 := by
      rw [hshown.2.2.byte_cons]
      exact (toUpper_eq_iff _).2 hx
    have hlen : [48, ‹UInt8›].length = 2 := rfl
    rw [if_pos ⟨by omega, h1, h0⟩, if_neg (List.cons_ne_nil _ _)]
    congr 3
    simp only [List.length_cons, List.length_nil]
    omega
  | plain hno =>
    rw [if_neg, if_pos rfl]
    rintro ⟨hle, hup, -⟩
    rw [List.length_nil, Nat.add_zero] at hle hup
    -- the character before is a space or a sign
    rcases List.eq_nil_or_concat (x.space ++ x.sign.text) with hnil | ⟨init, c, hpre⟩
    · have hlen := congrArg List.length hnil
      rw [List.length_append, List.length_nil] at hlen
      omega
    · have hlen := congrArg List.length hpre
      rw [List.length_append, List.length_concat] at hlen
      rw [← List.append_assoc, hpre, List.concat_eq_append, List.append_assoc] at h
      have hc : m.byte (nptr + init.length) = c := h.append_right.byte_cons
      have haddr : nptr + x.space.length + x.sign.text.length - 1 = nptr + init.length := by omega
      rw [haddr, hc, toUpper_eq_iff] at hup
      have hmem : c ∈ x.space ++ x.sign.text := by
        rw [hpre]
        simp
      rcases List.mem_append.1 hmem with hmem | hmem
      · have hspace := x.spaces c hmem
        rcases hup with rfl | rfl
        · exact absurd hspace (by decide)
        · exact absurd hspace (by decide)
      · generalize x.sign = sign at hmem
        cases sign with
        | none => exact absurd hmem List.not_mem_nil
        | plus =>
          obtain rfl := List.mem_singleton.1 hmem
          exact absurd hup (by decide)
        | minus =>
          obtain rfl := List.mem_singleton.1 hmem
          exact absurd hup (by decide)

section
variable {base : Nat} (hb : base = 0 ∨ 2 ≤ base) (hb' : base ≤ 36)
include hb hb'

theorem plainBase_bounds (t : List UInt8) : 2 ≤ plainBase base t ∧ plainBase base t ≤ 36 := by
  unfold plainBase
  split
  · exact ⟨hb.resolve_left ‹_›, hb'⟩
  · split
    · decide
    · decide

theorem CutsBase.bounds {t shown : List UInt8} {b : Nat} (h : CutsBase base t b shown) : 2 ≤ b ∧ b ≤ 36 := by
  cases h with
  | plain _ => exact plainBase_bounds hb hb' t
  | hex _ _ => decide

theorem ShowsBase.le {t shown : List UInt8} {b : Nat} (h : ShowsBase base t b shown) : b ≤ 36 := by
  cases h with
  | plain => exact (plainBase_bounds hb hb' t).2
  | hex _ _ => decide

variable {m : Mem} {nptr : Nat} {l : List UInt8}

/-- `strtoul` converts its string as it is cut. -/
theorem strtoul_cut (hp : 0 < nptr) (x : NumeralCut base l) (h : CString m nptr l) :
    Comes (fun fuel => strtoul fuel m nptr base) (.ok (x.converted nptr)) := by
  have hnoconv := noConv_eq x h
  rw [x.text] at h
  obtain ⟨hlow, hhigh⟩ := x.cutsBase.bounds hb hb'
  have hskip := skipSpace_comes h x.spaces x.spaceStops
  have hsign := takeSign_eq h.append_right x.signStops
  have hbase := takeBase_eq h.append_right.append_right x.cutsBase
  obtain ⟨i, hdigits, hi⟩ := @takeDigits_comes m x.inBase (Nat.lt_of_lt_of_le Nat.two_pos hlow) hhigh x.digits x.rest
    ⟨nptr + x.space.length + x.sign.text.length + x.shown.length, 0, false⟩ h.append_right.append_right.append_right
    (Nat.lt_of_lt_of_le hp (by simp only [Nat.add_assoc]; exact Nat.le_add_right _ _)) x.below x.stops
  have hvalid : ¬((base : Int) < 0 ∨ (base : Int) = 1 ∨ (base : Int) > 36) := by omega
  simp only [strtoul, if_neg hvalid]
  refine hskip.bind ?_
  by_cases h0 : m.byte (nptr + x.space.length) = 0
  · have hnil := h.append_right.byte_eq_zero_iff.1 h0
    rw [List.append_eq_nil_iff, List.append_eq_nil_iff, List.append_eq_nil_iff] at hnil
    obtain ⟨-, hshown, hdig, -⟩ := hnil
    have hnone : noConv m nptr nptr = ⟨0, none, some nptr⟩ := by
      rw [noConv, if_neg]
      exact fun hle => absurd hle.1 (by omega)
    simp only [if_pos h0, hnone, NumeralCut.converted, if_pos hdig, if_pos hshown]
    exact .const _
  · simp only [if_neg h0, hsign, Int.toNat_natCast, hbase]
    refine hdigits.bind ?_
    dsimp only
    by_cases hdig : x.digits = []
    · have hlen : nptr + x.space.length + x.sign.text.length + x.shown.length + x.digits.length =
          nptr + x.space.length + x.sign.text.length + x.shown.length := by
        rw [hdig]
        rfl
      rw [if_pos hlen, hnoconv, NumeralCut.converted, if_pos hdig]
      exact .const _
    · have hlen := List.length_pos_iff.2 hdig
      have hend : nptr + x.space.length + x.sign.text.length + x.shown.length + x.digits.length =
          nptr + (x.space.length + x.sign.text.length + x.shown.length + x.digits.length) := by omega
      rw [if_neg (by omega), hend, NumeralCut.converted, if_neg hdig]
      by_cases hlarge : ulongMax < horner x.inBase digitNumber 0 x.digits
      · rw [if_pos (by simp [hlarge, hdig]), if_pos hlarge]
        exact .const _
      · rw [if_neg (by simp [hlarge]), if_neg hlarge, hi (Nat.not_lt.1 hlarge)]
        rw [Sign.ite_minus]
        exact .const _

/-! ## The numerals that begin a string -/

theorem NumeralText.head (y : NumeralText base) (z : List UInt8) :
    ∃ c u, y.shown ++ (y.digits ++ z) = c :: u ∧ digitNumber c < 36 := by
  obtain ⟨c, ds, hds⟩ := List.exists_cons_of_ne_nil y.nonempty
  have hc : digitNumber c < y.inBase := y.below c (hds ▸ List.mem_cons_self)
  have hshows := y.shows
  have hle := hshows.le hb hb'
  generalize y.inBase = b at hshows hle hc
  generalize y.shown = shown at hshows ⊢
  cases hshows with
  | plain => exact ⟨c, ds ++ z, by rw [hds]; rfl, Nat.lt_of_lt_of_le hc hle⟩
  | hex _ _ => exact ⟨48, _, rfl, by decide⟩

end

/-- A sign, and no sign behind it, is found in one way. -/
theorem sign_unique {s s' : Sign} {u v : List UInt8} (hu : StopsAt (fun c => c = 43 ∨ c = 45) u)
    (hv : s' = .none → StopsAt (fun c => c = 43 ∨ c = 45) v) (h : s.text ++ u = s'.text ++ v) : s = s' ∧ u = v := by
  cases s with
  | none =>
    cases s' with
    | none => exact ⟨rfl, h⟩
    | plus =>
      obtain rfl : u = 43 :: v := h
      exact (stopsAt_cons.1 hu (Or.inl rfl)).elim
    | minus =>
      obtain rfl : u = 45 :: v := h
      exact (stopsAt_cons.1 hu (Or.inr rfl)).elim
  | plus =>
    cases s' with
    | none =>
      obtain rfl : v = 43 :: u := h.symm
      exact (stopsAt_cons.1 (hv rfl) (Or.inl rfl)).elim
    | plus => exact ⟨rfl, (List.cons.inj h).2⟩
    | minus => exact absurd (List.cons.inj h).1 (by decide)
  | minus =>
    cases s' with
    | none =>
      obtain rfl : v = 45 :: u := h.symm
      exact (stopsAt_cons.1 (hv rfl) (Or.inr rfl)).elim
    | plus => exact absurd (List.cons.inj h).1 (by decide)
    | minus => exact ⟨rfl, (List.cons.inj h).2⟩

/-- Digits have the base that the code finds, except for a zero of which the code makes a `0x`. -/
theorem base_unique {base b b' : Nat} {shown shown' ds ds' z rest : List UInt8} (hshows : ShowsBase base ds b shown) (hne : ds ≠ [])
    (hds : ∀ c ∈ ds, digitNumber c < b) (hcut : CutsBase base (ds' ++ rest) b' shown') (hrest : StopsAt (digitNumber · < b') rest)
    (h : shown ++ (ds ++ z) = shown' ++ (ds' ++ rest)) :
    (shown = shown' ∧ b = b' ∧ ds <+: ds') ∨ (shown'.length = 2 ∧ shown = [] ∧ ds = [48]) := by
  obtain ⟨c, ds, rfl⟩ := List.exists_cons_of_ne_nil hne
  cases hshows with
  | hex hbase hx =>
    cases hcut with
    | hex _ _ =>
      obtain ⟨-, htail⟩ := List.cons.inj h
      obtain ⟨rfl, hdigits⟩ := List.cons.inj htail
      exact Or.inl ⟨rfl, rfl, span_prefix hds hrest hdigits⟩
    | plain hno => exact absurd hx (hno hbase _ _ h.symm)
  | plain =>
    cases hcut with
    | hex hbase hx =>
      obtain ⟨rfl, htail⟩ := List.cons.inj h
      cases ds with
      | nil => exact Or.inr ⟨rfl, rfl, rfl⟩
      | cons d ds =>
        -- neither 8 nor 16 has the digit `x`
        obtain ⟨rfl, -⟩ := List.cons.inj htail
        have hd := hds d (List.mem_cons_of_mem _ List.mem_cons_self)
        have hle : plainBase base (48 :: d :: ds) ≤ 16 := by
          rcases hbase with rfl | rfl
          · simp [plainBase]
          · simp [plainBase]
        rcases hx with rfl | rfl
        · exact absurd (Nat.lt_of_lt_of_le hd hle) (by decide)
        · exact absurd (Nat.lt_of_lt_of_le hd hle) (by decide)
    | plain hno =>
      have h : c :: ds ++ z = ds' ++ rest := h
      have hhead : plainBase base (c :: ds) = plainBase base (ds' ++ rest) := by
        rw [← h]
        rfl
      rw [← hhead] at hrest
      exact Or.inl ⟨rfl, hhead, span_prefix hds hrest h⟩

section
variable {base : Nat} (hb : base = 0 ∨ 2 ≤ base) (hb' : base ≤ 36) {l : List UInt8}
include hb hb'

/-- A numeral that begins a string is the cut with fewer digits, or the zero of a `0x`. -/
theorem NumeralCut.of_prefix (x : NumeralCut base l) {y : NumeralText base} (hy : y.text <+: l) :
    y.space = x.space ∧ y.sign = x.sign ∧ ((y.shown = x.shown ∧ y.inBase = x.inBase ∧ y.digits <+: x.digits) ∨
      (x.shown.length = 2 ∧ y.shown = [] ∧ y.digits = [48])) := by
  obtain ⟨z, hz⟩ := hy
  have hl := hz.trans x.text
  obtain ⟨c, u, hu, hc⟩ := y.head hb hb' z
  obtain ⟨hspace, hplus, hminus⟩ := digitNumber_lt_facts c hc
  simp only [NumeralText.text, List.append_assoc] at hl
  rw [hu] at hl
  obtain ⟨hsp, hl⟩ := span_unique y.spaces x.spaces (y.sign.stopsAt_space hspace u) x.spaceStops hl
  obtain ⟨hsg, hl⟩ := sign_unique (stopsAt_cons.2 (not_or.2 ⟨hplus, hminus⟩)) x.signStops hl
  rw [← hu] at hl
  exact ⟨hsp, hsg, base_unique y.shows y.nonempty y.below x.cutsBase x.stops hl⟩

end

theorem CutsBase.shows {base b : Nat} {shown ds rest : List UInt8} (h : CutsBase base (ds ++ rest) b shown) (hne : ds ≠ []) :
    ShowsBase base ds b shown := by
  obtain ⟨c, ds, rfl⟩ := List.exists_cons_of_ne_nil hne
  cases h with
  | plain _ => exact .plain
  | hex hbase hx => exact .hex hbase hx

section
variable {base : Nat} {l : List UInt8}

/-- The numeral of a cut with digits. -/
def NumeralCut.numeral (x : NumeralCut base l) (hne : x.digits ≠ []) : NumeralText base :=
  ⟨x.space, x.sign, x.inBase, x.shown, x.digits, x.spaces, x.cutsBase.shows hne, hne, x.below⟩

theorem NumeralCut.numeral_prefix (x : NumeralCut base l) (hne : x.digits ≠ []) : (x.numeral hne).text <+: l := by
  refine ⟨x.rest, Eq.trans ?_ x.text.symm⟩
  simp [NumeralCut.numeral, NumeralText.text]

/-- The zero of a `0x`. -/
def NumeralCut.zero (x : NumeralCut base l) (hx : x.shown.length = 2) : NumeralText base where
  space := x.space
  sign := x.sign
  inBase := plainBase base [48]
  shown := []
  digits := [48]
  spaces := x.spaces
  shows := .plain
  nonempty := List.cons_ne_nil _ _
  below := by
    have hcuts := x.cutsBase
    generalize x.inBase = b at hcuts
    generalize x.shown = shown at hcuts hx
    cases hcuts with
    | plain _ => exact absurd hx (by decide)
    | hex hbase _ =>
      intro c hc
      obtain rfl := List.mem_singleton.1 hc
      rcases hbase with rfl | rfl
      · decide
      · decide

theorem NumeralCut.zero_prefix (x : NumeralCut base l) (hx : x.shown.length = 2) : (x.zero hx).text <+: l := by
  have hcuts := x.cutsBase
  have htext := x.text
  generalize x.inBase = b at hcuts
  generalize hshown : x.shown = shown at hcuts htext
  cases hcuts with
  | plain _ => exact absurd (congrArg List.length hshown ▸ hx) (by decide)
  | @hex c _ _ =>
    refine ⟨c :: (x.digits ++ x.rest), Eq.trans ?_ htext.symm⟩
    simp [NumeralCut.zero, NumeralText.text]

end

/-- For every string and every base: `strtoul` converts the longest of its beginnings that is a numeral, with the test for overflow and
`endptr` right; where none is a numeral it returns zero and leaves `endptr` at the string. -/
theorem strtoul_longest {m : Mem} {nptr : Nat} {l : List UInt8} (h : CString m nptr l) (hp : 0 < nptr) {base : Nat}
    (hb : base = 0 ∨ 2 ≤ base) (hb' : base ≤ 36) :
    (∀ x : NumeralText base, x.text <+: l → (∀ y : NumeralText base, y.text <+: l → y.text.length ≤ x.text.length) →
      Comes (fun fuel => strtoul fuel m nptr base) (.ok (x.converted nptr))) ∧
    ((∀ x : NumeralText base, ¬x.text <+: l) → Comes (fun fuel => strtoul fuel m nptr base) (.ok ⟨0, none, some nptr⟩)) := by
  obtain ⟨cut⟩ := exists_cut base l
  have hcomes := strtoul_cut hb hb' hp cut h
  constructor
  · intro x hx hlongest
    have heq : cut.converted nptr = x.converted nptr := by
      obtain ⟨hspace, hsign, ⟨hshown, hinBase, hdigits⟩ | ⟨hlen, hshown, hdigits⟩⟩ := cut.of_prefix hb hb' hx
      · have hne : cut.digits ≠ [] := fun hnil => x.nonempty (List.prefix_nil.1 (hnil ▸ hdigits))
        have hle := hlongest _ (cut.numeral_prefix hne)
        simp only [NumeralText.text, NumeralCut.numeral, List.length_append, hspace, hsign, hshown] at hle
        have hdig : x.digits = cut.digits := hdigits.eq_of_length_le (by omega)
        simp only [NumeralCut.converted, NumeralText.converted, NumeralText.number, NumeralText.text, List.length_append, hspace, hsign, hshown,
          hinBase, hdig, if_neg hne, Nat.add_assoc]
      · have hnil : cut.digits = [] := by
          by_contra hne
          have hle := hlongest _ (cut.numeral_prefix hne)
          have hpos := List.length_pos_iff.2 hne
          simp only [NumeralText.text, NumeralCut.numeral, List.length_append, hspace, hsign, hshown, hdigits, hlen, List.length_nil,
            List.length_singleton] at hle
          omega
        have hne : cut.shown ≠ [] := fun hn => by simp [hn] at hlen
        have hzero : x.number = 0 := by
          rw [NumeralText.number, hdigits]
          simp [horner, digitNumber]
        rw [NumeralCut.converted, if_pos hnil, if_neg hne, NumeralText.converted, hzero, if_neg (by decide), hsign, NumeralText.text]
        simp [hspace, hsign, hshown, hdigits, Sign.apply_zero, Nat.add_assoc]
    rw [← heq]
    exact hcomes
  · intro hnone
    have hnil : cut.digits = [] := by
      by_contra hne
      exact hnone _ (cut.numeral_prefix hne)
    have hshown : cut.shown = [] := by
      by_contra hne
      exact hnone _ (cut.zero_prefix (cut.cutsBase.length_shown hne))
    rw [NumeralCut.converted, if_pos hnil, if_pos hshown] at hcomes
    exact hcomes

/-- ` -5` at 16. -/
def minusFive : Mem := ⟨fun a => if a = 16 then 32 else if a = 17 then 45 else if a = 18 then 53 else 0, fun _ => false⟩

theorem cString_minusFive : CString minusFive 16 [32, 45, 53] := by simp [CString, minusFive]

/-- The numeral ` -5`. -/
def minusFiveText : NumeralText 10 where
  space := [32]
  sign := .minus
  inBase := 10
  shown := []
  digits := [53]
  spaces := List.forall_mem_singleton.2 (by decide)
  shows := .plain
  nonempty := List.cons_ne_nil _ _
  below := List.forall_mem_singleton.2 (by decide)

/-- A string that is a numeral as a whole. -/
theorem strtoul_longest_minusFive : Comes (fun fuel => strtoul fuel minusFive 16 10) (.ok ⟨-5, none, some 19⟩) :=
  (strtoul_longest cString_minusFive (by decide) (Or.inr (by decide)) (by decide)).1 minusFiveText (List.prefix_refl _)
    fun _ hy => hy.length_le

end BootPerl
