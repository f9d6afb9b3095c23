import BootPerl.Lemmas.Vsprintf

/-!
# Formats in pieces

`vsprintf` reads its format once, from left to right, and what it has read decides nothing of what it finds behind but the arguments
that are left. So a format that does not end within a conversion can be cut off: the rest is formatted as if it stood alone.
-/

namespace BootPerl

/-! ## Reading with more behind -/

/-- The reader of a format that goes on. -/
def Reader.more (r : Reader) (g : List Char) : Reader := { r with fmt := r.fmt ++ g }

theorem ne_nil_of_length_le {α β : Type} {l : List α} {l' : List β} (h : l'.length ≤ l.length) (hne : l' ≠ []) : l ≠ [] :=
  List.length_pos_iff.1 (Nat.lt_of_lt_of_le (List.length_pos_iff.2 hne) h)

theorem skipAtoi_more (g fmt : List Char) : ∀ i, (skipAtoi i fmt).2 ≠ [] →
    skipAtoi i (fmt ++ g) = ((skipAtoi i fmt).1, (skipAtoi i fmt).2 ++ g) := by
  induction fmt with
  | nil => exact fun _ h => absurd rfl h
  | cons c fmt ih =>
    intro i h
    rw [skipAtoi] at h
    rw [List.cons_append, skipAtoi, skipAtoi]
    by_cases hc : isdigit c
    · rw [if_pos hc] at h
      rw [if_pos hc, if_pos hc]
      exact ih _ h
    · rw [if_neg hc, if_neg hc]
      rfl

theorem readFlags_more (g : List Char) (flags : Flags) (fmt : List Char) : (readFlags flags fmt).2 ≠ [] →
    readFlags flags (fmt ++ g) = ((readFlags flags fmt).1, (readFlags flags fmt).2 ++ g) := by
  fun_induction readFlags flags fmt with
  | case6 flags fmt h1 h2 h3 h4 h5 =>
    intro hne
    obtain ⟨c, fmt, rfl⟩ := List.exists_cons_of_ne_nil hne
    have hminus : c ≠ '-' := fun hc => h1 fmt (by rw [hc])
    have hplus : c ≠ '+' := fun hc => h2 fmt (by rw [hc])
    have hspace : c ≠ ' ' := fun hc => h3 fmt (by rw [hc])
    have hspecial : c ≠ '#' := fun hc => h4 fmt (by rw [hc])
    have hzero : c ≠ '0' := fun hc => h5 fmt (by rw [hc])
    simp [readFlags, hminus, hplus, hspace, hspecial, hzero]
  | _ flags fmt ih => exact ih

theorem readInt_more (g : List Char) (r : Reader) (h : (readInt r).2.fmt ≠ []) :
    readInt (r.more g) = ((readInt r).1, (readInt r).2.more g) := by
  obtain ⟨fmt, args⟩ := r
  cases fmt with
  | nil => exact absurd rfl h
  | cons c fmt =>
    simp only [readInt, Reader.more, List.cons_append] at h ⊢
    by_cases hc : isdigit c
    · rw [if_pos hc] at h
      rw [if_pos hc, if_pos hc]
      have hmore := skipAtoi_more g (c :: fmt) 0 h
      rw [List.cons_append] at hmore
      rw [hmore]
    · rw [if_neg hc, if_neg hc]
      split
      · rfl
      · rfl

theorem readWidth_more (g : List Char) (flags : Flags) (r : Reader) (h : (readWidth flags r).2.2.fmt ≠ []) :
    readWidth flags (r.more g) = ((readWidth flags r).1, (readWidth flags r).2.1, (readWidth flags r).2.2.more g) := by
  have hint : (readInt r).2.fmt ≠ [] := by
    unfold readWidth at h
    dsimp only at h
    split at h
    · exact h
    · exact h
  have hne : r.fmt ≠ [] := ne_nil_of_length_le (readInt_length r) hint
  have hhead : (r.more g).fmt.head? = r.fmt.head? := by
    obtain ⟨c, fmt, hc⟩ := List.exists_cons_of_ne_nil hne
    rw [Reader.more, hc]
    rfl
  unfold readWidth
  rw [readInt_more g r hint, hhead]
  dsimp only
  split
  · rfl
  · rfl

theorem readPrecision_more (g : List Char) (r : Reader) (h : (readPrecision r).2.fmt ≠ []) :
    readPrecision (r.more g) = ((readPrecision r).1, (readPrecision r).2.more g) := by
  have hne : r.fmt ≠ [] := ne_nil_of_length_le (readPrecision_length r) h
  obtain ⟨fmt, args⟩ := r
  obtain ⟨c, fmt, rfl⟩ := List.exists_cons_of_ne_nil hne
  by_cases hc : c = '.'
  · subst hc
    have hmore := readInt_more g ⟨fmt, args⟩ h
    simp only [Reader.more] at hmore
    simp only [readPrecision, Reader.more, List.cons_append, hmore]
  · simp [readPrecision, Reader.more, hc]

theorem readQualifier_more (g : List Char) (r : Reader) (h : (readQualifier r).2.fmt ≠ []) :
    readQualifier (r.more g) = ((readQualifier r).1, (readQualifier r).2.more g) := by
  have hne : r.fmt ≠ [] := ne_nil_of_length_le (readQualifier_length r) h
  obtain ⟨fmt, args⟩ := r
  obtain ⟨c, fmt, rfl⟩ := List.exists_cons_of_ne_nil hne
  simp only [readQualifier, Reader.more, List.cons_append]
  split
  · rfl
  · rfl

/-- What stands between a `%` and its letter does not depend on what stands behind the letter. -/
theorem readSpec_more (g : List Char) (r : Reader) (h : (readSpec r).2.fmt ≠ []) :
    readSpec (r.more g) = ((readSpec r).1, (readSpec r).2.more g) := by
  obtain ⟨flags, hflags⟩ : ∃ flags, flags = readFlags Flags.none r.fmt := ⟨_, rfl⟩
  obtain ⟨width, hwidth⟩ : ∃ width, width = readWidth flags.1 { r with fmt := flags.2 } := ⟨_, rfl⟩
  obtain ⟨precision, hprecision⟩ : ∃ precision, precision = readPrecision width.2.2 := ⟨_, rfl⟩
  obtain ⟨qualifier, hqualifier⟩ : ∃ qualifier, qualifier = readQualifier precision.2 := ⟨_, rfl⟩
  have hspec : readSpec r = (⟨width.1, width.2.1, precision.1, qualifier.1⟩, qualifier.2) := by
    rw [hqualifier, hprecision, hwidth, hflags]
    rfl
  rw [hspec] at h ⊢
  -- each reader leaves something, since the next one does
  have h₃ : precision.2.fmt ≠ [] := ne_nil_of_length_le (readQualifier_length _) (hqualifier ▸ h)
  have h₂ : width.2.2.fmt ≠ [] := ne_nil_of_length_le (readPrecision_length _) (hprecision ▸ h₃)
  have h₁ : flags.2 ≠ [] := ne_nil_of_length_le (readWidth_length flags.1 { r with fmt := flags.2 }) (hwidth ▸ h₂)
  have hmore₁ := readFlags_more g Flags.none r.fmt (hflags ▸ h₁)
  have hmore₂ := readWidth_more g flags.1 { r with fmt := flags.2 } (hwidth ▸ h₂)
  have hmore₃ := readPrecision_more g width.2.2 (hprecision ▸ h₃)
  have hmore₄ := readQualifier_more g precision.2 (hqualifier ▸ h)
  rw [← hflags] at hmore₁
  rw [← hwidth] at hmore₂
  rw [← hprecision] at hmore₃
  rw [← hqualifier] at hmore₄
  simp only [Reader.more] at hmore₁ hmore₂ hmore₃ hmore₄ ⊢
  simp only [readSpec, hmore₁, hmore₂, hmore₃, hmore₄]

/-! ## The loop -/

/-- Text and counts behind what is written: the counts go up by the length of the text before. -/
def Written.append (w w' : Written) : Written :=
  ⟨w.out ++ w'.out, w.counts ++ w'.counts.map fun c => (c.1, w.out.length + c.2)⟩

theorem Written.append_nil (w : Written) : w.append ⟨[], []⟩ = w := by
  obtain ⟨out, counts⟩ := w
  simp [Written.append]

theorem Written.append_put (w w' : Written) (t : List Char) : w.append (w'.put t) = (w.append w').put t := by
  simp [Written.append, Written.put]

theorem Written.append_assoc (w w' w'' : Written) : (w.append w').append w'' = w.append (w'.append w'') := by
  simp [Written.append, Nat.add_assoc, Function.comp_def]

/-- A conversion writes behind what is written. -/
theorem convert_append (str : Nat → List Char) (spec : Spec) (args : VaList) (c : Char) (w w' : Written) :
    convert str spec args c (w.append w') = (convert str spec args c w').map w.append := by
  have hput : (w.append w').put = fun t => w.append (w'.put t) := funext fun t => (w.append_put w' t).symm
  unfold convert
  split <;> simp only [hput, Option.map_some, Option.map_map, Function.comp_def]
  · simp [Written.append]

/-- What the loop writes does not depend on what is written before. -/
theorem vsprintfLoop_append (str : Nat → List Char) (fuel : Nat) : ∀ (r : Reader) (w w' : Written),
    vsprintfLoop str fuel r (w.append w') = (vsprintfLoop str fuel r w').map w.append := by
  induction fuel with
  | zero => exact fun _ _ _ => rfl
  | succ fuel ih =>
    intro r w w'
    rw [vsprintfLoop, vsprintfLoop]
    cases r.fmt with
    | nil => rfl
    | cons c fmt =>
      dsimp only
      split
      · rw [← Written.append_put, ih]
      · cases (readSpec { r with fmt := fmt }).2.fmt with
        | nil =>
          dsimp only
          rw [← Written.append_put, ih]
        | cons c fmt =>
          dsimp only
          rw [convert_append]
          cases convert str (readSpec _).1 (readSpec _).2.args c w' with
          | none => rfl
          | some w₁ => exact ih _ _ _

/-- Fuel that is enough is as good as any other. -/
theorem vsprintfLoop_fuel (str : Nat → List Char) (fuel : Nat) : ∀ {k : Nat} (r : Reader) (w : Written), r.fmt.length < fuel →
    r.fmt.length < k → vsprintfLoop str fuel r w = vsprintfLoop str k r w := by
  induction fuel with
  | zero => exact fun _ _ h => absurd h (Nat.not_lt_zero _)
  | succ fuel ih =>
    intro k r w h hk
    obtain ⟨k, rfl⟩ := Nat.exists_eq_succ_of_ne_zero (Nat.ne_of_gt (Nat.zero_lt_of_lt hk))
    rw [vsprintfLoop, vsprintfLoop]
    cases hfmt : r.fmt with
    | nil => rfl
    | cons c fmt =>
      rw [hfmt, List.length_cons] at h hk
      dsimp only
      split
      · exact ih _ _ (by dsimp only; omega) (by dsimp only; omega)
      · have hread := readSpec_length { r with fmt := fmt }
        cases hspec : (readSpec { r with fmt := fmt }).2.fmt with
        | nil => exact ih _ _ (by rw [hspec, List.length_nil]; omega) (by rw [hspec, List.length_nil]; omega)
        | cons c fmt' =>
          rw [hspec, List.length_cons] at hread
          dsimp only at hread ⊢
          congr 1
          funext w₁
          exact ih _ _ (by dsimp only; omega) (by dsimp only; omega)

/-- The arguments that a format leaves, unless it ends within a conversion. -/
def argsLeft : Nat → Reader → Option VaList
  | 0, _ => none
  | fuel + 1, r =>
    match r.fmt with
    | [] => some r.args
    | c :: fmt =>
      if c ≠ '%' then argsLeft fuel { r with fmt := fmt }
      else
        let spec := readSpec { r with fmt := fmt }
        match spec.2.fmt with
        | [] => none
        | c :: fmt => argsLeft fuel ⟨fmt, argsAfter spec.1 spec.2.args c⟩

/-- The loop goes through the first format, and then through the second with the arguments that are left. -/
theorem vsprintfLoop_more (str : Nat → List Char) {g : List Char} {k : Nat} (hg : g.length < k) (fuel : Nat) :
    ∀ {r : Reader} {left : VaList} (w : Written), argsLeft fuel r = some left →
    vsprintfLoop str (fuel + k) (r.more g) w = (vsprintfLoop str fuel r w).bind (vsprintfLoop str k ⟨g, left⟩) := by
  induction fuel with
  | zero => exact fun _ h => absurd h (Option.some_ne_none _).symm
  | succ fuel ih =>
    intro r left w h
    obtain ⟨fmt, args⟩ := r
    cases fmt with
    | nil =>
      obtain rfl : args = left := Option.some.inj h
      exact vsprintfLoop_fuel str _ _ w (by simp only [Reader.more, List.nil_append]; omega) hg
    | cons c fmt =>
      rw [argsLeft] at h
      dsimp only at h
      by_cases hc : c ≠ '%'
      · rw [if_pos hc] at h
        rw [Nat.add_right_comm, Reader.more, List.cons_append, vsprintfLoop_plain str _ hc, vsprintfLoop_plain str _ hc]
        exact ih _ h
      · obtain rfl := Classical.not_not.1 hc
        rw [if_neg hc] at h
        obtain ⟨⟨spec, fmt', args'⟩, hspec⟩ : ∃ read, readSpec ⟨fmt, args⟩ = read := ⟨_, rfl⟩
        rw [hspec] at h
        cases fmt' with
        | nil => exact absurd h (Option.some_ne_none _).symm
        | cons c fmt' =>
          have hmore := readSpec_more g ⟨fmt, args⟩ (by rw [hspec]; exact List.cons_ne_nil c fmt')
          rw [hspec] at hmore
          obtain ⟨w', hw', -⟩ := convert_adds str spec args' c w
          rw [Nat.add_right_comm, Reader.more, List.cons_append, vsprintfLoop_conv _ hmore hw', vsprintfLoop_conv _ hspec hw']
          exact ih w' h

/-- A format in two pieces, the first of which does not end within a conversion: the second is formatted with the arguments that are
left, and its text and its counts come behind those of the first. -/
theorem vsprintf_pieces (str : Nat → List Char) (f g : List Char) (args : VaList) {left : VaList}
    (h : argsLeft (f.length + 1) ⟨f, args⟩ = some left) :
    vsprintf str (f ++ g) args = (vsprintf str f args).bind fun w => (vsprintf str g left).map w.append := by
  have hmore := vsprintfLoop_more str (Nat.lt_succ_self g.length) (f.length + 1) ⟨[], []⟩ h
  have hfuel := vsprintfLoop_fuel str (f.length + 1 + (g.length + 1)) (k := (f ++ g).length + 1) (Reader.more ⟨f, args⟩ g) ⟨[], []⟩
    (by simp only [Reader.more, List.length_append]; omega) (by simp only [Reader.more, List.length_append]; omega)
  have hbehind : (fun w => (vsprintf str g left).map w.append) = vsprintfLoop str (g.length + 1) ⟨g, left⟩ := by
    funext w
    have happend := vsprintfLoop_append str (g.length + 1) ⟨g, left⟩ w ⟨[], []⟩
    rw [Written.append_nil] at happend
    exact happend.symm
  rw [hbehind]
  exact hfuel.symm.trans hmore

/-- The number takes the first argument, and the name behind it the second. -/
theorem vsprintf_pieces_pid :
    vsprintf (fun _ => "init".toList) ("pid %d, ".toList ++ "%s".toList) (fun i => BitVec.ofNat 32 (i + 1)) =
      (vsprintf (fun _ => "init".toList) "pid %d, ".toList fun i => BitVec.ofNat 32 (i + 1)).bind fun w =>
        (vsprintf (fun _ => "init".toList) "%s".toList (vaNext fun i => BitVec.ofNat 32 (i + 1))).map w.append :=
  vsprintf_pieces _ _ _ _ rfl

/-! ## What pieces show -/

/-- A format shows a text, whatever stands before and behind, and leaves these arguments. -/
structure Formats (str : Nat → List Char) (fmt : List Char) (args left : VaList) (text : List Char) : Prop where
  loop : ∀ {g : List Char} {fuel k : Nat} (w : Written), (fmt ++ g).length < fuel → g.length < k →
    vsprintfLoop str fuel ⟨fmt ++ g, args⟩ w = vsprintfLoop str k ⟨g, left⟩ (w.put text)

section
variable {str : Nat → List Char} {fmt fmt' text text' : List Char} {args left left' : VaList}

/-- A format that shows a text formats it. -/
theorem Formats.vsprintf_eq (h : Formats str fmt args left text) : vsprintf str fmt args = some ⟨text, []⟩ := by
  have hloop := h.loop (g := []) (k := 1) ⟨[], []⟩ (by rw [List.append_nil]; exact Nat.lt_succ_self fmt.length) Nat.one_pos
  rw [List.append_nil] at hloop
  exact hloop

theorem Formats.append (h : Formats str fmt args left text) (h' : Formats str fmt' left left' text') :
    Formats str (fmt ++ fmt') args left' (text ++ text') := by
  refine ⟨fun {g fuel k} w hfuel hk => ?_⟩
  rw [List.append_assoc] at hfuel ⊢
  have hput : (w.put text).put text' = w.put (text ++ text') := by simp [Written.put]
  rw [h.loop w hfuel (Nat.lt_succ_self _), h'.loop (w.put text) (Nat.lt_succ_self _) hk, hput]

/-- Characters that begin no conversion are shown as they are. -/
theorem Formats.plain (str : Nat → List Char) (args : VaList) : ∀ {t : List Char}, '%' ∉ t → Formats str t args args t := by
  intro t ht
  refine ⟨fun {g fuel k} w hfuel hk => ?_⟩
  induction t generalizing fuel w with
  | nil =>
    have hput : w.put [] = w := by simp [Written.put]
    rw [hput]
    exact vsprintfLoop_fuel str _ _ w hfuel hk
  | cons c t ih =>
    rw [List.mem_cons, not_or] at ht
    obtain ⟨fuel, rfl⟩ := Nat.exists_eq_succ_of_ne_zero (Nat.ne_of_gt (Nat.zero_lt_of_lt hfuel))
    have hput : (w.put [c]).put t = w.put (c :: t) := by simp [Written.put]
    rw [List.cons_append] at hfuel ⊢
    rw [vsprintfLoop_plain str fuel (Ne.symm ht.1), ← hput]
    exact ih ht.2 _ (Nat.lt_of_succ_lt_succ hfuel)

/-- A conversion shows its text. -/
theorem Formats.conv {spec : Spec} {c : Char} (hread : readSpec ⟨fmt, args⟩ = (spec, ⟨[c], left⟩))
    (hconv : ∀ w, convert str spec left c w = some (w.put text)) :
    Formats str ('%' :: fmt) args (argsAfter spec left c) text := by
  refine ⟨fun {g fuel k} w hfuel hk => ?_⟩
  obtain ⟨fuel, rfl⟩ := Nat.exists_eq_succ_of_ne_zero (Nat.ne_of_gt (Nat.zero_lt_of_lt hfuel))
  have hmore : readSpec ⟨fmt ++ g, args⟩ = (spec, ⟨c :: g, left⟩) := by
    have hspec := readSpec_more g ⟨fmt, args⟩ (by rw [hread]; exact List.cons_ne_nil c [])
    rw [hread] at hspec
    exact hspec
  rw [List.cons_append, List.length_cons, List.length_append] at hfuel
  rw [List.cons_append, vsprintfLoop_conv fuel hmore (hconv w)]
  exact vsprintfLoop_fuel str _ _ _ (by dsimp only; omega) hk

/-- A string without width and precision is shown whole. -/
theorem stringText_whole {t : List Char} (ht : t.length < 2147483648) : stringText ⟨Flags.none, -1, -1, none⟩ t = t := by
  have hlen : cInt (strnlen t 4294967295) = t.length := by
    rw [strnlen_eq, Nat.min_eq_left (by omega), cInt_of_mem (by omega) (by omega)]
  have hzero : ((-1 : Int) - t.length).toNat = 0 := by omega
  have hrest : (cInt (-2)).toNat = 0 := rfl
  simp [stringText, hlen, padWhile_eq, Flags.none, hzero, hrest]

/-- `%s`. -/
theorem Formats.string (str : Nat → List Char) (args : VaList) (h0 : args 0 ≠ 0) (ht : (str (args 0).toNat).length < 2147483648) :
    Formats str ['%', 's'] args (vaNext args) (str (args 0).toNat) := by
  have hread : readSpec ⟨['s'], args⟩ = (⟨Flags.none, -1, -1, none⟩, ⟨['s'], args⟩) := rfl
  refine Formats.conv hread fun w => ?_
  have hconv : convert str ⟨Flags.none, -1, -1, none⟩ args 's' w =
      some (w.put (stringText ⟨Flags.none, -1, -1, none⟩ (if args 0 = 0 then "<NULL>".toList else str (args 0).toNat))) := rfl
  rw [hconv, if_neg h0, stringText_whole ht]

/-- A width of one digit. -/
theorem readSpec_digit {d : Char} (hrange : 48 ≤ d.toNat ∧ d.toNat ≤ 57) (h0 : d ≠ '0') (args : VaList) : readSpec ⟨['0', d, 'l', 'x'], args⟩ =
    (⟨{ Flags.none with zeropad := true }, (d.toNat - 48 : Nat), -1, some 'l'⟩, ⟨['x'], args⟩) := by
  have hd := isdigit_of_range hrange.1 hrange.2
  have hflag : d ≠ '-' ∧ d ≠ '+' ∧ d ≠ ' ' ∧ d ≠ '#' := by
    refine ⟨?_, ?_, ?_, ?_⟩
    all_goals
      rintro rfl
      exact absurd hrange (by decide)
  have hstar : d ≠ '*' := by
    rintro rfl
    exact absurd hrange (by decide)
  have hatoi : skipAtoi 0 [d, 'l', 'x'] = (((d.toNat - 48 : Nat) : Int), ['l', 'x']) := by
    have hvalue : cInt (0 * 10 + d.toNat - 48) = ((d.toNat - 48 : Nat) : Int) := by
      rw [cInt_of_mem (by omega) (by omega)]
      omega
    rw [skipAtoi, if_pos hd, hvalue]
    rfl
  simp [readSpec, readFlags, readWidth, readInt, readPrecision, readQualifier, hatoi, hd, h0, hflag, hstar]

/-- `%0` and a width before `lx`. -/
theorem Formats.hex (str : Nat → List Char) (args : VaList) {d : Char} (hrange : 48 ≤ d.toNat ∧ d.toNat ≤ 57) (h0 : d ≠ '0') :
    Formats str ['%', '0', d, 'l', 'x'] args (vaNext args) (zeroPadded (d.toNat - 48) (args 0).toNat) := by
  refine Formats.conv (readSpec_digit hrange h0 args) fun w => ?_
  have hconv : ∀ width : Nat, convert str ⟨{ Flags.none with zeropad := true }, width, -1, some 'l'⟩ args 'x' w =
      (number ((args 0).setWidth 64) 16 width (-1) { Flags.none with zeropad := true }).map w.put := fun _ => rfl
  rw [hconv, number_zeroPadded _ (by omega)]
  rfl

end

end BootPerl
