import BootPerl.Panic
import BootPerl.Theorems.FormatPieces
import BootPerl.Theorems.InterruptPath
import BootPerl.Theorems.PrintkStream

/-!
# What a panic shows

A panic may come in the middle of a line. Its first `printk` ends that line, on the consoles that show it, so the text of the panic
stands on a line of its own on every console; but the level that was to open an empty line is printed there.
-/

namespace BootPerl

/-! ## Lines of the highest level -/

/-- Nothing is printed yet, or the last line has its end. -/
def AtLineStart (out : List Char) : Prop := out = [] ∨ Ended out

/-- Without an end of a line. -/
def OneLine (t : List Char) : Prop := ∀ c ∈ t, ¬EndsLine c

instance (t : List Char) : Decidable (OneLine t) := List.decidableBAll _ t

theorem ended_concat (t : List Char) : Ended (t ++ ['\n']) := ⟨'\n', List.getLast?_concat, Or.inl rfl⟩

theorem ended_append {t u : List Char} (hu : u ≠ []) : Ended (t ++ u) ↔ Ended u := by
  rw [Ended, Ended, List.getLast?_append_of_ne_nil _ hu]

theorem isLine_concat {t : List Char} (h : OneLine t) : IsLine (t ++ ['\n']) 1 := Or.inr ⟨rfl, t, '\n', rfl, Or.inl rfl, h⟩

/-- The message that is one line. -/
theorem addMessage_concat (segs : List Segment) {m : Message} {t : List Char} (ht : OneLine t) (hm : m.text = t ++ ['\n']) :
    addMessage segs m = addLine segs (t ++ ['\n']) := by
  have hsplit := splitLines_line (isLine_concat ht) (fun _ => (rfl : ([] : List Char) = [])) (by simp)
  rw [List.append_nil] at hsplit
  rw [addMessage, hm, hsplit]
  rfl

theorem openLevel_concat {segs : List Segment} {seg : Segment} (h : Ended seg.text) : openLevel (segs ++ [seg]) = -1 := by
  rw [openLevel, List.getLast?_concat]
  exact if_pos h

/-- The segment of a line with the tag `<0>`. -/
theorem beginSegment_emerg (t : List Char) : beginSegment ('<' :: '0' :: '>' :: t) = ⟨0, t⟩ := by
  have hlow : '0' ≤ '0' ∧ '0' ≤ '7' := by decide
  have hstart : StartsTag ('<' :: '0' :: '>' :: t) := ⟨rfl, hlow.1, hlow.2, rfl⟩
  rw [beginSegment, if_pos hstart]
  rfl

/-- A message of one line with the tag `<0>`, where a line begins. -/
theorem addMessage_emerg {segs : List Segment} (hopen : openLevel segs = -1) {m : Message} {t : List Char} (ht : OneLine t)
    (hm : m.text = '<' :: '0' :: '>' :: (t ++ ['\n'])) : addMessage segs m = segs ++ [⟨0, t ++ ['\n']⟩] := by
  have htag : OneLine ('<' :: '0' :: '>' :: t) := by
    intro c hc
    simp only [List.mem_cons] at hc
    rcases hc with rfl | rfl | rfl | hc
    · decide
    · decide
    · decide
    · exact ht c hc
  rw [addMessage_concat segs htag hm]
  rcases addLine_cases segs (('<' :: '0' :: '>' :: t) ++ ['\n']) with ⟨-, hadd⟩ | ⟨init, seg, -, hlevel, -⟩
  · have hbegin : beginSegment (('<' :: '0' :: '>' :: t) ++ ['\n']) = ⟨0, t ++ ['\n']⟩ := beginSegment_emerg _
    rw [hadd, hbegin]
  · omega

/-! ## Segments that have their ends -/

/-- All segments but the last have their ends. -/
def Closed (segs : List Segment) : Prop := ∀ seg ∈ segs.dropLast, Ended seg.text

/-- Where a line begins, the last one has its end too. -/
theorem Closed.all {segs : List Segment} (h : Closed segs) (hopen : openLevel segs = -1) : ∀ seg ∈ segs, Ended seg.text := by
  rcases List.eq_nil_or_concat segs with rfl | ⟨init, last, rfl⟩
  · exact fun _ hseg => absurd hseg List.not_mem_nil
  · rw [List.concat_eq_append] at h hopen ⊢
    rw [Closed, List.dropLast_concat] at h
    rw [openLevel, List.getLast?_concat] at hopen
    intro seg hseg
    rcases List.mem_append.1 hseg with hinit | hlast
    · exact h seg hinit
    · rw [List.mem_singleton.1 hlast]
      by_contra hend
      dsimp only at hopen
      rw [if_neg hend] at hopen
      omega

theorem Closed.addLine {segs : List Segment} (h : Closed segs) (line : List Char) : Closed (addLine segs line) := by
  rcases addLine_cases segs line with ⟨hopen, hadd⟩ | ⟨init, seg, rfl, -, hadd⟩
  · rw [hadd, Closed, List.dropLast_concat]
    exact h.all hopen
  · rw [hadd, Closed, List.dropLast_concat]
    rwa [Closed, List.dropLast_concat] at h

theorem closed_segments (ms : List Message) : Closed (segments ms) := by
  suffices hall : ∀ segs, Closed segs → Closed (ms.foldl addMessage segs) from hall [] fun _ h => absurd h List.not_mem_nil
  induction ms with
  | nil => exact fun _ h => h
  | cons m ms ih =>
    intro segs h
    refine ih _ ?_
    rw [addMessage]
    generalize splitLines m.text = lines
    induction lines generalizing segs with
    | nil => exact h
    | cons line lines ih' => exact ih' _ (h.addLine line)

theorem AtLineStart.append {t u : List Char} (ht : AtLineStart t) (hu : AtLineStart u) : AtLineStart (t ++ u) := by
  rcases hu with rfl | hu
  · rwa [List.append_nil]
  · by_cases hnil : u = []
    · rwa [hnil, List.append_nil]
    · exact Or.inr ((ended_append hnil).2 hu)

/-- What is shown of segments that have their ends has its end. -/
theorem atLineStart_visible (loglevel : Nat) {segs : List Segment} (h : ∀ seg ∈ segs, Ended seg.text) :
    AtLineStart (visible loglevel segs) := by
  induction segs with
  | nil => exact Or.inl rfl
  | cons seg segs ih =>
    rw [List.forall_mem_cons] at h
    have hcons : visible loglevel (seg :: segs) = visible loglevel [seg] ++ visible loglevel segs := visible_append loglevel [seg] segs
    have hone : AtLineStart (visible loglevel [seg]) := by
      rw [visible_singleton]
      split
      · exact Or.inr h.1
      · exact Or.inl rfl
    rw [hcons]
    exact hone.append (ih h.2)

/-! ## The lines of a panic -/

/-- What a console gets before the line of a panic: an empty line, or the end of an open line that it shows, with a level. -/
def panicOpening (segs : List Segment) (loglevel : Nat) : List Char :=
  if openLevel segs = -1 then ['\n'] else if openLevel segs ≤ loglevel then ['<', '0', '>', '\n'] else []

/-- What follows the text of a panic. -/
def panicEnd : List Char := " ***\n\n*** System Halted ***\n*** It is now safe to power off your system ***\n".toList

/-- What a console gets from there on. -/
def panicText (t : List Char) : List Char := "*** Kernel panic: ".toList ++ (t ++ panicEnd)

/-- The segments from the line of a panic on. -/
def panicSegments (t : List Char) : List Segment := [
  ⟨0, "*** Kernel panic: ".toList ++ t ++ " ***".toList ++ ['\n']⟩, ⟨0, [] ++ ['\n']⟩, ⟨0, "*** System Halted ***".toList ++ ['\n']⟩,
  ⟨0, "*** It is now safe to power off your system ***".toList ++ ['\n']⟩]

/-- The messages of a panic. -/
def panicMessages (t : List Char) (h : t.length ≤ 994) : List Message := [
  ⟨"<0>\n".toList, by decide⟩,
  ⟨"<0>*** Kernel panic: ".toList ++ t ++ " ***\n".toList, by simp; omega⟩,
  ⟨"<0>\n".toList, by decide⟩,
  ⟨"<0>*** System Halted ***\n".toList, by decide⟩,
  ⟨"<0>*** It is now safe to power off your system ***\n".toList, by decide⟩]

/-- The opening is what a console gets of the first message. -/
theorem visible_opening (segs : List Segment) (loglevel : Nat) :
    visible loglevel (addLine segs ['<', '0', '>', '\n']) = visible loglevel segs ++ panicOpening segs loglevel := by
  rcases addLine_cases segs ['<', '0', '>', '\n'] with ⟨hopen, hadd⟩ | ⟨init, seg, rfl, hopen, hadd⟩
  · have hbegin : beginSegment ['<', '0', '>', '\n'] = ⟨0, ['\n']⟩ := beginSegment_emerg _
    rw [hadd, visible_append, hbegin, visible_singleton, panicOpening, if_pos hopen, if_pos (Nat.zero_le loglevel)]
  · have hne : ¬openLevel (init ++ [seg]) = -1 := by omega
    rw [hadd, visible_append, visible_append, visible_singleton, visible_singleton, panicOpening, if_neg hne, hopen]
    simp only [Int.ofNat_le]
    split
    · rw [List.append_assoc]
    · simp only [List.append_nil]

/-- After the opening a line begins, on every console. -/
theorem atLineStart_opening {segs : List Segment} (h : Closed segs) (loglevel : Nat) :
    AtLineStart (visible loglevel segs ++ panicOpening segs loglevel) := by
  unfold panicOpening
  split
  · exact Or.inr (ended_concat _)
  · rename_i hopen
    split
    · exact Or.inr ((ended_append (by simp)).2 (ended_concat ['<', '0', '>']))
    · rename_i hlevel
      rcases List.eq_nil_or_concat segs with rfl | ⟨init, seg, rfl⟩
      · exact absurd rfl hopen
      · rw [List.concat_eq_append] at h hopen hlevel ⊢
        rw [Closed, List.dropLast_concat] at h
        have hhidden : ¬seg.level ≤ loglevel := by
          rw [openLevel, List.getLast?_concat] at hopen hlevel
          dsimp only at hopen hlevel
          split at hlevel
          · rename_i hend
            exact absurd (if_pos hend) hopen
          · omega
        rw [visible_append, visible_singleton, if_neg hhidden, List.append_nil, List.append_nil]
        exact atLineStart_visible loglevel h

/-- From where a line begins, the rest of the messages begins a segment each. -/
theorem panicMessages_segments (segs : List Segment) {t : List Char} (ht : OneLine t) (h : t.length ≤ 994) :
    (panicMessages t h).foldl addMessage segs = addLine segs ['<', '0', '>', '\n'] ++ panicSegments t := by
  have hfirst : openLevel (addLine segs ['<', '0', '>', '\n']) = -1 := by
    rcases addLine_cases segs ['<', '0', '>', '\n'] with ⟨-, hadd⟩ | ⟨init, seg, -, -, hadd⟩
    · rw [hadd]
      exact openLevel_concat ((beginSegment_emerg ['\n']).symm ▸ ended_concat [])
    · rw [hadd]
      exact openLevel_concat ((ended_append (by simp)).2 (ended_concat ['<', '0', '>']))
  have hempty : OneLine [] := fun _ hc => absurd hc List.not_mem_nil
  have hpanic : OneLine ("*** Kernel panic: ".toList ++ t ++ " ***".toList) := by
    intro c hc
    rcases List.mem_append.1 hc with hc | hc
    · rcases List.mem_append.1 hc with hc | hc
      · exact (by decide : OneLine "*** Kernel panic: ".toList) c hc
      · exact ht c hc
    · exact (by decide : OneLine " ***".toList) c hc
  have hhalted : OneLine "*** System Halted ***".toList := by decide
  have hsafe : OneLine "*** It is now safe to power off your system ***".toList := by decide
  have htext : "<0>*** Kernel panic: ".toList ++ t ++ " ***\n".toList =
      '<' :: '0' :: '>' :: ("*** Kernel panic: ".toList ++ t ++ " ***".toList ++ ['\n']) := by
    have hpre : "<0>*** Kernel panic: ".toList = '<' :: '0' :: '>' :: "*** Kernel panic: ".toList := rfl
    have hpost : " ***\n".toList = " ***".toList ++ ['\n'] := rfl
    rw [hpre, hpost]
    simp only [List.cons_append, List.append_assoc]
  have hopening : addMessage segs ⟨"<0>\n".toList, by decide⟩ = addLine segs ['<', '0', '>', '\n'] :=
    addMessage_concat segs (t := ['<', '0', '>']) (by decide : OneLine ['<', '0', '>']) rfl
  simp only [panicMessages, List.foldl_cons, List.foldl_nil]
  rw [hopening, addMessage_emerg hfirst hpanic htext, addMessage_emerg (openLevel_concat (ended_concat _)) hempty rfl,
    addMessage_emerg (openLevel_concat (ended_concat _)) hhalted rfl, addMessage_emerg (openLevel_concat (ended_concat _)) hsafe rfl]
  simp only [panicSegments, List.append_assoc, List.cons_append, List.nil_append]

/-- What a console gets of all messages of a panic. -/
theorem visible_panic (segs : List Segment) {t : List Char} (ht : OneLine t) (h : t.length ≤ 994) (loglevel : Nat) :
    visible loglevel ((panicMessages t h).foldl addMessage segs) =
      visible loglevel segs ++ panicOpening segs loglevel ++ panicText t := by
  have hall : (panicSegments t).filter (fun seg => decide (seg.level ≤ loglevel)) = panicSegments t :=
    List.filter_eq_self.2 (by simp [panicSegments])
  have htail : " ***".toList ++ (['\n'] ++ (['\n'] ++ ("*** System Halted ***".toList ++ (['\n'] ++
      ("*** It is now safe to power off your system ***".toList ++ ['\n']))))) = panicEnd := by decide
  have hshown : visible loglevel (panicSegments t) = panicText t := by
    rw [visible, hall]
    refine Eq.trans ?_ (congrArg (fun u => "*** Kernel panic: ".toList ++ (t ++ u)) htail)
    simp only [panicSegments, List.flatMap_cons, List.flatMap_nil, List.append_assoc, List.nil_append, List.append_nil]
  rw [panicMessages_segments segs ht h, visible_append, visible_opening, hshown]

/-! ## Formats and calls -/

section
variable {str : Nat → List Char} {s : Log}

/-- A format whose text fits is printed. -/
theorem printkFormat_eq {fmt : List Char} {args left : VaList} {m : Message} (h : Formats str fmt args left m.text) :
    printkFormat str s fmt args = some (printk s m) := by
  rw [printkFormat, h.vsprintf_eq, Option.bind_some, dif_pos m.fits]

/-- Calls of `printk` are messages. -/
theorem printFormats_eq {calls : List (List Char × VaList)} {ms : List Message}
    (h : List.Forall₂ (fun call (m : Message) => ∃ left, Formats str call.1 call.2 left m.text) calls ms) :
    ∀ s, printFormats str s calls = some (ms.foldl printk s) := by
  induction h with
  | nil => exact fun _ => rfl
  | cons hcall _ ih =>
    intro s
    obtain ⟨left, hformats⟩ := hcall
    rw [printFormats, printkFormat_eq hformats, Option.bind_some, ih]
    rfl

/-- `panic` prints its messages. -/
theorem panic_eq {buf : BitVec 32} (hbuf : buf ≠ 0) {fmt : List Char} {args : VaList} {w : Written}
    (hw : vsprintf str fmt args = some w) (h : w.out.length ≤ 994) :
    panic str buf s fmt args = some ((panicMessages w.out h).foldl printk s) := by
  have hroom : w.out.length < 1024 := by omega
  rw [panic, hw, Option.bind_some, if_pos hroom]
  refine printFormats_eq ?_ s
  have hplain : ∀ {t : List Char} {left : VaList}, '%' ∉ t → ∃ left', Formats (fun a => if a = buf.toNat then w.out else str a) t left left' t :=
    fun ht => ⟨_, Formats.plain _ _ ht⟩
  have hline : Formats (fun a => if a = buf.toNat then w.out else str a) "<0>*** Kernel panic: %s ***\n".toList (wordArgs [buf])
      (vaNext (wordArgs [buf])) ("<0>*** Kernel panic: ".toList ++ w.out ++ " ***\n".toList) := by
    have hstring := Formats.string (fun a => if a = buf.toNat then w.out else str a) (wordArgs [buf]) hbuf
      (by simp only [wordArgs, List.getD_cons_zero, if_true]; omega)
    simp only [wordArgs, List.getD_cons_zero, if_true] at hstring
    exact ((Formats.plain _ _ (t := "<0>*** Kernel panic: ".toList) (by decide)).append hstring).append
      (Formats.plain _ _ (t := " ***\n".toList) (by decide))
  exact .cons (hplain (by decide)) (.cons ⟨_, hline⟩ (.cons (hplain (by decide)) (.cons (hplain (by decide))
    (.cons (hplain (by decide)) .nil))))

end

/-- After any messages, in the middle of a line or not, a panic whose text is one line shows this line on a line of its own on every
console, whatever its level, and then that the system is halted. -/
theorem panic_shown (cons : List Console) (hcons : ∀ c ∈ cons, AtLineStart c.out) (ms : List Message) {str : Nat → List Char}
    {buf : BitVec 32} (hbuf : buf ≠ 0) {fmt : List Char} {args : VaList} {w : Written} (hw : vsprintf str fmt args = some w)
    (h : w.out.length ≤ 994) (hline : OneLine w.out) :
    ∃ s', panic str buf (ms.foldl printk (cons.foldl registerConsole Log.boot)) fmt args = some s' ∧
      s'.consoles = (ms.foldl printk (cons.foldl registerConsole Log.boot)).consoles.map
        (fun c => { c with out := c.out ++ panicOpening (segments ms) c.loglevel ++ panicText w.out }) ∧
      ∀ c ∈ (ms.foldl printk (cons.foldl registerConsole Log.boot)).consoles,
        AtLineStart (c.out ++ panicOpening (segments ms) c.loglevel) := by
  have htr := (transcribed_boot cons).foldl ms
  have hafter := htr.foldl (panicMessages w.out h)
  refine ⟨_, panic_eq hbuf hw h, ?_, ?_⟩
  · rw [hafter.consoles, htr.consoles, List.map_map]
    refine List.map_congr_left fun c _ => ?_
    simp only [Function.comp_apply, visible_panic _ hline h, List.append_assoc]
    rfl
  · rw [htr.consoles]
    intro c hc
    obtain ⟨c₀, hmem, rfl⟩ := List.mem_map.1 hc
    dsimp only
    rw [List.append_assoc]
    exact (hcons c₀ (List.mem_reverse.1 hmem)).append (atLineStart_opening (closed_segments ms) c₀.loglevel)

/-- A message that leaves its line open. -/
def halfLine : Message := ⟨"half a line".toList, by decide⟩

/-- A log with this line, with a console that shows it and one that does not. -/
def halfLog : Log := [halfLine].foldl printk ([⟨7, []⟩, ⟨0, []⟩].foldl registerConsole Log.boot)

/-- A panic in the middle of this line. -/
theorem panic_shown_half : ∃ s', panic (fun _ => []) 1 halfLog "gone".toList (wordArgs []) = some s' ∧
    s'.consoles = halfLog.consoles.map
      (fun c => { c with out := c.out ++ panicOpening (segments [halfLine]) c.loglevel ++ panicText "gone".toList }) := by
  have hw : vsprintf (fun _ => []) "gone".toList (wordArgs []) = some ⟨"gone".toList, []⟩ :=
    (Formats.plain _ _ (by decide)).vsprintf_eq
  obtain ⟨s', hs', hconsoles, -⟩ := panic_shown [⟨7, []⟩, ⟨0, []⟩] (by simp [AtLineStart]) [halfLine]
    (by decide : (1 : BitVec 32) ≠ 0) hw (by decide) (by decide : OneLine "gone".toList)
  exact ⟨s', hs', hconsoles⟩

end BootPerl
