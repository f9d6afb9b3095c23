import BootPerl.Lemmas.Printk
import BootPerl.Lib.Circular

/-!
# What `printk` shows and keeps, over whole runs

A sequence of messages is a sequence of segments: lines with a level, each begun by one call and perhaps continued by others.
`printk` shows every console the segments of its levels, and `log_buf` holds the end of all of them with their tags.
-/

namespace BootPerl

/-! ## Segments -/

/-- A line with its level. -/
structure Segment where
  level : Nat
  text : List Char
  deriving DecidableEq, Repr

/-- The lines of a message: all but the last have their ends. -/
def splitLines : List Char → List (List Char)
  | [] => []
  | c :: t =>
    if EndsLine c then [c] :: splitLines t
    else
      match splitLines t with
      | [] => [[c]]
      | line :: lines => (c :: line) :: lines

/-- The segment that a line begins: its tag gives the level and is no text. -/
def beginSegment (line : List Char) : Segment :=
  if StartsTag line then ⟨(line.getD 1 (Char.ofNat 0)).toNat - 48, line.drop 3⟩ else ⟨4, line⟩

/-- A text has the end of a line. -/
def Ended (text : List Char) : Prop := ∃ e ∈ text.getLast?, EndsLine e

instance (text : List Char) : Decidable (Ended text) := inferInstanceAs (Decidable (∃ e ∈ text.getLast?, EndsLine e))

/-- A line goes on with the last segment, or begins one if that has its end. -/
def addLine (segs : List Segment) (line : List Char) : List Segment :=
  match segs.getLast? with
  | none => [beginSegment line]
  | some seg => if Ended seg.text then segs ++ [beginSegment line] else segs.dropLast ++ [{ seg with text := seg.text ++ line }]

/-- The segments after one more message. -/
def addMessage (segs : List Segment) (m : Message) : List Segment := (splitLines m.text).foldl addLine segs

/-- The segments of a sequence of messages. -/
def segments (ms : List Message) : List Segment := ms.foldl addMessage []

/-- What a console of a log level is to show of the segments. -/
def visible (loglevel : Nat) (segs : List Segment) : List Char :=
  (segs.filter fun seg => seg.level ≤ loglevel).flatMap Segment.text

/-- A segment with its tag. -/
def Segment.tagged (seg : Segment) : List Char := ['<', Char.ofNat (48 + seg.level), '>'] ++ seg.text

/-- The segments with their tags. -/
def tagged (segs : List Segment) : List Char := segs.flatMap Segment.tagged

/-- `log_buf` read from `log_start` for `log_size` characters. -/
def readLog (s : Log) : List Char := (List.range s.logSize).map fun i => s.logBuf ((s.logStart + i) % logBufSize)

/-! ## Lines -/

section
variable {line rest : List Char} {lineFeed : Nat}

/-- What follows the tag of a line is a line. -/
theorem IsLine.of_prepend {pre t : List Char} (h : IsLine (pre ++ t) lineFeed) (hpre : ∀ c ∈ pre, ¬EndsLine c) :
    IsLine t lineFeed := by
  rcases h with ⟨h0, ht⟩ | ⟨h1, u, e, heq, he, hu⟩
  · exact Or.inl ⟨h0, (List.forall_mem_append.1 ht).2⟩
  · rcases List.eq_nil_or_concat t with rfl | ⟨v, e', rfl⟩
    · rw [List.append_nil] at heq
      exact absurd he (hpre e (by rw [heq]; simp))
    · rw [List.concat_eq_append] at heq ⊢
      rw [← List.append_assoc] at heq
      obtain ⟨hv, he'⟩ := List.append_inj' heq rfl
      cases he'
      exact Or.inr ⟨h1, v, e, rfl, he, fun c hc => hu c (hv ▸ List.mem_append_right _ hc)⟩

/-- A line has its end if it says so. -/
theorem IsLine.ended_iff (h : IsLine line lineFeed) : Ended line ↔ lineFeed = 1 := by
  rcases h with ⟨rfl, ht⟩ | ⟨rfl, u, e, rfl, he, -⟩
  · refine iff_of_false ?_ (by decide)
    rintro ⟨e, hmem, he⟩
    exact ht e (List.mem_of_getLast? hmem) he
  · exact iff_of_true ⟨e, List.getLast?_concat, he⟩ rfl

/-- The first line of a text, and the lines after it. -/
theorem splitLines_line (h : IsLine line lineFeed) (hrest : lineFeed = 0 → rest = []) (hne : line ≠ []) :
    splitLines (line ++ rest) = line :: splitLines rest := by
  rcases h with ⟨h0, ht⟩ | ⟨-, u, e, rfl, he, hu⟩
  · have hnone : splitLines [] = [] := rfl
    rw [hrest h0, List.append_nil, hnone]
    clear hrest
    induction line with
    | nil => exact absurd rfl hne
    | cons c line ih =>
      rw [List.forall_mem_cons] at ht
      rw [splitLines, if_neg ht.1]
      by_cases hnil : line = []
      · rw [hnil]
        rfl
      · rw [ih hnil ht.2]
  · rw [List.append_assoc, List.singleton_append]
    clear hrest hne
    induction u with
    | nil => rw [List.nil_append, splitLines, if_pos he, List.nil_append]
    | cons c u ih =>
      rw [List.forall_mem_cons] at hu
      rw [List.cons_append, splitLines, if_neg hu.1, ih hu.2]
      rfl

/-- Items lead from a level to one level. -/
theorem Lines.unique {lv a b : Int} {items : List LogItem} (ha : Lines lv items a) (hb : Lines lv items b) : a = b := by
  induction ha with
  | nil =>
    cases hb
    rfl
  | tag _ _ _ _ ih =>
    cases hb with
    | tag _ _ _ hb => exact ih hb
  | chr _ _ ih =>
    cases hb with
    | chr _ hb => exact ih hb

/-- The level that a line leaves. -/
theorem Lines.of_line {lv lv' : Int} (h : Lines lv (line.map LogItem.chr) lv') (hline : IsLine line lineFeed) (hlv : 0 ≤ lv) :
    lv' = if Ended line then -1 else lv := by
  rw [if_congr hline.ended_iff rfl rfl]
  exact h.unique (lines_line hline hlv).1

/-! ## One line and the segments -/

/-- The level of the segment that goes on, negative if there is none. -/
def openLevel (segs : List Segment) : Int :=
  match segs.getLast? with
  | none => -1
  | some seg => if Ended seg.text then -1 else seg.level

/-- A line begins a segment, or the last one goes on. -/
theorem addLine_cases (segs : List Segment) (line : List Char) :
    (openLevel segs = -1 ∧ addLine segs line = segs ++ [beginSegment line]) ∨
      ∃ init seg, segs = init ++ [seg] ∧ openLevel segs = seg.level ∧
        addLine segs line = init ++ [{ seg with text := seg.text ++ line }] := by
  unfold openLevel addLine
  rcases List.eq_nil_or_concat segs with rfl | ⟨init, seg, rfl⟩
  · exact Or.inl ⟨rfl, rfl⟩
  · rw [List.concat_eq_append, List.getLast?_concat, List.dropLast_concat]
    by_cases hend : Ended seg.text
    · exact Or.inl ⟨if_pos hend, if_pos hend⟩
    · exact Or.inr ⟨init, seg, rfl, if_neg hend, if_neg hend⟩

/-- A line that begins a segment: the items are its tag and its text. -/
theorem lineItems_begin (line : List Char) :
    ∃ c, '0' ≤ c ∧ c ≤ '7' ∧ tagLevel c = (beginSegment line).level ∧ c = Char.ofNat (48 + (beginSegment line).level) ∧
      lineItems (-1) line = .tag c :: (beginSegment line).text.map .chr := by
  rw [lineItems, if_pos (by decide), beginSegment]
  split
  · rename_i hstart
    obtain ⟨c, u, rfl, hc, h0, h7⟩ := hstart.split
    have h48 : 48 ≤ c.toNat := h0
    have hlevel : 48 + (c.toNat - 48) = c.toNat := by omega
    refine ⟨c, h0, h7, ?_, ?_, ?_⟩
    · rw [← hc, tagLevel]
      dsimp only
      omega
    · rw [← hc, hlevel, Char.ofNat_toNat]
    · rw [← hc]
  · exact ⟨'4', by decide, by decide, rfl, rfl, rfl⟩

theorem IsLine.begin (h : IsLine line lineFeed) : IsLine (beginSegment line).text lineFeed := by
  rw [beginSegment]
  split
  · rename_i hstart
    obtain ⟨c, u, rfl, -, h0, -⟩ := hstart.split
    exact h.of_prepend (tag_plain h0)
  · exact h

theorem tagged_append (segs segs' : List Segment) : tagged (segs ++ segs') = tagged segs ++ tagged segs' := List.flatMap_append

theorem visible_append (loglevel : Nat) (segs segs' : List Segment) :
    visible loglevel (segs ++ segs') = visible loglevel segs ++ visible loglevel segs' := by
  rw [visible, List.filter_append, List.flatMap_append]
  rfl

theorem visible_singleton (loglevel : Nat) (seg : Segment) :
    visible loglevel [seg] = if seg.level ≤ loglevel then seg.text else [] := by
  by_cases h : seg.level ≤ loglevel
  · simp [visible, h]
  · simp [visible, h]

/-- The log gets what the segments get, with the tag of a segment that begins. -/
theorem tagged_addLine (segs : List Segment) (line : List Char) :
    tagged (addLine segs line) = tagged segs ++ logText (lineItems (openLevel segs) line) := by
  rcases addLine_cases segs line with ⟨hopen, hadd⟩ | ⟨init, seg, rfl, hopen, hadd⟩
  · obtain ⟨c, -, -, -, hc, hitems⟩ := lineItems_begin line
    rw [hadd, tagged_append, hopen, hitems, logText_cons, logText_map_chr, LogItem.text, hc]
    simp [tagged, Segment.tagged]
  · rw [hadd, tagged_append, tagged_append, hopen, lineItems, if_neg (by omega), logText_map_chr, List.append_assoc]
    simp [tagged, Segment.tagged]

/-- A console sees of a line what it sees of the segments. -/
theorem visible_addLine (hline : IsLine line lineFeed) (loglevel : Nat) (segs : List Segment) :
    visible loglevel (addLine segs line) =
      visible loglevel segs ++ shown loglevel (openLevel segs) (lineItems (openLevel segs) line) := by
  rcases addLine_cases segs line with ⟨hopen, hadd⟩ | ⟨init, seg, rfl, hopen, hadd⟩
  · obtain ⟨c, -, -, hlevel, -, hitems⟩ := lineItems_begin line
    have hshown := (lines_line hline.begin (Int.natCast_nonneg (beginSegment line).level)).2 loglevel
    rw [hadd, visible_append, hopen, hitems, shown, hlevel, hshown, visible_singleton]
    simp only [Int.ofNat_le]
  · have hshown := (lines_line hline (Int.natCast_nonneg seg.level)).2 loglevel
    rw [hadd, visible_append, visible_append, hopen, lineItems, if_neg (by omega), hshown, visible_singleton, visible_singleton,
      List.append_assoc]
    simp only [Int.ofNat_le]
    split
    · rfl
    · rfl

/-- The level that is left is that of the segments. -/
theorem openLevel_addLine (hline : IsLine line lineFeed) (hne : line ≠ []) {segs : List Segment} {lv : Int}
    (h : Lines (openLevel segs) (lineItems (openLevel segs) line) lv) : lv = openLevel (addLine segs line) := by
  rcases addLine_cases segs line with ⟨hopen, hadd⟩ | ⟨init, seg, rfl, hopen, hadd⟩
  · obtain ⟨c, -, -, hlevel, -, hitems⟩ := lineItems_begin line
    rw [hopen, hitems] at h
    cases h with
    | tag _ _ _ h =>
      rw [hlevel] at h
      rw [h.of_line hline.begin (Int.natCast_nonneg _), hadd, openLevel, List.getLast?_concat]
  · rw [hopen, lineItems, if_neg (by omega)] at h
    have hend : Ended (seg.text ++ line) ↔ Ended line := by
      rw [Ended, Ended, List.getLast?_append_of_ne_nil _ hne]
    rw [h.of_line hline (Int.natCast_nonneg _), hadd, openLevel, List.getLast?_concat]
    dsimp only
    rw [if_congr hend rfl rfl]

end

/-! ## The circular buffer -/

theorem keeps_logChar {s : Log} {t : List Char} (h : Keeps s.logBuf logBufSize s.logStart s.logSize t) (c : Char) :
    Keeps (logChar s c).logBuf logBufSize (logChar s c).logStart (logChar s c).logSize (t ++ [c]) := by
  unfold logChar
  dsimp only
  split
  · exact h.push ‹_› c
  · exact h.rotate (by decide) ‹_› c

/-- To log a text adds it to what the buffer keeps. -/
theorem keeps_logChars {s : Log} {t : List Char} (h : Keeps s.logBuf logBufSize s.logStart s.logSize t) (u : List Char) :
    Keeps (logChars s u).logBuf logBufSize (logChars s u).logStart (logChars s u).logSize (t ++ u) := by
  induction u generalizing s t with
  | nil => rwa [List.append_nil]
  | cons c u ih =>
    have := ih (keeps_logChar h c)
    rwa [List.append_assoc] at this

/-! ## The calls -/

/-- The log after the segments: the level of the one that goes on, what the consoles have got, and what the buffer keeps. -/
structure Transcribed (cons : List Console) (s : Log) (segs : List Segment) : Prop where
  level : s.msgLevel = openLevel segs
  consoles : s.consoles = cons.map fun c => { c with out := c.out ++ visible c.loglevel segs }
  kept : Keeps s.logBuf logBufSize s.logStart s.logSize (tagged segs)

section
variable {cons : List Console} {s s' : Log} {segs : List Segment}

/-- A line of a message is a line of the segments. -/
theorem Transcribed.line (h : Transcribed cons s segs) {line rest : List Char} (hl : LogsLine s s' line rest) (hne : line ≠ []) :
    Transcribed cons s' (addLine segs line) := by
  obtain ⟨lineFeed, hline, -⟩ := hl.ended
  have hprinted := hl.printed
  have hsame := hl.sameLog
  rw [h.level] at hprinted hsame
  refine ⟨?_, ?_, ?_⟩
  · have hlines := hprinted.lines
    rw [h.level] at hlines
    exact openLevel_addLine hline hne hlines
  · rw [hprinted.consoles, h.consoles, List.map_map]
    refine List.map_congr_left fun c _ => ?_
    dsimp only [Function.comp_apply]
    rw [visible_addLine hline, h.level, List.append_assoc]
  · rw [tagged_addLine, hsame.logBuf, hsame.logStart, hsame.logSize]
    exact keeps_logChars h.kept _

/-- The outer loop of `printk` transcribes the lines of the message. -/
theorem Transcribed.printLines : ∀ (turns : Nat) {s : Log} {segs : List Segment} (p : Nat) (t : List Char), t.length ≤ turns →
    3 ≤ p → Holds s.buf p t → Transcribed cons s segs →
    Transcribed cons (BootPerl.printLines (p + t.length) turns s p) ((splitLines t).foldl addLine segs) := by
  intro turns
  induction turns with
  | zero =>
    intro s segs p t ht _ _ htr
    rw [List.length_eq_zero_iff.1 (Nat.le_zero.1 ht)]
    exact htr
  | succ turns ih =>
    intro s segs p t ht hp h htr
    by_cases hnil : t = []
    · subst hnil
      have hend : ¬p < p + ([] : List Char).length := Nat.lt_irrefl p
      rw [BootPerl.printLines, if_neg hend]
      exact htr
    · have hlt : p < p + t.length := Nat.lt_add_of_pos_right (List.length_pos_iff.2 hnil)
      obtain ⟨s', p', line, rest, hturn, rfl, hne, -, hlogs, hnext⟩ := printLine_spec hp hnil h
      obtain ⟨lineFeed, hline, hrest⟩ := hlogs.ended
      have htr' := htr.line hlogs hne
      rw [BootPerl.printLines, if_pos hlt, hturn, splitLines_line hline hrest hne, List.foldl_cons]
      dsimp only
      rcases hnext with ⟨rfl, hholds⟩ | ⟨rfl, hend⟩
      · have hpos := List.length_pos_iff.2 hne
        rw [List.length_append] at ht ⊢
        rw [← Nat.add_assoc]
        exact ih (p + line.length) rest (by omega) (by omega) hholds htr'
      · have hstop : BootPerl.printLines (p + (line ++ []).length) turns s' p' = s' := by
          cases turns with
          | zero => rfl
          | succ turns => rw [BootPerl.printLines, if_neg (by omega)]
        rw [hstop]
        exact htr'

/-- A call of `printk` transcribes its message. -/
theorem Transcribed.printk (h : Transcribed cons s segs) (m : Message) :
    Transcribed cons (BootPerl.printk s m) (addMessage segs m) :=
  Transcribed.printLines m.text.length 3 m.text (Nat.le_refl _) (Nat.le_refl _) (holds_putText _ _ _)
    ⟨h.level, h.consoles, h.kept⟩

theorem Transcribed.foldl (h : Transcribed cons s segs) (ms : List Message) :
    Transcribed cons (ms.foldl BootPerl.printk s) (ms.foldl addMessage segs) := by
  induction ms generalizing s segs with
  | nil => exact h
  | cons m ms ih => exact ih (h.printk m)

end

/-- Consoles registered at boot have got nothing yet. -/
theorem registerConsole_foldl (cons : List Console) : ∀ cons' : List Console,
    cons.foldl registerConsole { Log.boot with consoles := cons' } = { Log.boot with consoles := cons.reverse ++ cons' } := by
  induction cons with
  | nil => exact fun _ => rfl
  | cons c cons ih =>
    intro cons'
    have hc : registerConsole { Log.boot with consoles := cons' } c =
        { Log.boot with consoles := { c with out := c.out ++ [] } :: cons' } := rfl
    rw [List.foldl_cons, hc, List.append_nil, ih, List.reverse_cons, List.append_assoc, List.singleton_append]

/-- Before the first message. -/
theorem transcribed_boot (cons : List Console) : Transcribed cons.reverse (cons.foldl registerConsole Log.boot) [] := by
  have hcons := registerConsole_foldl cons []
  rw [List.append_nil] at hcons
  have hnone : cons.foldl registerConsole Log.boot = { Log.boot with consoles := cons.reverse } := hcons
  rw [hnone]
  refine ⟨rfl, ?_, keeps_nil⟩
  simp [visible]

/-- After any sequence of messages each console registered at boot has got the text of the segments of its levels, and `log_buf`
holds the last `LOG_BUF_SIZE` characters of all segments with their tags. -/
theorem printk_stream (cons : List Console) (ms : List Message) :
    (ms.foldl printk (cons.foldl registerConsole Log.boot)).consoles =
        cons.reverse.map (fun c => { c with out := c.out ++ visible c.loglevel (segments ms) }) ∧
      (ms.foldl printk (cons.foldl registerConsole Log.boot)).logSize = min logBufSize (tagged (segments ms)).length ∧
      readLog (ms.foldl printk (cons.foldl registerConsole Log.boot)) = (tagged (segments ms)).rtake logBufSize := by
  have h := (transcribed_boot cons).foldl ms
  have hread := h.kept.held.read
  rw [length_rtake, ← h.kept.size] at hread
  exact ⟨h.consoles, h.kept.size, hread⟩

end BootPerl
