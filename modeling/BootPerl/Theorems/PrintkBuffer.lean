import BootPerl.Lemmas.Printk
import BootPerl.Lemmas.Vsprintf

/-!
# The buffer of `printk`

`printk` has `vsprintf` write to `buf + 3`, and nothing bounds how much. What is written there is a text as long as the format and the
arguments say, a NUL, and level tags before lines of the text; `%n` stores where its argument points.
-/

namespace BootPerl

/-- Where the text of `vsprintf` and its NUL go, counted from `buf`. -/
def textOffsets (len : Nat) : List Int := (List.range (len + 1)).map fun i : Nat => 3 + (i : Int)

/-- Where `printk` puts a tag at the start of a line, if it does. -/
def tagOffsets (s : Log) (p : Nat) : List Int :=
  if s.msgLevel < 0 ∧ ¬IsTag (s.buf p) (s.buf (p + 1)) (s.buf (p + 2)) then [(p : Int) - 3, (p : Int) - 2, (p : Int) - 1] else []

/-- Where the outer loop of `printk` puts tags. -/
def lineOffsets (bufEnd : Nat) : Nat → Log → Nat → List Int
  | 0, _, _ => []
  | turns + 1, s, p =>
    if p < bufEnd then tagOffsets s p ++ lineOffsets bufEnd turns (printLine bufEnd s p).1 (printLine bufEnd s p).2 else []

/-- An offset of the 1024 bytes. -/
def InBuffer (a : Int) : Prop := 0 ≤ a ∧ a < 1024

/-- Once `vsprintf` has written `w`, everything that it wrote and all tags lie in `buf`, whatever line `printk` goes on with and whatever
a `%n` has left in the text. -/
structure StaysInBuffer (buf : Nat) (w : Written) : Prop where
  text : ∀ a ∈ textOffsets w.out.length, InBuffer a
  tags : ∀ (s : Log), ∀ a ∈ lineOffsets (3 + w.out.length) w.out.length s 3, InBuffer a
  counts : ∀ c ∈ w.counts, buf ≤ c.1 ∧ c.1 + 4 ≤ buf + 1024

/-! ## The tags -/

theorem logLine_pos (n : Nat) : ∀ (s : Log) (p : Nat), p ≤ (logLine n s p).2.1 := by
  induction n with
  | zero => exact fun _ p => Nat.le_refl p
  | succ n ih =>
    intro s p
    rw [logLine]
    split
    · exact Nat.le_refl p
    · exact Nat.le_of_succ_le (ih _ _)

theorem logLine_buf (n : Nat) : ∀ (s : Log) (p : Nat), (logLine n s p).1.buf = s.buf := by
  induction n with
  | zero => exact fun _ _ => rfl
  | succ n ih =>
    intro s p
    rw [logLine]
    split
    · exact logChar_buf _ _
    · exact (ih _ _).trans (logChar_buf _ _)

/-- A tag that was put before the line is logged with it. -/
theorem logLine_tag {s : Log} {p bufEnd : Nat} (hp : 3 ≤ p) (hlt : p < bufEnd) (buf : Nat → Char) (lv : Int) :
    p ≤ (logLine (bufEnd - (p - 3)) { s with buf := putText buf (p - 3) ['<', '4', '>'], msgLevel := lv } (p - 3)).2.1 := by
  have hn : bufEnd - (p - 3) = ['<', '4', '>'].length + (bufEnd - p) := by
    rw [List.length_cons, List.length_cons, List.length_singleton]
    omega
  have hplain : ∀ c ∈ ['<', '4', '>'], ¬EndsLine c := by simp [EndsLine]
  have hstart : p - 3 + ['<', '4', '>'].length = p := Nat.sub_add_cancel hp
  rw [hn, logLine_skip _ hplain _ _ _ (getText_putText _ _ _), hstart]
  exact logLine_pos _ _ _

theorem printLine_snd (bufEnd : Nat) (s : Log) (p : Nat) : (printLine bufEnd s p).2 =
    (logLine (bufEnd - (openLine s p).2.1) (openLine s p).1 (openLine s p).2.1).2.1 + 1 := rfl

/-- Every turn goes on. -/
theorem printLine_pos {s : Log} {p bufEnd : Nat} (hp : 3 ≤ p) (hlt : p < bufEnd) : p < (printLine bufEnd s p).2 := by
  rw [printLine_snd]
  refine Nat.lt_succ_of_le ?_
  unfold openLine
  split
  · split
    · exact logLine_pos _ _ _
    · exact logLine_tag hp hlt _ _
  · exact logLine_pos _ _ _

/-- The tags lie before the end of the text, and not before `buf`. -/
theorem lineOffsets_bounds {bufEnd : Nat} (turns : Nat) : ∀ {s : Log} {p : Nat}, 3 ≤ p →
    ∀ a ∈ lineOffsets bufEnd turns s p, 0 ≤ a ∧ a < bufEnd := by
  induction turns with
  | zero => exact fun _ a ha => absurd ha List.not_mem_nil
  | succ turns ih =>
    intro s p hp a ha
    rw [lineOffsets] at ha
    split at ha
    · rename_i hlt
      rcases List.mem_append.1 ha with ha | ha
      · unfold tagOffsets at ha
        split at ha
        · simp only [List.mem_cons, List.not_mem_nil, or_false] at ha
          omega
        · exact absurd ha List.not_mem_nil
      · exact ih (Nat.le_of_lt (Nat.lt_of_le_of_lt hp (printLine_pos hp hlt))) a ha
    · exact absurd ha List.not_mem_nil

theorem openLine_buf {s : Log} {p : Nat} (hp : 3 ≤ p) {a : Nat} (ha : (a : Int) ∉ tagOffsets s p) :
    (openLine s p).1.buf a = s.buf a := by
  unfold openLine
  split
  · rename_i hlevel
    split
    · rfl
    · rename_i htag
      rw [tagOffsets, if_pos ⟨hlevel, htag⟩] at ha
      simp only [List.mem_cons, List.not_mem_nil, or_false] at ha
      refine putText_of_outside _ _ _ _ ?_
      rw [List.length_cons, List.length_cons, List.length_singleton]
      omega
  · rfl

theorem printLine_buf (bufEnd : Nat) (s : Log) (p : Nat) : (printLine bufEnd s p).1.buf = (openLine s p).1.buf := by
  unfold printLine
  dsimp only
  split
  · exact logLine_buf _ _ _
  · exact logLine_buf _ _ _

/-- The outer loop of `printk` writes to the buffer at the tags only. -/
theorem printLines_buf {bufEnd : Nat} (turns : Nat) : ∀ {s : Log} {p : Nat}, 3 ≤ p → ∀ {a : Nat},
    (a : Int) ∉ lineOffsets bufEnd turns s p → (printLines bufEnd turns s p).buf a = s.buf a := by
  induction turns with
  | zero => exact fun _ _ _ => rfl
  | succ turns ih =>
    intro s p hp a ha
    rw [lineOffsets] at ha
    rw [printLines]
    split
    · rename_i hlt
      rw [if_pos hlt, List.mem_append, not_or] at ha
      have hnext : 3 ≤ (printLine bufEnd s p).2 := Nat.le_of_lt (Nat.lt_of_le_of_lt hp (printLine_pos hp hlt))
      calc (printLines bufEnd turns (printLine bufEnd s p).1 (printLine bufEnd s p).2).buf a
          = (printLine bufEnd s p).1.buf a := ih hnext ha.2
        _ = (openLine s p).1.buf a := by rw [printLine_buf]
        _ = s.buf a := openLine_buf hp ha.1
    · rfl

/-! ## The buffer -/

/-- A text that stays in the buffer is a message. -/
theorem StaysInBuffer.fits {buf : Nat} {w : Written} (h : StaysInBuffer buf w) : w.out.length ≤ 1020 := by
  have hlast := (h.text (3 + (w.out.length : Int)) (List.mem_map.2 ⟨_, List.mem_range.2 (Nat.lt_succ_self _), rfl⟩)).2
  omega

/-- `printk` writes to the buffer where the text and the tags go, and nowhere else. -/
theorem printk_buf (s : Log) (m : Message) {a : Nat} (htext : (a : Int) ∉ textOffsets m.text.length)
    (htags : (a : Int) ∉ lineOffsets (3 + m.text.length) m.text.length { s with buf := putText s.buf 3 (m.text ++ [Char.ofNat 0]) } 3) :
    (printk s m).buf a = s.buf a := by
  rw [printk, printLines_buf _ (Nat.le_refl 3) htags]
  refine putText_of_outside _ _ _ _ ?_
  by_contra hin
  rw [List.length_append, List.length_singleton] at hin
  exact htext (List.mem_map.2 ⟨a - 3, List.mem_range.2 (by omega), by omega⟩)

/-- Whatever the format and the arguments are, the text, the tags and the counts stay in `buf` exactly when the text they ask for is at
most 1020 characters long and each `%n` is given a pointer to four bytes of `buf`. -/
theorem printk_in_buffer_iff (str : Nat → List Char) (buf : Nat) (fmt : List Char) (args : VaList) :
    (∃ w, vsprintf str fmt args = some w ∧ StaysInBuffer buf w) ↔
      formatLength str fmt args ≤ 1020 ∧ ∀ p ∈ countPointers fmt args, buf ≤ p ∧ p + 4 ≤ buf + 1024 := by
  obtain ⟨w, hw, hlen, hcounts⟩ := vsprintf_adds str fmt args
  rw [← hlen, ← hcounts]
  constructor
  · rintro ⟨w', hw', hstays⟩
    obtain rfl : w = w' := Option.some.inj (hw.symm.trans hw')
    refine ⟨hstays.fits, fun p hp => ?_⟩
    obtain ⟨c, hc, rfl⟩ := List.mem_map.1 hp
    exact hstays.counts c hc
  · rintro ⟨hfits, hpointers⟩
    refine ⟨w, hw, fun a ha => ?_, fun s a ha => ?_, fun c hc => hpointers c.1 (List.mem_map_of_mem hc)⟩
    · obtain ⟨i, hi, rfl⟩ := List.mem_map.1 ha
      rw [List.mem_range] at hi
      exact ⟨by omega, by omega⟩
    · obtain ⟨h0, hend⟩ := lineOffsets_bounds _ (Nat.le_refl 3) a ha
      exact ⟨h0, by omega⟩

/-- What `chdir` tells the log. -/
def chdirFormat : List Char := "++ wrap: chdir(%s)\n".toList

/-- A path of 1004 characters, wherever it lies. -/
def longPath : Nat → List Char := fun _ => List.replicate 1004 'a'

/-- Plain characters are as many as they are. -/
theorem sum_length_plain (str : Nat → List Char) (l : List Char) : ((l.map Piece.plain).map (Piece.length str)).sum = l.length := by
  induction l with
  | nil => rfl
  | cons c l ih => rw [List.map_cons, List.map_cons, List.sum_cons, ih, List.length_cons, Nat.add_comm]; rfl

/-- The pieces of what `chdir` tells the log. -/
theorem pieces_chdir : pieces (chdirFormat.length + 1) ⟨chdirFormat, fun _ => 4096⟩ = "++ wrap: chdir(".toList.map Piece.plain ++
    Piece.conv ⟨Flags.none, -1, -1, none⟩ (fun _ => 4096) 's' :: ")\n".toList.map Piece.plain := rfl

theorem formatLength_chdir : formatLength longPath chdirFormat (fun _ => 4096) = 1021 := by
  have hpath : (longPath 4096).length = 1004 := List.length_replicate
  have hconv : Piece.length longPath (.conv ⟨Flags.none, -1, -1, none⟩ (fun _ => 4096) 's') = 1004 := by
    refine (stringLength_whole ?_).trans hpath
    exact Nat.lt_of_le_of_lt (Nat.le_of_eq hpath) (by decide)
  rw [formatLength, pieces_chdir, List.map_append, List.sum_append, List.map_cons, List.sum_cons, sum_length_plain, sum_length_plain,
    hconv]
  rfl

/-- A path of 1004 characters, which Perl may well pass on, has the NUL behind the last byte of the buffer. -/
theorem printk_in_buffer_false :
    ∃ w, vsprintf longPath chdirFormat (fun _ => 4096) = some w ∧ (1024 : Int) ∈ textOffsets w.out.length ∧
      ∀ buf, ¬StaysInBuffer buf w := by
  obtain ⟨w, hw, hlen, -⟩ := vsprintf_adds longPath chdirFormat (fun _ => 4096)
  rw [formatLength_chdir] at hlen
  refine ⟨w, hw, ?_, fun buf hstays => ?_⟩
  · rw [hlen]
    exact List.mem_map.2 ⟨1021, List.mem_range.2 (by decide), rfl⟩
  · exact absurd (hlen ▸ hstays.fits) (by decide)

end BootPerl
