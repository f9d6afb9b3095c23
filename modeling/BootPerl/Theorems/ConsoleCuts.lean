import BootPerl.Lemmas.Console

/-!
# Text written in pieces

Between two calls of `con_write` the cursor is kept in two bytes. The column and the rows of the screen fit, but a carriage return
moves the cursor up and may take it above the screen, and a row above the screen comes back as one below it. A text can be cut
where its carriage returns are made up for by line breaks.
-/

namespace BootPerl

/-- The same cells on the screen and the same stored cursor. -/
structure SameConsole (v v' : Video) : Prop where
  cells : ∀ r c, r < v.params.lines.toNat → c < v.params.cols.toNat →
    cell v.mem (r * v.params.cols.toNat + c) = cell v'.mem (r * v.params.cols.toNat + c)
  x : v.params.origX = v'.params.origX
  y : v.params.origY = v'.params.origY

/-- Writing `s` and then `t` is writing both at once. -/
def CutHarmless (v : Video) (s t : List UInt8) : Prop := SameConsole (conWrite v (s ++ t)) (conWrite (conWrite v s) t)

/-! ## How a text moves the cursor -/

/-- The column after a character. -/
def nextColumn (cols x : Nat) (b : UInt8) : Nat := if b = 10 ∨ b = 13 then 0 else if x + 1 < cols then x + 1 else 0

/-- How many rows a character moves the cursor up, on a screen without end: a carriage return one up, a newline or the last column
one down. -/
def rise (cols x : Nat) (b : UInt8) : Int := if b = 13 then 1 else if b = 10 ∨ ¬x + 1 < cols then -1 else 0

/-- How many more carriage returns than line breaks a text has, from a column on. -/
def textRise (cols : Nat) : Nat → List UInt8 → Int
  | _, [] => 0
  | x, b :: text => rise cols x b + textRise cols (nextColumn cols x b) text

/-- In the whole text carriage returns outnumber line breaks by no more than there are rows above the cursor, and in no last part of
it by as many as the screen has rows. -/
def ReturnsMadeUp (p : VidParams) (x : Nat) (y : Int) (text : List UInt8) : Prop :=
  textRise p.cols.toNat x text ≤ y ∧ ∀ pre post, text = pre ++ post →
    textRise p.cols.toNat (pre.foldl (nextColumn p.cols.toNat) x) post < p.lines.toNat

section
variable {p : VidParams} {s : Writing} {x : Nat}

/-- Where the cursor goes with `nextRow`: the row below, unless that is beyond the last. -/
theorem nextRow_cursor (s : Writing) : (nextRow p s).x = 0 ∧
    (nextRow p s).y = if (p.lines.toNat : Int) ≤ s.y + 1 then s.y else s.y + 1 := by
  rw [nextRow]
  dsimp only
  split
  · exact ⟨rfl, Int.add_sub_cancel s.y 1⟩
  · exact ⟨rfl, rfl⟩

/-- Where the cursor goes with a character, on the screen or above it. -/
theorem writeChar_cursor (hx : s.x = x) (b : UInt8) : (writeChar p s b).x = nextColumn p.cols.toNat x b ∧
    (writeChar p s b).y =
      if rise p.cols.toNat x b = -1 ∧ (p.lines.toNat : Int) ≤ s.y + 1 then s.y else s.y - rise p.cols.toNat x b := by
  have hnl : signedChar (untab b) = 10 ↔ b = 10 := by
    rw [show (10 : Int) = (10 : UInt8).toNat by rfl, signedChar_eq_iff (by decide), untab]
    split
    · rename_i htab
      simp [htab]
    · exact Iff.rfl
  have hcr : signedChar (untab b) = 13 ↔ b = 13 := by
    rw [show (13 : Int) = (13 : UInt8).toNat by rfl, signedChar_eq_iff (by decide), untab]
    split
    · rename_i htab
      simp [htab]
    · exact Iff.rfl
  rw [writeChar]
  simp only [signedChar_untab, hnl, hcr]
  by_cases h10 : b = 10
  · obtain ⟨hcol, hrow⟩ := nextRow_cursor (p := p) s
    have hrise : rise p.cols.toNat x b = -1 := by
      rw [rise, if_neg (by rw [h10]; decide), if_pos (Or.inl h10)]
    rw [if_pos h10, hrise, hcol, hrow, nextColumn, if_pos (Or.inl h10)]
    exact ⟨rfl, by simp⟩
  · by_cases h13 : b = 13
    · have hrise : rise p.cols.toNat x b = 1 := by rw [rise, if_pos h13]
      rw [if_neg h10, if_pos h13, hrise, nextColumn, if_pos (Or.inr h13)]
      exact ⟨rfl, (if_neg fun h => absurd h.1 (by decide)).symm⟩
    · rw [if_neg h10, if_neg h13, nextColumn, if_neg (not_or_intro h10 h13)]
      by_cases hlast : x + 1 < p.cols.toNat
      · have hrise : rise p.cols.toNat x b = 0 := by
          rw [rise, if_neg h13, if_neg (not_or_intro h10 (not_not_intro hlast))]
        rw [if_neg (by omega), if_pos hlast, hrise, if_neg fun h => absurd h.1 (by decide)]
        exact ⟨by dsimp only; omega, (Int.sub_zero _).symm⟩
      · have hrise : rise p.cols.toNat x b = -1 := by rw [rise, if_neg h13, if_pos (Or.inr hlast)]
        rw [if_pos (by omega), if_neg hlast, hrise]
        obtain ⟨hcol, hrow⟩ := nextRow_cursor (p := p)
          ⟨s.mem.store (cellAddr (s.x + p.cols.toNat * s.y)) 2 ((signedChar (untab b) + charAttr) % 65536).toNat, s.x + 1, s.y⟩
        rw [hcol, hrow]
        exact ⟨rfl, by simp⟩

theorem nextColumn_lt {cols : Nat} (h : x < cols) (b : UInt8) : nextColumn cols x b < cols := by
  unfold nextColumn
  split_ifs <;> omega

/-- A text ends on the screen exactly when its carriage returns are made up for. -/
theorem text_row_nonneg_iff {text : List UInt8} : ∀ {s : Writing} {x : Nat}, s.x = x → s.y < p.lines.toNat →
    (0 ≤ (text.foldl (writeChar p) s).y ↔ ReturnsMadeUp p x s.y text) := by
  induction text with
  | nil =>
    intro s x _ hy
    refine ⟨fun h => ⟨h, fun pre post htext => ?_⟩, fun h => h.1⟩
    obtain ⟨-, rfl⟩ := List.append_eq_nil_iff.1 htext.symm
    have h0 : (0 : Int) ≤ s.y := h
    simp only [textRise]
    omega
  | cons b text ih =>
    intro s x hx hy
    obtain ⟨hcol, hrow⟩ := writeChar_cursor (p := p) hx b
    have hrise : rise p.cols.toNat x b = 1 ∨ rise p.cols.toNat x b = -1 ∨ rise p.cols.toNat x b = 0 := by
      unfold rise
      split_ifs <;> simp
    have hy' : (writeChar p s b).y < p.lines.toNat := by
      rw [hrow]
      split_ifs <;> omega
    rw [List.foldl_cons, ih hcol hy', hrow]
    constructor
    · rintro ⟨hall, hparts⟩
      have hrest := hparts [] text rfl
      simp only [List.foldl_nil] at hrest
      have hwhole : textRise p.cols.toNat x (b :: text) ≤ s.y := by
        rw [textRise]
        split_ifs at hall <;> omega
      refine ⟨hwhole, fun pre post htext => ?_⟩
      cases pre with
      | nil =>
        rw [List.nil_append] at htext
        rw [← htext, List.foldl_nil]
        omega
      | cons c pre =>
        obtain ⟨rfl, hpost⟩ := List.cons.inj htext
        exact hparts pre post hpost
    · rintro ⟨hall, hparts⟩
      have hrest := hparts [b] text rfl
      simp only [List.foldl_cons, List.foldl_nil] at hrest
      rw [textRise] at hall
      refine ⟨?_, fun pre post htext => ?_⟩
      · split_ifs <;> omega
      · exact hparts (b :: pre) post (by rw [htext]; rfl)

/-- The column after a text is on the screen, and no row below the last is reached. -/
theorem text_cursor {text : List UInt8} : ∀ {s : Writing} {x : Nat}, s.x = x → x < p.cols.toNat → s.y < p.lines.toNat →
    ∃ x' : Nat, (text.foldl (writeChar p) s).x = x' ∧ x' < p.cols.toNat ∧ (text.foldl (writeChar p) s).y < p.lines.toNat := by
  induction text with
  | nil =>
    intro s x hx hlt hy
    exact ⟨x, hx, hlt, hy⟩
  | cons b text ih =>
    intro s x hx hlt hy
    obtain ⟨hcol, hrow⟩ := writeChar_cursor (p := p) hx b
    refine ih hcol (nextColumn_lt hlt b) ?_
    rw [hrow]
    unfold rise
    split_ifs <;> omega

/-- Newlines go down to the last row, and stay in it or below it. -/
theorem newlines_row (n : Nat) : ∀ {s : Writing}, ((List.replicate n 10).foldl (writeChar p) s).y =
    if (p.lines.toNat : Int) ≤ s.y + 1 then s.y else min (s.y + n) (p.lines.toNat - 1) := by
  induction n with
  | zero =>
    intro s
    rw [List.replicate_zero, List.foldl_nil]
    split_ifs <;> omega
  | succ n ih =>
    intro s
    have hrow : (writeChar p s 10).y = if (p.lines.toNat : Int) ≤ s.y + 1 then s.y else s.y + 1 := (nextRow_cursor s).2
    rw [List.replicate_succ, List.foldl_cons, ih, hrow]
    split_ifs <;> omega

end

/-! ## Cutting a text -/

/-- Two numbers are one `unsigned char` when they agree modulo 256. -/
theorem uchar_inj {i j : Int} : uchar i = uchar j ↔ i % 256 = j % 256 := by
  rw [uchar, uchar, ← UInt8.toNat_inj, UInt8.toNat_ofNat', UInt8.toNat_ofNat']
  omega

/-- The state of the loop after a text. -/
def written (v : Video) (text : List UInt8) : Writing :=
  text.foldl (writeChar v.params) ⟨v.mem, v.params.origX.toNat, v.params.origY.toNat⟩

/-- What the second call starts from: the cursor of the first, cut to two bytes. -/
def resumed (w : Writing) : Writing := ⟨w.mem, (uchar w.x).toNat, (uchar w.y).toNat⟩

/-- Both calls at once go on from where the first is, and one after the other from what is left of that. -/
theorem cutHarmless_iff (v : Video) (s t : List UInt8) : CutHarmless v s t ↔
    (∀ r c, r < v.params.lines.toNat → c < v.params.cols.toNat →
      cell (t.foldl (writeChar v.params) (written v s)).mem (r * v.params.cols.toNat + c) =
        cell (t.foldl (writeChar v.params) (resumed (written v s))).mem (r * v.params.cols.toNat + c)) ∧
    uchar (t.foldl (writeChar v.params) (written v s)).x = uchar (t.foldl (writeChar v.params) (resumed (written v s))).x ∧
    uchar (t.foldl (writeChar v.params) (written v s)).y = uchar (t.foldl (writeChar v.params) (resumed (written v s))).y := by
  have hwhole : t.foldl (writeChar v.params) (written v s) = written v (s ++ t) := (List.foldl_append).symm
  rw [hwhole]
  constructor
  · intro h
    exact ⟨h.cells, h.x, h.y⟩
  · rintro ⟨hcells, hx, hy⟩
    exact ⟨hcells, hx, hy⟩

/-- Whatever is to follow, a text can be cut after `s` exactly when the carriage returns of `s` are made up for. -/
theorem con_write_cut_iff {v : Video} (hcol : v.params.origX.toNat < v.params.cols.toNat)
    (hrow : v.params.origY.toNat < v.params.lines.toNat) (s : List UInt8) :
    (∀ t, CutHarmless v s t) ↔ ReturnsMadeUp v.params v.params.origX.toNat v.params.origY.toNat s := by
  have hlines := v.params.lines.toNat_lt
  have hcols := v.params.cols.toNat_lt
  have hy0 : (v.params.origY.toNat : Int) < v.params.lines.toNat := by omega
  obtain ⟨x, hx, hxlt, hylt⟩ : ∃ x : Nat, (written v s).x = x ∧ x < v.params.cols.toNat ∧ (written v s).y < v.params.lines.toNat :=
    text_cursor rfl hcol hy0
  have hrows : 0 ≤ (written v s).y ↔ ReturnsMadeUp v.params v.params.origX.toNat v.params.origY.toNat s :=
    text_row_nonneg_iff rfl hy0
  rw [← hrows]
  constructor
  · intro hall
    by_contra hneg
    -- newlines down to the last row, from the row below the screen or from the one above it
    obtain ⟨-, -, hy⟩ := (cutHarmless_iff v s (List.replicate (max 1 (v.params.lines.toNat - (uchar (written v s).y).toNat)) 10)).1
      (hall _)
    have hr : ((uchar (written v s).y).toNat : Int) = (written v s).y % 256 := by
      rw [uchar, UInt8.toNat_ofNat']
      omega
    rw [newlines_row, newlines_row, uchar_inj, resumed, hr] at hy
    dsimp only at hy
    split_ifs at hy <;> omega
  · intro h0 t
    have hsame : resumed (written v s) = written v s := by
      obtain ⟨y, hy⟩ := Int.eq_ofNat_of_zero_le h0
      have hxu : ((uchar (written v s).x).toNat : Int) = (written v s).x := by rw [hx, toNat_uchar (by omega)]
      have hyu : ((uchar (written v s).y).toNat : Int) = (written v s).y := by rw [hy, toNat_uchar (by omega)]
      rw [resumed, hxu, hyu]
    rw [cutHarmless_iff, hsame]
    exact ⟨fun _ _ _ _ => rfl, rfl, rfl⟩

/-- A screen of 80 columns and 25 rows with nothing on it, the cursor in the first column of a row. -/
def blankVideo (y : UInt8) : Video where
  mem := ⟨fun _ => 0, fun _ => false⟩
  params := ⟨0, y, 80, 25⟩
  ports := []

/-- Below the top row a text can be cut between a carriage return and a newline. -/
theorem con_write_cut_iff_second : CutHarmless (blankVideo 1) [13] [10] := by
  refine (con_write_cut_iff (by decide) (by decide) [13]).2 ⟨by decide, fun pre post h => ?_⟩ [10]
  rcases List.append_eq_singleton_iff.1 h.symm with ⟨rfl, rfl⟩ | ⟨rfl, rfl⟩
  · decide
  · decide

/-- A carriage return and a newline in the top row end there in one call, and in row 255 in two. -/
theorem con_write_cut_false : (conWrite (blankVideo 0) [13, 10]).params.origY = 0 ∧
    (conWrite (conWrite (blankVideo 0) [13]) [10]).params.origY = 255 ∧ ¬CutHarmless (blankVideo 0) [13] [10] := by
  have hone : (conWrite (blankVideo 0) [13, 10]).params.origY = 0 := by decide
  have htwo : (conWrite (conWrite (blankVideo 0) [13]) [10]).params.origY = 255 := by decide
  refine ⟨hone, htwo, fun h => ?_⟩
  have hy : (conWrite (blankVideo 0) [13, 10]).params.origY = (conWrite (conWrite (blankVideo 0) [13]) [10]).params.origY := h.y
  rw [hone, htwo] at hy
  exact absurd hy (by decide)

end BootPerl
