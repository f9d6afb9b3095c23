import BootPerl.Lemmas.Console
import BootPerl.Lib.Run

/-!
# The console stays on the screen, over whole runs

Only a carriage return moves the cursor up, and it does so without a check. As long as none comes in the top row, every cell that
is written lies on the screen and so does the cursor after every call.
-/

namespace BootPerl

open Mem

/-- Before the first call: the cursor is on the screen, and no write is on record. -/
structure VideoInit (v : Video) : Prop where
  clean : ∀ a, v.mem.dirty a = false
  col : v.params.origX.toNat < v.params.cols.toNat
  row : v.params.origY.toNat < v.params.lines.toNat

/-- Every cell written so far is on the screen, and so is the cursor. -/
structure OnScreen (v : Video) : Prop where
  written : ∀ a, v.mem.dirty a = true → ∃ i, i < screenSize v.params ∧ (a = vidmem + 2 * i ∨ a = vidmem + 2 * i + 1)
  col : v.params.origX.toNat < v.params.cols.toNat
  row : v.params.origY.toNat < v.params.lines.toNat

/-! ## The cursor -/

section
variable {p : VidParams} {s : Writing} {x y : Nat}

/-- The row below; the last one stays, as the screen scrolls. -/
def rowBelow (p : VidParams) (y : Nat) : Nat := if y + 1 < p.lines.toNat then y + 1 else y

/-- Where the cursor, in column and row, goes with a character. -/
def nextCursor (p : VidParams) (pos : Nat × Nat) (b : UInt8) : Nat × Nat :=
  if b = 10 then (0, rowBelow p pos.2)
  else if b = 13 then (0, pos.2 - 1)
  else if pos.1 + 1 < p.cols.toNat then (pos.1 + 1, pos.2)
  else (0, rowBelow p pos.2)

/-- No carriage return of the text comes while the cursor is in the top row. -/
def StaysBelow (v : Video) (text : List UInt8) : Prop := ∀ pre post, text = pre ++ 13 :: post →
  0 < (pre.foldl (nextCursor v.params) (v.params.origX.toNat, v.params.origY.toNat)).2

/-- The next row is on the screen. -/
theorem nextRow_at {mem : Mem} {x : Int} (hcols : 0 < p.cols.toNat) (hy : y < p.lines.toNat) :
    At p (nextRow p ⟨mem, x, y⟩) 0 (rowBelow p y) ∧ Mem.Frame (screenBytes (screenSize p)) mem (nextRow p ⟨mem, x, y⟩).mem := by
  rw [nextRow_eq hy, rowBelow]
  split
  · rename_i hlast
    exact ⟨⟨rfl, rfl, hcols, hlast⟩, Mem.Frame.refl _ _⟩
  · exact ⟨⟨rfl, rfl, hcols, hy⟩, frame_scroll mem (Nat.lt_of_le_of_lt (Nat.zero_le y) hy)⟩

/-- A cell of a row of the screen. -/
theorem cell_lt_screenSize (hx : x < p.cols.toNat) (hy : y < p.lines.toNat) : y * p.cols.toNat + x < screenSize p := by
  have hle : (y + 1) * p.cols.toNat ≤ p.lines.toNat * p.cols.toNat := Nat.mul_le_mul_right _ hy
  have hadd : (y + 1) * p.cols.toNat = y * p.cols.toNat + p.cols.toNat := by rw [Nat.add_mul, Nat.one_mul]
  rw [screenSize]
  omega

/-- A character keeps the cursor on the screen and writes there, unless it is a carriage return in the top row. -/
theorem writeChar_at (h : At p s x y) {b : UInt8} (hb : b = 13 → 0 < y) :
    At p (writeChar p s b) (nextCursor p (x, y) b).1 (nextCursor p (x, y) b).2 ∧
      Mem.Frame (screenBytes (screenSize p)) s.mem (writeChar p s b).mem := by
  have hcols : 0 < p.cols.toNat := Nat.lt_of_le_of_lt (Nat.zero_le x) h.col
  have hrow := h.row
  rw [nextCursor]
  by_cases hn : b = 10
  · subst hn
    rw [if_pos rfl, writeChar_newline h]
    exact nextRow_at hcols hrow
  · rw [if_neg hn]
    by_cases hr : b = 13
    · subst hr
      rw [if_pos rfl, writeChar_return]
      have hy := hb rfl
      refine ⟨⟨rfl, ?_, hcols, ?_⟩, Mem.Frame.refl _ _⟩
      · rw [h.y_eq]
        dsimp only
        omega
      · dsimp only
        omega
    · have hstore := frame_store_cell (m := s.mem) (v := charCell (untab b)) (cell_lt_screenSize h.col hrow)
      rw [if_neg hr, writeChar_text h hn hr]
      split
      · rename_i hlast
        exact ⟨⟨rfl, rfl, hlast, hrow⟩, hstore⟩
      · obtain ⟨hat, hframe⟩ := nextRow_at (x := (x + 1 : Nat)) hcols hrow
        exact ⟨hat, hstore.trans hframe⟩

/-- A text keeps the cursor on the screen and writes there, if no carriage return comes in the top row. -/
theorem writeText_at {text : List UInt8} : ∀ {s : Writing} {x y : Nat}, At p s x y →
    (∀ pre post, text = pre ++ 13 :: post → 0 < (pre.foldl (nextCursor p) (x, y)).2) →
    ∃ x' y', At p (text.foldl (writeChar p) s) x' y' ∧
      Mem.Frame (screenBytes (screenSize p)) s.mem (text.foldl (writeChar p) s).mem := by
  induction text with
  | nil =>
    intro s x y h _
    exact ⟨x, y, h, Mem.Frame.refl _ _⟩
  | cons b text ih =>
    intro s x y h hbelow
    obtain ⟨hat, hframe⟩ := writeChar_at (b := b) h fun hb => hbelow [] text (by rw [hb]; rfl)
    obtain ⟨x', y', hat', hframe'⟩ := ih hat fun pre post htext => hbelow (b :: pre) post (by rw [htext]; rfl)
    exact ⟨x', y', hat', hframe.trans hframe'⟩

/-- The bytes of the screen are those of its cells. -/
theorem mem_screenBytes {n a : Nat} (h : a ∈ screenBytes n) : ∃ i, i < n ∧ (a = vidmem + 2 * i ∨ a = vidmem + 2 * i + 1) := by
  obtain ⟨h1, h2⟩ := h
  exact ⟨(a - vidmem) / 2, by omega, by omega⟩

end

/-! ## The calls -/

/-- A call keeps everything on the screen, if no carriage return comes in the top row. -/
theorem OnScreen.conWrite {v : Video} (h : OnScreen v) {text : List UInt8} (hbelow : StaysBelow v text) :
    OnScreen (BootPerl.conWrite v text) := by
  obtain ⟨x, y, hat, hframe⟩ := writeText_at (s := ⟨v.mem, v.params.origX.toNat, v.params.origY.toNat⟩)
    ⟨rfl, rfl, h.col, h.row⟩ hbelow
  have hcols := v.params.cols.toNat_lt
  have hlines := v.params.lines.toNat_lt
  have hcol := hat.col
  have hrow := hat.row
  refine ⟨fun a ha => ?_, ?_, ?_⟩
  · by_cases hmem : a ∈ screenBytes (screenSize v.params)
    · exact mem_screenBytes hmem
    · exact h.written a ((hframe a hmem).2 ▸ ha)
  · rw [BootPerl.conWrite, hat.x_eq, toNat_uchar (by omega)]
    exact hcol
  · rw [BootPerl.conWrite, hat.y_eq, toNat_uchar (by omega)]
    exact hrow

/-- A carriage return in the top row leaves no row of the screen. -/
theorem not_onScreen_return {v : Video} (h : v.params.origY.toNat = 0) : ¬OnScreen (BootPerl.conWrite v [13]) := by
  intro hv
  have hrow := hv.row
  have hlines := v.params.lines.toNat_lt
  have hy : (BootPerl.conWrite v [13]).params.origY = uchar ((v.params.origY.toNat : Int) - 1) := rfl
  rw [hy, h] at hrow
  have h255 : (uchar (((0 : Nat) : Int) - 1)).toNat = 255 := rfl
  have hsame : (BootPerl.conWrite v [13]).params.lines = v.params.lines := rfl
  rw [h255, hsame] at hrow
  omega

/-- In every run without a carriage return in the top row, every cell written and the cursor after every call are on the screen;
and then a call with one character keeps them there exactly if that is no such carriage return. -/
theorem con_write_on_screen {v : Video}
    (h : Reach VideoInit (fun v v' => ∃ text, v' = conWrite v text ∧ StaysBelow v text) v) :
    OnScreen v ∧ ∀ b, OnScreen (conWrite v [b]) ↔ StaysBelow v [b] := by
  have hv : OnScreen v := h.invariant
    (by
      rintro v ⟨hclean, hcol, hrow⟩
      exact ⟨fun a ha => absurd (hclean a) (by rw [ha]; decide), hcol, hrow⟩)
    (by
      rintro v v' hv ⟨text, rfl, hbelow⟩
      exact hv.conWrite hbelow)
  refine ⟨hv, fun b => ⟨fun hb pre post htext => ?_, hv.conWrite⟩⟩
  cases pre with
  | nil =>
    rw [List.nil_append, List.cons.injEq] at htext
    rw [htext.1] at hb
    exact Nat.pos_of_ne_zero fun h0 => not_onScreen_return h0 hb
  | cons c pre =>
    rw [List.cons_append, List.cons.injEq] at htext
    exact absurd htext.2.symm (List.append_ne_nil_of_right_ne_nil pre (List.cons_ne_nil _ _))

/-- A clean screen of 80 columns and 25 rows, the cursor in the top row. -/
def topVideo : Video where
  mem := ⟨fun _ => 0, fun _ => false⟩
  params := ⟨0, 0, 80, 25⟩
  ports := []

/-- A letter and a newline in the top row, then a carriage return in the next. -/
theorem con_write_on_screen_letter : OnScreen (conWrite topVideo [97, 10]) ∧
    ∀ b, OnScreen (conWrite (conWrite topVideo [97, 10]) [b]) ↔ StaysBelow (conWrite topVideo [97, 10]) [b] := by
  have hbelow : StaysBelow topVideo [97, 10] := by
    intro pre post htext
    have hmem : (13 : UInt8) ∈ ([97, 10] : List UInt8) := by
      rw [htext]
      simp
    exact absurd hmem (by decide)
  exact con_write_on_screen (.step (.init ⟨fun _ => rfl, by decide, by decide⟩) ⟨[97, 10], rfl, hbelow⟩)

/-- A carriage return in the top row leaves the cursor in row 255, and a letter after it goes to the memory below the screen. -/
theorem con_write_on_screen_false : VideoInit topVideo ∧ (conWrite topVideo [13]).params.origY = 255 ∧
    ¬OnScreen (conWrite topVideo [13]) ∧ (conWrite topVideo [13, 97]).mem.dirty (vidmem - 160) = true ∧
    ¬OnScreen (conWrite topVideo [13, 97]) := by
  have hdirty : (conWrite topVideo [13, 97]).mem.dirty (vidmem - 160) = true := by decide
  refine ⟨⟨fun _ => rfl, by decide, by decide⟩, by decide, not_onScreen_return rfl, hdirty, fun hv => ?_⟩
  obtain ⟨i, -, hi⟩ := hv.written _ hdirty
  have hlow : vidmem - 160 < vidmem := by decide
  omega

end BootPerl
