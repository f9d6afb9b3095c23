import BootPerl.Lemmas.Console

/-!
# The console and a reference terminal

The terminal that `con_write` is to be keeps for each cell where its contents come from: the screen before the call, a byte of the
text, or a row brought in by scrolling. The console shows what the terminal shows exactly if no byte above 0x7f of the text is left
on the screen and no cell that scrolling brought in and the text did not write to had a character below it.
-/

namespace BootPerl

open Mem

/-- Where the contents of a cell come from. A cell of a row that was brought in remembers the character that the row before it
had in its place. -/
inductive TermCell where
  | kept (v : Nat)
  | text (b : UInt8)
  | cleared (stale : UInt8)
  deriving DecidableEq, Repr

/-- The reference terminal: its cells by row and column, and its cursor. -/
structure Term where
  cells : Nat → Nat → TermCell
  x : Nat
  y : Nat

/-- The character in a cell. -/
def TermCell.char : TermCell → UInt8
  | .kept v => UInt8.ofNat v
  | .text b => b
  | .cleared stale => stale

/-- All rows move up by one, and a row is brought in at the bottom. -/
def Term.scroll (lines : Nat) (t : Term) : Term :=
  { t with cells := fun r c => if r + 1 < lines then t.cells (r + 1) c else .cleared (t.cells r c).char }

/-- The cursor goes to the next row. -/
def Term.nextRow (lines : Nat) (t : Term) : Term :=
  if t.y + 1 < lines then { t with x := 0, y := t.y + 1 } else { t.scroll lines with x := 0 }

/-- A character is put at the cursor. -/
def Term.put (cols lines : Nat) (t : Term) (b : UInt8) : Term :=
  let t := { t with cells := Function.update t.cells t.y (Function.update (t.cells t.y) t.x (.text b)) }
  if t.x + 1 < cols then { t with x := t.x + 1 } else t.nextRow lines

/-- A byte of the text. -/
def Term.byte (cols lines : Nat) (t : Term) (b : UInt8) : Term :=
  if b = 10 then t.nextRow lines else t.put cols lines (if b = 9 then 32 else b)

/-- The terminal with the screen and the cursor of the console. -/
def Term.start (v : Video) : Term where
  cells r c := .kept (cell v.mem (r * v.params.cols.toNat + c))
  x := v.params.origX.toNat
  y := v.params.origY.toNat

/-- The terminal after the text. -/
def Term.run (v : Video) (text : List UInt8) : Term :=
  text.foldl (Term.byte v.params.cols.toNat v.params.lines.toNat) (Term.start v)

/-- Nothing is seen of a character. -/
def Blank (b : UInt8) : Prop := b = 0 ∨ b = 32

/-- A cell of the screen shows what a cell of the terminal does: the byte is taken unsigned, and a row that was brought in shows
nothing. -/
def ShowsCell (v : Nat) : TermCell → Prop
  | .kept w => v = w
  | .text b => v = 0x0700 ||| b.toNat
  | .cleared _ => Blank (UInt8.ofNat v)

/-- The screen and the cursor are those of the terminal. -/
structure ShowsTerm (v : Video) (t : Term) : Prop where
  cells : ∀ r c, r < v.params.lines.toNat → c < v.params.cols.toNat →
    ShowsCell (cell v.mem (r * v.params.cols.toNat + c)) (t.cells r c)
  x : v.params.origX.toNat = t.x
  y : v.params.origY.toNat = t.y

/-- What the code gets right: a byte below 0x80, and a cell brought in that had no character below it. -/
def CleanCell : TermCell → Prop
  | .kept _ => True
  | .text b => b.toNat < 128
  | .cleared stale => Blank stale

/-- All cells on the screen are such. -/
def Clean (p : VidParams) (t : Term) : Prop := ∀ r c, r < p.lines.toNat → c < p.cols.toNat → CleanCell (t.cells r c)

instance (b : UInt8) : Decidable (Blank b) := inferInstanceAs (Decidable (b = 0 ∨ b = 32))

instance : ∀ cell, Decidable (CleanCell cell)
  | .kept _ => isTrue trivial
  | .text b => inferInstanceAs (Decidable (b.toNat < 128))
  | .cleared stale => inferInstanceAs (Decidable (Blank stale))

/-- Row by row, so that it can be decided. -/
theorem clean_iff {p : VidParams} {t : Term} :
    Clean p t ↔ ∀ r < p.lines.toNat, ∀ c < p.cols.toNat, CleanCell (t.cells r c) :=
  ⟨fun h r hr c hc => h r c hr hc, fun h r c hr hc => h r hr c hc⟩

/-! ## What the code shows of a cell -/

/-- A cell of the screen and the cell of the terminal that it follows. -/
def FollowsCell (v : Nat) : TermCell → Prop
  | .kept w => v = w
  | .text b => v = charCell b
  | .cleared stale => UInt8.ofNat v = stale

/-- The character of a cell is its low byte. -/
theorem ofNat_eq_iff (v : Nat) (b : UInt8) : UInt8.ofNat v = b ↔ v % 256 = b.toNat := by
  rw [← UInt8.toNat_inj, UInt8.toNat_ofNat']

/-- Signed or not, a byte is the low byte of its cell. -/
theorem charCell_mod (b : UInt8) : charCell b % 256 = b.toNat := by
  have hb := b.toNat_lt
  have hattr : charAttr = 1792 := rfl
  rw [charCell, signedChar, hattr]
  split <;> omega

/-- The mask of `scroll` leaves the character. -/
theorem mask_mod (v : Nat) : (v &&& 0x28ff) % 256 = v % 256 := by
  have hlow : 0x28ff % 2 ^ 8 = 2 ^ 8 - 1 := rfl
  have h256 : 256 = 2 ^ 8 := rfl
  rw [h256, Nat.and_mod_two_pow, hlow, Nat.and_two_pow_sub_one_eq_mod, Nat.mod_mod]

theorem FollowsCell.char {v : Nat} {t : TermCell} (h : FollowsCell v t) : UInt8.ofNat v = t.char := by
  cases t with
  | kept w => exact congrArg UInt8.ofNat h
  | text b => exact (ofNat_eq_iff v b).2 ((congrArg (· % 256) h).trans (charCell_mod b))
  | cleared stale => exact h

/-- A byte is stored as the terminal shows it exactly if it is below 0x80. -/
theorem charCell_eq_iff (b : UInt8) : charCell b = 0x0700 ||| b.toNat ↔ b.toNat < 128 := by
  have hb := b.toNat_lt
  have hor : 0x0700 ||| b.toNat = 0x0700 + b.toNat := (Nat.two_pow_add_eq_or_of_lt (i := 8) hb 7).symm
  have hattr : charAttr = 1792 := rfl
  rw [hor, charCell, signedChar, hattr]
  split <;> omega

/-- A cell that follows one of the terminal shows it exactly if that one is clean. -/
theorem FollowsCell.shows_iff {v : Nat} {t : TermCell} (h : FollowsCell v t) : ShowsCell v t ↔ CleanCell t := by
  cases t with
  | kept w => exact iff_of_true h trivial
  | text b =>
    have hv : v = charCell b := h
    rw [hv]
    exact charCell_eq_iff b
  | cleared stale =>
    have hv : UInt8.ofNat v = stale := h
    rw [ShowsCell, hv]
    exact Iff.rfl

/-! ## The screen follows the terminal -/

/-- Every cell of the screen follows the one of the terminal. -/
def FollowsCells (p : VidParams) (m : Mem) (cells : Nat → Nat → TermCell) : Prop :=
  ∀ r c, r < p.lines.toNat → c < p.cols.toNat → FollowsCell (cell m (r * p.cols.toNat + c)) (cells r c)

section
variable {p : VidParams} {m : Mem} {t : Term}

/-- Two cells of a screen are one if their rows and columns are. -/
theorem cell_index_inj {cols r c y x : Nat} (hc : c < cols) (hx : x < cols) : r * cols + c = y * cols + x ↔ r = y ∧ c = x := by
  constructor
  · intro h
    have hcx : c = x := by
      have hmod : (r * cols + c) % cols = (y * cols + x) % cols := congrArg (· % cols) h
      rwa [Nat.mul_add_mod_of_lt hc, Nat.mul_add_mod_of_lt hx] at hmod
    subst hcx
    exact ⟨Nat.eq_of_mul_eq_mul_right (Nat.lt_of_le_of_lt (Nat.zero_le c) hc) (Nat.add_right_cancel h), rfl⟩
  · rintro ⟨rfl, rfl⟩
    rfl

theorem FollowsCells.scroll (h : FollowsCells p m t.cells) :
    FollowsCells p (BootPerl.scroll m p) (t.scroll p.lines.toNat).cells := by
  intro r c hr hc
  rw [cell_scroll m hr hc, Term.scroll]
  dsimp only
  split
  · exact h (r + 1) c ‹_› hc
  · have hchar := (h r c hr hc).char
    refine (ofNat_eq_iff _ _).2 ?_
    rw [mask_mod]
    exact (ofNat_eq_iff _ _).1 hchar

/-- A cell is stored on the screen and put on the terminal. -/
theorem FollowsCells.store (h : FollowsCells p m t.cells) {x y : Nat} (hx : x < p.cols.toNat) (b : UInt8) :
    FollowsCells p (m.store (vidmem + 2 * (y * p.cols.toNat + x)) 2 (charCell b))
      (Function.update t.cells y (Function.update (t.cells y) x (.text b))) := by
  intro r c hr hc
  rw [cell_store (charCell_lt b), if_congr (cell_index_inj hc hx) rfl rfl]
  by_cases hry : r = y
  · subst hry
    rw [Function.update_self]
    by_cases hcx : c = x
    · subst hcx
      rw [Function.update_self, if_pos ⟨rfl, rfl⟩]
      rfl
    · rw [Function.update_of_ne hcx, if_neg fun hand => hcx hand.2]
      exact h r c hr hc
  · rw [Function.update_of_ne hry, if_neg fun hand => hry hand.1]
    exact h r c hr hc

/-- The screen and the cursor follow the terminal while the text is written. -/
structure Mirrors (p : VidParams) (s : Writing) (t : Term) : Prop where
  cursor : At p s t.x t.y
  cells : FollowsCells p s.mem t.cells

/-- Both go to the next row. -/
theorem Mirrors.nextRow {x : Int} (h : FollowsCells p m t.cells) (hcols : 0 < p.cols.toNat) (hy : t.y < p.lines.toNat) :
    Mirrors p (BootPerl.nextRow p ⟨m, x, t.y⟩) (t.nextRow p.lines.toNat) := by
  rw [nextRow_eq hy, Term.nextRow]
  split
  · rename_i hlast
    exact ⟨⟨rfl, rfl, hcols, hlast⟩, h⟩
  · exact ⟨⟨rfl, rfl, hcols, hy⟩, h.scroll⟩

/-- Both take a byte. -/
theorem Mirrors.byte {s : Writing} (h : Mirrors p s t) {b : UInt8} (hr : b ≠ 13) :
    Mirrors p (writeChar p s b) (t.byte p.cols.toNat p.lines.toNat b) := by
  have hcols : 0 < p.cols.toNat := Nat.lt_of_le_of_lt (Nat.zero_le _) h.cursor.col
  have hrow := h.cursor.row
  rw [Term.byte]
  by_cases hn : b = 10
  · subst hn
    rw [if_pos rfl, writeChar_newline h.cursor]
    exact Mirrors.nextRow h.cells hcols hrow
  · have hstore := h.cells.store (y := t.y) h.cursor.col (untab b)
    rw [if_neg hn, writeChar_text h.cursor hn hr, Term.put]
    dsimp only
    split
    · rename_i hlast
      exact ⟨⟨rfl, rfl, hlast, hrow⟩, hstore⟩
    · exact Mirrors.nextRow (t := { t with cells := _ }) hstore hcols hrow

/-- Both take a text. -/
theorem Mirrors.text {text : List UInt8} (hr : (13 : UInt8) ∉ text) : ∀ {s : Writing} {t : Term}, Mirrors p s t →
    Mirrors p (text.foldl (writeChar p) s) (text.foldl (Term.byte p.cols.toNat p.lines.toNat) t) := by
  induction text with
  | nil => exact fun h => h
  | cons b text ih =>
    intro s t h
    rw [List.mem_cons, not_or] at hr
    exact ih hr.2 (h.byte (Ne.symm hr.1))

end

/-- For every size of the screen, every cursor on it, all contents and every text without carriage returns, `con_write` leaves the
screen and the cursor of the terminal exactly if the screen of the terminal is clean. -/
theorem con_write_shows_iff (v : Video) (hcol : v.params.origX.toNat < v.params.cols.toNat)
    (hrow : v.params.origY.toNat < v.params.lines.toNat) (text : List UInt8) (hr : (13 : UInt8) ∉ text) :
    ShowsTerm (conWrite v text) (Term.run v text) ↔ Clean v.params (Term.run v text) := by
  have hstart : Mirrors v.params ⟨v.mem, v.params.origX.toNat, v.params.origY.toNat⟩ (Term.start v) :=
    ⟨⟨rfl, rfl, hcol, hrow⟩, fun _ _ _ _ => rfl⟩
  have h : Mirrors v.params _ (Term.run v text) := hstart.text hr
  have hcols := v.params.cols.toNat_lt
  have hlines := v.params.lines.toNat_lt
  have hx := h.cursor.col
  have hy := h.cursor.row
  constructor
  · intro hshows r c hr hc
    exact (h.cells r c hr hc).shows_iff.1 (hshows.cells r c hr hc)
  · intro hclean
    refine ⟨fun r c hr hc => (h.cells r c hr hc).shows_iff.2 (hclean r c hr hc), ?_, ?_⟩
    · rw [conWrite, h.cursor.x_eq, toNat_uchar (by omega)]
    · rw [conWrite, h.cursor.y_eq, toNat_uchar (by omega)]

/-- Two columns and two rows, the cursor at the start of the second, and no text on the screen. -/
def smallVideo : Video where
  mem := ⟨fun _ => 0, fun _ => false⟩
  params := ⟨0, 1, 2, 2⟩
  ports := []

/-- A letter is shown, until the screen scrolls. -/
theorem con_write_shows_iff_letter : ShowsTerm (conWrite smallVideo [97]) (Term.run smallVideo [97]) :=
  (con_write_shows_iff smallVideo (by decide) (by decide) [97] (by decide)).2 (clean_iff.2 (by decide))

/-- The letter `a` and a newline in the last row: the row that is brought in has the letter again. A byte 0x80: its cell is 0x0680. -/
theorem con_write_shows_false :
    cell (conWrite smallVideo [97, 10]).mem 2 = 97 ∧ ¬ShowsTerm (conWrite smallVideo [97, 10]) (Term.run smallVideo [97, 10]) ∧
      cell (conWrite smallVideo [0x80]).mem 2 = 0x0680 ∧ ¬ShowsTerm (conWrite smallVideo [0x80]) (Term.run smallVideo [0x80]) := by
  refine ⟨by decide, fun h => ?_, by decide, fun h => ?_⟩
  · have hcell : Blank (UInt8.ofNat (cell (conWrite smallVideo [97, 10]).mem 2)) := h.cells 1 0 (by decide) (by decide)
    rcases hcell with h0 | h32
    · exact absurd h0 (by decide)
    · exact absurd h32 (by decide)
  · have hcell : cell (conWrite smallVideo [0x80]).mem 2 = 0x0780 := h.cells 1 0 (by decide) (by decide)
    exact absurd hcell (by decide)

end BootPerl
