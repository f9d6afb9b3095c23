import BootPerl.Console

/-!
# Cells and scrolling

The cells of the screen in rows and columns, what a copy, a store and `scroll` do to each of them, and that all three leave the
bytes outside the screen alone.
-/

namespace BootPerl

open Mem

/-! ## Copying -/

/-- A copy to lower addresses reads every byte before it is overwritten. -/
theorem byte_memcpy {n : Nat} : ∀ {m : Mem} {dest src x : Nat}, dest ≤ src →
    (memcpy m dest src n).byte x = if dest ≤ x ∧ x < dest + n then m.byte (x - dest + src) else m.byte x := by
  induction n with
  | zero =>
    intro m dest src x _
    rw [memcpy, if_neg (by omega)]
  | succ n ih =>
    intro m dest src x h
    rw [memcpy, ih (Nat.succ_le_succ h)]
    by_cases hx : x = dest
    · subst hx
      rw [if_neg (by omega), if_pos (by omega), Nat.sub_self, Nat.zero_add]
      exact if_pos rfl
    · by_cases hin : dest + 1 ≤ x ∧ x < dest + 1 + n
      · have hfrom : x - (dest + 1) + (src + 1) = x - dest + src := by omega
        have hne : x - dest + src ≠ dest := by omega
        rw [if_pos hin, if_pos (by omega), hfrom]
        exact if_neg hne
      · rw [if_neg hin, if_neg (by omega)]
        exact if_neg hx

/-- A copy writes to its destination only. -/
theorem frame_memcpy {X : Set Nat} {n : Nat} : ∀ {m : Mem} {dest src : Nat}, (∀ x, dest ≤ x → x < dest + n → x ∈ X) →
    Mem.Frame X m (memcpy m dest src n) := by
  induction n with
  | zero =>
    intro m dest src _
    exact Mem.Frame.refl X m
  | succ n ih =>
    intro m dest src h
    exact (Mem.Frame.set (h dest (Nat.le_refl _) (by omega))).trans (ih fun x hx hx' => h x (by omega) (by omega))

/-- A byte that does not lie in the destination is copied. -/
theorem byte_memcpy_of_outside {n : Nat} : ∀ {m : Mem} {dest src i : Nat}, i < n → ¬(dest ≤ src + i ∧ src + i < dest + n) →
    (memcpy m dest src n).byte (dest + i) = m.byte (src + i) := by
  induction n with
  | zero =>
    intro m dest src i hi _
    exact absurd hi (Nat.not_lt_zero i)
  | succ n ih =>
    intro m dest src i hi hout
    rw [memcpy]
    cases i with
    | zero =>
      -- the rest of the copy lies above the first byte
      have hf : Mem.Frame {x | dest + 1 ≤ x ∧ x < dest + 1 + n} (m.set dest (m.byte src))
          (memcpy (m.set dest (m.byte src)) (dest + 1) (src + 1) n) := frame_memcpy fun x h1 h2 => ⟨h1, h2⟩
      exact (hf dest fun hx => absurd hx.1 (Nat.not_succ_le_self dest)).1.trans (if_pos rfl)
    | succ i =>
      have hne : src + (i + 1) ≠ dest := by omega
      rw [show dest + (i + 1) = dest + 1 + i by omega, ih (by omega) (by omega), show src + 1 + i = src + (i + 1) by omega]
      exact if_neg hne

/-! ## Cells -/

/-- `vidmem[i]`. -/
def cell (m : Mem) (i : Nat) : Nat := m.load (vidmem + 2 * i) 2

/-- The cells of a screen with `n` cells. -/
def screenBytes (n : Nat) : Set Nat := {x | vidmem ≤ x ∧ x < vidmem + 2 * n}

/-- The cells of the screen lie below the end of the address space. -/
theorem cellAddr_natCast {i : Nat} (h : i < 65536) : cellAddr (i : Int) = vidmem + 2 * i := by
  have hv : vidmem = 753664 := rfl
  rw [cellAddr, hv]
  omega

/-- A cell stored is read back, and the others are unchanged. -/
theorem cell_store {m : Mem} {i j v : Nat} (hv : v < 65536) :
    cell (m.store (vidmem + 2 * i) 2 v) j = if j = i then v else cell m j := by
  unfold cell
  split
  · rename_i hji
    rw [hji, load_store_two hv]
  · exact load_store_of_disjoint (by omega)

theorem frame_store_cell {m : Mem} {i n v : Nat} (h : i < n) : Mem.Frame (screenBytes n) m (m.store (vidmem + 2 * i) 2 v) :=
  Mem.Frame.store fun _ hx hx' => ⟨by omega, by omega⟩

/-- A copy of whole cells to lower ones. -/
theorem cell_memcpy {m : Mem} {k n j : Nat} :
    cell (memcpy m vidmem (vidmem + k * 2) (n * 2)) j = if j < n then cell m (j + k) else cell m j := by
  have hbyte : ∀ x, (memcpy m vidmem (vidmem + k * 2) (n * 2)).byte x =
      if vidmem ≤ x ∧ x < vidmem + n * 2 then m.byte (x - vidmem + (vidmem + k * 2)) else m.byte x :=
    fun x => byte_memcpy (Nat.le_add_right _ _)
  unfold cell
  split
  · have haddr : vidmem + 2 * (j + k) = vidmem + 2 * j - vidmem + (vidmem + k * 2) := by omega
    have hnext : vidmem + 2 * j + 1 - vidmem + (vidmem + k * 2) = vidmem + 2 * j - vidmem + (vidmem + k * 2) + 1 := by omega
    simp only [load]
    rw [hbyte, hbyte, if_pos (by omega), if_pos (by omega), haddr, hnext]
  · refine load_congr fun x hx hx' => ?_
    rw [hbyte, if_neg (by omega)]

/-- The loop of `scroll` masks the cells that it meets. -/
theorem cell_recolour {n : Nat} : ∀ {m : Mem} {i j : Nat}, i + n ≤ 65536 →
    cell (recolour m i n) j = if i ≤ j ∧ j < i + n then cell m j &&& 0x28ff else cell m j := by
  induction n with
  | zero =>
    intro m i j _
    rw [recolour, if_neg (by omega)]
  | succ n ih =>
    intro m i j h
    have hsum : 0xff + 0x2800 = 0x28ff := rfl
    have hlt : cell m i &&& 0x28ff < 65536 := Nat.lt_of_le_of_lt Nat.and_le_right (by decide)
    have hnext : ((i : Int) + 1) = ((i + 1 : Nat) : Int) := rfl
    have hload : m.load (vidmem + 2 * i) 2 = cell m i := rfl
    rw [recolour, cellAddr_natCast (by omega), hsum, hnext, ih (by omega), hload, cell_store hlt]
    by_cases hj : j = i
    · subst hj
      rw [if_neg (by omega), if_pos rfl, if_pos (by omega)]
    · rw [if_neg hj]
      by_cases hin : i + 1 ≤ j ∧ j < i + 1 + n
      · rw [if_pos hin, if_pos (by omega)]
      · rw [if_neg hin, if_neg (by omega)]

theorem frame_recolour {N n : Nat} :
    ∀ {m : Mem} {i : Nat}, i + n ≤ N → N ≤ 65536 → Mem.Frame (screenBytes N) m (recolour m i n) := by
  induction n with
  | zero =>
    intro m i _ _
    exact Mem.Frame.refl _ m
  | succ n ih =>
    intro m i h hN
    have hnext : ((i : Int) + 1) = ((i + 1 : Nat) : Int) := rfl
    rw [recolour, cellAddr_natCast (by omega), hnext]
    exact (frame_store_cell (by omega)).trans (ih (by omega) hN)

/-! ## Scrolling -/

section
variable {p : VidParams}

/-- The size of the screen, in cells. -/
def screenSize (p : VidParams) : Nat := p.lines.toNat * p.cols.toNat

theorem screenSize_lt (p : VidParams) : screenSize p < 65536 := by
  have hlines := p.lines.toNat_lt
  have hcols := p.cols.toNat_lt
  have hmul : p.lines.toNat * p.cols.toNat ≤ 255 * 255 := Nat.mul_le_mul (by omega) (by omega)
  rw [screenSize]
  omega

/-- The steps of `scroll` on a screen that has a row. -/
theorem scroll_eq (m : Mem) {rows : Nat} (h : p.lines.toNat = rows + 1) :
    scroll m p = recolour (memcpy m vidmem (vidmem + p.cols.toNat * 2) (rows * p.cols.toNat * 2))
      ((rows * p.cols.toNat : Nat) : Int) p.cols.toNat := by
  have hsize := screenSize_lt p
  rw [screenSize, h, Nat.add_mul, Nat.one_mul] at hsize
  have hrows : (((rows + 1 : Nat) : Int) - 1) * (p.cols.toNat : Int) = ((rows * p.cols.toNat : Nat) : Int) := by
    push_cast
    ring
  have hall : ((rows + 1 : Nat) : Int) * (p.cols.toNat : Int) = ((rows * p.cols.toNat + p.cols.toNat : Nat) : Int) := by
    push_cast
    ring
  have hcount : (((rows * p.cols.toNat : Nat) : Int) * 2 % 4294967296).toNat = rows * p.cols.toNat * 2 := by omega
  have hlast : (((rows * p.cols.toNat + p.cols.toNat : Nat) : Int) - ((rows * p.cols.toNat : Nat) : Int)).toNat =
      p.cols.toNat := by omega
  rw [scroll, h, hrows, hall, hcount, hlast]

/-- `scroll` moves each row up by one; the last stays, and is masked. -/
theorem cell_scroll (m : Mem) {r c : Nat} (hr : r < p.lines.toNat) (hc : c < p.cols.toNat) :
    cell (scroll m p) (r * p.cols.toNat + c) =
      if r + 1 < p.lines.toNat then cell m ((r + 1) * p.cols.toNat + c) else cell m (r * p.cols.toNat + c) &&& 0x28ff := by
  obtain ⟨rows, hrows⟩ := Nat.exists_eq_add_of_le' (Nat.lt_of_le_of_lt (Nat.zero_le r) hr)
  have hsize := screenSize_lt p
  rw [screenSize, hrows, Nat.add_mul, Nat.one_mul] at hsize
  rw [scroll_eq m hrows, cell_recolour (by omega), hrows]
  by_cases hlast : r + 1 < rows + 1
  · have hle : (r + 1) * p.cols.toNat ≤ rows * p.cols.toNat := Nat.mul_le_mul_right _ (by omega)
    have hadd : (r + 1) * p.cols.toNat = r * p.cols.toNat + p.cols.toNat := by rw [Nat.add_mul, Nat.one_mul]
    have hfrom : r * p.cols.toNat + c + p.cols.toNat = (r + 1) * p.cols.toNat + c := by omega
    rw [if_pos hlast, if_neg (by omega), cell_memcpy, if_pos (by omega), hfrom]
  · have hrr : r = rows := by omega
    rw [if_neg hlast, if_pos (by rw [hrr]; omega), cell_memcpy, if_neg (by rw [hrr]; omega)]

/-- `scroll` writes to the screen only. -/
theorem frame_scroll (m : Mem) (h : 0 < p.lines.toNat) : Mem.Frame (screenBytes (screenSize p)) m (scroll m p) := by
  obtain ⟨rows, hrows⟩ := Nat.exists_eq_add_of_le' h
  have hsize := screenSize_lt p
  have hsum : screenSize p = rows * p.cols.toNat + p.cols.toNat := by rw [screenSize, hrows, Nat.add_mul, Nat.one_mul]
  have hcopy : Mem.Frame (screenBytes (screenSize p)) m (memcpy m vidmem (vidmem + p.cols.toNat * 2) (rows * p.cols.toNat * 2)) :=
    frame_memcpy fun x hx hx' => ⟨hx, by omega⟩
  rw [scroll_eq m hrows]
  exact hcopy.trans (frame_recolour (by omega) (by omega))

/-! ## Writing a character -/

/-- A number below 256 is an `unsigned char`. -/
theorem toNat_uchar {n : Nat} (h : n < 256) : (uchar (n : Int)).toNat = n := by
  have hn : (((n : Nat) : Int) % 256).toNat = n := by omega
  rw [uchar, hn, UInt8.toNat_ofNat']
  exact Nat.mod_eq_of_lt h

/-- The cursor is on the screen. -/
structure At (p : VidParams) (s : Writing) (x y : Nat) : Prop where
  x_eq : s.x = x
  y_eq : s.y = y
  col : x < p.cols.toNat
  row : y < p.lines.toNat

/-- The cell that is stored for a character. -/
def charCell (b : UInt8) : Nat := ((signedChar b + charAttr) % 65536).toNat

theorem charCell_lt (b : UInt8) : charCell b < 65536 := by
  rw [charCell]
  omega

/-- The character that is stored: a space for a tab. -/
def untab (b : UInt8) : UInt8 := if b = 9 then 32 else b

/-- A `char` below 128 is the value of its byte. -/
theorem signedChar_eq_iff {b k : UInt8} (hk : k.toNat < 128) : signedChar b = k.toNat ↔ b = k := by
  have hb := b.toNat_lt
  rw [← UInt8.toNat_inj, signedChar]
  split <;> omega

/-- A `char` is zero when its byte is. -/
theorem signedChar_eq_zero_iff {b : UInt8} : signedChar b = 0 ↔ b = 0 := signedChar_eq_iff (k := 0) (by decide)

/-- Two bytes with the same value as a `char` are the same. -/
theorem signedChar_inj {b c : UInt8} : signedChar b = signedChar c ↔ b = c := by
  have hb := b.toNat_lt
  have hc := c.toNat_lt
  rw [← UInt8.toNat_inj, signedChar, signedChar]
  split <;> split <;> omega

theorem signedChar_untab (b : UInt8) : (if signedChar b = 9 then 32 else signedChar b) = signedChar (untab b) := by
  have htab : signedChar b = 9 ↔ b = 9 := signedChar_eq_iff (k := 9) (by decide)
  rw [untab, if_congr htab rfl rfl]
  split
  · rfl
  · rfl

variable {s : Writing} {x y : Nat}

/-- The cursor goes to the next row, and the screen scrolls if there is none. -/
theorem nextRow_eq {mem : Mem} {x : Int} (hy : y < p.lines.toNat) : nextRow p ⟨mem, x, y⟩ =
    if y + 1 < p.lines.toNat then ⟨mem, 0, (y + 1 : Nat)⟩ else ⟨scroll mem p, 0, y⟩ := by
  rw [nextRow]
  by_cases hlast : y + 1 < p.lines.toNat
  · rw [if_pos hlast, if_neg (by dsimp only; omega)]
    rfl
  · rw [if_neg hlast, if_pos (by dsimp only; omega)]
    simp only [Int.add_sub_cancel]

/-- A newline. -/
theorem writeChar_newline (h : At p s x y) : writeChar p s 10 = nextRow p ⟨s.mem, x, y⟩ := by
  rw [← h.x_eq, ← h.y_eq]
  rfl

/-- A carriage return. -/
theorem writeChar_return (s : Writing) : writeChar p s 13 = ⟨s.mem, 0, s.y - 1⟩ := rfl

/-- Any other character. -/
theorem writeChar_text (h : At p s x y) {b : UInt8} (hn : b ≠ 10) (hr : b ≠ 13) : writeChar p s b =
    if x + 1 < p.cols.toNat then ⟨s.mem.store (vidmem + 2 * (y * p.cols.toNat + x)) 2 (charCell (untab b)), (x + 1 : Nat), y⟩
    else nextRow p ⟨s.mem.store (vidmem + 2 * (y * p.cols.toNat + x)) 2 (charCell (untab b)), (x + 1 : Nat), y⟩ := by
  have hne : ∀ k : UInt8, k.toNat < 128 → k ≠ 32 → b ≠ k → ¬signedChar (untab b) = k.toNat := by
    intro k hk hspace hbk he
    have hut : untab b = k := (signedChar_eq_iff hk).1 he
    rw [untab] at hut
    split at hut
    · exact hspace hut.symm
    · exact hbk hut
  have hidx : y * p.cols.toNat + x < 65536 := by
    have hsize := screenSize_lt p
    have hle : (y + 1) * p.cols.toNat ≤ p.lines.toNat * p.cols.toNat := Nat.mul_le_mul_right _ h.row
    have hadd : (y + 1) * p.cols.toNat = y * p.cols.toNat + p.cols.toNat := by rw [Nat.add_mul, Nat.one_mul]
    have hcol := h.col
    rw [screenSize] at hsize
    omega
  have haddr : cellAddr (s.x + p.cols.toNat * s.y) = vidmem + 2 * (y * p.cols.toNat + x) := by
    have hcast : s.x + (p.cols.toNat : Int) * s.y = ((y * p.cols.toNat + x : Nat) : Int) := by
      rw [h.x_eq, h.y_eq]
      push_cast
      ring
    rw [hcast, cellAddr_natCast hidx]
  have hx : s.x + 1 = ((x + 1 : Nat) : Int) := by
    rw [h.x_eq]
    rfl
  have hn' : ¬signedChar (untab b) = 10 := hne 10 (by decide) (by decide) hn
  have hr' : ¬signedChar (untab b) = 13 := hne 13 (by decide) (by decide) hr
  rw [writeChar]
  simp only [signedChar_untab]
  rw [if_neg hn', if_neg hr', haddr, hx, h.y_eq]
  by_cases hlast : x + 1 < p.cols.toNat
  · rw [if_pos hlast, if_neg (by omega)]
    rfl
  · rw [if_neg hlast, if_pos (by omega)]
    rfl

end

end BootPerl
