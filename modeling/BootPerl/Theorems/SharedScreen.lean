import BootPerl.Lib.Interleave
import BootPerl.Screen
import BootPerl.Theorems.ScreenBounds
import BootPerl.Theorems.StatusLine
import BootPerl.Theorems.Terminal

/-!
# The console and the status line share the screen

`con_write` keeps to the rows that `console_init` left it, and reads no others; `update_status` keeps to the last row. So each part
of the screen is as if the other were never written, in any order of the calls.
-/

namespace BootPerl

open Mem

/-- The cursor is on the screen of the console, which ends above the status line. -/
structure AboveStatus (v : Video) : Prop where
  col : v.params.origX.toNat < v.params.cols.toNat
  row : v.params.origY.toNat < v.params.lines.toNat
  above : screenSize v.params ≤ 80 * 24

/-- Two memories have the same cells on a screen. -/
def SameCells (p : VidParams) (m m' : Mem) : Prop := ∀ r c, r < p.lines.toNat → c < p.cols.toNat →
  cell m (r * p.cols.toNat + c) = cell m' (r * p.cols.toNat + c)

/-- Two consoles that are the same: the screen, the parameters, and what went to the ports. -/
structure SameScreen (v w : Video) : Prop where
  params : v.params = w.params
  ports : v.ports = w.ports
  cells : SameCells v.params v.mem w.mem

/-- Two memories have the same bytes at some addresses. -/
def SameOn (X : Set Nat) (m m' : Mem) : Prop := ∀ x ∈ X, m.byte x = m'.byte x

/-- The text of the status line fits its half of the row. -/
def StatusCall.Fits (c : StatusCall) : Prop :=
  c.videoInit = 0 ∨ (statusText c.str (statusArgs c.debugPhase c.sched c.next)).length ≤ 38

/-! ## What the console reads -/

section
variable {p : VidParams} {m m' : Mem} {s s' : Writing} {x y : Nat}

theorem SameCells.scroll (h : SameCells p m m') : SameCells p (BootPerl.scroll m p) (BootPerl.scroll m' p) := by
  intro r c hr hc
  rw [cell_scroll m hr hc, cell_scroll m' hr hc]
  split
  · exact h (r + 1) c ‹_› hc
  · rw [h r c hr hc]

theorem SameCells.store (h : SameCells p m m') (i : Nat) {v : Nat} (hv : v < 65536) :
    SameCells p (m.store (vidmem + 2 * i) 2 v) (m'.store (vidmem + 2 * i) 2 v) := by
  intro r c hr hc
  rw [cell_store hv, cell_store hv]
  split
  · rfl
  · exact h r c hr hc

theorem SameCells.nextRow (h : SameCells p m m') (x : Int) (hy : y < p.lines.toNat) :
    SameCells p (BootPerl.nextRow p ⟨m, x, y⟩).mem (BootPerl.nextRow p ⟨m', x, y⟩).mem := by
  rw [nextRow_eq hy, nextRow_eq hy]
  split
  · exact h
  · exact h.scroll

/-- A character does the same to the same cells. -/
theorem SameCells.writeChar (hm : SameCells p s.mem s'.mem) (h : At p s x y) (h' : At p s' x y) {b : UInt8} (hb : b ≠ 13) :
    SameCells p (BootPerl.writeChar p s b).mem (BootPerl.writeChar p s' b).mem := by
  by_cases hn : b = 10
  · subst hn
    rw [writeChar_newline h, writeChar_newline h']
    exact hm.nextRow _ h.row
  · have hstore := hm.store (y * p.cols.toNat + x) (charCell_lt (untab b))
    rw [writeChar_text h hn hb, writeChar_text h' hn hb]
    split
    · exact hstore
    · exact hstore.nextRow _ h.row

/-- A text does the same to the same cells, and leaves the same cursor. -/
theorem SameCells.writeText {text : List UInt8} (hr : (13 : UInt8) ∉ text) : ∀ (s s' : Writing) {x y : Nat},
    SameCells p s.mem s'.mem → At p s x y → At p s' x y →
    ∃ x' y', At p (text.foldl (BootPerl.writeChar p) s) x' y' ∧ At p (text.foldl (BootPerl.writeChar p) s') x' y' ∧
      SameCells p (text.foldl (BootPerl.writeChar p) s).mem (text.foldl (BootPerl.writeChar p) s').mem := by
  induction text with
  | nil => exact fun s s' _ _ hm h h' => ⟨_, _, h, h', hm⟩
  | cons b text ih =>
    intro s s' x y hm h h'
    rw [List.mem_cons, not_or] at hr
    have hb : b ≠ 13 := Ne.symm hr.1
    exact ih hr.2 _ _ (hm.writeChar h h' hb) (writeChar_at h fun he => absurd he hb).1 (writeChar_at h' fun he => absurd he hb).1

end

section
variable {v w : Video} {text : List UInt8}

/-- A call leaves the cursor on the screen, and writes there only. -/
theorem AboveStatus.conWrite (h : AboveStatus v) (hr : (13 : UInt8) ∉ text) : AboveStatus (BootPerl.conWrite v text) ∧
    Mem.Frame (screenBytes (screenSize v.params)) v.mem (BootPerl.conWrite v text).mem := by
  have hstart : At v.params ⟨v.mem, v.params.origX.toNat, v.params.origY.toNat⟩ v.params.origX.toNat v.params.origY.toNat :=
    ⟨rfl, rfl, h.col, h.row⟩
  obtain ⟨x, y, hat, hframe⟩ := writeText_at hstart fun pre post (he : text = _) => absurd (by rw [he]; simp) hr
  have hcols := v.params.cols.toNat_lt
  have hlines := v.params.lines.toNat_lt
  have hcol := hat.col
  have hrow := hat.row
  refine ⟨⟨?_, ?_, h.above⟩, hframe⟩
  · rw [BootPerl.conWrite, hat.x_eq, toNat_uchar (by omega)]
    exact hcol
  · rw [BootPerl.conWrite, hat.y_eq, toNat_uchar (by omega)]
    exact hrow

/-- A call does the same to the same console. -/
theorem SameScreen.conWrite (hs : SameScreen v w) (h : AboveStatus v) (hr : (13 : UInt8) ∉ text) :
    SameScreen (BootPerl.conWrite v text) (BootPerl.conWrite w text) := by
  obtain ⟨m, p, ports⟩ := v
  obtain ⟨m', p', ports'⟩ := w
  obtain ⟨rfl, rfl, hcells⟩ := hs
  obtain ⟨x, y, hat, hat', hm⟩ := SameCells.writeText hr ⟨m, p.origX.toNat, p.origY.toNat⟩ ⟨m', p.origX.toNat, p.origY.toNat⟩ hcells
    ⟨rfl, rfl, h.col, h.row⟩ ⟨rfl, rfl, h.col, h.row⟩
  refine ⟨?_, ?_, ?_⟩
  · simp only [BootPerl.conWrite, hat.x_eq, hat.y_eq, hat'.x_eq, hat'.y_eq]
  · simp only [BootPerl.conWrite, hat.x_eq, hat.y_eq, hat'.x_eq, hat'.y_eq]
  · exact hm

end

/-! ## What `update_status` reads -/

section
variable {X : Set Nat} {m m' : Mem}

theorem SameOn.store (n : Nat) : ∀ {m m' : Mem} (a v : Nat), SameOn X m m' → SameOn X (m.store a n v) (m'.store a n v) := by
  induction n with
  | zero => exact fun _ _ h => h
  | succ n ih =>
    intro m m' a v h
    refine ih _ _ fun x hx => ?_
    simp only [Mem.set]
    rw [h x hx]

theorem SameOn.clearCells (n : Nat) : ∀ {m m' : Mem} (i : Nat), SameOn X m m' →
    SameOn X (BootPerl.clearCells m i n) (BootPerl.clearCells m' i n) := by
  induction n with
  | zero => exact fun _ h => h
  | succ n ih => exact fun _ h => ih _ (h.store _ _ _)

/-- How far the message is shown does not depend on the memory. -/
theorem SameOn.showMessage (col : Nat) (msg : List Char) : ∀ {m m' : Mem} (i : Nat), SameOn X m m' →
    SameOn X (BootPerl.showMessage m col i msg).1 (BootPerl.showMessage m' col i msg).1 ∧
      (BootPerl.showMessage m col i msg).2 = (BootPerl.showMessage m' col i msg).2 := by
  induction msg with
  | nil => exact fun _ h => ⟨h, rfl⟩
  | cons c msg ih =>
    intro m m' i h
    rw [BootPerl.showMessage, BootPerl.showMessage]
    split
    · exact ih _ (SameOn.store _ _ _ h)
    · exact ⟨h, rfl⟩

variable {v w : Video} {c : StatusCall}

/-- A call does the same to the same bytes. -/
theorem SameOn.showStatus (h : SameOn X v.mem w.mem) (c : StatusCall) :
    SameOn X (BootPerl.showStatus v c).mem (BootPerl.showStatus w c).mem := by
  simp only [BootPerl.showStatus, StatusCall.status, updateStatus]
  split
  · exact h
  · rw [sprintf_status]
    simp only [Option.map_some, Option.getD_some]
    have hends := (h.store 2 (cellAddr (80 * 24 + 0)) (16 + 0x1e00)).store 2 (cellAddr (80 * 24 + 79)) (17 + 0x1e00)
    obtain ⟨hshown, hindex⟩ := (hends.clearCells 78 1).showMessage 1 "Kernel operational ".toList 0
    rw [hindex]
    exact ((hshown.store 2 _ _).showMessage 42 _ 0).1

/-- A call whose text fits writes to the row only. -/
theorem StatusCall.Fits.frame (h : c.Fits) (v : Video) : Mem.Frame rowBytes v.mem (BootPerl.showStatus v c).mem := by
  by_cases hinit : c.videoInit = 0
  · rw [BootPerl.showStatus, StatusCall.status, updateStatus, if_pos hinit]
    exact Mem.Frame.refl _ _
  · obtain ⟨m₁, hframe, heq⟩ := @updateStatus_eq c.str c.videoInit hinit c.debugPhase c.sched c.next v.mem
    rw [BootPerl.showStatus, StatusCall.status, heq]
    exact hframe.trans (frame_showMessage _ (by
      have hlen := h.resolve_left hinit
      omega))

end

/-! ## The parties -/

/-- What both keep: the cursor is above the status line, and nothing but the screen has changed. -/
structure ScreenInv (m₀ : Mem) (v : Video) : Prop where
  above : AboveStatus v
  frame : Mem.Frame (screenBytes (80 * 25)) m₀ v.mem

/-- The cells of the console lie above the row of the status line. -/
theorem not_mem_rowBytes {v : Video} (h : AboveStatus v) {x : Nat} (hx : x ∈ screenBytes (screenSize v.params)) : x ∉ rowBytes := by
  have habove := h.above
  intro hrow
  have h1 := hx.2
  have h2 := hrow.1
  omega

/-- The console and the status line keep apart. -/
theorem screenParties (m₀ : Mem) : Parties BootPerl.conWrite showStatus (fun text => (13 : UInt8) ∉ text) StatusCall.Fits
    (ScreenInv m₀) SameScreen fun v w => SameOn rowBytes v.mem w.mem where
  keeps_left := by
    intro v text h hr
    obtain ⟨habove, hframe⟩ := h.above.conWrite hr
    have hsize := h.above.above
    exact ⟨habove, h.frame.trans (hframe.mono fun x hx => ⟨hx.1, by have := hx.2; omega⟩)⟩
  keeps_right := by
    intro v c h hc
    refine ⟨⟨h.above.col, h.above.row, h.above.above⟩, h.frame.trans ((hc.frame v).mono fun x hx => ⟨?_, hx.2⟩)⟩
    exact Nat.le_trans (Nat.le_add_right _ _) hx.1
  own_left := fun h _ hr hs => hs.conWrite h.above hr
  other_left := by
    intro v w text h hr hs x hx
    rw [((h.above.conWrite hr).2 x fun hin => not_mem_rowBytes h.above hin hx).1]
    exact hs x hx
  own_right := fun _ _ _ hs => hs.showStatus _
  other_right := by
    intro v w c h hc hs
    refine ⟨hs.params, hs.ports, fun r k hr hk => ?_⟩
    have hin : r * v.params.cols.toNat + k < screenSize v.params := cell_lt_screenSize hk hr
    have hsame : cell (showStatus v c).mem (r * v.params.cols.toNat + k) = cell v.mem (r * v.params.cols.toNat + k) :=
      (hc.frame v).load fun x h1 h2 => not_mem_rowBytes h.above ⟨by omega, by omega⟩
    exact hsame.trans (hs.cells r k hr hk)

/-! ## `console_init` -/

/-- What `console_init` finds: a multiboot structure, or a cursor on a screen whose last row is that of the status line or above. -/
def ScreenFound (grub : Bool) (p : VidParams) : Prop := grub = true ∨
  (p.origX.toNat < p.cols.toNat ∧ p.origY.toNat < p.lines.toNat ∧ 2 ≤ p.lines.toNat ∧ (p.lines.toNat - 1) * p.cols.toNat ≤ 80 * 24)

/-- The console is set up above the status line. -/
theorem aboveStatus_consoleInit {grub : Bool} {v : Video} (h : ScreenFound grub v.params) : AboveStatus (consoleInit grub v) := by
  obtain ⟨p, hp⟩ : ∃ p, p = if grub then ⟨0, 23, 80, 25⟩ else v.params := ⟨_, rfl⟩
  have hfound : p.origX.toNat < p.cols.toNat ∧ p.origY.toNat < p.lines.toNat ∧ 2 ≤ p.lines.toNat ∧
      (p.lines.toNat - 1) * p.cols.toNat ≤ 80 * 24 := by
    cases grub with
    | true =>
      rw [hp, if_pos rfl]
      decide
    | false => exact hp ▸ h.resolve_left Bool.false_ne_true
  obtain ⟨hcol, hrow, htwo, habove⟩ := hfound
  have hlines : (p.lines - 1).toNat = p.lines.toNat - 1 := by
    rw [UInt8.toNat_sub_of_le _ _ (UInt8.le_iff_toNat_le.2 (Nat.le_trans (by decide) htwo))]
    rfl
  have hsize : screenSize { p with lines := p.lines - 1 } ≤ 80 * 24 := by
    rw [screenSize, hlines]
    exact habove
  simp only [consoleInit, ← hp]
  refine (AboveStatus.conWrite ?_ (by decide)).1
  split
  · rename_i hlast
    have hle : (p.lines - 1).toNat ≤ p.origY.toNat := UInt8.le_iff_toNat_le.1 hlast
    have hone : (1 : UInt8) ≤ p.origY := UInt8.le_iff_toNat_le.2 (show 1 ≤ p.origY.toNat by omega)
    have hrow' : (p.origY - 1).toNat = p.origY.toNat - 1 := UInt8.toNat_sub_of_le _ _ hone
    refine ⟨hcol, ?_, hsize⟩
    dsimp only
    omega
  · rename_i hlast
    exact ⟨hcol, Nat.lt_of_not_le fun hle => hlast (UInt8.le_iff_toNat_le.2 hle), hsize⟩

/-- In any order of the calls after `console_init`, the screen, the cursor and the ports of the console are as with the calls of
`con_write` alone, and the last row is as with those of `update_status` alone; nothing else is written to. -/
theorem screen_shared {grub : Bool} {v : Video} (h : ScreenFound grub v.params) (calls : List (List UInt8 ⊕ StatusCall))
    (hcalls : ∀ c ∈ calls, Sum.elim (fun text => (13 : UInt8) ∉ text) StatusCall.Fits c) :
    SameScreen (calls.foldl (eitherStep BootPerl.conWrite showStatus) (consoleInit grub v))
        ((calls.filterMap Sum.getLeft?).foldl BootPerl.conWrite (consoleInit grub v)) ∧
      SameOn rowBytes (calls.foldl (eitherStep BootPerl.conWrite showStatus) (consoleInit grub v)).mem
        ((calls.filterMap Sum.getRight?).foldl showStatus (consoleInit grub v)).mem ∧
      Mem.Frame (screenBytes (80 * 25)) (consoleInit grub v).mem
        (calls.foldl (eitherStep BootPerl.conWrite showStatus) (consoleInit grub v)).mem := by
  have hparties := screenParties (consoleInit grub v).mem
  have hinv : ScreenInv (consoleInit grub v).mem (consoleInit grub v) := ⟨aboveStatus_consoleInit h, Mem.Frame.refl _ _⟩
  obtain ⟨hconsole, hstatus⟩ := hparties.apart hinv hinv hinv hcalls ⟨rfl, rfl, fun _ _ _ _ => rfl⟩ fun _ _ => rfl
  exact ⟨hconsole, hstatus, (hparties.foldl hinv hcalls).frame⟩

/-- The status line for the task `perl`, with a video memory. -/
def perlStatus : StatusCall := ⟨fun _ => "perl".toList, 1, 0, namedSched, 0x2000⟩

theorem perlStatus_fits : perlStatus.Fits := by
  have hname := (nameLength_le_iff (k := 4) (by decide) "perl".toList).2 (by decide)
  have hdebug : (longText (statusArgs 0 namedSched 0x2000 0).toInt).length = 1 := by decide
  have hpid : (longText (statusArgs 0 namedSched 0x2000 1).toInt).length = 1 := by decide
  refine Or.inr ?_
  rw [statusText_length]
  change 15 + (longText (statusArgs 0 namedSched 0x2000 0).toInt).length + (longText (statusArgs 0 namedSched 0x2000 1).toInt).length +
    stringLength ⟨Flags.none, -1, -1, none⟩ "perl".toList ≤ 38
  omega

/-- A letter, the status line, and a newline and a letter, after a boot with a multiboot structure. -/
theorem screen_shared_perl :
    SameScreen (conWrite (showStatus (conWrite (consoleInit true smallVideo) [97]) perlStatus) [10, 98])
      (conWrite (conWrite (consoleInit true smallVideo) [97]) [10, 98]) :=
  (screen_shared (v := smallVideo) (Or.inl rfl) [Sum.inl [97], Sum.inr perlStatus, Sum.inl [10, 98]] (by
    simp only [List.forall_mem_cons, Sum.elim_inl, Sum.elim_inr]
    exact ⟨by decide, perlStatus_fits, by decide, List.forall_mem_nil _⟩)).1

end BootPerl
