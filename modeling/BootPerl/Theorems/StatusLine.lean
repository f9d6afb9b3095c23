import BootPerl.Lemmas.Console
import BootPerl.Status
import BootPerl.Theorems.Numbers
import BootPerl.Theorems.RunRing

/-!
# The status line

`update_status` formats two numbers, a pointer and a name into `msg2`, and shows up to 50 characters of it from column 42 on. The row ends
38 columns later.
-/

namespace BootPerl

open Mem

/-! ## The text -/

/-- How a `long` is shown. -/
def longText (x : Int) : List Char := (if x < 0 then ['-'] else []) ++ numeral (digitSymbol false) 10 x.natAbs

/-- What a name is shown from. -/
def nameText (str : Nat → List Char) (name : BitVec 32) : List Char := if name = 0 then "<NULL>".toList else str name.toNat

/-- The text of the status line. -/
def statusText (str : Nat → List Char) (args : VaList) : List Char :=
  '[' :: longText (args 0).toInt ++ [']', ' '] ++ longText (args 1).toInt ++ [' ', '<'] ++ zeroPadded 8 (args 2).toNat ++ ['>', ' '] ++
    stringText ⟨Flags.none, -1, -1, none⟩ (nameText str (args 3))

/-- A `long` without width. -/
theorem number_long (x : BitVec 32) :
    number (x.signExtend 64) 10 (-1) (-1) { Flags.none with sign := true } = some (longText x.toInt) := by
  have hvalue : numberValue (x.signExtend 64) { Flags.none with sign := true } = x.toInt := BitVec.toInt_signExtend_of_le (by decide)
  rw [number_bare (by decide) (by decide), signChar_toList, magnitude_toNat, hvalue, shownSign, longText]
  congr 1
  split <;> rfl

/-- The flags and the width of the pointer. -/
theorem readSpec_hex (fmt : List Char) (args : VaList) : readSpec ⟨'0' :: '8' :: 'x' :: fmt, args⟩ =
    (⟨{ Flags.none with zeropad := true }, 8, -1, none⟩, ⟨'x' :: fmt, args⟩) := by
  have hdigit : isdigit '8' := by decide
  have hvalue : cInt (0 * 10 + '8'.toNat - 48) = 8 := by decide
  have hatoi : skipAtoi 0 ('8' :: 'x' :: fmt) = (8, 'x' :: fmt) := by
    rw [skipAtoi, if_pos hdigit, hvalue, skipAtoi, if_neg (by decide)]
  simp [readSpec, readFlags, readWidth, readInt, readPrecision, readQualifier, hatoi, hdigit]

theorem sprintf_status (str : Nat → List Char) (debugPhase : BitVec 32) (s : Sched) (next : Nat) :
    sprintf str statusFormat (statusArgs debugPhase s next) = some ⟨statusText str (statusArgs debugPhase s next), []⟩ := by
  generalize statusArgs debugPhase s next = args
  have hdebug : ∀ w, convert str ⟨Flags.none, -1, -1, none⟩ args 'd' w = some (w.put (longText (args 0).toInt)) := by
    intro w
    exact congrArg (Option.map w.put) (number_long (args 0))
  have hpid : ∀ w, convert str ⟨Flags.none, -1, -1, some 'l'⟩ (vaNext args) 'i' w = some (w.put (longText (args 1).toInt)) := by
    intro w
    exact congrArg (Option.map w.put) (number_long (args 1))
  have hcurrent : ∀ w, convert str ⟨{ Flags.none with zeropad := true }, 8, -1, none⟩ (vaNext (vaNext args)) 'x' w =
      some (w.put (zeroPadded 8 (args 2).toNat)) := by
    intro w
    exact congrArg (Option.map w.put) (@number_zeroPadded (args 2) 8 (by decide))
  have hname : ∀ w, convert str ⟨Flags.none, -1, -1, none⟩ (vaNext (vaNext (vaNext args))) 's' w =
      some (w.put (stringText ⟨Flags.none, -1, -1, none⟩ (nameText str (args 3)))) := fun _ => rfl
  have hafter : ∀ {spec : Spec} (left : VaList) {c : Char}, spec.qualifier ≠ some 'L' → c = 'd' ∨ c = 'i' ∨ c = 'x' →
      argsAfter spec left c = vaNext left := by
    rintro spec left c hq (rfl | rfl | rfl) <;> simp [argsAfter, hq]
  have hformat : sprintf str statusFormat args = vsprintfLoop str 19
      ⟨['[', '%', 'd', ']', ' ', '%', 'l', 'i', ' ', '<', '%', '0', '8', 'x', '>', ' ', '%', 's'], args⟩ ⟨[], []⟩ := rfl
  rw [hformat]
  refine (vsprintfLoop_plain str 18 (by decide : '[' ≠ '%') _ args ⟨[], []⟩).trans ?_
  refine (vsprintfLoop_conv 17 rfl (hdebug _)).trans ?_
  rw [hafter args (by simp) (by simp)]
  refine (vsprintfLoop_plain str 16 (by decide : ']' ≠ '%') _ _ _).trans ?_
  refine (vsprintfLoop_plain str 15 (by decide : ' ' ≠ '%') _ _ _).trans ?_
  refine (vsprintfLoop_conv 14 rfl (hpid _)).trans ?_
  rw [hafter (vaNext args) (by simp) (by simp)]
  refine (vsprintfLoop_plain str 13 (by decide : ' ' ≠ '%') _ _ _).trans ?_
  refine (vsprintfLoop_plain str 12 (by decide : '<' ≠ '%') _ _ _).trans ?_
  refine (vsprintfLoop_conv 11 (readSpec_hex _ _) (hcurrent _)).trans ?_
  rw [hafter (vaNext (vaNext args)) (by simp) (by simp)]
  refine (vsprintfLoop_plain str 10 (by decide : '>' ≠ '%') _ _ _).trans ?_
  refine (vsprintfLoop_plain str 9 (by decide : ' ' ≠ '%') _ _ _).trans ?_
  refine (vsprintfLoop_conv 8 rfl (hname _)).trans ?_
  simp [vsprintfLoop, Written.put, statusText]

/-- How many columns a name takes. Its length is an `int`: one from `2 ^ 31` on is negative, and blanks are shown for what it lacks of -1. -/
def nameColumns (n : Nat) : Nat := if n < 2147483648 then n else 4294967295 - n

theorem nameLength_le_iff {k : Nat} (hk : k < 1073741824) (s : List Char) :
    stringLength ⟨Flags.none, -1, -1, none⟩ s ≤ k ↔ nameColumns s.length ≤ k := by
  unfold nameColumns
  split
  · rename_i hlt
    rw [stringLength_whole hlt]
  · rename_i hge
    -- the length, as an `int`, is that of a string no longer than the largest `size_t`, less 2 ^ 32
    have hshown : stringShown ⟨Flags.none, -1, -1, none⟩ s = (min s.length 4294967295 : Nat) - 4294967296 := by
      have hprecision : ((-1 : Int) % 4294967296).toNat = 4294967295 := by decide
      rw [stringShown, hprecision, cInt]
      omega
    generalize hlen : (min s.length 4294967295 : Nat) - (4294967296 : Int) = len at hshown
    have hloops : sideLoops Flags.none = 2 := rfl
    rw [stringLength, hshown, hloops, blanks, blanks, blanks]
    dsimp only
    by_cases hleast : len = -2147483648
    · exact iff_of_false (by omega) (by omega)
    · rw [cInt_of_mem (x := min len (-1) - 1) (by omega) (by omega)]
      omega

/-- The text takes fifteen columns for what is the same in all of them. -/
theorem statusText_length (str : Nat → List Char) (args : VaList) : (statusText str args).length =
    15 + (longText (args 0).toInt).length + (longText (args 1).toInt).length +
      stringLength ⟨Flags.none, -1, -1, none⟩ (nameText str (args 3)) := by
  have hcount : (numeral (digitSymbol false) 16 (args 2).toNat).length ≤ 8 := by
    rw [numeral_length]
    exact max_le (by decide) ((Nat.digits_length_le_iff (by decide) _).2 (args 2).isLt)
  have hhex : (zeroPadded 8 (args 2).toNat).length = 8 := by
    rw [zeroPadded, List.length_append, List.length_replicate]
    omega
  rw [← stringText_length]
  simp only [statusText, List.length_append, List.length_cons, List.length_nil, hhex]
  omega

/-- A text without a NUL. -/
def NoNul (t : List Char) : Prop := ∀ c ∈ t, c ≠ Char.ofNat 0

theorem NoNul.append {t u : List Char} (ht : NoNul t) (hu : NoNul u) : NoNul (t ++ u) := by
  intro c hc
  rcases List.mem_append.1 hc with hc | hc
  · exact ht c hc
  · exact hu c hc

theorem noNul_replicate {c : Char} (hc : c ≠ Char.ofNat 0) (n : Nat) : NoNul (List.replicate n c) := by
  intro d hd
  rwa [List.eq_of_mem_replicate hd]

theorem noNul_numeral {base : Nat} (hb : 2 ≤ base) (hb' : base ≤ 36) (n : Nat) : NoNul (numeral (digitSymbol false) base n) := by
  intro c hc
  obtain ⟨d, hd, rfl⟩ := mem_numeral (Nat.lt_of_succ_le hb) hc
  have hsymbol : ∀ d < 36, digitSymbol false d ≠ Char.ofNat 0 := by decide
  exact hsymbol d (Nat.lt_of_lt_of_le hd hb')

theorem noNul_longText (x : Int) : NoNul (longText x) := by
  refine NoNul.append ?_ (noNul_numeral (by decide) (by decide) _)
  split
  · exact noNul_replicate (by decide) 1
  · exact noNul_replicate (c := 'x') (by decide) 0

theorem noNul_stringText (spec : Spec) {s : List Char} (hs : NoNul s) : NoNul (stringText spec s) := by
  have hblanks := noNul_replicate (c := ' ') (by decide)
  have htake : ∀ n, NoNul (s.take n) := fun n c hc => hs c (List.mem_of_mem_take hc)
  unfold stringText
  generalize cInt (strnlen s (spec.precision % 4294967296).toNat) = len
  simp only [padWhile_eq]
  cases spec.flags.left with
  | true => exact (NoNul.append (hblanks 0) (htake _)).append (hblanks _)
  | false => exact ((hblanks _).append (htake _)).append (hblanks _)

/-- The text has no NUL when the name has none. -/
theorem noNul_statusText {str : Nat → List Char} {args : VaList} (hname : NoNul (nameText str (args 3))) :
    NoNul (statusText str args) := by
  have hhex : NoNul (zeroPadded 8 (args 2).toNat) :=
    (noNul_replicate (by decide) _).append (noNul_numeral (by decide) (by decide) _)
  have hplain : NoNul ['['] ∧ NoNul [']', ' '] ∧ NoNul [' ', '<'] ∧ NoNul ['>', ' '] := by simp [NoNul]
  obtain ⟨hopen, hpid, hcurrent, hname'⟩ := hplain
  exact ((((((hopen.append (noNul_longText _)).append hpid).append (noNul_longText _)).append hcurrent).append hhex).append
    hname').append (noNul_stringText _ hname)

/-! ## The row -/

/-- The bytes of the last row. -/
def rowBytes : Set Nat := {x | vidmem + 2 * (80 * 24) ≤ x ∧ x < vidmem + 2 * (80 * 25)}

/-- `update_status` writes no byte outside `msg2`, and no cell outside the row, whatever the memory holds. -/
def StatusInRow (str : Nat → List Char) (videoInit debugPhase : BitVec 32) (s : Sched) (next : Nat) : Prop :=
  ∀ m, ∃ msg2 m', updateStatus str videoInit debugPhase s next m = some (msg2, m') ∧ msg2.length ≤ 50 ∧ Mem.Frame rowBytes m m'

theorem cellAddr_row {i : Nat} (h : i < 200) : cellAddr (80 * 24 + i) = vidmem + 2 * (80 * 24 + i) := by
  have hcast : ((80 * 24 + i : Nat) : Int) = 80 * 24 + (i : Int) := by push_cast; ring
  rw [← hcast, cellAddr_natCast (by omega)]

theorem frame_store_row {m : Mem} {i v : Nat} (h : i < 80) : Mem.Frame rowBytes m (m.store (cellAddr (80 * 24 + i)) 2 v) := by
  refine Mem.Frame.store fun x hx hx' => ?_
  rw [cellAddr_row (by omega)] at hx hx'
  rw [rowBytes, Set.mem_ofPred_eq]
  omega

theorem frame_clearCells (n : Nat) : ∀ {m : Mem} {i : Nat}, i + n ≤ 80 → Mem.Frame rowBytes m (clearCells m i n) := by
  induction n with
  | zero => exact fun _ => Mem.Frame.refl _ _
  | succ n ih =>
    intro m i h
    exact (frame_store_row (by omega)).trans (ih (by omega))

/-- A message that fits in the row stays there. -/
theorem frame_showMessage {col : Nat} (msg : List Char) : ∀ {m : Mem} {i : Nat}, i + col + msg.length ≤ 80 →
    Mem.Frame rowBytes m (showMessage m col i msg).1 := by
  induction msg with
  | nil => exact fun _ => Mem.Frame.refl _ _
  | cons c msg ih =>
    intro m i h
    rw [List.length_cons] at h
    rw [showMessage]
    split
    · have haddr : (80 * 24 + (i : Int) + col) = 80 * 24 + ((i + col : Nat) : Int) := by push_cast; ring
      rw [haddr]
      exact (frame_store_row (by omega)).trans (ih (by omega))
    · exact Mem.Frame.refl _ _

theorem cellAddr_column {i col : Nat} (h : i + col < 200) :
    cellAddr (80 * 24 + (i : Int) + col) = vidmem + 2 * (80 * 24 + (i + col)) := by
  rw [← cellAddr_row h]
  congr 1
  push_cast
  ring

/-- The cells before a message stay as they are. -/
theorem frame_showMessage_after {col : Nat} (hcol : col < 150) (msg : List Char) : ∀ {m : Mem} {i : Nat},
    Mem.Frame {x | vidmem + 2 * (80 * 24 + (i + col)) ≤ x} m (showMessage m col i msg).1 := by
  induction msg with
  | nil => exact fun {m i} => Mem.Frame.refl _ _
  | cons c msg ih =>
    intro m i
    rw [showMessage]
    split
    · rename_i hlt
      refine Mem.Frame.trans (Mem.Frame.store fun x hx _ => ?_) (ih.mono fun x hx => ?_)
      · rwa [cellAddr_column (by omega)] at hx
      · rw [Set.mem_ofPred_eq] at hx ⊢
        omega
    · exact Mem.Frame.refl _ _

/-- A message without a NUL is shown up to index 50. -/
theorem load_showMessage {col : Nat} (hcol : col < 150) {msg : List Char} : ∀ {m : Mem} {i j : Nat} {c : Char},
    (∀ c ∈ msg, c ≠ Char.ofNat 0) → msg[j]? = some c → i + j < 50 →
    (showMessage m col i msg).1.load (vidmem + 2 * (80 * 24 + (i + j + col))) 2 = statusCell c := by
  induction msg with
  | nil => exact fun _ hj => absurd hj (by simp)
  | cons d msg ih =>
    intro m i j c h0 hj hlt
    rw [showMessage, if_pos ⟨h0 d List.mem_cons_self, by omega⟩]
    cases j with
    | zero =>
      obtain rfl := Option.some.inj hj
      -- the characters after it go to the cells after its own
      have hafter := @frame_showMessage_after col hcol msg (m.store (cellAddr (80 * 24 + (i : Int) + col)) 2 (statusCell d)) (i + 1)
      have hcell : statusCell d < 65536 := by
        rw [statusCell]
        omega
      rw [hafter.load fun x _ hx => ?_, cellAddr_column (by omega), Nat.add_zero, load_store_two hcell]
      rw [Set.mem_ofPred_eq]
      omega
    | succ j =>
      have hnext := @ih (m.store (cellAddr (80 * 24 + (i : Int) + col)) 2 (statusCell d)) (i + 1) j c
        (fun c hc => h0 c (List.mem_cons_of_mem _ hc)) hj (by omega)
      rwa [Nat.add_assoc i 1 j, Nat.add_comm 1 j] at hnext

/-- No cell of a message is empty. -/
theorem statusCell_ne_zero (c : Char) : statusCell c ≠ 0 := by
  have hb := (UInt8.ofNat c.toNat).toNat_lt
  unfold statusCell signedChar
  split <;> omega

/-! ## What `update_status` writes -/

/-- What `update_status` shows once the screen is there: the row is cleared, and the text goes to column 42. -/
theorem updateStatus_eq {str : Nat → List Char} {videoInit : BitVec 32} (h : videoInit ≠ 0) (debugPhase : BitVec 32) (s : Sched)
    (next : Nat) (m : Mem) : ∃ m₁, Mem.Frame rowBytes m m₁ ∧ updateStatus str videoInit debugPhase s next m =
      some (statusText str (statusArgs debugPhase s next) ++ [Char.ofNat 0],
        (showMessage m₁ 42 0 (statusText str (statusArgs debugPhase s next))).1) := by
  rw [updateStatus, if_neg h, sprintf_status, Option.map_some]
  refine ⟨_, ?_, rfl⟩
  have hindex : ∀ m, (showMessage m 1 0 "Kernel operational ".toList).2 = 19 := fun _ => rfl
  have hbar : ∀ {m : Mem} {v : Nat}, Mem.Frame rowBytes m (m.store (cellAddr (80 * 24 + (19 : Nat) + 1)) 2 v) :=
    fun {m v} => @frame_store_row m 20 v (by decide)
  have hstart : ∀ {m : Mem} {v : Nat}, Mem.Frame rowBytes m (m.store (cellAddr (80 * 24 + 0)) 2 v) :=
    fun {m v} => @frame_store_row m 0 v (by decide)
  have hend : ∀ {m : Mem} {v : Nat}, Mem.Frame rowBytes m (m.store (cellAddr (80 * 24 + 79)) 2 v) :=
    fun {m v} => @frame_store_row m 79 v (by decide)
  rw [hindex]
  exact (((hstart.trans hend).trans (frame_clearCells 78 (by decide))).trans (frame_showMessage _ (by decide))).trans hbar

/-- A memory of zeros. -/
def blankMemory : Mem where
  byte _ := 0
  dirty _ := false

/-- A longer text goes on after the last column, which is the 38th of the text. -/
theorem updateStatus_spills {str : Nat → List Char} {videoInit debugPhase : BitVec 32} {s : Sched} {next : Nat} (h : videoInit ≠ 0)
    (h0 : NoNul (statusText str (statusArgs debugPhase s next)))
    (hlong : 38 < (statusText str (statusArgs debugPhase s next)).length) :
    ∃ msg2 m', updateStatus str videoInit debugPhase s next blankMemory = some (msg2, m') ∧ m'.load (vidmem + 2 * (80 * 25)) 2 ≠ 0 := by
  obtain ⟨m₁, -, heq⟩ := @updateStatus_eq str videoInit h debugPhase s next blankMemory
  refine ⟨_, _, heq, ?_⟩
  have hcell := @load_showMessage 42 (by decide) _ m₁ 0 38 _ h0 (List.getElem?_eq_getElem hlong) (by decide)
  rw [show 80 * 25 = 80 * 24 + (0 + 38 + 42) from rfl, hcell]
  exact statusCell_ne_zero _

/-- The row has room for 38 characters of the text. -/
theorem status_in_row_iff_length {str : Nat → List Char} {videoInit debugPhase : BitVec 32} {s : Sched} {next : Nat} (h : videoInit ≠ 0)
    (h0 : NoNul (statusText str (statusArgs debugPhase s next))) : StatusInRow str videoInit debugPhase s next ↔
      (statusText str (statusArgs debugPhase s next)).length ≤ 38 := by
  constructor
  · intro hrow
    by_contra hlong
    obtain ⟨msg2, m', heq, hcell⟩ := updateStatus_spills h h0 (Nat.lt_of_not_le hlong)
    obtain ⟨msg2', m'', heq', -, hframe⟩ := hrow blankMemory
    rw [heq, Option.some_inj, Prod.mk_inj] at heq'
    obtain ⟨rfl, rfl⟩ := heq'
    -- the cell after the row was empty
    refine hcell (hframe.load fun x hx _ hmem => ?_)
    rw [rowBytes, Set.mem_ofPred_eq] at hmem
    omega
  · intro hshort m
    obtain ⟨m₁, hframe, heq⟩ := @updateStatus_eq str videoInit h debugPhase s next m
    refine ⟨_, _, heq, ?_, hframe.trans (frame_showMessage _ (by omega))⟩
    rw [List.length_append, List.length_singleton]
    omega

/-- The status line stays in its row and its text in `msg2` exactly if there is no screen yet, or the numbers and the name take no more than
23 columns. -/
theorem status_in_row_iff {str : Nat → List Char} (hstr : ∀ a, NoNul (str a)) (videoInit debugPhase : BitVec 32) (s : Sched) (next : Nat) :
    StatusInRow str videoInit debugPhase s next ↔ videoInit = 0 ∨
      (longText debugPhase.toInt).length + (longText (BitVec.ofNat 32 (s.pid next)).toInt).length +
        nameColumns (nameText str (BitVec.ofNat 32 (s.name next))).length ≤ 23 := by
  by_cases hinit : videoInit = 0
  · refine iff_of_true (fun m => ⟨[], m, ?_, by decide, Mem.Frame.refl _ _⟩) (Or.inl hinit)
    rw [updateStatus, if_pos hinit]
  · have hname : NoNul (nameText str (BitVec.ofNat 32 (s.name next))) := by
      unfold nameText
      split
      · simp [NoNul]
      · exact hstr _
    rw [or_iff_right hinit, status_in_row_iff_length hinit (noNul_statusText hname), statusText_length]
    have hiff := @nameLength_le_iff (23 - (longText debugPhase.toInt).length - (longText (BitVec.ofNat 32 (s.pid next)).toInt).length)
      (by omega) (nameText str (BitVec.ofNat 32 (s.name next)))
    simp only [statusArgs]
    omega

/-- A task with pid 1 and a name at 0x3000. -/
def namedSched : Sched := createProcess 0x1000 (zeroSched 0x1000) 0 0x2000 1 0x3000 0

/-- A name of 4 characters fits. -/
theorem status_in_row_iff_perl : StatusInRow (fun _ => "perl".toList) 1 0 namedSched 0x2000 := by
  refine (status_in_row_iff (fun a => ?_) 1 0 namedSched 0x2000).2 (Or.inr (by decide))
  simp [NoNul]

/-- A name of 22 characters has its last one in the first cell after the row, which was empty before. -/
theorem status_in_row_false : (∃ msg2 m', updateStatus (fun _ => List.replicate 22 'x') 1 0 namedSched 0x2000 blankMemory = some (msg2, m') ∧
    m'.load (vidmem + 2 * (80 * 25)) 2 ≠ 0) ∧ ¬StatusInRow (fun _ => List.replicate 22 'x') 1 0 namedSched 0x2000 := by
  have hname : NoNul (nameText (fun _ => List.replicate 22 'x') (statusArgs 0 namedSched 0x2000 3)) := noNul_replicate (by decide) 22
  have hlen : (statusText (fun _ => List.replicate 22 'x') (statusArgs 0 namedSched 0x2000)).length = 39 := by
    have hwhole : (nameText (fun _ => List.replicate 22 'x') (statusArgs 0 namedSched 0x2000 3)).length = 22 := by decide
    rw [statusText_length, stringLength_whole (by omega), hwhole]
    decide
  refine ⟨updateStatus_spills (by decide) (noNul_statusText hname) (by omega), ?_⟩
  rw [status_in_row_iff_length (by decide) (noNul_statusText hname)]
  omega

end BootPerl
