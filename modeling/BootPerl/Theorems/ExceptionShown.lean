import BootPerl.Theorems.PanicShown

/-!
# What an exception shows

The vector that the processor raises, its stub, and the function that the stub jumps to have to agree on what is on the stack. They do,
and the name of the exception is printed with its error code, if it has one; but what is printed with an error code has the level of
ordinary messages, and what is printed without leaves its line open.
-/

namespace BootPerl

open Machine

/-! ## The arguments -/

/-- The stub puts its number where a C function finds its first argument. -/
theorem exceptionStub_stack {m : Machine} {S : Nat} {ws : List UInt32} (h : StackAt m (S + 8) ws) (nr : UInt32) :
    StackAt (m.exceptionStub nr) S (0 :: nr :: ws) := by
  have hmoved : StackAt { m with eax := kernelData.toUInt32, ds := kernelData.toUInt32.toUInt16 } (S + 4 + 4) ws := h.congr rfl rfl
  obtain ⟨hpush, -⟩ := hmoved.push nr
  exact (hpush.push 0).1

theorem arg_eq {m : Machine} {S : Nat} {ws : List UInt32} (h : StackAt m S ws) {i : UInt32} {j : Nat} (hj : (4 + 4 * i).toNat = 4 * j)
    (hlt : j < ws.length) : m.arg i = ws.get ⟨j, hlt⟩ := by
  rw [arg, UInt32.add_assoc]
  exact (h.get hlt hj).2

/-- The processor pushes an error code exactly for the vectors whose stub was built for one. -/
theorem pushesErrorCode_iff {n : Nat} (hn : n < 32) : pushesErrorCode n = true ↔ n ∈ exceptionEc :=
  (by decide : ∀ n < 32, pushesErrorCode n = true ↔ n ∈ exceptionEc) n hn

/-- The stub finds the error code, if there is one, on top of what the processor pushes. -/
theorem raise_stack {m : Machine} {idt n : Nat} {addr : UInt32} (hgate : gateAt m.mem (idt + 8 * n) = intrGate addr) {S : Nat}
    (hesp : m.esp.toNat = S + 24) (errorCode : UInt32) :
    if pushesErrorCode n then ∃ ws, StackAt (m.raise idt n errorCode) (S + 8) (errorCode :: ws)
    else ∃ ws, StackAt (m.raise idt n errorCode) (S + 12) ws := by
  have hlt := m.esp.toNat_lt
  have hstack : StackAt m (S + 12 + 12) [] := ⟨hesp, trivial, by rw [List.length_nil]; omega⟩
  have hint := (interrupt_spec hstack addr).1
  rw [raise, deliver_eq hgate]
  split
  · exact ⟨_, (StackAt.push (S := S + 8) hint errorCode).1⟩
  · exact ⟨_, hint⟩

/-! ## The texts -/

/-- A string is at an address. -/
def ExceptionStrings.Has (x : ExceptionStrings) (a : BitVec 32) (t : List Char) : Prop := a ≠ 0 ∧ x.str a.toNat = t

/-- The strings are where they are said to be. -/
structure ExceptionStrings.Placed (x : ExceptionStrings) : Prop where
  names : ∀ n < 32, x.Has (x.names n) (exceptionNames.getD n "").toList
  external : x.Has x.external "external, ".toList
  empty : x.Has x.empty []
  ldt : x.Has x.ldt "LDT, ".toList
  gdt : x.Has x.gdt "GDT, ".toList
  panicBuf : x.panicBuf ≠ 0

/-- The name of an exception. -/
def exceptionName (n : Nat) : List Char := (exceptionNames.getD n "").toList

/-- Where the fault lies, by the low bits of its error code. -/
def externalText (errorCode : BitVec 32) : List Char := if errorCode &&& 0x1 ≠ 0 then "external, ".toList else []

/-- The table of the selector. -/
def tableText (errorCode : BitVec 32) : List Char :=
  if errorCode &&& 0x2 ≠ 0 then "LDT, ".toList else if errorCode &&& 0x4 ≠ 0 then "LDT, ".toList else "GDT, ".toList

/-- What is printed of an exception without an error code. -/
def exceptionText (n : Nat) : List Char := "exception: #".toList ++ exceptionName n

/-- What is printed of an exception with an error code. -/
def exceptionEcText (n : Nat) (errorCode : BitVec 32) : List Char :=
  "exception: #".toList ++ (exceptionName n ++ (" error code ".toList ++ (zeroPadded 8 errorCode.toNat ++ (", ".toList ++
    (externalText errorCode ++ (tableText errorCode ++ ("segment ".toList ++ zeroPadded 4 (errorCode.sshiftRight 3).toNat)))))))

/-- What a console gets of an exception where a line begins. -/
def exceptionShown (n : Nat) (errorCode : BitVec 32) (loglevel : Nat) : List Char :=
  (if n ∈ exceptionEc then (if 4 ≤ loglevel then exceptionEcText n errorCode ++ ['\n'] else []) ++ ['\n']
    else exceptionText n ++ ['<', '0', '>', '\n']) ++ panicText "A processor exception occured".toList

theorem oneLine_append {t u : List Char} (ht : OneLine t) (hu : OneLine u) : OneLine (t ++ u) := by
  intro c hc
  rcases List.mem_append.1 hc with hc | hc
  · exact ht c hc
  · exact hu c hc

theorem oneLine_zeroPadded (width n : Nat) : OneLine (zeroPadded width n) := by
  refine oneLine_append (fun c hc => ?_) fun c hc => ?_
  · rw [List.eq_of_mem_replicate hc]
    decide
  · obtain ⟨d, hd, rfl⟩ := mem_numeral (by decide) hc
    exact (by decide : ∀ d < 16, ¬EndsLine (digitSymbol false d)) d hd

/-- A word takes eight digits at most. -/
theorem zeroPadded_length_le {width : Nat} (hw : width ≤ 8) (x : BitVec 32) : (zeroPadded width x.toNat).length ≤ 8 := by
  have hcount : (numeral (digitSymbol false) 16 x.toNat).length ≤ 8 := by
    rw [numeral_length]
    exact max_le (by decide) ((Nat.digits_length_le_iff (by decide) _).2 x.isLt)
  rw [zeroPadded, List.length_append, List.length_replicate]
  omega

/-- The names are short, and one line each. -/
theorem exceptionName_plain {n : Nat} (hn : n < 32) : (exceptionName n).length ≤ 8 ∧ OneLine (exceptionName n) :=
  (by decide : ∀ n < 32, (exceptionName n).length ≤ 8 ∧ OneLine (exceptionName n)) n hn

theorem oneLine_exceptionText {n : Nat} (hn : n < 32) : OneLine (exceptionText n) :=
  oneLine_append (by decide : OneLine "exception: #".toList) (exceptionName_plain hn).2

theorem externalText_plain (errorCode : BitVec 32) : (externalText errorCode).length ≤ 10 ∧ OneLine (externalText errorCode) := by
  unfold externalText
  split
  · decide
  · decide

theorem tableText_plain (errorCode : BitVec 32) : (tableText errorCode).length ≤ 5 ∧ OneLine (tableText errorCode) := by
  unfold tableText
  split
  · decide
  · split
    · decide
    · decide

theorem oneLine_exceptionEcText {n : Nat} (hn : n < 32) (errorCode : BitVec 32) : OneLine (exceptionEcText n errorCode) := by
  have hname : OneLine "exception: #".toList := by decide
  have hcode : OneLine " error code ".toList := by decide
  have hcomma : OneLine ", ".toList := by decide
  have hsegment : OneLine "segment ".toList := by decide
  exact oneLine_append hname (oneLine_append (exceptionName_plain hn).2 (oneLine_append hcode (oneLine_append (oneLine_zeroPadded _ _)
    (oneLine_append hcomma (oneLine_append (externalText_plain errorCode).2 (oneLine_append (tableText_plain errorCode).2
      (oneLine_append hsegment (oneLine_zeroPadded _ _))))))))

/-! ## The messages -/

section
variable {x : ExceptionStrings} {n : Nat}

/-- A string of which the address is the next argument. -/
theorem formats_has {a : BitVec 32} {t : List Char} (h : x.Has a t) (ht : t.length < 2147483648) (ws : List (BitVec 32)) :
    Formats x.str ['%', 's'] (wordArgs (a :: ws)) (wordArgs ws) t := by
  obtain ⟨h0, rfl⟩ := h
  exact Formats.string _ (wordArgs (a :: ws)) h0 ht

theorem exceptionFormat_formats (hx : x.Placed) (hn : n < 32) :
    Formats x.str exceptionFormat (wordArgs [x.names n]) (wordArgs []) ('<' :: '0' :: '>' :: exceptionText n) := by
  have hsplit : exceptionFormat = "<0>exception: #".toList ++ ['%', 's'] := by decide
  have htext : '<' :: '0' :: '>' :: exceptionText n = "<0>exception: #".toList ++ exceptionName n := rfl
  have hshort := (exceptionName_plain hn).1
  rw [hsplit, htext]
  exact (Formats.plain _ _ (by decide)).append (formats_has (hx.names n hn) (Nat.lt_of_le_of_lt hshort (by decide)) [])

/-- The arguments, where the number of the exception is known. -/
theorem exceptionEcArgs_eq (hn : n < 32) (errorCode : BitVec 32) : exceptionEcArgs x (BitVec.ofNat 32 n) errorCode = wordArgs [
    x.names n, errorCode, if errorCode &&& 0x1 ≠ 0 then x.external else x.empty,
    if errorCode &&& 0x2 ≠ 0 then x.ldt else if errorCode &&& 0x4 ≠ 0 then x.ldt else x.gdt, errorCode.sshiftRight 3] := by
  rw [exceptionEcArgs, BitVec.toNat_ofNat, Nat.mod_eq_of_lt (Nat.lt_trans hn (by decide))]

theorem exceptionEcFormat_formats (hx : x.Placed) (hn : n < 32) (errorCode : BitVec 32) :
    Formats x.str exceptionEcFormat (exceptionEcArgs x (BitVec.ofNat 32 n) errorCode) (wordArgs [])
      (exceptionEcText n errorCode ++ ['\n']) := by
  have hexternal : x.Has (if errorCode &&& 0x1 ≠ 0 then x.external else x.empty) (externalText errorCode) := by
    unfold externalText
    split
    · exact hx.external
    · exact hx.empty
  have htable : x.Has (if errorCode &&& 0x2 ≠ 0 then x.ldt else if errorCode &&& 0x4 ≠ 0 then x.ldt else x.gdt)
      (tableText errorCode) := by
    unfold tableText
    split
    · exact hx.ldt
    · split
      · exact hx.ldt
      · exact hx.gdt
  have hshort : ∀ {t : List Char} {k : Nat}, t.length ≤ k → k < 2147483648 → t.length < 2147483648 := fun h h' => Nat.lt_of_le_of_lt h h'
  have hname := fun ws => formats_has (hx.names n hn) (hshort (exceptionName_plain hn).1 (by decide)) ws
  have hwhere := fun ws => formats_has hexternal (hshort (externalText_plain errorCode).1 (by decide)) ws
  have hselector := fun ws => formats_has htable (hshort (tableText_plain errorCode).1 (by decide)) ws
  have hcode : ∀ ws, Formats x.str ['%', '0', '8', 'l', 'x'] (wordArgs (errorCode :: ws)) (wordArgs ws)
      (zeroPadded 8 errorCode.toNat) := fun ws => Formats.hex _ (wordArgs (errorCode :: ws)) (d := '8') (by decide) (by decide)
  have hindex : ∀ ws, Formats x.str ['%', '0', '4', 'l', 'x'] (wordArgs (errorCode.sshiftRight 3 :: ws)) (wordArgs ws)
      (zeroPadded 4 (errorCode.sshiftRight 3).toNat) :=
    fun ws => Formats.hex _ (wordArgs (errorCode.sshiftRight 3 :: ws)) (d := '4') (by decide) (by decide)
  have hsplit : exceptionEcFormat = "exception: #".toList ++ (['%', 's'] ++ (" error code ".toList ++ (['%', '0', '8', 'l', 'x'] ++
      (", ".toList ++ (['%', 's'] ++ (['%', 's'] ++ ("segment ".toList ++ ['%', '0', '4', 'l', 'x']))))))) ++ ['\n'] := by decide
  rw [hsplit, exceptionEcArgs_eq hn]
  refine .append ?_ (Formats.plain _ _ (by decide))
  exact (Formats.plain _ _ (by decide)).append ((hname _).append ((Formats.plain _ _ (by decide)).append ((hcode _).append
    ((Formats.plain _ _ (by decide)).append ((hwhere _).append ((hselector _).append ((Formats.plain _ _ (by decide)).append
      (hindex []))))))))

end

/-! ## An exception -/

theorem exceptionText_length {n : Nat} (hn : n < 32) : (exceptionText n).length ≤ 20 := by
  have hname := (exceptionName_plain hn).1
  have hfixed : "exception: #".toList.length = 12 := by decide
  have hlen : (exceptionText n).length = "exception: #".toList.length + (exceptionName n).length := List.length_append
  omega

theorem exceptionEcText_length {n : Nat} (hn : n < 32) (errorCode : BitVec 32) : (exceptionEcText n errorCode).length ≤ 100 := by
  have hname := (exceptionName_plain hn).1
  have hwhere := (externalText_plain errorCode).1
  have htable := (tableText_plain errorCode).1
  have hcode := @zeroPadded_length_le 8 (by decide) errorCode
  have hindex := @zeroPadded_length_le 4 (by decide) (errorCode.sshiftRight 3)
  have hfixed : "exception: #".toList.length = 12 ∧ " error code ".toList.length = 12 ∧ ", ".toList.length = 2 ∧
      "segment ".toList.length = 8 := by decide
  have happend : ∀ a b c d e f g h : List Char, (a ++ (b ++ (c ++ (d ++ (e ++ (f ++ (g ++ h))))))).length =
      a.length + (b.length + (c.length + (d.length + (e.length + (f.length + (g.length + h.length)))))) := by simp
  have hlen := happend "exception: #".toList (exceptionName n) " error code ".toList (zeroPadded 8 errorCode.toNat) ", ".toList
    (externalText errorCode) (tableText errorCode) ("segment ".toList ++ zeroPadded 4 (errorCode.sshiftRight 3).toNat)
  have hlast : ("segment ".toList ++ zeroPadded 4 (errorCode.sshiftRight 3).toNat).length =
      "segment ".toList.length + (zeroPadded 4 (errorCode.sshiftRight 3).toNat).length := List.length_append
  have hall : (exceptionEcText n errorCode).length = _ := hlen
  omega

/-- The message without an error code. -/
def exceptionMessage (n : Nat) (hn : n < 32) : Message :=
  ⟨'<' :: '0' :: '>' :: exceptionText n, by
    have hlen := exceptionText_length hn
    simp only [List.length_cons]
    omega⟩

/-- The message with an error code. -/
def exceptionEcMessage (n : Nat) (hn : n < 32) (errorCode : BitVec 32) : Message :=
  ⟨exceptionEcText n errorCode ++ ['\n'], by
    have hlen := exceptionEcText_length hn errorCode
    rw [List.length_append, List.length_singleton]
    omega⟩

/-- The text of a panic of an exception. -/
theorem panic_exception {str : Nat → List Char} {s : Log} {buf : BitVec 32} (hbuf : buf ≠ 0) :
    panic str buf s "A processor exception occured".toList (wordArgs []) =
      some ((panicMessages "A processor exception occured".toList (by decide)).foldl printk s) :=
  panic_eq hbuf (Formats.plain _ _ (by decide)).vsprintf_eq (by decide)

theorem oneLine_exception : OneLine "A processor exception occured".toList := by decide

/-- What a console gets without an error code: the line stays open, and the panic ends it. -/
theorem visible_exception {segs : List Segment} (hopen : openLevel segs = -1) {n : Nat} (hn : n < 32) (loglevel : Nat) :
    visible loglevel ((panicMessages "A processor exception occured".toList (by decide)).foldl addMessage
      (addMessage segs (exceptionMessage n hn))) =
      visible loglevel segs ++ (exceptionText n ++ ['<', '0', '>', '\n'] ++ panicText "A processor exception occured".toList) := by
  have hline : IsLine ('<' :: '0' :: '>' :: exceptionText n) 0 := by
    refine Or.inl ⟨rfl, ?_⟩
    simp only [List.forall_mem_cons]
    exact ⟨by decide, by decide, by decide, oneLine_exceptionText hn⟩
  have hsplit := splitLines_line hline (fun _ : 0 = 0 => (rfl : ([] : List Char) = [])) (List.cons_ne_nil _ _)
  rw [List.append_nil] at hsplit
  have hadd : addMessage segs (exceptionMessage n hn) = segs ++ [⟨0, exceptionText n⟩] := by
    rw [addMessage, exceptionMessage, hsplit]
    rcases addLine_cases segs ('<' :: '0' :: '>' :: exceptionText n) with ⟨-, hadd⟩ | ⟨init, seg, -, hlevel, -⟩
    · rw [← beginSegment_emerg]
      exact hadd
    · omega
  have hended : ¬Ended (exceptionText n) := by
    rintro ⟨c, hmem, hc⟩
    exact oneLine_exceptionText hn c (List.mem_of_getLast? hmem) hc
  have hlevel : openLevel (segs ++ [⟨0, exceptionText n⟩]) = 0 := by
    rw [openLevel, List.getLast?_concat]
    exact if_neg hended
  rw [visible_panic _ oneLine_exception, hadd, visible_append, visible_singleton, if_pos (Nat.zero_le loglevel), panicOpening, hlevel,
    if_neg (by decide), if_pos (Int.natCast_nonneg loglevel), List.append_assoc, List.append_assoc, List.append_assoc]

/-- What a console gets with an error code. -/
theorem visible_exceptionEc {segs : List Segment} (hopen : openLevel segs = -1) {n : Nat} (hn : n < 32) (errorCode : BitVec 32)
    (loglevel : Nat) :
    visible loglevel ((panicMessages "A processor exception occured".toList (by decide)).foldl addMessage
      (addMessage segs (exceptionEcMessage n hn errorCode))) =
      visible loglevel segs ++ ((if 4 ≤ loglevel then exceptionEcText n errorCode ++ ['\n'] else []) ++ ['\n'] ++
        panicText "A processor exception occured".toList) := by
  have hbegin : beginSegment (exceptionEcText n errorCode ++ ['\n']) = ⟨4, exceptionEcText n errorCode ++ ['\n']⟩ := by
    have hstart : ¬StartsTag (exceptionEcText n errorCode ++ ['\n']) := fun h => absurd h.1 (by decide : 'e' ≠ '<')
    rw [beginSegment, if_neg hstart]
  have hadd : addMessage segs (exceptionEcMessage n hn errorCode) = segs ++ [⟨4, exceptionEcText n errorCode ++ ['\n']⟩] := by
    rw [addMessage_concat segs (oneLine_exceptionEcText hn errorCode) rfl]
    rcases addLine_cases segs (exceptionEcText n errorCode ++ ['\n']) with ⟨-, hadd⟩ | ⟨init, seg, -, hlevel, -⟩
    · rw [hadd, hbegin]
    · omega
  have hlevel : openLevel (segs ++ [⟨4, exceptionEcText n errorCode ++ ['\n']⟩]) = -1 := openLevel_concat (ended_concat _)
  rw [visible_panic _ oneLine_exception, hadd, visible_append, visible_singleton, panicOpening, if_pos hlevel, List.append_assoc,
    List.append_assoc, List.append_assoc]

/-- What the function of a vector prints, once the processor has raised it. -/
theorem doException_eq {e : Entries} {idt n : Nat} (hn : n < 32) {m : Machine} (errorCode : UInt32)
    (hidt : ∀ n, n < 256 → gateAt m.mem (idt + 8 * n) = intrGate (e.vector n)) (hroom : 24 ≤ m.esp.toNat) {x : ExceptionStrings}
    (hx : x.Placed) (s : Log) : doException x s n (m.raise idt n errorCode) =
      some ((panicMessages "A processor exception occured".toList (by decide)).foldl printk
        (printk s (if n ∈ exceptionEc then exceptionEcMessage n hn errorCode.toBitVec else exceptionMessage n hn))) := by
  obtain ⟨S, hS⟩ : ∃ S, m.esp.toNat = S + 24 := ⟨m.esp.toNat - 24, by omega⟩
  have hgate := hidt n (Nat.lt_trans hn (by decide))
  have hnumber : (UInt32.ofNat n).toBitVec = BitVec.ofNat 32 n := rfl
  have hnat : (BitVec.ofNat 32 n).toNat = n := by
    rw [BitVec.toNat_ofNat]
    exact Nat.mod_eq_of_lt (Nat.lt_trans hn (by decide))
  have hraised := raise_stack hgate hS errorCode
  unfold doException
  dsimp only
  by_cases hec : n ∈ exceptionEc
  · rw [if_pos ((pushesErrorCode_iff hn).2 hec)] at hraised
    obtain ⟨ws, hstack⟩ := hraised
    have hstub := exceptionStub_stack hstack (UInt32.ofNat n)
    have hfirst := arg_eq hstub (i := 0) (j := 1) rfl (by simp)
    have hsecond := arg_eq hstub (i := 1) (j := 2) rfl (by simp)
    rw [if_pos hec, if_pos hec, hfirst, hsecond]
    dsimp only [List.get]
    rw [hnumber, commonExceptionEc, printkFormat_eq (m := exceptionEcMessage n hn errorCode.toBitVec)
      (exceptionEcFormat_formats hx hn errorCode.toBitVec), Option.bind_some]
    exact panic_exception hx.panicBuf
  · rw [if_neg (mt (pushesErrorCode_iff hn).1 hec)] at hraised
    obtain ⟨ws, hstack⟩ := hraised
    have hstub := exceptionStub_stack (S := S + 4) hstack (UInt32.ofNat n)
    have hfirst := arg_eq hstub (i := 0) (j := 1) rfl (by simp)
    rw [if_neg hec, if_neg hec, hfirst]
    dsimp only [List.get]
    rw [hnumber, commonException, hnat, printkFormat_eq (m := exceptionMessage n hn) (exceptionFormat_formats hx hn), Option.bind_some]
    exact panic_exception hx.panicBuf

/-- An exception of any vector, on any stack, where a line begins: the processor goes on at the function of the vector; each console gets
the line of the panic, and before it the name of the exception, with its error code, if it has one, on consoles of level 4 and up only. -/
theorem exception_shown {e : Entries} {idt n : Nat} (hn : n < 32) {m : Machine} (errorCode : UInt32)
    (hidt : ∀ n, n < 256 → gateAt m.mem (idt + 8 * n) = intrGate (e.vector n)) (hroom : 24 ≤ m.esp.toNat) {x : ExceptionStrings}
    (hx : x.Placed) (cons : List Console) (ms : List Message) (hopen : openLevel (segments ms) = -1) :
    (m.raise idt n errorCode).eip = e.exceptionFuncs n ∧
      ∃ s', doException x (ms.foldl printk (cons.foldl registerConsole Log.boot)) n (m.raise idt n errorCode) = some s' ∧
        s'.consoles = (ms.foldl printk (cons.foldl registerConsole Log.boot)).consoles.map
          (fun c => { c with out := c.out ++ exceptionShown n errorCode.toBitVec c.loglevel }) := by
  have hgate := hidt n (Nat.lt_trans hn (by decide))
  have htr := (transcribed_boot cons).foldl ms
  refine ⟨?_, _, doException_eq hn errorCode hidt hroom hx _, ?_⟩
  · rw [Entries.vector, if_pos hn] at hgate
    rw [raise, deliver_eq hgate]
    split
    · rfl
    · rfl
  · have hafter := (htr.printk (if n ∈ exceptionEc then exceptionEcMessage n hn errorCode.toBitVec else exceptionMessage n hn)).foldl
      (panicMessages "A processor exception occured".toList (by decide))
    rw [hafter.consoles, htr.consoles, List.map_map]
    refine List.map_congr_left fun c _ => ?_
    dsimp only [Function.comp_apply]
    have hsegments : ms.foldl addMessage [] = segments ms := rfl
    rw [hsegments, List.append_assoc, exceptionShown]
    by_cases hec : n ∈ exceptionEc
    · rw [if_pos hec, if_pos hec, visible_exceptionEc hopen hn]
    · rw [if_neg hec, if_neg hec, visible_exception hopen hn]

/-- Strings at addresses of their own. -/
def someStrings : ExceptionStrings where
  str a :=
    if a < 32 + 1 then exceptionName (a - 1)
    else if a = 33 then "external, ".toList
    else if a = 34 then []
    else if a = 35 then "LDT, ".toList
    else "GDT, ".toList
  names n := BitVec.ofNat 32 (n + 1)
  external := 33
  empty := 34
  ldt := 35
  gdt := 36
  panicBuf := 37

theorem someStrings_placed : someStrings.Placed := by
  refine ⟨fun n hn => ?_, ⟨by decide, rfl⟩, ⟨by decide, rfl⟩, ⟨by decide, rfl⟩, ⟨by decide, rfl⟩, by decide⟩
  have hnat : (BitVec.ofNat 32 (n + 1)).toNat = n + 1 := by
    rw [BitVec.toNat_ofNat]
    exact Nat.mod_eq_of_lt (by omega)
  refine ⟨fun h => ?_, ?_⟩
  · have h0 : (BitVec.ofNat 32 (n + 1)).toNat = (0 : BitVec 32).toNat := congrArg BitVec.toNat h
    rw [hnat] at h0
    exact absurd h0 (Nat.succ_ne_zero n)
  · have hname : someStrings.str (n + 1) = exceptionName n := if_pos (by omega)
    dsimp only [someStrings]
    rw [hnat]
    exact hname

/-- A task runs, with the table of boot at `0x400000`. -/
def vectoredMachine : Machine := taskOn (setupVectors someEntries ⟨fun _ => 0, fun _ => false⟩ 0x400000)

theorem vectoredMachine_gates {n : Nat} (hn : n < 256) :
    gateAt vectoredMachine.mem (0x400000 + 8 * n) = intrGate (someEntries.vector n) := by
  rw [← gateAt_setupVectors someEntries ⟨fun _ => 0, fun _ => false⟩ 0x400000 hn]
  exact gateAt_congr fun x h1 h2 => Mem.byte_store_of_outside (by omega)

/-- A page fault right after boot, on a console that shows everything. -/
theorem exception_shown_fault : (vectoredMachine.raise 0x400000 14 2).eip = someEntries.exceptionFuncs 14 ∧
    ∃ s', doException someStrings ([⟨7, []⟩].foldl registerConsole Log.boot) 14 (vectoredMachine.raise 0x400000 14 2) = some s' ∧
      s'.consoles = ([⟨7, []⟩].foldl registerConsole Log.boot).consoles.map
        (fun c => { c with out := c.out ++ exceptionShown 14 (2 : UInt32).toBitVec c.loglevel }) :=
  exception_shown (n := 14) (by decide) 2 (fun _ => vectoredMachine_gates) (by decide) someStrings_placed [⟨7, []⟩] [] rfl

end BootPerl
