import BootPerl.Theorems.LateConsole
import BootPerl.Theorems.PrintkStream
import BootPerl.Theorems.SharedScreen

/-!
# The log on the screen

`console_init` registers the console late: it gets the log first, and then what is printed, in pieces. With the status line written
in between, the screen shows the messages as the reference terminal does.
-/

namespace BootPerl

open Mem

/-! ## The consoles are only written to -/

/-- The log with other consoles. -/
def Log.withConsoles (s : Log) (cs : List Console) : Log := { s with consoles := cs }

section
variable (s : Log) (cs : List Console)

theorem logChar_withConsoles (c : Char) : logChar (s.withConsoles cs) c = (logChar s c).withConsoles cs := by
  unfold logChar Log.withConsoles
  dsimp only
  split
  · rfl
  · rfl

theorem logLine_withConsoles (n : Nat) : ∀ (s : Log) (p : Nat),
    logLine n (s.withConsoles cs) p = ((logLine n s p).1.withConsoles cs, (logLine n s p).2) := by
  induction n with
  | zero => exact fun _ _ => rfl
  | succ n ih =>
    intro s p
    have hbuf : (logChar (s.withConsoles cs) ((s.withConsoles cs).buf p)) = (logChar s (s.buf p)).withConsoles cs :=
      logChar_withConsoles s cs (s.buf p)
    rw [logLine, logLine, hbuf]
    have hsame : ((logChar s (s.buf p)).withConsoles cs).buf = (logChar s (s.buf p)).buf := rfl
    rw [hsame]
    split
    · rfl
    · exact ih _ _

theorem openLine_withConsoles (p : Nat) :
    openLine (s.withConsoles cs) p = ((openLine s p).1.withConsoles cs, (openLine s p).2) := by
  unfold openLine Log.withConsoles
  dsimp only
  split
  · split
    · rfl
    · rfl
  · rfl

theorem printLine_withConsoles (e p : Nat) :
    ∃ cs', printLine e (s.withConsoles cs) p = ((printLine e s p).1.withConsoles cs', (printLine e s p).2) := by
  unfold printLine
  rw [openLine_withConsoles]
  dsimp only
  rw [logLine_withConsoles]
  dsimp only
  split
  · exact ⟨_, rfl⟩
  · exact ⟨_, rfl⟩

theorem printLines_withConsoles (e turns : Nat) : ∀ (s : Log) (cs : List Console) (p : Nat),
    ∃ cs', printLines e turns (s.withConsoles cs) p = (printLines e turns s p).withConsoles cs' := by
  induction turns with
  | zero => exact fun _ cs _ => ⟨cs, rfl⟩
  | succ turns ih =>
    intro s cs p
    rw [printLines, printLines]
    split
    · obtain ⟨cs', hcs'⟩ := printLine_withConsoles s cs e p
      rw [hcs']
      exact ih _ _ _
    · exact ⟨cs, rfl⟩

/-- What `printk` does but for the consoles does not depend on them. -/
theorem foldl_printk_withConsoles (ms : List Message) : ∀ (s : Log) (cs : List Console),
    ∃ cs', ms.foldl printk (s.withConsoles cs) = (ms.foldl printk s).withConsoles cs' := by
  induction ms with
  | nil => exact fun _ cs => ⟨cs, rfl⟩
  | cons m ms ih =>
    intro s cs
    obtain ⟨cs', hcs'⟩ := printLines_withConsoles (3 + m.text.length) m.text.length
      { s with buf := putText s.buf 3 (m.text ++ [Char.ofNat 0]) } cs 3
    obtain ⟨cs'', hcs''⟩ := ih (printk s m) cs'
    refine ⟨cs'', ?_⟩
    rw [List.foldl_cons, List.foldl_cons, ← hcs'']
    congr 1

end

/-! ## The late console -/

/-- A console that is registered after messages without carriage returns gets what it shows of their segments. -/
theorem registerConsole_late (cons : List Console) (pre : List Message) (hr : '\r' ∉ pre.flatMap Message.text) (loglevel : Nat)
    (hroom : (pre.foldl printk (cons.foldl registerConsole Log.boot)).loggedChars ≤ logBufSize) :
    registerConsole (pre.foldl printk (cons.foldl registerConsole Log.boot)) ⟨loglevel, []⟩ =
      (pre.foldl printk (cons.foldl registerConsole Log.boot)).withConsoles
        (⟨loglevel, visible loglevel (segments pre)⟩ :: (pre.foldl printk (cons.foldl registerConsole Log.boot)).consoles) := by
  obtain ⟨s, hs⟩ : ∃ s, s = pre.foldl printk (cons.foldl registerConsole Log.boot) := ⟨_, rfl⟩
  rw [← hs] at hroom ⊢
  -- the same messages with one console only, of this level, registered at boot
  obtain ⟨cs', hcs'⟩ := foldl_printk_withConsoles pre (cons.foldl registerConsole Log.boot) [⟨loglevel, []⟩]
  rw [← hs] at hcs'
  have hstart : (cons.foldl registerConsole Log.boot).withConsoles [⟨loglevel, []⟩] = [⟨loglevel, []⟩].foldl registerConsole Log.boot := by
    have hcons := registerConsole_foldl cons []
    have hnone : cons.foldl registerConsole Log.boot = { Log.boot with consoles := cons.reverse ++ [] } := hcons
    rw [hnone]
    rfl
  rw [hstart] at hcs'
  have htr := (transcribed_boot [⟨loglevel, []⟩]).foldl pre
  obtain ⟨items, hcarry, hprinted⟩ := printk_foldl_spec pre ([⟨loglevel, []⟩].foldl registerConsole Log.boot)
  have hshown : shown loglevel (-1) items = visible loglevel (segments pre) := by
    have hboth := hprinted.consoles.symm.trans htr.consoles
    have hone : ([⟨loglevel, []⟩].foldl registerConsole Log.boot).consoles = [⟨loglevel, []⟩] := rfl
    rw [hone] at hboth
    simp only [List.map_cons, List.map_nil, List.reverse_singleton, List.nil_append, List.cons.injEq, Console.mk.injEq, and_true,
      true_and] at hboth
    exact hboth
  have hlogged : Logged s (logText items) := by
    have hlog := hprinted.logged [] ⟨logged_boot.count, logged_boot.text⟩
    rw [List.nil_append, hcs'] at hlog
    exact ⟨hlog.count, hlog.text⟩
  have hlines : Lines (-1) items _ := hprinted.lines
  have hreplay := replayed_eq_shown loglevel hlines fun hm => hr (hcarry.mem.2 (List.dropLast_subset _ hm))
  rw [registerConsole_spec hlogged (hlogged.count ▸ hroom), hreplay, hshown]
  rfl

/-! ## The characters of the segments -/

/-- All characters of the segments are such. -/
def AllChars (P : Char → Prop) (segs : List Segment) : Prop := ∀ seg ∈ segs, ∀ c ∈ seg.text, P c

section
variable {P : Char → Prop}

theorem mem_splitLines {t line : List Char} (h : line ∈ splitLines t) : ∀ c ∈ line, c ∈ t := by
  induction t generalizing line with
  | nil => exact absurd h List.not_mem_nil
  | cons d t ih =>
    intro c hc
    rw [splitLines] at h
    split at h
    · rcases List.mem_cons.1 h with rfl | h
      · exact List.mem_cons.2 (Or.inl (List.mem_singleton.1 hc))
      · exact List.mem_cons_of_mem _ (ih h c hc)
    · split at h
      · rw [List.mem_singleton.1 h] at hc
        exact List.mem_cons.2 (Or.inl (List.mem_singleton.1 hc))
      · rename_i hlines
        rcases List.mem_cons.1 h with rfl | h
        · rcases List.mem_cons.1 hc with rfl | hc
          · exact List.mem_cons_self
          · exact List.mem_cons_of_mem _ (ih (hlines ▸ List.mem_cons_self) c hc)
        · exact List.mem_cons_of_mem _ (ih (hlines ▸ List.mem_cons_of_mem _ h) c hc)

theorem AllChars.addLine {segs : List Segment} {line : List Char} (h : AllChars P segs) (hline : ∀ c ∈ line, P c) :
    AllChars P (BootPerl.addLine segs line) := by
  intro seg hseg c hc
  rcases addLine_cases segs line with ⟨-, hadd⟩ | ⟨init, last, rfl, -, hadd⟩
  · rw [hadd, List.mem_append, List.mem_singleton] at hseg
    rcases hseg with hseg | rfl
    · exact h seg hseg c hc
    · rw [beginSegment] at hc
      split at hc
      · exact hline c (List.mem_of_mem_drop hc)
      · exact hline c hc
  · rw [hadd, List.mem_append, List.mem_singleton] at hseg
    rcases hseg with hseg | rfl
    · exact h seg (List.mem_append_left _ hseg) c hc
    · rcases List.mem_append.1 hc with hc | hc
      · exact h last (List.mem_append_right _ (List.mem_singleton_self _)) c hc
      · exact hline c hc

theorem allChars_segments {ms : List Message} (h : ∀ m ∈ ms, ∀ c ∈ m.text, P c) : AllChars P (segments ms) := by
  suffices hall : ∀ segs, AllChars P segs → AllChars P (ms.foldl addMessage segs) from hall [] fun _ hseg => absurd hseg List.not_mem_nil
  induction ms with
  | nil => exact fun _ hsegs => hsegs
  | cons m ms ih =>
    intro segs hsegs
    rw [List.forall_mem_cons] at h
    refine ih h.2 _ ?_
    have hlines : ∀ line ∈ splitLines m.text, ∀ c ∈ line, P c := fun line hline c hc => h.1 c (mem_splitLines hline c hc)
    rw [addMessage]
    generalize splitLines m.text = lines at hlines
    induction lines generalizing segs with
    | nil => exact hsegs
    | cons line lines ih' =>
      rw [List.forall_mem_cons] at hlines
      exact ih' _ (hsegs.addLine hlines.1) hlines.2

end

/-! ## Text in pieces on the screen -/

/-- Between two calls too, the screen and the cursor follow the terminal. -/
theorem Mirrors.pieces {p : VidParams} {pieces : List (List UInt8)} (hr : ∀ text ∈ pieces, (13 : UInt8) ∉ text) :
    ∀ {v : Video} {t : Term}, v.params.cols = p.cols → v.params.lines = p.lines →
    Mirrors p ⟨v.mem, v.params.origX.toNat, v.params.origY.toNat⟩ t →
    (pieces.foldl conWrite v).params.cols = p.cols ∧ (pieces.foldl conWrite v).params.lines = p.lines ∧
      Mirrors p ⟨(pieces.foldl conWrite v).mem, (pieces.foldl conWrite v).params.origX.toNat,
        (pieces.foldl conWrite v).params.origY.toNat⟩ (pieces.flatten.foldl (Term.byte p.cols.toNat p.lines.toNat) t) := by
  induction pieces with
  | nil => exact fun hcols hlines h => ⟨hcols, hlines, h⟩
  | cons text pieces ih =>
    intro v t hcols hlines h
    obtain ⟨m, ⟨x, y, cols, lines⟩, ports⟩ := v
    obtain rfl : cols = p.cols := hcols
    obtain rfl : lines = p.lines := hlines
    rw [List.forall_mem_cons] at hr
    have hcolsLt := p.cols.toNat_lt
    have hlinesLt := p.lines.toNat_lt
    have hwrite : writeChar ⟨x, y, p.cols, p.lines⟩ = writeChar p := rfl
    have hafter := h.text hr.1
    have hcol := hafter.cursor.col
    have hrow := hafter.cursor.row
    rw [List.foldl_cons, List.flatten_cons, List.foldl_append]
    refine ih hr.2 rfl rfl ⟨⟨?_, ?_, hcol, hrow⟩, ?_⟩
    · simp only [conWrite, hwrite]
      rw [hafter.cursor.x_eq, toNat_uchar (by omega)]
    · simp only [conWrite, hwrite]
      rw [hafter.cursor.y_eq, toNat_uchar (by omega)]
    · simp only [conWrite, hwrite]
      exact hafter.cells

/-- Cells that are the same show the same. -/
theorem SameScreen.showsTerm {v w : Video} (h : SameScreen v w) {t : Term} : ShowsTerm v t ↔ ShowsTerm w t := by
  obtain ⟨m, p, ports⟩ := v
  obtain ⟨m', p', ports'⟩ := w
  obtain ⟨rfl, -, hcells⟩ := h
  constructor
  · rintro ⟨hshows, hx, hy⟩
    exact ⟨fun r c hr hc => hcells r c hr hc ▸ hshows r c hr hc, hx, hy⟩
  · rintro ⟨hshows, hx, hy⟩
    exact ⟨fun r c hr hc => (hcells r c hr hc).symm ▸ hshows r c hr hc, hx, hy⟩

/-- A text that is written in pieces, with the status line in between, is on the screen as on the terminal exactly if that is
clean. -/
theorem pieces_show_iff {grub : Bool} {v : Video} (h : ScreenFound grub v.params) {calls : List (List UInt8 ⊕ StatusCall)}
    (hcalls : ∀ c ∈ calls, Sum.elim (fun text => (13 : UInt8) ∉ text) StatusCall.Fits c) :
    ShowsTerm (calls.foldl (eitherStep conWrite showStatus) (consoleInit grub v))
        (Term.run (consoleInit grub v) (calls.filterMap Sum.getLeft?).flatten) ↔
      Clean (consoleInit grub v).params (Term.run (consoleInit grub v) (calls.filterMap Sum.getLeft?).flatten) := by
  have habove := aboveStatus_consoleInit h
  obtain ⟨w, hw⟩ : ∃ w, w = consoleInit grub v := ⟨_, rfl⟩
  rw [← hw] at habove ⊢
  have hinv : ScreenInv w.mem w := ⟨habove, Mem.Frame.refl _ _⟩
  obtain ⟨hsame, -⟩ := (screenParties w.mem).apart hinv hinv hinv hcalls ⟨rfl, rfl, fun _ _ _ _ => rfl⟩ fun _ _ => rfl
  have hr : ∀ text ∈ calls.filterMap Sum.getLeft?, (13 : UInt8) ∉ text := by
    intro text htext
    obtain ⟨c, hc, hleft⟩ := List.mem_filterMap.1 htext
    rw [Sum.getLeft?_eq_some_iff.1 hleft] at hc
    exact hcalls _ hc
  have hstart : Mirrors w.params ⟨w.mem, w.params.origX.toNat, w.params.origY.toNat⟩ (Term.start w) :=
    ⟨⟨rfl, rfl, habove.col, habove.row⟩, fun _ _ _ _ => rfl⟩
  obtain ⟨hcols, hlines, hmirrors⟩ := Mirrors.pieces hr rfl rfl hstart
  rw [hsame.showsTerm, Term.run]
  obtain ⟨w', hw'⟩ : ∃ w', w' = (calls.filterMap Sum.getLeft?).foldl conWrite w := ⟨_, rfl⟩
  rw [← hw'] at hcols hlines hmirrors ⊢
  constructor
  · intro hshows r c hr hc
    have hcell := hshows.cells r c (by rwa [hlines]) (by rwa [hcols])
    rw [hcols] at hcell
    exact (hmirrors.cells r c hr hc).shows_iff.1 hcell
  · intro hclean
    refine ⟨fun r c hr hc => ?_, Int.ofNat_inj.1 hmirrors.cursor.x_eq, Int.ofNat_inj.1 hmirrors.cursor.y_eq⟩
    rw [hlines] at hr
    rw [hcols] at hc ⊢
    exact (hmirrors.cells r c hr hc).shows_iff.2 (hclean r c hr hc)

/-- The log of the messages before `console_init`, with the consoles registered at boot, and of those after it. -/
def logThrough (cons : List Console) (pre post : List Message) : Log :=
  post.foldl printk (registerConsole (pre.foldl printk (cons.foldl registerConsole Log.boot)) ⟨screenLoglevel, []⟩)

/-- The console has got the segments of its levels. -/
theorem logThrough_console (cons : List Console) {pre : List Message} (post : List Message) (hr : '\r' ∉ pre.flatMap Message.text)
    (hroom : (pre.foldl printk (cons.foldl registerConsole Log.boot)).loggedChars ≤ logBufSize) :
    (logThrough cons pre post).consoles.head? = some ⟨screenLoglevel, visible screenLoglevel (segments (pre ++ post))⟩ := by
  have hpre := (transcribed_boot cons).foldl pre
  have hlate : Transcribed (⟨screenLoglevel, []⟩ :: cons.reverse)
      (registerConsole (pre.foldl printk (cons.foldl registerConsole Log.boot)) ⟨screenLoglevel, []⟩) (segments pre) := by
    rw [registerConsole_late cons pre hr screenLoglevel hroom]
    refine ⟨hpre.level, ?_, hpre.kept⟩
    have hcons : ∀ s : Log, ∀ cs, (s.withConsoles cs).consoles = cs := fun _ _ => rfl
    rw [hcons, hpre.consoles, List.map_cons, List.nil_append]
    rfl
  have hall : segments (pre ++ post) = post.foldl addMessage (segments pre) := List.foldl_append
  rw [logThrough, (hlate.foldl post).consoles, hall, List.map_cons, List.head?_cons, List.nil_append]

/-- The console registered by `console_init` gets the text of all messages that its level shows, those before it included; in
whatever pieces it is written, and wherever the status line is written in between, the screen shows it as the terminal does exactly
if that is clean. -/
theorem screen_shows_log {grub : Bool} {v : Video} (h : ScreenFound grub v.params) (cons : List Console) (pre post : List Message)
    (hroom : (pre.foldl printk (cons.foldl registerConsole Log.boot)).loggedChars ≤ logBufSize)
    (hr : ∀ m ∈ pre ++ post, (13 : UInt8) ∉ charBytes m.text) :
    (logThrough cons pre post).consoles.head? = some ⟨screenLoglevel, visible screenLoglevel (segments (pre ++ post))⟩ ∧
      ∀ calls : List (List UInt8 ⊕ StatusCall),
        (calls.filterMap Sum.getLeft?).flatten = charBytes (visible screenLoglevel (segments (pre ++ post))) →
        (∀ c, Sum.inr c ∈ calls → c.Fits) →
        (ShowsTerm (calls.foldl (eitherStep conWrite showStatus) (consoleInit grub v))
            (Term.run (consoleInit grub v) (charBytes (visible screenLoglevel (segments (pre ++ post))))) ↔
          Clean (consoleInit grub v).params
            (Term.run (consoleInit grub v) (charBytes (visible screenLoglevel (segments (pre ++ post)))))) := by
  have hbytes : ∀ m ∈ pre ++ post, ∀ c ∈ m.text, UInt8.ofNat c.toNat ≠ 13 := fun m hm c hc he =>
    hr m hm (he ▸ List.mem_map_of_mem (f := fun c : Char => UInt8.ofNat c.toNat) hc)
  refine ⟨logThrough_console cons post (fun hm => ?_) hroom, fun calls hwrites hfits => ?_⟩
  · obtain ⟨m, hm, hc⟩ := List.mem_flatMap.1 hm
    exact hbytes m (List.mem_append_left _ hm) '\r' hc rfl
  · rw [← hwrites]
    refine pieces_show_iff h fun c hc => ?_
    cases c with
    | inr c => exact hfits c hc
    | inl text =>
      intro h13
      have hin : (13 : UInt8) ∈ charBytes (visible screenLoglevel (segments (pre ++ post))) := by
        rw [← hwrites]
        exact List.mem_flatten.2 ⟨text, List.mem_filterMap.2 ⟨_, hc, rfl⟩, h13⟩
      obtain ⟨d, hd, hd13⟩ := List.mem_map.1 hin
      obtain ⟨seg, hseg, hd⟩ := List.mem_flatMap.1 hd
      exact allChars_segments hbytes seg (List.mem_filter.1 hseg).1 d hd hd13

/-- Two columns and eight rows, the cursor at the start of the second. -/
def tallVideo : Video := { smallVideo with params := ⟨0, 1, 2, 8⟩ }

/-- Two lines, with the status line in between: the screen does not scroll. -/
theorem screen_shows_log_line :
    ShowsTerm (conWrite (showStatus (conWrite (consoleInit false tallVideo) [97, 10]) perlStatus) [97, 10])
      (Term.run (consoleInit false tallVideo) [97, 10, 97, 10]) := by
  have hsegments : segments ([lineMessage] ++ [lineMessage]) = [⟨4, ['a', '\n']⟩, ⟨4, ['a', '\n']⟩] := by
    have hfirst : segments [lineMessage] = [⟨4, ['a', '\n']⟩] := rfl
    have hline : splitLines lineMessage.text = [['a', '\n']] := rfl
    have hended : Ended ['a', '\n'] := ⟨'\n', rfl, Or.inl rfl⟩
    have hadd : addLine [⟨4, ['a', '\n']⟩] ['a', '\n'] = [⟨4, ['a', '\n']⟩, ⟨4, ['a', '\n']⟩] := by
      simp only [addLine, List.getLast?_singleton, if_pos hended]
      rfl
    rw [segments] at hfirst
    rw [segments, List.foldl_append, hfirst, List.foldl_cons, List.foldl_nil, addMessage, hline, List.foldl_cons,
      List.foldl_nil, hadd]
  have hvisible : charBytes (visible screenLoglevel (segments ([lineMessage] ++ [lineMessage]))) = [97, 10, 97, 10] := by
    rw [hsegments]
    rfl
  have hfound : ScreenFound false tallVideo.params := Or.inr (by decide)
  have hclean : Clean (consoleInit false tallVideo).params (Term.run (consoleInit false tallVideo) [97, 10, 97, 10]) :=
    clean_iff.2 (by decide)
  have hshows := (screen_shows_log hfound [] [lineMessage] [lineMessage] (by decide) (by decide)).2
    [Sum.inl [97, 10], Sum.inr perlStatus, Sum.inl [97, 10]]
  rw [hvisible] at hshows
  refine (hshows rfl fun c hc => ?_).2 hclean
  simp only [List.mem_cons, reduceCtorEq, Sum.inr.injEq, List.not_mem_nil, or_false, false_or] at hc
  exact hc ▸ perlStatus_fits

end BootPerl
