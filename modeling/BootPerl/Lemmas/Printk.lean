import Mathlib.Data.List.Basic
import BootPerl.Printk

/-!
# What `printk` logs and shows

The log is a sequence of level tags and characters in which every line, ended by a newline or a carriage return, starts with its
tag. `printk` extends it by what the message says and shows each console the characters of the lines of its levels;
`register_console` reads the text of the log again.
-/

namespace BootPerl

/-! ### Text in a buffer -/

theorem putText_of_outside (t : List Char) :
    ∀ (buf : Nat → Char) (p x : Nat), x < p ∨ p + t.length ≤ x → putText buf p t x = buf x := by
  induction t with
  | nil => intro buf p x _; rfl
  | cons c t ih =>
    intro buf p x h
    rw [List.length_cons] at h
    rw [putText, ih _ _ _ (by omega), Function.update_of_ne (by omega)]

/-- The characters at `p` are those stored there. -/
theorem getText_congr {buf buf' : Nat → Char} (n : Nat) :
    ∀ p, (∀ x, p ≤ x → x < p + n → buf' x = buf x) → getText buf' p n = getText buf p n := by
  induction n with
  | zero => intro p _; rfl
  | succ n ih =>
    intro p h
    rw [getText, getText, h p (by omega) (by omega), ih (p + 1) fun x h1 h2 => h x (by omega) (by omega)]

theorem getText_putText (t : List Char) : ∀ (buf : Nat → Char) (p : Nat), getText (putText buf p t) p t.length = t := by
  induction t with
  | nil => intro buf p; rfl
  | cons c t ih =>
    intro buf p
    rw [putText, List.length_cons, getText, ih, putText_of_outside t _ _ _ (by omega), Function.update_self]

theorem getText_add (buf : Nat → Char) (m n : Nat) : ∀ p, getText buf p (m + n) = getText buf p m ++ getText buf (p + m) n := by
  induction m with
  | zero => intro p; rw [Nat.zero_add]; rfl
  | succ m ih =>
    intro p
    rw [Nat.add_right_comm, getText, getText, ih, List.cons_append, Nat.add_right_comm p 1 m, Nat.add_assoc p m 1]

/-- The text `t` and a final zero lie at `p`. -/
def Holds (buf : Nat → Char) (p : Nat) (t : List Char) : Prop := getText buf p (t.length + 1) = t ++ [Char.ofNat 0]

theorem Holds.congr {buf buf' : Nat → Char} {p : Nat} {t : List Char} (h : Holds buf p t) (hb : ∀ x, p ≤ x → buf' x = buf x) :
    Holds buf' p t := by
  unfold Holds
  rw [getText_congr _ _ fun x hx _ => hb x hx]
  exact h

theorem holds_nil {buf : Nat → Char} {p : Nat} : Holds buf p [] ↔ buf p = Char.ofNat 0 := by
  simp [Holds, getText]

theorem holds_cons {buf : Nat → Char} {p : Nat} {c : Char} {t : List Char} :
    Holds buf p (c :: t) ↔ buf p = c ∧ Holds buf (p + 1) t := by
  unfold Holds
  rw [List.length_cons, getText, List.cons_append, List.cons.injEq]

theorem holds_append {buf : Nat → Char} {t u : List Char} :
    ∀ {p : Nat}, Holds buf p (t ++ u) ↔ getText buf p t.length = t ∧ Holds buf (p + t.length) u := by
  induction t with
  | nil => intro p; simp [getText]
  | cons c t ih =>
    intro p
    rw [List.cons_append, holds_cons, ih, List.length_cons, getText, List.cons.injEq, and_assoc, Nat.add_right_comm, Nat.add_assoc]

theorem holds_putText (buf : Nat → Char) (p : Nat) (t : List Char) : Holds (putText buf p (t ++ [Char.ofNat 0])) p t := by
  have h := getText_putText (t ++ [Char.ofNat 0]) buf p
  rwa [List.length_append, List.length_singleton] at h

/-! ### The log as a sequence of tags and characters -/

inductive LogItem where
  | tag (c : Char)
  | chr (c : Char)
  deriving DecidableEq, Repr

def LogItem.text : LogItem → List Char
  | .tag c => ['<', c, '>']
  | .chr c => [c]

/-- The text of the log. -/
def logText (items : List LogItem) : List Char := items.flatMap LogItem.text

@[simp] theorem logText_nil : logText [] = [] := rfl

@[simp] theorem logText_cons (i : LogItem) (items : List LogItem) : logText (i :: items) = i.text ++ logText items :=
  List.flatMap_cons

@[simp] theorem logText_append (x y : List LogItem) : logText (x ++ y) = logText x ++ logText y := List.flatMap_append

theorem logText_map_chr (t : List Char) : logText (t.map LogItem.chr) = t := by
  induction t with
  | nil => rfl
  | cons c t ih => rw [List.map_cons, logText_cons, ih]; rfl

/-- A line of `printk` ends. -/
def EndsLine (c : Char) : Prop := c = '\n' ∨ c = '\r'

instance (c : Char) : Decidable (EndsLine c) := inferInstanceAs (Decidable (_ ∨ _))

/-- Items that continue a log at the level `lv` (negative between lines) and leave it at another. -/
inductive Lines : Int → List LogItem → Int → Prop where
  | nil {lv : Int} : Lines lv [] lv
  | tag {lv lv' : Int} {c : Char} {items : List LogItem} : lv < 0 → '0' ≤ c → c ≤ '7' → Lines (tagLevel c) items lv' →
      Lines lv (.tag c :: items) lv'
  | chr {lv lv' : Int} {c : Char} {items : List LogItem} : 0 ≤ lv → Lines (if EndsLine c then -1 else lv) items lv' →
      Lines lv (.chr c :: items) lv'

theorem Lines.append {lv lv' lv'' : Int} {x y : List LogItem} (hx : Lines lv x lv') (hy : Lines lv' y lv'') :
    Lines lv (x ++ y) lv'' := by
  induction hx with
  | nil => exact hy
  | tag h0 h1 h2 _ ih => exact .tag h0 h1 h2 (ih hy)
  | chr h0 _ ih => exact .chr h0 (ih hy)

/-- What a console of a log level sees of the items while they are logged. -/
def shown (loglevel : Nat) : Int → List LogItem → List Char
  | _, [] => []
  | _, .tag c :: items => shown loglevel (tagLevel c) items
  | lv, .chr c :: items => (if lv ≤ loglevel then [c] else []) ++ shown loglevel (if EndsLine c then -1 else lv) items

theorem Lines.shown_append {lv lv' : Int} {x : List LogItem} (hx : Lines lv x lv') (loglevel : Nat) (y : List LogItem) :
    shown loglevel lv (x ++ y) = shown loglevel lv x ++ shown loglevel lv' y := by
  induction hx with
  | nil => rfl
  | tag _ _ _ _ ih => exact ih
  | chr _ _ ih => rw [List.cons_append, shown, ih, shown, List.append_assoc]

/-- The levels that tags name. -/
theorem tagLevel_bounds {c : Char} (h0 : '0' ≤ c) (h7 : c ≤ '7') : 0 ≤ tagLevel c ∧ tagLevel c ≤ 7 := by
  have h0' : 48 ≤ c.toNat := h0
  have h7' : c.toNat ≤ 55 := h7
  unfold tagLevel
  omega

/-! ### The circular buffer -/

/-- The log holds the text `t`, as long as it has room for it. -/
structure Logged (s : Log) (t : List Char) : Prop where
  count : s.loggedChars = t.length
  text : t.length ≤ logBufSize → s.logStart = 0 ∧ s.logSize = t.length ∧ getText s.logBuf 0 t.length = t

theorem logged_boot : Logged Log.boot [] := ⟨rfl, fun _ => ⟨rfl, rfl, rfl⟩⟩

theorem Logged.logChar {s : Log} {t : List Char} (h : Logged s t) (c : Char) : Logged (logChar s c) (t ++ [c]) := by
  refine ⟨?_, fun hroom => ?_⟩
  · have hcount : (BootPerl.logChar s c).loggedChars = s.loggedChars + 1 := by
      unfold BootPerl.logChar
      dsimp only
      split <;> rfl
    rw [hcount, h.count, List.length_append, List.length_singleton]
  · rw [List.length_append, List.length_singleton] at hroom
    obtain ⟨hstart, hsize, htext⟩ := h.text (by omega)
    have hlt : s.logSize < logBufSize := by omega
    have hslot : (s.logStart + s.logSize) % logBufSize = t.length := by
      rw [hstart, hsize, Nat.zero_add, Nat.mod_eq_of_lt (by omega)]
    unfold BootPerl.logChar
    dsimp only
    rw [if_pos hlt, hslot]
    refine ⟨hstart, by rw [hsize, List.length_append, List.length_singleton], ?_⟩
    rw [List.length_append, getText_add, Nat.zero_add, getText_congr _ _ fun x _ hx => Function.update_of_ne (by omega) _ _, htext]
    simp [getText]

/-- Log a text. -/
def logChars (s : Log) (t : List Char) : Log := t.foldl logChar s

theorem logChars_append (s : Log) (t u : List Char) : logChars s (t ++ u) = logChars (logChars s t) u := List.foldl_append

theorem Logged.logChars {s : Log} {t : List Char} (h : Logged s t) (u : List Char) : Logged (logChars s u) (t ++ u) := by
  induction u generalizing s t with
  | nil => rwa [List.append_nil]
  | cons c u ih =>
    have := ih (h.logChar c)
    rwa [List.append_assoc] at this

@[simp] theorem logChar_buf (s : Log) (c : Char) : (logChar s c).buf = s.buf := by
  unfold logChar
  dsimp only
  split <;> rfl

@[simp] theorem logChar_msgLevel (s : Log) (c : Char) : (logChar s c).msgLevel = s.msgLevel := by
  unfold logChar
  dsimp only
  split <;> rfl

@[simp] theorem logChar_consoles (s : Log) (c : Char) : (logChar s c).consoles = s.consoles := by
  unfold logChar
  dsimp only
  split <;> rfl

/-- Logging touches the log only. -/
theorem logChars_frame (t : List Char) :
    ∀ s, (logChars s t).buf = s.buf ∧ (logChars s t).msgLevel = s.msgLevel ∧ (logChars s t).consoles = s.consoles := by
  induction t with
  | nil => intro s; exact ⟨rfl, rfl, rfl⟩
  | cons c t ih =>
    intro s
    obtain ⟨h1, h2, h3⟩ := ih (logChar s c)
    exact ⟨h1.trans (logChar_buf s c), h2.trans (logChar_msgLevel s c), h3.trans (logChar_consoles s c)⟩

/-! ### One line of `printk` -/

/-- Characters that do not end the line are logged. -/
theorem logLine_skip (u : List Char) (hu : ∀ c ∈ u, ¬EndsLine c) :
    ∀ (n : Nat) (s : Log) (p : Nat), getText s.buf p u.length = u →
      logLine (u.length + n) s p = logLine n (logChars s u) (p + u.length) := by
  induction u with
  | nil => intro n s p _; rw [List.length_nil, Nat.zero_add]; rfl
  | cons c u ih =>
    intro n s p h
    rw [List.length_cons, getText, List.cons.injEq] at h
    have hc := hu c List.mem_cons_self
    have hrest := ih (fun x hx => hu x (List.mem_cons_of_mem _ hx)) n (logChar s c) (p + 1) (by rw [logChar_buf]; exact h.2)
    rw [List.length_cons, Nat.add_right_comm, logLine, h.1, if_neg (by rwa [logChar_buf, h.1]), hrest, Nat.add_assoc, Nat.add_comm 1]
    rfl

/-- A line, and whether it has its end. -/
def IsLine (t : List Char) (lineFeed : Nat) : Prop :=
  (lineFeed = 0 ∧ ∀ c ∈ t, ¬EndsLine c) ∨ (lineFeed = 1 ∧ ∃ u e, t = u ++ [e] ∧ EndsLine e ∧ ∀ c ∈ u, ¬EndsLine c)

/-- A line may have more before it that does not end it. -/
theorem IsLine.prepend {t : List Char} {lineFeed : Nat} (h : IsLine t lineFeed) {pre : List Char} (hpre : ∀ c ∈ pre, ¬EndsLine c) :
    IsLine (pre ++ t) lineFeed := by
  rcases h with ⟨h0, ht⟩ | ⟨h1, u, e, rfl, he, hu⟩
  · exact Or.inl ⟨h0, List.forall_mem_append.2 ⟨hpre, ht⟩⟩
  · exact Or.inr ⟨h1, pre ++ u, e, (List.append_assoc _ _ _).symm, he, List.forall_mem_append.2 ⟨hpre, hu⟩⟩

/-- A text starts with a line; only the last one has no end. -/
theorem exists_line (t : List Char) :
    ∃ line rest lineFeed, t = line ++ rest ∧ IsLine line lineFeed ∧ (lineFeed = 0 → rest = []) := by
  induction t with
  | nil => exact ⟨[], [], 0, rfl, Or.inl ⟨rfl, by simp⟩, fun _ => rfl⟩
  | cons c t ih =>
    by_cases hc : EndsLine c
    · exact ⟨[c], t, 1, rfl, Or.inr ⟨rfl, [], c, rfl, hc, by simp⟩, by simp⟩
    · obtain ⟨line, rest, lineFeed, rfl, hline, hrest⟩ := ih
      refine ⟨c :: line, rest, lineFeed, rfl, ?_, hrest⟩
      rcases hline with ⟨h0, hl⟩ | ⟨h1, u, e, rfl, he, hu⟩
      · exact Or.inl ⟨h0, List.forall_mem_cons.2 ⟨hc, hl⟩⟩
      · exact Or.inr ⟨h1, c :: u, e, rfl, he, List.forall_mem_cons.2 ⟨hc, hu⟩⟩

/-- The inner loop logs one line and stops at its end. -/
theorem logLine_line {line rest : List Char} {lineFeed : Nat} (hline : IsLine line lineFeed) (hrest : lineFeed = 0 → rest = [])
    {s : Log} {p : Nat} (h : Holds s.buf p (line ++ rest)) :
    ∃ p', logLine (line ++ rest).length s p = (logChars s line, p', lineFeed) ∧ p' + lineFeed = p + line.length := by
  rcases hline with ⟨rfl, hl⟩ | ⟨rfl, u, e, rfl, he, hu⟩
  · rw [hrest rfl, List.append_nil] at h ⊢
    have htext := (holds_append.1 ((List.append_nil line).symm ▸ h)).1
    refine ⟨p + line.length, ?_, rfl⟩
    rw [← Nat.add_zero line.length, logLine_skip line hl 0 s p htext]
    rfl
  · rw [List.append_assoc, holds_append] at h
    have hbuf : (logChars s u).buf (p + u.length) = e := by
      rw [(logChars_frame u s).1]
      exact (holds_cons.1 h.2).1
    refine ⟨p + u.length, ?_, by rw [List.length_append, List.length_singleton, Nat.add_assoc]⟩
    rw [List.append_assoc, List.length_append, List.singleton_append, List.length_cons, logLine_skip u hu _ s p h.1, logLine,
      hbuf, if_pos (by rwa [logChar_buf, hbuf]), logChars_append]
    rfl

/-- What is read of a message and what is logged for it have the same carriage returns in the same places. -/
structure Carries (t : List Char) (items : List LogItem) : Prop where
  nil : t = [] ↔ items = []
  mem : '\r' ∈ t ↔ LogItem.chr '\r' ∈ items
  before : '\r' ∈ t.dropLast ↔ LogItem.chr '\r' ∈ items.dropLast

theorem carries_nil : Carries [] [] := ⟨by simp, by simp, by simp⟩

theorem Carries.append {t u : List Char} {x y : List LogItem} (h : Carries t x) (h' : Carries u y) : Carries (t ++ u) (x ++ y) := by
  refine ⟨by rw [List.append_eq_nil_iff, List.append_eq_nil_iff, h.nil, h'.nil],
    by rw [List.mem_append, List.mem_append, h.mem, h'.mem], ?_⟩
  by_cases hu : u = []
  · have hy := h'.nil.1 hu
    subst hu hy
    rw [List.append_nil, List.append_nil]
    exact h.before
  · have hy : y ≠ [] := fun hy => hu (h'.nil.2 hy)
    rw [List.dropLast_append_of_ne_nil hu, List.dropLast_append_of_ne_nil hy, List.mem_append, List.mem_append, h.mem, h'.before]

/-- A line and the tag before it: only its last character can be a carriage return. -/
theorem carries_line {pre line : List Char} {tag : List LogItem} {lineFeed : Nat} (hline : IsLine line lineFeed)
    (hpre : '\r' ∉ pre) (htag : LogItem.chr '\r' ∉ tag) (hnil : pre ++ line = [] ↔ tag ++ line.map LogItem.chr = []) :
    Carries (pre ++ line) (tag ++ line.map LogItem.chr) := by
  refine ⟨hnil, by simp [hpre, htag], ?_⟩
  rcases hline with ⟨-, hl⟩ | ⟨-, u, e, rfl, -, hu⟩
  · have hcr : '\r' ∉ line := fun hm => hl _ hm (Or.inr rfl)
    have h1 : '\r' ∉ pre ++ line := by simp [hpre, hcr]
    have h2 : LogItem.chr '\r' ∉ tag ++ line.map LogItem.chr := by simp [htag, hcr]
    exact iff_of_false (fun hm => h1 (List.dropLast_subset _ hm)) fun hm => h2 (List.dropLast_subset _ hm)
  · have hcr : '\r' ∉ u := fun hm => hu _ hm (Or.inr rfl)
    rw [List.map_append, List.map_singleton, ← List.append_assoc, ← List.append_assoc, List.dropLast_concat, List.dropLast_concat]
    simp [hpre, htag, hcr]

/-- A call, or a part of one, that logs the items. -/
structure Printed (s s' : Log) (items : List LogItem) : Prop where
  lines : Lines s.msgLevel items s'.msgLevel
  consoles : s'.consoles = s.consoles.map fun c => { c with out := c.out ++ shown c.loglevel s.msgLevel items }
  logged : ∀ t, Logged s t → Logged s' (t ++ logText items)

theorem Printed.refl (s : Log) : Printed s s [] := by
  refine ⟨.nil, ?_, fun t ht => ?_⟩
  · simp [shown]
  · rwa [logText_nil, List.append_nil]

theorem Printed.trans {s s' s'' : Log} {x y : List LogItem} (h : Printed s s' x) (h' : Printed s' s'' y) :
    Printed s s'' (x ++ y) := by
  refine ⟨h.lines.append h'.lines, ?_, fun t ht => ?_⟩
  · rw [h'.consoles, h.consoles, List.map_map]
    refine List.map_congr_left fun c _ => ?_
    dsimp only [Function.comp_apply]
    rw [h.lines.shown_append, List.append_assoc]
  · rw [logText_append, ← List.append_assoc]
    exact h'.logged _ (h.logged t ht)

/-- Characters that do not end the line keep its level. -/
theorem lines_chr {u : List Char} (hu : ∀ c ∈ u, ¬EndsLine c) {lv : Int} (hlv : 0 ≤ lv) : Lines lv (u.map LogItem.chr) lv := by
  induction u with
  | nil => exact .nil
  | cons c u ih =>
    rw [List.forall_mem_cons] at hu
    refine .chr hlv ?_
    rw [if_neg hu.1]
    exact ih hu.2

theorem shown_chr {u : List Char} (hu : ∀ c ∈ u, ¬EndsLine c) (lv : Int) (loglevel : Nat) :
    shown loglevel lv (u.map LogItem.chr) = if lv ≤ loglevel then u else [] := by
  induction u with
  | nil => simp [shown]
  | cons c u ih =>
    rw [List.forall_mem_cons] at hu
    rw [List.map_cons, shown, if_neg hu.1, ih hu.2]
    split <;> rfl

/-- A line at a level: the level it leaves, and what the consoles see. -/
theorem lines_line {line : List Char} {lineFeed : Nat} (hline : IsLine line lineFeed) {lv : Int} (hlv : 0 ≤ lv) :
    Lines lv (line.map LogItem.chr) (if lineFeed = 1 then -1 else lv) ∧
      ∀ loglevel, shown loglevel lv (line.map LogItem.chr) = if lv ≤ loglevel then line else [] := by
  rcases hline with ⟨rfl, hl⟩ | ⟨rfl, u, e, rfl, he, hu⟩
  · exact ⟨lines_chr hl hlv, shown_chr hl lv⟩
  · have hlast : Lines lv [LogItem.chr e] (-1) := .chr hlv (by rw [if_pos he]; exact .nil)
    rw [List.map_append, List.map_singleton]
    refine ⟨(lines_chr hu hlv).append hlast, fun loglevel => ?_⟩
    rw [(lines_chr hu hlv).shown_append, shown_chr hu, shown, shown, List.append_nil]
    split <;> rfl

/-- A text starts with a tag. -/
def StartsTag (t : List Char) : Prop := IsTag (t.getD 0 (Char.ofNat 0)) (t.getD 1 (Char.ofNat 0)) (t.getD 2 (Char.ofNat 0))

instance (t : List Char) : Decidable (StartsTag t) := inferInstanceAs (Decidable (IsTag _ _ _))

theorem StartsTag.split {t : List Char} (h : StartsTag t) :
    ∃ c u, t = ['<', c, '>'] ++ u ∧ c = t.getD 1 (Char.ofNat 0) ∧ '0' ≤ c ∧ c ≤ '7' := by
  obtain ⟨h0, h1, h7, h2⟩ := h
  match t with
  | [] | [a] =>
    have h1' : '0' ≤ Char.ofNat 0 := h1
    exact absurd h1' (by decide)
  | [a, b] =>
    have h2' : Char.ofNat 0 = '>' := h2
    exact absurd h2' (by decide)
  | a :: b :: c :: u =>
    have ha : a = '<' := h0
    have hc : c = '>' := h2
    rw [ha, hc]
    exact ⟨b, u, rfl, rfl, h1, h7⟩

/-- What the log gets for a line at a level: between lines the tag that the line starts with, or the one put before it. -/
def lineItems (lv : Int) (line : List Char) : List LogItem :=
  if lv < 0 then
    if StartsTag line then .tag (line.getD 1 (Char.ofNat 0)) :: (line.drop 3).map .chr else .tag '4' :: line.map .chr
  else line.map .chr

/-- The circular buffer is the same. -/
structure SameLog (s s' : Log) : Prop where
  logBuf : s'.logBuf = s.logBuf
  logStart : s'.logStart = s.logStart
  logSize : s'.logSize = s.logSize

theorem SameLog.logChar {s s' : Log} (h : SameLog s s') (c : Char) : SameLog (logChar s c) (logChar s' c) := by
  unfold BootPerl.logChar
  dsimp only
  rw [h.logBuf, h.logStart, h.logSize]
  split
  · exact ⟨rfl, rfl, rfl⟩
  · exact ⟨rfl, rfl, rfl⟩

theorem SameLog.logChars {s s' : Log} (h : SameLog s s') (t : List Char) : SameLog (logChars s t) (logChars s' t) := by
  induction t generalizing s s' with
  | nil => exact h
  | cons c t ih => exact ih (h.logChar c)

/-- What `printk` makes of the start of a line: `pre` is the tag it finds there, `items` the tag that the log gets. -/
structure Opened (s s₁ : Log) (pre : List Char) (items : List LogItem) : Prop where
  frame : s₁.consoles = s.consoles ∧ ∀ t, Logged s t → Logged s₁ t
  level : 0 ≤ s₁.msgLevel
  lines : Lines s.msgLevel items s₁.msgLevel
  shown : ∀ loglevel, shown loglevel s.msgLevel items = []
  plain : (∀ c ∈ pre, ¬EndsLine c) ∧ ∀ c ∈ logText items, ¬EndsLine c
  found : items = [] → pre = []
  noReturn : LogItem.chr '\r' ∉ items

/-- The characters of a tag do not end the line. -/
theorem tag_plain {c : Char} (h0 : '0' ≤ c) : ∀ x ∈ ['<', c, '>'], ¬EndsLine x := by
  have hc : ¬EndsLine c := by
    rintro (rfl | rfl)
    · exact absurd h0 (by decide)
    · exact absurd h0 (by decide)
  rw [List.forall_mem_cons, List.forall_mem_cons, List.forall_mem_cons]
  exact ⟨by decide, hc, by decide, by simp⟩

/-- A tag in the buffer is one of the text: the final zero is none of its characters. -/
theorem Holds.tag {buf : Nat → Char} {p : Nat} {t : List Char} (h : Holds buf p t)
    (ht : IsTag (buf p) (buf (p + 1)) (buf (p + 2))) :
    ∃ body, t = ['<', buf (p + 1), '>'] ++ body := by
  obtain ⟨h0, h1, -, h2⟩ := ht
  match t, h with
  | [], h =>
    rw [holds_nil.1 h] at h0
    exact absurd h0 (by decide)
  | [a], h =>
    rw [holds_cons, holds_nil] at h
    rw [h.2] at h1
    exact absurd h1 (by decide)
  | [a, b], h =>
    rw [holds_cons, holds_cons, holds_nil] at h
    rw [h.2.2] at h2
    exact absurd h2 (by decide)
  | a :: b :: c :: body, h =>
    rw [holds_cons, holds_cons, holds_cons] at h
    obtain ⟨rfl, rfl, rfl, -⟩ := h
    exact ⟨body, by rw [h0, ← h2]; rfl⟩

theorem loglevelDefault_nonneg : 0 ≤ loglevelDefault := by
  decide

/-- A line starts where the tag that is logged starts, and the text of the line after it. -/
theorem openLine_spec {s : Log} {p : Nat} {t : List Char} (hp : 3 ≤ p) (h : Holds s.buf p t) :
    ∃ s₁ p₁ pre body items, openLine s p = (s₁, p₁, p₁ + (logText items).length) ∧ t = pre ++ body ∧
      Holds s₁.buf p₁ (logText items ++ body) ∧ p₁ + (logText items).length = p + pre.length ∧ Opened s s₁ pre items ∧
      SameLog s s₁ ∧ ∀ line rest, body = line ++ rest → lineItems s.msgLevel (pre ++ line) = items ++ line.map .chr := by
  unfold openLine
  split
  · rename_i hlv
    split
    · rename_i htag
      obtain ⟨body, rfl⟩ := h.tag htag
      have hb := tagLevel_bounds htag.2.1 htag.2.2.1
      refine ⟨_, p, ['<', s.buf (p + 1), '>'], body, [.tag (s.buf (p + 1))], rfl, rfl, h, rfl, ⟨⟨rfl, fun t ht => ?_⟩, hb.1,
        .tag hlv htag.2.1 htag.2.2.1 .nil, fun _ => rfl, ⟨tag_plain htag.2.1, tag_plain htag.2.1⟩, by simp, by simp⟩,
        ⟨rfl, rfl, rfl⟩, fun line rest _ => ?_⟩
      · exact ⟨ht.count, ht.text⟩
      · have hstart : StartsTag (['<', s.buf (p + 1), '>'] ++ line) := ⟨rfl, htag.2.1, htag.2.2.1, rfl⟩
        rw [lineItems, if_pos hlv, if_pos hstart]
        rfl
    · rename_i htag
      have hlen : (logText [.tag '4']).length = 3 := rfl
      refine ⟨{ s with buf := putText s.buf (p - 3) ['<', '4', '>'], msgLevel := loglevelDefault }, p - 3, [], t, [.tag '4'],
        ?_, rfl, ?_, ?_, ⟨⟨rfl, fun t ht => ?_⟩, loglevelDefault_nonneg, .tag hlv (by decide) (by decide) .nil,
        fun _ => rfl, ⟨by simp, tag_plain (by decide)⟩, by simp, by simp⟩, ⟨rfl, rfl, rfl⟩, fun line rest hline => ?_⟩
      · rw [hlen, Nat.sub_add_cancel hp]
      · rw [holds_append, hlen, Nat.sub_add_cancel hp]
        refine ⟨getText_putText ['<', '4', '>'] _ _, h.congr fun x hx => putText_of_outside _ _ _ _ (Or.inr ?_)⟩
        simp only [List.length_cons, List.length_nil]
        omega
      · rw [hlen, Nat.sub_add_cancel hp]
        rfl
      · exact ⟨ht.count, ht.text⟩
      · have hstart : ¬StartsTag line := by
          intro hstart
          obtain ⟨c, u, rfl, -, h0, h7⟩ := hstart.split
          rw [hline, List.append_assoc, List.cons_append, List.cons_append, List.cons_append, holds_cons, holds_cons,
            holds_cons] at h
          exact htag ⟨h.1, by rw [h.2.1]; exact h0, by rw [h.2.1]; exact h7, h.2.2.1⟩
        rw [List.nil_append, lineItems, if_pos hlv, if_neg hstart]
        rfl
  · rename_i hlv
    exact ⟨s, p, [], t, [], rfl, rfl, h, rfl,
      ⟨⟨rfl, fun _ ht => ht⟩, Int.not_lt.1 hlv, .nil, fun _ => rfl, ⟨by simp, by simp⟩, fun _ => rfl, by simp⟩,
      ⟨rfl, rfl, rfl⟩, fun line _ _ => if_neg hlv⟩

theorem IsLine.le {line : List Char} {lineFeed : Nat} (h : IsLine line lineFeed) : lineFeed ≤ line.length := by
  rcases h with ⟨rfl, -⟩ | ⟨rfl, u, e, rfl, -⟩
  · exact Nat.zero_le _
  · rw [List.length_append]
    exact Nat.le_add_left _ _

/-- The two loops of `printk` agree on where the line is. -/
theorem printLine_eq {s s₁ : Log} {p p₁ : Nat} {tag line rest : List Char} {lineFeed bufEnd : Nat}
    (hopen : openLine s p = (s₁, p₁, p₁ + tag.length)) (htag : ∀ c ∈ tag, ¬EndsLine c) (hline : IsLine line lineFeed)
    (hrest : lineFeed = 0 → rest = []) (h : Holds s₁.buf p₁ (tag ++ (line ++ rest)))
    (hend : bufEnd = p₁ + tag.length + (line ++ rest).length) :
    let s₂ := writeConsoles (logChars s₁ (tag ++ line)) line
    ∃ p', printLine bufEnd s p = (if lineFeed = 1 then { s₂ with msgLevel := -1 } else s₂, p' + 1) ∧
      p' + lineFeed = p₁ + tag.length + line.length := by
  rw [holds_append] at h
  have hbuf : Holds (logChars s₁ tag).buf (p₁ + tag.length) (line ++ rest) := by
    rw [(logChars_frame tag s₁).1]
    exact h.2
  obtain ⟨p', hlog, hp'⟩ := logLine_line hline hrest hbuf
  have hle := hline.le
  have hlen : p' - (p₁ + tag.length) + lineFeed = line.length := by omega
  have hn : bufEnd - p₁ = tag.length + (line ++ rest).length := by omega
  have hwritten : getText (logChars (logChars s₁ tag) line).buf (p₁ + tag.length) line.length = line := by
    rw [(logChars_frame line _).1]
    exact (holds_append.1 hbuf).1
  refine ⟨p', ?_, hp'⟩
  unfold printLine
  simp only [hopen, hn, logLine_skip tag htag _ s₁ p₁ h.1, hlog, hlen, hwritten, logChars_append]

/-- A part of a call that logs a line of the message, which `rest` follows. -/
structure LogsLine (s s' : Log) (line rest : List Char) : Prop where
  ended : ∃ lineFeed, IsLine line lineFeed ∧ (lineFeed = 0 → rest = [])
  printed : Printed s s' (lineItems s.msgLevel line)
  sameLog : SameLog (logChars s (logText (lineItems s.msgLevel line))) s'

/-- One turn reads a line of the message. -/
theorem printLine_spec {s : Log} {p : Nat} {t : List Char} (hp : 3 ≤ p) (ht : t ≠ []) (h : Holds s.buf p t) :
    ∃ s' p' line rest, printLine (p + t.length) s p = (s', p') ∧ t = line ++ rest ∧ line ≠ [] ∧
      Carries line (lineItems s.msgLevel line) ∧ LogsLine s s' line rest ∧
      (p' = p + line.length ∧ Holds s'.buf p' rest ∨ rest = [] ∧ p + t.length ≤ p') := by
  obtain ⟨s₁, p₁, pre, body, items, hopen, rfl, hbuf, hpos, ho, hsame, hitems⟩ := openLine_spec hp h
  obtain ⟨line, rest, lineFeed, rfl, hline, hrest⟩ := exists_line body
  have hend : p + (pre ++ (line ++ rest)).length = p₁ + (logText items).length + (line ++ rest).length := by
    rw [List.length_append, hpos, Nat.add_assoc]
  obtain ⟨p', hturn, hp'⟩ := printLine_eq hopen ho.plain.2 hline hrest hbuf hend
  obtain ⟨hlines, hshown⟩ := lines_line hline ho.level
  obtain ⟨hb, hlv, hc⟩ := logChars_frame (logText items ++ line) s₁
  have hne : pre = [] → line ≠ [] := by
    rintro rfl rfl
    rcases hline with ⟨h0, -⟩ | ⟨-, u, e, he, -⟩
    · exact ht (by rw [hrest h0]; rfl)
    · exact absurd he.symm (List.append_ne_nil_of_right_ne_nil u (List.cons_ne_nil e []))
  have hlog : logText (items ++ line.map LogItem.chr) = logText items ++ line := by
    rw [logText_append, logText_map_chr]
  refine ⟨_, _, pre ++ line, rest, hturn, (List.append_assoc _ _ _).symm, fun he => ?_, ?_, ⟨⟨lineFeed, ?_, hrest⟩, ?_, ?_⟩, ?_⟩
  · exact hne (List.append_eq_nil_iff.1 he).1 (List.append_eq_nil_iff.1 he).2
  · rw [hitems line rest rfl]
    refine carries_line hline (fun hm => ho.plain.1 _ hm (Or.inr rfl)) ho.noReturn (iff_of_false (fun he => ?_) fun he => ?_)
    · exact hne (List.append_eq_nil_iff.1 he).1 (List.append_eq_nil_iff.1 he).2
    · exact hne (ho.found (List.append_eq_nil_iff.1 he).1) (List.map_eq_nil_iff.1 (List.append_eq_nil_iff.1 he).2)
  · exact hline.prepend ho.plain.1
  · rw [hitems line rest rfl]
    refine ⟨?_, ?_, fun t ht => ?_⟩
    · have hfinal := ho.lines.append hlines
      split
      · rwa [if_pos ‹_›] at hfinal
      · rw [if_neg ‹_›, ← hlv] at hfinal
        exact hfinal
    · have hwrite : (writeConsoles (logChars s₁ (logText items ++ line)) line).consoles =
          s.consoles.map fun c => { c with out := c.out ++ shown c.loglevel s.msgLevel (items ++ line.map LogItem.chr) } := by
        unfold writeConsoles
        rw [hc, hlv, ho.frame.1]
        refine List.map_congr_left fun c _ => ?_
        rw [ho.lines.shown_append, ho.shown, hshown, List.nil_append]
        split
        · rfl
        · rw [List.append_nil]
      split <;> exact hwrite
    · have hlogged := (ho.frame.2 t ht).logChars (logText items ++ line)
      rw [hlog]
      split <;> exact ⟨hlogged.count, hlogged.text⟩
  · have hlogs := hsame.logChars (logText items ++ line)
    rw [hitems line rest rfl, hlog]
    split <;> exact ⟨hlogs.logBuf, hlogs.logStart, hlogs.logSize⟩
  · by_cases hlf : lineFeed = 1
    · refine Or.inl ⟨by rw [List.length_append]; omega, ?_⟩
      have hfinal : Holds s₁.buf (p' + 1) rest := by
        have := (holds_append.1 (holds_append.1 hbuf).2).2
        rwa [← hp', hlf] at this
      rw [if_pos hlf]
      exact hfinal.congr fun x _ => congrFun hb x
    · have hlf0 : lineFeed = 0 := by
        rcases hline with ⟨h0, -⟩ | ⟨h1, -⟩
        · exact h0
        · exact absurd h1 hlf
      have hr := hrest hlf0
      rw [hr, List.append_nil] at hend
      exact Or.inr ⟨hr, by rw [hr, List.append_nil, hend]; omega⟩

/-- The outer loop logs and shows the whole message. -/
theorem printLines_spec : ∀ (turns : Nat) (s : Log) (p : Nat) (t : List Char), t.length ≤ turns → 3 ≤ p → Holds s.buf p t →
    ∃ items, Carries t items ∧ Printed s (printLines (p + t.length) turns s p) items := by
  intro turns
  induction turns with
  | zero =>
    intro s p t ht _ _
    rw [List.length_eq_zero_iff.1 (Nat.le_zero.1 ht)]
    exact ⟨[], carries_nil, Printed.refl s⟩
  | succ turns ih =>
    intro s p t ht hp h
    by_cases hnil : t = []
    · subst hnil
      have hend : ¬p < p + ([] : List Char).length := Nat.lt_irrefl p
      rw [printLines, if_neg hend]
      exact ⟨[], carries_nil, Printed.refl s⟩
    · have hlt : p < p + t.length := Nat.lt_add_of_pos_right (List.length_pos_iff.2 hnil)
      obtain ⟨s', p', line, rest, hturn, rfl, hline, hcarry, hlogs, hnext⟩ := printLine_spec hp hnil h
      rw [printLines, if_pos hlt, hturn]
      dsimp only
      rcases hnext with ⟨rfl, hrest⟩ | ⟨rfl, hend⟩
      · have hpos := List.length_pos_iff.2 hline
        rw [List.length_append] at ht ⊢
        obtain ⟨items', hcarry', hprint'⟩ := ih s' (p + line.length) rest (by omega) (by omega) hrest
        rw [Nat.add_assoc] at hprint'
        exact ⟨_, hcarry.append hcarry', hlogs.printed.trans hprint'⟩
      · have hstop : printLines (p + (line ++ []).length) turns s' p' = s' := by
          cases turns with
          | zero => rfl
          | succ turns => rw [printLines, if_neg (by omega)]
        rw [hstop, List.append_nil]
        exact ⟨_, hcarry, hlogs.printed⟩

/-- What `printk` does with a message. -/
theorem printk_spec (s : Log) (m : Message) : ∃ items, Carries m.text items ∧ Printed s (printk s m) items := by
  obtain ⟨items, hcarry, hprint⟩ :=
    printLines_spec m.text.length { s with buf := putText s.buf 3 (m.text ++ [Char.ofNat 0]) } 3 m.text (Nat.le_refl _)
      (Nat.le_refl _) (holds_putText _ _ _)
  exact ⟨items, hcarry, hprint.lines, hprint.consoles, fun t ht => hprint.logged t ⟨ht.count, ht.text⟩⟩

/-- What a sequence of calls does. -/
theorem printk_foldl_spec (ms : List Message) :
    ∀ s, ∃ items, Carries (ms.flatMap Message.text) items ∧ Printed s (ms.foldl printk s) items := by
  induction ms with
  | nil => intro s; exact ⟨[], carries_nil, Printed.refl s⟩
  | cons m ms ih =>
    intro s
    obtain ⟨x, hx, hx'⟩ := printk_spec s m
    obtain ⟨y, hy, hy'⟩ := ih (printk s m)
    exact ⟨x ++ y, hx.append hy, hx'.trans hy'⟩

/-! ### Reading the log again -/

/-- What `register_console` makes of the text of a log, character by character, from a level on (negative between lines). Lines
end only at a newline here. -/
def replayed (loglevel : Nat) (lv : Int) (t : List Char) : List Char :=
  match t with
  | [] => []
  | c :: t =>
    if lv < 0 then
      if IsTag c (t.getD 0 (Char.ofNat 0)) (t.getD 1 (Char.ofNat 0)) then
        replayed loglevel (tagLevel (t.getD 0 (Char.ofNat 0))) (t.drop 2)
      else (if loglevelDefault ≤ loglevel then [c] else []) ++ replayed loglevel (if c = '\n' then -1 else loglevelDefault) t
    else (if lv ≤ loglevel then [c] else []) ++ replayed loglevel (if c = '\n' then -1 else lv) t
termination_by t.length
decreasing_by all_goals simp only [List.length_cons, List.length_drop]; omega

variable {loglevel : Nat} {lv : Int}

theorem replayed_nil : replayed loglevel lv [] = [] := by
  rw [replayed]

/-- A character of a line. -/
theorem replayed_chr (hlv : 0 ≤ lv) (c : Char) (t : List Char) :
    replayed loglevel lv (c :: t) =
      (if lv ≤ loglevel then [c] else []) ++ replayed loglevel (if c = '\n' then -1 else lv) t := by
  rw [replayed, if_neg (Int.not_lt.2 hlv)]

/-- A tag between lines. -/
theorem replayed_tag (hlv : lv < 0) {c : Char} (h0 : '0' ≤ c) (h7 : c ≤ '7') (t : List Char) :
    replayed loglevel lv (['<', c, '>'] ++ t) = replayed loglevel (tagLevel c) t := by
  have htag : IsTag '<' c '>' := ⟨rfl, h0, h7, rfl⟩
  rw [List.cons_append, replayed, if_pos hlv]
  exact if_pos htag

/-- A line that does not start with a tag has the default level. -/
theorem replayed_default (hlv : lv < 0) {t : List Char} (ht : ¬StartsTag t) :
    replayed loglevel lv t = replayed loglevel loglevelDefault t := by
  cases t with
  | nil => rw [replayed_nil, replayed_nil]
  | cons c t =>
    rw [replayed_chr loglevelDefault_nonneg, replayed, if_pos hlv]
    exact if_neg ht

/-- Characters without a newline. -/
theorem replayed_text (hlv : 0 ≤ lv) {u : List Char} (hu : ∀ c ∈ u, c ≠ '\n') (t : List Char) :
    replayed loglevel lv (u ++ t) = (if lv ≤ loglevel then u else []) ++ replayed loglevel lv t := by
  induction u with
  | nil => simp
  | cons c u ih =>
    rw [List.forall_mem_cons] at hu
    rw [List.cons_append, replayed_chr hlv, if_neg hu.1, ih hu.2]
    split <;> rfl

/-- Characters without a newline, and one more. -/
theorem replayed_piece (hlv : 0 ≤ lv) {u : List Char} (hu : ∀ c ∈ u, c ≠ '\n') (c : Char) (t : List Char) :
    replayed loglevel lv (u ++ c :: t) =
      (if lv ≤ loglevel then u ++ [c] else []) ++ replayed loglevel (if c = '\n' then -1 else lv) t := by
  rw [replayed_text hlv hu, replayed_chr hlv]
  split
  · rw [List.append_assoc]
  · rfl

/-- A text whose first or second character is a newline does not start with a tag. -/
theorem not_startsTag_newline {t : List Char} (h : t.getD 0 (Char.ofNat 0) = '\n' ∨ t.getD 1 (Char.ofNat 0) = '\n') :
    ¬StartsTag t := by
  rintro ⟨h0, h1, -, -⟩
  rcases h with h | h
  · rw [h] at h0
    exact absurd h0 (by decide)
  · rw [h] at h1
    exact absurd h1 (by decide)

/-- A chunk that was cut off before three characters ends a line or the log, so a tag at its start is a tag of the log. -/
theorem startsTag_chunk {u : List Char} {c : Char} {t : List Char} (hcut : c = '\n' ∨ t = [] ∨ 2 ≤ u.length) :
    StartsTag (u ++ c :: t) ↔ StartsTag (u ++ [c]) := by
  match u with
  | [] =>
    rcases hcut with rfl | rfl | hu
    · exact iff_of_false (not_startsTag_newline (Or.inl rfl)) (not_startsTag_newline (Or.inl rfl))
    · exact Iff.rfl
    · exact absurd hu (by decide)
  | [a] =>
    rcases hcut with rfl | rfl | hu
    · exact iff_of_false (not_startsTag_newline (Or.inr rfl)) (not_startsTag_newline (Or.inr rfl))
    · exact Iff.rfl
    · exact absurd hu (by simp)
  | [a, b] | a :: b :: d :: u => exact Iff.rfl

/-- A chunk is written as the text of the log that it is. -/
theorem replayed_chunk (loglevel : Nat) (lv : Int) {u : List Char} (hu : ∀ x ∈ u, x ≠ '\n') {c : Char} {t : List Char}
    (hcut : c = '\n' ∨ t = [] ∨ 2 ≤ u.length) :
    replayed loglevel lv (u ++ c :: t) =
      (if (openChunk (u ++ [c]) lv).2 ≤ loglevel then (openChunk (u ++ [c]) lv).1 else []) ++
        replayed loglevel (if c = '\n' then -1 else (openChunk (u ++ [c]) lv).2) t := by
  by_cases hlv : lv < 0
  · by_cases hs : StartsTag (u ++ [c])
    · have hopen : openChunk (u ++ [c]) lv = ((u ++ [c]).drop 3, tagLevel ((u ++ [c]).getD 1 (Char.ofNat 0))) := by
        unfold openChunk
        dsimp only
        rw [if_pos hlv]
        exact if_pos hs
      obtain ⟨d, v, hv, hd, h0, h7⟩ := hs.split
      have hlevel := (tagLevel_bounds h0 h7).1
      rw [hopen, ← hd, hv]
      have hall : u ++ c :: t = ['<', d, '>'] ++ (v ++ t) := by
        rw [← List.append_assoc, ← hv, List.append_assoc, List.singleton_append]
      rw [hall, replayed_tag hlv h0 h7]
      dsimp only [List.cons_append, List.nil_append, List.drop_succ_cons, List.drop_zero]
      rcases List.eq_nil_or_concat v with rfl | ⟨v', c', rfl⟩
      · have hc : ['<', d] = u ∧ ['>'] = [c] := List.append_inj' (by rw [hv]; rfl) rfl
        obtain ⟨-, hc⟩ := hc
        cases hc
        have hdrop : ['<', d, '>'].drop 3 = [] := rfl
        rw [if_neg (by decide : '>' ≠ '\n'), List.append_nil, hdrop, ite_self]
        rfl
      · rw [List.concat_eq_append] at hv ⊢
        obtain ⟨rfl, hc⟩ : u = ['<', d, '>'] ++ v' ∧ [c] = [c'] := List.append_inj' (by rw [hv, List.append_assoc]) rfl
        cases hc
        rw [List.append_assoc, List.singleton_append]
        exact replayed_piece hlevel (fun x hx => hu x (List.mem_append_right _ hx)) c t
    · have hopen : openChunk (u ++ [c]) lv = (u ++ [c], loglevelDefault) := by
        unfold openChunk
        dsimp only
        rw [if_pos hlv]
        exact if_neg hs
      rw [replayed_default hlv fun h => hs ((startsTag_chunk hcut).1 h), replayed_piece loglevelDefault_nonneg hu, hopen]
  · have hopen : openChunk (u ++ [c]) lv = (u ++ [c], lv) := if_neg hlv
    rw [hopen]
    exact replayed_piece (Int.not_lt.1 hlv) hu c t

/-- The loop of `register_console` reads the log in chunks, and that does not show. -/
theorem replayLog_eq (s : Log) (loglevel : Nat) : ∀ (n p : Nat) (chunk : List Char) (lv : Int), p + n ≤ logBufSize →
    (∀ c ∈ chunk, c ≠ '\n') → chunk.length < 15 → (n = 0 → chunk = []) →
    replayLog s loglevel n p chunk lv = replayed loglevel lv (chunk ++ getText s.logBuf p n) := by
  intro n
  induction n with
  | zero =>
    intro p chunk lv _ _ _ hchunk
    rw [hchunk rfl]
    exact replayed_nil.symm
  | succ n ih =>
    intro p chunk lv hp hchunk hlen _
    have hnext : getText s.logBuf ((p + 1) % logBufSize) n = getText s.logBuf (p + 1) n := by
      by_cases hn : n = 0
      · rw [hn]
        rfl
      · rw [Nat.mod_eq_of_lt (by omega)]
    have hroom : (p + 1) % logBufSize + n ≤ logBufSize := by
      by_cases hn : n = 0
      · rw [hn]
        exact Nat.le_of_lt (Nat.mod_lt _ (by decide))
      · rw [Nat.mod_eq_of_lt (by omega)]
        omega
    rw [getText, replayLog]
    by_cases hgo : s.logBuf p ≠ '\n' ∧ n ≠ 0 ∧ (chunk ++ [s.logBuf p]).length < 15
    · rw [if_pos hgo, ih _ _ _ hroom ?_ hgo.2.2 fun hn => absurd hn hgo.2.1, hnext, List.append_assoc]
      · rfl
      · intro c hc
        rw [List.mem_append, List.mem_singleton] at hc
        rcases hc with hc | rfl
        · exact hchunk c hc
        · exact hgo.1
    · have hcut : s.logBuf p = '\n' ∨ getText s.logBuf (p + 1) n = [] ∨ 2 ≤ chunk.length := by
        rw [List.length_append, List.length_singleton] at hgo
        by_cases hc : s.logBuf p = '\n'
        · exact Or.inl hc
        · by_cases hn : n = 0
          · rw [hn]
            exact Or.inr (Or.inl rfl)
          · have hfull : ¬chunk.length + 1 < 15 := fun h => hgo ⟨hc, hn, h⟩
            exact Or.inr (Or.inr (by omega))
      rw [if_neg hgo, replayed_chunk loglevel lv hchunk hcut]
      dsimp only
      rw [ih _ [] _ hroom (by simp) (by decide) fun _ => rfl, hnext, List.nil_append]

/-- A console that is registered gets the log as it reads. -/
theorem registerConsole_spec {s : Log} {t : List Char} (h : Logged s t) (hroom : t.length ≤ logBufSize) (con : Console) :
    registerConsole s con = { s with consoles := { con with out := con.out ++ replayed con.loglevel (-1) t } :: s.consoles } := by
  obtain ⟨hstart, hsize, htext⟩ := h.text hroom
  have hreplay := replayLog_eq s con.loglevel t.length 0 [] (-1) (by omega) (by simp) (by decide) fun _ => rfl
  rw [htext, List.nil_append] at hreplay
  unfold registerConsole
  rw [hstart, hsize, Nat.zero_mod, hreplay]

end BootPerl
