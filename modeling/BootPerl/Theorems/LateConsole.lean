import BootPerl.Lemmas.Printk

/-!
# Late and early consoles

A console registered before the first `printk`, and one of the same log level registered later, which gets the log first.
`printk` ends a line at a newline or a carriage return, `register_console` only at a newline: the two see the same unless the
log goes on after a carriage return.
-/

namespace BootPerl

/-- `printk` of the messages of `pre`, then the late console, then `printk` of those of `post`. -/
def printRegisterPrint (loglevel : Nat) (pre post : List Message) : Log :=
  let s := registerConsole Log.boot ⟨loglevel, []⟩
  let s := pre.foldl printk s
  let s := registerConsole s ⟨loglevel, []⟩
  post.foldl printk s

/-- The two consoles, the late one first, have got the same characters. -/
def ConsolesAgree (s : Log) : Prop := ∃ late early, s.consoles = [late, early] ∧ late.out = early.out

/-- What stands before the last of a list. -/
theorem mem_dropLast_cons {α : Type} {a x : α} {l : List α} : x ∈ (a :: l).dropLast ↔ l ≠ [] ∧ (x = a ∨ x ∈ l.dropLast) := by
  cases l with
  | nil => simp
  | cons b l =>
    rw [List.dropLast_cons_of_ne_nil (List.cons_ne_nil b l), List.mem_cons]
    simp

/-- Without a carriage return before its last item, the log reads as it was shown. -/
theorem replayed_eq_shown (loglevel : Nat) {lv lv' : Int} {items : List LogItem} (h : Lines lv items lv')
    (hcr : LogItem.chr '\r' ∉ items.dropLast) : replayed loglevel lv (logText items) = shown loglevel lv items := by
  induction h with
  | nil => exact replayed_nil
  | @tag lv lv' c items hlv h0 h7 _ ih =>
    rw [logText_cons, LogItem.text, replayed_tag hlv h0 h7, shown]
    exact ih fun hm => hcr (mem_dropLast_cons.2 ⟨List.ne_nil_of_mem (List.dropLast_subset _ hm), Or.inr hm⟩)
  | @chr lv lv' c items hlv _ ih =>
    rw [logText_cons, LogItem.text, List.singleton_append, replayed_chr hlv, shown]
    by_cases hnil : items = []
    · subst hnil
      rw [logText_nil, replayed_nil, shown]
    · have hc : c ≠ '\r' := fun hc => hcr (mem_dropLast_cons.2 ⟨hnil, Or.inl (by rw [hc])⟩)
      have hends : (if c = '\n' then -1 else lv) = if EndsLine c then -1 else lv := by
        simp [EndsLine, hc]
      rw [hends, ih fun hm => hcr (mem_dropLast_cons.2 ⟨hnil, Or.inr hm⟩)]

/-- Where a console shows all levels, reading the log gives no fewer characters, and more once the log goes on after a carriage
return: the tag of the next line is read as text. `lv` is the level in `printk`, `rv` in `register_console`. -/
theorem length_shown_le {loglevel : Nat} (hmax : 7 ≤ loglevel) {items : List LogItem} {lv lv' : Int} (h : Lines lv items lv') :
    ∀ rv : Int, lv ≤ loglevel → rv ≤ loglevel → (rv < 0 → lv < 0) →
      (shown loglevel lv items).length ≤ (replayed loglevel rv (logText items)).length ∧
        (lv < 0 ∧ 0 ≤ rv ∧ items ≠ [] ∨ LogItem.chr '\r' ∈ items.dropLast →
          (shown loglevel lv items).length < (replayed loglevel rv (logText items)).length) := by
  induction h with
  | nil => exact fun rv _ _ _ => ⟨Nat.zero_le _, by simp⟩
  | @tag lv lv' c items hlv h0 h7 _ ih =>
    intro rv _ hrv _
    have hc7 : tagLevel c ≤ loglevel := Int.le_trans (tagLevel_bounds h0 h7).2 (Int.ofNat_le.2 hmax)
    rw [logText_cons, LogItem.text, shown]
    by_cases hneg : rv < 0
    · rw [replayed_tag hneg h0 h7]
      obtain ⟨hle, hlt⟩ := ih (tagLevel c) hc7 hc7 id
      refine ⟨hle, fun hcr => hlt (Or.inr ?_)⟩
      rcases hcr with ⟨-, hpos, -⟩ | hcr
      · omega
      · rcases (mem_dropLast_cons.1 hcr).2 with hc | hc
        · cases hc
        · exact hc
    · have hplain : ∀ x ∈ ['<', c, '>'], x ≠ '\n' := fun x hx hn => tag_plain h0 x hx (Or.inl hn)
      obtain ⟨hle, -⟩ := ih rv hc7 hrv (fun hn => absurd hn hneg)
      rw [replayed_text (Int.not_lt.1 hneg) hplain, if_pos hrv, List.length_append]
      exact ⟨Nat.le_trans hle (Nat.le_add_left _ _), fun _ => Nat.lt_of_le_of_lt hle (Nat.lt_add_of_pos_left (Nat.succ_pos 2))⟩
  | @chr lv lv' c items hlv _ ih =>
    intro rv hlv7 hrv7 hneg
    have hpos : 0 ≤ rv := by omega
    have hends : (if c = '\n' then -1 else rv) < 0 → (if EndsLine c then -1 else lv) < 0 := by
      intro hn
      split at hn
      · have hc : EndsLine c := Or.inl ‹_›
        rw [if_pos hc]
        decide
      · omega
    have hreset : ∀ (p : Prop) [Decidable p] (x : Int), x ≤ loglevel → (if p then -1 else x) ≤ loglevel := by
      intro p _ x hx
      split
      · omega
      · exact hx
    obtain ⟨hle, hlt⟩ := ih _ (hreset _ lv hlv7) (hreset _ rv hrv7) hends
    rw [logText_cons, LogItem.text, List.singleton_append, replayed_chr hpos, shown, if_pos hrv7, if_pos hlv7, List.length_append,
      List.length_append]
    refine ⟨Nat.add_le_add_left hle _, fun hcr => Nat.add_lt_add_left (hlt ?_) _⟩
    rcases hcr with ⟨hlt0, -⟩ | hcr
    · omega
    · obtain ⟨hne, hc | hc⟩ := mem_dropLast_cons.1 hcr
      · cases hc
        exact Or.inl ⟨Int.negSucc_lt_zero 0, hpos, hne⟩
      · exact Or.inr hc

/-- What the two consoles have got: the one the log as it reads, the other the log as it was shown, and then both the same. -/
theorem consolesAgree_iff (loglevel : Nat) (pre post : List Message)
    (hroom : (printRegisterPrint loglevel pre []).loggedChars ≤ logBufSize) :
    ∃ items lv, Carries (pre.flatMap Message.text) items ∧ Lines (-1) items lv ∧
      (ConsolesAgree (printRegisterPrint loglevel pre post) ↔
        replayed loglevel (-1) (logText items) = shown loglevel (-1) items) := by
  obtain ⟨items, hcarry, hpre⟩ := printk_foldl_spec pre (registerConsole Log.boot ⟨loglevel, []⟩)
  have hlog := hpre.logged [] ⟨logged_boot.count, logged_boot.text⟩
  rw [List.nil_append] at hlog
  have hfull : (logText items).length ≤ logBufSize := hlog.count ▸ hroom
  have hlate := registerConsole_spec hlog hfull ⟨loglevel, []⟩
  obtain ⟨items', -, hpost⟩ := printk_foldl_spec post
    (registerConsole (pre.foldl printk (registerConsole Log.boot ⟨loglevel, []⟩)) ⟨loglevel, []⟩)
  have hcons := hpost.consoles
  rw [congrArg Log.consoles hlate, hpre.consoles, congrArg Log.msgLevel hlate] at hcons
  refine ⟨items, _, hcarry, hpre.lines, ?_⟩
  constructor
  · rintro ⟨late, early, hboth, hout⟩
    rw [printRegisterPrint, hcons] at hboth
    cases hboth
    exact List.append_cancel_right hout
  · intro heq
    exact ⟨_, _, hcons, congrArg (· ++ _) heq⟩

/-- In every run in which the log has room for what is logged before it, a late console of any log level gets what an early one
got if and only if nothing follows a carriage return in that text. -/
theorem consoles_agree_iff (pre post : List Message)
    (hroom : ∀ loglevel, (printRegisterPrint loglevel pre []).loggedChars ≤ logBufSize) :
    (∀ loglevel, ConsolesAgree (printRegisterPrint loglevel pre post)) ↔ '\r' ∉ (pre.flatMap Message.text).dropLast := by
  constructor
  · intro h hcr
    obtain ⟨items, lv, hcarry, hlines, hiff⟩ := consolesAgree_iff 7 pre post (hroom 7)
    have hlt := (length_shown_le (Nat.le_refl 7) hlines (-1) (by decide) (by decide) id).2 (Or.inr (hcarry.before.1 hcr))
    rw [hiff.1 (h 7)] at hlt
    exact Nat.lt_irrefl _ hlt
  · intro hcr loglevel
    obtain ⟨items, lv, hcarry, hlines, hiff⟩ := consolesAgree_iff loglevel pre post (hroom loglevel)
    exact hiff.2 (replayed_eq_shown loglevel hlines fun hm => hcr (hcarry.before.2 hm))

/-- Two lines, the first ended by a carriage return. -/
def returnMessage : Message where
  text := ['a', '\r', 'b', '\n']
  fits := by decide

/-- The two consoles after one such message: the late one has got the tag of the second line. -/
theorem consoles_returnMessage : (printRegisterPrint 7 [returnMessage] []).consoles =
    [⟨7, ['a', '\r', '<', '4', '>', 'b', '\n']⟩, ⟨7, ['a', '\r', 'b', '\n']⟩] := by
  decide

/-- The two consoles do not agree in every run. -/
theorem consoles_agree_false : ¬∀ (loglevel : Nat) (pre post : List Message),
    (printRegisterPrint loglevel pre []).loggedChars ≤ logBufSize → ConsolesAgree (printRegisterPrint loglevel pre post) := by
  intro h
  obtain ⟨late, early, hboth, hout⟩ := h 7 [returnMessage] [] (by decide)
  rw [consoles_returnMessage] at hboth
  cases hboth
  exact absurd hout (by decide)

/-- A line that ends in a newline. -/
def lineMessage : Message where
  text := ['a', '\n']
  fits := by decide

/-- The consoles agree where all lines end in newlines. -/
theorem consoles_agree_iff_line : ConsolesAgree (printRegisterPrint 7 [lineMessage] [lineMessage]) := by
  have hroom : ∀ loglevel, (printRegisterPrint loglevel [lineMessage] []).loggedChars = 5 := fun _ => rfl
  exact (consoles_agree_iff [lineMessage] [lineMessage] fun loglevel => by rw [hroom]; decide).2 (by decide) 7

end BootPerl
