import BootPerl.Keyboard
import BootPerl.Lib.Circular
import BootPerl.Lib.Run

/-!
# Characters from the keyboard to a reader, over whole runs

One reader runs `get_buffer` step by step, and an interrupt adds a character between any two of its steps. The reader gets the
characters that were added, in order, as long as no interrupt comes between `buffer_start++` and `buffer_size--`: there the two
variables together point one slot past the end of what is pending.
-/

namespace BootPerl

/-- How far the reader is in `get_buffer`: outside, past the test of `buffer_size`, past the read, past `buffer_start++`. -/
inductive Reading where
  | outside
  | tested
  | read (c : Char)
  | advanced (c : Char)
  deriving DecidableEq, Repr

/-- The keyboard and its reader, the characters added, and those returned by completed calls that found one. -/
structure Delivery where
  kbd : Keyboard
  reader : Reading
  added : List Char
  returned : List Char

/-- At boot. -/
def Delivery.boot : Delivery where
  kbd := Keyboard.boot
  reader := .outside
  added := []
  returned := []

/-- How many characters are pending. -/
def Delivery.pending (s : Delivery) : Nat := s.added.length - s.returned.length

/-- Whose step it is. -/
inductive DeliveryEvent where
  | interrupt (c : Char)
  | reader
  deriving DecidableEq, Repr

/-- An interrupt, or the next step of the reader. -/
inductive DeliveryStep (s : Delivery) : DeliveryEvent → Delivery → Prop where
  | interrupt {c : Char} : DeliveryStep s (.interrupt c) { s with kbd := addBuffer s.kbd c, added := s.added ++ [c] }
  | empty : s.reader = .outside → s.kbd.bufferSize = 0 → DeliveryStep s .reader s
  | test : s.reader = .outside → s.kbd.bufferSize ≠ 0 → DeliveryStep s .reader { s with reader := .tested }
  | read : s.reader = .tested → DeliveryStep s .reader { s with reader := .read (readBuffer s.kbd) }
  | advance {c : Char} : s.reader = .read c →
      DeliveryStep s .reader { s with kbd := advanceStart s.kbd, reader := .advanced c }
  | shrink {c : Char} : s.reader = .advanced c →
      DeliveryStep s .reader { s with kbd := shrinkBuffer s.kbd, reader := .outside, returned := s.returned ++ [c] }

/-- No interrupt comes between `buffer_start++` and `buffer_size--`. -/
def Consistent (s : Delivery) (e : DeliveryEvent) : Prop := ∀ c, e = .interrupt c → ∀ d, s.reader ≠ .advanced d

/-! ## The buffer -/

theorem ulong_mod (n : Nat) : ulong n % bufferSize = n % bufferSize := Nat.mod_mod_of_dvd n (by decide)

/-- The buffer holds the characters of a list, oldest first. -/
structure Buffered (s : Keyboard) (l : List Char) : Prop where
  size : s.bufferSize = l.length
  chars : Circular s.buffer bufferSize s.bufferStart l

/-- `add_buffer` adds a character to the list, if there is room. -/
theorem Buffered.addBuffer {s : Keyboard} {l : List Char} (h : Buffered s l) (hroom : l.length < bufferSize) (c : Char) :
    Buffered (BootPerl.addBuffer s c) (l ++ [c]) := by
  have hlt : s.bufferSize < bufferSize := by rw [h.size]; exact hroom
  unfold BootPerl.addBuffer
  dsimp only
  rw [if_pos hlt, ulong_mod, h.size]
  refine ⟨?_, h.chars.push hroom c⟩
  rw [List.length_append, List.length_singleton]

/-- `buffer_start++` leaves the list without its first character. -/
theorem circular_advanceStart {s : Keyboard} {c : Char} {l : List Char} (h : Circular s.buffer bufferSize s.bufferStart (c :: l)) :
    Circular (advanceStart s).buffer bufferSize (advanceStart s).bufferStart l :=
  h.tail.congr_start (ulong_mod _)

theorem shrinkBuffer_buffer (s : Keyboard) : (shrinkBuffer s).buffer = s.buffer := by
  unfold shrinkBuffer
  rfl

theorem shrinkBuffer_bufferStart (s : Keyboard) : (shrinkBuffer s).bufferStart = s.bufferStart := by
  unfold shrinkBuffer
  rfl

/-- `buffer_size--`. -/
theorem bufferSize_shrinkBuffer {s : Keyboard} {n : Nat} (hn : s.bufferSize = n + 1) (hlt : n < bufferSize) :
    (shrinkBuffer s).bufferSize = n := by
  have hn32 : n < 4294967296 := Nat.lt_trans hlt (by decide)
  unfold shrinkBuffer ulong
  dsimp only
  omega

/-! ## The reader -/

/-- The characters that were added and not yet returned lie in the buffer, up to the one the reader has read. -/
def Holding (s : Delivery) (l : List Char) : Prop :=
  match s.reader with
  | .outside => Buffered s.kbd l
  | .tested => Buffered s.kbd l ∧ l ≠ []
  | .read c => Buffered s.kbd l ∧ l.head? = some c
  | .advanced c => ∃ rest, l = c :: rest ∧ s.kbd.bufferSize = l.length ∧ Circular s.kbd.buffer bufferSize s.kbd.bufferStart rest

/-- What was added is what was returned and what is held, and there is room for more. -/
structure DeliveryInv (s : Delivery) : Prop where
  held : ∃ l, s.added = s.returned ++ l ∧ Holding s l
  bounded : s.pending < bufferSize

/-- An interrupt outside the gap adds its character to what is held. -/
theorem Holding.interrupt {s : Delivery} {l : List Char} (h : Holding s l) (hout : ∀ d, s.reader ≠ .advanced d)
    (hroom : l.length < bufferSize) (c : Char) :
    Holding { s with kbd := addBuffer s.kbd c, added := s.added ++ [c] } (l ++ [c]) := by
  unfold Holding at h ⊢
  dsimp only
  cases hr : s.reader with
  | outside =>
    rw [hr] at h
    exact h.addBuffer hroom c
  | tested =>
    rw [hr] at h
    exact ⟨h.1.addBuffer hroom c, by simp⟩
  | read d =>
    rw [hr] at h
    refine ⟨h.1.addBuffer hroom c, ?_⟩
    rw [List.head?_append, h.2]
    rfl
  | advanced d => exact absurd hr (hout d)

theorem DeliveryInv.step {s s' : Delivery} {e : DeliveryEvent} (h : DeliveryInv s) (hstep : DeliveryStep s e s')
    (hbound : s'.pending < bufferSize) (hcons : Consistent s e) : DeliveryInv s' := by
  obtain ⟨⟨l, hadded, hhold⟩, hpending⟩ := h
  have hlen : l.length < bufferSize := by
    rw [Delivery.pending, hadded, List.length_append, Nat.add_sub_cancel_left] at hpending
    exact hpending
  refine ⟨?_, hbound⟩
  cases hstep with
  | @interrupt c =>
    refine ⟨l ++ [c], ?_, hhold.interrupt (hcons c rfl) hlen c⟩
    dsimp only
    rw [hadded, List.append_assoc]
  | empty => exact ⟨l, hadded, hhold⟩
  | test hr hne =>
    rw [Holding, hr] at hhold
    refine ⟨l, hadded, hhold, ?_⟩
    rintro rfl
    exact hne hhold.size
  | read hr =>
    rw [Holding, hr] at hhold
    obtain ⟨hbuf, hne⟩ := hhold
    refine ⟨l, hadded, hbuf, ?_⟩
    cases l with
    | nil => exact absurd rfl hne
    | cons c l => rw [readBuffer, hbuf.chars.head]; rfl
  | @advance d hr =>
    rw [Holding, hr] at hhold
    obtain ⟨hbuf, hhead⟩ := hhold
    cases l with
    | nil => cases hhead
    | cons c l =>
      obtain rfl : c = d := Option.some.inj hhead
      exact ⟨c :: l, hadded, l, rfl, hbuf.size, circular_advanceStart hbuf.chars⟩
  | shrink hr =>
    rw [Holding, hr] at hhold
    obtain ⟨rest, rfl, hsize, hchars⟩ := hhold
    rw [List.length_cons] at hsize hlen
    have hlt : rest.length < bufferSize := Nat.lt_trans (Nat.lt_succ_self rest.length) hlen
    have hshrink : (shrinkBuffer s.kbd).bufferSize = rest.length := bufferSize_shrinkBuffer hsize hlt
    have hbuf : Buffered (shrinkBuffer s.kbd) rest := ⟨hshrink, by rw [shrinkBuffer_buffer, shrinkBuffer_bufferStart]; exact hchars⟩
    refine ⟨rest, ?_, hbuf⟩
    dsimp only
    rw [hadded, List.append_assoc]
    rfl

/-- With no interrupt in between, the steps of the reader are `get_buffer`. -/
theorem getBuffer_steps {s : Delivery} (hr : s.reader = .outside) (hne : s.kbd.bufferSize ≠ 0) :
    ∃ s₁ s₂ s₃, DeliveryStep s .reader s₁ ∧ DeliveryStep s₁ .reader s₂ ∧ DeliveryStep s₂ .reader s₃ ∧ DeliveryStep s₃ .reader
      { s with kbd := (getBuffer s.kbd).1, reader := .outside, returned := s.returned ++ [(getBuffer s.kbd).2] } := by
  rw [getBuffer, if_neg hne]
  exact ⟨_, _, _, .test hr hne, .read rfl, .advance rfl, .shrink rfl⟩

/-- In every run in which fewer characters than the buffer has slots are ever pending and no interrupt comes between
`buffer_start++` and `buffer_size--`, the reader gets the characters that were added, in order and from the first. -/
theorem delivered_prefix {s : Delivery} (h : Reach (· = Delivery.boot)
    (fun s s' => ∃ e, DeliveryStep s e s' ∧ s'.pending < bufferSize ∧ Consistent s e) s) : s.returned <+: s.added := by
  have hinv : DeliveryInv s := h.invariant
    (by
      rintro s rfl
      exact ⟨⟨[], rfl, rfl, circular_nil⟩, Nat.succ_pos 16383⟩)
    (by
      rintro s s' hs ⟨e, hstep, hbound, hcons⟩
      exact hs.step hstep hbound hcons)
  obtain ⟨l, hadded, -⟩ := hinv.held
  exact ⟨l, hadded.symm⟩

/-! ## Two runs -/

/-- A run in which fewer characters than the buffer has slots are ever pending. -/
def BoundedStep (s s' : Delivery) : Prop := ∃ e, DeliveryStep s e s' ∧ s'.pending < bufferSize

/-- Where few characters were added, few are pending. -/
theorem pending_lt {s : Delivery} (h : s.added.length ≤ 2) : s.pending < bufferSize :=
  Nat.lt_of_le_of_lt (Nat.le_trans (Nat.sub_le _ _) h) (Nat.succ_lt_succ (Nat.succ_lt_succ (Nat.succ_pos 16381)))

/-- A character is typed and read. -/
def readDelivery : Delivery :=
  { kbd := (getBuffer (addBuffer Keyboard.boot 'a')).1, reader := .outside, added := ['a'], returned := ['a'] }

/-- The character that was typed is the one read. -/
theorem delivered_prefix_read : readDelivery.returned <+: readDelivery.added := by
  have hfree : ∀ s, Consistent s .reader := fun s c hc => nomatch hc
  have h0 : Reach (· = Delivery.boot) (fun s s' => ∃ e, DeliveryStep s e s' ∧ s'.pending < bufferSize ∧ Consistent s e)
    Delivery.boot := .init rfl
  have h1 := h0.step ⟨.interrupt 'a', .interrupt, pending_lt (by decide), fun c _ d hd => nomatch hd⟩
  have h2 := h1.step ⟨.reader, .test rfl (by decide), pending_lt (by decide), hfree _⟩
  have h3 := h2.step ⟨.reader, .read rfl, pending_lt (by decide), hfree _⟩
  have h4 := h3.step ⟨.reader, .advance rfl, pending_lt (by decide), hfree _⟩
  have h5 := h4.step ⟨.reader, .shrink rfl, pending_lt (by decide), hfree _⟩
  exact delivered_prefix h5

/-- `b` is typed while the reader of `a` is between `buffer_start++` and `buffer_size--`: the next character read is one that was
never typed. -/
theorem delivered_prefix_false : ∃ s, Reach (· = Delivery.boot) BoundedStep s ∧ s.added = ['a', 'b'] ∧
    s.returned = ['a', Char.ofNat 0] ∧ ¬s.returned <+: s.added := by
  have h0 : Reach (· = Delivery.boot) BoundedStep Delivery.boot := .init rfl
  have h1 := h0.step ⟨.interrupt 'a', .interrupt, pending_lt (by decide)⟩
  have h2 := h1.step ⟨.reader, .test rfl (by decide), pending_lt (by decide)⟩
  have h3 := h2.step ⟨.reader, .read rfl, pending_lt (by decide)⟩
  have h4 := h3.step ⟨.reader, .advance rfl, pending_lt (by decide)⟩
  have h5 := h4.step ⟨.interrupt 'b', .interrupt, pending_lt (by decide)⟩
  have h6 := h5.step ⟨.reader, .shrink rfl, pending_lt (by decide)⟩
  have h7 := h6.step ⟨.reader, .test rfl (by decide), pending_lt (by decide)⟩
  have h8 := h7.step ⟨.reader, .read rfl, pending_lt (by decide)⟩
  have h9 := h8.step ⟨.reader, .advance rfl, pending_lt (by decide)⟩
  have h10 := h9.step ⟨.reader, .shrink rfl, pending_lt (by decide)⟩
  exact ⟨_, h10, rfl, by decide, by decide⟩

end BootPerl
