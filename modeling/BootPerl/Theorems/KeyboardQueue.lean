import BootPerl.Theorems.KeyboardDelivery

/-!
# The keyboard buffer as a queue

With no interrupt inside a call, `add_buffer` and `get_buffer` are the operations of a queue with room for `BUFFER_SIZE` characters
that drops its oldest. The start index counts up for ever and wraps at 2 ^ 32, which is a multiple of the number of slots.
-/

namespace BootPerl

/-- A call of `add_buffer` or `get_buffer`. -/
inductive BufferCall where
  | add (c : Char)
  | get
  deriving DecidableEq, Repr

/-- The index that `add_buffer` writes to. -/
def addSlot (s : Keyboard) : Nat := ulong (s.bufferStart + s.bufferSize) % bufferSize

/-- The length that `buffer` is declared with. -/
def bufferLength : Nat := bufferSize + 1

/-- The keyboard, what the calls of `get_buffer` returned, and the indices written to. -/
structure BufferRun where
  kbd : Keyboard
  returned : List Char
  slots : List Nat

namespace BufferRun

/-- One call. -/
def call (t : BufferRun) : BufferCall → BufferRun
  | .add c => { t with kbd := addBuffer t.kbd c, slots := t.slots ++ [addSlot t.kbd] }
  | .get => { t with kbd := (getBuffer t.kbd).1, returned := t.returned ++ [(getBuffer t.kbd).2] }

/-- From boot on. -/
def run (calls : List BufferCall) : BufferRun := calls.foldl call ⟨Keyboard.boot, [], []⟩

end BufferRun

/-! ## The queue -/

/-- The characters pending, and what was returned: zero stands for none. -/
structure QueueRun where
  pending : List Char
  returned : List Char
  deriving DecidableEq, Repr

namespace QueueRun

/-- One call. -/
def call (q : QueueRun) : BufferCall → QueueRun
  | .add c => { q with pending := addRecent bufferSize q.pending c }
  | .get => { pending := q.pending.tail, returned := q.returned ++ [q.pending.headD (Char.ofNat 0)] }

/-- From an empty queue on. -/
def run (calls : List BufferCall) : QueueRun := calls.foldl call ⟨[], []⟩

end QueueRun

/-! ## The buffer holds the queue -/

section
variable {s : Keyboard} {l : List Char}

/-- `add_buffer` writes to one slot of the buffer. -/
theorem addBuffer_buffer (s : Keyboard) (c : Char) : (addBuffer s c).buffer = Function.update s.buffer (addSlot s) c := by
  unfold addBuffer addSlot
  dsimp only
  split <;> rfl

theorem addSlot_lt (s : Keyboard) : addSlot s < bufferLength := Nat.lt_succ_of_lt (Nat.mod_lt _ (Nat.succ_pos 16383))

/-- `add_buffer` adds to the queue, whether or not there is room. -/
theorem Buffered.addRecent (h : Buffered s l) (hle : l.length ≤ bufferSize) (c : Char) :
    Buffered (BootPerl.addBuffer s c) (BootPerl.addRecent bufferSize l c) := by
  have hchars := h.chars.addRecent hle (Nat.succ_pos 16383) c
  unfold BootPerl.addRecent at hchars ⊢
  by_cases hroom : l.length < bufferSize
  · rw [if_pos hroom]
    exact h.addBuffer hroom c
  · rw [if_neg hroom, if_neg hroom] at hchars
    rw [if_neg hroom]
    unfold BootPerl.addBuffer
    dsimp only
    rw [h.size, if_neg hroom]
    have hslot : ulong (s.bufferStart + l.length) % bufferSize = (s.bufferStart + l.length) % bufferSize := ulong_mod _
    refine ⟨?_, ?_⟩
    · change l.length = (l.tail ++ [c]).length
      rw [List.length_append, List.length_tail, List.length_singleton]
      have hpos : 0 < bufferSize := Nat.succ_pos 16383
      omega
    · rw [hslot]
      exact hchars.congr_start (ulong_mod _)

/-- `get_buffer` takes the first of the queue, or returns zero. -/
theorem Buffered.getBuffer (h : Buffered s l) (hle : l.length ≤ bufferSize) :
    Buffered (BootPerl.getBuffer s).1 l.tail ∧ (BootPerl.getBuffer s).2 = l.headD (Char.ofNat 0) := by
  unfold BootPerl.getBuffer
  rw [h.size]
  cases l with
  | nil => exact ⟨h, rfl⟩
  | cons c l =>
    rw [List.length_cons, if_neg (Nat.succ_ne_zero l.length)]
    have hsize : (advanceStart s).bufferSize = l.length + 1 := h.size
    refine ⟨⟨bufferSize_shrinkBuffer hsize hle, ?_⟩, h.chars.head⟩
    rw [shrinkBuffer_buffer, shrinkBuffer_bufferStart]
    exact circular_advanceStart h.chars

end

/-- A run of the buffer simulates a run of the queue, and has written to slots of the buffer only. -/
structure Simulates (t : BufferRun) (q : QueueRun) : Prop where
  held : Buffered t.kbd q.pending
  bounded : q.pending.length ≤ bufferSize
  returned : t.returned = q.returned
  inside : ∀ i ∈ t.slots, i < bufferLength

theorem Simulates.call {t : BufferRun} {q : QueueRun} (h : Simulates t q) (e : BufferCall) : Simulates (t.call e) (q.call e) := by
  cases e with
  | add c =>
    refine ⟨h.held.addRecent h.bounded c, length_addRecent_le h.bounded (Nat.succ_pos 16383) c, h.returned, fun i hi => ?_⟩
    rcases List.mem_append.1 hi with hi | hi
    · exact h.inside i hi
    · rw [List.mem_singleton.1 hi]
      exact addSlot_lt t.kbd
  | get =>
    obtain ⟨hheld, hchar⟩ := h.held.getBuffer h.bounded
    refine ⟨hheld, ?_, ?_, h.inside⟩
    · exact Nat.le_trans (by rw [QueueRun.call, List.length_tail]; exact Nat.sub_le _ _) h.bounded
    · change t.returned ++ [(BootPerl.getBuffer t.kbd).2] = q.returned ++ [q.pending.headD (Char.ofNat 0)]
      rw [hchar, h.returned]

theorem Simulates.run (calls : List BufferCall) : ∀ {t : BufferRun} {q : QueueRun}, Simulates t q →
    Simulates (calls.foldl BufferRun.call t) (calls.foldl QueueRun.call q) := by
  induction calls with
  | nil => exact fun h => h
  | cons e calls ih => exact fun h => ih (h.call e)

/-- Whatever the calls are, `get_buffer` returns what the queue returns, and each `add_buffer` writes one slot, which lies inside the
buffer. -/
theorem buffer_refines_queue (calls : List BufferCall) :
    (BufferRun.run calls).returned = (QueueRun.run calls).returned ∧
      Buffered (BufferRun.run calls).kbd (QueueRun.run calls).pending ∧
      (∀ s c, (addBuffer s c).buffer = Function.update s.buffer (addSlot s) c) ∧
      ∀ i ∈ (BufferRun.run calls).slots, i < bufferLength := by
  have hboot : Simulates ⟨Keyboard.boot, [], []⟩ ⟨[], []⟩ :=
    ⟨⟨rfl, circular_nil⟩, Nat.zero_le _, rfl, fun i hi => absurd hi List.not_mem_nil⟩
  have hrun := Simulates.run calls hboot
  exact ⟨hrun.returned, hrun.held, addBuffer_buffer, hrun.inside⟩

end BootPerl
