import BootPerl.Lib.Words
import BootPerl.Switch

/-!
# The stack through the context switch

What each piece of the assembly does to the words on the stack, and which memory it writes. The save half of `switch_to` leaves
thirteen words on the stack of the task it leaves, and the other half takes them off again.
-/

namespace BootPerl

/-! ### Addresses -/

theorem toNat_add {a n : UInt32} (h : a.toNat + n.toNat < 4294967296) : (a + n).toNat = a.toNat + n.toNat := by
  rw [UInt32.toNat_add]
  exact Nat.mod_eq_of_lt h

theorem toNat_sub {a n : UInt32} (h : n.toNat ≤ a.toNat) : (a - n).toNat = a.toNat - n.toNat :=
  UInt32.toNat_sub_of_le _ _ (UInt32.le_iff_toNat_le.2 h)

/-- A window of memory. -/
def window (a n : Nat) : Set Nat := {x | a ≤ x ∧ x < a + n}

/-- A store within a window. -/
theorem Mem.Frame.store_window {m : Mem} {a n b k v : Nat} (h1 : a ≤ b) (h2 : b + k ≤ a + n) :
    Mem.Frame (window a n) m (m.store b k v) :=
  Mem.Frame.store fun _ hx hx' => ⟨Nat.le_trans h1 hx, Nat.lt_of_lt_of_le hx' h2⟩

theorem Words.of_frame {X : Set Nat} {m m' : Mem} {a : Nat} {ws : List UInt32} (h : Words m a ws) (hf : Mem.Frame X m m')
    (hout : ∀ x ∈ window a (4 * ws.length), x ∉ X) : Words m' a ws :=
  h.congr fun x hx hx' => (hf x (hout x ⟨hx, hx'⟩)).1

/-- Two memories with the same words have the same bytes there. -/
theorem byte_of_words {m m' : Mem} {ws : List UInt32} :
    ∀ {a : Nat}, Words m a ws → Words m' a ws → ∀ x ∈ window a (4 * ws.length), m'.byte x = m.byte x := by
  induction ws with
  | nil =>
    intro a _ _ x hx
    have := hx.1
    have := hx.2
    rw [List.length_nil] at this
    omega
  | cons w ws ih =>
    intro a h h' x hx
    have hx1 := hx.1
    have hx2 := hx.2
    rw [List.length_cons] at hx2
    by_cases hlow : x < a + 4
    · exact byte_of_load (h'.1.trans h.1.symm) hx1 hlow
    · exact ih h.2 h'.2 x ⟨by omega, by omega⟩

namespace Machine

/-- The stack is at `S`, holds the words `ws` first, and they end below the end of memory. -/
structure StackAt (m : Machine) (S : Nat) (ws : List UInt32) : Prop where
  esp : m.esp.toNat = S
  words : Words m.mem S ws
  room : S + 4 * ws.length < 4294967296

variable {m : Machine} {S : Nat} {w : UInt32} {ws : List UInt32}

theorem word_of_load {a v : UInt32} (h : m.mem.load a.toNat 4 = v.toNat) : m.word a = v := by
  unfold word
  rw [h, UInt32.ofNat_toNat]

theorem word_toNat (m : Machine) (a : UInt32) : (m.word a).toNat = m.mem.load a.toNat 4 :=
  UInt32.toNat_ofNat_of_lt' (Mem.load_four_lt _ _)

theorem StackAt.top (h : StackAt m S (w :: ws)) : m.top = w := by
  refine word_of_load ?_
  rw [h.esp]
  exact h.words.1

/-- A word of the stack, at an offset from its top. -/
theorem StackAt.get (h : StackAt m S ws) {i : Nat} (hi : i < ws.length) {n : UInt32} (hn : n.toNat = 4 * i) :
    (m.esp + n).toNat = S + 4 * i ∧ m.word (m.esp + n) = ws.get ⟨i, hi⟩ := by
  have hroom := h.room
  have hesp := h.esp
  have ha : (m.esp + n).toNat = S + 4 * i := by
    rw [toNat_add (by omega), hesp, hn]
  refine ⟨ha, word_of_load ?_⟩
  rw [ha]
  exact h.words.get hi

theorem StackAt.drop (h : StackAt m S (w :: ws)) : StackAt (m.drop 4) (S + 4) ws := by
  have hroom := h.room
  have hesp := h.esp
  have h4 : (4 : UInt32).toNat = 4 := rfl
  rw [List.length_cons] at hroom
  refine ⟨?_, h.words.2, by omega⟩
  unfold Machine.drop
  dsimp only
  rw [toNat_add (by omega), hesp, h4]

theorem StackAt.push (h : StackAt m (S + 4) ws) (v : UInt32) :
    StackAt (m.push v) S (v :: ws) ∧ Mem.Frame (window S 4) m.mem (m.push v).mem := by
  have hroom := h.room
  have hesp := h.esp
  have h4 : (4 : UInt32).toNat = 4 := rfl
  have hS : (m.esp - 4).toNat = S := by
    rw [toNat_sub (by omega), hesp, h4, Nat.add_sub_cancel]
  refine ⟨⟨hS, ?_, ?_⟩, ?_⟩
  · unfold Machine.push
    dsimp only
    rw [hS]
    exact h.words.push v
  · rw [List.length_cons]
    omega
  · unfold Machine.push
    dsimp only
    rw [hS]
    exact Mem.Frame.store fun x h1 h2 => ⟨h1, h2⟩

/-- A push leaves the other registers. -/
theorem push_eq (m : Machine) (v : UInt32) : m.push v = { m with esp := (m.push v).esp, mem := (m.push v).mem } := rfl

/-- `SAVE_ALL` leaves the registers but for those that it loads for the kernel. -/
theorem saveAll_eq (m : Machine) : m.saveAll =
    { m with
      edx := 0x18, ds := 0x18, es := 0x18, eflags := m.eflags &&& 0xfffffbff#32, esp := m.saveAll.esp,
      mem := m.saveAll.mem } := by
  simp only [saveAll, push]
  rfl

/-- So does the whole save half. -/
theorem saveTask_eq (m : Machine) : m.saveTask =
    { m with
      edx := 0x18, ds := 0x18, es := 0x18, eflags := m.eflags &&& 0xfffffbff#32, esp := m.saveTask.esp,
      mem := m.saveTask.mem } := by
  simp only [saveTask, setWord]
  rw [push_eq, saveAll_eq]

/-- Only the stack pointer and the memory matter. -/
theorem StackAt.congr {m' : Machine} (h : StackAt m S ws) (he : m'.esp = m.esp) (hm : m'.mem = m.mem) : StackAt m' S ws :=
  ⟨he ▸ h.esp, hm ▸ h.words, h.room⟩

/-- Push words one after the other. -/
def pushAll (m : Machine) (vs : List UInt32) : Machine := vs.foldl push m

theorem StackAt.pushAll (vs : List UInt32) : ∀ {m : Machine} {ws : List UInt32}, StackAt m (S + 4 * vs.length) ws →
    StackAt (m.pushAll vs) S (vs.reverse ++ ws) ∧ Mem.Frame (window S (4 * vs.length)) m.mem (m.pushAll vs).mem := by
  induction vs with
  | nil => intro m ws h; exact ⟨h, Mem.Frame.refl _ _⟩
  | cons v vs ih =>
    intro m ws h
    rw [List.length_cons] at h ⊢
    have hS : S + 4 * (vs.length + 1) = S + 4 * vs.length + 4 := by omega
    rw [hS] at h
    obtain ⟨hpush, hframe⟩ := h.push v
    obtain ⟨hrest, hframe'⟩ := ih hpush
    refine ⟨?_, (hframe.mono fun x hx => ?_).trans (hframe'.mono fun x hx => ?_)⟩
    · rw [List.reverse_cons, List.append_assoc]
      exact hrest
    · have h1 := hx.1
      have h2 := hx.2
      exact ⟨by omega, by omega⟩
    · have h1 := hx.1
      have h2 := hx.2
      exact ⟨by omega, by omega⟩

/-- The words that `SAVE_ALL` leaves, from the top. -/
def saved (m : Machine) : List UInt32 := [m.ebx, m.ecx, m.edx, m.esi, m.edi, m.ebp, m.eax, m.ds.toUInt32, m.es.toUInt32]

/-- `SAVE_ALL` pushes the registers. -/
theorem saveAll_spec (h : StackAt m (S + 36) ws) :
    StackAt m.saveAll S (m.saved ++ ws) ∧ Mem.Frame (window S 36) m.mem m.saveAll.mem := by
  have hall := StackAt.pushAll (S := S) [m.es.toUInt32, m.ds.toUInt32, m.eax, m.ebp, m.edi, m.esi, m.edx, m.ecx, m.ebx] h
  have hesp : m.saveAll.esp = (m.pushAll [m.es.toUInt32, m.ds.toUInt32, m.eax, m.ebp, m.edi, m.esi, m.edx, m.ecx, m.ebx]).esp := by
    unfold saveAll pushAll push
    simp only [List.foldl_cons, List.foldl_nil]
  have hmem : m.saveAll.mem = (m.pushAll [m.es.toUInt32, m.ds.toUInt32, m.eax, m.ebp, m.edi, m.esi, m.edx, m.ecx, m.ebx]).mem := by
    unfold saveAll pushAll push
    simp only [List.foldl_cons, List.foldl_nil]
  refine ⟨hall.1.congr hesp hmem, ?_⟩
  rw [hmem]
  exact hall.2

theorem drop_mem (m : Machine) (n : UInt32) : (m.drop n).mem = m.mem := rfl

/-- `RESTORE_ALL` pops the registers. -/
theorem restoreAll_eq (m : Machine) : m.restoreAll =
    { m with
      ebx := m.top, ecx := (m.drop 4).top, edx := ((m.drop 4).drop 4).top, esi := (((m.drop 4).drop 4).drop 4).top,
      edi := ((((m.drop 4).drop 4).drop 4).drop 4).top, ebp := (((((m.drop 4).drop 4).drop 4).drop 4).drop 4).top,
      eax := ((((((m.drop 4).drop 4).drop 4).drop 4).drop 4).drop 4).top,
      ds := (((((((m.drop 4).drop 4).drop 4).drop 4).drop 4).drop 4).drop 4).top.toUInt16,
      es := ((((((((m.drop 4).drop 4).drop 4).drop 4).drop 4).drop 4).drop 4).drop 4).top.toUInt16,
      esp := (((((((((m.drop 4).drop 4).drop 4).drop 4).drop 4).drop 4).drop 4).drop 4).drop 4).esp } := by
  simp only [restoreAll, drop, top, word]

/-- The registers that `RESTORE_ALL` pops are those that `SAVE_ALL` pushed. -/
theorem restoreAll_spec {b c d si di bp a ds es : UInt32} (h : StackAt m S ([b, c, d, si, di, bp, a, ds, es] ++ ws)) :
    StackAt m.restoreAll (S + 36) ws ∧ m.restoreAll =
      { m with
        ebx := b, ecx := c, edx := d, esi := si, edi := di, ebp := bp, eax := a, ds := ds.toUInt16, es := es.toUInt16,
        esp := m.restoreAll.esp } := by
  have h1 := h.drop
  have h2 := h1.drop
  have h3 := h2.drop
  have h4 := h3.drop
  have h5 := h4.drop
  have h6 := h5.drop
  have h7 := h6.drop
  have h8 := h7.drop
  refine ⟨h8.drop.congr (by simp only [restoreAll_eq]) (by simp only [restoreAll_eq, drop_mem]), ?_⟩
  rw [restoreAll_eq, h.top, h1.top, h2.top, h3.top, h4.top, h5.top, h6.top, h7.top, h8.top]

/-- A store to a word of the stack. -/
theorem StackAt.set (h : StackAt m S ws) {i : Nat} (hi : i < ws.length) {n : UInt32} (hn : n.toNat = 4 * i) (v : UInt32) :
    StackAt (m.setWord (m.esp + n) v) S (ws.set i v) ∧
      Mem.Frame (window (S + 4 * i) 4) m.mem (m.setWord (m.esp + n) v).mem := by
  have ha := (h.get hi hn).1
  refine ⟨⟨h.esp, ?_, by rw [List.length_set]; exact h.room⟩, ?_⟩
  · unfold setWord
    dsimp only
    rw [ha]
    exact h.words.set v hi
  · unfold setWord
    dsimp only
    rw [ha]
    exact Mem.Frame.store fun x h1 h2 => ⟨h1, h2⟩

/-- The two arguments of `switch_to` are exchanged with `ebp` and `ebx`. -/
theorem swapArgs_spec {r a b : UInt32} (h : StackAt m S (r :: a :: b :: ws)) :
    StackAt m.swapArgs S (r :: m.ebp :: m.ebx :: ws) ∧ Mem.Frame (window (S + 4) 8) m.mem m.swapArgs.mem ∧
      m.swapArgs = { m with ebp := a, ebx := b, mem := m.swapArgs.mem } := by
  have h1 : 1 < (r :: a :: b :: ws).length := Nat.lt_of_sub_pos (Nat.succ_pos _)
  have h2 : 2 < (r :: m.ebp :: b :: ws).length := Nat.lt_of_sub_pos (Nat.succ_pos _)
  obtain ⟨hset, hframe⟩ := h.set h1 (n := 0x04) rfl m.ebp
  have ha := (h.get h1 (n := 0x04) rfl).2
  have hmid : StackAt { m.setWord (m.esp + 0x04) m.ebp with ebp := m.word (m.esp + 0x04) } S (r :: m.ebp :: b :: ws) :=
    hset.congr rfl rfl
  obtain ⟨hset', hframe'⟩ := hmid.set h2 (n := 0x08) rfl m.ebx
  have hb := (hmid.get h2 (n := 0x08) rfl).2
  refine ⟨hset'.congr rfl rfl, (hframe.mono fun x hx => ?_).trans (hframe'.mono fun x hx => ?_), ?_⟩
  · exact ⟨hx.1, Nat.lt_of_lt_of_le hx.2 (Nat.add_le_add_left (by decide) _)⟩
  · exact ⟨Nat.le_trans (Nat.add_le_add_left (by decide) _) hx.1, hx.2⟩
  · have hswap : m.swapArgs =
        { m with
          ebp := m.word (m.esp + 0x04)
          ebx := ({ m.setWord (m.esp + 0x04) m.ebp with ebp := m.word (m.esp + 0x04) } : Machine).word (m.esp + 0x08)
          mem := m.swapArgs.mem } := rfl
    rw [hswap, ha]
    exact congrArg (fun x => ({ m with ebp := a, ebx := x, mem := m.swapArgs.mem } : Machine)) hb

theorem ret_spec {r : UInt32} (h : StackAt m S (r :: ws)) :
    StackAt m.ret (S + 4) ws ∧ m.ret = { m with eip := r, esp := m.ret.esp } := by
  refine ⟨h.drop.congr rfl rfl, ?_⟩
  rw [← h.top]
  rfl

/-! ### The two halves of `switch_to` -/

/-- A task switched out: the processor when it called `switch_to`, and where the part of its stack ends that is its own. -/
structure Snapshot where
  entry : Machine
  top : Nat

/-- The memory that belongs to a task switched out: its stack from the saved registers on, and its `esp` and `ss`. -/
def region (t : UInt32) (c : Snapshot) : Set Nat :=
  {x | c.entry.esp.toNat ≤ x + 40 ∧ x < c.top} ∪ window (t.toNat + 0x10) 6

/-- `switch_to(next, prev)` is called, with room on the stack and the task apart from it. -/
structure Called (c : Snapshot) (next prev : UInt32) : Prop where
  stack : StackAt c.entry c.entry.esp.toNat [c.entry.top, next, prev]
  low : 40 ≤ c.entry.esp.toNat
  high : c.entry.esp.toNat + 12 ≤ c.top
  task : prev.toNat + 0x40 ≤ 4294967296
  apart : prev.toNat + 0x16 + 40 ≤ c.entry.esp.toNat ∨ c.top ≤ prev.toNat + 0x10

/-- The words that `switch_to` leaves on the stack of `prev`: the flag for the way back, the registers, and below them what the
call has put there, with `ebp` and `ebx` in the place of the arguments. -/
def leftWords (e : Machine) (next prev : UInt32) : List UInt32 :=
  1 :: prev :: e.ecx :: e.edx :: e.esi :: e.edi :: next :: e.eax :: e.ds.toUInt32 :: e.es.toUInt32 :: e.top :: e.ebp :: e.ebx :: []

/-- What memory holds of a task switched out. -/
structure Saved (mem : Mem) (t : UInt32) (c : Snapshot) (next : UInt32) : Prop where
  esp : mem.load (t.toNat + 0x10) 4 = c.entry.esp.toNat - 40
  ss : mem.load (t.toNat + 0x14) 2 = c.entry.ss.toNat
  words : Words mem (c.entry.esp.toNat - 40) (leftWords c.entry next t)
  rest : ∀ x, c.entry.esp.toNat + 12 ≤ x → x < c.top → mem.byte x = c.entry.mem.byte x

/-- It depends on the memory of the task only. -/
theorem Saved.congr {mem mem' : Mem} {t next : UInt32} {c : Snapshot} (h : Saved mem t c next) (hc : Called c next t)
    (hb : ∀ x ∈ region t c, mem'.byte x = mem.byte x) : Saved mem' t c next := by
  have hlow := hc.low
  have hhigh := hc.high
  refine ⟨?_, ?_, h.words.congr fun x h1 h2 => hb x (Or.inl ⟨by omega, ?_⟩), fun x h1 h2 => ?_⟩
  · rw [Mem.load_congr fun x h1 h2 => hb x (Or.inr ⟨h1, by omega⟩)]
    exact h.esp
  · rw [Mem.load_congr fun x h1 h2 => hb x (Or.inr ⟨by omega, by omega⟩)]
    exact h.ss
  · have hlen : (leftWords c.entry next t).length = 13 := rfl
    rw [hlen] at h2
    omega
  · rw [hb x (Or.inl ⟨by omega, h2⟩)]
    exact h.rest x h1 h2

/-- `SAVE_ALL` and the flag, and then the stack pointer and the stack selector into the task. -/
theorem saveTask_mem {m : Machine} {S : Nat} {ws : List UInt32} {prev : UInt32} (h : StackAt m (S + 40) ws) (hprev : m.ebx = prev)
    (htask : prev.toNat + 0x40 ≤ 4294967296) :
    ∃ mem, m.saveTask.mem = (mem.store (prev.toNat + 0x10) 4 S).store (prev.toNat + 0x14) 2 m.ss.toNat ∧
      Words mem S (1 :: (m.saved ++ ws)) ∧ Mem.Frame (window S 40) m.mem mem := by
  obtain ⟨hsave, hframe⟩ := saveAll_spec (S := S + 4) h
  obtain ⟨hpush, hframe'⟩ := hsave.push (S := S) 1
  have h10 : (prev + 0x10).toNat = prev.toNat + 0x10 := toNat_add (Nat.lt_of_lt_of_le (Nat.add_lt_add_left (by decide) _) htask)
  have h14 : (prev + 0x14).toNat = prev.toNat + 0x14 := toNat_add (Nat.lt_of_lt_of_le (Nat.add_lt_add_left (by decide) _) htask)
  have hebx : (m.saveAll.push 1).ebx = prev := by rw [push_eq, saveAll_eq, hprev]
  have hss : (m.saveAll.push 1).ss = m.ss := by rw [push_eq, saveAll_eq]
  refine ⟨(m.saveAll.push 1).mem, ?_, hpush.words, (hframe.mono fun x hx => ?_).trans (hframe'.mono fun x hx => ?_)⟩
  · unfold saveTask setWord
    dsimp only
    rw [hebx, h10, h14, hpush.esp, hss]
  · exact ⟨Nat.le_trans (Nat.le_add_right S 4) hx.1, hx.2⟩
  · exact ⟨hx.1, Nat.lt_of_lt_of_le hx.2 (Nat.add_le_add_left (by decide) S)⟩

/-- The save half: the registers and the stack of the caller end up in its memory, and no other memory is written. -/
theorem saveTask_spec {c : Snapshot} {next prev : UInt32} (hc : Called c next prev) :
    Saved c.entry.swapArgs.saveTask.mem prev c next ∧ Mem.Frame (region prev c) c.entry.mem c.entry.swapArgs.saveTask.mem ∧
      c.entry.swapArgs.saveTask.ebp = next := by
  obtain ⟨hswap, hframe, heq⟩ := swapArgs_spec hc.stack
  have hlow := hc.low
  have hhigh := hc.high
  have hapart := hc.apart
  have hebx : c.entry.swapArgs.ebx = prev := by rw [heq]
  have hss : c.entry.swapArgs.ss = c.entry.ss := by rw [heq]
  have hS : c.entry.esp.toNat = c.entry.esp.toNat - 40 + 40 := (Nat.sub_add_cancel hlow).symm
  rw [hS] at hswap
  obtain ⟨mem, hmem, hwords, hframe'⟩ := saveTask_mem hswap hebx hc.task
  have hleft : 1 :: (c.entry.swapArgs.saved ++ [c.entry.top, c.entry.ebp, c.entry.ebx]) = leftWords c.entry next prev := by
    rw [heq]
    rfl
  rw [hleft] at hwords
  have hlen : (leftWords c.entry next prev).length = 13 := rfl
  have hfields : Mem.Frame (window (prev.toNat + 0x10) 6) mem c.entry.swapArgs.saveTask.mem := by
    rw [hmem]
    have h1 : Mem.Frame (window (prev.toNat + 0x10) 6) mem (mem.store (prev.toNat + 0x10) 4 (c.entry.esp.toNat - 40)) :=
      Mem.Frame.store fun x h1 h2 => ⟨h1, by omega⟩
    exact h1.trans (Mem.Frame.store fun x h1 h2 => ⟨by omega, by omega⟩)
  have hstack : Mem.Frame {x | c.entry.esp.toNat ≤ x + 40 ∧ x < c.entry.esp.toNat + 12} c.entry.mem mem := by
    refine (hframe.mono fun x hx => ?_).trans (hframe'.mono fun x hx => ?_)
    · have h1 := hx.1
      have h2 := hx.2
      exact ⟨by omega, by omega⟩
    · have h1 := hx.1
      have h2 := hx.2
      exact ⟨by omega, by omega⟩
  refine ⟨⟨?_, ?_, hwords.of_frame hfields fun x hx hin => ?_, fun x h1 h2 => ?_⟩, ?_, ?_⟩
  · rw [hmem, Mem.load_store_of_disjoint (by omega), Mem.load_store_four (by have := c.entry.esp.toNat_lt; omega)]
  · rw [hmem, hss, Mem.load_store_two c.entry.ss.toNat_lt]
  · rw [hlen] at hx
    have h1 := hx.1
    have h2 := hx.2
    have h3 := hin.1
    have h4 := hin.2
    omega
  · have hout : x ∉ window (prev.toNat + 0x10) 6 := by
      rintro ⟨h3, h4⟩
      omega
    have hout' : x ∉ {x | c.entry.esp.toNat ≤ x + 40 ∧ x < c.entry.esp.toNat + 12} := by
      rintro ⟨-, h4⟩
      omega
    rw [(hfields x hout).1, (hstack x hout').1]
  · refine (hstack.mono fun x hx => Or.inl ⟨hx.1, ?_⟩).trans (hfields.mono fun x hx => Or.inr hx)
    have h2 := hx.2
    omega
  · rw [saveTask_eq, heq]

/-! ### The way back -/

/-- The half of `switch_to` after the save. -/
def resume (m : Machine) : Machine :=
  let m := m.loadTask
  let m := { m with eax := m.top }.drop 4
  if m.eax = 0 then m.swapArgs.ret else m.restoreAll.swapArgs.ret

/-- The general registers but for the stack pointer, and the selectors of the data segments. -/
structure Regs where
  eax : UInt32
  ebx : UInt32
  ecx : UInt32
  edx : UInt32
  esi : UInt32
  edi : UInt32
  ebp : UInt32
  ds : UInt16
  es : UInt16
  ss : UInt16
  deriving DecidableEq, Repr

def regs (m : Machine) : Regs := ⟨m.eax, m.ebx, m.ecx, m.edx, m.esi, m.edi, m.ebp, m.ds, m.es, m.ss⟩

/-- The call has returned: all registers and the stack from the return address on are as they were. -/
structure Returned (c : Snapshot) (m : Machine) : Prop where
  eip : m.eip = c.entry.top
  esp : m.esp = c.entry.esp + 4
  regs : m.regs = c.entry.regs
  stack : ∀ x, c.entry.esp.toNat ≤ x → x < c.top → m.mem.byte x = c.entry.mem.byte x

theorem ret_regs (m : Machine) : m.ret.regs = m.regs := rfl

theorem ret_mem (m : Machine) : m.ret.mem = m.mem := rfl

theorem ret_esp (m : Machine) : m.ret.esp = m.esp + 4 := rfl

/-- The words of the call are on the stack again. -/
theorem returned_stack {c : Snapshot} {next prev : UInt32} (hc : Called c next prev) {mem : Mem}
    (hw : Words mem c.entry.esp.toNat [c.entry.top, next, prev])
    (hrest : ∀ x, c.entry.esp.toNat + 12 ≤ x → x < c.top → mem.byte x = c.entry.mem.byte x) :
    ∀ x, c.entry.esp.toNat ≤ x → x < c.top → mem.byte x = c.entry.mem.byte x := by
  intro x h1 h2
  by_cases hx : x < c.entry.esp.toNat + 12
  · exact byte_of_words hc.stack.words hw x ⟨h1, hx⟩
  · exact hrest x (Nat.le_of_not_lt hx) h2

/-- `switch_to` without a switch. -/
theorem returned_self {c : Snapshot} {t : UInt32} (hc : Called c t t) :
    Returned c c.entry.switchTo ∧ Mem.Frame (window (c.entry.esp.toNat + 4) 8) c.entry.mem c.entry.switchTo.mem := by
  obtain ⟨hswap, hframe, heq⟩ := swapArgs_spec hc.stack
  obtain ⟨hswap', hframe', heq'⟩ := swapArgs_spec hswap
  obtain ⟨hret, hreq⟩ := ret_spec hswap'
  have hebp : c.entry.swapArgs.ebp = t := by rw [heq]
  have hebx : c.entry.swapArgs.ebx = t := by rw [heq]
  have hto : c.entry.switchTo = c.entry.swapArgs.swapArgs.ret := by
    unfold switchTo
    dsimp only
    rw [if_pos (hebp.trans hebx.symm)]
  have hregs : c.entry.swapArgs.swapArgs.regs = c.entry.regs := by
    rw [heq', regs, regs, heq]
  have hesp : c.entry.swapArgs.swapArgs.esp = c.entry.esp := by
    rw [heq', heq]
  rw [hebp, hebx] at hswap'
  have hframes := hframe.trans hframe'
  rw [hto]
  refine ⟨⟨?_, ?_, ?_, ?_⟩, ?_⟩
  · rw [hreq]
  · rw [ret_esp, hesp]
  · rw [ret_regs, hregs]
  · rw [ret_mem]
    refine returned_stack hc hswap'.words fun x h1 _ => (hframes x fun hin => ?_).1
    have h2 := hin.2
    omega
  · rw [ret_mem]
    exact hframes

/-- `switch_to` to another task is the two halves. -/
theorem switchTo_eq_resume {c : Snapshot} {next prev : UInt32} (hc : Called c next prev) (hne : next ≠ prev) :
    c.entry.switchTo = c.entry.swapArgs.saveTask.resume := by
  obtain ⟨-, -, heq⟩ := swapArgs_spec hc.stack
  have hebp : c.entry.swapArgs.ebp = next := by rw [heq]
  have hebx : c.entry.swapArgs.ebx = prev := by rw [heq]
  unfold switchTo
  dsimp only
  rw [hebp, hebx, if_neg hne]
  rfl

/-- The stack of the task that is switched to. -/
theorem loadTask_spec {m : Machine} {t : UInt32} {S : Nat} {ws : List UInt32} (ht : m.ebp = t) (htask : t.toNat + 0x40 ≤ 4294967296)
    (hesp : m.mem.load (t.toNat + 0x10) 4 = S) (hws : Words m.mem S ws) (hroom : S + 4 * ws.length < 4294967296) :
    StackAt m.loadTask S ws ∧ m.loadTask.ss = UInt16.ofNat (m.mem.load (t.toNat + 0x14) 2) := by
  have h10 : (t + 0x10).toNat = t.toNat + 0x10 := toNat_add (Nat.lt_of_lt_of_le (Nat.add_lt_add_left (by decide) _) htask)
  have h14 : (t + 0x14).toNat = t.toNat + 0x14 := toNat_add (Nat.lt_of_lt_of_le (Nat.add_lt_add_left (by decide) _) htask)
  refine ⟨⟨?_, hws, hroom⟩, ?_⟩
  · unfold loadTask word
    dsimp only
    rw [ht, h10, hesp]
    exact UInt32.toNat_ofNat_of_lt' (Nat.lt_of_le_of_lt (Nat.le_add_right _ _) hroom)
  · unfold loadTask
    dsimp only
    rw [ht, h14]

/-- The other half, to a task that has not run yet: the flag on its stack is zero, and the registers are not popped. -/
theorem resume_new {m : Machine} {t r a b : UInt32} {E : Nat} {ws : List UInt32} (ht : m.ebp = t)
    (htask : t.toNat + 0x40 ≤ 4294967296) (hesp : m.mem.load (t.toNat + 0x10) 4 = E)
    (hws : Words m.mem E (0 :: r :: a :: b :: ws)) (hroom : E + 4 * (ws.length + 4) < 4294967296) :
    m.resume.eip = r ∧ m.resume.ebp = a ∧ StackAt m.resume (E + 8) (t :: m.ebx :: ws) ∧
      Mem.Frame (window (E + 8) 8) m.mem m.resume.mem := by
  obtain ⟨hstack, -⟩ := loadTask_spec ht htask hesp hws hroom
  obtain ⟨m₂, hm₂⟩ : ∃ m₂, m₂ = { m.loadTask with eax := m.loadTask.top }.drop 4 := ⟨_, rfl⟩
  have hesp₂ : m₂.esp = (m.loadTask.drop 4).esp := by rw [hm₂]; rfl
  have hmem₂ : m₂.mem = m.mem := by rw [hm₂]; rfl
  have hebp₂ : m₂.ebp = t := by rw [hm₂, ← ht]; rfl
  have hebx₂ : m₂.ebx = m.ebx := by rw [hm₂]; rfl
  have hpop : StackAt m₂ (E + 4) (r :: a :: b :: ws) := hstack.drop.congr hesp₂ hmem₂
  have hto : m.resume = m₂.swapArgs.ret := by
    rw [hm₂]
    unfold resume
    dsimp only
    exact if_pos hstack.top
  obtain ⟨hswap, hframe, hseq⟩ := swapArgs_spec hpop
  obtain ⟨hret, hteq⟩ := ret_spec hswap
  rw [hebp₂, hebx₂] at hret
  rw [hmem₂] at hframe
  rw [hto]
  refine ⟨?_, ?_, hret, ?_⟩
  · rw [hteq]
  · rw [hteq, hseq]
  · rw [ret_mem]
    exact hframe

/-- The other half: what the save half left of a task is what its call returns with. -/
theorem resume_spec {m : Machine} {t next : UInt32} {c : Snapshot} (hc : Called c next t) (hs : Saved m.mem t c next)
    (ht : m.ebp = t) : Returned c m.resume ∧ Mem.Frame (window (c.entry.esp.toNat + 4) 8) m.mem m.resume.mem := by
  have hlow := hc.low
  have hroom := hc.stack.room
  simp only [List.length_cons, List.length_nil] at hroom
  have hfit : c.entry.esp.toNat - 40 + 4 * (leftWords c.entry next t).length < 4294967296 := by
    have hlen : (leftWords c.entry next t).length = 13 := rfl
    omega
  obtain ⟨hstack, hss⟩ := loadTask_spec ht hc.task hs.esp hs.words hfit
  rw [hs.ss, UInt16.ofNat_toNat] at hss
  have hone : m.loadTask.top ≠ 0 := by
    rw [hstack.top]
    decide
  obtain ⟨m₂, hm₂⟩ : ∃ m₂, m₂ = { m.loadTask with eax := m.loadTask.top }.drop 4 := ⟨_, rfl⟩
  have hesp₂ : m₂.esp = (m.loadTask.drop 4).esp := by rw [hm₂]; rfl
  have hmem₂ : m₂.mem = m.mem := by rw [hm₂]; rfl
  have hss₂ : m₂.ss = c.entry.ss := by rw [hm₂, ← hss]; rfl
  have hpop : StackAt m₂ (c.entry.esp.toNat - 40 + 4) _ := hstack.drop.congr hesp₂ hmem₂
  have hto : m.resume = m₂.restoreAll.swapArgs.ret := by
    rw [hm₂]
    unfold resume
    dsimp only
    exact if_neg hone
  obtain ⟨hrest, hreq⟩ := @restoreAll_spec m₂ _ [c.entry.top, c.entry.ebp, c.entry.ebx] _ _ _ _ _ _ _ _ _ hpop
  have hS : c.entry.esp.toNat - 40 + 4 + 36 = c.entry.esp.toNat := by omega
  rw [hS] at hrest
  obtain ⟨hswap, hframe, hseq⟩ := swapArgs_spec hrest
  obtain ⟨hret, hteq⟩ := ret_spec hswap
  have hmem₃ : m₂.restoreAll.mem = m.mem := by rw [hreq, hmem₂]
  have hebp : m₂.restoreAll.ebp = next := by rw [hreq]
  have hebx : m₂.restoreAll.ebx = t := by rw [hreq]
  have hregs : m₂.restoreAll.swapArgs.regs = c.entry.regs := by
    rw [hseq, regs, hreq, regs, hss₂, UInt16.toUInt16_toUInt32, UInt16.toUInt16_toUInt32]
  have hesp₄ : m₂.restoreAll.swapArgs.esp = c.entry.esp := UInt32.toNat_inj.1 hswap.esp
  rw [hebp, hebx] at hswap
  rw [hmem₃] at hframe
  rw [hto]
  refine ⟨⟨?_, ?_, ?_, ?_⟩, ?_⟩
  · rw [hteq]
  · rw [ret_esp, hesp₄]
  · rw [ret_regs, hregs]
  · rw [ret_mem]
    refine returned_stack hc hswap.words fun x h1 h2 => ?_
    rw [(hframe x fun hin => ?_).1, hs.rest x h1 h2]
    have h3 := hin.2
    omega
  · rw [ret_mem]
    exact hframe

end Machine

end BootPerl
