import BootPerl.Theorems.TrapReturn

/-!
# `block` is transparent

A task that blocks gives up the processor inside `block`, and `block` returns when the task is dispatched again. It pushes what an
interrupt would have pushed, so that it can leave through an `iret`, and to its caller it is a call that changes no register.
-/

namespace BootPerl

open Machine

variable {k : TaskStack}

/-- `xchg` with a word of the stack. -/
theorem swapEax_spec {m : Machine} {S : Nat} {r a : UInt32} {ws : List UInt32} (h : StackAt m S (r :: a :: ws)) :
    StackAt m.swapEax S (r :: m.eax :: ws) ∧ Mem.Frame (window (S + 4) 4) m.mem m.swapEax.mem ∧
      m.swapEax = { m with eax := a, mem := m.swapEax.mem } := by
  have hi : 1 < (r :: a :: ws).length := Nat.lt_of_sub_pos (Nat.succ_pos _)
  obtain ⟨hset, hframe⟩ := h.set hi (n := 0x04) rfl m.eax
  have ha := (h.get hi (n := 0x04) rfl).2
  refine ⟨hset.congr rfl rfl, hframe, ?_⟩
  have hswap : m.swapEax = { m with eax := m.word (m.esp + 0x04), mem := m.swapEax.mem } := rfl
  rw [hswap, ha]
  rfl

/-- The frame that `block` builds for its `iret`. -/
theorem pretend_spec {m : Machine} {S : Nat} {ws : List UInt32} (h : StackAt m (S + 12) ws) (back : UInt32) :
    StackAt (((m.push (UInt32.ofBitVec m.eflags)).push m.cs.toUInt32).push back) S
        (back :: m.cs.toUInt32 :: UInt32.ofBitVec m.eflags :: ws) ∧
      Mem.Frame (window S 12) m.mem (((m.push (UInt32.ofBitVec m.eflags)).push m.cs.toUInt32).push back).mem :=
  StackAt.pushAll (S := S) [UInt32.ofBitVec m.eflags, m.cs.toUInt32, back] h

/-- What `do_block` and `schedule` leave as they found it. -/
structure Dozes (k : TaskStack) (doBlock schedule : Machine → Machine) (m : Machine) : Prop where
  block : Restores k m (doBlock m)
  wait : Restores k ((doBlock m).drop 4) (schedule ((doBlock m).drop 4))

/-- The memory from `S` up, `current` and the `regs` of the current task are the same. -/
structure SameFrom (k : TaskStack) (S : Nat) (m m' : Machine) : Prop where
  stack : ∀ x, S ≤ x → x < k.top → m'.mem.byte x = m.mem.byte x
  current : m'.mem.load k.symbols.current.toNat 4 = m.mem.load k.symbols.current.toNat 4
  regs : m'.mem.load (k.task.toNat + 0x18) 4 = m.mem.load (k.task.toNat + 0x18) 4
  ss : m'.ss = m.ss

theorem SameFrom.trans {S : Nat} {m m' m'' : Machine} (h : SameFrom k S m m') (h' : SameFrom k S m' m'') : SameFrom k S m m'' := by
  refine ⟨fun x h1 h2 => ?_, h'.current.trans h.current, h'.regs.trans h.regs, h'.ss.trans h.ss⟩
  rw [h'.stack x h1 h2, h.stack x h1 h2]

/-- Writes to the stack below `S` and to the lock. -/
theorem SameFrom.of_frame {S : Nat} {m m' : Machine} {X : Set Nat} (hframe : Mem.Frame X m.mem m'.mem) (hss : m'.ss = m.ss)
    (hX : ∀ x ∈ X, (k.low ≤ x ∧ x < S) ∨ x ∈ window k.symbols.kernelLock.toNat 4) (hlow : k.low ≤ S)
    (htop : S ≤ k.top) : SameFrom k S m m' := by
  have hlockApart := k.lockApart
  have hcurrentApart := k.currentApart
  have hregsApart := k.regsApart
  have hcurrentLock := k.currentLock
  have hlockRegs := k.lockRegs
  refine ⟨fun x h1 h2 => (hframe x fun hin => ?_).1, hframe.load fun x h1 h2 hin => ?_, hframe.load fun x h1 h2 hin => ?_, hss⟩
  all_goals
    rcases hX x hin with ⟨h3, h4⟩ | ⟨h3, h4⟩
    · omega
    · omega

theorem Restores.sameFrom {m m' : Machine} (h : Restores k m m') {S : Nat} (hS : m.esp.toNat ≤ S) : SameFrom k S m m' :=
  ⟨fun x h1 h2 => h.stack x (Nat.le_trans hS h1) h2, h.current, h.regs, h.ss⟩

/-! ## The way in -/

/-- `block` hands its argument on to `do_block`, and leaves the registers of its caller on the stack, `eax` in the place of the
argument. -/
theorem blockCall_spec (back : UInt32) {m : Machine} {S : Nat} {r q : UInt32} (h : StackAt m (S + 56) [r, q]) (hlow : k.low ≤ S)
    (htop : S + 64 ≤ k.top) :
    StackAt (m.blockCall k.symbols back) S
        (q :: ({ m with eax := q }.saved ++ [q, back, m.cs.toUInt32, UInt32.ofBitVec m.eflags, r, m.eax])) ∧
      SameFrom k (S + 64) m (m.blockCall k.symbols back) := by
  have hlockApart := k.lockApart
  obtain ⟨hswap, hframe₁, heq⟩ := swapEax_spec h
  obtain ⟨m₁, hm₁⟩ : ∃ m₁, m₁ = m.swapEax := ⟨_, rfl⟩
  rw [← hm₁] at hswap hframe₁ heq
  obtain ⟨hpretend, hframe₂⟩ := pretend_spec (S := S + 44) hswap back
  obtain ⟨m₂, hm₂⟩ : ∃ m₂, m₂ = ((m₁.push (UInt32.ofBitVec m₁.eflags)).push m₁.cs.toUInt32).push back := ⟨_, rfl⟩
  rw [← hm₂] at hpretend hframe₂
  have heax : m₂.eax = q := by
    rw [hm₂]
    simp only [push]
    rw [heq]
  have hsaved : m₂.saved = { m with eax := q }.saved := by
    rw [hm₂]
    simp only [push, saved]
    rw [heq]
  have hss : m₂.ss = m.ss := by
    rw [hm₂]
    simp only [push]
    rw [heq]
  have hcs : m₁.cs = m.cs := by rw [heq]
  have hflags : m₁.eflags = m.eflags := by rw [heq]
  rw [hcs, hflags] at hpretend
  obtain ⟨horig, hframe₃⟩ := hpretend.push q
  obtain ⟨hsave, hframe₄⟩ := saveAll_spec (S := S + 4) horig
  have hsaved₃ : (m₂.push q).saved = { m with eax := q }.saved := by
    rw [← hsaved]
    simp only [push, saved]
  obtain ⟨ws, hws⟩ : ∃ ws, ws =
      { m with eax := q }.saved ++ [q, back, m.cs.toUInt32, UInt32.ofBitVec m.eflags, r, m.eax] := ⟨_, rfl⟩
  have hlen : ws.length = 15 := by
    rw [hws]
    rfl
  rw [hsaved₃, ← hws] at hsave
  obtain ⟨m₄, hm₄⟩ : ∃ m₄, m₄ = (m₂.push q).saveAll := ⟨_, rfl⟩
  rw [← hm₄] at hsave hframe₄
  have heax₄ : m₄.eax = q := by
    rw [hm₄, saveAll_eq]
    simp only [push]
    exact heax
  have hss₄ : m₄.ss = m.ss := by
    rw [hm₄, saveAll_eq]
    simp only [push]
    exact hss
  obtain ⟨m₅, hm₅⟩ : ∃ m₅, m₅ = m₄.lockKernel k.symbols.kernelLock := ⟨_, rfl⟩
  have hlocked : StackAt m₅ (S + 4) ws := by
    have hflags₄ : StackAt { m₄ with eflags := cli m₄.eflags } (S + 4) ws := hsave.congr rfl rfl
    rw [hm₅]
    exact hflags₄.setWord (by rw [hlen]; omega)
  have hframe₅ : Mem.Frame (window k.symbols.kernelLock.toNat 4) m₄.mem m₅.mem := by
    rw [hm₅, lockKernel_mem]
    exact Mem.Frame.store_window (Nat.le_refl _) (Nat.le_refl _)
  have heax₅ : m₅.eax = q := by
    rw [hm₅]
    simp only [Machine.lockKernel, setWord]
    exact heax₄
  have hss₅ : m₅.ss = m.ss := by
    rw [hm₅, lockKernel_ss, hss₄]
  obtain ⟨harg, hframe₆⟩ := hlocked.push q
  have hto : m.blockCall k.symbols back = m₅.push q := by
    have hpush₂ : m₂.push m₂.eax = m₂.push q := by rw [heax]
    have hpush₅ : m₅.push m₅.eax = m₅.push q := by rw [heax₅]
    rw [← hpush₅, hm₅, hm₄, ← hpush₂, hm₂, hm₁]
    rfl
  rw [hto, ← hws]
  refine ⟨harg, ?_⟩
  have hstack : Mem.Frame (window S 64) m.mem m₄.mem := by
    refine (((hframe₁.mono fun x hx => ?_).trans (hframe₂.mono fun x hx => ?_)).trans (hframe₃.mono fun x hx => ?_)).trans
      (hframe₄.mono fun x hx => ?_)
    all_goals
      have h1 := hx.1
      have h2 := hx.2
      exact ⟨by omega, by omega⟩
  have hall := ((hstack.mono fun x hx => Or.inl hx).trans (hframe₅.mono fun x hx => Or.inr hx)).trans
    (hframe₆.mono fun x hx => Or.inl (show x ∈ window S 64 from ⟨hx.1, Nat.lt_of_lt_of_le hx.2 (by omega)⟩))
  refine SameFrom.of_frame hall ?_ (fun x hx => ?_) (by omega) htop
  · simp only [push]
    exact hss₅
  · rcases hx with ⟨h1, h2⟩ | hx
    · exact Or.inl ⟨by omega, h2⟩
    · exact Or.inr hx

/-! ## The way out -/

/-- `iret` drops three words. -/
theorem iret_stack {m : Machine} {S : Nat} {eip cs flags : UInt32} {ws : List UInt32} (h : StackAt m S (eip :: cs :: flags :: ws)) :
    StackAt m.iret (S + 12) ws := by
  have hroom := h.room
  have h12 : (12 : UInt32).toNat = 12 := rfl
  simp only [List.length_cons] at hroom
  refine ⟨?_, h.words.2.2.2, by omega⟩
  rw [iret_esp, toNat_add (by rw [h.esp, h12]; omega), h.esp, h12]

/-- What `block_lowlevel` loads on its way out. -/
theorem blockLeave_spec {m : Machine} {S : Nat} {b c d si di bp a ds es oe eip cs flags : UInt32} {ws : List UInt32}
    (h : StackAt m S ([b, c, d, si, di, bp, a, ds, es] ++ oe :: eip :: cs :: flags :: ws))
    (hlock : k.symbols.kernelLock.toNat + 4 ≤ S ∨ S + 52 + 4 * ws.length ≤ k.symbols.kernelLock.toNat) :
    (m.blockLeave k.symbols).eip = eip ∧ (m.blockLeave k.symbols).cs = cs.toUInt16 ∧
      (∃ flags', (flags' = flags ∨ flags' = flags ||| 0x20) ∧ (m.blockLeave k.symbols).eflags = BitVec.ofNat 32 flags'.toNat) ∧
      StackAt (m.blockLeave k.symbols) (S + 52) ws ∧
      (m.blockLeave k.symbols).regs = ⟨a, b, c, d, si, di, bp, ds.toUInt16, es.toUInt16, m.ss⟩ ∧
      Mem.Frame (window k.symbols.kernelLock.toNat 4 ∪ window (S + 48) 4) m.mem (m.blockLeave k.symbols).mem := by
  obtain ⟨hstack, hreq⟩ := restoreAll_spec h
  obtain ⟨flags', hor, hstack', hframe, hregs⟩ := unlockKernel_flags k.symbols.kernelLock hstack.drop (by omega)
  obtain ⟨heip, hcs, hflags, hmem⟩ := iret_spec hstack'
  have hto : m.blockLeave k.symbols = ((m.restoreAll.drop 4).unlockKernel k.symbols.kernelLock).iret := by
    simp only [blockLeave]
  have hmem₁ : (m.restoreAll.drop 4).mem = m.mem := by
    rw [drop_mem, hreq]
  rw [hmem₁] at hframe
  rw [hto]
  refine ⟨heip, hcs, ⟨flags', hor, hflags⟩, iret_stack hstack', ?_, ?_⟩
  · rw [iret_regs, hregs, drop_regs, regs, hreq]
  · rw [hmem]
    exact hframe

/-- A task that blocks and is dispatched again returns from `block` as from a call that does nothing: with all its registers, the
flags but for bit 5, the argument it had pushed, and the `regs` it had. `do_block` was called with that argument. -/
theorem block_transparent {m : Machine} {back : UInt32} (hroom : k.low + 56 ≤ m.esp.toNat) (htop : m.esp.toNat + 8 ≤ k.top) :
    (m.blockCall k.symbols back).top = m.word (m.esp + 4) ∧
      ∀ doBlock schedule, Dozes k doBlock schedule (m.blockCall k.symbols back) →
        Resumed k m.ret (m.block k.symbols back doBlock schedule) := by
  obtain ⟨S, hS⟩ : ∃ S, m.esp.toNat = S + 56 := ⟨m.esp.toNat - 56, by omega⟩
  obtain ⟨r, hr⟩ : ∃ r, r = m.top := ⟨_, rfl⟩
  obtain ⟨q, hq⟩ : ∃ q, q = m.word (m.esp + 4) := ⟨_, rfl⟩
  have hbounded := k.bounded
  have hlockApart := k.lockApart
  have h4 : (m.esp + 4).toNat = S + 60 := by
    have hfour : (4 : UInt32).toNat = 4 := rfl
    rw [toNat_add (by omega), hS, hfour]
  have hstack : StackAt m (S + 56) [r, q] := by
    refine ⟨hS, ⟨?_, ?_, trivial⟩, ?_⟩
    · rw [hr, Machine.top, word_toNat, hS]
    · rw [hq, word_toNat, h4]
    · simp only [List.length_cons, List.length_nil]
      omega
  obtain ⟨hcall, hsame⟩ := blockCall_spec (k := k) back hstack (by omega) (by omega)
  rw [← hq]
  refine ⟨hcall.top, fun doBlock schedule hdoze => ?_⟩
  obtain ⟨c, hc⟩ : ∃ c, c = m.blockCall k.symbols back := ⟨_, rfl⟩
  rw [← hc] at hcall hsame hdoze
  obtain ⟨ws, hws⟩ : ∃ ws, ws =
      { m with eax := q }.saved ++ [q, back, m.cs.toUInt32, UInt32.ofBitVec m.eflags, r, m.eax] := ⟨_, rfl⟩
  have hlen : ws.length = 15 := by
    rw [hws]
    rfl
  rw [← hws] at hcall
  -- `do_block` and `schedule`
  have hblock := hdoze.block.stackAt hcall (by rw [List.length_cons, hlen]; omega)
  have hwait := hdoze.wait.stackAt hblock.drop (by rw [hlen]; omega)
  obtain ⟨d, hd⟩ : ∃ d, d = schedule ((doBlock c).drop 4) := ⟨_, rfl⟩
  have hsame₁ : SameFrom k (S + 64) m d := by
    have hdrop : SameFrom k (S + 64) (doBlock c) ((doBlock c).drop 4) := ⟨fun _ _ _ => rfl, rfl, rfl, rfl⟩
    have hblocked := hsame.trans (hdoze.block.sameFrom (by rw [hcall.esp]; omega))
    rw [hd]
    exact (hblocked.trans hdrop).trans (hdoze.wait.sameFrom (by rw [hblock.drop.esp]; omega))
  rw [← hd, hws] at hwait
  obtain ⟨heip, hcs, ⟨flags, hor, hflags⟩, hleft, hregs, hframe⟩ := blockLeave_spec (k := k) hwait (by
    simp only [List.length_cons, List.length_nil]
    omega)
  obtain ⟨e, he⟩ : ∃ e, e = d.blockLeave k.symbols := ⟨_, rfl⟩
  rw [← he] at heip hcs hflags hleft hregs hframe
  have heax : e.eax = q := congrArg Machine.Regs.eax hregs
  have hss : e.ss = d.ss := congrArg Machine.Regs.ss hregs
  obtain ⟨hswap, hframe', hseq⟩ := swapEax_spec hleft
  rw [heax] at hswap
  have hto : m.block k.symbols back doBlock schedule = e.swapEax.ret := by
    unfold Machine.block
    dsimp only
    rw [← hc, ← hd, ← he, if_pos heip]
  obtain ⟨hret, hreq⟩ := ret_spec hswap
  have hsame₃ : SameFrom k (S + 64) e e.swapEax.ret := by
    refine SameFrom.of_frame hframe' ?_ (fun x hx => ?_) (by omega) (by omega)
    · rw [hreq, hseq]
    · obtain ⟨h1, h2⟩ := hx
      exact Or.inl ⟨by omega, by omega⟩
  have hsame₂ : SameFrom k (S + 64) m e.swapEax.ret := by
    refine (hsame₁.trans (SameFrom.of_frame hframe hss (fun x hx => ?_) (by omega) (by omega))).trans hsame₃
    rcases hx with hx | ⟨h1, h2⟩
    · exact Or.inr hx
    · exact Or.inl ⟨by omega, by omega⟩
  rw [hto]
  refine ⟨?_, ?_, ?_, ?_, ⟨?_, hsame₂.ss, fun x h1 h2 => ?_, hsame₂.current, hsame₂.regs⟩⟩
  · rw [hreq]
    exact hr
  · rw [hreq, hseq]
    exact hcs.trans (UInt16.toUInt16_toUInt32 m.cs)
  · rw [hreq, hseq]
    dsimp only
    rw [hflags]
    exact loaded_flags hor
  · have hswapped : e.swapEax.regs = { e.regs with eax := m.eax } := by
      rw [hseq]
      rfl
    rw [ret_regs, ret_regs, hswapped, hregs, hsame₁.ss, UInt16.toUInt16_toUInt32, UInt16.toUInt16_toUInt32]
    rfl
  · refine UInt32.toNat_inj.1 ?_
    have h4' : m.ret.esp.toNat = S + 60 := h4
    rw [hret.esp, h4']
  · have h1' : S + 60 ≤ x := by
      rw [← h4]
      exact h1
    rw [ret_mem m]
    by_cases hx : x < S + 64
    · exact byte_of_words hstack.words.2 hret.words x ⟨h1', hx⟩
    · exact hsame₂.stack x (Nat.le_of_not_lt hx) h2

/-- The task blocks and is dispatched again at once. -/
theorem block_transparent_back :
    (trapMachine.blockCall trapStack.symbols 0x100500).top = trapMachine.word (trapMachine.esp + 4) ∧
      Resumed trapStack trapMachine.ret (trapMachine.block trapStack.symbols 0x100500 id id) := by
  obtain ⟨htop, hback⟩ := @block_transparent trapStack trapMachine 0x100500 (by decide) (by decide)
  exact ⟨htop, hback id id ⟨Restores.refl trapStack _, Restores.refl trapStack _⟩⟩

end BootPerl
