import BootPerl.Memory

/-!
# Fuel

The loops over the two lists carry fuel. More fuel never changes the result of a call that returned, so what a call returns
does not depend on how much it was given.
-/

namespace BootPerl

open Mem Outcome

/-- More fuel finds the same two nodes. -/
theorem scan_mono {m : Mem} {cur n : Nat} :
    ∀ {q : Nat} {r : Nat × Nat}, m.scan cur n q = some r → ∀ k, n ≤ k → m.scan cur k q = some r := by
  induction n with
  | zero => intro q r h; cases h
  | succ n ih =>
    intro q r h k hk
    obtain ⟨k, rfl⟩ := Nat.exists_eq_add_of_le' (Nat.lt_of_lt_of_le (Nat.zero_lt_succ n) hk)
    rw [scan] at h ⊢
    split at h
    · rename_i hc
      rw [if_pos hc]
      exact h
    · rename_i hc
      rw [if_neg hc]
      exact ih h k (by omega)

theorem takeConsecutive_mono (m : Mem) (count n : Nat) :
    ∀ {prev cur : Nat} {r : Mem × Nat}, takeConsecutive m count n prev cur = .ok r →
      ∀ k, n ≤ k → takeConsecutive m count k prev cur = .ok r := by
  induction n with
  | zero => intro prev cur r h; cases h
  | succ n ih =>
    intro prev cur r h k hk
    obtain ⟨k, rfl⟩ := Nat.exists_eq_add_of_le' (Nat.lt_of_lt_of_le (Nat.zero_lt_succ n) hk)
    rw [takeConsecutive] at h ⊢
    split at h
    · cases h
    · rename_i h0
      rw [if_neg h0]
      split at h
      · rename_i hc
        rw [if_pos hc]
        exact h
      · rename_i hc
        rw [if_neg hc]
        exact ih h k (by omega)

theorem settles_pageAllocateConsecutive (v : HeapVars) (m : Mem) (count : Nat) :
    Settles fun n => pageAllocateConsecutive n v m count := by
  have hloop : Settles fun n => takeConsecutive m count n v.pagesHead (m.next v.pagesHead) :=
    fun n _ h k hk => takeConsecutive_mono m count n h k hk
  exact (Settles.const _).ite ((Settles.const _).ite ((Settles.const _).ite hloop))

theorem settles_pageRelease (v : HeapVars) (m : Mem) (page : Nat) : Settles fun n => pageRelease n v m page := by
  intro n a h k hk
  unfold pageRelease at h ⊢
  dsimp only at h ⊢
  split at h
  · cases h
  · rename_i hs
    rw [scan_mono hs k hk]
    exact h

theorem settles_releasePages (v : HeapVars) (c : Nat) :
    ∀ (m : Mem) (start : Nat), Settles fun n => releasePages n v c m start := by
  induction c with
  | zero => intro m start; exact Settles.const _
  | succ c ih => intro m start; exact (settles_pageRelease v m _).bind fun m => ih m _

theorem settles_returnPages (v : HeapVars) (m : Mem) (cur : Nat) : Settles fun n => returnPages n v m cur := by
  unfold returnPages
  split
  · exact settles_releasePages v _ m _
  · exact Settles.const _

theorem settles_memFree (v : HeapVars) (m : Mem) (mem n : Nat) (freepages : Bool) :
    Settles fun fuel => memFree fuel v m mem n freepages := by
  intro f a h k hk
  unfold memFree at h ⊢
  dsimp only at h ⊢
  split at h
  · cases h
  · rename_i q p hs
    rw [scan_mono hs k hk]
    exact ((settles_returnPages v _ mem).ite (Settles.const _)) f a h k hk

theorem settles_kfree (v : HeapVars) (m : Mem) (mem : Nat) : Settles fun fuel => kfree fuel v m mem :=
  settles_memFree v m _ _ true

theorem kallocSearch_mono (v : HeapVars) (realsize n : Nat) :
    ∀ {m : Mem} {q p : Nat} {r : Mem × Nat × Nat}, kallocSearch v realsize n m q p = .ok r →
      ∀ k, n ≤ k → kallocSearch v realsize k m q p = .ok r := by
  induction n with
  | zero => intro m q p r h; cases h
  | succ n ih =>
    intro m q p r h k hk
    obtain ⟨k, rfl⟩ := Nat.exists_eq_add_of_le' (Nat.lt_of_lt_of_le (Nat.zero_lt_succ n) hk)
    rw [kallocSearch] at h ⊢
    split at h
    · rename_i hp
      obtain ⟨⟨m1, page⟩, h1, h⟩ := bind_eq_ok h
      obtain ⟨m2, h2, h3⟩ := bind_eq_ok h
      have hk' : n ≤ k := by omega
      have h1' := settles_pageAllocateConsecutive v m _ n _ h1 k hk'
      have h2' := settles_memFree v m1 _ _ false n _ h2 k hk'
      dsimp only at h1' h2' ⊢
      rw [if_pos hp, h1', bind_ok]
      dsimp only
      rw [h2', bind_ok]
      exact ih h3 k hk'
    · rename_i hp
      rw [if_neg hp]
      split at h
      · rename_i hc
        rw [if_pos hc]
        exact ih h k (by omega)
      · rename_i hc
        rw [if_neg hc]
        exact h

theorem settles_kalloc (v : HeapVars) (m : Mem) (n : Nat) : Settles fun fuel => kalloc fuel v m n := by
  have hsearch : Settles fun fuel => kallocSearch v ((n + headerSize) % 4294967296) fuel m v.blocksHead (m.next v.blocksHead) :=
    fun fuel r h k hk => kallocSearch_mono v _ fuel h k hk
  exact hsearch.bind fun r => Settles.const _

end BootPerl
