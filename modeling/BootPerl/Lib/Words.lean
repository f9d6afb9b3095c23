import BootPerl.Lib.Memory

/-!
# Words in memory

A list of 32-bit words at consecutive addresses of a byte memory, as a stack or a record holds them: how a store changes the list,
how lists split, and when two memories hold the same list.
-/

namespace BootPerl

/-- The words `ws` lie at `a` and upward. -/
def Words (m : Mem) : Nat → List UInt32 → Prop
  | _, [] => True
  | a, w :: ws => m.load a 4 = w.toNat ∧ Words m (a + 4) ws

variable {m m' : Mem}

/-- A list of words is read from its own bytes. -/
theorem Words.congr {ws : List UInt32} :
    ∀ {a : Nat}, Words m a ws → (∀ x, a ≤ x → x < a + 4 * ws.length → m'.byte x = m.byte x) → Words m' a ws := by
  induction ws with
  | nil => intro a _ _; trivial
  | cons w ws ih =>
    intro a h hb
    rw [List.length_cons] at hb
    refine ⟨?_, ih h.2 fun x hx hx' => hb x (by omega) (by omega)⟩
    rw [Mem.load_congr fun x hx hx' => hb x hx (by omega)]
    exact h.1

/-- A store elsewhere leaves the words. -/
theorem Words.store_of_disjoint {a b n v : Nat} {ws : List UInt32} (h : Words m a ws)
    (hd : b + n ≤ a ∨ a + 4 * ws.length ≤ b) : Words (m.store b n v) a ws :=
  h.congr fun _ _ _ => Mem.byte_store_of_outside (by omega)

theorem words_append {u v : List UInt32} : ∀ {a : Nat}, Words m a (u ++ v) ↔ Words m a u ∧ Words m (a + 4 * u.length) v := by
  induction u with
  | nil => intro a; simp [Words]
  | cons w u ih =>
    intro a
    have ha : a + 4 + 4 * u.length = a + 4 * (u.length + 1) := by omega
    rw [List.cons_append, Words, Words, ih, List.length_cons, ha, and_assoc]

/-- The word stored below a list of words extends it. -/
theorem Words.push {a : Nat} {ws : List UInt32} (h : Words m (a + 4) ws) (w : UInt32) : Words (m.store a 4 w.toNat) a (w :: ws) :=
  ⟨Mem.load_store_four w.toNat_lt, h.store_of_disjoint (Or.inl (Nat.le_refl _))⟩

/-- A store to one of the words. -/
theorem Words.set {ws : List UInt32} (w : UInt32) :
    ∀ {a i : Nat}, Words m a ws → i < ws.length → Words (m.store (a + 4 * i) 4 w.toNat) a (ws.set i w) := by
  induction ws with
  | nil => intro a i _ hi; exact absurd hi (Nat.not_lt_zero i)
  | cons v ws ih =>
    intro a i h hi
    cases i with
    | zero => exact Words.push h.2 w
    | succ i =>
      rw [List.length_cons] at hi
      have ha : a + 4 * (i + 1) = a + 4 + 4 * i := by omega
      rw [ha, List.set_cons_succ]
      exact ⟨(Mem.load_store_of_disjoint (by omega)).trans h.1, ih h.2 (by omega)⟩

/-- One of the words. -/
theorem Words.get {ws : List UInt32} :
    ∀ {a i : Nat}, Words m a ws → (hi : i < ws.length) → m.load (a + 4 * i) 4 = (ws.get ⟨i, hi⟩).toNat := by
  induction ws with
  | nil => intro a i _ hi; exact absurd hi (Nat.not_lt_zero i)
  | cons v ws ih =>
    intro a i h hi
    cases i with
    | zero => exact h.1
    | succ i =>
      have ha : a + 4 * (i + 1) = a + 4 + 4 * i := by omega
      rw [ha]
      exact ih h.2 _

/-- Bytes that are all zero hold words that are all zero. -/
theorem words_zero (n : Nat) : ∀ {a : Nat}, (∀ x, a ≤ x → x < a + 4 * n → m.byte x = 0) → Words m a (List.replicate n 0) := by
  induction n with
  | zero => intro a _; trivial
  | succ n ih =>
    intro a h
    refine ⟨?_, ih fun x hx hx' => h x (by omega) (by omega)⟩
    simp only [Mem.load]
    rw [h a (by omega) (by omega), h (a + 1) (by omega) (by omega), h (a + 1 + 1) (by omega) (by omega),
      h (a + 1 + 1 + 1) (by omega) (by omega)]
    rfl

/-- A number stored back where it was loaded from brings back its bytes. -/
theorem byte_store_load (m₀ : Mem) {n : Nat} :
    ∀ {m : Mem} {a x : Nat}, a ≤ x → x < a + n → (m.store a n (m₀.load a n)).byte x = m₀.byte x := by
  induction n with
  | zero => intro m a x h1 h2; omega
  | succ n ih =>
    intro m a x h1 h2
    have hlt := (m₀.byte a).toNat_lt
    have hdiv : ((m₀.byte a).toNat + 256 * m₀.load (a + 1) n) / 256 = m₀.load (a + 1) n := by omega
    rw [Mem.load, Mem.store, hdiv]
    by_cases hx : x = a
    · rw [hx, Mem.byte_store_of_outside (by omega)]
      simp only [Mem.set, if_true]
      apply UInt8.toNat_inj.1
      rw [UInt8.toNat_ofNat']
      omega
    · exact ih (by omega) (by omega)

/-- The bytes of a word follow from the word. -/
theorem byte_of_load {a x : Nat} {n : Nat} (h : m'.load a n = m.load a n) (h1 : a ≤ x) (h2 : x < a + n) : m'.byte x = m.byte x := by
  have := byte_store_load m' (m := m') h1 h2
  rw [h, byte_store_load m h1 h2] at this
  exact this.symm

end BootPerl
