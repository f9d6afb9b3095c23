import Mathlib.Data.Set.Basic
import Mathlib.Tactic.SplitIfs
import Mathlib.Tactic.Ring

/-!
# A byte-addressed memory

Bytes at natural addresses, little-endian numbers of any width over them, and the frame relation: what a step leaves alone.
Besides its bytes a memory carries a mark per address, set by every store and read by no load. The marks are what a statement
about *writes* (not about changes) speaks of: a store of the value already there changes nothing, yet it is a store.
-/

namespace BootPerl

/-- A memory: the byte at each address, and the marks of the addresses stored to. -/
structure Mem where
  byte : Nat → UInt8
  dirty : Nat → Bool

namespace Mem

/-- Store one byte. -/
def set (m : Mem) (a : Nat) (b : UInt8) : Mem where
  byte x := if x = a then b else m.byte x
  dirty x := x = a || m.dirty x

/-- The same bytes with no address marked. -/
def clean (m : Mem) : Mem := { m with dirty := fun _ => false }

/-- The little-endian number in the `n` bytes at `a`. -/
def load (m : Mem) (a : Nat) : Nat → Nat
  | 0 => 0
  | n + 1 => (m.byte a).toNat + 256 * m.load (a + 1) n

/-- Store the low `n` bytes of `v` at `a`, little-endian. -/
def store (m : Mem) (a : Nat) : Nat → Nat → Mem
  | 0, _ => m
  | n + 1, v => (m.set a (UInt8.ofNat v)).store (a + 1) n (v / 256)

@[simp] theorem byte_clean (m : Mem) (x : Nat) : m.clean.byte x = m.byte x := rfl

@[simp] theorem dirty_clean (m : Mem) (x : Nat) : m.clean.dirty x = false := rfl

/-! ## Loads -/

/-- A load reads only the bytes of its window. -/
theorem load_congr {m m' : Mem} {n : Nat} :
    ∀ {a : Nat}, (∀ x, a ≤ x → x < a + n → m'.byte x = m.byte x) → m'.load a n = m.load a n := by
  induction n with
  | zero => intro a _; rfl
  | succ n ih =>
    intro a h
    rw [load, load, h a (by omega) (by omega), ih (fun x hx hx' => h x (by omega) (by omega))]

@[simp] theorem load_clean (m : Mem) (a n : Nat) : m.clean.load a n = m.load a n :=
  load_congr fun _ _ _ => rfl

/-- A number of `n` bytes is below `256 ^ n`. -/
theorem load_lt (m : Mem) (n : Nat) : ∀ a, m.load a n < 256 ^ n := by
  induction n with
  | zero => intro a; simp [load]
  | succ n ih =>
    intro a
    have h1 := (m.byte a).toNat_lt
    have h2 := ih (a + 1)
    rw [load, pow_succ]
    omega

theorem load_two_lt (m : Mem) (a : Nat) : m.load a 2 < 65536 := m.load_lt 2 a

theorem load_four_lt (m : Mem) (a : Nat) : m.load a 4 < 4294967296 := m.load_lt 4 a

/-! ## Stores -/

/-- A byte outside the window of a store keeps its value. -/
theorem byte_store_of_outside {n : Nat} :
    ∀ {m : Mem} {a v x : Nat}, x < a ∨ a + n ≤ x → (m.store a n v).byte x = m.byte x := by
  induction n with
  | zero => intro m a v x _; rfl
  | succ n ih =>
    intro m a v x h
    rw [store, ih (by omega)]
    simp only [set]
    rw [if_neg (by omega)]

/-- A store marks the addresses of its window and no other. -/
theorem dirty_store {n : Nat} :
    ∀ {m : Mem} {a v x : Nat}, (m.store a n v).dirty x = (m.dirty x || decide (a ≤ x ∧ x < a + n)) := by
  induction n with
  | zero =>
    intro m a v x
    simp [store]
  | succ n ih =>
    intro m a v x
    rw [store, ih]
    by_cases hx : x = a
    · subst hx
      simp [set]
    · have h : (a + 1 ≤ x ∧ x < a + 1 + n) ↔ (a ≤ x ∧ x < a + (n + 1)) := by omega
      simp only [set, hx, h, decide_false, Bool.false_or]

/-- A mark stays. -/
theorem dirty_store_of_dirty {m : Mem} {a n v x : Nat} (h : m.dirty x = true) : (m.store a n v).dirty x = true := by
  rw [dirty_store, h, Bool.true_or]

/-- What was stored is read back, cut to the width of the store. -/
theorem load_store_same {n : Nat} : ∀ {m : Mem} {a v : Nat}, (m.store a n v).load a n = v % 256 ^ n := by
  induction n with
  | zero => intro m a v; simp [load, Nat.mod_one]
  | succ n ih =>
    intro m a v
    have hb : ((m.set a (UInt8.ofNat v)).store (a + 1) n (v / 256)).byte a = UInt8.ofNat v := by
      rw [byte_store_of_outside (by omega)]
      simp [set]
    have h256 : (UInt8.ofNat v).toNat = v % 256 := UInt8.toNat_ofNat'
    rw [load, store, hb, ih, h256, Nat.pow_succ, Nat.mul_comm (256 ^ n) 256, Nat.mod_mul]

/-- A load whose window misses the window of a store reads what was there before. -/
theorem load_store_of_disjoint {m : Mem} {a b n k v : Nat} (h : b + k ≤ a ∨ a + n ≤ b) :
    (m.store a n v).load b k = m.load b k :=
  load_congr fun _ _ _ => byte_store_of_outside (by omega)

/-- A pointer stored is the pointer read back. -/
theorem load_store_four {m : Mem} {a v : Nat} (hv : v < 4294967296) : (m.store a 4 v).load a 4 = v := by
  rw [load_store_same]
  exact Nat.mod_eq_of_lt hv

/-- A half-word stored is the half-word read back. -/
theorem load_store_two {m : Mem} {a v : Nat} (hv : v < 65536) : (m.store a 2 v).load a 2 = v := by
  rw [load_store_same]
  exact Nat.mod_eq_of_lt hv

/-! ## Frames -/

/-- `m'` is `m` with stores inside `X` only: outside `X` neither a byte nor a mark differs. -/
def Frame (X : Set Nat) (m m' : Mem) : Prop :=
  ∀ x, x ∉ X → m'.byte x = m.byte x ∧ m'.dirty x = m.dirty x

theorem Frame.refl (X : Set Nat) (m : Mem) : Frame X m m := fun _ _ => ⟨rfl, rfl⟩

theorem Frame.trans {X : Set Nat} {m m' m'' : Mem} (h : Frame X m m') (h' : Frame X m' m'') : Frame X m m'' := by
  intro x hx
  exact ⟨(h' x hx).1.trans (h x hx).1, (h' x hx).2.trans (h x hx).2⟩

theorem Frame.mono {X Y : Set Nat} {m m' : Mem} (h : Frame X m m') (hXY : ∀ x ∈ X, x ∈ Y) : Frame Y m m' :=
  fun x hx => h x fun hX => hx (hXY x hX)

/-- A store whose window lies in `X` is framed by `X`. -/
theorem Frame.store {X : Set Nat} {m : Mem} {a n v : Nat} (h : ∀ x, a ≤ x → x < a + n → x ∈ X) :
    Frame X m (m.store a n v) := by
  intro x hx
  have hout : ¬(a ≤ x ∧ x < a + n) := fun hin => hx (h x hin.1 hin.2)
  refine ⟨byte_store_of_outside (by omega), ?_⟩
  rw [dirty_store, decide_eq_false hout, Bool.or_false]

/-- A byte stored in `X` is framed by `X`. -/
theorem Frame.set {X : Set Nat} {m : Mem} {a : Nat} {b : UInt8} (h : a ∈ X) : Frame X m (m.set a b) := by
  intro x hx
  have hne : x ≠ a := fun hxa => hx (hxa ▸ h)
  simp [Mem.set, hne]

/-- A load whose window lies outside the frame is unchanged. -/
theorem Frame.load {X : Set Nat} {m m' : Mem} (h : Frame X m m') {a n : Nat} (hout : ∀ x, a ≤ x → x < a + n → x ∉ X) :
    m'.load a n = m.load a n :=
  load_congr fun x hx hx' => (h x (hout x hx hx')).1

/-- The addresses marked by a framed step from a clean memory lie in the frame. -/
theorem Frame.dirty_mem {X : Set Nat} {m m' : Mem} (h : Frame X m m') {x : Nat} (hm : m.dirty x = false)
    (hx : m'.dirty x = true) : x ∈ X := by
  by_contra hn
  rw [(h x hn).2, hm] at hx
  exact Bool.false_ne_true hx

end Mem

end BootPerl
