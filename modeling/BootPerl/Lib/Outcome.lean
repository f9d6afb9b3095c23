/-!
# Outcomes of a call

What a call that may halt the machine, or loop, comes to. Loops whose length the code does not fix carry fuel; `running` is the
call whose loop is still going when the fuel is spent, and says nothing about the code.
-/

namespace BootPerl

inductive Outcome (α : Type) where
  | ok (a : α)
  | panic (msg : String)
  | running
  deriving DecidableEq, Repr

namespace Outcome
variable {α β : Type}

/-- Go on with the result; a halt stays a halt. -/
def bind (x : Outcome α) (f : α → Outcome β) : Outcome β :=
  match x with
  | ok a => f a
  | panic msg => panic msg
  | running => running

@[simp] theorem bind_ok (a : α) (f : α → Outcome β) : (ok a).bind f = f a := rfl

/-- A call that goes on and returns went on from a call that returned. -/
theorem bind_eq_ok {x : Outcome α} {f : α → Outcome β} {b : β} (h : x.bind f = ok b) : ∃ a, x = ok a ∧ f a = ok b := by
  cases x with
  | ok a => exact ⟨a, rfl, h⟩
  | panic msg => cases h
  | running => cases h

/-- A call with fuel comes to `x`: from some amount of fuel on its outcome is `x`. -/
def Comes (f : Nat → Outcome α) (x : Outcome α) : Prop := ∃ n, ∀ fuel, n ≤ fuel → f fuel = x

/-- What a call comes to is seen with as much fuel as one likes. -/
theorem Comes.exists_ge {f : Nat → Outcome α} {x : Outcome α} (h : Comes f x) (n : Nat) : ∃ fuel, n ≤ fuel ∧ f fuel = x := by
  obtain ⟨k, hk⟩ := h
  exact ⟨max n k, Nat.le_max_left _ _, hk _ (Nat.le_max_right _ _)⟩

/-- A call comes to one outcome. -/
theorem Comes.unique {f : Nat → Outcome α} {x y : Outcome α} (hx : Comes f x) (hy : Comes f y) : x = y := by
  obtain ⟨k, hk⟩ := hx
  obtain ⟨fuel, hfuel, rfl⟩ := hy.exists_ge k
  exact (hk fuel hfuel).symm

/-- What a call returns is one value. -/
theorem Comes.ok_inj {f : Nat → Outcome α} {a b : α} (ha : Comes f (ok a)) (hb : Comes f (ok b)) : a = b :=
  ok.inj (ha.unique hb)

/-- A call that returns does not halt. -/
theorem Comes.not_panic {f : Nat → Outcome α} {a : α} {msg : String} (ha : Comes f (ok a)) : ¬Comes f (panic msg) := by
  intro hp
  cases ha.unique hp

/-- A call that goes on comes to what the call it goes on to comes to. -/
theorem Comes.bind {f : Nat → Outcome α} {g : Nat → α → Outcome β} {a : α} {x : Outcome β} (hf : Comes f (ok a))
    (hg : Comes (fun n => g n a) x) : Comes (fun n => (f n).bind (g n)) x := by
  obtain ⟨n, hn⟩ := hf
  obtain ⟨k, hk⟩ := hg
  refine ⟨max n k, fun fuel hfuel => ?_⟩
  dsimp only
  rw [hn fuel (by omega), bind_ok]
  exact hk fuel (by omega)

/-- A turn of a loop takes one unit of fuel. -/
theorem Comes.turn {f g : Nat → Outcome α} {x : Outcome α} (hstep : ∀ fuel, f (fuel + 1) = g fuel) (hg : Comes g x) : Comes f x := by
  obtain ⟨n, hn⟩ := hg
  refine ⟨n + 1, fun fuel hfuel => ?_⟩
  obtain ⟨k, rfl⟩ := Nat.exists_eq_add_of_le' hfuel
  rw [← Nat.add_assoc, hstep]
  exact hn _ (Nat.le_add_left n k)

theorem Comes.const (x : Outcome α) : Comes (fun _ => x) x := ⟨0, fun _ _ => rfl⟩

/-- More fuel does not change the result of a call that returned. -/
def Settles (f : Nat → Outcome α) : Prop := ∀ n a, f n = ok a → ∀ k, n ≤ k → f k = ok a

theorem Settles.comes {f : Nat → Outcome α} (hf : Settles f) {n : Nat} {a : α} (h : f n = ok a) : Comes f (ok a) :=
  ⟨n, hf n a h⟩

/-- A result that takes no fuel. -/
theorem Settles.const (x : Outcome α) : Settles fun _ => x := fun _ _ h _ _ => h

/-- A call made of two that settle settles. -/
theorem Settles.bind {f : Nat → Outcome α} {g : Nat → α → Outcome β} (hf : Settles f) (hg : ∀ a, Settles fun n => g n a) :
    Settles fun n => (f n).bind (g n) := by
  intro n b h k hk
  obtain ⟨a, ha, hb⟩ := bind_eq_ok h
  have hfa := hf n a ha k hk
  have hgb := hg a n b hb k hk
  dsimp only at hgb ⊢
  rw [hfa, bind_ok, hgb]

theorem Settles.ite {p : Prop} [Decidable p] {f g : Nat → Outcome α} (hf : Settles f) (hg : Settles g) :
    Settles fun n => if p then f n else g n := by
  intro n a h k hk
  dsimp only at h ⊢
  split at h
  · rename_i hp
    rw [if_pos hp, hf n a h k hk]
  · rename_i hp
    rw [if_neg hp, hg n a h k hk]

end Outcome

end BootPerl
