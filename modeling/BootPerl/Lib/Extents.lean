import Mathlib.Algebra.GroupWithZero.Nat
import Mathlib.Data.List.Basic

/-!
# Runs of blocks

Blocks are numbered, and every `g` of them make a group. A run of blocks is cut at the ends of the groups, so that each piece lies
in one group: the pieces cover the run in order, and there are hardly more of them than groups.
-/

namespace BootPerl

/-- The `k` blocks from `n` on, in pieces that lie in one group each: the first block and the length of each piece. -/
def extents (g : Nat) [NeZero g] (n k : Nat) : List (Nat × Nat) :=
  if k = 0 then []
  else (n, min k (g - n % g)) :: extents g (n + min k (g - n % g)) (k - min k (g - n % g))
termination_by k
decreasing_by
  have hmod := Nat.mod_lt n (Nat.pos_of_neZero g)
  omega

section
variable {g : Nat} [NeZero g] {n k : Nat}

theorem extents_zero : extents g n 0 = [] := by
  rw [extents, if_pos rfl]

theorem extents_cons (hk : 0 < k) :
    extents g n k = (n, min k (g - n % g)) :: extents g (n + min k (g - n % g)) (k - min k (g - n % g)) := by
  rw [extents, if_neg (by omega)]

/-- The pieces are the run, each block once and in order. -/
theorem flatMap_extents (g n k : Nat) [NeZero g] :
    (extents g n k).flatMap (fun e => List.range' e.1 e.2) = List.range' n k := by
  induction n, k using extents.induct g with
  | case1 n => rw [extents_zero]; rfl
  | case2 n k hk ih =>
    have hmin : min k (g - n % g) + (k - min k (g - n % g)) = k := by omega
    rw [extents_cons (by omega), List.flatMap_cons, ih, List.range'_append_1, hmin]

theorem sum_extents (g n k : Nat) [NeZero g] : ((extents g n k).map Prod.snd).sum = k := by
  induction n, k using extents.induct g with
  | case1 n => rw [extents_zero]; rfl
  | case2 n k hk ih =>
    rw [extents_cons (by omega), List.map_cons, List.sum_cons, ih]
    omega

/-- Each piece lies in the run and in one group. -/
theorem extents_inside {e : Nat × Nat} (he : e ∈ extents g n k) :
    0 < e.2 ∧ e.1 % g + e.2 ≤ g ∧ n ≤ e.1 ∧ e.1 + e.2 ≤ n + k := by
  induction n, k using extents.induct g with
  | case1 n =>
    rw [extents_zero] at he
    cases he
  | case2 n k hk ih =>
    have hmod := Nat.mod_lt n (Nat.pos_of_neZero g)
    rw [extents_cons (by omega), List.mem_cons] at he
    rcases he with rfl | he
    · dsimp only
      omega
    · obtain ⟨hpos, hgroup, hfirst, hlast⟩ := ih he
      exact ⟨hpos, hgroup, by omega, by omega⟩

/-- A run touches at most one group more than it fills. -/
theorem length_extents_le (g n k : Nat) [NeZero g] : g * (extents g n k).length + 1 ≤ k + n % g + g := by
  have hg := Nat.pos_of_neZero g
  induction n, k using extents.induct g with
  | case1 n =>
    rw [extents_zero, List.length_nil]
    omega
  | case2 n k hk ih =>
    have hmod := Nat.mod_lt n hg
    rw [extents_cons (by omega), List.length_cons, Nat.mul_add, Nat.mul_one]
    rcases Nat.le_total k (g - n % g) with hle | hle
    · -- the run ends in this group
      rw [Nat.min_eq_left hle, Nat.sub_self, extents_zero, List.length_nil]
      omega
    · have hnext : (n + (g - n % g)) % g = 0 := by
        have hdiv := Nat.div_add_mod n g
        have hsum : n + (g - n % g) = g * (n / g + 1) := by rw [Nat.mul_add]; omega
        rw [hsum, Nat.mul_mod_right]
      rw [Nat.min_eq_right hle] at ih ⊢
      rw [hnext] at ih
      omega

end

end BootPerl
