import Mathlib.Algebra.BigOperators.Intervals
import BootPerl.Lib.Region

/-!
# Sizes of lists of regions

What a list of regions holds together is what it covers, address by address. So two lists that cover every address as often have
the same size.
-/

namespace BootPerl

/-- The addresses that the regions of a list hold together. -/
def totalSize (l : List Region) : Nat := (l.map Region.size).sum

@[simp] theorem totalSize_nil : totalSize [] = 0 := rfl

@[simp] theorem totalSize_cons (r : Region) (l : List Region) : totalSize (r :: l) = r.size + totalSize l := by
  simp [totalSize]

@[simp] theorem totalSize_append (l l' : List Region) : totalSize (l ++ l') = totalSize l + totalSize l' := by
  simp [totalSize]

/-- A region covers as many addresses as it holds. -/
theorem Region.sum_ind {r : Region} {b : Nat} (h : r.stop ≤ b) : ∑ a ∈ Finset.range b, r.ind a = r.size := by
  have hfilter : (Finset.range b).filter (fun a => r.addr ≤ a ∧ a < r.addr + r.size) = Finset.Ico r.addr (r.addr + r.size) := by
    ext a
    rw [Region.stop] at h
    simp only [Finset.mem_filter, Finset.mem_range, Finset.mem_Ico]
    omega
  simp only [Region.ind]
  rw [← Finset.card_filter, hfilter, Nat.card_Ico, Nat.add_sub_cancel_left]

/-- A list of regions covers as many addresses, counted as often as they are covered, as its regions hold. -/
theorem sum_coverage {l : List Region} {b : Nat} (h : ∀ r ∈ l, r.stop ≤ b) :
    ∑ a ∈ Finset.range b, coverage l a = totalSize l := by
  induction l with
  | nil => simp
  | cons r l ih =>
    obtain ⟨hr, hl⟩ := List.forall_mem_cons.1 h
    simp only [coverage_cons]
    rw [Finset.sum_add_distrib, Region.sum_ind hr, ih hl, totalSize_cons]

/-- Lists that cover every address as often have the same size. -/
theorem totalSize_congr {l l' : List Region} {b : Nat} (h : ∀ r ∈ l, r.stop ≤ b) (h' : ∀ r ∈ l', r.stop ≤ b)
    (hc : ∀ a, coverage l a = coverage l' a) : totalSize l = totalSize l' := by
  rw [← sum_coverage h, ← sum_coverage h']
  exact Finset.sum_congr rfl fun a _ => hc a

end BootPerl
