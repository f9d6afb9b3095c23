import Mathlib.Data.List.Nodup
import Mathlib.Data.Set.Insert
import Mathlib.Logic.Function.Basic

/-!
# Doubly linked lists that end in null

Nodes with a link forward and a link back, as two functions, and the lists they make up from a head on. One edit, the push of a
node in front of the head: a node that was not in the list becomes its first, and a node that was closes the links into a loop,
which no later push opens again.
-/

namespace BootPerl

section
variable {α : Type} {null : α} {nxt prv nxt' prv' : α → α}

/-- The links forward run from `cur` through `l` to null, and the link back of each node leads to the one before it, of the first
to `before`. -/
def NullList (null : α) (nxt prv : α → α) : α → α → List α → Prop
  | _, cur, [] => cur = null
  | before, cur, x :: l => cur = x ∧ x ≠ null ∧ prv x = before ∧ NullList null nxt prv x (nxt x) l

/-- The links forward run from `cur` through nodes of `P` for ever. -/
def LoopIn (null : α) (nxt : α → α) (P : α → Prop) (cur : α) : Prop :=
  ∃ C : Set α, cur ∈ C ∧ ∀ x ∈ C, x ≠ null ∧ P x ∧ nxt x ∈ C

/-- A list reads the links of its nodes only. -/
theorem NullList.congr {l : List α} : ∀ {before cur : α}, NullList null nxt prv before cur l → (∀ x ∈ l, nxt' x = nxt x) →
    (∀ x ∈ l, prv' x = prv x) → NullList null nxt' prv' before cur l := by
  induction l with
  | nil => intro before cur h _ _; exact h
  | cons a l ih =>
    intro before cur h hn hp
    obtain ⟨hcur, h0, hprv, hrest⟩ := h
    refine ⟨hcur, h0, ?_, ?_⟩
    · rw [hp a List.mem_cons_self, hprv]
    · rw [hn a List.mem_cons_self]
      exact ih hrest (fun x hx => hn x (List.mem_cons_of_mem a hx)) fun x hx => hp x (List.mem_cons_of_mem a hx)

/-- The head of a list that is not null is one of its nodes. -/
theorem NullList.head_mem {before cur : α} {l : List α} (h : NullList null nxt prv before cur l) (h0 : cur ≠ null) : cur ∈ l := by
  cases l with
  | nil => exact absurd h h0
  | cons a l =>
    obtain ⟨rfl, -⟩ := h
    exact List.mem_cons_self

/-- The way from the head to a node of the list stays in the nodes up to it. -/
theorem NullList.upto {x : α} {post : List α} {pre : List α} : ∀ {before cur : α},
    NullList null nxt prv before cur (pre ++ x :: post) →
    cur ∈ pre ++ [x] ∧ (∀ y ∈ pre, nxt y ∈ pre ++ [x]) ∧ ∀ y ∈ pre ++ [x], y ≠ null := by
  induction pre with
  | nil =>
    intro before cur h
    obtain ⟨rfl, h0, -⟩ := h
    simpa using h0
  | cons a pre ih =>
    intro before cur h
    obtain ⟨rfl, h0, -, hrest⟩ := h
    obtain ⟨hnext, hclosed, hnull⟩ := ih hrest
    refine ⟨List.mem_cons_self, fun y hy => ?_, fun y hy => ?_⟩
    · rcases List.mem_cons.1 hy with rfl | hy
      · exact List.mem_cons_of_mem _ hnext
      · exact List.mem_cons_of_mem _ (hclosed y hy)
    · rcases List.mem_cons.1 hy with rfl | hy
      · exact h0
      · exact hnull y hy

/-- A loop reads the links forward of its nodes only. -/
theorem LoopIn.congr {P : α → Prop} {cur : α} (h : LoopIn null nxt P cur) (hn : ∀ x, P x → nxt' x = nxt x) :
    LoopIn null nxt' P cur := by
  obtain ⟨C, hcur, hC⟩ := h
  refine ⟨C, hcur, fun x hx => ?_⟩
  obtain ⟨h0, hP, hnext⟩ := hC x hx
  rw [hn x hP]
  exact ⟨h0, hP, hnext⟩

/-! ## The push -/

variable [DecidableEq α]

/-- The links back after the push of `x` in front of `cur`. -/
def pushPrev (null : α) (prv : α → α) (x cur : α) : α → α :=
  if cur ≠ null then Function.update (Function.update prv x null) cur x else Function.update prv x null

/-- The push writes the links back of the new node and of the old head. -/
theorem pushPrev_of_ne {x cur y : α} (hx : y ≠ x) (hcur : y ≠ null → y ≠ cur) : pushPrev null prv x cur y = prv y := by
  unfold pushPrev
  split
  · rename_i hc
    by_cases hy : y = null
    · have hyc : y ≠ cur := fun he => hc (he ▸ hy)
      rw [Function.update_of_ne hyc, Function.update_of_ne hx]
    · rw [Function.update_of_ne (hcur hy), Function.update_of_ne hx]
  · rw [Function.update_of_ne hx]

/-- A node that was not in the list becomes its first. -/
theorem NullList.push {l : List α} {cur x : α} (h : NullList null nxt prv null cur l) (hnd : l.Nodup) (h0 : x ≠ null)
    (hx : x ∉ l) : NullList null (Function.update nxt x cur) (pushPrev null prv x cur) null x (x :: l) := by
  refine ⟨rfl, h0, ?_, ?_⟩
  · unfold pushPrev
    split
    · rename_i hcur
      have hne : x ≠ cur := fun he => hx (he ▸ h.head_mem hcur)
      rw [Function.update_of_ne hne, Function.update_self]
    · rw [Function.update_self]
  · rw [Function.update_self]
    cases l with
    | nil => exact h
    | cons a l =>
      obtain ⟨rfl, hc0, -, hrest⟩ := h
      have hxa : cur ≠ x := fun he => hx (he ▸ List.mem_cons_self)
      refine ⟨rfl, hc0, ?_, ?_⟩
      · unfold pushPrev
        rw [if_pos hc0, Function.update_self]
      · rw [Function.update_of_ne hxa]
        refine hrest.congr (fun y hy => ?_) fun y hy => ?_
        · have hyx : y ≠ x := fun he => hx (he ▸ List.mem_cons_of_mem cur hy)
          rw [Function.update_of_ne hyx]
        · have hyx : y ≠ x := fun he => hx (he ▸ List.mem_cons_of_mem cur hy)
          have hyc : y ≠ cur := fun he => (List.nodup_cons.1 hnd).1 (he ▸ hy)
          exact pushPrev_of_ne hyx fun _ => hyc

/-- A node that was in the list closes the links into a loop. -/
theorem NullList.push_mem {P : α → Prop} {l : List α} {before cur x : α} (h : NullList null nxt prv before cur l) (hx : x ∈ l)
    (hnd : l.Nodup) (hP : ∀ y ∈ l, P y) : LoopIn null (Function.update nxt x cur) P x := by
  obtain ⟨pre, post, rfl⟩ := List.append_of_mem hx
  obtain ⟨hcur, hclosed, hnull⟩ := h.upto
  refine ⟨{y | y ∈ pre ++ [x]}, by simp, fun y hy => ⟨hnull y hy, hP y ?_, ?_⟩⟩
  · rcases List.mem_append.1 hy with hy | hy
    · exact List.mem_append_left _ hy
    · rw [List.mem_singleton.1 hy]
      exact hx
  · rcases List.mem_append.1 hy with hy | hy
    · have hyx : y ≠ x := fun he => (List.nodup_append.1 hnd).2.2 y hy x List.mem_cons_self he
      rw [Function.update_of_ne hyx]
      exact hclosed y hy
    · rw [List.mem_singleton.1 hy, Function.update_self]
      exact hcur

/-- A push in front of a loop leads into the loop. -/
theorem LoopIn.push {P : α → Prop} {cur x : α} (h : LoopIn null nxt P cur) (h0 : x ≠ null) (hx : P x) :
    LoopIn null (Function.update nxt x cur) P x := by
  obtain ⟨C, hcur, hC⟩ := h
  refine ⟨insert x C, Set.mem_insert x C, fun y hy => ?_⟩
  by_cases hyx : y = x
  · rw [hyx, Function.update_self]
    exact ⟨h0, hx, Set.mem_insert_of_mem x hcur⟩
  · obtain ⟨hy0, hPy, hnext⟩ := hC y (Set.mem_of_mem_insert_of_ne hy hyx)
    rw [Function.update_of_ne hyx]
    exact ⟨hy0, hPy, Set.mem_insert_of_mem x hnext⟩

end

end BootPerl
