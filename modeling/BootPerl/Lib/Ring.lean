import Mathlib.Data.List.Chain
import Mathlib.Data.List.Nodup
import Mathlib.Logic.Function.Basic

/-!
# Doubly linked rings

Nodes with a link forward and a link back, as two functions, and the rings they make up: `Ring nxt prv b l` says that the links
run from `b` through the nodes of `l` in order and back to `b`. Three edits: the ring of two nodes, a node linked in at the tail
(before `b`), and a node unlinked. Each is stated for the link functions that the edit writes, with `Function.update`.
-/

namespace BootPerl

section
variable {α : Type} {nxt prv nxt' prv' : α → α}

/-- `x` is directly before `y`, by the link forward and by the link back. -/
def Link (nxt prv : α → α) (x y : α) : Prop := nxt x = y ∧ prv y = x

/-- The links run from `b` through `l` and back to `b`. -/
def Ring (nxt prv : α → α) (b : α) (l : List α) : Prop := List.IsChain (Link nxt prv) (b :: (l ++ [b]))

/-- A chain reads the links forward of all nodes but the last, and the links back of all nodes but the first. -/
theorem chain_congr {l : List α} (h : List.IsChain (Link nxt prv) l) (hn : ∀ x ∈ l.dropLast, nxt' x = nxt x)
    (hp : ∀ y ∈ l.tail, prv' y = prv y) : List.IsChain (Link nxt' prv') l := by
  induction l with
  | nil => exact List.IsChain.nil
  | cons a l ih =>
    cases l with
    | nil => exact List.isChain_singleton a
    | cons c l =>
      rw [List.isChain_cons_cons] at h ⊢
      refine ⟨⟨?_, ?_⟩, ih h.2 (fun x hx => hn x ?_) fun y hy => hp y (List.mem_cons_of_mem _ hy)⟩
      · rw [hn a (by simp), h.1.1]
      · rw [hp c (by simp), h.1.2]
      · rw [List.dropLast_cons_cons]
        exact List.mem_cons_of_mem _ hx

/-- A ring reads the links of its nodes only. -/
theorem Ring.congr {b : α} {l : List α} (h : Ring nxt prv b l) (hn : ∀ x ∈ b :: l, nxt' x = nxt x)
    (hp : ∀ x ∈ b :: l, prv' x = prv x) : Ring nxt' prv' b l := by
  refine chain_congr h (fun x hx => hn x ?_) fun y hy => hp y ?_
  · rwa [← List.cons_append, List.dropLast_concat] at hx
  · rw [List.tail_cons, List.mem_append, List.mem_singleton] at hy
    exact List.mem_cons.2 hy.symm

/-- A list that is not empty ends in its last node. -/
theorem exists_concat (b : α) (l : List α) : ∃ init z, b :: l = init ++ [z] :=
  ⟨_, _, (List.dropLast_append_getLast (List.cons_ne_nil b l)).symm⟩

/-- The node after a node of a ring is in the ring, and the node before it is. -/
theorem Ring.next_mem {b : α} {l : List α} (h : Ring nxt prv b l) {x : α} (hx : x ∈ b :: l) : nxt x ∈ b :: l := by
  obtain ⟨pre, post, hl⟩ := List.append_of_mem hx
  unfold Ring at h
  rw [← List.cons_append, hl, List.append_assoc, List.cons_append] at h
  have hchain := (List.isChain_split.1 h).2
  rw [hl]
  cases post with
  | nil =>
    have hb : nxt x = b := (List.isChain_cons_cons.1 hchain).1.1
    rw [hb, ← hl]
    exact List.mem_cons_self
  | cons y post =>
    have hy : nxt x = y := (List.isChain_cons_cons.1 hchain).1.1
    rw [hy]
    simp

/-- The node after `b`: the first of the list, or `b` alone. -/
theorem Ring.next_head {b : α} {l : List α} (h : Ring nxt prv b l) : nxt b = l.headD b := by
  cases l with
  | nil => exact (List.isChain_cons_cons.1 h).1.1
  | cons x l => exact (List.isChain_cons_cons.1 h).1.1

/-- The node after a node of the list: the next of the list, or `b` after the last. -/
theorem Ring.next_eq {b x : α} {pre post : List α} (h : Ring nxt prv b (pre ++ x :: post)) : nxt x = post.headD b := by
  have hsplit : List.IsChain (Link nxt prv) ((b :: pre) ++ x :: (post ++ [b])) := by simpa [Ring] using h
  have hchain := (List.isChain_split.1 hsplit).2
  cases post with
  | nil => exact (List.isChain_cons_cons.1 hchain).1.1
  | cons y post => exact (List.isChain_cons_cons.1 hchain).1.1

/-- The node before `b`: the last of the list, or `b` alone. -/
theorem Ring.prev_head {b : α} {l : List α} (h : Ring nxt prv b l) : prv b ∈ b :: l := by
  obtain ⟨init, z, hl⟩ := exists_concat b l
  unfold Ring at h
  rw [← List.cons_append, hl, List.append_assoc] at h
  rw [(List.isChain_cons_cons.1 (List.isChain_split.1 h).2).1.2, hl]
  simp

/-- The neighbours of a node of the list. -/
theorem Ring.neighbours {b x : α} {pre post : List α} (h : Ring nxt prv b (pre ++ x :: post)) :
    nxt x ∈ post ++ [b] ∧ prv x ∈ b :: pre := by
  obtain ⟨init, z, hpre⟩ := exists_concat b pre
  unfold Ring at h
  rw [List.append_assoc, ← List.cons_append, hpre, List.cons_append, List.append_assoc, List.singleton_append,
    List.isChain_append_cons_cons] at h
  obtain ⟨-, hzx, hchain⟩ := h
  refine ⟨?_, by rw [hpre, hzx.2]; simp⟩
  cases post with
  | nil =>
    rw [(List.isChain_cons_cons.1 hchain).1.1]
    exact List.mem_singleton_self b
  | cons c post =>
    rw [(List.isChain_cons_cons.1 hchain).1.1]
    exact List.mem_cons_self

/-- The node before a node of a ring is in the ring. -/
theorem Ring.prev_mem {b : α} {l : List α} (h : Ring nxt prv b l) {x : α} (hx : x ∈ b :: l) : prv x ∈ b :: l := by
  rcases List.mem_cons.1 hx with rfl | hx
  · exact h.prev_head
  · obtain ⟨pre, post, rfl⟩ := List.append_of_mem hx
    rcases List.mem_cons.1 h.neighbours.2 with he | hm
    · exact List.mem_cons.2 (Or.inl he)
    · exact List.mem_cons_of_mem _ (List.mem_append_left _ hm)

/-- The links say which nodes lie between two that a chain leads through. -/
theorem chain_unique {b : α} {l l' : List α} : ∀ {a : α}, List.IsChain (Link nxt prv) (a :: (l ++ [b])) →
    List.IsChain (Link nxt prv) (a :: (l' ++ [b])) → b ∉ l → b ∉ l' → l = l' := by
  induction l generalizing l' with
  | nil =>
    intro a h h' _ hb'
    cases l' with
    | nil => rfl
    | cons y l' =>
      have hy : b = y := (List.isChain_cons_cons.1 h).1.1.symm.trans (List.isChain_cons_cons.1 h').1.1
      exact absurd (hy ▸ List.mem_cons_self) hb'
  | cons x l ih =>
    intro a h h' hb hb'
    obtain ⟨hax, hrest⟩ := List.isChain_cons_cons.1 h
    cases l' with
    | nil =>
      have hx : x = b := hax.1.symm.trans (List.isChain_cons_cons.1 h').1.1
      exact absurd (hx ▸ List.mem_cons_self) hb
    | cons y l' =>
      obtain ⟨hay, hrest'⟩ := List.isChain_cons_cons.1 h'
      obtain rfl : x = y := hax.1.symm.trans hay.1
      rw [ih hrest hrest' (fun hm => hb (List.mem_cons_of_mem x hm)) fun hm => hb' (List.mem_cons_of_mem x hm)]

/-- The links say which nodes a ring is made of, and in which order. -/
theorem Ring.unique {b : α} {l l' : List α} (h : Ring nxt prv b l) (h' : Ring nxt prv b l') (hb : b ∉ l) (hb' : b ∉ l') : l = l' :=
  chain_unique h h' hb hb'

/-! ## The three edits -/

variable [DecidableEq α]

/-- Two nodes linked to each other. -/
theorem ring_pair {b t : α} (h : t ≠ b) :
    Ring (Function.update (Function.update nxt b t) t b) (Function.update (Function.update prv b t) t b) b [t] := by
  refine List.IsChain.cons_cons ⟨?_, ?_⟩ (List.IsChain.cons_cons ⟨?_, ?_⟩ (List.isChain_singleton b))
  · rw [Function.update_of_ne h.symm, Function.update_self]
  · rw [Function.update_self]
  · rw [Function.update_self]
  · rw [Function.update_of_ne h.symm, Function.update_self]

/-- A node linked in before `b` becomes the last of the list. -/
theorem Ring.append {b t : α} {l : List α} (h : Ring nxt prv b l) (hnd : (b :: l).Nodup) (ht : t ∉ b :: l) :
    Ring (Function.update (Function.update nxt (prv b) t) t b) (Function.update (Function.update prv t (prv b)) b t) b
      (l ++ [t]) := by
  obtain ⟨init, z, hl⟩ := exists_concat b l
  unfold Ring at h ⊢
  rw [← List.cons_append, hl, List.append_assoc] at h
  obtain ⟨hchain, hlast⟩ := List.isChain_split.1 h
  have hz : prv b = z := (List.isChain_cons_cons.1 hlast).1.2
  have htb : t ≠ b := fun hb => ht (hb ▸ List.mem_cons_self)
  have htz : t ≠ z := fun hb => ht (by rw [hl, hb]; simp)
  have hzinit : z ∉ init := by
    rw [hl, List.nodup_append] at hnd
    exact fun hz => hnd.2.2 z hz z (by simp) rfl
  have htail : (init ++ [z]).tail = l := by rw [← hl]; rfl
  rw [hz, List.append_assoc, ← List.cons_append, hl, List.append_assoc, List.singleton_append, List.singleton_append]
  refine List.isChain_append_cons_cons.2 ⟨chain_congr hchain (fun x hx => ?_) fun y hy => ?_, ⟨?_, ?_⟩,
    List.IsChain.cons_cons ⟨?_, ?_⟩ (List.isChain_singleton b)⟩
  · rw [List.dropLast_concat] at hx
    have hxt : x ≠ t := fun hb => ht (by rw [hl, ← hb]; simp [hx])
    have hxz : x ≠ z := fun hb => hzinit (hb ▸ hx)
    rw [Function.update_of_ne hxt, Function.update_of_ne hxz]
  · rw [htail] at hy
    have hyb : y ≠ b := fun hb => (List.nodup_cons.1 hnd).1 (hb ▸ hy)
    have hyt : y ≠ t := fun hb => ht (List.mem_cons_of_mem _ (hb ▸ hy))
    rw [Function.update_of_ne hyb, Function.update_of_ne hyt]
  · rw [Function.update_of_ne htz.symm, Function.update_self]
  · rw [Function.update_of_ne htb, Function.update_self]
  · rw [Function.update_self]
  · rw [Function.update_self]

/-- Unlinking a node of the list leaves the ring of the others. -/
theorem Ring.remove {b x : α} {pre post : List α} (h : Ring nxt prv b (pre ++ x :: post)) (hnd : (b :: (pre ++ x :: post)).Nodup) :
    Ring (Function.update nxt (prv x) (nxt x)) (Function.update prv (nxt x) (prv x)) b (pre ++ post) := by
  obtain ⟨init, z, hpre⟩ := exists_concat b pre
  obtain ⟨y, rest, hpost⟩ : ∃ y rest, post ++ [b] = y :: rest := by
    cases post with
    | nil => exact ⟨b, [], rfl⟩
    | cons c post => exact ⟨c, post ++ [b], rfl⟩
  unfold Ring at h ⊢
  rw [List.append_assoc, ← List.cons_append, hpre, List.cons_append, hpost, List.append_assoc, List.singleton_append,
    List.isChain_append_cons_cons, List.isChain_cons_cons] at h
  obtain ⟨hchain, hzx, hxy, hrest⟩ := h
  rw [List.append_assoc, ← List.cons_append, hpre, hpost, List.append_assoc, List.singleton_append]
  rw [← List.cons_append, List.nodup_append] at hnd
  obtain ⟨hnpre, hnpost, hdisj⟩ := hnd
  have hrestb : ∀ w ∈ post ++ [b], w = b ∨ w ∈ post := by
    intro w hw
    simp only [List.mem_append, List.mem_singleton] at hw
    exact hw.symm
  have hynd : (y :: rest).Nodup := by
    rw [← hpost, List.nodup_append]
    refine ⟨hnpost.of_cons, List.nodup_singleton b, fun w hw v hv => ?_⟩
    rw [List.mem_singleton] at hv
    exact fun he => hdisj b List.mem_cons_self w (List.mem_cons_of_mem _ hw) (by rw [he, hv])
  refine List.isChain_append_cons_cons.2 ⟨chain_congr hchain (fun w hw => ?_) fun w hw => ?_, ⟨?_, ?_⟩,
    chain_congr hrest (fun w hw => ?_) fun w hw => ?_⟩
  · rw [List.dropLast_concat] at hw
    rw [Function.update_of_ne]
    rw [hpre, List.nodup_append] at hnpre
    exact fun he => hnpre.2.2 w hw z (by simp) (by rw [he, hzx.2])
  · have hwpre : w ∈ pre := by rwa [← hpre] at hw
    rw [Function.update_of_ne]
    intro he
    have hy : w ∈ post ++ [b] := by rw [hpost, he, hxy.1]; exact List.mem_cons_self
    rcases hrestb w hy with rfl | hw'
    · exact (List.nodup_cons.1 hnpre).1 hwpre
    · exact hdisj w (List.mem_cons_of_mem _ hwpre) w (List.mem_cons_of_mem _ hw') rfl
  · rw [hzx.2, Function.update_self, hxy.1]
  · rw [hxy.1, Function.update_self, hzx.2]
  · have hwpost : w ∈ post := by rwa [← hpost, List.dropLast_concat] at hw
    rw [Function.update_of_ne]
    intro he
    have hz : z ∈ b :: pre := by rw [hpre]; simp
    exact hdisj z hz w (List.mem_cons_of_mem _ hwpost) (by rw [he, hzx.2])
  · rw [List.tail_cons] at hw
    rw [Function.update_of_ne]
    exact fun he => (List.nodup_cons.1 hynd).1 (by rwa [he, hxy.1] at hw)

end

end BootPerl
