import BootPerl.Lib.Memory
import BootPerl.Lib.Region

/-!
# Free lists kept inside the memory they list

A singly linked list whose nodes lie at the start of the free regions: a count of units in the first `w` bytes of a node, the
address of the next node in the four bytes from its fifth. The list hangs from a head node of count zero. `Linked` says that a
memory holds a list of regions in this form, the head's (empty) region first.

Insertion is the search for the two nodes around an address (`scan`) and two merges: with the node after (`spliceNext`) and
with the node before (`splicePrev`). `linked_splice` says that it performs `insertAfter`, and that it stores into the nodes only.
-/

namespace BootPerl

namespace Mem

/-- The `next` field of a node. -/
def next (m : Mem) (q : Nat) : Nat := m.load (q + 4) 4

/-- Set the `next` field of a node. -/
def setNext (m : Mem) (q v : Nat) : Mem := m.store (q + 4) 4 v

/-- Walk from node `q` to the last node before address `cur`: that node, and the one after it (zero at the end). -/
def scan (m : Mem) (cur : Nat) : Nat → Nat → Option (Nat × Nat)
  | 0, _ => none
  | fuel + 1, q => if m.next q = 0 ∨ cur < m.next q then some (q, m.next q) else m.scan cur fuel (m.next q)

/-- Merge `n` units at `cur` with the node `p` after them, if they touch: the memory and the count of units at `cur`. -/
def spliceNext (u w : Nat) (m : Mem) (p cur n : Nat) : Mem × Nat :=
  if cur + u * n = p ∧ p ≠ 0 then (m.setNext cur (m.next p), n + m.load p w) else (m.setNext cur p, n)

/-- Merge `n` units at `cur`, whose `next` field is set, into the node `q` before them, if they touch, else link them in. -/
def splicePrev (u w : Nat) (m : Mem) (q cur n : Nat) : Mem :=
  if q + u * m.load q w = cur then (m.store q w (m.load q w + n)).setNext q ((m.store q w (m.load q w + n)).next cur)
  else (m.setNext q cur).store cur w n

theorem spliceNext_touch {u w : Nat} {m : Mem} {p cur n : Nat} (h : cur + u * n = p) (hp : p ≠ 0) :
    m.spliceNext u w p cur n = (m.setNext cur (m.next p), n + m.load p w) := if_pos ⟨h, hp⟩

theorem spliceNext_gap {u w : Nat} {m : Mem} {p cur n : Nat} (h : ¬(cur + u * n = p ∧ p ≠ 0)) :
    m.spliceNext u w p cur n = (m.setNext cur p, n) := if_neg h

/-- Insert `n` units at `cur` between the nodes `q` and `p`. -/
def splice (u w : Nat) (m : Mem) (q p cur n : Nat) : Mem :=
  (m.spliceNext u w p cur n).1.splicePrev u w q cur (m.spliceNext u w p cur n).2

end Mem

open Mem

/-- The address of the first region of a list, zero if there is none. -/
def firstAddr : List Region → Nat
  | [] => 0
  | e :: _ => e.addr

theorem firstAddr_lt {b : Nat} {l : List Region} (hb : 0 < b) (h : ∀ r ∈ l, r.addr < b) : firstAddr l < b := by
  cases l with
  | nil => exact hb
  | cons f fs => exact h f List.mem_cons_self

/-- The memory holds the list: each node its count of units and the address of the next node. -/
def Linked (u w : Nat) (m : Mem) : List Region → Prop
  | [] => True
  | e :: es => u * m.load e.addr w = e.size ∧ m.next e.addr = firstAddr es ∧ Linked u w m es

/-- The bytes of the nodes of a list. -/
def nodeBytes (l : List Region) : Set Nat := {a | ∃ r ∈ l, r.addr ≤ a ∧ a < r.addr + 8}

/-- Two nodes share no byte. -/
def NodeApart (r s : Region) : Prop := r.addr + 8 ≤ s.addr ∨ s.addr + 8 ≤ r.addr

theorem mem_nodeBytes_singleton {e : Region} {a : Nat} : a ∈ nodeBytes [e] ↔ e.addr ≤ a ∧ a < e.addr + 8 := by
  constructor
  · rintro ⟨r, hr, ha⟩
    rw [List.mem_singleton] at hr
    exact hr ▸ ha
  · exact fun h => ⟨e, List.mem_singleton_self e, h⟩

theorem NodeApart.symm {r s : Region} (h : NodeApart r s) : NodeApart s r := Or.symm h

section
variable {u w : Nat} {m m' : Mem}

/-- The list is held by every memory that reads the same in its nodes. -/
theorem Linked.congr {l : List Region} (h : Linked u w m l)
    (hag : ∀ r ∈ l, m'.load r.addr w = m.load r.addr w ∧ m'.next r.addr = m.next r.addr) : Linked u w m' l := by
  induction l with
  | nil => trivial
  | cons e es ih =>
    obtain ⟨hs, hn, hl⟩ := h
    obtain ⟨h1, h2⟩ := hag e List.mem_cons_self
    exact ⟨by rw [h1, hs], by rw [h2, hn], ih hl fun r hr => hag r (List.mem_cons_of_mem _ hr)⟩

/-- A memory holds one list behind a node. -/
theorem Linked.unique {l : List Region} : ∀ {e : Region} {l' : List Region}, Linked u w m (e :: l) → Linked u w m (e :: l') →
    (∀ r ∈ l, 0 < r.addr) → (∀ r ∈ l', 0 < r.addr) → l = l' := by
  induction l with
  | nil =>
    intro e l' h h' _ hpos'
    cases l' with
    | nil => rfl
    | cons f fs => exact absurd (h.2.1.symm.trans h'.2.1) (Nat.ne_of_lt (hpos' f List.mem_cons_self))
  | cons f fs ih =>
    intro e l' h h' hpos hpos'
    cases l' with
    | nil => exact absurd (h'.2.1.symm.trans h.2.1) (Nat.ne_of_lt (hpos f List.mem_cons_self))
    | cons f' fs' =>
      have haddr : f.addr = f'.addr := h.2.1.symm.trans h'.2.1
      have hsize : f.size = f'.size := by rw [← h.2.2.1, ← h'.2.2.1, haddr]
      have hf : f = f' := by
        cases f
        cases f'
        simp only at haddr hsize
        rw [haddr, hsize]
      subst hf
      rw [ih h.2.2 h'.2.2 (fun r hr => hpos r (List.mem_cons_of_mem _ hr)) fun r hr => hpos' r (List.mem_cons_of_mem _ hr)]

/-- The count field of a listed region. -/
theorem Linked.count {l : List Region} (h : Linked u w m l) : ∀ r ∈ l, u * m.load r.addr w = r.size := by
  induction l with
  | nil => intro r hr; exact absurd hr List.not_mem_nil
  | cons e es ih => exact List.forall_mem_cons.2 ⟨h.1, ih h.2.2⟩

/-- A step that stores outside the nodes keeps the list. -/
theorem Linked.frame (hw : w ≤ 4) {X : Set Nat} {l : List Region} (h : Linked u w m l) (hf : Mem.Frame X m m')
    (hX : ∀ r ∈ l, ∀ a, r.addr ≤ a → a < r.addr + 8 → a ∉ X) : Linked u w m' l := by
  refine h.congr fun r hr => ⟨hf.load fun x h1 h2 => hX r hr x h1 (by omega), ?_⟩
  exact hf.load fun x h1 h2 => hX r hr x (by omega) (by omega)

/-- A store into one node keeps the nodes apart from it. -/
theorem Linked.frame_node (hw : w ≤ 4) {e : Region} {l : List Region} (h : Linked u w m l)
    (hf : Mem.Frame (nodeBytes [e]) m m') (he : ∀ r ∈ l, NodeApart e r) : Linked u w m' l := by
  refine h.frame hw hf fun r hr a h1 h2 hmem => ?_
  rw [mem_nodeBytes_singleton] at hmem
  have := he r hr
  simp only [NodeApart] at this
  omega

theorem frame_setNext (e : Region) (m : Mem) (v : Nat) : Mem.Frame (nodeBytes [e]) m (m.setNext e.addr v) := by
  exact Mem.Frame.store fun x h1 h2 => mem_nodeBytes_singleton.2 (by omega)

theorem frame_storeCount (hw : w ≤ 4) (e : Region) (m : Mem) (v : Nat) :
    Mem.Frame (nodeBytes [e]) m (m.store e.addr w v) := by
  exact Mem.Frame.store fun x h1 h2 => mem_nodeBytes_singleton.2 (by omega)

theorem nodeBytes_mono {l l' : List Region} (h : ∀ r ∈ l, r ∈ l') : ∀ a ∈ nodeBytes l, a ∈ nodeBytes l' := by
  rintro a ⟨r, hr, ha⟩
  exact ⟨r, h r hr, ha⟩

/-- The count field is not touched by a store into the next field of the same node. -/
theorem load_setNext_count (hw : w ≤ 4) {q v : Nat} : (m.setNext q v).load q w = m.load q w :=
  load_store_of_disjoint (by omega)

theorem next_setNext {q v : Nat} (hv : v < 4294967296) : (m.setNext q v).next q = v :=
  load_store_four hv

theorem next_storeCount (hw : w ≤ 4) {q v : Nat} : (m.store q w v).next q = m.next q :=
  load_store_of_disjoint (by omega)

theorem load_storeCount {q v : Nat} (hv : v < 256 ^ w) : (m.store q w v).load q w = v := by
  rw [load_store_same, Nat.mod_eq_of_lt hv]

/-- A node apart from `e` reads the same after a store framed by `e`. -/
theorem load_of_nodeApart (hw : w ≤ 4) {e r : Region} (hf : Mem.Frame (nodeBytes [e]) m m') (h : NodeApart e r) :
    m'.load r.addr w = m.load r.addr w ∧ m'.next r.addr = m.next r.addr := by
  have hout : ∀ x, r.addr ≤ x → x < r.addr + 8 → x ∉ nodeBytes [e] := by
    intro x h1 h2 hmem
    rw [mem_nodeBytes_singleton] at hmem
    simp only [NodeApart] at h
    omega
  exact ⟨hf.load fun x h1 h2 => hout x h1 (by omega), hf.load fun x h1 h2 => hout x (by omega) (by omega)⟩

/-! ## The search -/

/-- The last node of `e :: es` below `cur`. -/
def before (cur : Nat) : Region → List Region → Region
  | e, [] => e
  | e, f :: fs => if cur < f.addr then e else before cur f fs

/-- The regions of `es` above `cur`, when it is ascending. -/
def after (cur : Nat) : List Region → List Region
  | [] => []
  | f :: fs => if cur < f.addr then f :: fs else after cur fs

theorem before_mem (cur : Nat) (es : List Region) : ∀ e, before cur e es ∈ e :: es := by
  induction es with
  | nil => intro e; exact List.mem_cons_self
  | cons f fs ih =>
    intro e
    rw [before]
    split
    · exact List.mem_cons_self
    · exact List.mem_cons_of_mem _ (ih f)

/-- The node the search stops at is the one it started from or lies no higher than `cur`. -/
theorem before_le (cur : Nat) (es : List Region) :
    ∀ e, before cur e es = e ∨ (before cur e es ∈ es ∧ (before cur e es).addr ≤ cur) := by
  induction es with
  | nil => intro e; exact Or.inl rfl
  | cons f fs ih =>
    intro e
    rw [before]
    split
    · exact Or.inl rfl
    · rename_i hlt
      rcases ih f with heq | ⟨hmem, hle⟩
      · rw [heq]
        exact Or.inr ⟨List.mem_cons_self, by omega⟩
      · exact Or.inr ⟨List.mem_cons_of_mem _ hmem, hle⟩

/-- In a canonical list it is the region that ends at `cur`, if there is one. -/
theorem before_eq_of_stop {cur : Nat} {es : List Region} :
    ∀ {e b : Region}, Canonical es → b ∈ es → 0 < b.size → b.stop = cur → before cur e es = b := by
  induction es with
  | nil => intro e b _ hb; exact absurd hb List.not_mem_nil
  | cons f fs ih =>
    intro e b h hb h0 hstop
    have hgap : ∀ r ∈ fs, f.stop < r.addr := List.pairwise_cons.1 h |>.1
    simp only [Region.stop] at hstop hgap
    rcases List.mem_cons.1 hb with rfl | hb
    · rw [before, if_neg (by omega)]
      cases fs with
      | nil => rfl
      | cons r rs =>
        have hr := hgap r List.mem_cons_self
        rw [before, if_pos (by omega)]
    · have hb' := hgap b hb
      rw [before, if_neg (by omega)]
      exact ih (List.Pairwise.of_cons h) hb h0 hstop

/-- The search stops at the last region that lies no higher than `cur`. -/
theorem before_append {cur : Nat} {q : Region} {post : List Region} (hq : q.addr ≤ cur) (hpost : ∀ r ∈ post, cur < r.addr)
    {pre : List Region} : ∀ {e : Region}, (∀ r ∈ pre, r.addr ≤ cur) →
      before cur e (pre ++ q :: post) = q ∧ after cur (pre ++ q :: post) = post := by
  induction pre with
  | nil =>
    intro e _
    rw [List.nil_append, before, after, if_neg (Nat.not_lt_of_le hq), if_neg (Nat.not_lt_of_le hq)]
    cases post with
    | nil => exact ⟨rfl, rfl⟩
    | cons f fs =>
      have hf := hpost f List.mem_cons_self
      rw [before, after, if_pos hf, if_pos hf]
      exact ⟨rfl, rfl⟩
  | cons f pre ih =>
    intro e hpre
    obtain ⟨hf, hpre⟩ := List.forall_mem_cons.1 hpre
    rw [List.cons_append, before, after, if_neg (Nat.not_lt_of_le hf), if_neg (Nat.not_lt_of_le hf)]
    exact ih hpre

theorem after_sublist (cur : Nat) (es : List Region) : (after cur es).Sublist es := by
  induction es with
  | nil => exact List.Sublist.refl _
  | cons f fs ih =>
    rw [after]
    split
    · exact List.Sublist.refl _
    · exact ih.cons f

theorem lt_of_mem_after {cur : Nat} {es : List Region} (hasc : es.Pairwise fun r s => r.addr < s.addr) :
    ∀ r ∈ after cur es, cur < r.addr := by
  induction es with
  | nil => exact fun r hr => absurd hr List.not_mem_nil
  | cons f fs ih =>
    obtain ⟨hf, hfs⟩ := List.pairwise_cons.1 hasc
    rw [after]
    split
    · rename_i hlt
      exact List.forall_mem_cons.2 ⟨hlt, fun r hr => Nat.lt_trans hlt (hf r hr)⟩
    · exact ih hfs

theorem linked_after {cur : Nat} {es : List Region} (h : Linked u w m es) : Linked u w m (after cur es) := by
  induction es with
  | nil => trivial
  | cons f fs ih =>
    rw [after]
    split
    · exact h
    · exact ih h.2.2

/-- The search stops between the node before `cur` and the node after it, in as many steps as the list has nodes. -/
theorem scan_eq {cur : Nat} {es : List Region} :
    ∀ {e fuel}, Linked u w m (e :: es) → (∀ r ∈ es, 0 < r.addr) → es.length < fuel →
      m.scan cur fuel e.addr = some ((before cur e es).addr, firstAddr (after cur es)) := by
  induction es with
  | nil =>
    intro e fuel hl _ hf
    obtain ⟨fuel, rfl⟩ := Nat.exists_eq_succ_of_ne_zero (Nat.ne_of_gt hf)
    have hn : m.next e.addr = 0 := hl.2.1
    rw [scan, if_pos (Or.inl hn), hn]
    rfl
  | cons f fs ih =>
    intro e fuel hl hpos hf
    obtain ⟨fuel, rfl⟩ := Nat.exists_eq_succ_of_ne_zero (Nat.ne_of_gt (Nat.zero_lt_of_lt hf))
    have hn : m.next e.addr = f.addr := hl.2.1
    have hf0 := hpos f List.mem_cons_self
    rw [scan, hn, before, after]
    by_cases h : cur < f.addr
    · simp only [if_pos h, if_pos (Or.inr h : f.addr = 0 ∨ cur < f.addr), firstAddr]
    · rw [if_neg (by omega), if_neg h, if_neg h]
      exact ih hl.2.2 (fun r hr => hpos r (List.mem_cons_of_mem _ hr)) (by simpa using hf)

/-! ## The two merges -/

/-- The merge with the node after stores into the node at `cur` only. -/
theorem frame_spliceNext (x : Region) (m : Mem) (p n : Nat) : Mem.Frame (nodeBytes [x]) m (m.spliceNext u w p x.addr n).1 := by
  rw [spliceNext]
  split <;> exact frame_setNext x m _

/-- The merge with the node after: `n` units at `cur` become the first region of `absorb`, the list after it is held, and
only the node at `cur` is stored to. The node may lie over the node it absorbs. -/
theorem linked_spliceNext (hw : w ≤ 4) {cur n : Nat} {es : List Region} (hl : Linked u w m es)
    (hpos : ∀ r ∈ es, 0 < r.addr) (hlt : ∀ r ∈ es, r.addr < 4294967296)
    (hap : ∀ r ∈ (absorb ⟨cur, u * n⟩ es).tail, NodeApart ⟨cur, u * n⟩ r) :
    ∃ ys : List Region, ys.Sublist es ∧
      absorb ⟨cur, u * n⟩ es = ⟨cur, u * (m.spliceNext u w (firstAddr es) cur n).2⟩ :: ys ∧
      (m.spliceNext u w (firstAddr es) cur n).1.next cur = firstAddr ys ∧
      Linked u w (m.spliceNext u w (firstAddr es) cur n).1 ys ∧
      Mem.Frame (nodeBytes [⟨cur, u * n⟩]) m (m.spliceNext u w (firstAddr es) cur n).1 := by
  cases es with
  | nil =>
    rw [show firstAddr [] = 0 from rfl, spliceNext_gap fun h => h.2 rfl]
    exact ⟨[], List.Sublist.refl _, rfl, next_setNext (by decide), trivial, frame_setNext ⟨cur, u * n⟩ m _⟩
  | cons f fs =>
    have hf0 := hpos f List.mem_cons_self
    have hnext : m.next f.addr = firstAddr fs := hl.2.1
    have hsize : u * m.load f.addr w = f.size := hl.1
    rw [show firstAddr (f :: fs) = f.addr from rfl]
    by_cases h : cur + u * n = f.addr
    · rw [absorb_of_touch (show Region.stop ⟨cur, u * n⟩ = f.addr from h), List.tail_cons] at hap
      rw [absorb_of_touch (show Region.stop ⟨cur, u * n⟩ = f.addr from h), spliceNext_touch h (by omega), hnext]
      refine ⟨fs, List.sublist_cons_self _ _, by rw [Nat.mul_add, hsize], ?_, ?_, frame_setNext ⟨cur, u * n⟩ m _⟩
      · exact next_setNext (firstAddr_lt (by decide) fun r hr => hlt r (List.mem_cons_of_mem _ hr))
      · exact hl.2.2.frame_node hw (frame_setNext ⟨cur, u * n⟩ m _) hap
    · rw [absorb_of_gap (show Region.stop ⟨cur, u * n⟩ ≠ f.addr from h), List.tail_cons] at hap
      rw [absorb_of_gap (show Region.stop ⟨cur, u * n⟩ ≠ f.addr from h), spliceNext_gap fun hc => h hc.1]
      refine ⟨f :: fs, List.Sublist.refl _, rfl, ?_, ?_, frame_setNext ⟨cur, u * n⟩ m _⟩
      · exact next_setNext (hlt f List.mem_cons_self)
      · exact hl.frame_node hw (frame_setNext ⟨cur, u * n⟩ m _) hap

/-- The count of units at `cur` after the merge with the node after. -/
theorem spliceNext_snd {cur n : Nat} {es : List Region} (hl : Linked u w m es) (hpos : ∀ r ∈ es, 0 < r.addr) :
    u * (m.spliceNext u w (firstAddr es) cur n).2 = (joined ⟨cur, u * n⟩ es).size := by
  cases es with
  | nil =>
    rw [show firstAddr [] = 0 from rfl, spliceNext_gap fun h => h.2 rfl]
    rfl
  | cons f fs =>
    have hf0 := hpos f List.mem_cons_self
    rw [show firstAddr (f :: fs) = f.addr from rfl]
    by_cases h : cur + u * n = f.addr
    · rw [joined_of_touch (show Region.stop ⟨cur, u * n⟩ = f.addr from h), spliceNext_touch h (by omega), Nat.mul_add, hl.1]
    · rw [joined_of_gap (show Region.stop ⟨cur, u * n⟩ ≠ f.addr from h), spliceNext_gap fun hc => h hc.1]

/-- The count field at `cur` after both merges: the node before took the units in without writing it, or it was written. -/
theorem load_splice (hw : w ≤ 4) {q x : Region} {p n : Nat} (hq : NodeApart q x)
    (hfit : (m.spliceNext u w p x.addr n).2 < 256 ^ w) :
    (m.splice u w q.addr p x.addr n).load x.addr w =
      if q.addr + u * m.load q.addr w = x.addr then m.load x.addr w else (m.spliceNext u w p x.addr n).2 := by
  have hf1 := frame_spliceNext (u := u) (w := w) x m p n
  have hcur : (m.spliceNext u w p x.addr n).1.load x.addr w = m.load x.addr w := by
    rw [spliceNext]
    split <;> exact load_setNext_count hw
  rw [splice, splicePrev, (load_of_nodeApart hw hf1 hq.symm).1]
  split
  · rw [(load_of_nodeApart hw (frame_setNext q _ _) hq).1, (load_of_nodeApart hw (frame_storeCount hw q _ _) hq).1, hcur]
  · exact load_storeCount hfit

/-- The merge with the node before: the list from `e` on is held with `n` units at `cur` absorbed, and only the nodes of `e`
and at `cur` are stored to. -/
theorem linked_splicePrev (hw : w ≤ 4) {cur n : Nat} {e : Region} {ys : List Region}
    (he : u * m.load e.addr w = e.size) (hn : m.next cur = firstAddr ys) (hl : Linked u w m ys)
    (hcur : cur < 4294967296) (hlt : ∀ r ∈ ys, r.addr < 4294967296)
    (hsep : (e :: (⟨cur, u * n⟩ : Region) :: ys).Pairwise NodeApart)
    (hfit : ∀ r ∈ absorb e (⟨cur, u * n⟩ :: ys), r.size < u * 256 ^ w) :
    Linked u w (m.splicePrev u w e.addr cur n) (absorb e (⟨cur, u * n⟩ :: ys)) ∧
      Mem.Frame (nodeBytes [e, ⟨cur, u * n⟩]) m (m.splicePrev u w e.addr cur n) := by
  obtain ⟨hae, hay⟩ := List.pairwise_cons.1 hsep
  have hyc := (List.pairwise_cons.1 hay).1
  have hec : NodeApart e ⟨cur, u * n⟩ := hae _ List.mem_cons_self
  have hey : ∀ r ∈ ys, NodeApart e r := fun r hr => hae r (List.mem_cons_of_mem _ hr)
  simp only [splicePrev]
  by_cases h : e.addr + u * m.load e.addr w = cur
  · rw [absorb_of_touch (show e.stop = cur by rw [Region.stop, ← he, h])] at hfit ⊢
    simp only [if_pos h, ← he] at hfit ⊢
    have hcount : m.load e.addr w + n < 256 ^ w := by
      have := hfit _ List.mem_cons_self
      simp only [← Nat.mul_add] at this
      exact Nat.lt_of_mul_lt_mul_left this
    have hf1 := frame_storeCount hw e m (m.load e.addr w + n)
    have hnc : (m.store e.addr w (m.load e.addr w + n)).next cur = firstAddr ys :=
      (load_of_nodeApart hw hf1 hec).2.trans hn
    have hfl : firstAddr ys < 4294967296 := firstAddr_lt (by decide) hlt
    have hf2 := frame_setNext e (m.store e.addr w (m.load e.addr w + n)) (firstAddr ys)
    rw [hnc]
    refine ⟨⟨?_, next_setNext hfl, ?_⟩, ?_⟩
    · simp only [load_setNext_count hw, load_storeCount hcount, Nat.mul_add]
    · exact (hl.frame_node hw hf1 hey).frame_node hw hf2 hey
    · exact (hf1.trans hf2).mono (nodeBytes_mono (by simp))
  · rw [absorb_of_gap (show e.stop ≠ cur by rw [Region.stop, ← he]; exact h)] at hfit ⊢
    simp only [if_neg h]
    have hcount : n < 256 ^ w := by
      have := hfit ⟨cur, u * n⟩ (by simp)
      exact Nat.lt_of_mul_lt_mul_left this
    have hf1 := frame_setNext e m cur
    have hf2 := frame_storeCount hw ⟨cur, u * n⟩ (m.setNext e.addr cur) n
    have hkeep := load_of_nodeApart hw hf2 hec.symm
    refine ⟨⟨?_, ?_, ?_, ?_, ?_⟩, ?_⟩
    · rw [hkeep.1, load_setNext_count hw, he]
    · rw [hkeep.2, next_setNext hcur]
      rfl
    · rw [load_storeCount hcount]
    · rw [next_storeCount hw, (load_of_nodeApart hw hf1 hec).2, hn]
    · exact (hl.frame_node hw hf1 hey).frame_node hw hf2 hyc
    · exact (hf1.mono (nodeBytes_mono (by simp))).trans (hf2.mono (nodeBytes_mono (by simp)))

/-- At the place of insertion, where the search has stopped, the new units are absorbed from both sides. -/
theorem linked_splice_here (hw : w ≤ 4) {cur n : Nat} {e : Region} {es : List Region} (hl : Linked u w m (e :: es))
    (hpos : ∀ r ∈ es, 0 < r.addr) (hlt : ∀ r ∈ es, r.addr < 4294967296) (hcur : cur < 4294967296) (hsep : (e :: es).Pairwise NodeApart)
    (hec : NodeApart e ⟨cur, u * n⟩) (hap : ∀ r ∈ (absorb ⟨cur, u * n⟩ es).tail, NodeApart ⟨cur, u * n⟩ r)
    (hfit : ∀ r ∈ absorb e (absorb ⟨cur, u * n⟩ es), r.size < u * 256 ^ w) :
    Linked u w (m.splice u w e.addr (firstAddr es) cur n) (absorb e (absorb ⟨cur, u * n⟩ es)) ∧
      Mem.Frame (nodeBytes (e :: ⟨cur, u * n⟩ :: es)) m (m.splice u w e.addr (firstAddr es) cur n) := by
  obtain ⟨hae, hes⟩ := List.pairwise_cons.1 hsep
  obtain ⟨ys, hsub, habs, hnext, hys, hf1⟩ := linked_spliceNext hw hl.2.2 hpos hlt hap
  rw [habs] at hfit hap ⊢
  have he : u * (m.spliceNext u w (firstAddr es) cur n).1.load e.addr w = e.size := by
    rw [(load_of_nodeApart hw hf1 hec.symm).1]
    exact hl.1
  have hsep' : (e :: (⟨cur, u * (m.spliceNext u w (firstAddr es) cur n).2⟩ : Region) :: ys).Pairwise NodeApart := by
    refine List.pairwise_cons.2 ⟨fun r hr => ?_, List.pairwise_cons.2 ⟨hap, hes.sublist hsub⟩⟩
    rcases List.mem_cons.1 hr with rfl | hr
    · exact hec
    · exact hae r (hsub.subset hr)
  obtain ⟨hres, hf2⟩ := linked_splicePrev hw he hnext hys hcur (fun r hr => hlt r (hsub.subset hr)) hsep' hfit
  refine ⟨hres, (hf1.mono (nodeBytes_mono (by simp))).trans (hf2.mono ?_)⟩
  rintro a ⟨r, hr, ha⟩
  simp only [List.mem_cons, List.not_mem_nil, or_false] at hr
  rcases hr with rfl | rfl
  · exact ⟨r, List.mem_cons_self, ha⟩
  · exact ⟨⟨cur, u * n⟩, by simp, ha⟩

theorem firstAddr_absorb (x : Region) (l : List Region) : firstAddr (absorb x l) = x.addr := by
  cases l with
  | nil => rfl
  | cons g gs => rw [absorb]; split <;> rfl

/-- What is inserted after a region leaves its address first. -/
theorem firstAddr_insertAfter (f x : Region) (fs : List Region) : firstAddr (insertAfter f x fs) = f.addr := by
  cases fs with
  | nil => exact firstAddr_absorb f _
  | cons g gs =>
    rw [insertAfter]
    split
    · exact firstAddr_absorb f _
    · rfl

/-- A node apart from others has no byte in theirs. -/
theorem NodeApart.not_mem_nodeBytes {e : Region} {l : List Region} (h : ∀ r ∈ l, NodeApart e r) {a : Nat} (h1 : e.addr ≤ a)
    (h2 : a < e.addr + 8) : a ∉ nodeBytes l := by
  rintro ⟨r, hr, ha⟩
  have hapart := h r hr
  simp only [NodeApart] at hapart
  omega

/-- Inserting `n` units between the node before them and the node after them performs `insertAfter` and stores into the nodes
of the list and of the region inserted only. -/
theorem linked_splice (hw : w ≤ 4) {cur n : Nat} {es : List Region} :
    ∀ {e}, Linked u w m (e :: es) → (∀ r ∈ es, 0 < r.addr) → (∀ r ∈ es, r.addr < 4294967296) → cur < 4294967296 →
      (e :: es).Pairwise NodeApart → NodeApart e ⟨cur, u * n⟩ → (∀ r ∈ es, r.addr ≤ cur → NodeApart r ⟨cur, u * n⟩) →
      (∀ r ∈ (absorb ⟨cur, u * n⟩ (after cur es)).tail, NodeApart ⟨cur, u * n⟩ r) →
      (∀ r ∈ insertAfter e ⟨cur, u * n⟩ es, r.size < u * 256 ^ w) →
      Linked u w (m.splice u w (before cur e es).addr (firstAddr (after cur es)) cur n)
          (insertAfter e ⟨cur, u * n⟩ es) ∧
        Mem.Frame (nodeBytes (e :: ⟨cur, u * n⟩ :: es)) m
          (m.splice u w (before cur e es).addr (firstAddr (after cur es)) cur n) := by
  induction es with
  | nil =>
    intro e hl hpos hlt hcur hsep hec _ hap hfit
    exact linked_splice_here hw hl hpos hlt hcur hsep hec hap hfit
  | cons f fs ih =>
    intro e hl hpos hlt hcur hsep hec hbelow hap hfit
    rw [insertAfter] at hfit ⊢
    rw [after] at hap
    rw [before, after]
    by_cases h : cur < f.addr
    · simp only [if_pos h] at hap hfit ⊢
      exact linked_splice_here hw hl hpos hlt hcur hsep hec hap hfit
    · simp only [if_neg h] at hap hfit ⊢
      rw [List.forall_mem_cons] at hpos hlt hfit hbelow
      obtain ⟨hae, hes⟩ := List.pairwise_cons.1 hsep
      obtain ⟨hres, hfr⟩ := ih hl.2.2 hpos.2 hlt.2 hcur hes (hbelow.1 (by omega)) hbelow.2 hap hfit.2
      have hapart : ∀ r ∈ f :: ⟨cur, u * n⟩ :: fs, NodeApart e r := by
        intro r hr
        simp only [List.mem_cons] at hr
        rcases hr with rfl | rfl | hr
        · exact hae _ List.mem_cons_self
        · exact hec
        · exact hae r (List.mem_cons_of_mem _ hr)
      have hkeep : ∀ a, e.addr ≤ a → a < e.addr + 8 → a ∉ nodeBytes (f :: ⟨cur, u * n⟩ :: fs) := fun _ =>
        NodeApart.not_mem_nodeBytes hapart
      refine ⟨⟨?_, ?_, hres⟩, hfr.mono (nodeBytes_mono fun r hr => ?_)⟩
      · rw [hfr.load fun x h1 h2 => hkeep x h1 (by omega)]
        exact hl.1
      · rw [firstAddr_insertAfter, Mem.next, hfr.load fun x h1 h2 => hkeep x (by omega) (by omega)]
        exact hl.2.1
      · simp only [List.mem_cons] at hr ⊢
        rcases hr with hr | hr | hr <;> simp [hr]

/-- A step that stores into one node only, and leaves there a count and the address of the node after, changes the size of one
region. -/
theorem linked_resize (hw : w ≤ 4) {f : Region} {post : List Region} {n : Nat} (hf : Mem.Frame (nodeBytes [f]) m m')
    (hsize : u * m'.load f.addr w = n) (hnext : m'.next f.addr = firstAddr post) (pre : List Region) :
    Linked u w m (pre ++ f :: post) → (pre ++ f :: post).Pairwise NodeApart → Linked u w m' (pre ++ ⟨f.addr, n⟩ :: post) := by
  induction pre with
  | nil =>
    intro h hsep
    exact ⟨hsize, hnext, h.2.2.frame_node hw hf (List.pairwise_cons.1 hsep).1⟩
  | cons e pre ih =>
    intro h hsep
    have hfe : NodeApart f e := ((List.pairwise_cons.1 hsep).1 f (by simp)).symm
    have hkeep := load_of_nodeApart hw hf hfe
    refine ⟨by rw [hkeep.1]; exact h.1, ?_, ih h.2.2 hsep.of_cons⟩
    rw [hkeep.2]
    refine h.2.1.trans ?_
    cases pre <;> rfl

/-- The node after a listed region. -/
theorem Linked.next_of_append {pre post : List Region} {f : Region} (h : Linked u w m (pre ++ f :: post)) :
    m.next f.addr = firstAddr post := by
  induction pre with
  | nil => exact h.2.1
  | cons e pre ih => exact ih h.2.2

/-- Shrinking one region in place: only its count field changes. -/
theorem linked_shrink (hw : w ≤ 4) {f : Region} {post : List Region} {c : Nat} (hc : c < 256 ^ w) (pre : List Region)
    (h : Linked u w m (pre ++ f :: post)) (hsep : (pre ++ f :: post).Pairwise NodeApart) :
    Linked u w (m.store f.addr w c) (pre ++ ⟨f.addr, u * c⟩ :: post) :=
  linked_resize hw (frame_storeCount hw f m c) (by rw [load_storeCount hc]) ((next_storeCount hw).trans h.next_of_append) pre h hsep

/-- Unlinking the region after `e`: only the next field of `e` changes. -/
theorem linked_unlink (hw : w ≤ 4) {e f : Region} {fs : List Region} (h : Linked u w m (e :: f :: fs))
    (hsep : ∀ r ∈ fs, NodeApart e r) (hlt : ∀ r ∈ fs, r.addr < 4294967296) :
    Linked u w (m.setNext e.addr (m.next f.addr)) (e :: fs) := by
  have hf := frame_setNext e m (m.next f.addr)
  have hnext : m.next f.addr = firstAddr fs := h.2.2.2.1
  have hfirst : firstAddr fs < 4294967296 := firstAddr_lt (by decide) hlt
  refine ⟨by rw [load_setNext_count hw]; exact h.1, ?_, ?_⟩
  · rw [hnext, next_setNext hfirst]
  · exact h.2.2.2.2.frame_node hw hf hsep

end

/-! ## Well-formed free lists -/

/-- A well-formed free list in memory: canonical, every region with room for its node, below the end of the address space and
apart from the head. -/
structure FreeList (u w : Nat) (m : Mem) (head : Nat) (l : List Region) : Prop where
  linked : Linked u w m (⟨head, 0⟩ :: l)
  canonical : Canonical l
  room : ∀ r ∈ l, 8 ≤ r.size
  pos : ∀ r ∈ l, 0 < r.addr
  bound : ∀ r ∈ l, r.stop ≤ 4294967296
  headApart : ∀ r ∈ l, Region.Apart ⟨head, 8⟩ r

/-- The same with gaps of at least `g` addresses: with none, regions may touch. -/
structure SpacedList (g u w : Nat) (m : Mem) (head : Nat) (l : List Region) : Prop where
  linked : Linked u w m (⟨head, 0⟩ :: l)
  spaced : Spaced g l
  room : ∀ r ∈ l, 8 ≤ r.size
  pos : ∀ r ∈ l, 0 < r.addr
  bound : ∀ r ∈ l, r.stop ≤ 4294967296
  headApart : ∀ r ∈ l, Region.Apart ⟨head, 8⟩ r

theorem FreeList.spacedList {u w : Nat} {m : Mem} {head : Nat} {l : List Region} (h : FreeList u w m head l) :
    SpacedList 1 u w m head l :=
  ⟨h.linked, h.canonical.spaced, h.room, h.pos, h.bound, h.headApart⟩

theorem SpacedList.freeList {u w : Nat} {m : Mem} {head : Nat} {l : List Region} (h : SpacedList 1 u w m head l) :
    FreeList u w m head l :=
  ⟨h.linked, h.spaced.canonical, h.room, h.pos, h.bound, h.headApart⟩

/-- The nodes of a head and of regions with room for them lie in what these cover. -/
theorem nodeBytes_covered {head : Nat} {l : List Region} (h : ∀ r ∈ l, 8 ≤ r.size) :
    ∀ a ∈ nodeBytes (⟨head, 0⟩ :: l), a ∈ covered (⟨head, 8⟩ :: l) := by
  rintro a ⟨r, hr, h1, h2⟩
  rw [mem_covered, coverage_pos_iff]
  rcases List.mem_cons.1 hr with rfl | hr
  · exact ⟨_, List.mem_cons_self, h1, h2⟩
  · have := h r hr
    exact ⟨r, List.mem_cons_of_mem _ hr, h1, by omega⟩

/-- Regions that lie apart and have room for a node have nodes apart. -/
theorem nodeApart_of_apart {r s : Region} (hr : 8 ≤ r.size) (hs : 8 ≤ s.size) (h : r.Apart s) : NodeApart r s := by
  simp only [Region.Apart, Region.stop, NodeApart] at h ⊢
  omega

theorem Spaced.pairwise_nodeApart {g : Nat} {l : List Region} (h : Spaced g l) (hr : ∀ r ∈ l, 8 ≤ r.size) :
    l.Pairwise NodeApart := by
  refine List.Pairwise.imp_of_mem (fun {a b} ha _ hab => Or.inl ?_) h
  have := hr a ha
  simp only [Region.stop] at hab
  omega

/-- Inserting a region above an empty head region inserts it into the list behind the head. -/
theorem insertAfter_head {h : Nat} {x : Region} (hne : h ≠ x.addr) (l : List Region) :
    insertAfter ⟨h, 0⟩ x l = ⟨h, 0⟩ :: insert x l := by
  have key : ∀ y ys, y.addr = x.addr → absorb ⟨h, 0⟩ (y :: ys) = ⟨h, 0⟩ :: y :: ys := by
    intro y ys hy
    exact absorb_of_gap (by rw [hy]; exact hne) ys
  cases l with
  | nil => exact key x [] rfl
  | cons e es =>
    rw [insertAfter, insert]
    split
    · rw [absorb]
      split
      · exact key _ _ rfl
      · exact key _ _ rfl
    · rfl

/-- A region that does not touch the one below it is listed after its insertion, with the one above it if it touches that. -/
theorem joined_mem_insertAfter {x : Region} (l : List Region) :
    ∀ {e : Region}, (before x.addr e l).stop ≠ x.addr → joined x (after x.addr l) ∈ insertAfter e x l := by
  have here : ∀ {e : Region} (l : List Region), e.stop ≠ x.addr → joined x l ∈ absorb e (absorb x l) := by
    intro e l hne
    have hfirst : ∃ y ys, absorb x l = y :: ys ∧ y.addr = x.addr := by
      cases l with
      | nil => exact ⟨x, [], rfl, rfl⟩
      | cons f fs =>
        rw [absorb]
        split
        · exact ⟨_, _, rfl, rfl⟩
        · exact ⟨_, _, rfl, rfl⟩
    have hmem := joined_mem_absorb x l
    obtain ⟨y, ys, hy, haddr⟩ := hfirst
    rw [hy] at hmem ⊢
    rw [absorb_of_gap (by rw [haddr]; exact hne)]
    exact List.mem_cons_of_mem _ hmem
  induction l with
  | nil => intro e hne; exact here [] hne
  | cons f fs ih =>
    intro e hne
    rw [before] at hne
    rw [after, insertAfter]
    by_cases hlt : x.addr < f.addr
    · rw [if_pos hlt] at hne ⊢
      rw [if_pos hlt]
      exact here (f :: fs) hne
    · rw [if_neg hlt] at hne ⊢
      rw [if_neg hlt]
      exact List.mem_cons_of_mem _ (ih hne)

/-- A region that touches no listed one is put between those below and those above it. -/
theorem insertAfter_of_gap {x : Region} {es : List Region} : ∀ {e : Region}, (es.Pairwise fun r s => r.addr < s.addr) →
    (∀ r ∈ e :: es, r.stop ≠ x.addr) → (∀ r ∈ es, x.stop ≠ r.addr) →
      ∃ pre post, es = pre ++ post ∧ (∀ r ∈ pre, r.addr ≤ x.addr) ∧ (∀ r ∈ post, x.addr < r.addr) ∧
        insertAfter e x es = e :: (pre ++ x :: post) := by
  induction es with
  | nil =>
    intro e _ hbelow _
    refine ⟨[], [], rfl, by simp, by simp, ?_⟩
    rw [insertAfter]
    exact absorb_of_gap (hbelow e List.mem_cons_self) []
  | cons f fs ih =>
    intro e hasc hbelow habove
    have hfs := List.pairwise_cons.1 hasc
    rw [insertAfter]
    split
    · rename_i hlt
      refine ⟨[], f :: fs, rfl, by simp, List.forall_mem_cons.2 ⟨hlt, fun r hr => Nat.lt_trans hlt (hfs.1 r hr)⟩, ?_⟩
      rw [absorb_of_gap (habove f List.mem_cons_self), absorb_of_gap (hbelow e List.mem_cons_self)]
      rfl
    · rename_i hge
      obtain ⟨pre, post, rfl, hpre, hpost, heq⟩ := ih hfs.2 (fun r hr => hbelow r (List.mem_cons_of_mem _ hr))
        fun r hr => habove r (List.mem_cons_of_mem _ hr)
      refine ⟨f :: pre, post, rfl, List.forall_mem_cons.2 ⟨Nat.le_of_not_lt hge, hpre⟩, hpost, ?_⟩
      rw [heq]
      rfl

/-- Inserting units that touch no listed region puts a node of its own between those below and those above. -/
theorem linked_splice_of_gap {u w : Nat} (hu : 0 < u) (hw : w ≤ 4) {m : Mem} {cur n : Nat} {e : Region} {es : List Region}
    (hl : Linked u w m (e :: es)) (hpos : ∀ r ∈ es, 0 < r.addr) (hlt : ∀ r ∈ es, r.addr < 4294967296) (hcur : cur < 4294967296)
    (hasc : es.Pairwise fun r s => r.addr < s.addr) (hsep : (e :: es).Pairwise NodeApart)
    (hap : ∀ r ∈ e :: es, NodeApart r ⟨cur, u * n⟩) (hbelow : ∀ r ∈ e :: es, r.stop ≠ cur)
    (habove : ∀ r ∈ es, cur + u * n ≠ r.addr) (hn : n < 256 ^ w) :
    ∃ pre post, es = pre ++ post ∧ (∀ r ∈ pre, r.addr < cur) ∧ (∀ r ∈ post, cur < r.addr) ∧
      Linked u w (m.splice u w (before cur e es).addr (firstAddr (after cur es)) cur n) (e :: (pre ++ ⟨cur, u * n⟩ :: post)) ∧
      Mem.Frame (nodeBytes (e :: ⟨cur, u * n⟩ :: es)) m
        (m.splice u w (before cur e es).addr (firstAddr (after cur es)) cur n) := by
  obtain ⟨pre, post, heql, hpre, hpost, heq⟩ := insertAfter_of_gap (x := ⟨cur, u * n⟩) hasc hbelow habove
  have hfit : ∀ r ∈ e :: es, r.size < u * 256 ^ w := fun r hr => by
    rw [← hl.count r hr]
    exact Nat.mul_lt_mul_of_pos_left (m.load_lt w _) hu
  have hin : ∀ r ∈ pre ++ post, r ∈ e :: es := fun r hr => List.mem_cons_of_mem _ (heql ▸ hr)
  obtain ⟨hlinked, hframe⟩ := linked_splice hw hl hpos hlt hcur hsep (hap e List.mem_cons_self)
    (fun r hr _ => hap r (List.mem_cons_of_mem _ hr))
    (fun r hr => (hap r (List.mem_cons_of_mem _ ((after_sublist cur es).subset (mem_of_mem_tail_absorb hr)))).symm) (by
      rw [heq]
      simp only [List.forall_mem_cons, List.forall_mem_append]
      exact ⟨hfit e List.mem_cons_self, fun r hr => hfit r (hin r (List.mem_append_left _ hr)),
        Nat.mul_lt_mul_of_pos_left hn hu, fun r hr => hfit r (hin r (List.mem_append_right _ hr))⟩)
  rw [heq] at hlinked
  refine ⟨pre, post, heql, fun r hr => ?_, hpost, hlinked, hframe⟩
  have hnode := hap r (hin r (List.mem_append_left _ hr))
  have hle := hpre r hr
  simp only [NodeApart] at hnode hle
  omega

section
variable {g u w : Nat} {m m' : Mem} {head : Nat} {l : List Region}

namespace SpacedList

theorem pairwise_nodeApart (h : SpacedList g u w m head l) : ((⟨head, 0⟩ : Region) :: l).Pairwise NodeApart := by
  refine List.pairwise_cons.2 ⟨fun r hr => ?_, h.spaced.pairwise_nodeApart h.room⟩
  have := h.headApart r hr
  have := h.room r hr
  simp only [Region.Apart, Region.stop, NodeApart] at *
  omega

/-- A step that stores outside the head and the regions of a free list keeps it. -/
theorem frame (hw : w ≤ 4) (h : SpacedList g u w m head l) {X : Set Nat} (hf : Mem.Frame X m m')
    (hX : ∀ r ∈ (⟨head, 8⟩ : Region) :: l, ∀ a, r.Has a → a ∉ X) : SpacedList g u w m' head l := by
  refine { h with linked := h.linked.frame hw hf fun r hr a h1 h2 => ?_ }
  rcases List.mem_cons.1 hr with rfl | hr
  · exact hX ⟨head, 8⟩ List.mem_cons_self a ⟨h1, h2⟩
  · have := h.room r hr
    exact hX r (List.mem_cons_of_mem _ hr) a ⟨h1, by omega⟩

/-- The search in a well-formed free list ends, given one step for each region and one more. -/
theorem scan_eq (h : SpacedList g u w m head l) (cur : Nat) {fuel : Nat} (hf : l.length < fuel) :
    m.scan cur fuel head = some ((before cur ⟨head, 0⟩ l).addr, firstAddr (after cur l)) :=
  BootPerl.scan_eq h.linked h.pos hf

end SpacedList

theorem FreeList.pairwise_nodeApart (h : FreeList u w m head l) : ((⟨head, 0⟩ : Region) :: l).Pairwise NodeApart :=
  h.spacedList.pairwise_nodeApart

/-- A head of count zero with no node after it is an empty list. -/
theorem FreeList.nil (hc : m.load head w = 0) (hn : m.next head = 0) : FreeList u w m head [] := by
  have hlinked : Linked u w m [⟨head, 0⟩] := ⟨by rw [hc, Nat.mul_zero], hn, trivial⟩
  exact ⟨hlinked, List.Pairwise.nil, by simp, by simp, by simp, by simp⟩

theorem FreeList.frame (hw : w ≤ 4) (h : FreeList u w m head l) {X : Set Nat} (hf : Mem.Frame X m m')
    (hX : ∀ r ∈ (⟨head, 8⟩ : Region) :: l, ∀ a, r.Has a → a ∉ X) : FreeList u w m' head l :=
  (h.spacedList.frame hw hf hX).freeList

/-- The nodes alone decide whether a memory holds a list. -/
theorem FreeList.congr (hw : w ≤ 4) (h : FreeList u w m head l)
    (hag : ∀ r ∈ (⟨head, 8⟩ : Region) :: l, ∀ a, r.Has a → m'.byte a = m.byte a) : FreeList u w m' head l := by
  have hnode : ∀ r ∈ (⟨head, 0⟩ : Region) :: l, ∀ a, r.addr ≤ a → a < r.addr + 8 → m'.byte a = m.byte a := by
    intro r hr a h1 h2
    rcases List.mem_cons.1 hr with rfl | hr
    · exact hag ⟨head, 8⟩ List.mem_cons_self a ⟨h1, h2⟩
    · have := h.room r hr
      exact hag r (List.mem_cons_of_mem _ hr) a ⟨h1, by omega⟩
  refine { h with linked := h.linked.congr fun r hr => ⟨load_congr fun a h1 h2 => ?_, load_congr fun a h1 h2 => ?_⟩ }
  · exact hnode r hr a h1 (by omega)
  · exact hnode r hr a (by omega) (by omega)

theorem FreeList.scan_eq (h : FreeList u w m head l) (cur : Nat) {fuel : Nat} (hf : l.length < fuel) :
    m.scan cur fuel head = some ((before cur ⟨head, 0⟩ l).addr, firstAddr (after cur l)) :=
  h.spacedList.scan_eq cur hf

/-- The node that insertion builds lies apart from the nodes that stay, when the region it describes has room for it. -/
theorem Spaced.nodeApart_tail {x : Region} (hc : Spaced g l) (hr : ∀ r ∈ l, 8 ≤ r.size)
    (hroom : 8 ≤ (joined x (after x.addr l)).size) (hap : ∀ r ∈ l, x.Apart r) :
    ∀ r ∈ (absorb x (after x.addr l)).tail, NodeApart x r := by
  have hsub := after_sublist x.addr l
  cases hafter : after x.addr l with
  | nil => simp [absorb]
  | cons f fs =>
    rw [hafter] at hroom hsub
    have hf : f ∈ l := hsub.subset List.mem_cons_self
    by_cases h : x.stop = f.addr
    · rw [absorb_of_touch h, List.tail_cons]
      intro r hr'
      have h1 := (List.pairwise_cons.1 (List.Pairwise.sublist hsub hc)).1 r hr'
      have h2 := hr f hf
      simp only [Region.stop] at h h1
      simp only [NodeApart]
      omega
    · rw [joined_of_gap h] at hroom
      rw [absorb_of_gap h, List.tail_cons]
      exact fun r hr' => nodeApart_of_apart hroom (hr r (hsub.subset hr')) (hap r (hsub.subset hr'))

/-- After insertion every region has room for its node, if the region inserted, with the one it touches, has. -/
theorem Canonical.room_insert {x : Region} (hc : Canonical (insert x l)) (hr : ∀ r ∈ l, 8 ≤ r.size) (hx : 0 < x.size)
    (hroom : 8 ≤ (joined x (after x.addr l)).size) : ∀ r ∈ insert x l, 8 ≤ r.size := by
  have hor : ∀ r ∈ insert x l, 8 ≤ r.size ∨ r = x := by
    refine forall_insert ?_ (Or.inr rfl) fun r h => Or.inl (hr r h)
    rintro r s (h1 | rfl) (h2 | rfl) h3
    · exact Or.inl (by dsimp only; omega)
    · exact Or.inl (by dsimp only; omega)
    · exact Or.inl (by dsimp only; omega)
    · simp only [Region.stop] at h3
      omega
  intro r h
  rcases hor r h with h8 | rfl
  · exact h8
  · have hsub := after_sublist r.addr l
    cases hafter : after r.addr l with
    | nil => rwa [hafter] at hroom
    | cons f fs =>
      rw [hafter] at hroom hsub
      have hf : f ∈ l := hsub.subset List.mem_cons_self
      by_cases ht : r.stop = f.addr
      · exact absurd h (not_mem_insert_of_touch hc hx hf (by have := hr f hf; omega) ht)
      · rwa [joined_of_gap ht] at hroom

/-- The nodes that insertion stores to lie in what the head, the region inserted and the list cover. -/
theorem nodeBytes_covered_insert {x : Region} (hr : ∀ r ∈ l, 8 ≤ r.size) (hroom : 8 ≤ (joined x (after x.addr l)).size) :
    ∀ a ∈ nodeBytes (⟨head, 0⟩ :: x :: l), a ∈ covered (⟨head, 8⟩ :: x :: l) := by
  rintro a ⟨r, hmem, h1, h2⟩
  simp only [List.mem_cons] at hmem
  rw [mem_covered, coverage_pos_iff]
  rcases hmem with rfl | rfl | hmem
  · exact ⟨_, List.mem_cons_self, h1, h2⟩
  · by_cases hx : r.addr + r.size ≤ a
    · -- the node reaches over the end of the region: it lies over the one the region touches
      have hsub := after_sublist r.addr l
      cases hafter : after r.addr l with
      | nil =>
        rw [hafter] at hroom
        simp only [joined] at hroom
        omega
      | cons f fs =>
        rw [hafter] at hroom hsub
        by_cases ht : r.stop = f.addr
        · simp only [joined_of_touch ht] at hroom
          simp only [Region.stop] at ht
          refine ⟨f, by simp [hsub.subset List.mem_cons_self], ?_⟩
          simp only [Region.Has]
          omega
        · simp only [joined_of_gap ht] at hroom
          omega
    · exact ⟨r, by simp, h1, by omega⟩
  · have := hr r hmem
    exact ⟨r, by simp [hmem], h1, by omega⟩

/-- The head's node lies apart from the node that insertion builds. -/
theorem SpacedList.nodeApart_head {x : Region} (h : SpacedList g u w m head l) (hroom : 8 ≤ (joined x (after x.addr l)).size)
    (hhead : Region.Apart ⟨head, 8⟩ x) : NodeApart ⟨head, 0⟩ x := by
  have hsub := after_sublist x.addr l
  cases hafter : after x.addr l with
  | nil =>
    rw [hafter] at hroom
    simp only [joined] at hroom
    simp only [Region.Apart, Region.stop, NodeApart] at hhead ⊢
    omega
  | cons f fs =>
    rw [hafter] at hroom hsub
    have hf := h.headApart f (hsub.subset List.mem_cons_self)
    by_cases ht : x.stop = f.addr
    · simp only [joined_of_touch ht] at hroom
      simp only [Region.Apart, Region.stop, NodeApart] at hhead hf ht ⊢
      omega
    · simp only [joined_of_gap ht] at hroom
      simp only [Region.Apart, Region.stop, NodeApart] at hhead ⊢
      omega

/-- The nodes below the region inserted lie apart from the node that insertion builds. -/
theorem SpacedList.nodeApart_below {x : Region} (h : SpacedList g u w m head l) (hx : 0 < x.size) (hap : ∀ r ∈ l, x.Apart r) :
    ∀ r ∈ l, r.addr ≤ x.addr → NodeApart r x := by
  intro r hr hle
  have h1 := hap r hr
  have h2 := h.room r hr
  simp only [Region.Apart, Region.stop, NodeApart] at h1 ⊢
  omega

/-- So does the node the search stops at. -/
theorem SpacedList.nodeApart_before {x : Region} (h : SpacedList g u w m head l) (hx : 0 < x.size)
    (hroom : 8 ≤ (joined x (after x.addr l)).size) (hap : ∀ r ∈ l, x.Apart r) (hhead : Region.Apart ⟨head, 8⟩ x) :
    NodeApart (before x.addr ⟨head, 0⟩ l) x := by
  rcases before_le x.addr l ⟨head, 0⟩ with heq | ⟨hmem, hle⟩
  · rw [heq]
    exact h.nodeApart_head hroom hhead
  · exact h.nodeApart_below hx hap _ hmem hle

/-- Carving one region, in memory and in the list, keeps a free list well formed, if what is left has room for a node. -/
theorem SpacedList.of_carve {k : Nat} {pre post : List Region} {f : Region} (h : SpacedList g u w m head (pre ++ f :: post))
    (hroom : f.size ≠ k → 8 ≤ f.size - k) (hl : Linked u w m' (⟨head, 0⟩ :: (pre ++ carve k f ++ post))) :
    SpacedList g u w m' head (pre ++ carve k f ++ post) := by
  have hf : f ∈ pre ++ f :: post := by simp
  have hstop := h.bound f hf
  have hhead := h.headApart f hf
  refine ⟨hl, spaced_carve h.spaced, forall_carve h.room hroom, forall_carve h.pos fun _ => h.pos f hf,
    forall_carve h.bound fun _ => ?_, forall_carve h.headApart fun hne => ?_⟩
  · simp only [Region.stop] at hstop ⊢
    omega
  · have := hroom hne
    simp only [Region.Apart, Region.stop] at hhead ⊢
    omega

theorem FreeList.of_carve {k : Nat} {pre post : List Region} {f : Region} (h : FreeList u w m head (pre ++ f :: post))
    (hroom : f.size ≠ k → 8 ≤ f.size - k) (hl : Linked u w m' (⟨head, 0⟩ :: (pre ++ carve k f ++ post))) :
    FreeList u w m' head (pre ++ carve k f ++ post) :=
  (h.spacedList.of_carve hroom hl).freeList

/-- Insertion keeps a free list well formed, if the region inserted, with the one it touches, and every region after it have
room for a node. -/
theorem SpacedList.splice (hg : g ≤ 1) (hw : w ≤ 4) (h : SpacedList g u w m head l) (cur n : Nat) (hn : 0 < u * n)
    (hjoin : 8 ≤ (joined ⟨cur, u * n⟩ (after cur l)).size) (hroom : ∀ r ∈ insert ⟨cur, u * n⟩ l, 8 ≤ r.size) (hpos : 0 < cur)
    (hbound : cur + u * n ≤ 4294967296) (hap : ∀ r ∈ l, Region.Apart ⟨cur, u * n⟩ r)
    (hhead : Region.Apart ⟨head, 8⟩ ⟨cur, u * n⟩) (hfit : ∀ r ∈ insert ⟨cur, u * n⟩ l, r.size < u * 256 ^ w) :
    SpacedList g u w (m.splice u w (before cur ⟨head, 0⟩ l).addr (firstAddr (after cur l)) cur n) head
        (insert ⟨cur, u * n⟩ l) ∧
      Mem.Frame (nodeBytes (⟨head, 0⟩ :: ⟨cur, u * n⟩ :: l)) m
        (m.splice u w (before cur ⟨head, 0⟩ l).addr (firstAddr (after cur l)) cur n) := by
  have hne : head ≠ (⟨cur, u * n⟩ : Region).addr := by
    simp only [Region.Apart, Region.stop] at hhead ⊢
    omega
  have hlt : ∀ r ∈ l, r.addr < 4294967296 := by
    intro r hr
    have h1 := h.bound r hr
    have h2 := h.room r hr
    simp only [Region.stop] at h1
    omega
  have hfit' : ∀ r ∈ insertAfter ⟨head, 0⟩ ⟨cur, u * n⟩ l, r.size < u * 256 ^ w := by
    rw [insertAfter_head hne, List.forall_mem_cons]
    refine ⟨Nat.mul_pos ?_ (Nat.pow_pos (by decide)), hfit⟩
    exact Nat.pos_of_ne_zero fun h0 => by rw [h0, Nat.zero_mul] at hn; omega
  obtain ⟨hl, hf⟩ := linked_splice hw h.linked h.pos hlt (by omega) h.pairwise_nodeApart
    (h.nodeApart_head hjoin hhead) (h.nodeApart_below hn hap) (h.spaced.nodeApart_tail h.room hjoin hap) hfit'
  rw [insertAfter_head hne] at hl
  have hall : ∀ r ∈ insert ⟨cur, u * n⟩ l, 0 < r.addr ∧ r.stop ≤ 4294967296 ∧ Region.Apart ⟨head, 8⟩ r := by
    refine forall_insert ?_ ⟨hpos, hbound, hhead⟩ fun r hr => ⟨h.pos r hr, h.bound r hr, h.headApart r hr⟩
    rintro r s ⟨h1, h2, h3⟩ ⟨h4, h5, h6⟩ h7
    simp only [Region.Apart, Region.stop] at *
    omega
  exact ⟨⟨hl, spaced_insert hg h.spaced hn hap, hroom, fun r hr => (hall r hr).1, fun r hr => (hall r hr).2.1,
    fun r hr => (hall r hr).2.2⟩, hf⟩

/-- In a list with gaps the regions after the insertion have room when the region inserted, with the one it touches, has. -/
theorem FreeList.splice (hw : w ≤ 4) (h : FreeList u w m head l) (cur n : Nat) (hn : 0 < u * n)
    (hroom : 8 ≤ (joined ⟨cur, u * n⟩ (after cur l)).size) (hpos : 0 < cur) (hbound : cur + u * n ≤ 4294967296)
    (hap : ∀ r ∈ l, Region.Apart ⟨cur, u * n⟩ r) (hhead : Region.Apart ⟨head, 8⟩ ⟨cur, u * n⟩)
    (hfit : ∀ r ∈ insert ⟨cur, u * n⟩ l, r.size < u * 256 ^ w) :
    FreeList u w (m.splice u w (before cur ⟨head, 0⟩ l).addr (firstAddr (after cur l)) cur n) head
        (insert ⟨cur, u * n⟩ l) ∧
      Mem.Frame (nodeBytes (⟨head, 0⟩ :: ⟨cur, u * n⟩ :: l)) m
        (m.splice u w (before cur ⟨head, 0⟩ l).addr (firstAddr (after cur l)) cur n) := by
  have hcan : Canonical (insert ⟨cur, u * n⟩ l) := spaced_insert (Nat.le_refl 1) h.canonical.spaced hn hap
  obtain ⟨hl, hf⟩ := h.spacedList.splice (Nat.le_refl 1) hw cur n hn hroom (hcan.room_insert h.room hn hroom) hpos hbound hap
    hhead hfit
  exact ⟨hl.freeList, hf⟩

end

end BootPerl
