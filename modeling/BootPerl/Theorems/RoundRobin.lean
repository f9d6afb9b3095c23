import BootPerl.Theorems.RunRing
import Mathlib.Data.List.Rotate

/-!
# Round robin, over whole runs

The tasks of the run ring take turns: `turns` is the order in which they come after the current one. `schedule` makes the first of
them current, `block` the first of the others, and as many calls of `schedule` as there are tasks make each current once.
-/

namespace BootPerl

open Sched Outcome

/-- The tasks of the ring in the order in which they come after `c`, which comes last; all of them from the first on if `c` is none of
them. -/
def turns (l : List Nat) (c : Nat) : List Nat := if c ∈ l then l.rotate (l.idxOf c + 1) else l

/-- The tasks that `k` calls of `schedule` make current. -/
def dispatches (idle : Nat) : Nat → Sched → List Nat
  | 0, _ => []
  | k + 1, s => (schedule idle s).current :: dispatches idle k (schedule idle s)

/-! ## Taking turns -/

section
variable {l pre post : List Nat} {c a : Nat}

/-- What comes after a task in the list, and then what comes before it. -/
theorem turns_append (h : (pre ++ c :: post).Nodup) : turns (pre ++ c :: post) c = post ++ pre ++ [c] := by
  have hpre : c ∉ pre := fun hm => (List.nodup_append.1 h).2.2 c hm c List.mem_cons_self rfl
  have hidx : (pre ++ c :: post).idxOf c = pre.length := by
    rw [List.idxOf_append_of_notMem hpre, List.idxOf_cons_self, Nat.add_zero]
  have hsplit : pre ++ c :: post = (pre ++ [c]) ++ post := by simp
  have hlen : pre.length + 1 = (pre ++ [c]).length := by simp
  rw [turns, if_pos (by simp), hidx, hlen]
  conv_lhs => rw [hsplit]
  rw [List.rotate_append_length_eq, List.append_assoc]

/-- After the first of the list come the others in order. -/
theorem turns_head {rest : List Nat} (h : (a :: rest).Nodup) : turns (a :: rest) a = rest ++ [a] := by
  have happ : turns ([] ++ a :: rest) a = rest ++ [] ++ [a] := turns_append h
  rwa [List.nil_append, List.append_nil] at happ

theorem turns_of_not_mem (h : c ∉ l) : turns l c = l := if_neg h

theorem turns_perm (l : List Nat) (c : Nat) : (turns l c).Perm l := by
  unfold turns
  split
  · exact List.rotate_perm l _
  · exact List.Perm.refl l

/-- The first of some tasks is another only where there is none. -/
theorem eq_nil_of_headD (hc : c ∉ l) (h : l.headD c = c) : l = [] := by
  cases l with
  | nil => rfl
  | cons b l =>
    obtain rfl : b = c := h
    exact absurd List.mem_cons_self hc

/-- Once the first had its turn, it comes last. -/
theorem turns_next (h : l.Nodup) {rest : List Nat} (ht : turns l c = a :: rest) : turns l a = rest ++ [a] := by
  by_cases hc : c ∈ l
  · obtain ⟨pre, post, rfl⟩ := List.append_of_mem hc
    rw [turns_append h] at ht
    cases post with
    | nil =>
      cases pre with
      | nil =>
        obtain ⟨rfl, rfl⟩ := List.cons.inj ht
        exact turns_head h
      | cons b pre =>
        obtain ⟨rfl, rfl⟩ := List.cons.inj ht
        exact turns_head h
    | cons b post =>
      obtain ⟨rfl, rfl⟩ := List.cons.inj ht
      have hsplit : pre ++ c :: b :: post = (pre ++ [c]) ++ b :: post := by simp
      rw [hsplit] at h ⊢
      rw [turns_append h]
      simp
  · rw [turns_of_not_mem hc] at ht
    subst ht
    exact turns_head h

end

/-! ## One call -/

section
variable {idle : Nat} {s : Sched} {l : List Nat}

/-- `pick` takes the task that came next, or the first of the ring where that was `idle_task`. -/
theorem RunList.pick_eq (h : RunList idle s l) (h0 : 0 ∉ idle :: l) {prev next : Nat} :
    pick idle s prev next = if prev = idle ∨ next = idle then l.headD idle else next := by
  have hfirst : (if s.runNext idle ≠ 0 then s.runNext idle else idle) = l.headD idle := by
    rcases h with ⟨rfl, h1, -⟩ | h
    · rw [h1, if_neg (not_not_intro rfl)]
      rfl
    · have hne : s.runNext idle ≠ 0 := fun he => h0 (he ▸ h.next_mem List.mem_cons_self)
      rw [if_pos hne, h.next_head]
  rw [pick, hfirst]

/-- `schedule` of a running task makes the one current whose turn it is. -/
theorem schedule_turn (h : RunList idle s l) (hnd : (idle :: l).Nodup) (h0 : 0 ∉ idle :: l) (hc : s.current ∈ idle :: l)
    (hrun : s.state s.current = .running) : (schedule idle s).current = (turns l s.current).headD idle := by
  have hret : retire s s.current = (s.setNeedResched s.current 0).setTimeslice s.current 100 := by
    rw [retire, if_neg (by simp [hrun])]
  have hlist : RunList idle (retire s s.current) l := by
    rw [hret]
    exact h
  obtain ⟨hidle, hl⟩ := List.nodup_cons.1 hnd
  change pick idle (retire s s.current) s.current (s.runNext s.current) = _
  rw [hlist.pick_eq h0]
  rcases List.mem_cons.1 hc with he | hm
  · rw [if_pos (Or.inl he), he, turns_of_not_mem hidle]
  · obtain ⟨pre, post, hsplit⟩ := List.append_of_mem hm
    have hne : s.current ≠ idle := fun he => hidle (he ▸ hm)
    have hring : Ring s.runNext s.runPrev idle (pre ++ s.current :: post) := by
      rcases h with ⟨hnil, -⟩ | hring
      · rw [hnil] at hm
        exact absurd hm List.not_mem_nil
      · rwa [hsplit] at hring
    rw [hring.next_eq]
    rw [hsplit] at hl hidle ⊢
    rw [turns_append hl]
    cases post with
    | nil =>
      -- the last of the ring: on to the first
      rw [List.headD_nil, if_pos (Or.inr rfl)]
      cases pre <;> rfl
    | cons b post =>
      have hb : b ≠ idle := fun he => hidle (by simp [he])
      rw [List.headD_cons, if_neg (not_or_intro hne hb)]
      rfl

/-- `schedule` of a task that does not run makes the first of the others current. -/
theorem schedule_turn_blocked {pre post : List Nat} (h : Ring s.runNext s.runPrev idle (pre ++ s.current :: post))
    (hnd : (idle :: (pre ++ s.current :: post)).Nodup) (h0 : 0 ∉ idle :: (pre ++ s.current :: post))
    (hrun : s.state s.current ≠ .running) : (schedule idle s).current = (post ++ pre).headD idle := by
  obtain ⟨hidle, -⟩ := List.nodup_cons.1 hnd
  have hne : s.current ≠ idle := fun he => hidle (by simp [he])
  have hring : RunList idle (retire s s.current) (pre ++ post) :=
    Or.inr ((schedule_blocked h hnd hrun).1.congr (fun _ _ => rfl) fun _ _ => rfl)
  have h0' : 0 ∉ idle :: (pre ++ post) := by
    simp only [List.mem_cons, List.mem_append, not_or] at h0 ⊢
    exact ⟨h0.1, h0.2.1, h0.2.2.2⟩
  change pick idle (retire s s.current) s.current (s.runNext s.current) = _
  rw [hring.pick_eq h0', h.next_eq]
  cases post with
  | nil =>
    rw [List.headD_nil, if_pos (Or.inr rfl), List.append_nil, List.nil_append]
  | cons b post =>
    have hb : b ≠ idle := fun he => hidle (by simp [he])
    rw [List.headD_cons, if_neg (not_or_intro hne hb)]
    rfl

end

/-! ## Whole runs -/

namespace SchedInv
variable {idle : Nat} {s : Sched} {tasks l : List Nat} {w : Nat → List Nat}

/-- `schedule` makes the task current whose turn it is. -/
theorem schedule_current (h : SchedInv idle s tasks l w) (h0 : idle ≠ 0) :
    (BootPerl.schedule idle s).current = (turns l s.current).headD idle :=
  schedule_turn h.run h.ring_nodup (h.ring_ne_zero h0) h.current h.current_running

/-- `block` makes the first of the others current. -/
theorem block_current (h : SchedInv idle s tasks l w) (h0 : idle ≠ 0) (hc : s.current ≠ idle) (q : Nat) :
    (BootPerl.block idle s q).current = ((turns l s.current).erase s.current).headD idle := by
  have hm : s.current ∈ l := (List.mem_cons.1 h.current).resolve_left hc
  obtain ⟨pre, post, hl⟩ := List.append_of_mem hm
  obtain ⟨f, n, p, hframe⟩ := doBlock_frame s q
  have hcur : (doBlock s q).current = s.current := by rw [hframe]
  have hring : Ring (doBlock s q).runNext (doBlock s q).runPrev idle (pre ++ (doBlock s q).current :: post) := by
    rw [hframe]
    rcases h.run with ⟨hnil, -⟩ | hring
    · rw [hnil] at hm
      exact absurd hm List.not_mem_nil
    · rwa [hl] at hring
  have hblocked : (doBlock s q).state (doBlock s q).current ≠ .running := by
    rw [hframe]
    simp
  have hnd := h.ring_nodup
  have hz := h.ring_ne_zero h0
  rw [hl] at hnd hz
  rw [BootPerl.block, schedule_turn_blocked hring (by rwa [hcur]) (by rwa [hcur]) hblocked]
  obtain ⟨hidle, hl'⟩ := List.nodup_cons.1 hnd
  have hout : s.current ∉ post ++ pre := by
    have hperm : (pre ++ s.current :: post).Perm (s.current :: (post ++ pre)) :=
      List.perm_middle.trans (List.Perm.cons _ List.perm_append_comm)
    exact (List.nodup_cons.1 (hperm.nodup_iff.1 hl')).1
  rw [hl, turns_append hl', List.erase_append_right _ hout, List.erase_cons_head, List.append_nil]

/-- As many calls as one likes, up to one for each task, give the tasks their turns in order. -/
theorem dispatches_eq (k : Nat) : ∀ {s : Sched}, SchedInv idle s tasks l w → idle ≠ 0 → k ≤ l.length →
    dispatches idle k s = (turns l s.current).take k := by
  induction k with
  | zero => exact fun _ _ _ => rfl
  | succ k ih =>
    intro s h h0 hk
    have hlen := (turns_perm l s.current).length_eq
    cases ht : turns l s.current with
    | nil =>
      rw [ht, List.length_nil] at hlen
      omega
    | cons a rest =>
      have hcur : (BootPerl.schedule idle s).current = a := by rw [h.schedule_current h0, ht, List.headD_cons]
      rw [ht, List.length_cons] at hlen
      rw [dispatches, ih h.schedule h0 (by omega), hcur, turns_next h.nodup ht, List.take_succ_cons,
        List.take_append_of_le_length (by omega)]

end SchedInv

/-- In every state reached: the run ring holds the tasks that run, in some order; `schedule` makes current the first of them after the
current one, `block` the first of the others, each `idle_task` only if there is none; and as many calls of `schedule` as there are
tasks in the ring make each of them current once, in the order of the ring. -/
theorem round_robin (idle : Nat) (h0 : idle ≠ 0) {s : TaskState} (h : Reach (TaskInit idle) (TaskStep idle) s) :
    ∃ l, RunList idle s.sched l ∧ (idle :: l).Nodup ∧ (∀ t, t ∈ l ↔ t ∈ s.tasks ∧ s.sched.state t = .running) ∧
      (schedule idle s.sched).current = (turns l s.sched.current).headD idle ∧
      ((schedule idle s.sched).current = idle → l = []) ∧
      (s.sched.current ≠ idle → ∀ q,
        (block idle s.sched q).current = ((turns l s.sched.current).erase s.sched.current).headD idle ∧
        ((block idle s.sched q).current = idle → l = [s.sched.current])) ∧
      dispatches idle l.length s.sched = turns l s.sched.current ∧ (dispatches idle l.length s.sched).Perm l := by
  obtain ⟨l, w, hinv⟩ := SchedInv.of_reach h0 h
  obtain ⟨hidle, hl⟩ := List.nodup_cons.1 hinv.ring_nodup
  have hperm := turns_perm l s.sched.current
  have hcur := hinv.schedule_current h0
  have hall : dispatches idle l.length s.sched = turns l s.sched.current := by
    rw [hinv.dispatches_eq _ h0 (Nat.le_refl _), ← hperm.length_eq, List.take_length]
  refine ⟨l, hinv.run, hinv.ring_nodup, hinv.running, hcur, fun hi => ?_, fun hc q => ⟨hinv.block_current h0 hc q, fun hi => ?_⟩, hall,
    hall ▸ hperm⟩
  · have hnil := eq_nil_of_headD (fun hm => hidle (hperm.subset hm)) (hcur.symm.trans hi)
    exact List.perm_nil.1 (hnil ▸ hperm.symm)
  · have hnil := eq_nil_of_headD (fun hm => hidle (hperm.subset (List.mem_of_mem_erase hm))) ((hinv.block_current h0 hc q).symm.trans hi)
    have hm : s.sched.current ∈ turns l s.sched.current := hperm.symm.subset ((List.mem_cons.1 hinv.current).resolve_left hc)
    have hone := List.perm_cons_erase hm
    rw [hnil] at hone
    exact List.perm_singleton.1 (hperm.symm.trans hone)

/-- Two tasks take turns. -/
theorem round_robin_two : ∃ l, RunList 0x1000 twoSched l ∧ (0x1000 :: l).Nodup ∧
    (∀ t, t ∈ l ↔ t ∈ [0x3000, 0x2000] ∧ twoSched.state t = .running) ∧
    (schedule 0x1000 twoSched).current = (turns l twoSched.current).headD 0x1000 ∧
    ((schedule 0x1000 twoSched).current = 0x1000 → l = []) ∧
    (twoSched.current ≠ 0x1000 → ∀ q,
      (block 0x1000 twoSched q).current = ((turns l twoSched.current).erase twoSched.current).headD 0x1000 ∧
      ((block 0x1000 twoSched q).current = 0x1000 → l = [twoSched.current])) ∧
    dispatches 0x1000 l.length twoSched = turns l twoSched.current ∧ (dispatches 0x1000 l.length twoSched).Perm l := by
  have hboot : Reach (TaskInit 0x1000) (TaskStep 0x1000) ⟨zeroSched 0x1000, []⟩ := .init (taskInit_zeroSched 0x1000)
  have hone := hboot.step (@TaskStep.create 0x1000 _ 0x8000 0x2000 1 0 1024 0 (by decide) (by decide) (by simp))
  have htwo := hone.step (@TaskStep.create 0x1000 _ 0x9000 0x3000 2 0 1024 0 (by decide) (by decide) (by simp))
  exact round_robin 0x1000 (by decide) htwo

end BootPerl
