import CS519.Sched.Cfs

/-!
# The order of the timeline

With unbounded virtual times the timeline is sorted in every state, whatever the tasks do (`ordered_step`),
so the task that is picked has the least virtual time of all runnable ones (`Ordered.leftmost_le`). The
shape of the tree plays no part: the lemmas speak of the tasks in timeline order.
-/

namespace CS519.Sched
open Function

/-- A sorted list may be cut at any value. -/
lemma exists_cut {α : Type*} {f : α → ℤ} (x : ℤ) : ∀ {l : List α},
    (l.Pairwise fun a b => f a ≤ f b) →
      ∃ A B, l = A ++ B ∧ (∀ a ∈ A, f a ≤ x) ∧ ∀ b ∈ B, x < f b
  | [], _ => ⟨[], [], by simp⟩
  | a :: l, sorted => by
    obtain ⟨le, sorted⟩ := List.pairwise_cons.mp sorted
    by_cases h : f a ≤ x
    · obtain ⟨A, B, rfl, hA, hB⟩ := exists_cut x sorted
      exact ⟨a :: A, B, rfl, List.forall_mem_cons.mpr ⟨h, hA⟩, hB⟩
    · refine ⟨[], a :: l, rfl, by simp, List.forall_mem_cons.mpr ⟨by omega, fun b hb => ?_⟩⟩
      have := le b hb
      omega

/-- The tasks on the timeline are distinct and in the order of their virtual times, and the running one
is not among them. -/
structure Ordered {τ : Type*} (rq : CfsRq ℤ τ) : Prop where
  nodup : rq.waiting.Nodup
  outside : ∀ t, rq.curr = some t → t ∉ rq.waiting
  sorted : rq.waiting.Pairwise fun a b => rq.vruntime a ≤ rq.vruntime b

section Order
variable {τ : Type*} [DecidableEq τ] (rb : Rebalance τ) {rq rq' : CfsRq ℤ τ} {t : τ}

omit [DecidableEq τ] in
/-- Nothing that concerns the waiting tasks has changed. -/
lemma Ordered.congr (ord : Ordered rq) (waiting : rq'.waiting = rq.waiting)
    (outside : ∀ t, rq'.curr = some t → t ∉ rq.waiting)
    (same : ∀ t ∈ rq.waiting, rq'.vruntime t = rq.vruntime t) : Ordered rq' := by
  refine ⟨waiting ▸ ord.nodup, fun t c => waiting ▸ outside t c, ?_⟩
  rw [waiting]
  refine ord.sorted.imp_of_mem fun ha hb le => ?_
  rw [same _ ha, same _ hb]
  exact le

omit [DecidableEq τ] in
/-- Some waiting tasks have gone. -/
lemma Ordered.sublist (ord : Ordered rq) (less : rq'.waiting.Sublist rq.waiting)
    (outside : ∀ t, rq'.curr = some t → t ∉ rq'.waiting) (same : rq'.vruntime = rq.vruntime) :
    Ordered rq' := by
  refine ⟨ord.nodup.sublist less, outside, ?_⟩
  rw [same]
  exact ord.sorted.sublist less

omit [DecidableEq τ] in
/-- The leftmost task is first. -/
lemma leftmost_eq (h : rq.leftmost = some t) : ∃ rest, rq.waiting = t :: rest := by
  cases e : rq.waiting with
  | nil => simp [CfsRq.leftmost, e] at h
  | cons a rest =>
    rw [CfsRq.leftmost, e] at h
    exact ⟨rest, by rw [Option.some.inj h]⟩

omit [DecidableEq τ] in
/-- The leftmost task has the least time. -/
lemma Ordered.leftmost_le (ord : Ordered rq) (h : rq.leftmost = some t) {x : τ} (mem : x ∈ rq.waiting) :
    rq.vruntime t ≤ rq.vruntime x := by
  obtain ⟨rest, e⟩ := leftmost_eq h
  have sorted := ord.sorted
  rw [e] at mem sorted
  cases List.mem_cons.mp mem with
  | inl same => rw [same]
  | inr mem => exact (List.pairwise_cons.mp sorted).1 x mem

/-- An entered task stands behind those with the same or a lesser time. -/
lemma waiting_enqueue (ord : Ordered rq) (t : τ) :
    ∃ A B, rq.waiting = A ++ B ∧ (__enqueue_entity .unbounded rb rq t).waiting = A ++ t :: B ∧
      (∀ a ∈ A, rq.vruntime a ≤ rq.vruntime t) ∧ ∀ b ∈ B, rq.vruntime t < rq.vruntime b := by
  obtain ⟨A, B, e, hA, hB⟩ := exists_cut (rq.vruntime t) ord.sorted
  refine ⟨A, B, e, ?_, hA, hB⟩
  rw [CfsRq.waiting, __enqueue_entity, rb.inorder_insertColor]
  refine Tree.inorder_link e (fun a ha => ?_) fun b hb => ?_
  · simpa using hA a ha
  · simpa using hB b hb

/-- The tasks that wait after one was entered. -/
lemma mem_enqueue (ord : Ordered rq) {x : τ} :
    x ∈ (__enqueue_entity .unbounded rb rq t).waiting ↔ x = t ∨ x ∈ rq.waiting := by
  obtain ⟨A, B, e, e', _, _⟩ := waiting_enqueue rb ord t
  rw [e, e', List.mem_append, List.mem_append, List.mem_cons]
  exact or_left_comm

/-- A task that is entered where its time says keeps the order. -/
lemma Ordered.enqueue (ord : Ordered rq) (absent : t ∉ rq.waiting)
    (outside : ∀ x, rq'.curr = some x → x ≠ t ∧ x ∉ rq.waiting)
    (waiting : rq'.waiting = (__enqueue_entity .unbounded rb rq t).waiting)
    (same : rq'.vruntime = rq.vruntime) : Ordered rq' := by
  obtain ⟨A, B, e, e', hA, hB⟩ := waiting_enqueue rb ord t
  have nodup := ord.nodup
  have sorted := ord.sorted
  have mem := fun x => mem_enqueue rb ord (t := t) (x := x)
  rw [e] at absent nodup sorted
  obtain ⟨sA, sB, cross⟩ := List.pairwise_append.mp sorted
  refine ⟨?_, fun x c => ?_, ?_⟩
  · rw [waiting, e', List.nodup_middle]
    exact List.nodup_cons.mpr ⟨absent, nodup⟩
  · rw [waiting, mem]
    exact not_or.mpr (outside x c)
  · rw [waiting, e', same]
    refine List.pairwise_append.mpr ⟨sA, List.pairwise_cons.mpr ⟨fun b hb => (hB b hb).le, sB⟩, ?_⟩
    intro a ha b hb
    cases List.mem_cons.mp hb with
    | inl eq => exact eq ▸ hA a ha
    | inr mem => exact cross a ha b mem

/-- The queue after a task was taken out of the timeline. -/
lemma waiting_dequeue (t : τ) :
    (__dequeue_entity rb rq t).waiting = rq.waiting.erase t := by
  rw [CfsRq.waiting, __dequeue_entity, rb.inorder_erase, List.erase_eq_eraseP]
  congr 1
  funext x
  rw [Bool.eq_iff_iff, decide_eq_true_iff, beq_iff_eq, eq_comm]

/-- The queue after a pick, if there is one to make. -/
lemma waiting_pick (idle : rq.curr = none) (h : rq.leftmost = some t) :
    pick_next_entity rb rq = { __dequeue_entity rb rq t with curr := some t } ∧
      t :: (pick_next_entity rb rq).waiting = rq.waiting := by
  have pick : pick_next_entity rb rq = { __dequeue_entity rb rq t with curr := some t } := by
    simp [pick_next_entity, idle, h]
  obtain ⟨rest, e⟩ := leftmost_eq h
  refine ⟨pick, ?_⟩
  have others : (__dequeue_entity rb rq t).waiting = rq.waiting.erase t := waiting_dequeue rb t
  rw [e, List.erase_cons_head] at others
  rw [pick, e]
  exact congrArg (t :: ·) others

/-- No pick while a task runs or when none waits. -/
lemma pick_idle (h : rq.curr ≠ none ∨ rq.leftmost = none) : pick_next_entity rb rq = rq := by
  unfold pick_next_entity
  split
  · rename_i left idle some
    simp [idle, some] at h
  · rfl

/-- A pick keeps the order. -/
lemma Ordered.pick (ord : Ordered rq) : Ordered (pick_next_entity rb rq) := by
  by_cases h : rq.curr ≠ none ∨ rq.leftmost = none
  · rw [pick_idle rb h]
    exact ord
  · obtain ⟨idle, some⟩ := not_or.mp h
    obtain ⟨t, left⟩ := Option.ne_none_iff_exists'.mp some
    obtain ⟨pick, e⟩ := waiting_pick rb (not_not.mp idle) left
    have nodup := ord.nodup
    rw [← e] at nodup
    refine ord.sublist (e ▸ List.sublist_cons_self t _) (fun x c => ?_) (by rw [pick]; rfl)
    rw [pick] at c
    rw [← Option.some.inj c]
    exact (List.nodup_cons.mp nodup).1

/-- Accounting keeps the order, because the running task does not wait. -/
lemma Ordered.update_curr (ord : Ordered rq) (d : ℕ) : Ordered (update_curr .unbounded rq d) := by
  refine ord.congr (by simp) (fun t c => ord.outside t (by simpa using c)) fun t mem => ?_
  exact vruntime_update_curr _ rq d fun c => ord.outside t c mem

/-- A penalty for a task that does not wait keeps the order. -/
lemma Ordered.inflate (ord : Ordered rq) (absent : t ∉ rq.waiting) :
    Ordered (inflate .unbounded rq t) := by
  refine ord.congr (by simp) (fun x c => ord.outside x (by simpa using c)) fun x mem => ?_
  exact vruntime_inflate _ rq fun e => absent (e ▸ mem)

/-- The call keeps the order, because its caller does not wait. -/
lemma Ordered.set_inactive (ord : Ordered rq) : Ordered (set_inactive rq) := by
  refine ord.congr (by simp) (fun t c => ord.outside t (by simpa using c)) fun t mem => ?_
  exact vruntime_set_inactive rq fun c => ord.outside t c mem

/-- A preemption keeps the order, because the penalty comes before the task is entered. -/
lemma Ordered.put_prev_entity (ord : Ordered rq) (d : ℕ) :
    Ordered (put_prev_entity .unbounded rb rq d) := by
  cases c : rq.curr with
  | none => simpa [Sched.put_prev_entity, c] using ord
  | some t =>
    have absent := ord.outside t c
    have mid := (ord.update_curr d).inflate (t := t) (by simpa using absent)
    rw [put_prev_entity_some _ rb rq d c]
    exact mid.enqueue rb (by simpa using absent) (fun x h => by simp at h) rfl rfl

/-- The order stays when a task leaves. -/
lemma Ordered.dequeue_entity (ord : Ordered rq) (t : τ) : Ordered (dequeue_entity rb rq t) := by
  unfold Sched.dequeue_entity
  split
  · exact ord.congr rfl (fun x h => by simp at h) fun _ _ => rfl
  · have less : (__dequeue_entity rb rq t).waiting.Sublist rq.waiting := by
      rw [waiting_dequeue]
      exact List.erase_sublist
    exact ord.sublist less (fun x c mem => ord.outside x c (less.subset mem)) rfl

/-- The order stays when a task arrives. -/
lemma Ordered.enqueue_entity (ord : Ordered rq) (t : τ) (v : ℤ) :
    Ordered (enqueue_entity .unbounded rb rq t v) := by
  unfold Sched.enqueue_entity
  split
  · exact ord
  · rename_i absent
    obtain ⟨idle, absent⟩ := not_or.mp absent
    have mid : Ordered { rq with vruntime := update rq.vruntime t v } := by
      refine ord.congr rfl ord.outside fun x mem => ?_
      have ne : x ≠ t := fun e => absent (e ▸ mem)
      exact update_of_ne ne _ _
    refine mid.enqueue rb absent (fun x c => ⟨fun e => idle ?_, ord.outside x c⟩) rfl rfl
    rw [← e]
    exact c

/-- Whatever happens, the timeline stays sorted. -/
theorem ordered_step (e : Event ℤ τ) (ord : Ordered rq) : Ordered (cfs_step .unbounded rb rq e) := by
  cases e with
  | pick => exact ord.pick rb
  | execute d => exact ord.update_curr d
  | preempt d => exact ord.put_prev_entity rb d
  | set_inactive => exact ord.set_inactive
  | leave t => exact ord.dequeue_entity rb t
  | arrive t v => exact ord.enqueue_entity rb t v

/-! ## The runnable tasks -/

/-- A pick changes nothing about who is runnable. -/
lemma on_rq_pick {x : τ} : (pick_next_entity rb rq).on_rq x ↔ rq.on_rq x := by
  by_cases h : rq.curr ≠ none ∨ rq.leftmost = none
  · rw [pick_idle rb h]
  · obtain ⟨idle, some⟩ := not_or.mp h
    obtain ⟨l, left⟩ := Option.ne_none_iff_exists'.mp some
    obtain ⟨pick, e⟩ := waiting_pick rb (not_not.mp idle) left
    have curr : (pick_next_entity rb rq).curr = Option.some l := by rw [pick]
    rw [CfsRq.on_rq, CfsRq.on_rq, curr, not_not.mp idle, ← e, List.mem_cons, Option.some_inj, eq_comm]
    simp

/-- A preempted task stays runnable. -/
lemma on_rq_put_prev_entity (ord : Ordered rq) (d : ℕ) {x : τ} :
    (put_prev_entity .unbounded rb rq d).on_rq x ↔ rq.on_rq x := by
  cases c : rq.curr with
  | none => simp [Sched.put_prev_entity, c]
  | some t =>
    have mid := (ord.update_curr d).inflate (t := t) (by simpa using ord.outside t c)
    have mem : x ∈ (put_prev_entity .unbounded rb rq d).waiting ↔ x = t ∨ x ∈ rq.waiting := by
      rw [put_prev_entity_some _ rb rq d c]
      simpa using mem_enqueue rb mid
    rw [CfsRq.on_rq, CfsRq.on_rq, mem, curr_put_prev_entity, c, Option.some_inj, eq_comm (a := t)]
    simp

/-- While no task arrives or leaves, the runnable tasks stay the same. -/
theorem on_rq_step {e : Event ℤ τ} (settled : e.settled) (ord : Ordered rq) {x : τ} :
    (cfs_step .unbounded rb rq e).on_rq x ↔ rq.on_rq x := by
  cases e with
  | pick => exact on_rq_pick rb
  | execute d => simp [cfs_step, CfsRq.on_rq]
  | preempt d => exact on_rq_put_prev_entity rb ord d
  | set_inactive => simp [cfs_step, CfsRq.on_rq]
  | leave t => exact settled.elim
  | arrive t v => exact settled.elim

end Order

end CS519.Sched
