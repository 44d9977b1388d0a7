import CS519.Sched.Timeline

/-!
# What the penalty does

Two properties of the cooperative queue with unbounded virtual times. An inactive task is held back: from
one pick to the next its virtual time grows by the penalty at least, and it is picked only when no other
task is behind it (`penalty_suppresses`).

The system call does not only hold its caller back: it sets the time of a task that becomes active again
to `min_vruntime`, whether or not a penalty has moved that task before. `credit` is the least time the
call can leave a task with (`credit_step`), and a task gets ahead of what it has executed exactly
by a call that comes while `min_vruntime` is still below (`postpones_iff`).
-/

namespace CS519.Sched
open Function

/-! ## Inactive tasks are held back -/

section Suppression
variable {τ : Type*} [DecidableEq τ] (rb : Rebalance τ) {I J : τ} {rq : CfsRq ℤ τ}

/-- The virtual times of `I` and `J` when `I` is picked. -/
def pick_log (I J : τ) (rq : CfsRq ℤ τ) : Event ℤ τ → Option (ℤ × ℤ)
  | .pick =>
    if rq.curr = none ∧ rq.leftmost = some I then some (rq.vruntime I, rq.vruntime J) else none
  | _ => none

/-- An event that is no pick of `I` logs nothing. -/
lemma append_unlogged {I J : τ} {rq : CfsRq ℤ τ} {e : Event ℤ τ} (h : pick_log I J rq e = none)
    (picks : List (ℤ × ℤ)) : picks ++ (pick_log I J rq e).toList = picks := by
  rw [h, Option.toList_none, List.append_nil]

/-- `I` and `J` are runnable, `I` is inactive and `J` is active. -/
structure Opposed (I J : τ) (rq : CfsRq ℤ τ) : Prop where
  first : rq.on_rq I
  second : rq.on_rq J
  inactive : rq.inactive I = true
  active : rq.inactive J = false

/-- The penalties that the picks of `I` have led to so far. The one for the pick with which it runs is
still to come. -/
def penalties (I : τ) (rq : CfsRq ℤ τ) (picks : List (ℤ × ℤ)) : ℕ :=
  if rq.curr = some I then picks.length - 1 else picks.length

/-- The times at the picks of `I` so far, against the time of its first pick. -/
structure Suppressed (I : τ) (rq : CfsRq ℤ τ) (picks : List (ℤ × ℤ)) : Prop where
  ordered : Ordered rq
  spaced : ∀ v ∈ picks.head?.map Prod.fst, ∀ k (h : k < picks.length),
    v + k * INACTIVE_PENALTY_NS ≤ picks[k].2
  behind : ∀ v ∈ picks.head?.map Prod.fst,
    v + penalties I rq picks * INACTIVE_PENALTY_NS ≤ rq.vruntime I

/-- A step that is no pick of `I` keeps the picks as they are. -/
lemma Suppressed.keep {rq' : CfsRq ℤ τ} {picks : List (ℤ × ℤ)} (sup : Suppressed I rq picks)
    (ordered : Ordered rq')
    (grown : picks ≠ [] → rq.vruntime I +
      (penalties I rq' picks - penalties I rq picks : ℤ) * INACTIVE_PENALTY_NS ≤ rq'.vruntime I) :
    Suppressed I rq' picks := by
  refine ⟨ordered, sup.spaced, fun v hv => ?_⟩
  have ne : picks ≠ [] := by
    intro e
    simp [e] at hv
  have before := sup.behind v hv
  have after := grown ne
  rw [sub_mul] at after
  omega

/-- A step after which `I` runs exactly if it did before, with no lesser time. -/
lemma Suppressed.keep_running {rq' : CfsRq ℤ τ} {picks : List (ℤ × ℤ)} (sup : Suppressed I rq picks)
    (ordered : Ordered rq') (running : rq'.curr = some I ↔ rq.curr = some I)
    (le : rq.vruntime I ≤ rq'.vruntime I) : Suppressed I rq' picks := by
  have same : penalties I rq' picks = penalties I rq picks := by
    simp only [penalties, running]
  refine sup.keep ordered fun _ => ?_
  rw [same]
  simpa using le

/-- No time goes back when a task executes. -/
lemma vruntime_execute_le (d : ℕ) (t : τ) :
    rq.vruntime t ≤ (update_curr .unbounded rq d).vruntime t := by
  by_cases c : rq.curr = some t
  · rw [update_curr_some _ rq d c]
    simp
  · rw [vruntime_update_curr _ rq d c]

/-- The time of an inactive task when it is put back. -/
lemma vruntime_penalised {t : τ} (d : ℕ) (c : rq.curr = some t) (inactive : rq.inactive t = true) :
    (put_prev_entity .unbounded rb rq d).vruntime t =
      rq.vruntime t + d + INACTIVE_PENALTY_NS := by
  rw [put_prev_entity_some _ rb rq d c]
  simp [__enqueue_entity, inflate, update_curr_some _ rq d c, inactive]

/-- A task is not runnable after it has left. -/
lemma Ordered.left (ord : Ordered rq) (c : rq.curr = some I) : ¬(Sched.dequeue_entity rb rq I).on_rq I := by
  have absent := ord.outside I c
  rw [Sched.dequeue_entity, if_pos c]
  rintro (h | h)
  · simp at h
  · exact absent h

/-- A pick of `I` comes when `J` has advanced by the penalties of `I`. -/
lemma suppressed_pick {picks : List (ℤ × ℤ)} (opp : Opposed I J rq) (sup : Suppressed I rq picks) :
    Suppressed I (pick_next_entity rb rq) (picks ++ (pick_log I J rq .pick).toList) := by
  have ordered := sup.ordered.pick rb
  by_cases h : rq.curr ≠ none ∨ rq.leftmost = none
  · have unlogged : pick_log I J rq .pick = none := by
      rw [pick_log, if_neg]
      rintro ⟨idle, left⟩
      simp [idle, left] at h
    rw [pick_idle rb h, append_unlogged unlogged]
    exact sup
  · obtain ⟨busy, some⟩ := not_or.mp h
    have idle := not_not.mp busy
    obtain ⟨t, left⟩ := Option.ne_none_iff_exists'.mp some
    obtain ⟨pick, _⟩ := waiting_pick rb idle left
    by_cases e : t = I
    · subst e
      have logged : pick_log t J rq .pick = Option.some (rq.vruntime t, rq.vruntime J) := by
        rw [pick_log, if_pos ⟨idle, left⟩]
      have waits : J ∈ rq.waiting := opp.second.resolve_left (by simp [idle])
      have le := sup.ordered.leftmost_le left waits
      have served : penalties t rq picks = picks.length := by simp [penalties, idle]
      have behind := sup.behind
      rw [served] at behind
      rw [logged, Option.toList_some]
      refine ⟨ordered, fun v hv k hk => ?_, fun v hv => ?_⟩
      · -- the new pick is the last one, and `J` waits with no lesser time
        rw [List.getElem_append]
        split
        · rename_i old
          have ne : picks ≠ [] := List.ne_nil_of_length_pos (by omega)
          rw [List.head?_append_of_ne_nil _ ne] at hv
          exact sup.spaced v hv k old
        · rename_i new
          have last : k = picks.length := by
            rw [List.length_append, List.length_singleton] at hk
            omega
          subst last
          simp only [Nat.sub_self, List.getElem_cons_zero]
          cases picks with
          | nil =>
            have : rq.vruntime t = v := by simpa using hv
            simpa [← this] using le
          | cons p ps => exact (behind v (by simpa using hv)).trans le
      · have now : penalties t (pick_next_entity rb rq)
            (picks ++ [(rq.vruntime t, rq.vruntime J)]) = picks.length := by
          simp [penalties, pick]
        rw [now, pick]
        cases picks with
        | nil =>
          have : rq.vruntime t = v := by simpa using hv
          simp [← this, __dequeue_entity]
        | cons p ps => exact behind v (by simpa using hv)
    · have unlogged : pick_log I J rq .pick = none := by
        rw [pick_log, if_neg]
        rintro ⟨_, other⟩
        exact e (Option.some.inj (left.symm.trans other))
      rw [append_unlogged unlogged]
      refine sup.keep_running ordered ?_ (by rw [pick]; rfl)
      simp [pick, idle, e]

/-- One step, which leaves `I` inactive and `J` active. -/
lemma suppressed_step {picks : List (ℤ × ℤ)} (e : Event ℤ τ)
    (opp : Opposed I J rq ∧ Opposed I J (cfs_step .unbounded rb rq e)) (sup : Suppressed I rq picks) :
    Suppressed I (cfs_step .unbounded rb rq e) (picks ++ (pick_log I J rq e).toList) := by
  have ordered := ordered_step rb e sup.ordered
  obtain ⟨opp, opp'⟩ := opp
  cases e with
  | pick => exact suppressed_pick rb opp sup
  | execute d =>
    rw [append_unlogged rfl]
    exact sup.keep_running ordered (by simp [cfs_step]) (vruntime_execute_le d I)
  | preempt d =>
    rw [append_unlogged rfl]
    have idle : (cfs_step .unbounded rb rq (.preempt d)).curr = none := curr_put_prev_entity _ rb rq d
    by_cases c : rq.curr = some I
    · -- the penalty for the last pick of `I`
      refine sup.keep ordered fun ne => ?_
      have now : penalties I (cfs_step .unbounded rb rq (.preempt d)) picks = picks.length := by
        simp [penalties, idle]
      have was : penalties I rq picks = picks.length - 1 := by simp [penalties, c]
      have pos := List.length_pos_of_ne_nil ne
      have time := vruntime_penalised rb d c opp.inactive
      rw [now, was, cfs_step, time]
      push_cast [pos]
      omega
    · exact sup.keep_running ordered (by simp [idle, c]) (vruntime_put_prev_entity _ rb rq d c).ge
  | set_inactive =>
    rw [append_unlogged rfl]
    have c : rq.curr ≠ some I := by
      intro c
      have flag := inactive_set_inactive rq c
      rw [opp.inactive] at flag
      exact absurd (flag.symm.trans opp'.inactive) (by decide)
    refine sup.keep_running ordered ?_ (vruntime_set_inactive rq c).ge
    rw [cfs_step, curr_set_inactive]
  | leave t =>
    rw [append_unlogged rfl]
    by_cases c : rq.curr = some t
    · have ne : t ≠ I := by
        rintro rfl
        exact sup.ordered.left rb c opp'.first
      refine sup.keep_running ordered ?_ ?_
      · simp [cfs_step, dequeue_entity, c, ne]
      · simp [cfs_step, dequeue_entity, c]
    · refine sup.keep_running ordered ?_ ?_
      · simp [cfs_step, dequeue_entity, c, __dequeue_entity]
      · simp [cfs_step, dequeue_entity, c, __dequeue_entity]
  | arrive t v =>
    rw [append_unlogged rfl]
    by_cases c : rq.curr = some t ∨ t ∈ rq.waiting
    · rw [cfs_step, enqueue_entity, if_pos c]
      exact sup
    · have ne : I ≠ t := by
        rintro rfl
        exact c opp.first
      refine sup.keep_running ordered ?_ ?_
      · simp [cfs_step, enqueue_entity, c, __enqueue_entity]
      · simp [cfs_step, enqueue_entity, c, __enqueue_entity, ne]

/-- Times that are spaced out are few below a bound. -/
lemma length_filter_le_of_spaced {l : List (ℤ × ℤ)} {v : ℤ} {P : ℕ} (pos : 0 < P)
    (spaced : ∀ k (h : k < l.length), v + k * P ≤ l[k].2) (D : ℕ) :
    (l.filter fun e => e.2 ≤ v + D).length ≤ D / P + 1 := by
  have beyond : (l.drop (D / P + 1)).filter (fun e => e.2 ≤ v + D) = [] := by
    apply List.filter_eq_nil_iff.mpr
    intro e mem
    obtain ⟨k, hk, rfl⟩ := List.getElem_of_mem mem
    rw [List.length_drop] at hk
    rw [List.getElem_drop, decide_eq_true_iff]
    have apart := spaced (D / P + 1 + k) (by omega)
    have far : D < (D / P + 1 + k) * P :=
      calc D < P * (D / P + 1) := Nat.lt_mul_div_succ D pos
        _ = (D / P + 1) * P := Nat.mul_comm P _
        _ ≤ (D / P + 1 + k) * P := Nat.mul_le_mul_right P (by omega)
    have far' : (D : ℤ) < ((D / P + 1 + k : ℕ) : ℤ) * P := by exact_mod_cast far
    omega
  rw [← List.take_append_drop (D / P + 1) l, List.filter_append, beyond, List.append_nil]
  exact (List.length_filter_le _ _).trans (List.length_take_le _ _)

/-- An inactive task `I` beside an active one `J`: `J` has advanced by one penalty for each pick of `I`
after the first one, so `I` is picked rarely while `J` advances. -/
theorem penalty_suppresses (ord : Ordered rq) {h : List (Event ℤ τ)}
    (opp : Throughout (cfs_step .unbounded rb) (Opposed I J) rq h) :
    let picks := trace (cfs_step .unbounded rb) (pick_log I J) rq h
    ∀ v ∈ picks.head?.map Prod.fst,
      (∀ k (hk : k < picks.length), v + k * INACTIVE_PENALTY_NS ≤ picks[k].2) ∧
        ∀ D : ℕ, (picks.filter fun e => e.2 ≤ v + D).length ≤ D / INACTIVE_PENALTY_NS + 1 := by
  intro picks v hv
  have start : Suppressed I rq [] := ⟨ord, by simp, by simp⟩
  have sup : Suppressed I _ picks :=
    trace_invariant_of_always (fun _ _ e opp sup => suppressed_step rb e opp sup) start opp.always
  have spaced := sup.spaced v hv
  exact ⟨spaced, length_filter_le_of_spaced (by decide) spaced⟩

/-- The tasks 0 and 1 with equal times, of which some are inactive. -/
def two_tasks (inactive : ℕ → Bool) : CfsRq ℤ ℕ :=
  ⟨fun _ => 0, inactive, 0, none, .node .black .nil 0 (.node .red .nil 1 .nil)⟩

/-- The two tasks are in order. -/
lemma ordered_two_tasks (inactive : ℕ → Bool) : Ordered (two_tasks inactive) :=
  ⟨show [0, 1].Nodup by decide, fun _ c => by simp [two_tasks] at c,
    show [0, 1].Pairwise fun _ _ => (0 : ℤ) ≤ 0 by decide⟩

omit [DecidableEq τ] in
/-- The fields as a conjunction. -/
lemma Opposed.iff : Opposed I J rq ↔
    rq.on_rq I ∧ rq.on_rq J ∧ rq.inactive I = true ∧ rq.inactive J = false :=
  ⟨fun ⟨a, b, c, d⟩ => ⟨a, b, c, d⟩, fun ⟨a, b, c, d⟩ => ⟨a, b, c, d⟩⟩

instance (t : τ) : Decidable (rq.on_rq t) :=
  inferInstanceAs (Decidable (rq.curr = some t ∨ t ∈ rq.waiting))

instance : DecidablePred (Opposed (τ := τ) I J) := fun _ => decidable_of_iff _ Opposed.iff.symm

/-- The inactive task 0 is picked a second time, when the task 1 has advanced by the penalty. -/
theorem penalty_suppresses_two_tasks :
    let picks := trace (cfs_step .unbounded .plain) (pick_log 0 1) (two_tasks (· = 0))
      [.pick, .execute 5, .preempt 1, .pick, .execute 10000000007, .preempt 0, .pick]
    ∀ v ∈ picks.head?.map Prod.fst,
      (∀ k (hk : k < picks.length), v + k * INACTIVE_PENALTY_NS ≤ picks[k].2) ∧
        ∀ D : ℕ, (picks.filter fun e => e.2 ≤ v + D).length ≤ D / INACTIVE_PENALTY_NS + 1 :=
  penalty_suppresses .plain (ordered_two_tasks _) (by decide)

end Suppression

/-! ## What a task executes and where the call places it -/

section Ghost
variable {τ : Type*} [DecidableEq τ] (rb : Rebalance τ) (rq : CfsRq ℤ τ) (t : τ)

/-- What a task executes in a step. -/
def executed : Event ℤ τ → ℕ
  | .execute d | .preempt d => if rq.curr = some t then d else 0
  | _ => 0

/-- The step is a call of the task that makes it active again. -/
def reactivates : Event ℤ τ → Prop
  | .set_inactive => rq.curr = some t ∧ rq.inactive t = true
  | _ => False

instance : DecidablePred (reactivates rq t)
  | .set_inactive => inferInstanceAs (Decidable (rq.curr = some t ∧ rq.inactive t = true))
  | .pick | .execute _ | .preempt _ | .leave _ | .arrive _ _ => inferInstanceAs (Decidable False)

/-- The queue with two accounts of every task. `ghost` is its time at the start and what it has executed
since. `credit` is the same, except that a call that makes the task active again takes away what lies
above `min_vruntime`. -/
structure Accounts (τ : Type*) where
  rq : CfsRq ℤ τ
  ghost : τ → ℤ
  credit : τ → ℤ

def Accounts.start : Accounts τ := ⟨rq, rq.vruntime, rq.vruntime⟩

def account_step (w : Accounts τ) (e : Event ℤ τ) : Accounts τ where
  rq := cfs_step .unbounded rb w.rq e
  ghost t := w.ghost t + executed w.rq t e
  credit t :=
    if reactivates w.rq t e then min (w.credit t) w.rq.min_vruntime
    else w.credit t + executed w.rq t e

/-- A step adds what the task executes, or a penalty more, or places the task at `min_vruntime`. -/
lemma vruntime_settled {e : Event ℤ τ} (settled : e.settled) :
    (reactivates rq t e → (cfs_step .unbounded rb rq e).vruntime t = rq.min_vruntime) ∧
      (¬reactivates rq t e →
        rq.vruntime t + executed rq t e ≤ (cfs_step .unbounded rb rq e).vruntime t) := by
  cases e with
  | pick =>
    refine ⟨False.elim, fun _ => ?_⟩
    simp only [cfs_step, pick_next_entity]
    split <;> simp [executed, __dequeue_entity]
  | execute d =>
    refine ⟨False.elim, fun _ => ?_⟩
    by_cases c : rq.curr = some t
    · simp [cfs_step, executed, c, update_curr_some _ rq d c]
    · simp [cfs_step, executed, c, vruntime_update_curr _ rq d c]
  | preempt d =>
    refine ⟨False.elim, fun _ => ?_⟩
    by_cases c : rq.curr = some t
    · cases flag : rq.inactive t with
      | false => simp [cfs_step, executed, c, put_prev_entity_some _ rb rq d c, __enqueue_entity,
          inflate, update_curr_some _ rq d c, flag]
      | true =>
        have time := vruntime_penalised rb d c flag
        simp only [cfs_step, executed, if_pos c, time]
        omega
    · simp [cfs_step, executed, c, vruntime_put_prev_entity _ rb rq d c]
  | set_inactive =>
    by_cases c : rq.curr = some t
    · cases flag : rq.inactive t with
      | false => simp [cfs_step, reactivates, executed, set_inactive, c, flag]
      | true => simp [cfs_step, reactivates, set_inactive, c, flag]
    · simp [cfs_step, reactivates, executed, c, vruntime_set_inactive rq c]
  | leave _ => exact settled.elim
  | arrive _ _ => exact settled.elim

variable {rq t}

/-- No task falls below its credit. -/
lemma credit_step {w : Accounts τ} {e : Event ℤ τ} (settled : e.settled)
    (le : ∀ t, w.credit t ≤ w.rq.vruntime t) (t : τ) :
    (account_step rb w e).credit t ≤ (account_step rb w e).rq.vruntime t := by
  obtain ⟨reset, grown⟩ := vruntime_settled rb w.rq t settled
  have le := le t
  by_cases r : reactivates w.rq t e
  · simp only [account_step, if_pos r, reset r]
    omega
  · have grown := grown r
    simp only [account_step, if_neg r]
    omega

/-- A step keeps all tasks at or above their ghosts exactly if it makes no task active again before
`min_vruntime` has reached the ghost. -/
lemma ghost_step {w : Accounts τ} {e : Event ℤ τ} (settled : e.settled)
    (le : ∀ t, w.ghost t ≤ w.rq.vruntime t) :
    (∀ t, (account_step rb w e).ghost t ≤ (account_step rb w e).rq.vruntime t) ↔
      ∀ t, reactivates w.rq t e → w.ghost t ≤ w.rq.min_vruntime := by
  refine forall_congr' fun t => ?_
  obtain ⟨reset, grown⟩ := vruntime_settled rb w.rq t settled
  have le := le t
  by_cases r : reactivates w.rq t e
  · have idle : executed w.rq t e = 0 := by
      cases e with
      | set_inactive => rfl
      | _ => exact r.elim
    simp only [account_step, reset r, idle, r]
    simp
  · have grown := grown r
    simp only [account_step, r]
    constructor
    · exact fun _ h => h.elim
    · intro _
      omega

/-- In every state a task has at least its credit, and it has its ghost all along exactly if every call
that makes a task active again comes when `min_vruntime` has reached the ghost of the task. -/
theorem postpones_iff {h : List (Event ℤ τ)} (settled : ∀ e ∈ h, e.settled) :
    Throughout (account_step rb) (fun w => ∀ t, w.credit t ≤ w.rq.vruntime t) (.start rq) h ∧
      (Throughout (account_step rb) (fun w => ∀ t, w.ghost t ≤ w.rq.vruntime t) (.start rq) h ↔
        Always (account_step rb)
          (fun w e => ∀ t, reactivates w.rq t e → w.ghost t ≤ w.rq.min_vruntime) (.start rq) h) := by
  constructor
  · exact throughout_invariant (fun w e ok le => credit_step rb ok le) (fun _ => le_rfl) settled
  · exact throughout_iff_always (fun w e ok le => ghost_step rb ok le) (fun _ => le_rfl) settled

/-- A task that runs ahead of the others and calls twice is back where it started. -/
theorem not_postpones :
    ¬Throughout (account_step .plain) (fun w => ∀ t, w.ghost t ≤ w.rq.vruntime t)
      (.start (two_tasks fun _ => false)) [.pick, .execute 5, .set_inactive, .set_inactive] := by
  intro all
  have := all _ (List.prefix_refl _) 0
  revert this
  decide

/-- A task executes and then calls twice, before `min_vruntime` has reached what it has earned. -/
theorem postpones_iff_two_tasks :
    Throughout (account_step .plain) (fun w => ∀ t, w.credit t ≤ w.rq.vruntime t)
        (.start (two_tasks fun _ => false)) [.pick, .execute 5, .set_inactive, .set_inactive] ∧
      (Throughout (account_step .plain) (fun w => ∀ t, w.ghost t ≤ w.rq.vruntime t)
          (.start (two_tasks fun _ => false)) [.pick, .execute 5, .set_inactive, .set_inactive] ↔
        Always (account_step .plain)
          (fun w e => ∀ t, reactivates w.rq t e → w.ghost t ≤ w.rq.min_vruntime)
          (.start (two_tasks fun _ => false)) [.pick, .execute 5, .set_inactive, .set_inactive]) :=
  postpones_iff .plain (by simp [Event.settled])

end Ghost

end CS519.Sched
