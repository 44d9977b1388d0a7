import Mathlib.Algebra.BigOperators.Group.Finset.Basic
import Mathlib.Algebra.Order.BigOperators.Group.Finset
import CS519.Sched.Penalty
import CS519.Sched.Wrap

/-!
# How long a task waits

A task that waits keeps its virtual time, and only tasks with no greater time are picked before it. So
what the others may execute meanwhile is bounded, with unbounded times (`turn_comes`) and in the kernel's
queue (`bounded_waiting`), as long as no call of `set_inactive` places its caller behind what it has
executed. Calls that do so are enough to keep a task waiting: a group of tasks that each call twice at the
end of every slot runs in turn for as long as it likes, and never lets another task run (`callers_starve`).
-/

namespace CS519.Sched
open Function

section Bounded
variable {τ : Type*} [DecidableEq τ] (rb : Rebalance τ) {I : τ} {S : ℕ} {rq : CfsRq ℤ τ}
  {w : Accounts τ} {tasks : Finset τ} {times : List ℕ}

/-- The time for which a step keeps the processor busy. -/
def busy {κ : Type*} (rq : CfsRq κ τ) : Event κ τ → Option ℕ
  | .execute d | .preempt d => if rq.curr = none then none else some d
  | _ => none

/-- A call that makes a task active again comes when `min_vruntime` has reached what the task has earned,
so it places no task ahead. -/
def Timely (w : Accounts τ) (e : Event ℤ τ) : Prop :=
  ∀ t, reactivates w.rq t e → w.ghost t ≤ w.rq.min_vruntime

omit [DecidableEq τ] in
/-- Only the call of the task that runs has to be timely. -/
lemma timely_iff {w : Accounts τ} : Timely w .set_inactive ↔
    ∀ t ∈ w.rq.curr, w.rq.inactive t = true → w.ghost t ≤ w.rq.min_vruntime :=
  forall_congr' fun _ => ⟨fun timely run flag => timely ⟨run, flag⟩, fun timely r => timely r.1 r.2⟩

instance (w : Accounts τ) : DecidablePred (Timely w)
  | .set_inactive => decidable_of_iff _ timely_iff.symm
  | .pick | .execute _ | .preempt _ | .leave _ | .arrive _ _ => isTrue fun _ r => r.elim

/-- `I` waits since a state `rq`, and `times` are the times for which the processor was busy. -/
structure Waits (I : τ) (S : ℕ) (tasks : Finset τ) (rq : CfsRq ℤ τ) (w : Accounts τ)
    (times : List ℕ) : Prop where
  ordered : Ordered w.rq
  runnable : ∀ t, w.rq.on_rq t → t ∈ tasks
  earned : ∀ t, w.ghost t ≤ w.rq.vruntime t
  same : w.rq.vruntime I = rq.vruntime I
  unserved : w.ghost I = rq.vruntime I
  bounded : ∀ t, w.ghost t ≤ max (rq.vruntime t) (rq.vruntime I + S)
  total : (times.sum : ℤ) = ∑ t ∈ tasks, (w.ghost t - rq.vruntime t)

omit [DecidableEq τ] in
/-- No task leaves or arrives. -/
lemma Event.settled_of_admits {e : Event ℤ τ} (adm : admits S rq e) : e.settled := by
  cases e with
  | leave _ | arrive _ _ => exact adm.elim
  | _ => trivial

/-- The processor is busy with the one task that executes. -/
lemma busy_eq_sum (runnable : ∀ t, rq.on_rq t → t ∈ tasks) (e : Event ℤ τ) :
    (busy rq e).toList.sum = ∑ t ∈ tasks, executed rq t e := by
  have single (d : ℕ) : (if rq.curr = none then none else some d : Option ℕ).toList.sum =
      ∑ t ∈ tasks, if rq.curr = some t then d else 0 := by
    cases c : rq.curr with
    | none => simp
    | some t => simp [runnable t (.inl c)]
  cases e with
  | execute d | preempt d => exact single d
  | _ => simp [busy, executed]

/-- What executes while `I` waits comes no further than `S` beyond the time of `I`. -/
lemma executed_le (ord : Ordered rq) (wait : I ∈ rq.waiting) {e : Event ℤ τ} (adm : admits S rq e)
    (t : τ) : executed rq t e = 0 ∨ rq.vruntime t + executed rq t e ≤ rq.vruntime I + S := by
  have slot (d : ℕ) (lead : ∀ c ∈ rq.curr, ∀ left ∈ rq.leftmost,
      rq.vruntime c + d ≤ rq.vruntime left + S) (run : rq.curr = some t) :
      rq.vruntime t + d ≤ rq.vruntime I + S := by
    obtain ⟨left, h⟩ : ∃ left, rq.leftmost = some left := by
      cases e : rq.waiting with
      | nil => simp [e] at wait
      | cons left _ => exact ⟨left, by simp [CfsRq.leftmost, e]⟩
    have first := ord.leftmost_le h wait
    have := lead t run left h
    omega
  cases e with
  | execute d | preempt d =>
    by_cases run : rq.curr = some t
    · right
      simpa [executed, run] using slot d adm run
    · left
      simp [executed, run]
  | _ => exact .inl rfl

/-- While `I` waits, a step adds what it keeps the processor busy for. -/
lemma waits_step {e : Event ℤ τ} (adm : admits S w.rq e) (timely : Timely w e)
    (wait : I ∈ w.rq.waiting) (wt : Waits I S tasks rq w times) :
    Waits I S tasks rq (account_step rb w e) (times ++ (busy w.rq e).toList) := by
  have settled := Event.settled_of_admits adm
  have out : w.rq.curr ≠ some I := fun c => wt.ordered.outside I c wait
  have rest : executed w.rq I e = 0 := by
    cases e with
    | execute d | preempt d => exact if_neg out
    | _ => rfl
  refine ⟨ordered_step rb e wt.ordered, fun t mem => ?_, ?_, ?_, ?_, fun t => ?_, ?_⟩
  · exact wt.runnable t ((on_rq_step rb settled wt.ordered).mp mem)
  · exact (ghost_step rb settled wt.earned).mpr timely
  · exact (vruntime_waiting .unbounded rb w.rq wt.ordered.outside e wait).trans wt.same
  · simpa [account_step, rest] using wt.unserved
  · have earned := wt.earned t
    have bounded := wt.bounded t
    have same := wt.same
    simp only [account_step]
    cases executed_le wt.ordered wait adm t with
    | inl idle =>
      rw [idle]
      omega
    | inr le => omega
  · rw [List.sum_append, Nat.cast_add, wt.total, busy_eq_sum wt.runnable e, Nat.cast_sum,
      ← Finset.sum_add_distrib]
    refine Finset.sum_congr rfl fun t _ => ?_
    simp only [account_step]
    omega

/-- What the others execute while `I` waits. -/
lemma Waits.sum_le (wt : Waits I S tasks rq w times) :
    times.sum ≤ ∑ t ∈ tasks.erase I, (rq.vruntime I + S - rq.vruntime t).toNat := by
  have others : ∑ t ∈ tasks.erase I, (w.ghost t - rq.vruntime t) =
      ∑ t ∈ tasks, (w.ghost t - rq.vruntime t) :=
    Finset.sum_erase tasks (by rw [wt.unserved, sub_self])
  have each : ∑ t ∈ tasks.erase I, (w.ghost t - rq.vruntime t) ≤
      ∑ t ∈ tasks.erase I, ((rq.vruntime I + S - rq.vruntime t).toNat : ℤ) := by
    refine Finset.sum_le_sum fun t _ => ?_
    have := wt.bounded t
    omega
  have total := wt.total
  rw [← others] at total
  exact_mod_cast total.le.trans each

/-- A runnable task that never runs waits all along. -/
lemma waits_of_not_run (ord : Ordered rq) (wait : I ∈ rq.waiting) {h : List (Event ℤ τ)}
    (settled : ∀ e ∈ h, e.settled)
    (never : ∀ g, g <+: h → (run (account_step rb) (.start rq) g).rq.curr ≠ some I) :
    Throughout (account_step rb) (fun w => I ∈ w.rq.waiting) (.start rq) h := by
  have kept : Throughout (account_step rb) (fun w => Ordered w.rq ∧ w.rq.on_rq I) (.start rq) h := by
    refine throughout_invariant (fun w e ok inv => ?_) ⟨ord, .inr wait⟩ settled
    exact ⟨ordered_step rb e inv.1, (on_rq_step rb ok inv.1).mpr inv.2⟩
  exact fun g pre => (kept g pre).2.resolve_left (never g pre)

/-- With unbounded times, a task that waits runs at the latest when the processor has been busy for what
lies between the times of the other tasks and its own, and a slot of `S` for each of them. -/
lemma turn_comes (ord : Ordered rq) (wait : I ∈ rq.waiting)
    (runnable : ∀ t, rq.on_rq t → t ∈ tasks) {h : List (Event ℤ τ)}
    (adm : Always (account_step rb) (fun w e => admits S w.rq e ∧ Timely w e) (.start rq) h)
    (long : ∑ t ∈ tasks.erase I, (rq.vruntime I + S - rq.vruntime t).toNat <
      (trace (account_step rb) (fun w e => busy w.rq e) (.start rq) h).sum) :
    ∃ g, g <+: h ∧ (run (account_step rb) (.start rq) g).rq.curr = some I := by
  by_contra never
  have settled : ∀ e ∈ h, e.settled :=
    adm.forall_mem fun _ _ a => Event.settled_of_admits a.1
  have waits := waits_of_not_run rb ord wait settled fun g pre c => never ⟨g, pre, c⟩
  have start : Waits I S tasks rq (.start rq) [] :=
    ⟨ord, runnable, fun _ => le_rfl, rfl, rfl, fun _ => le_max_left _ _, by simp [Accounts.start]⟩
  have final : Waits I S tasks rq _ (trace (account_step rb) (fun w e => busy w.rq e) (.start rq) h) :=
    trace_invariant_of_always (fun _ _ _ a wt => waits_step rb a.1.1 a.1.2 a.2.1 wt) start
      (always_and.mpr ⟨adm, waits.always⟩)
  exact absurd final.sum_le (not_le.mpr long)

omit [DecidableEq τ] in
/-- A task that executes while another one waits is not alone. -/
lemma accounted_of_waiting (wait : I ∈ rq.waiting) (e : Event ℤ τ) : accounted S rq e := by
  have some : rq.leftmost ≠ none := by
    rw [CfsRq.leftmost, Ne, List.head?_eq_none_iff]
    exact List.ne_nil_of_mem wait
  cases e with
  | execute d | preempt d => exact fun none => absurd none some
  | _ => trivial

/-- As long as `I` is not picked in the kernel's queue it waits in both, and they take the same steps. -/
lemma waits_in_both (small : S < 2 ^ 62) {h : List (Event ℤ τ)} (close : Close S w.rq)
    (wait : I ∈ w.rq.waiting) (adm : Always (account_step rb) (fun w e => admits S w.rq e) w h)
    (never : Throughout (u64_step rb) (fun u => u.curr ≠ some I) w.rq.wrap h) :
    Throughout (account_step rb) (fun w => w.rq.curr ≠ some I) w h := by
  induction h generalizing w with
  | nil => exact throughout_iff.mpr ⟨(throughout_iff.mp never).1, trivial⟩
  | cons e h ih =>
    obtain ⟨adm, adms⟩ := adm
    have same : u64_step rb w.rq.wrap e = (account_step rb w e).rq.wrap :=
      wrap_step rb small close adm (accounted_of_waiting wait e)
    obtain ⟨first, rest⟩ := throughout_cons.mp never
    rw [same] at rest
    have stays : (account_step rb w e).rq.on_rq I :=
      (on_rq_step rb (Event.settled_of_admits adm) close.ordered).mpr (.inr wait)
    have waits := stays.resolve_left (throughout_iff.mp rest).1
    exact throughout_cons.mpr ⟨first, ih (close_step rb adm close) waits adms rest⟩

/-- In the kernel's queue a task that waits runs at the latest when the processor has been busy for what
lies between the times of the other tasks and its own, and a slot of `S` for each of them. -/
theorem bounded_waiting (small : S < 2 ^ 62) (close : Close S rq) (wait : I ∈ rq.waiting)
    (runnable : ∀ t, rq.on_rq t → t ∈ tasks) {h : List (Event ℤ τ)}
    (adm : Always (account_step rb) (fun w e => admits S w.rq e ∧ Timely w e) (.start rq) h)
    (long : ∑ t ∈ tasks.erase I, (rq.vruntime I + S - rq.vruntime t).toNat <
      (trace (account_step rb) (fun w e => busy w.rq e) (.start rq) h).sum) :
    ∃ g, g <+: h ∧ (run (u64_step rb) rq.wrap g).curr = some I := by
  obtain ⟨g, pre, runs⟩ := turn_comes rb close.ordered wait runnable adm long
  by_contra never
  have out : Throughout (u64_step rb) (fun u => u.curr ≠ some I) rq.wrap h :=
    fun g pre c => never ⟨g, pre, c⟩
  exact waits_in_both rb small (w := .start rq) close wait (always_and.mp adm).1 out g pre runs

/-- The tasks 0 and 1 with equal times, and the task 2 behind them. -/
def late_task : CfsRq ℤ ℕ :=
  ⟨fun t => if t = 2 then 1 else 0, fun _ => false, 0, none,
    .node .black (.node .red .nil 0 .nil) 1 (.node .red .nil 2 .nil)⟩

/-- The three tasks are close together. -/
lemma close_late_task : Close S late_task := by
  have ordered : Ordered late_task :=
    ⟨show [0, 1, 2].Nodup by decide, fun _ c => by simp [late_task] at c,
      show [0, 1, 2].Pairwise (fun a b => late_task.vruntime a ≤ late_task.vruntime b) by decide⟩
  have time (t : ℕ) : 0 ≤ late_task.vruntime t ∧ late_task.vruntime t ≤ 0 + INACTIVE_PENALTY_NS := by
    by_cases last : t = 2
    · simp [late_task, last, INACTIVE_PENALTY_NS, NSEC_PER_SEC]
    · simp [late_task, last, INACTIVE_PENALTY_NS, NSEC_PER_SEC]
  exact ⟨ordered, fun t _ => ⟨(time t).1, (time t).2.trans (by simp [late_task])⟩, fun t _ _ => (time t).2⟩

/-- The task 2 runs when 0 has been penalised and 1 has called `set_inactive` twice. -/
theorem bounded_waiting_late_task :
    ∃ g, g <+: [.pick, .set_inactive, .execute 5, .preempt 0, .pick, .set_inactive, .set_inactive,
        .execute 6, .preempt 0, .pick, .execute 2] ∧
      (run (u64_step .plain) late_task.wrap g).curr = some 2 := by
  have runnable : ∀ t, late_task.on_rq t → t ∈ ({0, 1, 2} : Finset ℕ) := by
    intro t mem
    have wait : t ∈ [0, 1, 2] := mem.resolve_left fun c => by simp [late_task] at c
    simpa using wait
  exact bounded_waiting .plain (S := 5) (by decide) close_late_task (by decide) runnable (by decide)
    (by decide)

end Bounded

/-! ## Tasks that call in every slot -/

section Callers
variable {τ : Type*} [DecidableEq τ] (rb : Rebalance τ) {rq : CfsRq ℤ τ} {a b : τ}
  {group rest : List τ}

/-- A slot in which the task that runs calls `set_inactive` twice at the end, and executes nothing between
the second call and its preemption. -/
def slot (d : ℕ) : List (Event ℤ τ) := [.pick, .execute d, .set_inactive, .set_inactive, .preempt 0]

/-- A group of active tasks stands at `min_vruntime`, ahead of all others. -/
structure Ahead (group rest : List τ) (rq : CfsRq ℤ τ) : Prop where
  ordered : Ordered rq
  idle : rq.curr = none
  waiting : rq.waiting = group ++ rest
  level : ∀ t ∈ group, rq.vruntime t = rq.min_vruntime
  active : ∀ t ∈ group, rq.inactive t = false
  behind : ∀ t ∈ rest, rq.min_vruntime < rq.vruntime t

/-- `a` runs at the time `v` while the others wait, since it was picked in the state `rq`. -/
structure Serving (rq : CfsRq ℤ τ) (a : τ) (others : List τ) (v : ℤ) (flag : Bool) (q : CfsRq ℤ τ) :
    Prop where
  curr : q.curr = some a
  waiting : q.waiting = others
  least : q.min_vruntime = rq.min_vruntime
  time : q.vruntime a = v
  inactive : q.inactive a = flag
  frame : ∀ t ≠ a, q.vruntime t = rq.vruntime t ∧ q.inactive t = rq.inactive t

/-- The first of the group is picked. -/
lemma Ahead.pick (ahead : Ahead (a :: group) rest rq) :
    Serving rq a (group ++ rest) rq.min_vruntime false (pick_next_entity rb rq) := by
  have left : rq.leftmost = some a := by simp [CfsRq.leftmost, ahead.waiting]
  obtain ⟨pick, e⟩ := waiting_pick rb ahead.idle left
  have level := ahead.level a (by simp)
  have active := ahead.active a (by simp)
  rw [ahead.waiting] at e
  refine ⟨by rw [pick], List.tail_eq_of_cons_eq e, ?_, ?_, ?_, fun t _ => ?_⟩
  all_goals rw [pick]
  · rfl
  · exact level
  · exact active
  · exact ⟨rfl, rfl⟩

/-- As long as another task of the group waits, `min_vruntime` stands still. -/
lemma Serving.execute {q : CfsRq ℤ τ} {others : List τ} {v : ℤ} {flag : Bool} (d : ℕ)
    (srv : Serving rq a (b :: others) v flag q) (ne : b ≠ a) (level : rq.vruntime b = rq.min_vruntime)
    (le : rq.min_vruntime ≤ v) :
    Serving rq a (b :: others) (v + d) flag (update_curr .unbounded q d) := by
  have left : q.leftmost = some b := by simp [CfsRq.leftmost, srv.waiting]
  have time := srv.time
  have least := srv.least
  have other := (srv.frame b ne).1
  refine ⟨by simpa using srv.curr, by simpa using srv.waiting, ?_, ?_, by simpa using srv.inactive,
    fun t h => ?_⟩
  · rw [update_curr_some _ q d srv.curr]
    simp only [least_vruntime, left, Vruntime.max_vruntime_unbounded, Vruntime.min_vruntime_unbounded]
    omega
  · rw [update_curr_some _ q d srv.curr]
    simp [time]
  · have out : q.curr ≠ some t := fun c => h (Option.some.inj (c.symm.trans srv.curr))
    rw [vruntime_update_curr _ q d out, inactive_update_curr]
    exact srv.frame t h

/-- The call toggles the flag, and with it resets the time. -/
lemma Serving.call {q : CfsRq ℤ τ} {others : List τ} {v : ℤ} {flag : Bool}
    (srv : Serving rq a others v flag q) :
    Serving rq a others (if flag then rq.min_vruntime else v) (!flag) (set_inactive q) := by
  refine ⟨by simpa using srv.curr, by simpa using srv.waiting, by simpa using srv.least, ?_, ?_,
    fun t h => ?_⟩
  · rw [vruntime_set_inactive_self q srv.curr, srv.inactive, srv.time, srv.least]
  · rw [inactive_set_inactive q srv.curr, srv.inactive]
  · have out : q.curr ≠ some t := fun c => h (Option.some.inj (c.symm.trans srv.curr))
    rw [vruntime_set_inactive q out, inactive_set_inactive_of_ne q out]
    exact srv.frame t h

/-- A task is entered between those with no greater time and those with a greater one. -/
lemma waiting_enqueue_between {q : CfsRq ℤ τ} {A B : List τ} (waiting : q.waiting = A ++ B)
    (before : ∀ t ∈ A, q.vruntime t ≤ q.vruntime a) (after : ∀ t ∈ B, q.vruntime a < q.vruntime t) :
    (__enqueue_entity .unbounded rb q a).waiting = A ++ a :: B := by
  rw [CfsRq.waiting, __enqueue_entity, rb.inorder_insertColor]
  refine Tree.inorder_link waiting (fun t h => ?_) fun t h => ?_
  · simpa using before t h
  · simpa using after t h

/-- An active task at `min_vruntime` is put back behind its group and before all others. -/
lemma Serving.preempt {q : CfsRq ℤ τ} (ahead : Ahead (a :: b :: group) rest rq) (ord : Ordered q)
    (srv : Serving rq a (b :: group ++ rest) rq.min_vruntime false q) :
    Ahead (b :: group ++ [a]) rest (put_prev_entity .unbounded rb q 0) ∧
      (put_prev_entity .unbounded rb q 0).vruntime = rq.vruntime := by
  have nodup := ahead.ordered.nodup
  rw [ahead.waiting] at nodup
  have others : ∀ t ∈ b :: group ++ rest, t ≠ a := fun t h e => (List.nodup_cons.mp nodup).1 (e ▸ h)
  have acc := srv.execute 0 (others b (by simp)) (ahead.level b (by simp)) le_rfl
  have put : put_prev_entity .unbounded rb q 0 =
      { __enqueue_entity .unbounded rb (update_curr .unbounded q 0) a with curr := none } := by
    rw [put_prev_entity_some _ rb q 0 srv.curr, inflate, acc.inactive]
    rfl
  have times : (update_curr .unbounded q 0).vruntime = rq.vruntime := by
    funext t
    by_cases e : t = a
    · subst e
      rw [acc.time, ahead.level t (by simp), Nat.cast_zero, add_zero]
    · exact (acc.frame t e).1
  have level := ahead.level a (by simp)
  have waiting : (__enqueue_entity .unbounded rb (update_curr .unbounded q 0) a).waiting =
      b :: group ++ a :: rest := by
    refine waiting_enqueue_between rb acc.waiting (fun t h => ?_) fun t h => ?_
    · rw [times, level, ahead.level t (List.mem_cons_of_mem a h)]
    · rw [times, level]
      exact ahead.behind t h
  have members : ∀ t ∈ b :: group ++ [a], t ∈ a :: b :: group := by
    intro t h
    simpa [or_comm, or_left_comm] using h
  have least : (put_prev_entity .unbounded rb q 0).min_vruntime = rq.min_vruntime := by
    rw [put]
    exact acc.least
  have same : (put_prev_entity .unbounded rb q 0).vruntime = rq.vruntime := by
    rw [put]
    exact times
  refine ⟨⟨ord.put_prev_entity rb 0, curr_put_prev_entity _ rb q 0, ?_, fun t h => ?_, fun t h => ?_,
    fun t h => ?_⟩, same⟩
  · rw [put, List.append_assoc]
    exact waiting
  · rw [same, least]
    exact ahead.level t (members t h)
  · rw [put]
    by_cases e : t = a
    · subst e
      exact acc.inactive
    · exact (acc.frame t e).2.trans (ahead.active t (members t h))
  · rw [same, least]
    exact ahead.behind t h

omit [DecidableEq τ] in
/-- A task that executes when it stands no further than its group is admitted. -/
lemma Serving.admits {q : CfsRq ℤ τ} {others : List τ} {flag : Bool} {S d : ℕ}
    (srv : Serving rq a (b :: others) rq.min_vruntime flag q) (ne : b ≠ a)
    (level : rq.vruntime b = rq.min_vruntime) (le : d ≤ S) :
    ∀ c ∈ q.curr, ∀ left ∈ q.leftmost, q.vruntime c + d ≤ q.vruntime left + S := by
  intro c hc left hl
  rw [srv.curr] at hc
  rw [CfsRq.leftmost, srv.waiting] at hl
  obtain rfl : a = c := Option.some.inj hc
  obtain rfl : b = left := Option.some.inj hl
  rw [srv.time, (srv.frame b ne).1, level]
  omega

/-- A slot of the group: the others wait in every state of it, the processor is busy for `d`, and the
task that runs keeps to `S`. -/
structure Served (S d : ℕ) (rest : List τ) (rq : CfsRq ℤ τ) : Prop where
  wait : Throughout (cfs_step .unbounded rb) (fun q => ∀ t ∈ rest, t ∈ q.waiting) rq (slot d)
  times : (trace (cfs_step .unbounded rb) busy rq (slot d)).sum = d
  admitted : Always (cfs_step .unbounded rb) (fun q e => admits S q e ∧ accounted S q e) rq (slot d)

/-- In a slot the first of the group executes, and stands behind its group afterwards as if it had not. -/
lemma Ahead.slot {S d : ℕ} (ahead : Ahead (a :: b :: group) rest rq) (le : d ≤ S) :
    Served rb S d rest rq ∧ Ahead (b :: group ++ [a]) rest (run (cfs_step .unbounded rb) rq (slot d)) := by
  have ne : b ≠ a := by
    have nodup := ahead.ordered.nodup
    rw [ahead.waiting] at nodup
    rintro rfl
    exact (List.nodup_cons.mp nodup).1 (by simp)
  have level := ahead.level b (by simp)
  have picked := ahead.pick rb
  have executed := picked.execute d ne level le_rfl
  have inactive := executed.call
  have active := inactive.call
  have ord := ((ahead.ordered.pick rb).update_curr d).set_inactive.set_inactive
  have put := (active.preempt rb ahead ord).1
  have waits {q : CfsRq ℤ τ} {v : ℤ} {flag : Bool} (srv : Serving rq a (b :: group ++ rest) v flag q) :
      ∀ t ∈ rest, t ∈ q.waiting := fun t h => srv.waiting ▸ List.mem_append_right _ h
  refine ⟨⟨throughout_iff.mpr ⟨?_, ?_⟩, ?_, ?_⟩, put⟩
  · exact fun t h => ahead.waiting ▸ List.mem_append_right _ h
  · exact ⟨waits picked, waits executed, waits inactive, waits active,
      fun t h => put.waiting ▸ List.mem_append_right _ h, trivial⟩
  · simp [Sched.slot, trace, busy, cfs_step, picked.curr]
  · refine always_and.mpr ⟨?_, trivial, fun _ => le, trivial, trivial, fun _ => Nat.zero_le S, trivial⟩
    exact ⟨trivial, picked.admits ne level le, trivial, trivial, active.admits ne level (Nat.zero_le S),
      trivial⟩

/-- With unbounded times a group of two tasks or more runs slot by slot while all other tasks wait. -/
lemma Ahead.slots {S : ℕ} (ahead : Ahead group rest rq) (two : 2 ≤ group.length) {ds : List ℕ}
    (le : ∀ d ∈ ds, d ≤ S) :
    Throughout (cfs_step .unbounded rb) (fun q => ∀ t ∈ rest, t ∈ q.waiting) rq (ds.flatMap Sched.slot) ∧
      (trace (cfs_step .unbounded rb) busy rq (ds.flatMap Sched.slot)).sum = ds.sum ∧
      Always (cfs_step .unbounded rb) (fun q e => admits S q e ∧ accounted S q e) rq
        (ds.flatMap Sched.slot) := by
  induction ds generalizing rq group with
  | nil => exact ⟨throughout_iff.mpr ⟨fun t h => ahead.waiting ▸ List.mem_append_right _ h, trivial⟩,
      rfl, trivial⟩
  | cons d ds ih =>
    obtain _ | ⟨a, _ | ⟨b, group⟩⟩ := group
    · simp at two
    · simp at two
    · obtain ⟨le, les⟩ := List.forall_mem_cons.mp le
      obtain ⟨served, next⟩ := ahead.slot rb le
      obtain ⟨wait, times, adm⟩ := ih next (by simp) les
      rw [List.flatMap_cons, trace_append, List.sum_append, List.sum_cons, served.times, times]
      exact ⟨throughout_append.mpr ⟨served.wait, wait⟩, rfl, always_append.mpr ⟨served.admitted, adm⟩⟩

omit [DecidableEq τ] in
/-- In both queues a step keeps the processor busy for the same time. -/
lemma busy_wrap (rq : CfsRq ℤ τ) (e : Event ℤ τ) : busy rq.wrap e.wrap = busy rq e := by
  cases e with
  | _ => rfl

/-- In the kernel's queue a group of two tasks or more whose members call `set_inactive` twice at the end of
every slot runs for as long as it likes, in slots of any length, while all other tasks wait. -/
theorem callers_starve {S : ℕ} (small : S < 2 ^ 62) (close : Close S rq) (ahead : Ahead group rest rq)
    (two : 2 ≤ group.length) {ds : List ℕ} (le : ∀ d ∈ ds, d ≤ S) :
    Throughout (u64_step rb) (fun q => ∀ t ∈ rest, t ∈ q.waiting) rq.wrap (ds.flatMap slot) ∧
      (trace (u64_step rb) (fun q e => busy q e.wrap) rq.wrap (ds.flatMap slot)).sum = ds.sum ∧
      Always (cfs_step .unbounded rb) (fun q e => admits S q e ∧ accounted S q e) rq
        (ds.flatMap slot) := by
  obtain ⟨wait, times, adm⟩ := ahead.slots rb two le
  have wrapped := wrap_refines (S := S) rb small
  refine ⟨?_, ?_, adm⟩
  · rintro g ⟨later, e⟩
    rw [← e] at adm
    rw [(run_refines wrapped ⟨rfl, close⟩ (always_append.mp adm).1).1]
    exact wait g ⟨later, e⟩
  · rw [← times]
    refine congrArg List.sum (trace_refines (R := fun u q => u = q.wrap ∧ Close S q) ?_ ⟨rfl, close⟩ adm)
    rintro u q e adm ⟨rfl, close⟩
    exact ⟨busy_wrap q e, wrapped _ q e adm ⟨rfl, close⟩⟩

/-- The tasks 0 and 1 have three slots between them, and the task 2 none. -/
theorem callers_starve_late_task :
    Throughout (u64_step .plain) (fun q => ∀ t ∈ [2], t ∈ q.waiting) late_task.wrap
        ([7, 5, 6].flatMap slot) ∧
      (trace (u64_step .plain) (fun q e => busy q e.wrap) late_task.wrap ([7, 5, 6].flatMap slot)).sum =
        [7, 5, 6].sum ∧
      Always (cfs_step .unbounded .plain) (fun q e => admits 7 q e ∧ accounted 7 q e) late_task
        ([7, 5, 6].flatMap slot) := by
  have close : Close 7 late_task := close_late_task
  have ahead : Ahead [0, 1] [2] late_task := ⟨close.ordered, rfl, rfl, by decide, by decide, by decide⟩
  exact callers_starve .plain (by decide) close ahead le_rfl (by decide)

end Callers

end CS519.Sched
