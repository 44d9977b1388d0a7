import Mathlib.Algebra.Group.Nat.Even
import CS519.Sched.Tunable

/-!
# Forks

A machine with a queue for every processor. The flag `inactive` is a field of the `task_struct`, and `fork`
copies that of the parent and resets the fields it knows of. This one it does not know: a child starts
with the flag of its parent and no call of its own.

The flag of a task and the number of its calls change together, so what a task starts with stays with it
(`inverted_run`). `volunteers_iff` says in which runs a task is inactive exactly after an odd number of its
own calls: those in which no task forks while it is inactive.
-/

namespace CS519.Sched
open Function

/-- The tasks, and the queue of every processor. `calls` counts the calls of `set_inactive` that a task
has made since it was created. -/
structure Smp (κ τ ι : Type*) where
  vruntime : τ → κ
  inactive : τ → Bool
  created : τ → Bool
  calls : τ → ℕ
  min_vruntime : ι → κ
  curr : ι → Option τ
  tasks_timeline : ι → Tree τ

/-- The queue of a processor. -/
def Smp.rq {κ τ ι : Type*} (m : Smp κ τ ι) (cpu : ι) : CfsRq κ τ :=
  ⟨m.vruntime, m.inactive, m.min_vruntime cpu, m.curr cpu, m.tasks_timeline cpu⟩

/-- What can happen on a processor: an event of its queue, or a fork by the task that runs. -/
inductive SmpEvent (κ τ ι : Type*) where
  | sched (cpu : ι) (e : Event κ τ)
  | fork (cpu : ι) (child : τ) (vruntime : κ)

section Functions
variable {κ τ ι : Type*} [DecidableEq τ] [DecidableEq ι] (V : Vruntime κ) (rb : Rebalance τ)
  (m : Smp κ τ ι)

/-- The task that an event makes call `set_inactive`. -/
def caller (rq : CfsRq κ τ) : Event κ τ → Option τ
  | .set_inactive => rq.curr
  | _ => none

/-- An event of the queue of a processor. -/
def sched_step (cpu : ι) (e : Event κ τ) : Smp κ τ ι :=
  let rq := cfs_step V rb (m.rq cpu) e
  { m with
    vruntime := rq.vruntime
    inactive := rq.inactive
    calls := fun t => if caller (m.rq cpu) e = some t then m.calls t + 1 else m.calls t
    min_vruntime := update m.min_vruntime cpu rq.min_vruntime
    curr := update m.curr cpu rq.curr
    tasks_timeline := update m.tasks_timeline cpu rq.tasks_timeline }

omit [DecidableEq ι] in
/-- The child is a copy of its parent but for the time that the scheduler gives it. Its `task_struct` is
a new one, and it arrives on a run queue by an event of its own. -/
def copy_process (cpu : ι) (child : τ) (vruntime : κ) : Smp κ τ ι :=
  match m.curr cpu with
  | none => m
  | some parent =>
    if m.created child then m
    else { m with
      vruntime := update m.vruntime child vruntime
      inactive := update m.inactive child (m.inactive parent)
      created := update m.created child true
      calls := update m.calls child 0 }

def smp_step : SmpEvent κ τ ι → Smp κ τ ι
  | .sched cpu e => sched_step V rb m cpu e
  | .fork cpu child vruntime => copy_process m cpu child vruntime

end Functions

section Parity
variable {κ τ ι : Type*} [DecidableEq τ] [DecidableEq ι] (V : Vruntime κ) (rb : Rebalance τ)
  {m : Smp κ τ ι}

/-- Only volunteers are penalised: a task is inactive iff it has called `set_inactive` an odd number of
times. -/
def Volunteers (m : Smp κ τ ι) : Prop :=
  ∀ t, m.created t = true → (m.inactive t = true ↔ Odd (m.calls t))

/-- The flag of a task disagrees with its calls. -/
def Smp.inverted (m : Smp κ τ ι) (t : τ) : Bool := m.inactive t ^^ decide (Odd (m.calls t))

/-- A fork of a new task comes from an active one. -/
def ActiveFork (m : Smp κ τ ι) : SmpEvent κ τ ι → Prop
  | .sched _ _ => True
  | .fork cpu child _ =>
    ∀ parent, m.curr cpu = some parent → m.created child = false → m.inactive parent = false

omit [DecidableEq τ] [DecidableEq ι] in
/-- All processors see the same flags. -/
@[simp] lemma inactive_rq (cpu : ι) : (m.rq cpu).inactive = m.inactive := rfl

omit [DecidableEq τ] [DecidableEq ι] in
/-- Only volunteers are inactive exactly if no flag is inverted. -/
lemma volunteers_iff_inverted : Volunteers m ↔ ∀ t, m.created t = true → m.inverted t = false := by
  refine forall₂_congr fun t _ => ?_
  rw [Smp.inverted]
  by_cases odd : Odd (m.calls t) <;> simp [odd]

/-- Nothing but the system call changes the flag, and that toggles the one of its caller. -/
lemma inactive_cfs_step (rq : CfsRq κ τ) (e : Event κ τ) (t : τ) :
    (cfs_step V rb rq e).inactive t =
      if caller rq e = some t then !rq.inactive t else rq.inactive t := by
  cases e with
  | pick =>
    simp only [cfs_step, caller, pick_next_entity]
    split <;> rfl
  | execute d => simp [cfs_step, caller]
  | preempt d =>
    rw [cfs_step, put_prev_entity_eq, inactive_put_prev_entity_by]
    rfl
  | set_inactive =>
    rw [cfs_step, caller]
    by_cases run : rq.curr = some t
    · rw [if_pos run, inactive_set_inactive rq run]
    · rw [if_neg run, inactive_set_inactive_of_ne rq run]
  | leave x =>
    simp only [cfs_step, caller, dequeue_entity]
    split <;> rfl
  | arrive x v =>
    simp only [cfs_step, caller, enqueue_entity]
    split <;> rfl

/-- The events of a queue change the flag of a task and the parity of its calls together. -/
lemma inverted_sched (cpu : ι) (e : Event κ τ) (t : τ) :
    (sched_step V rb m cpu e).inverted t = m.inverted t := by
  simp only [Smp.inverted, sched_step, inactive_cfs_step, inactive_rq]
  by_cases calls : caller (m.rq cpu) e = some t
  · simp [calls, Nat.odd_add_one, -Nat.not_odd_iff_even]
  · simp [calls]

omit [DecidableEq ι] in
/-- A child that is created disagrees exactly if its parent is inactive. -/
lemma inverted_child {cpu : ι} {parent child : τ} (run : m.curr cpu = some parent)
    (fresh : m.created child = false) (v : κ) :
    (copy_process m cpu child v).inverted child = m.inactive parent := by
  simp [Smp.inverted, copy_process, run, fresh]

/-- What a task was created with stays with it. -/
lemma inverted_step {t : τ} (created : m.created t = true) (e : SmpEvent κ τ ι) :
    (smp_step V rb m e).created t = true ∧ (smp_step V rb m e).inverted t = m.inverted t := by
  cases e with
  | sched cpu e => exact ⟨created, inverted_sched V rb cpu e t⟩
  | fork cpu child v =>
    rw [smp_step, copy_process]
    split
    · exact ⟨created, rfl⟩
    · split
      · exact ⟨created, rfl⟩
      · rename_i fresh
        have ne : t ≠ child := by
          rintro rfl
          exact fresh created
        simp [Smp.inverted, created, ne]

omit [DecidableEq ι] in
/-- A fork leaves the created tasks and adds at most the child. -/
lemma created_fork {cpu : ι} {child t : τ} {v : κ}
    (created : (copy_process m cpu child v).created t = true) :
    m.created t = true ∨
      t = child ∧ m.created child = false ∧ ∃ parent, m.curr cpu = some parent := by
  rw [copy_process] at created
  split at created
  · exact .inl created
  · rename_i parent run
    split at created
    · exact .inl created
    · rename_i fresh
      by_cases e : t = child
      · exact .inr ⟨e, by simpa using fresh, parent, run⟩
      · left
        simpa [e] using created

/-- A step keeps the flags in agreement exactly if it is no fork by an inactive task. -/
lemma volunteers_step (vol : Volunteers m) (e : SmpEvent κ τ ι) :
    Volunteers (smp_step V rb m e) ↔ ActiveFork m e := by
  rw [volunteers_iff_inverted] at vol ⊢
  cases e with
  | sched cpu e =>
    refine iff_of_true (fun t created => ?_) trivial
    exact (inverted_sched V rb cpu e t).trans (vol t created)
  | fork cpu child v =>
    constructor
    · intro agree parent run fresh
      rw [← inverted_child run fresh v]
      exact agree child (by simp [smp_step, copy_process, run, fresh])
    · intro active t created
      obtain before | ⟨rfl, fresh, parent, run⟩ := created_fork created
      · rw [(inverted_step V rb before (.fork cpu child v)).2]
        exact vol t before
      · rw [smp_step, inverted_child run fresh]
        exact active parent run fresh

/-- A wrong parity inverts every later call: whether the flag of a task disagrees with its calls does not
change after the task was created. -/
theorem inverted_run {t : τ} (created : m.created t = true) (h : List (SmpEvent κ τ ι)) :
    (run (smp_step V rb) m h).inverted t = m.inverted t := by
  have preserved : ∀ (s : Smp κ τ ι) e, s.created t = true ∧ s.inverted t = m.inverted t →
      (smp_step V rb s e).created t = true ∧ (smp_step V rb s e).inverted t = m.inverted t := by
    rintro s e ⟨created, same⟩
    obtain ⟨created', same'⟩ := inverted_step V rb created e
    exact ⟨created', same'.trans same⟩
  exact (run_invariant preserved ⟨created, rfl⟩ h).2

/-- In agreement, the first call of a task deactivates it and the second one reactivates it. -/
lemma Volunteers.next_call (vol : Volunteers m) {cpu : ι} {t : τ} (created : m.created t = true)
    (run : m.curr cpu = some t) :
    (smp_step V rb m (.sched cpu .set_inactive)).inactive t = decide (Even (m.calls t)) := by
  have calls : caller (m.rq cpu) (.set_inactive : Event κ τ) = some t := run
  have agree := vol t created
  simp only [smp_step, sched_step, inactive_cfs_step, calls, if_true, inactive_rq]
  by_cases even : Even (m.calls t)
  · simpa [even, ← Nat.not_even_iff_odd] using agree
  · simpa [even, ← Nat.not_even_iff_odd] using agree

end Parity

section Start
variable {κ τ ι : Type*} [DecidableEq τ] [DecidableEq ι] (V : Vruntime κ) (rb : Rebalance τ)

/-- No task has called `set_inactive` yet. -/
structure Smp.Booted (m : Smp κ τ ι) : Prop where
  active : ∀ t, m.inactive t = false
  uncalled : ∀ t, m.calls t = 0

/-- In a run from the start only volunteers are penalised exactly if no task forks while it is inactive. -/
theorem volunteers_iff {m : Smp κ τ ι} (boot : m.Booted) (h : List (SmpEvent κ τ ι)) :
    Throughout (smp_step V rb) Volunteers m h ↔ Always (smp_step V rb) ActiveFork m h := by
  have start : Volunteers m := by
    intro t _
    simp [boot.active, boot.uncalled]
  have step : ∀ (s : Smp κ τ ι) e, True → Volunteers s →
      (Volunteers (smp_step V rb s e) ↔ ActiveFork s e) :=
    fun s e _ vol => volunteers_step V rb vol e
  exact throughout_iff_always step start fun _ _ => trivial

/-- The only task runs on the first processor. -/
def lone_task : Smp ℤ ℕ ℕ where
  vruntime := fun _ => 0
  inactive := fun _ => false
  created := fun t => t == 0
  calls := fun _ => 0
  min_vruntime := fun _ => 0
  curr := fun cpu => if cpu = 0 then some 0 else none
  tasks_timeline := fun _ => .nil

end Start

/-- A task forks a child before it marks itself. -/
theorem volunteers_iff_lone_task :
    Throughout (smp_step .unbounded .plain) Volunteers lone_task
        [.fork 0 1 0, .sched 0 .set_inactive] ↔
      Always (smp_step .unbounded .plain) ActiveFork lone_task
        [.fork 0 1 0, .sched 0 .set_inactive] :=
  volunteers_iff .unbounded .plain ⟨fun _ => rfl, fun _ => rfl⟩ _

/-- A task calls `set_inactive` and forks: the child is inactive before its first call, and would become
active by it. -/
theorem not_volunteers :
    ¬Throughout (smp_step .unbounded .plain) Volunteers lone_task
      [.sched 0 .set_inactive, .fork 0 1 0] := by
  intro all
  have child := all _ List.prefix_rfl 1 (by decide)
  exact absurd child (by decide)

end CS519.Sched
