import CS519.Sched.Tunable

/-!
# Task groups

With task groups a queue holds entities, of tasks and of other groups, and every group has a queue of its
own. When a task is descheduled the kernel walks from the queue of its group up to the root's and calls
`put_prev_entity` on each of them, for the entity that runs there. Both patches ask in every one of these
calls whether `task_of(prev)` is inactive. The entity of a group lies in no task, so what they read there is
whatever the memory holds.

`tasks_only_iff` says when a walk stays clear of that: no ancestor group of the task is runnable. On a flat
queue there is none.
-/

namespace CS519.Sched
open Function

/-- A task group is named by its path, the innermost name first. The root has the empty path. -/
abbrev TaskGroup (γ : Type*) := List γ

/-- What a queue schedules. -/
inductive Entity (τ γ : Type*) where
  | task (t : τ)
  | group (g : TaskGroup γ)
  deriving DecidableEq

/-- The task that an entity is embedded in. -/
def Entity.task_of {τ γ : Type*} : Entity τ γ → Option τ
  | .task t => some t
  | .group _ => none

/-- The queue of every group. The entity of the group `n :: p` is scheduled on the queue of `p`. Its
fields `inactive` and `inactive_penalty` stand for the memory that `task_of` leads to. -/
abbrev Hierarchy (τ γ : Type*) := TaskGroup γ → TunableRq (Entity τ γ)

/-- The two patches. -/
inductive Patch where
  | cooperative
  | tunable

namespace Patch
variable {τ : Type*} (p : Patch)

/-- `put_prev_entity` as it is patched. -/
def put_prev_entity [DecidableEq τ] (rb : Rebalance τ) (rq : TunableRq τ) (delta_exec : ℕ) : TunableRq τ :=
  match p with
  | cooperative => { rq with toCfsRq := Sched.put_prev_entity .u64 rb rq.toCfsRq delta_exec }
  | tunable => Tunable.put_prev_entity rb rq delta_exec

/-- The time of an inactive entity with its penalty. -/
def penalise (rq : TunableRq τ) (prev : τ) (vruntime : BitVec 64) : BitVec 64 :=
  match p with
  | cooperative => vruntime + .ofNat 64 INACTIVE_PENALTY_NS
  | tunable => vruntime + rq.inactive_penalty prev

end Patch

/-- `put_prev_entity` as it is without the patches. -/
def plain_put_prev_entity {τ : Type*} [DecidableEq τ] (rb : Rebalance τ) (rq : TunableRq τ)
    (delta_exec : ℕ) : TunableRq τ :=
  { rq with toCfsRq := put_prev_entity_by .u64 rb (fun _ vruntime => vruntime) rq.toCfsRq delta_exec }

section Walk
variable {τ γ : Type*} [DecidableEq γ] (put : TunableRq (Entity τ γ) → ℕ → TunableRq (Entity τ γ))
  (delta_exec : TaskGroup γ → ℕ) (s : Hierarchy τ γ) (g : TaskGroup γ)

/-- One level of the walk. -/
def put_prev_level (s : Hierarchy τ γ) (q : TaskGroup γ) : Hierarchy τ γ :=
  update s q (put (s q) (delta_exec q))

/-- Deschedule a task of the group `g`: from its queue up to that of the root. -/
def put_prev_task_fair : Hierarchy τ γ := run (put_prev_level put delta_exec) s g.tails

/-- The entities that `task_of` is evaluated on, those that are still runnable. -/
def task_of_log : List (Entity τ γ) :=
  trace (put_prev_level put delta_exec) (fun s q => (s q).curr) s g.tails

end Walk

section Levels
variable {τ γ : Type*} [DecidableEq γ] (put : TunableRq (Entity τ γ) → ℕ → TunableRq (Entity τ γ))
  (delta_exec : TaskGroup γ → ℕ) (s : Hierarchy τ γ) {g : TaskGroup γ}

omit [DecidableEq γ] in
/-- The walk visits a queue once. -/
lemma nodup_tails : ∀ g : TaskGroup γ, g.tails.Nodup
  | [] => List.nodup_singleton _
  | n :: p => by
    refine List.nodup_cons.mpr ⟨fun mem => ?_, nodup_tails p⟩
    have := ((List.mem_tails _ _).mp mem).length_le
    rw [List.length_cons] at this
    omega

/-- The queues on the way are put once, and the others stay. -/
lemma put_prev_task_fair_apply (q : TaskGroup γ) :
    put_prev_task_fair put delta_exec s g q =
      if q <:+ g then put (s q) (delta_exec q) else s q := by
  have at_q := run_update (fun q rq => put rq (delta_exec q)) s (nodup_tails g) q
  simp only [List.mem_tails] at at_q
  exact at_q

/-- The entities that are put back as tasks are the running ones on the way up. -/
lemma mem_task_of_log {e : Entity τ γ} :
    e ∈ task_of_log put delta_exec s g ↔ ∃ q, q <:+ g ∧ (s q).curr = some e := by
  have log := trace_update (fun q rq => put rq (delta_exec q)) (fun _ rq => rq.curr) s (nodup_tails g)
  have logged : task_of_log put delta_exec s g = g.tails.filterMap fun q => (s q).curr := log
  simp [logged, List.mem_filterMap]

end Levels

section Patched
variable {τ γ : Type*} [DecidableEq τ] [DecidableEq γ] (p : Patch) (rb : Rebalance (Entity τ γ))
  (delta_exec : TaskGroup γ → ℕ) (s : Hierarchy τ γ) (g : TaskGroup γ) (t : τ)

/-- What a patch adds to a put of the kernel. -/
lemma vruntime_put_prev_entity_patch {ε : Type*} [DecidableEq ε] (rb : Rebalance ε) (rq : TunableRq ε)
    (d : ℕ) (e : ε) :
    (p.put_prev_entity rb rq d).vruntime e =
      if rq.curr = some e ∧ rq.inactive e = true then
        p.penalise rq e ((plain_put_prev_entity rb rq d).vruntime e)
      else (plain_put_prev_entity rb rq d).vruntime e := by
  have plain : (plain_put_prev_entity rb rq d).vruntime e =
      (update_curr .u64 rq.toCfsRq d).vruntime e := by
    rw [plain_put_prev_entity, vruntime_put_prev_entity_by, ite_self]
  rw [plain]
  cases p with
  | cooperative =>
    rw [Patch.put_prev_entity, put_prev_entity_eq, vruntime_put_prev_entity_by]
    rfl
  | tunable =>
    rw [Patch.put_prev_entity, Tunable.put_prev_entity, vruntime_put_prev_entity_by]
    rfl

/-- The virtual times after a task of the group `g` was descheduled, without the patches. -/
def plain_times (q : TaskGroup γ) (e : Entity τ γ) : BitVec 64 :=
  (put_prev_task_fair (plain_put_prev_entity rb) delta_exec s g q).vruntime e

/-- The virtual times after a task of the group `g` was descheduled. -/
def patched_times (q : TaskGroup γ) (e : Entity τ γ) : BitVec 64 :=
  (put_prev_task_fair (p.put_prev_entity rb) delta_exec s g q).vruntime e

/-- The patch concerns itself with tasks only: `task_of` is evaluated on entities of tasks, the time of
the descheduled task has its penalty if the task is inactive, and nothing else has one. -/
structure TasksOnly : Prop where
  task_of : ∀ e ∈ task_of_log (p.put_prev_entity rb) delta_exec s g, e.task_of ≠ none
  own : patched_times p rb delta_exec s g g (.task t) =
    if (s g).curr = some (.task t) ∧ (s g).inactive (.task t) = true then
      p.penalise (s g) (.task t) (plain_times rb delta_exec s g g (.task t))
    else plain_times rb delta_exec s g g (.task t)
  others : ∀ q e, (q, e) ≠ (g, .task t) →
    patched_times p rb delta_exec s g q e = plain_times rb delta_exec s g q e

/-- On every queue from that of `g` to the root's runs the entity that leads to the task `t` of `g`,
unless it has left its queue. -/
structure OnPath : Prop where
  task : ∀ e, (s g).curr = some e → e = .task t
  group : ∀ n q, n :: q <:+ g → ∀ e, (s q).curr = some e → e = .group (n :: q)

variable {p rb delta_exec s g t}

/-- The times after a walk, queue by queue. -/
lemma patched_times_eq (q : TaskGroup γ) (e : Entity τ γ) :
    patched_times p rb delta_exec s g q e =
      if q <:+ g ∧ (s q).curr = some e ∧ (s q).inactive e = true then
        p.penalise (s q) e (plain_times rb delta_exec s g q e)
      else plain_times rb delta_exec s g q e := by
  rw [patched_times, plain_times, put_prev_task_fair_apply, put_prev_task_fair_apply]
  by_cases visited : q <:+ g
  · simp only [visited, if_true, true_and]
    exact vruntime_put_prev_entity_patch p rb _ _ _
  · simp [visited]

omit [DecidableEq τ] [DecidableEq γ] in
/-- With no group on its queue, only the descheduled task is left to put. -/
lemma OnPath.only_task (path : OnPath s g t)
    (flat : ∀ n q, n :: q <:+ g → (s q).curr ≠ some (.group (n :: q))) {q : TaskGroup γ} {e : Entity τ γ}
    (visited : q <:+ g) (run : (s q).curr = some e) : q = g ∧ e = .task t := by
  obtain ⟨names, rfl⟩ := visited
  obtain rfl | ⟨names, n, rfl⟩ := List.eq_nil_or_concat' names
  · exact ⟨rfl, path.task e run⟩
  · have above : n :: q <:+ names ++ [n] ++ q := ⟨names, by simp⟩
    rw [path.group n q above e run] at run
    exact absurd run (flat n q above)

/-- The entity of a group on its queue is taken for that of a task. -/
lemma TasksOnly.flat (only : TasksOnly p rb delta_exec s g t) {n : γ} {q : TaskGroup γ}
    (above : n :: q <:+ g) : (s q).curr ≠ some (.group (n :: q)) := by
  intro run
  have logged : .group (n :: q) ∈ task_of_log (p.put_prev_entity rb) delta_exec s g :=
    (mem_task_of_log _ _ _).mpr ⟨q, (List.suffix_cons n q).trans above, run⟩
  exact only.task_of _ logged rfl

/-- A walk concerns tasks only exactly if no ancestor group of the task is on its queue. -/
theorem tasks_only_iff (path : OnPath s g t) :
    TasksOnly p rb delta_exec s g t ↔
      ∀ n q, n :: q <:+ g → (s q).curr ≠ some (.group (n :: q)) := by
  constructor
  · intro only n q above
    exact only.flat above
  · intro flat
    refine ⟨fun e logged => ?_, ?_, fun q e ne => ?_⟩
    · obtain ⟨q, visited, run⟩ := (mem_task_of_log _ _ _).mp logged
      obtain ⟨_, rfl⟩ := path.only_task flat visited run
      exact Option.some_ne_none t
    · rw [patched_times_eq]
      simp
    · rw [patched_times_eq, if_neg]
      rintro ⟨visited, run, _⟩
      obtain ⟨rfl, rfl⟩ := path.only_task flat visited run
      exact ne rfl

end Patched

/-- The task 0 runs in the group 0, and with it the entity of that group. -/
def one_group : Hierarchy ℕ ℕ := fun q =>
  { vruntime := fun _ => 0
    inactive := fun _ => false
    min_vruntime := 0
    curr := if q = [0] then some (.task 0) else if q = [] then some (.group [0]) else none
    tasks_timeline := .nil
    inactive_penalty := fun _ => 0 }

/-- The group lies on the way from its task to the root. -/
lemma onPath_one_group : OnPath one_group [0] 0 := by
  refine ⟨fun e run => (Option.some.inj run).symm, fun n q above e run => ?_⟩
  obtain same | below := List.suffix_cons_iff.mp above
  · obtain ⟨rfl, rfl⟩ := List.cons.inj same
    exact (Option.some.inj run).symm
  · exact absurd (List.suffix_nil.mp below) (List.cons_ne_nil n q)

/-- A task in a group is preempted. -/
theorem tasks_only_iff_one_group :
    TasksOnly .cooperative .plain (fun _ => 5) one_group [0] 0 ↔
      ∀ n q, n :: q <:+ [0] → (one_group q).curr ≠ some (.group (n :: q)) :=
  tasks_only_iff onPath_one_group

/-- A task in a group is preempted: `task_of` is evaluated on the entity of the group. -/
theorem not_tasks_only :
    ¬TasksOnly .cooperative .plain (fun _ => 0) one_group [0] 0 ∧
      ¬TasksOnly .tunable .plain (fun _ => 0) one_group [0] 0 :=
  ⟨fun only => only.flat (List.suffix_refl [0]) rfl,
    fun only => only.flat (List.suffix_refl [0]) rfl⟩

end CS519.Sched
