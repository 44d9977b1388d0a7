import CS519.Sched.Hierarchy

/-!
# Reactivation in a hierarchy of queues

The reactivating call of `set_inactive` undoes the penalty by placing its caller at a `min_vruntime`. It
reads the one of `rq->cfs`, the queue of the root, whichever group the caller belongs to, while the caller
is ordered on the queue of its group. The two advance independently.

`always_lands_iff` says in which runs every reactivated task lands at the time of its own queue: those in
which the two times agree at every reactivating call. For a task of the root they are one.
-/

namespace CS519.Sched
open Function

section Functions
variable {τ γ : Type*} [DecidableEq τ] [DecidableEq γ] (rb : Rebalance (Entity τ γ))

/-- The system call, made by the task that runs on the queue of the group `g`. -/
def set_inactive_in (s : Hierarchy τ γ) (g : TaskGroup γ) : Hierarchy τ γ :=
  match (s g).curr with
  | some (.task task) =>
    if !(s g).inactive (.task task) then
      update s g { s g with inactive := update (s g).inactive (.task task) true }
    else
      -- `rq->cfs` is the queue of the root
      update s g { s g with
        vruntime := update (s g).vruntime (.task task) (s []).min_vruntime
        inactive := update (s g).inactive (.task task) false }
  | _ => s

/-- An event on the queue of a group. The call of `set_inactive` reaches for the root besides. -/
def hierarchy_step (s : Hierarchy τ γ) :
    TaskGroup γ × Event (BitVec 64) (Entity τ γ) → Hierarchy τ γ
  | (g, .set_inactive) => set_inactive_in s g
  | (g, e) => update s g { s g with toCfsRq := cfs_step .u64 rb (s g).toCfsRq e }

/-- The task `t` of `g` left its penalty behind: it is active at the `min_vruntime` of its queue, ordered
neither ahead of that nor behind an entity that is not, and a put adds to its time what it has executed
and nothing else. -/
structure Reactivated (s s' : Hierarchy τ γ) (g : TaskGroup γ) (t : τ) : Prop where
  active : (s' g).inactive (.task t) = false
  vruntime : (s' g).vruntime (.task t) = (s g).min_vruntime
  queue : (s' g).min_vruntime = (s g).min_vruntime
  ahead : Vruntime.u64.entity_before ((s' g).vruntime (.task t)) (s' g).min_vruntime = false
  behind : ∀ x, Vruntime.u64.entity_before ((s' g).vruntime x) (s' g).min_vruntime = false →
    Vruntime.u64.entity_before ((s' g).vruntime x) ((s' g).vruntime (.task t)) = false
  put : ∀ d, Patch.cooperative.put_prev_entity rb (s' g) d = plain_put_prev_entity rb (s' g) d ∧
    (Patch.cooperative.put_prev_entity rb (s' g) d).vruntime (.task t) =
      Vruntime.u64.add (s g).min_vruntime d

/-- A reactivating call of `set_inactive`: the task that runs on the queue of the group makes it, while it
is inactive. -/
def Reactivates (s : Hierarchy τ γ) (g : TaskGroup γ) (e : Event (BitVec 64) (Entity τ γ)) (t : τ) :
    Prop :=
  e = .set_inactive ∧ (s g).curr = some (.task t) ∧ (s g).inactive (.task t) = true

/-- A reactivating call lands at the time of the caller's queue. -/
def Lands (s : Hierarchy τ γ) (i : TaskGroup γ × Event (BitVec 64) (Entity τ γ)) : Prop :=
  ∀ t, Reactivates s i.1 i.2 t → Reactivated rb s (hierarchy_step rb s i) i.1 t

/-- The queue of a reactivated task is as far as that of the root. -/
def LevelWithRoot (s : Hierarchy τ γ) (i : TaskGroup γ × Event (BitVec 64) (Entity τ γ)) : Prop :=
  ∀ t, Reactivates s i.1 i.2 t → (s i.1).min_vruntime = (s []).min_vruntime

end Functions

section Lemmas
variable {τ γ : Type*} [DecidableEq τ] [DecidableEq γ] (rb : Rebalance (Entity τ γ))
  {s : Hierarchy τ γ} {g : TaskGroup γ} {t : τ}

/-- On the queue of the root the call is the one of a single queue. -/
lemma set_inactive_in_root (run : (s []).curr = some (.task t)) :
    set_inactive_in s [] = update s [] { s [] with toCfsRq := set_inactive (s []).toCfsRq } := by
  cases c : (s []).inactive (.task t) <;> simp [set_inactive_in, set_inactive, run, c]

/-- The queue of the caller after a reactivating call. -/
lemma set_inactive_in_apply (run : (s g).curr = some (.task t))
    (inactive : (s g).inactive (.task t) = true) :
    set_inactive_in s g g = { s g with
      vruntime := update (s g).vruntime (.task t) (s []).min_vruntime
      inactive := update (s g).inactive (.task t) false } := by
  simp [set_inactive_in, run, inactive]

/-- A put of an active entity is the kernel's. -/
lemma put_prev_entity_active {ε : Type*} [DecidableEq ε] (rb : Rebalance ε) {rq : TunableRq ε}
    {e : ε} (run : rq.curr = some e) (active : rq.inactive e = false) (d : ℕ) :
    Patch.cooperative.put_prev_entity rb rq d = plain_put_prev_entity rb rq d := by
  simp only [Patch.put_prev_entity, plain_put_prev_entity, put_prev_entity_eq, put_prev_entity_by,
    run, inflate_by, inactive_update_curr, active, Bool.false_eq_true, if_false]

/-- The time of the running entity after a put of the kernel. -/
lemma vruntime_plain_put {ε : Type*} [DecidableEq ε] (rb : Rebalance ε) {rq : TunableRq ε} {e : ε}
    (run : rq.curr = some e) (d : ℕ) :
    (plain_put_prev_entity rb rq d).vruntime e = Vruntime.u64.add (rq.vruntime e) d := by
  rw [plain_put_prev_entity, vruntime_put_prev_entity_by, ite_self, update_curr_some .u64 _ d run]
  exact update_self _ _ _

/-- A reactivating call lands at the time of the caller's queue exactly if that is the root's time. -/
lemma reactivated_iff (run : (s g).curr = some (.task t))
    (inactive : (s g).inactive (.task t) = true) :
    Reactivated rb s (set_inactive_in s g) g t ↔ (s g).min_vruntime = (s []).min_vruntime := by
  have after := set_inactive_in_apply run inactive
  have active : (set_inactive_in s g g).inactive (.task t) = false := by simp [after]
  have placed : (set_inactive_in s g g).vruntime (.task t) = (s []).min_vruntime := by simp [after]
  have queue : (set_inactive_in s g g).min_vruntime = (s g).min_vruntime := by simp [after]
  have run' : (set_inactive_in s g g).curr = some (.task t) := by simp [after, run]
  constructor
  · intro reactivated
    exact reactivated.vruntime.symm.trans placed
  · intro level
    have own : (set_inactive_in s g g).vruntime (.task t) = (s g).min_vruntime :=
      placed.trans level.symm
    refine ⟨active, own, queue, ?_, fun x ahead => ?_, fun d => ?_⟩
    · rw [own, queue]
      simp [Vruntime.entity_before]
    · rw [own, ← queue]
      exact ahead
    · have plain := put_prev_entity_active rb run' active d
      refine ⟨plain, ?_⟩
      rw [plain, vruntime_plain_put rb run', own]

end Lemmas

section Runs
variable {τ γ : Type*} [DecidableEq τ] [DecidableEq γ] (rb : Rebalance (Entity τ γ))

/-- One event lands exactly if the queues are level. -/
lemma lands_iff (s : Hierarchy τ γ) (i : TaskGroup γ × Event (BitVec 64) (Entity τ γ)) :
    Lands rb s i ↔ LevelWithRoot s i := by
  obtain ⟨g, e⟩ := i
  refine forall_congr' fun t => ?_
  constructor
  · rintro lands ⟨rfl, run, inactive⟩
    exact (reactivated_iff rb run inactive).mp (lands ⟨rfl, run, inactive⟩)
  · rintro level ⟨rfl, run, inactive⟩
    exact (reactivated_iff rb run inactive).mpr (level ⟨rfl, run, inactive⟩)

/-- In a run every reactivated task lands at the time of its queue exactly if at every reactivating call
the queue is level with that of the root. -/
theorem always_lands_iff (s : Hierarchy τ γ)
    (h : List (TaskGroup γ × Event (BitVec 64) (Entity τ γ))) :
    Always (hierarchy_step rb) (Lands rb) s h ↔ Always (hierarchy_step rb) LevelWithRoot s h := by
  have step : ∀ (s : Hierarchy τ γ) i, True → (Lands rb s i ↔ LevelWithRoot s i) :=
    fun s i _ => lands_iff rb s i
  exact always_congr (fun _ _ _ => trivial) step trivial h

/-- A task of the root lands at the time of its queue. -/
lemma lands_root (s : Hierarchy τ γ) (e : Event (BitVec 64) (Entity τ γ)) : Lands rb s ([], e) :=
  (lands_iff rb s ([], e)).mpr fun _ _ => rfl

end Runs

/-- The task of a group executes for 3, its group is charged with 5, and the task calls `set_inactive`
twice: it is placed at 5 on a queue that has come to 3. -/
theorem not_lands :
    ¬Always (hierarchy_step .plain) (Lands .plain) one_group
      [([0], .execute 3), ([], .execute 5), ([0], .set_inactive), ([0], .set_inactive)] := by
  rintro ⟨_, _, _, lands, _⟩
  have level := (lands_iff .plain _ _).mp lands 0 ⟨rfl, by decide, by decide⟩
  exact absurd level (by decide)

end CS519.Sched
