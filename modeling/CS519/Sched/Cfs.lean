import Mathlib.Data.List.Sort
import CS519.Run
import CS519.Tree

/-!
# One CFS queue with cooperative tasks

The run queue of the fair scheduler as far as the patch touches it: the virtual times of the tasks, the
flag `inactive`, the timeline of the tasks that wait, the task that runs. `set_inactive` and the penalty
in `put_prev_entity` are the patch's; `update_curr`, `__enqueue_entity` and the choice of the leftmost
task are the kernel's, as the patch relies on them.

A virtual time is compared through the sign of a difference, as in the kernel. The functions are given
for any such arithmetic, so that the 64-bit queue and the queue with unbounded times are one model at two
types.
-/

namespace CS519.Sched
open Function

/-- How virtual times advance, and how far one lies behind another. -/
structure Vruntime (κ : Type*) where
  add : κ → ℕ → κ
  delta : κ → κ → ℤ

namespace Vruntime
variable {κ : Type*} (V : Vruntime κ)

/-- Virtual times without wrap. -/
abbrev unbounded : Vruntime ℤ := ⟨fun v d => v + d, fun a b => a - b⟩

/-- The kernel's `u64` with differences taken as `s64`. -/
abbrev u64 : Vruntime (BitVec 64) := ⟨fun v d => v + .ofNat 64 d, fun a b => (a - b).toInt⟩

def entity_before (a b : κ) : Bool := V.delta a b < 0

def max_vruntime (max_vruntime vruntime : κ) : κ :=
  if 0 < V.delta vruntime max_vruntime then vruntime else max_vruntime

def min_vruntime (min_vruntime vruntime : κ) : κ :=
  if V.delta vruntime min_vruntime < 0 then vruntime else min_vruntime

/-- Unbounded times are compared as numbers. -/
@[simp] lemma entity_before_unbounded (a b : ℤ) : unbounded.entity_before a b = decide (a < b) := by
  simp [entity_before]

/-- The greater of two unbounded times. -/
@[simp] lemma max_vruntime_unbounded (a b : ℤ) : unbounded.max_vruntime a b = max a b := by
  simp only [max_vruntime]
  omega

/-- The lesser of two unbounded times. -/
@[simp] lemma min_vruntime_unbounded (a b : ℤ) : unbounded.min_vruntime a b = min a b := by
  simp only [min_vruntime]
  omega

end Vruntime

def NSEC_PER_SEC : ℕ := 1000000000

def INACTIVE_PENALTY_NS : ℕ := 10 * NSEC_PER_SEC

/-- The queue with the scheduling fields of its tasks. The running task is not on the timeline. -/
structure CfsRq (κ τ : Type*) where
  vruntime : τ → κ
  inactive : τ → Bool
  min_vruntime : κ
  curr : Option τ
  tasks_timeline : Tree τ

namespace CfsRq
variable {κ τ : Type*} (rq : CfsRq κ τ)

/-- The tasks that wait, in the order of the timeline. -/
abbrev waiting : List τ := rq.tasks_timeline.inorder

/-- The first task of the timeline. -/
def leftmost : Option τ := rq.waiting.head?

/-- The task runs or waits. -/
def on_rq (t : τ) : Prop := rq.curr = some t ∨ t ∈ rq.waiting

end CfsRq

section Functions
variable {κ τ : Type*} [DecidableEq τ] (V : Vruntime κ) (rb : Rebalance τ) (rq : CfsRq κ τ)

/-- The system call, made by the running task. -/
def set_inactive : CfsRq κ τ :=
  match rq.curr with
  | none => rq
  | some task =>
    if !rq.inactive task then
      { rq with inactive := update rq.inactive task true }
    else
      { rq with
        vruntime := update rq.vruntime task rq.min_vruntime
        inactive := update rq.inactive task false }

/-- The lesser of the given time of the running task and the time of the leftmost one. -/
def least_vruntime (curr : κ) : κ :=
  match rq.leftmost with
  | none => curr
  | some left => V.min_vruntime curr (rq.vruntime left)

/-- Account `delta_exec` to the running task and move `min_vruntime` along. -/
def update_curr (delta_exec : ℕ) : CfsRq κ τ :=
  match rq.curr with
  | none => rq
  | some curr =>
    let vruntime := V.add (rq.vruntime curr) delta_exec
    { rq with
      vruntime := update rq.vruntime curr vruntime
      min_vruntime := V.max_vruntime rq.min_vruntime (least_vruntime V rq vruntime) }

-- the kernel's name
set_option linter.style.nameCheck false in
/-- Enter a task into the timeline, behind the tasks with the same time. -/
def __enqueue_entity (t : τ) : CfsRq κ τ :=
  { rq with tasks_timeline :=
      rb.insertColor (· = t) (rq.tasks_timeline.link
        (fun other => V.entity_before (rq.vruntime t) (rq.vruntime other)) t) }

-- the kernel's name
set_option linter.style.nameCheck false in
/-- Take a task out of the timeline. -/
def __dequeue_entity (t : τ) : CfsRq κ τ :=
  { rq with tasks_timeline := rb.erase (· = t) rq.tasks_timeline }

/-- The penalty that the patch adds to the time of an inactive task. -/
def inflate (prev : τ) : CfsRq κ τ :=
  if rq.inactive prev then
    { rq with vruntime := update rq.vruntime prev (V.add (rq.vruntime prev) INACTIVE_PENALTY_NS) }
  else rq

/-- Put the running task back into the timeline. -/
def put_prev_entity (delta_exec : ℕ) : CfsRq κ τ :=
  match rq.curr with
  | none => rq
  | some prev =>
    { __enqueue_entity V rb (inflate V (update_curr V rq delta_exec) prev) prev with curr := none }

/-- Run the leftmost task, if none runs. -/
def pick_next_entity : CfsRq κ τ :=
  match rq.curr, rq.leftmost with
  | none, some left => { __dequeue_entity rb rq left with curr := some left }
  | _, _ => rq

/-- A task leaves the queue: it sleeps, exits or moves to another processor. -/
def dequeue_entity (t : τ) : CfsRq κ τ :=
  if rq.curr = some t then { rq with curr := none } else __dequeue_entity rb rq t

/-- A task arrives with some virtual time: it wakes up, is forked or comes from another processor. -/
def enqueue_entity (t : τ) (vruntime : κ) : CfsRq κ τ :=
  if rq.curr = some t ∨ t ∈ rq.waiting then rq
  else __enqueue_entity V rb { rq with vruntime := update rq.vruntime t vruntime } t

end Functions

/-- What can happen on a queue. -/
inductive Event (κ τ : Type*) where
  | pick
  | execute (delta_exec : ℕ)
  | preempt (delta_exec : ℕ)
  | set_inactive
  | leave (t : τ)
  | arrive (t : τ) (vruntime : κ)

/-- Events that leave the set of tasks as it is. -/
def Event.settled {κ τ : Type*} : Event κ τ → Prop
  | .leave _ | .arrive _ _ => False
  | _ => True

section Step
variable {κ τ : Type*} [DecidableEq τ] (V : Vruntime κ) (rb : Rebalance τ)

def cfs_step (rq : CfsRq κ τ) : Event κ τ → CfsRq κ τ
  | .pick => pick_next_entity rb rq
  | .execute delta_exec => update_curr V rq delta_exec
  | .preempt delta_exec => put_prev_entity V rb rq delta_exec
  | .set_inactive => set_inactive rq
  | .leave t => dequeue_entity rb rq t
  | .arrive t vruntime => enqueue_entity V rb rq t vruntime

end Step

section Frames
variable {κ τ : Type*} [DecidableEq τ] (V : Vruntime κ) (rb : Rebalance τ) (rq : CfsRq κ τ) (d : ℕ)

/-- Accounting adds the time to the running task, and `min_vruntime` follows. -/
lemma update_curr_some {c : τ} (h : rq.curr = some c) :
    update_curr V rq d =
      { rq with
        vruntime := update rq.vruntime c (V.add (rq.vruntime c) d)
        min_vruntime :=
          V.max_vruntime rq.min_vruntime (least_vruntime V rq (V.add (rq.vruntime c) d)) } := by
  simp [update_curr, h]

/-- The running task is accounted, penalised if it is inactive, and enqueued. -/
lemma put_prev_entity_some {c : τ} (h : rq.curr = some c) :
    put_prev_entity V rb rq d =
      { __enqueue_entity V rb (inflate V (update_curr V rq d) c) c with curr := none } := by
  simp [put_prev_entity, h]

/-- Accounting changes no flag. -/
@[simp] lemma inactive_update_curr : (update_curr V rq d).inactive = rq.inactive := by
  unfold update_curr
  split <;> rfl

/-- Accounting leaves the running task running. -/
@[simp] lemma curr_update_curr : (update_curr V rq d).curr = rq.curr := by
  unfold update_curr
  split <;> simp [*]

/-- Accounting leaves the timeline. -/
@[simp] lemma timeline_update_curr : (update_curr V rq d).tasks_timeline = rq.tasks_timeline := by
  unfold update_curr
  split <;> rfl

/-- The same tasks wait after accounting. -/
@[simp] lemma waiting_update_curr : (update_curr V rq d).waiting = rq.waiting := by
  simp [CfsRq.waiting]

/-- The penalty leaves the running task running. -/
@[simp] lemma curr_inflate (t : τ) : (inflate V rq t).curr = rq.curr := by
  unfold inflate
  split <;> rfl

/-- The penalty leaves the timeline. -/
@[simp] lemma timeline_inflate (t : τ) : (inflate V rq t).tasks_timeline = rq.tasks_timeline := by
  unfold inflate
  split <;> rfl

/-- The same tasks wait after a penalty. -/
@[simp] lemma waiting_inflate (t : τ) : (inflate V rq t).waiting = rq.waiting := by
  simp [CfsRq.waiting]

/-- The penalty leaves `min_vruntime`. -/
@[simp] lemma min_vruntime_inflate (t : τ) : (inflate V rq t).min_vruntime = rq.min_vruntime := by
  unfold inflate
  split <;> rfl

/-- Only the time of the running task is accounted. -/
lemma vruntime_update_curr {t : τ} (h : rq.curr ≠ some t) :
    (update_curr V rq d).vruntime t = rq.vruntime t := by
  cases c : rq.curr with
  | none => simp [update_curr, c]
  | some x =>
    rw [update_curr_some V rq d c]
    exact update_of_ne (fun e => h (by rw [c, e])) _ _

/-- The penalty changes no time but that of its task. -/
lemma vruntime_inflate {t x : τ} (h : t ≠ x) : (inflate V rq x).vruntime t = rq.vruntime t := by
  unfold inflate
  split
  · exact update_of_ne h _ _
  · rfl

/-- The call changes no time but that of its caller. -/
lemma vruntime_set_inactive {t : τ} (h : rq.curr ≠ some t) :
    (set_inactive rq).vruntime t = rq.vruntime t := by
  unfold set_inactive
  split
  · rfl
  · rename_i x c
    split
    · rfl
    · exact update_of_ne (fun e => h (by rw [c, e])) _ _

/-- A preemption changes no time but that of the running task. -/
lemma vruntime_put_prev_entity {t : τ} (h : rq.curr ≠ some t) :
    (put_prev_entity V rb rq d).vruntime t = rq.vruntime t := by
  cases c : rq.curr with
  | none => simp [put_prev_entity, c]
  | some x =>
    have ne : t ≠ x := fun e => h (by rw [c, e])
    rw [put_prev_entity_some V rb rq d c]
    exact (vruntime_inflate V _ ne).trans (vruntime_update_curr V rq d h)

/-- After a preemption no task runs. -/
lemma curr_put_prev_entity : (put_prev_entity V rb rq d).curr = none := by
  cases c : rq.curr with
  | none => simp [put_prev_entity, c]
  | some t => rw [put_prev_entity_some V rb rq d c]

/-- The caller goes on running. -/
@[simp] lemma curr_set_inactive : (set_inactive rq).curr = rq.curr := by
  unfold set_inactive
  split
  · rfl
  · split <;> rfl

/-- The same tasks wait after a call. -/
@[simp] lemma waiting_set_inactive : (set_inactive rq).waiting = rq.waiting := by
  unfold set_inactive
  split
  · rfl
  · split <;> rfl

/-- The call leaves `min_vruntime`. -/
@[simp] lemma min_vruntime_set_inactive : (set_inactive rq).min_vruntime = rq.min_vruntime := by
  unfold set_inactive
  split
  · rfl
  · split <;> rfl

/-- The call toggles the flag of its caller. -/
lemma inactive_set_inactive {t : τ} (c : rq.curr = some t) :
    (set_inactive rq).inactive t = !rq.inactive t := by
  cases h : rq.inactive t <;> simp [set_inactive, c, h]

/-- The call changes no flag but that of its caller. -/
lemma inactive_set_inactive_of_ne {t : τ} (h : rq.curr ≠ some t) :
    (set_inactive rq).inactive t = rq.inactive t := by
  unfold set_inactive
  split
  · rfl
  · rename_i x c
    have ne : t ≠ x := fun e => h (by rw [c, e])
    split <;> exact update_of_ne ne _ _

/-- The call leaves the time of its caller, or places it at `min_vruntime`. -/
lemma vruntime_set_inactive_self {t : τ} (c : rq.curr = some t) :
    (set_inactive rq).vruntime t = if rq.inactive t then rq.min_vruntime else rq.vruntime t := by
  cases h : rq.inactive t <;> simp [set_inactive, c, h]

/-- No key changes while its task is on the timeline. -/
theorem vruntime_waiting (outside : ∀ t, rq.curr = some t → t ∉ rq.waiting) (e : Event κ τ) {t : τ}
    (mem : t ∈ rq.waiting) : (cfs_step V rb rq e).vruntime t = rq.vruntime t := by
  have ne : rq.curr ≠ some t := fun c => outside t c mem
  cases e with
  | pick =>
    simp only [cfs_step, pick_next_entity]
    split <;> rfl
  | execute d => exact vruntime_update_curr V rq d ne
  | preempt d => exact vruntime_put_prev_entity V rb rq d ne
  | set_inactive => exact vruntime_set_inactive rq ne
  | leave x =>
    simp only [cfs_step, dequeue_entity]
    split <;> rfl
  | arrive x v =>
    simp only [cfs_step, enqueue_entity]
    split
    · rfl
    · rename_i absent
      have : t ≠ x := fun e => absent (.inr (e ▸ mem))
      exact update_of_ne this _ _

end Frames

end CS519.Sched
