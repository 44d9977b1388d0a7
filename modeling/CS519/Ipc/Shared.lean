import CS519.Parallel
import CS519.Ipc.Product

/-!
# Children that write to shared memory

The programs `IPC-shmem.c` and `IPC-mesg.c`. The parent forks one child for each row and then waits for
all of them; a child computes its row in memory of its own and copies it, element by element, to shared
memory. In the first program the rows are slices of one array and the copies are made under a semaphore,
in the second one every child has a segment of its own, without a semaphore, and the parent puts the
segments together when all children have exited.

Both are one system with two parameters: where the elements of a row go, and what calls a child makes.
The children's stores are those of threads that share no location (`project`), so when the wait loop has
ended every element has been written once, with the value that `vector_mult` has computed for it
(`rows_written`).

Indices are natural numbers: with `m * m` an `int` none of them overflows.
-/

namespace CS519.Ipc
open Function

/-- The order in which `memcpy` stores the elements of a row. -/
abbrev Copy (m : ℕ) := {order : List ℕ // order.Perm (List.range m)}

/-- A call of a child that other processes can see. -/
inductive Call (Loc : Type) where
  | semaphore_reserve
  | store (a : Loc) (v : int)
  | semaphore_release

/-- A child, with the calls that it has yet to make. -/
inductive Child (Loc : Type) where
  | unborn
  | running (calls : List (Call Loc))
  | exited
  | reaped

inductive Parent where
  | fork (i : ℕ)
  | wait
  | done
deriving DecidableEq

/-- The processes, the semaphore, and the shared memory. -/
structure Sys (Loc : Type) where
  semaphore : ℕ
  mem : Loc → int
  child : ℕ → Child Loc
  parent : Parent

/-- Who moves next. If the parent waits and several children have exited, `reap` says which of them the
call returns. -/
inductive Move where
  | parent
  | reap (i : ℕ)
  | child (i : ℕ)

section System
variable {Loc : Type} [DecidableEq Loc] (m : ℕ) (calls : ℕ → List (Call Loc))

/-- Every child that was forked has been reaped: a further `wait` is an error. -/
def all_reaped (s : Sys Loc) : Bool :=
  (List.range m).all fun i => match s.child i with | .reaped => true | _ => false

def parent_step (s : Sys Loc) : Sys Loc :=
  match s.parent with
  | .fork i =>
    if i < m then { s with child := update s.child i (.running (calls i)), parent := .fork (i + 1) }
    else { s with parent := .wait }
  | .wait => if all_reaped m s then { s with parent := .done } else s
  | .done => s

def reap_step (s : Sys Loc) (i : ℕ) : Sys Loc :=
  match s.parent, s.child i with
  | .wait, .exited => { s with child := update s.child i .reaped }
  | _, _ => s

def child_step (s : Sys Loc) (i : ℕ) : Sys Loc :=
  match s.child i with
  | .running [] => { s with child := update s.child i .exited }
  | .running (.semaphore_reserve :: rest) =>
    if s.semaphore = 0 then s
    else { s with semaphore := s.semaphore - 1, child := update s.child i (.running rest) }
  | .running (.semaphore_release :: rest) =>
    { s with semaphore := s.semaphore + 1, child := update s.child i (.running rest) }
  | .running (.store a v :: rest) =>
    { s with mem := update s.mem a v, child := update s.child i (.running rest) }
  | _ => s

def sys_step (s : Sys Loc) : Move → Sys Loc
  | .parent => parent_step m calls s
  | .reap i => reap_step s i
  | .child i => child_step s i

/-- The stores of the children. -/
def sys_log (s : Sys Loc) : Move → Option (ℕ × AccessEvent Loc)
  | .child i =>
    match s.child i with
    | .running (.store a _ :: _) => some (i, .write a)
    | _ => none
  | _ => none

/-- The state when the parent comes to the fork loop. -/
def sys_start (mem : Loc → int) : Sys Loc := ⟨1, mem, fun _ => .unborn, .fork 0⟩

end System

/-! ## The two programs -/

section Programs
variable (m : ℕ) (copy : ℕ → Copy m) (A B : ℕ → int)

/-- The stores by which `memcpy` copies the computed row to `dst`. -/
def memcpy_calls {Loc : Type} (dst : ℕ → Loc) (row : ℕ) : List (Call Loc) :=
  (copy row).1.map fun j => .store (dst j) ((vector_mult m A B row).getD j 0)

/-- A child of `IPC-shmem.c`. -/
def shmem_calls (i : ℕ) : List (Call ℕ) :=
  .semaphore_reserve :: memcpy_calls m copy A B (fun j => i * m + j) i ++ [.semaphore_release]

/-- A child of `IPC-mesg.c`, whose segment is `C[i]`. -/
def mesg_calls (i : ℕ) : List (Call (ℕ × ℕ)) :=
  memcpy_calls m copy A B (fun j => (i, j)) i

/-- A copy of `n` elements to `dst[off]`. -/
def memcpy (dst : ℕ → int) (off : ℕ) (src : ℕ → int) (n : ℕ) : ℕ → int := fun a =>
  if off ≤ a ∧ a < off + n then src (a - off) else dst a

/-- The loop of `IPC-mesg.c` that puts the segments together. -/
def reassemble (D : ℕ → int) (C : ℕ × ℕ → int) : ℕ → int :=
  (List.range m).foldl (fun D i => memcpy D (i * m) (fun j => C (i, j)) m) D

end Programs

/-! ## The children as threads -/

section Project
variable {Loc : Type} [DecidableEq Loc] {m : ℕ} {calls : ℕ → List (Call Loc)} {s : Sys Loc}

def Call.access : Call Loc → Option (Access Loc int Unit)
  | .store a v => some (.write a fun _ => v)
  | _ => none

/-- The stores among the calls that a child has yet to make. -/
def stores (calls : List (Call Loc)) : List (Access Loc int Unit) := calls.filterMap Call.access

/-- The stores that a child has yet to make. -/
def remaining (calls : List (Call Loc)) : Child Loc → List (Access Loc int Unit)
  | .unborn => stores calls
  | .running rest => stores rest
  | _ => []

/-- The system without its control: threads that store. -/
def project (calls : ℕ → List (Call Loc)) (s : Sys Loc) : Par ℕ Loc int Unit where
  mem := s.mem
  reg _ := ()
  todo i := remaining (calls i) (s.child i)

/-- The children that the parent has not come to are unborn, and it is done when all others are gone. -/
def Control (m : ℕ) (s : Sys Loc) : Prop :=
  match s.parent with
  | .fork k => ∀ i, k ≤ i → s.child i = .unborn
  | .wait => True
  | .done => ∀ i < m, s.child i = .reaped

omit [DecidableEq Loc] in
/-- The test of the wait loop. -/
lemma all_reaped_iff : all_reaped m s ↔ ∀ i < m, s.child i = .reaped := by
  simp only [all_reaped, List.all_eq_true, List.mem_range]
  refine forall₂_congr fun i _ => ?_
  cases s.child i <;> simp

/-- What a step of a child can do: nothing, if it is blocked or does not run; a change of its control and
of the semaphore; a store. -/
lemma child_step_cases (calls : List (Call Loc)) (s : Sys Loc) (i : ℕ) :
    (child_step s i = s ∧ sys_log s (.child i) = none) ∨
    (∃ rest c semaphore, s.child i = .running rest ∧ remaining calls c = stores rest ∧
      child_step s i = { s with semaphore, child := update s.child i c } ∧
      sys_log s (.child i) = none) ∨
    ∃ a v rest, s.child i = .running (.store a v :: rest) ∧
      child_step s i =
        { s with mem := update s.mem a v, child := update s.child i (.running rest) } ∧
      sys_log s (.child i) = some (i, .write a) := by
  cases e : s.child i with
  | unborn => exact .inl (by simp [child_step, sys_log, e])
  | exited => exact .inl (by simp [child_step, sys_log, e])
  | reaped => exact .inl (by simp [child_step, sys_log, e])
  | running todo =>
    cases todo with
    | nil =>
      refine .inr (.inl ⟨[], .exited, s.semaphore, rfl, rfl, ?_, ?_⟩)
      · simp [child_step, e]
      · simp [sys_log, e]
    | cons call rest =>
      cases call with
      | semaphore_reserve =>
        by_cases taken : s.semaphore = 0
        · exact .inl (by simp [child_step, sys_log, e, taken])
        · refine .inr (.inl ⟨_, .running rest, s.semaphore - 1, rfl, rfl, ?_, ?_⟩)
          · simp [child_step, e, taken]
          · simp [sys_log, e]
      | semaphore_release =>
        refine .inr (.inl ⟨_, .running rest, s.semaphore + 1, rfl, rfl, ?_, ?_⟩)
        · simp [child_step, e]
        · simp [sys_log, e]
      | store a v =>
        refine .inr (.inr ⟨a, v, rest, rfl, ?_, ?_⟩)
        · simp [child_step, e]
        · simp [sys_log, e]

omit [DecidableEq Loc] in
/-- A change to a child that runs keeps the parent's view. -/
lemma Control.update (con : Control m s) {i : ℕ} {rest : List (Call Loc)}
    (e : s.child i = .running rest) {s' : Sys Loc} {c : Child Loc} (parent : s'.parent = s.parent)
    (child : s'.child = update s.child i c) : Control m s' := by
  unfold Control at con ⊢
  rw [parent, child]
  split at con
  · intro u hu
    have ne : u ≠ i := by
      rintro rfl
      simp [con u hu] at e
    rw [update_of_ne ne]
    exact con u hu
  · trivial
  · intro u hu
    have ne : u ≠ i := by
      rintro rfl
      simp [con u hu] at e
    rw [update_of_ne ne]
    exact con u hu

/-- Every step keeps the control. -/
lemma control_step (mv : Move) (con : Control m s) : Control m (sys_step m calls s mv) := by
  cases mv with
  | parent =>
    simp only [sys_step, parent_step]
    cases e : s.parent with
    | fork k =>
      simp only [Control, e] at con ⊢
      by_cases h : k < m
      · simp only [if_pos h]
        intro i hi
        rw [update_of_ne (by omega)]
        exact con i (by omega)
      · simp only [if_neg h]
    | wait =>
      simp only
      split
      · rename_i all
        exact all_reaped_iff.mp all
      · simp [Control, e]
    | done =>
      simp only
      exact con
  | reap i =>
    simp only [sys_step, reap_step]
    split
    · rename_i e _
      simp [Control, e]
    · exact con
  | child i =>
    rcases child_step_cases [] s i with ⟨e, _⟩ | ⟨_, _, _, run, _, e, _⟩ | ⟨_, _, _, run, e, _⟩
    · rw [sys_step, e]
      exact con
    · rw [sys_step, e]
      exact con.update run rfl rfl
    · rw [sys_step, e]
      exact con.update run rfl rfl

omit [DecidableEq Loc] in
/-- A change of control that keeps the stores to come is none for the threads. -/
lemma project_update {s' : Sys Loc} {i : ℕ} {c : Child Loc} (mem : s'.mem = s.mem)
    (child : s'.child = update s.child i c)
    (same : remaining (calls i) c = remaining (calls i) (s.child i)) :
    project calls s' = project calls s := by
  unfold project
  congr 1
  funext u
  rw [child]
  by_cases e : u = i
  · subst e
    rw [update_self, same]
  · rw [update_of_ne e]

/-- A step of the system is one of a thread, or none. -/
lemma project_step (mv : Move) (con : Control m s) :
    ∃ g, project calls (sys_step m calls s mv) = run par_step (project calls s) g ∧
      (sys_log s mv).toList = trace par_step par_log (project calls s) g := by
  cases mv with
  | parent =>
    refine ⟨[], ?_, rfl⟩
    simp only [sys_step, parent_step, run_nil]
    cases e : s.parent with
    | fork k =>
      simp only [Control, e] at con
      simp only
      split
      · exact project_update rfl rfl (by rw [con k le_rfl]; rfl)
      · rfl
    | wait =>
      simp only
      split <;> rfl
    | done => rfl
  | reap i =>
    refine ⟨[], ?_, rfl⟩
    simp only [sys_step, reap_step, run_nil]
    split
    · rename_i e
      exact project_update rfl rfl (by rw [e]; rfl)
    · rfl
  | child i =>
    rcases child_step_cases (calls i) s i with ⟨e, quiet⟩ | ⟨_, _, _, run, same, e, quiet⟩ |
      ⟨a, v, rest, run, e, log⟩
    · exact ⟨[], by rw [sys_step, e, run_nil], by rw [quiet]; rfl⟩
    · refine ⟨[], ?_, by rw [quiet]; rfl⟩
      rw [sys_step, e, run_nil]
      exact project_update rfl rfl (by rw [run, same]; rfl)
    · have todo : (project calls s).todo i = .write a (fun _ => v) :: stores rest := by
        simp only [project, run]
        rfl
      refine ⟨[i], ?_, ?_⟩
      · rw [sys_step, e, run_cons, run_nil, par_step, todo]
        unfold project
        congr 1
        funext u
        by_cases h : u = i
        · subst h
          simp [remaining]
        · simp [h]
      · rw [log, trace, trace, par_log, todo]
        rfl

end Project

/-! ## What the parent finds -/

section Result
variable {Loc : Type} [DecidableEq Loc] {m : ℕ} {copy : ℕ → Copy m} {A B : ℕ → int}
  {dst : ℕ → ℕ → Loc} {calls : ℕ → List (Call Loc)}

/-- No two elements go to one location. -/
def Placed (m : ℕ) (dst : ℕ → ℕ → Loc) : Prop :=
  ∀ i i' j j', j < m → j' < m → dst i j = dst i' j' → i = i' ∧ j = j'

/-- The locations of a row. -/
def slice (m : ℕ) (dst : ℕ → ℕ → Loc) (i : ℕ) : Set Loc := {a | ∃ j < m, a = dst i j}

omit [DecidableEq Loc] in
/-- The stores of a copied row. -/
lemma stores_memcpy (d : ℕ → Loc) (row : ℕ) :
    stores (memcpy_calls m copy A B d row) =
      (copy row).1.map fun j => .write (d j) fun _ => (vector_mult m A B row).getD j 0 := by
  rw [stores, memcpy_calls, List.filterMap_map]
  exact congrFun (List.filterMap_eq_map (f := fun j => _)) _

omit [DecidableEq Loc] in
/-- The stores of a child, by the elements that they copy. -/
lemma mem_stores_memcpy {d : ℕ → Loc} {row : ℕ} {x : Access Loc int Unit} :
    x ∈ stores (memcpy_calls m copy A B d row) ↔
      ∃ j < m, x = .write (d j) fun _ => (vector_mult m A B row).getD j 0 := by
  have mem : ∀ j, j ∈ (copy row).1 ↔ j < m := fun j =>
    (copy row).2.mem_iff.trans List.mem_range
  rw [stores_memcpy, List.mem_map]
  constructor
  · rintro ⟨j, hj, rfl⟩
    exact ⟨j, (mem j).mp hj, rfl⟩
  · rintro ⟨j, hj, rfl⟩
    exact ⟨j, (mem j).mpr hj, rfl⟩

omit [DecidableEq Loc] in
/-- The children store to slices of their own. -/
lemma separate_slices (placed : Placed m dst) :
    Separate (slice m dst) fun i => stores (memcpy_calls m copy A B (dst i) i) := by
  refine ⟨fun i a x mem e => ?_, fun i a x mem e => ?_, fun i i' ne a h h' => ?_⟩
  · obtain ⟨j, hj, rfl⟩ := mem_stores_memcpy.mp mem
    cases e
    exact ⟨j, hj, rfl⟩
  · obtain ⟨j, hj, rfl⟩ := mem_stores_memcpy.mp mem
    cases e
  · obtain ⟨j, hj, rfl⟩ := h
    obtain ⟨j', hj', e⟩ := h'
    exact ne (placed i i' j j' hj hj' e).1

/-- A child stores each element of its row once. -/
lemma stores_once (placed : Placed m dst) {i j : ℕ} (hj : j < m) :
    ((stores (memcpy_calls m copy A B (dst i) i)).filter (·.event = .write (dst i j))).map
      (fun x => (i, x.event)) = [(i, .write (dst i j))] := by
  have nodup : (copy i).1.Nodup := (copy i).2.nodup_iff.mpr List.nodup_range
  have mem : j ∈ (copy i).1 := (copy i).2.mem_iff.mpr (List.mem_range.mpr hj)
  rw [stores_memcpy, List.filter_map, filter_only nodup mem]
  · rfl
  · intro j' hj'
    have lt : j' < m := List.mem_range.mp ((copy i).2.mem_iff.mp hj')
    rw [Function.comp_apply, decide_eq_true_iff]
    constructor
    · intro e
      exact (placed i i j' j lt hj (AccessEvent.write.inj e)).2
    · rintro rfl
      rfl

/-- When the wait loop has ended, all children have been reaped. -/
lemma reaped_of_done {mem : Loc → int} {h : List Move}
    (done : (run (sys_step m calls) (sys_start mem) h).parent = .done) {i : ℕ} (hi : i < m) :
    (run (sys_step m calls) (sys_start mem) h).child i = .reaped := by
  have start : Control m (sys_start mem) := fun _ _ => rfl
  have preserved : ∀ s mv, Control m s → Control m (sys_step m calls s mv) :=
    fun s mv con => control_step mv con
  have control := run_invariant preserved start h
  simp only [Control, done] at control
  exact control i hi

/-- When the wait loop has ended, every element has been written once, by the child of its row and with
the computed value. -/
theorem rows_written (placed : Placed m dst)
    (prog : ∀ i, stores (calls i) = stores (memcpy_calls m copy A B (dst i) i)) (mem : Loc → int)
    (h : List Move) (done : (run (sys_step m calls) (sys_start mem) h).parent = .done) {i j : ℕ}
    (hi : i < m) (hj : j < m) :
    (run (sys_step m calls) (sys_start mem) h).mem (dst i j) = (vector_mult m A B i).getD j 0 ∧
      (trace (sys_step m calls) sys_log (sys_start mem) h).filter (·.2 = .write (dst i j)) =
        [(i, .write (dst i j))] := by
  have start : Control m (sys_start mem) := fun _ _ => rfl
  have preserved : ∀ s mv, Control m s → Control m (sys_step m calls s mv) :=
    fun s mv con => control_step mv con
  obtain ⟨g, e, t⟩ := trace_simulates preserved (fun s mv con => project_step mv con) start h
  have todo : (project calls (sys_start mem)).todo =
      fun i => stores (memcpy_calls m copy A B (dst i) i) := funext prog
  have sep : Separate (slice m dst) (project calls (sys_start mem)).todo := by
    rw [todo]
    exact separate_slices placed
  obtain ⟨ran, pro⟩ := progress_run sep g
  rw [← e, ← t] at pro
  have reaped := reaped_of_done done hi
  have empty : (project calls (run (sys_step m calls) (sys_start mem) h)).todo i = [] := by
    simp [project, reaped, remaining]
  have owned : dst i j ∈ slice m dst i := ⟨j, hj, rfl⟩
  obtain ⟨all, value⟩ := pro.finished empty
  constructor
  · refine (value _ owned).trans (Access.exec_const (fun x mem w => ?_) ?_ _)
    · rw [todo] at mem
      obtain ⟨j', hj', rfl⟩ := mem_stores_memcpy.mp mem
      have same := AccessEvent.write.inj w
      obtain ⟨_, rfl⟩ := placed i i j' j hj' hj same
      exact ⟨_, rfl, fun _ => rfl⟩
    · rw [todo]
      exact ⟨_, mem_stores_memcpy.mpr ⟨j, hj, rfl⟩, rfl⟩
  · rw [pro.writes_owned sep owned, all, todo]
    exact stores_once placed hj

end Result

/-! ## The two programs compute the product -/

section Products
variable {m : ℕ} {copy : ℕ → Copy m} {A B : ℕ → int}

/-- The rows of an array are slices that do not overlap. -/
lemma placed_slices (m : ℕ) : Placed m fun i j => i * m + j := by
  intro i i' j j' hj hj' e
  exact entry_inj hj hj' e

/-- The rows of `IPC-mesg.c` lie in segments of their own. -/
lemma placed_segments (m : ℕ) : Placed m fun i j => (i, j) := by
  intro i i' j j' _ _ e
  exact Prod.mk.inj e

/-- The semaphore stores nothing. -/
lemma stores_shmem (copy : ℕ → Copy m) (A B : ℕ → int) (i : ℕ) : stores (shmem_calls m copy A B i) =
    stores (memcpy_calls m copy A B (fun j => i * m + j) i) := by
  rw [stores, shmem_calls, List.filterMap_append, List.filterMap_cons_none rfl,
    List.filterMap_cons_none rfl, List.filterMap_nil, List.append_nil]
  rfl

/-- The parent puts every segment where its row belongs. -/
lemma reassemble_apply (D : ℕ → int) (C : ℕ × ℕ → int) {i j : ℕ} (hi : i < m) (hj : j < m) :
    reassemble m D C (i * m + j) = C (i, j) := by
  have key : ∀ n, i < n →
      (List.range n).foldl (fun D i => memcpy D (i * m) (fun j => C (i, j)) m) D (i * m + j) =
        C (i, j) := by
    intro n
    induction n with
    | zero => exact fun h => absurd h (Nat.not_lt_zero i)
    | succ n ih =>
      intro h
      rw [List.range_succ, List.foldl_append, List.foldl_cons, List.foldl_nil, memcpy]
      by_cases e : i = n
      · subst e
        rw [if_pos (by omega), Nat.add_sub_cancel_left]
      · -- the row lies below the one that is copied last
        have le : (i + 1) * m ≤ n * m := Nat.mul_le_mul_right m (by omega)
        rw [Nat.succ_mul] at le
        rw [if_neg (by omega)]
        exact ih (by omega)
  exact key m hi

/-- Whatever the order of the children's stores, when the wait loop has ended both programs hold the
product, every element of which was written once, by the child of its row. -/
theorem shared_products (copy : ℕ → Copy m) (fits : product_fits m A B) (h : List Move) :
    (∀ C : ℕ → int,
      let step := sys_step m (shmem_calls m copy A B)
      let s := run step (sys_start C) h
      s.parent = .done →
        (∀ i < m, ∀ j < m, (trace step sys_log (sys_start C) h).filter (·.2 = .write (i * m + j)) =
          [(i, .write (i * m + j))]) ∧
        matrix m s.mem = matrix m A * matrix m B ∧ verify m A B s.mem = 1) ∧
    ∀ (C : ℕ × ℕ → int) (D : ℕ → int),
      let step := sys_step m (mesg_calls m copy A B)
      let s := run step (sys_start C) h
      s.parent = .done →
        (∀ i < m, ∀ j < m, (trace step sys_log (sys_start C) h).filter (·.2 = .write (i, j)) =
          [(i, .write (i, j))]) ∧
        matrix m (reassemble m D s.mem) = matrix m A * matrix m B ∧
          verify m A B (reassemble m D s.mem) = 1 := by
  constructor
  · intro C step s done
    have written := fun i j (hi : i < m) (hj : j < m) =>
      rows_written (placed_slices m) (stores_shmem copy A B) C h done hi hj
    have rows := rows_computed_of_getD fun i hi j hj => (written i j hi hj).1
    exact ⟨fun i hi j hj => (written i j hi hj).2, product_of_rows fits rows, verify_iff.mpr rows⟩
  · intro C D step s done
    have prog : ∀ i, stores (mesg_calls m copy A B i) =
        stores (memcpy_calls m copy A B (fun j => (i, j)) i) := fun _ => rfl
    have written := fun i j (hi : i < m) (hj : j < m) =>
      rows_written (placed_segments m) prog C h done hi hj
    have rows := rows_computed_of_getD fun i hi j hj =>
      (reassemble_apply D s.mem hi hj).trans (written i j hi hj).1
    exact ⟨fun i hi j hj => (written i j hi hj).2, product_of_rows fits rows, verify_iff.mpr rows⟩

/-- Two children that take turns. -/
def two_children : List Move :=
  [.parent, .parent, .parent, .child 1, .child 0, .child 1, .child 0, .child 1, .child 0, .child 1,
    .child 0, .child 1, .child 0, .child 0, .child 0, .child 0, .reap 1, .reap 0, .parent]

/-- Two children whose stores interleave, in both programs. -/
theorem shared_products_two :
    let shmem := sys_step 2 (shmem_calls 2 (fun _ => ⟨[1, 0], by decide⟩) one_to_four one_to_four)
    let mesg := sys_step 2 (mesg_calls 2 (fun _ => ⟨[1, 0], by decide⟩) one_to_four one_to_four)
    verify 2 one_to_four one_to_four (run shmem (sys_start 0) two_children).mem = 1 ∧
      verify 2 one_to_four one_to_four
        (reassemble 2 0 (run mesg (sys_start 0) two_children).mem) = 1 := by
  have both := shared_products (fun _ => ⟨[1, 0], by decide⟩) one_to_four_fits two_children
  exact ⟨(both.1 0 (by decide)).2.2, (both.2 0 0 (by decide)).2.2⟩

end Products

end CS519.Ipc
