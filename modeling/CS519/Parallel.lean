import Mathlib.Data.Set.Basic
import Mathlib.Logic.Function.Basic
import CS519.Run

/-!
# Threads on one memory

Threads that read and write single locations of one memory, each with a register of its own, in any
interleaving. A thread's program is the list of its accesses in order: the control flow does not depend
on the data.

If every thread writes locations of its own only, and reads none that another thread owns
(`Separate`), then the interleaving does not matter: in every state each thread has done a part of its
program, and its own locations and its register are as if it had run that part alone (`Progress`,
`progress_run`). The trace of the accesses tells the same, thread by thread.
-/

namespace CS519
open Function

/-- One access of a thread: a read of a location into the register, or a write of a value that depends on
the register. -/
inductive Access (Loc V L : Type*) where
  | read (a : Loc) (k : V → L → L)
  | write (a : Loc) (f : L → V)

/-- What can be seen of an access. -/
inductive AccessEvent (Loc : Type*) where
  | read (a : Loc)
  | write (a : Loc)
deriving DecidableEq, Repr

namespace Access
variable {Loc V L : Type*} [DecidableEq Loc]

def event : Access Loc V L → AccessEvent Loc
  | read a _ => .read a
  | write a _ => .write a

/-- The effect on memory and register. -/
def apply (s : (Loc → V) × L) : Access Loc V L → (Loc → V) × L
  | read a k => (s.1, k (s.1 a) s.2)
  | write a f => (update s.1 a (f s.2), s.2)

/-- Run by one thread. -/
abbrev exec (s : (Loc → V) × L) (p : List (Access Loc V L)) : (Loc → V) × L := run apply s p

/-- An access leaves the locations alone that it does not write. -/
lemma apply_frame {a : Loc} {x : Access Loc V L} (clear : x.event ≠ .write a) (s : (Loc → V) × L) :
    (x.apply s).1 a = s.1 a := by
  cases x with
  | read b k => rfl
  | write b f => exact update_of_ne (fun e => clear (by rw [event, e])) _ _

/-- A program leaves the locations alone that it does not write. -/
lemma exec_frame {a : Loc} {p : List (Access Loc V L)} (clear : ∀ x ∈ p, x.event ≠ .write a)
    (s : (Loc → V) × L) : (exec s p).1 a = s.1 a := by
  induction p generalizing s with
  | nil => rfl
  | cons x p ih =>
    obtain ⟨first, rest⟩ := List.forall_mem_cons.mp clear
    rw [exec, run_cons, ih rest, apply_frame first]

/-- A location that is written, and always with the same value, has that value. -/
lemma exec_const {a : Loc} {v : V} {p : List (Access Loc V L)}
    (const : ∀ x ∈ p, x.event = .write a → ∃ f : L → V, x = .write a f ∧ ∀ l, f l = v)
    (written : ∃ x ∈ p, x.event = .write a) (s : (Loc → V) × L) : (exec s p).1 a = v := by
  induction p generalizing s with
  | nil => simp at written
  | cons x p ih =>
    obtain ⟨first, rest⟩ := List.forall_mem_cons.mp const
    rw [exec, run_cons]
    by_cases later : ∃ y ∈ p, y.event = .write a
    · exact ih rest later _
    · -- the first access is the last write to the location
      have clear : ∀ y ∈ p, y.event ≠ .write a := fun y hy e => later ⟨y, hy, e⟩
      obtain ⟨y, hy, e⟩ := written
      have head : y = x := (List.mem_cons.mp hy).resolve_right fun h => clear y h e
      obtain ⟨f, rfl, value⟩ := first (head ▸ e)
      rw [exec_frame clear]
      simp only [apply, update_self]
      exact value _

end Access

/-- A state of the threads: the memory, their registers, and what is left of their programs. -/
structure Par (T Loc V L : Type*) where
  mem : Loc → V
  reg : T → L
  todo : T → List (Access Loc V L)

section Par
variable {T Loc V L : Type*} [DecidableEq T] [DecidableEq Loc]

/-- The next access of a thread. -/
def par_step (s : Par T Loc V L) (t : T) : Par T Loc V L :=
  match s.todo t with
  | [] => s
  | x :: rest =>
    let after := x.apply (s.mem, s.reg t)
    { mem := after.1, reg := update s.reg t after.2, todo := update s.todo t rest }

def par_log (s : Par T Loc V L) (t : T) : Option (T × AccessEvent Loc) :=
  (s.todo t).head?.map fun x => (t, x.event)

/-- Each thread writes its own locations only and reads none that another thread owns. -/
structure Separate (own : T → Set Loc) (prog : T → List (Access Loc V L)) : Prop where
  writes : ∀ t a, ∀ x ∈ prog t, x.event = .write a → a ∈ own t
  reads : ∀ t a, ∀ x ∈ prog t, x.event = .read a → ∀ u, u ≠ t → a ∉ own u
  apart : ∀ t u, t ≠ u → ∀ a ∈ own t, a ∉ own u

/-- Each thread has run a part of its program, `done t`, as if it were alone. -/
structure Progress (own : T → Set Loc) (start s : Par T Loc V L) (l : List (T × AccessEvent Loc))
    (done : T → List (Access Loc V L)) : Prop where
  split : ∀ t, start.todo t = done t ++ s.todo t
  reg : ∀ t, s.reg t = (Access.exec (start.mem, start.reg t) (done t)).2
  owned : ∀ t, ∀ a ∈ own t, s.mem a = (Access.exec (start.mem, start.reg t) (done t)).1 a
  free : ∀ a, (∀ t, a ∉ own t) → s.mem a = start.mem a
  events : ∀ t, l.filter (·.1 = t) = (done t).map fun x => (t, x.event)

variable {own : T → Set Loc} {start s : Par T Loc V L} {l : List (T × AccessEvent Loc)}
  {done : T → List (Access Loc V L)}

/-- At the start no thread has done anything. -/
lemma Progress.init : Progress own start start [] fun _ => [] :=
  ⟨fun _ => rfl, fun _ => rfl, fun _ _ _ => rfl, fun _ _ => rfl, fun _ => rfl⟩

/-- A thread writes no location that it does not own. -/
lemma Progress.clear (sep : Separate own start.todo) (pro : Progress own start s l done) {t : T} {a : Loc}
    (h : a ∉ own t) : ∀ x ∈ done t, x.event ≠ .write a := by
  intro x mem e
  refine h (sep.writes t a x ?_ e)
  rw [pro.split t]
  exact List.mem_append_left _ mem

/-- What a thread reads is what it would read if it were alone. -/
lemma Progress.read_value (sep : Separate own start.todo) (pro : Progress own start s l done) {t : T}
    {a : Loc} (others : ∀ u, u ≠ t → a ∉ own u) :
    s.mem a = (Access.exec (start.mem, start.reg t) (done t)).1 a := by
  by_cases h : a ∈ own t
  · exact pro.owned t a h
  · rw [Access.exec_frame (pro.clear sep h)]
    refine pro.free a fun u => ?_
    by_cases e : u = t
    · rw [e]
      exact h
    · exact others u e

/-- The next access of a thread extends what it has done. -/
lemma Progress.step (sep : Separate own start.todo) (pro : Progress own start s l done) {t : T}
    {x : Access Loc V L} {rest : List (Access Loc V L)} (e : s.todo t = x :: rest) :
    Progress own start (par_step s t) (l ++ [(t, x.event)]) (update done t (done t ++ [x])) := by
  have mem : x ∈ start.todo t := by
    rw [pro.split t, e]
    simp
  have next : par_step s t =
      { mem := (x.apply (s.mem, s.reg t)).1
        reg := update s.reg t (x.apply (s.mem, s.reg t)).2
        todo := update s.todo t rest } := by
    simp [par_step, e]
  -- the register, and the value of every location that the thread may read or write
  have alone : ∀ before, before = Access.exec (start.mem, start.reg t) (done t) →
      (x.apply (s.mem, s.reg t)).2 = (x.apply before).2 ∧
        ∀ a ∈ own t, (x.apply (s.mem, s.reg t)).1 a = (x.apply before).1 a := by
    rintro before rfl
    have reg := pro.reg t
    cases x with
    | read a k =>
      have value := pro.read_value sep (sep.reads t a _ mem rfl)
      refine ⟨?_, pro.owned t⟩
      simp only [Access.apply, value, reg]
    | write a f =>
      refine ⟨reg, fun b hb => ?_⟩
      simp only [Access.apply, reg]
      by_cases eq : b = a
      · rw [eq, update_self, update_self]
      · rw [update_of_ne eq, update_of_ne eq]
        exact pro.owned t b hb
  have frame : ∀ a, a ∉ own t → (x.apply (s.mem, s.reg t)).1 a = s.mem a := fun a h =>
    Access.apply_frame (fun w => h (sep.writes t a x mem w)) _
  obtain ⟨reg, own_mem⟩ := alone _ rfl
  have snoc : ∀ s₀, Access.exec s₀ (done t ++ [x]) = x.apply (Access.exec s₀ (done t)) := by
    intro s₀
    rw [Access.exec, run_append]
    rfl
  rw [next]
  refine ⟨fun u => ?_, fun u => ?_, fun u a h => ?_, fun a h => ?_, fun u => ?_⟩
  · by_cases eq : u = t
    · subst eq
      simp only [update_self, List.append_assoc, List.singleton_append]
      rw [pro.split u, e]
    · simp only [update_of_ne eq]
      exact pro.split u
  · by_cases eq : u = t
    · subst eq
      simp only [update_self, snoc]
      exact reg
    · simp only [update_of_ne eq]
      exact pro.reg u
  · by_cases eq : u = t
    · subst eq
      simp only [update_self, snoc]
      exact own_mem a h
    · simp only [update_of_ne eq]
      rw [frame a (sep.apart u t eq a h)]
      exact pro.owned u a h
  · simp only
    rw [frame a (h t)]
    exact pro.free a h
  · rw [List.filter_append]
    by_cases eq : u = t
    · subst eq
      simp [pro.events u]
    · simp [update_of_ne eq, pro.events u, Ne.symm eq]

/-- In every state of every interleaving each thread has got as if it were alone. -/
theorem progress_run (sep : Separate own start.todo) (h : List T) :
    ∃ done, Progress own start (run par_step start h) (trace par_step par_log start h) done := by
  refine trace_invariant (I := fun s l => ∃ done, Progress own start s l done) ?_
    ⟨_, Progress.init⟩ h
  rintro s l t ⟨done, pro⟩
  cases e : s.todo t with
  | nil =>
    refine ⟨done, ?_⟩
    simpa [par_step, par_log, e] using pro
  | cons x rest =>
    rw [par_log, e]
    exact ⟨_, pro.step sep e⟩

/-- When a thread has run all of its program, its locations are as if it had been alone. -/
lemma Progress.finished (pro : Progress own start s l done) {t : T} (empty : s.todo t = []) :
    done t = start.todo t ∧
      ∀ a ∈ own t, s.mem a = (Access.exec (start.mem, start.reg t) (start.todo t)).1 a := by
  have all : done t = start.todo t := by
    rw [pro.split t, empty, List.append_nil]
  exact ⟨all, fun a h => all ▸ pro.owned t a h⟩

/-- An event stands for an access of its thread's program. -/
lemma Progress.access (pro : Progress own start s l done) {t : T} {e : AccessEvent Loc}
    (mem : (t, e) ∈ l) : ∃ x ∈ done t, x.event = e := by
  have own_event : (t, e) ∈ l.filter (·.1 = t) := by simp [mem]
  rw [pro.events t] at own_event
  obtain ⟨x, hx, same⟩ := List.mem_map.mp own_event
  exact ⟨x, hx, (Prod.mk.inj same).2⟩

/-- Every logged event is that of an access of the program. -/
lemma Progress.access_of_start (pro : Progress own start s l done) {t : T} {e : AccessEvent Loc}
    (mem : (t, e) ∈ l) : ∃ x ∈ start.todo t, x.event = e := by
  obtain ⟨x, hx, event⟩ := pro.access mem
  refine ⟨x, ?_, event⟩
  rw [pro.split t]
  exact List.mem_append_left _ hx

/-- A location is written by the thread that owns it. -/
lemma Progress.writer (sep : Separate own start.todo) (pro : Progress own start s l done) {t : T} {a : Loc}
    (mem : (t, .write a) ∈ l) : a ∈ own t := by
  obtain ⟨x, hx, event⟩ := pro.access_of_start mem
  exact sep.writes t a x hx event

/-- The writes to a location are those of the thread that owns it, in order. -/
lemma Progress.writes_owned (sep : Separate own start.todo) (pro : Progress own start s l done) {t : T}
    {a : Loc} (h : a ∈ own t) :
    l.filter (·.2 = .write a) = ((done t).filter (·.event = .write a)).map fun x => (t, x.event) := by
  have owner : ∀ p ∈ l, p.2 = .write a → p.1 = t := by
    rintro ⟨u, e⟩ mem rfl
    by_contra ne
    exact sep.apart t u (Ne.symm ne) a h (pro.writer sep mem)
  have filtered : l.filter (·.2 = .write a) = (l.filter (·.1 = t)).filter (·.2 = .write a) := by
    rw [List.filter_filter]
    refine List.filter_congr fun p mem => ?_
    by_cases w : p.2 = .write a
    · simp [w, owner p mem w]
    · simp [w]
  rw [filtered, pro.events t, List.filter_map]
  rfl

end Par

end CS519
