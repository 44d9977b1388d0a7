import Mathlib.Algebra.Order.BigOperators.Group.Finset
import CS519.Fair
import CS519.Parallel

/-!
# Threads with a barrier

Threads that run one program each, wait for each other at a barrier, and then run a second program each.
A thread arrives at the barrier when its first program is done, and passes when all have arrived.

If the threads are separate in both phases, possibly in two different ways, then both phases are runs of
threads without a barrier, one after the other (`Phased`, `phased_run`).

Whatever the programs are, the threads work them off, and no thread waits for ever: they are at rest when
all have run both programs (`barrier_works_off`, `finished_at_rest`).
-/

namespace CS519
open Function

inductive Phase where
  | first
  | waiting
  | second
deriving DecidableEq

/-- A state of the threads, with what is left of the programs of their phases. -/
structure Phases (T Loc V L : Type*) where
  par : Par T Loc V L
  phase : T → Phase

section Barrier
variable {T Loc V L : Type*}

def barrier_log (s : Phases T Loc V L) (t : T) : Option (T × AccessEvent Loc) := par_log s.par t

/-- A thread that has no access left logs none. -/
lemma barrier_log_nil {s : Phases T Loc V L} {t : T} (e : s.par.todo t = []) : barrier_log s t = none := by
  simp [barrier_log, par_log, e]

/-- A thread logs its next access. -/
lemma barrier_log_cons {s : Phases T Loc V L} {t : T} {x : Access Loc V L} {rest : List (Access Loc V L)}
    (e : s.par.todo t = x :: rest) : barrier_log s t = some (t, x.event) := by
  simp [barrier_log, par_log, e]

variable [DecidableEq T] [DecidableEq Loc]

/-- The state in which those that wait have passed, too. -/
def Phases.passed (second : T → List (Access Loc V L)) (s : Phases T Loc V L) : Par T Loc V L :=
  { s.par with todo := fun t => if s.phase t = .waiting then second t else s.par.todo t }

/-- For those that have passed, an access is one in the state in which all have. -/
lemma passed_access {second : T → List (Access Loc V L)} {s : Phases T Loc V L} {t : T}
    {x : Access Loc V L} {rest : List (Access Loc V L)} (go : s.phase t = .second)
    (e : s.par.todo t = x :: rest) :
    Phases.passed second { s with par := par_step s.par t } = par_step (s.passed second) t := by
  have todo : (s.passed second).todo t = x :: rest := by simp [Phases.passed, go, e]
  simp only [par_step, e, todo]
  simp only [Phases.passed, Par.mk.injEq, true_and]
  funext u
  by_cases eq : u = t
  · subst eq
    simp [go]
  · simp [update_of_ne eq]

variable [Fintype T]

section Steps
variable (second : T → List (Access Loc V L)) (s : Phases T Loc V L)

/-- The next access of a thread, its arrival at the barrier, or its way past it. -/
def barrier_step (t : T) : Phases T Loc V L :=
  match s.phase t, s.par.todo t with
  | .first, [] => { s with phase := update s.phase t .waiting }
  | .waiting, _ =>
    if ∀ u, s.phase u ≠ .first then
      { par := { s.par with todo := update s.par.todo t (second t) }, phase := update s.phase t .second }
    else s
  | _, _ => { s with par := par_step s.par t }

/-- All threads have run both programs. -/
def Phases.Finished : Prop := ∀ t, s.phase t = .second ∧ s.par.todo t = []

instance : Decidable s.Finished :=
  decidable_of_iff (∀ t, s.phase t = .second ∧ (s.par.todo t).isEmpty = true) <| by
    simp [Phases.Finished]

end Steps

variable {second : T → List (Access Loc V L)} {own₁ own₂ : T → Set Loc} {start : Par T Loc V L}

/-- Before any thread passed the barrier, and after all have arrived. -/
inductive Phased (second : T → List (Access Loc V L)) (own₁ own₂ : T → Set Loc) (start : Par T Loc V L) :
    Phases T Loc V L → List (T × AccessEvent Loc) → Prop where
  | before {s l done} :
    (∀ t, s.phase t ≠ .second) →
    (∀ t, s.phase t = .waiting → s.par.todo t = []) →
    Progress own₁ start s.par l done →
    Phased second own₁ own₂ start s l
  | after {s mid l₁ l₂ done₁ done₂} :
    (∀ t, s.phase t ≠ .first) →
    (∀ t, s.phase t = .waiting → s.par.todo t = []) →
    Progress own₁ start mid l₁ done₁ →
    (∀ t, mid.todo t = []) →
    Progress own₂ { mid with todo := second } (s.passed second) l₂ done₂ →
    Phased second own₁ own₂ start s (l₁ ++ l₂)

/-- An access is a step of the threads without a barrier. -/
lemma barrier_step_access {s : Phases T Loc V L} {t : T} {x : Access Loc V L}
    {rest : List (Access Loc V L)} (go : s.phase t ≠ .waiting) (e : s.par.todo t = x :: rest) :
    barrier_step second s t = { s with par := par_step s.par t } := by
  cases ph : s.phase t with
  | waiting => exact absurd ph go
  | _ => simp [barrier_step, ph, e]

/-- When all have arrived, one of those that wait passes. -/
lemma barrier_step_pass (second : T → List (Access Loc V L)) {s : Phases T Loc V L} {t : T}
    (ph : s.phase t = .waiting) (late : ∀ u, s.phase u ≠ .first)
    (idle : ∀ u, s.phase u = .waiting → s.par.todo u = []) :
    (∀ u, (barrier_step second s t).phase u ≠ .first) ∧
      (∀ u, (barrier_step second s t).phase u = .waiting → (barrier_step second s t).par.todo u = []) ∧
        (barrier_step second s t).passed second = s.passed second := by
  have step : barrier_step second s t =
      { par := { s.par with todo := update s.par.todo t (second t) }
        phase := update s.phase t .second } := by
    rw [barrier_step, ph]
    exact if_pos late
  rw [step]
  refine ⟨fun u => ?_, fun u hu => ?_, ?_⟩
  · by_cases eq : u = t
    · simp [eq]
    · simpa [eq] using late u
  · by_cases eq : u = t
    · simp [eq] at hu
    · simpa [eq] using idle u (by simpa [eq] using hu)
  · simp only [Phases.passed, Par.mk.injEq, true_and]
    funext u
    by_cases eq : u = t
    · simp [eq, ph]
    · simp [eq]

/-- A step before any thread has passed. It is the first to pass if all others wait. -/
lemma phased_before (sep₁ : Separate own₁ start.todo) {s : Phases T Loc V L}
    {l : List (T × AccessEvent Loc)} {done : T → List (Access Loc V L)} (early : ∀ t, s.phase t ≠ .second)
    (idle : ∀ t, s.phase t = .waiting → s.par.todo t = []) (pro : Progress own₁ start s.par l done) (t : T) :
    Phased second own₁ own₂ start (barrier_step second s t) (l ++ (barrier_log s t).toList) := by
  cases ph : s.phase t with
  | second => exact absurd ph (early t)
  | first =>
    cases e : s.par.todo t with
    | cons x rest =>
      rw [barrier_step_access (by simp [ph]) e, barrier_log_cons e]
      refine .before early (fun u hu => ?_) (pro.step sep₁ e)
      have other : u ≠ t := fun eq => by simp [eq, ph] at hu
      simpa [par_step, e, other] using idle u hu
    | nil =>
      rw [barrier_log_nil e, Option.toList_none, List.append_nil, barrier_step, ph, e]
      refine .before (fun u => ?_) (fun u hu => ?_) pro
      · by_cases eq : u = t
        · simp [eq]
        · simpa [eq] using early u
      · by_cases eq : u = t
        · rw [eq, e]
        · exact idle u (by simpa [eq] using hu)
  | waiting =>
    rw [barrier_log_nil (idle t ph), Option.toList_none, List.append_nil]
    by_cases all : ∀ u, s.phase u ≠ .first
    · have wait : ∀ u, s.phase u = .waiting := by
        intro u
        cases pu : s.phase u with
        | waiting => rfl
        | first => exact absurd pu (all u)
        | second => exact absurd pu (early u)
      obtain ⟨late, idle', passed⟩ := barrier_step_pass second ph all idle
      have init : Progress own₂ { s.par with todo := second } ((barrier_step second s t).passed second) []
          fun _ => [] := by
        rw [passed]
        simp only [Phases.passed, wait, if_true]
        exact Progress.init
      rw [← List.append_nil l]
      exact .after late idle' pro (fun u => idle u (wait u)) init
    · rw [barrier_step, ph]
      simp only [if_neg all]
      exact .before early idle pro

/-- A step after all threads have arrived. -/
lemma phased_after (sep₂ : Separate own₂ second) {s : Phases T Loc V L} {mid : Par T Loc V L}
    {l₁ l₂ : List (T × AccessEvent Loc)} {done₁ done₂ : T → List (Access Loc V L)}
    (late : ∀ t, s.phase t ≠ .first) (idle : ∀ t, s.phase t = .waiting → s.par.todo t = [])
    (pro₁ : Progress own₁ start mid l₁ done₁) (empty : ∀ t, mid.todo t = [])
    (pro₂ : Progress own₂ { mid with todo := second } (s.passed second) l₂ done₂) (t : T) :
    Phased second own₁ own₂ start (barrier_step second s t) (l₁ ++ l₂ ++ (barrier_log s t).toList) := by
  cases ph : s.phase t with
  | first => exact absurd ph (late t)
  | second =>
    cases e : s.par.todo t with
    | nil =>
      have same : barrier_step second s t = s := by simp [barrier_step, ph, par_step, e]
      rw [same, barrier_log_nil e, Option.toList_none, List.append_nil]
      exact .after late idle pro₁ empty pro₂
    | cons x rest =>
      rw [barrier_step_access (by simp [ph]) e, barrier_log_cons e, List.append_assoc]
      have todo : (s.passed second).todo t = x :: rest := by simp [Phases.passed, ph, e]
      have next := pro₂.step sep₂ todo
      rw [← passed_access ph e] at next
      refine .after late (fun u hu => ?_) pro₁ empty next
      have other : u ≠ t := fun eq => by simp [eq, ph] at hu
      simpa [par_step, e, other] using idle u hu
  | waiting =>
    obtain ⟨late', idle', passed⟩ := barrier_step_pass second ph late idle
    rw [barrier_log_nil (idle t ph), Option.toList_none, List.append_nil]
    rw [← passed] at pro₂
    exact .after late' idle' pro₁ empty pro₂

/-- In every state of every run the threads are in one of the two phases. -/
theorem phased_run (sep₁ : Separate own₁ start.todo) (sep₂ : Separate own₂ second) (h : List T) :
    Phased second own₁ own₂ start (run (barrier_step second) ⟨start, fun _ => .first⟩ h)
      (trace (barrier_step second) barrier_log ⟨start, fun _ => .first⟩ h) := by
  refine trace_invariant ?_ (.before (by simp) (by simp) Progress.init) h
  intro s l t ph
  cases ph with
  | before early idle pro => exact phased_before sep₁ early idle pro t
  | after late idle pro₁ empty pro₂ => exact phased_after sep₂ late idle pro₁ empty pro₂ t

/-! ## The end -/

/-- The steps that a thread has yet to make, with a second program of `n` accesses. -/
def Phase.left (n todo : ℕ) : Phase → ℕ
  | .first => todo + 2 + n
  | .waiting => 1 + n
  | .second => todo

def Phases.left (second : T → List (Access Loc V L)) (s : Phases T Loc V L) : ℕ :=
  ∑ t, (s.phase t).left (second t).length (s.par.todo t).length

omit [DecidableEq T] [DecidableEq Loc] in
/-- A thread that moves on leaves the others where they are. -/
lemma left_lt {s s' : Phases T Loc V L} {t : T}
    (others : ∀ u, u ≠ t → s'.phase u = s.phase u ∧ s'.par.todo u = s.par.todo u)
    (less : (s'.phase t).left (second t).length (s'.par.todo t).length <
      (s.phase t).left (second t).length (s.par.todo t).length) : s'.left second < s.left second := by
  refine Finset.sum_lt_sum (fun u _ => ?_) ⟨t, Finset.mem_univ t, less⟩
  by_cases e : u = t
  · rw [e]
    exact less.le
  · rw [(others u e).1, (others u e).2]

/-- The threads work off their programs. -/
lemma barrier_works_off (second : T → List (Access Loc V L)) :
    WorksOff (barrier_step second) (fun _ => True) (Phases.left second) where
  preserved _ _ _ := trivial
  lowers s t _ := by
    cases ph : s.phase t with
    | waiting =>
      by_cases all : ∀ u, s.phase u ≠ .first
      · have step : barrier_step second s t =
            { par := { s.par with todo := update s.par.todo t (second t) }
              phase := update s.phase t .second } := by
          rw [barrier_step, ph]
          exact if_pos all
        rw [step]
        refine .inr (left_lt (t := t) (fun u ne => ?_) ?_)
        · simp [ne]
        · simp [ph, Phase.left]
      · rw [barrier_step, ph]
        exact .inl (if_neg all)
    | first =>
      cases e : s.par.todo t with
      | nil =>
        rw [barrier_step, ph, e]
        refine .inr (left_lt (t := t) (fun u ne => ?_) ?_)
        · simp [ne]
        · simp [ph, e, Phase.left]
      | cons x rest =>
        rw [barrier_step_access (by simp [ph]) e]
        refine .inr (left_lt (t := t) (fun u ne => ?_) ?_)
        · simp [par_step, e, ne]
        · simp [par_step, ph, e, Phase.left]
    | second =>
      cases e : s.par.todo t with
      | nil => exact .inl (by simp [barrier_step, ph, par_step, e])
      | cons x rest =>
        rw [barrier_step_access (by simp [ph]) e]
        refine .inr (left_lt (t := t) (fun u ne => ?_) ?_)
        · simp [par_step, e, ne]
        · simp [par_step, ph, e, Phase.left]

/-- Threads of which none can move have run both programs. -/
lemma finished_at_rest {s : Phases T Loc V L}
    (rest : Settled (barrier_step second) (fun _ => True) s) : s.Finished := by
  have arrived : ∀ t, s.phase t ≠ .first := by
    intro t ph
    have same := rest t trivial
    cases e : s.par.todo t with
    | nil =>
      have phase := congrFun (congrArg Phases.phase same) t
      simp [barrier_step, ph, e] at phase
    | cons x todo =>
      rw [barrier_step_access (by simp [ph]) e] at same
      have todo := congrFun (congrArg (fun s => s.par.todo) same) t
      simp [par_step, e] at todo
  have passed : ∀ t, s.phase t = .second := by
    intro t
    cases ph : s.phase t with
    | first => exact absurd ph (arrived t)
    | second => rfl
    | waiting =>
      have phase := congrFun (congrArg Phases.phase (rest t trivial)) t
      simp [barrier_step, ph, arrived] at phase
  refine fun t => ⟨passed t, ?_⟩
  cases e : s.par.todo t with
  | nil => rfl
  | cons x todo =>
    have same := rest t trivial
    rw [barrier_step_access (by simp [passed t]) e] at same
    have todo := congrFun (congrArg (fun s => s.par.todo) same) t
    simp [par_step, e] at todo

end Barrier

end CS519
