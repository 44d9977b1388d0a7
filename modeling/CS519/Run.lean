import Mathlib.Data.List.Infix
import Mathlib.Data.List.Induction

/-!
# Runs of a step function

A system is given by a step function `step : σ → ι → σ`; a run is a list of inputs: the calls of a client,
or the schedule that says which thread moves next. `Always step P s h` says that every step of the run
`h` from `s` is taken in a state in which `P` admits it.

The rules: `run_invariant` for what every step preserves, `run_refines` for two systems that stay related
when they take the same inputs, `run_simulates` for a system that projects onto another one and may stutter,
`trace_invariant` for what the events of a run tell about the state at its end, and `run_update` for steps
that each rewrite a cell of their own.
-/

namespace CS519
variable {σ τ ι : Type*}

/-- The state after a run. -/
def run (step : σ → ι → σ) (s : σ) (h : List ι) : σ := h.foldl step s

section Run
variable (step : σ → ι → σ) (s : σ)

/-- The run without events. -/
@[simp] lemma run_nil : run step s [] = s := rfl

/-- The run that starts with an event. -/
@[simp] lemma run_cons (i : ι) (h : List ι) : run step s (i :: h) = run step (step s i) h := rfl

/-- A run after a run. -/
@[simp] lemma run_append (h g : List ι) : run step s (h ++ g) = run step (run step s h) g := by
  simp [run]

end Run

/-- Every step of a run is admitted by `P` in the state in which it is taken. -/
def Always (step : σ → ι → σ) (P : σ → ι → Prop) : σ → List ι → Prop
  | _, [] => True
  | s, i :: h => P s i ∧ Always step P (step s i) h

section Always
variable {step : σ → ι → σ} {P Q : σ → ι → Prop} {s : σ}

instance [∀ s i, Decidable (P s i)] : ∀ (s : σ) (h : List ι), Decidable (Always step P s h)
  | _, [] => inferInstanceAs (Decidable True)
  | s, i :: h =>
    have := instDecidableAlways (step s i) h
    inferInstanceAs (Decidable (P s i ∧ Always step P (step s i) h))

/-- Two conditions on all steps of a run. -/
lemma always_and {h : List ι} :
    Always step (fun s i => P s i ∧ Q s i) s h ↔ Always step P s h ∧ Always step Q s h := by
  induction h generalizing s with
  | nil => exact ⟨fun _ => ⟨trivial, trivial⟩, fun _ => trivial⟩
  | cons i h ih =>
    rw [Always, Always, Always, ih]
    exact and_and_and_comm

/-- A condition on all steps of a run after a run. -/
lemma always_append {h g : List ι} :
    Always step P s (h ++ g) ↔ Always step P s h ∧ Always step P (run step s h) g := by
  induction h generalizing s with
  | nil => exact ⟨fun al => ⟨trivial, al⟩, fun al => al.2⟩
  | cons i h ih =>
    rw [List.cons_append, Always, Always, ih, run_cons]
    exact and_assoc.symm

/-- Every input of a run is one that is admitted in some state. -/
lemma Always.forall_mem {A : ι → Prop} {h : List ι} (al : Always step P s h)
    (admitted : ∀ s i, P s i → A i) : ∀ i ∈ h, A i := by
  induction h generalizing s with
  | nil => exact fun i mem => absurd mem List.not_mem_nil
  | cons i h ih => exact List.forall_mem_cons.mpr ⟨admitted s i al.1, ih al.2⟩

/-- Every state of a run has the property `Q`, the first and the last one included. -/
def Throughout (step : σ → ι → σ) (Q : σ → Prop) (s : σ) (h : List ι) : Prop :=
  ∀ g, g <+: h → Q (run step s g)

/-- The states of a run are its first one and those after its steps. -/
lemma throughout_iff {Q : σ → Prop} {h : List ι} :
    Throughout step Q s h ↔ Q s ∧ Always step (fun s i => Q (step s i)) s h := by
  induction h generalizing s with
  | nil => simp [Throughout, Always]
  | cons i h ih =>
    rw [Always, ← ih]
    constructor
    · intro all
      exact ⟨all [] List.nil_prefix, fun g pre => all (i :: g) (List.cons_prefix_cons.mpr ⟨rfl, pre⟩)⟩
    · rintro ⟨first, rest⟩ g pre
      cases g with
      | nil => exact first
      | cons j g =>
        obtain ⟨rfl, tail⟩ := List.cons_prefix_cons.mp pre
        exact rest g tail

instance {Q : σ → Prop} [DecidablePred Q] (h : List ι) :
    Decidable (Throughout step Q s h) :=
  decidable_of_iff _ throughout_iff.symm

/-- A property of all states holds before and after every step. -/
lemma Throughout.always {Q : σ → Prop} {h : List ι} (all : Throughout step Q s h) :
    Always step (fun s i => Q s ∧ Q (step s i)) s h := by
  induction h generalizing s with
  | nil => trivial
  | cons i h ih =>
    obtain ⟨first, next, _⟩ := throughout_iff.mp all
    refine ⟨⟨first, next⟩, ih fun g pre => ?_⟩
    exact all (i :: g) (List.cons_prefix_cons.mpr ⟨rfl, pre⟩)

end Always

/-- What every step preserves holds at the end of a run. -/
theorem run_invariant {step : σ → ι → σ} {I : σ → Prop}
    (preserved : ∀ s i, I s → I (step s i)) {s : σ} (hs : I s) (h : List ι) :
    I (run step s h) := by
  induction h generalizing s with
  | nil => exact hs
  | cons i h ih => exact ih (preserved s i hs)

/-- What every admitted step preserves holds at the end of a run of such steps. -/
theorem run_invariant_of_always {step : σ → ι → σ} {P : σ → ι → Prop} {I : σ → Prop}
    (preserved : ∀ s i, P s i → I s → I (step s i)) {s : σ} (hs : I s) {h : List ι}
    (al : Always step P s h) : I (run step s h) := by
  induction h generalizing s with
  | nil => exact hs
  | cons i h ih => exact ih (preserved s i al.1 hs) al.2

/-- Refinement: two systems that take the same inputs stay related, as long as the second one admits
them. -/
theorem run_refines {step : σ → ι → σ} {step' : τ → ι → τ} {P : τ → ι → Prop} {R : σ → τ → Prop}
    (preserved : ∀ s t i, P t i → R s t → R (step s i) (step' t i)) {s : σ} {t : τ} (hs : R s t)
    {h : List ι} (al : Always step' P t h) : R (run step s h) (run step' t h) := by
  induction h generalizing s t with
  | nil => exact hs
  | cons i h ih => exact ih (preserved s t i al.1 hs) al.2

/-- Conditions that agree on every step from a state with the invariant `I` agree on every run. -/
theorem always_congr {step : σ → ι → σ} {P Q : σ → ι → Prop} {I : σ → Prop}
    (preserved : ∀ s i, I s → I (step s i)) (iff : ∀ s i, I s → (P s i ↔ Q s i)) {s : σ} (hs : I s)
    (h : List ι) : Always step P s h ↔ Always step Q s h := by
  induction h generalizing s with
  | nil => exact Iff.rfl
  | cons i h ih => exact and_congr (iff s i hs) (ih (preserved s i hs))

/-- Simulation: if every step of a system is a run of another one, possibly an empty one, then so is every
run. -/
theorem run_simulates {κ : Type*} {step : σ → ι → σ} {step' : τ → κ → τ} {f : σ → τ}
    (simulated : ∀ s i, ∃ g, f (step s i) = run step' (f s) g) (s : σ) (h : List ι) :
    ∃ g, f (run step s h) = run step' (f s) g := by
  induction h generalizing s with
  | nil => exact ⟨[], rfl⟩
  | cons i h ih =>
    obtain ⟨g, e⟩ := simulated s i
    obtain ⟨g', e'⟩ := ih (step s i)
    refine ⟨g ++ g', ?_⟩
    rw [run_cons, e', run_append, e]

/-- What refinement gives for every step of a run holds all along the run. -/
theorem always_refines {step : σ → ι → σ} {step' : τ → ι → τ} {P : τ → ι → Prop}
    {Q : σ → ι → Prop} {R : σ → τ → Prop}
    (preserved : ∀ s t i, P t i → R s t → Q s i ∧ R (step s i) (step' t i)) {s : σ} {t : τ}
    (hs : R s t) {h : List ι} (al : Always step' P t h) : Always step Q s h := by
  induction h generalizing s t with
  | nil => trivial
  | cons i h ih =>
    obtain ⟨q, r⟩ := preserved s t i al.1 hs
    exact ⟨q, ih r al.2⟩

section Throughout
variable {step : σ → ι → σ} {s : σ} {h : List ι}

/-- The states of a run that starts with an event. -/
lemma throughout_cons {Q : σ → Prop} {i : ι} :
    Throughout step Q s (i :: h) ↔ Q s ∧ Throughout step Q (step s i) h := by
  rw [throughout_iff, throughout_iff]
  rfl

/-- The states of a run after a run. -/
lemma throughout_append {Q : σ → Prop} {g : List ι} : Throughout step Q s (h ++ g) ↔
    Throughout step Q s h ∧ Throughout step Q (run step s h) g := by
  induction h generalizing s with
  | nil =>
    refine ⟨fun all => ⟨?_, all⟩, fun all => all.2⟩
    exact throughout_iff.mpr ⟨(throughout_iff.mp all).1, trivial⟩
  | cons i h ih => rw [List.cons_append, throughout_cons, throughout_cons, ih, run_cons, and_assoc]

/-- What every step with an admitted input preserves holds in all states of a run. -/
theorem throughout_invariant {A : ι → Prop} {I : σ → Prop}
    (preserved : ∀ s i, A i → I s → I (step s i)) (hs : I s) (admitted : ∀ i ∈ h, A i) :
    Throughout step I s h := by
  induction h generalizing s with
  | nil => exact throughout_iff.mpr ⟨hs, trivial⟩
  | cons i h ih =>
    obtain ⟨ai, ah⟩ := List.forall_mem_cons.mp admitted
    exact throughout_cons.mpr ⟨hs, ih (preserved s i ai hs) ah⟩

/-- A property that a step preserves exactly under a condition holds in all states of a run exactly if
all steps meet the condition. -/
theorem throughout_iff_always {A : ι → Prop} {Q : σ → Prop} {C : σ → ι → Prop}
    (preserved : ∀ s i, A i → Q s → (Q (step s i) ↔ C s i)) (hs : Q s) (admitted : ∀ i ∈ h, A i) :
    Throughout step Q s h ↔ Always step C s h := by
  induction h generalizing s with
  | nil => exact ⟨fun _ => trivial, fun _ => throughout_iff.mpr ⟨hs, trivial⟩⟩
  | cons i h ih =>
    obtain ⟨ai, ah⟩ := List.forall_mem_cons.mp admitted
    have iff := preserved s i ai hs
    rw [throughout_cons, Always]
    constructor
    · rintro ⟨_, rest⟩
      have next := (throughout_iff.mp rest).1
      exact ⟨iff.mp next, (ih next ah).mp rest⟩
    · rintro ⟨c, rest⟩
      exact ⟨hs, (ih (iff.mpr c) ah).mpr rest⟩

end Throughout

section Trace
variable {ε : Type*} {step : σ → ι → σ} {log : σ → ι → Option ε}

/-- The events that the steps of a run log. -/
def trace (step : σ → ι → σ) (log : σ → ι → Option ε) : σ → List ι → List ε
  | _, [] => []
  | s, i :: h => (log s i).toList ++ trace step log (step s i) h

/-- The log of a run after a run. -/
lemma trace_append (s : σ) (h g : List ι) :
    trace step log s (h ++ g) = trace step log s h ++ trace step log (run step s h) g := by
  induction h generalizing s with
  | nil => rfl
  | cons i h ih => rw [List.cons_append, trace, ih, trace, List.append_assoc, run_cons]

/-- Simulation of the events: if every step from a state with the invariant `I` is a run of another
system that logs the same, then so is every run. -/
theorem trace_simulates {κ : Type*} {step' : τ → κ → τ} {log' : τ → κ → Option ε} {f : σ → τ}
    {I : σ → Prop} (preserved : ∀ s i, I s → I (step s i))
    (simulated : ∀ s i, I s → ∃ g, f (step s i) = run step' (f s) g ∧
      (log s i).toList = trace step' log' (f s) g) {s : σ} (hs : I s) (h : List ι) :
    ∃ g, f (run step s h) = run step' (f s) g ∧ trace step log s h = trace step' log' (f s) g := by
  induction h generalizing s with
  | nil => exact ⟨[], rfl, rfl⟩
  | cons i h ih =>
    obtain ⟨g, e, t⟩ := simulated s i hs
    obtain ⟨g', e', t'⟩ := ih (preserved s i hs)
    refine ⟨g ++ g', ?_, ?_⟩
    · rw [run_cons, e', run_append, e]
    · rw [trace, t, t', trace_append, e]

/-- Steps that agree on a relation and on what they log write the same log. -/
theorem trace_refines {step' : τ → ι → τ} {log' : τ → ι → Option ε} {P : τ → ι → Prop} {R : σ → τ → Prop}
    (preserved : ∀ s t i, P t i → R s t → log s i = log' t i ∧ R (step s i) (step' t i)) {s : σ} {t : τ}
    (hs : R s t) {h : List ι} (al : Always step' P t h) : trace step log s h = trace step' log' t h := by
  induction h generalizing s t with
  | nil => rfl
  | cons i h ih =>
    obtain ⟨same, next⟩ := preserved s t i al.1 hs
    rw [trace, trace, same, ih next al.2]

/-- An invariant of the state and the events so far holds at the end of a run, if the admitted steps
preserve it. -/
theorem trace_invariant_of_always {P : σ → ι → Prop} {I : σ → List ε → Prop}
    (preserved : ∀ s l i, P s i → I s l → I (step s i) (l ++ (log s i).toList)) {s : σ} (hs : I s [])
    {h : List ι} (al : Always step P s h) : I (run step s h) (trace step log s h) := by
  have key : ∀ (s : σ) (l : List ε), Always step P s h → I s l →
      I (run step s h) (l ++ trace step log s h) := by
    clear hs al
    induction h with
    | nil =>
      intro s l _ hs
      rw [trace, List.append_nil]
      exact hs
    | cons i h ih =>
      intro s l al hs
      rw [run_cons, trace, ← List.append_assoc]
      exact ih _ _ al.2 (preserved s l i al.1 hs)
  exact key s [] al hs

/-- An invariant of the state and the events so far holds at the end of a run. -/
theorem trace_invariant {I : σ → List ε → Prop}
    (preserved : ∀ s l i, I s l → I (step s i) (l ++ (log s i).toList)) {s : σ} (hs : I s [])
    (h : List ι) : I (run step s h) (trace step log s h) := by
  have al : Always step (fun _ _ => True) s h := by
    clear hs
    induction h generalizing s with
    | nil => trivial
    | cons i h ih => exact ⟨trivial, ih⟩
  exact trace_invariant_of_always (fun s l i _ => preserved s l i) hs al

/-- Steps that each rewrite a cell of their own, from what the cell holds. -/
theorem run_update {κ α : Type*} [DecidableEq κ] (f : κ → α → α) (s : κ → α) {l : List κ}
    (nodup : l.Nodup) (k : κ) :
    run (fun s k => Function.update s k (f k (s k))) s l k = if k ∈ l then f k (s k) else s k := by
  induction l generalizing s with
  | nil => simp
  | cons a l ih =>
    obtain ⟨fresh, nodup⟩ := List.nodup_cons.mp nodup
    rw [run_cons, ih _ nodup]
    by_cases e : k = a
    · subst e
      simp [fresh]
    · simp [e]

/-- What such steps log is read off the cells as they were at the start. -/
theorem trace_update {κ α : Type*} [DecidableEq κ] (f : κ → α → α) (log : κ → α → Option ε)
    (s : κ → α) {l : List κ} (nodup : l.Nodup) :
    trace (fun s k => Function.update s k (f k (s k))) (fun s k => log k (s k)) s l =
      l.filterMap fun k => log k (s k) := by
  induction l generalizing s with
  | nil => rfl
  | cons a l ih =>
    obtain ⟨fresh, nodup⟩ := List.nodup_cons.mp nodup
    have rest : (l.filterMap fun k => log k (Function.update s a (f a (s a)) k)) =
        l.filterMap fun k => log k (s k) := by
      refine List.filterMap_congr fun k mem => ?_
      have ne : k ≠ a := fun e => fresh (e ▸ mem)
      rw [Function.update_of_ne ne]
    rw [trace, ih _ nodup, rest, List.filterMap_cons]
    cases log a (s a) <;> rfl

end Trace

end CS519
