import Mathlib.Logic.Function.Basic
import CS519.Run

/-!
# Critical sections

A procedure is given by its steps on a shared state: where a call starts, and what one step does (`Proc`). It
`Splits` an effect if each of its calls, run alone, has this effect. Threads that call procedures under one
lock, a step at a time and in any order, are `Locked`.

Under a lock it does not matter how the effect is split: in every run the calls return what they would
return one after the other, in the order in which the lock was given back, and whenever the lock is free the
shared state is that of these calls (`serialised`).
-/

namespace CS519
open Function

/-- A procedure as its steps. A step that ends the call has a result. -/
structure Proc (κ π ρ σ : Type*) where
  start : κ → π
  tick : π → σ → σ × (π ⊕ ρ)

namespace Proc
variable {κ π ρ σ : Type*} (P : Proc κ π ρ σ)

/-- Run alone from a place, the procedure ends in a state with a result. -/
inductive Ends : π → σ → σ × ρ → Prop where
  | last {place s s' r} : P.tick place s = (s', .inr r) → Ends place s (s', r)
  | more {place place' s s' e} : P.tick place s = (s', .inl place') → Ends place' s' e → Ends place s e

/-- Each call, run alone, has the given effect. -/
def Splits (whole : κ → σ → σ × ρ) : Prop := ∀ k s, P.Ends (P.start k) s (whole k s)

end Proc

/-- Where a thread is: between its calls, waiting for the lock, in a call, or about to give the lock back. -/
inductive At (κ π ρ : Type*) where
  | idle
  | waits (call : κ)
  | inside (call : κ) (place : π)
  | leaves (call : κ) (res : ρ)

/-- The thread is waiting for the lock or has it, for this call. -/
def At.call {κ π ρ : Type*} : At κ π ρ → Option κ
  | idle => none
  | waits k => some k
  | inside k _ => some k
  | leaves k _ => some k

/-- The thread has the lock. -/
def At.holds {κ π ρ : Type*} : At κ π ρ → Prop
  | idle => False
  | waits _ => False
  | inside _ _ => True
  | leaves _ _ => True

/-- A shared state, its lock and the threads. -/
structure Locked (ι κ π ρ σ : Type*) where
  shared : σ
  held : Bool
  threads : ι → At κ π ρ

/-- A call that has returned. -/
structure Returned (ι κ ρ : Type*) where
  thread : ι
  call : κ
  res : ρ

section Locked
variable {ι κ π ρ σ : Type*} [DecidableEq ι] (P : Proc κ π ρ σ)

namespace Locked

/-- The lock is free and no thread has called. -/
def start (s : σ) : Locked ι κ π ρ σ := ⟨s, false, fun _ => .idle⟩

/-- A thread moves on. The call is the one that it makes if it makes one now. -/
def step (s : Locked ι κ π ρ σ) (i : ι × κ) : Locked ι κ π ρ σ :=
  match s.threads i.1 with
  | .idle => { s with threads := update s.threads i.1 (.waits i.2) }
  | .waits k =>
    if s.held then s
    else { s with held := true, threads := update s.threads i.1 (.inside k (P.start k)) }
  | .inside k place =>
    match P.tick place s.shared with
    | (shared, .inl place) => { s with shared, threads := update s.threads i.1 (.inside k place) }
    | (shared, .inr res) => { s with shared, threads := update s.threads i.1 (.leaves k res) }
  | .leaves _ _ => { s with held := false, threads := update s.threads i.1 .idle }

/-- The call with which a thread gives the lock back. -/
def returns (s : Locked ι κ π ρ σ) (i : ι × κ) : Option (Returned ι κ ρ) :=
  match s.threads i.1 with
  | .leaves k res => some ⟨i.1, k, res⟩
  | _ => none

end Locked

/-- The calls that have returned in a run. -/
def returned (s : σ) (h : List (ι × κ)) : List (Returned ι κ ρ) :=
  trace (Locked.step P) Locked.returns (Locked.start s) h

end Locked

section Call
variable {ι κ π ρ σ : Type*} [DecidableEq ι] {P : Proc κ π ρ σ} {s : Locked ι κ π ρ σ} {i : ι × κ}

/-- A step leaves the other threads where they are. -/
lemma threads_step_of_ne {u : ι} (ne : u ≠ i.1) : (s.step P i).threads u = s.threads u := by
  unfold Locked.step
  split
  · exact update_of_ne ne ..
  · split
    · rfl
    · exact update_of_ne ne ..
  · split <;> exact update_of_ne ne ..
  · exact update_of_ne ne ..

/-- A thread that is in no call makes one. -/
lemma call_step_of_none (none : (s.threads i.1).call = none) :
    s.returns i = .none ∧ ((s.step P i).threads i.1).call = some i.2 := by
  cases e : s.threads i.1 with
  | idle =>
    refine ⟨by simp [Locked.returns, e], ?_⟩
    simp only [Locked.step, e, update_self]
    rfl
  | _ => simp [e, At.call] at none

/-- A thread that is in a call stays in it, or returns from it. -/
lemma call_step_of_some {k : κ} (some : (s.threads i.1).call = some k) :
    (s.returns i = none ∧ ((s.step P i).threads i.1).call = .some k) ∨
      ∃ r, s.returns i = .some ⟨i.1, k, r⟩ ∧ ((s.step P i).threads i.1).call = none := by
  cases e : s.threads i.1 with
  | idle => simp [e, At.call] at some
  | waits k' =>
    obtain rfl : k' = k := by simpa [e, At.call] using some
    refine .inl ⟨by simp [Locked.returns, e], ?_⟩
    cases held : s.held with
    | true => simp [Locked.step, e, held, At.call]
    | false => simp [Locked.step, e, held, At.call]
  | inside k' place =>
    obtain rfl : k' = k := by simpa [e, At.call] using some
    refine .inl ⟨by simp [Locked.returns, e], ?_⟩
    simp only [Locked.step, e]
    split <;> simp [At.call]
  | leaves k' r =>
    obtain rfl : k' = k := by simpa [e, At.call] using some
    exact .inr ⟨r, by simp [Locked.returns, e], by simp [Locked.step, e, At.call]⟩

end Call

section Serial
variable {ι κ ρ σ : Type*} (whole : κ → σ → σ × ρ)

/-- The effect of a call on its own. -/
def serial_step (s : σ) (e : Returned ι κ ρ) : σ := (whole e.call s).1

/-- The call returns what it returns on its own. -/
def answers (s : σ) (e : Returned ι κ ρ) : Prop := (whole e.call s).2 = e.res

end Serial

section Atomic
variable {ι κ π ρ σ : Type*} [DecidableEq ι] {P : Proc κ π ρ σ} {whole : κ → σ → σ × ρ}
variable {s : Locked ι κ π ρ σ} {b : σ}

/-- The shared state, while the completed calls have led to `b`: it is `b`, or the one thread with the lock
is on its way from `b` to the end of its call. -/
def Midway (P : Proc κ π ρ σ) (whole : κ → σ → σ × ρ) (b : σ) (s : Locked ι κ π ρ σ) : Prop :=
  (s.held = false ∧ s.shared = b ∧ ∀ t, ¬(s.threads t).holds) ∨
    ∃ t, s.held = true ∧ (∀ u, (s.threads u).holds ↔ u = t) ∧
      ((∃ k place, s.threads t = .inside k place ∧ P.Ends place s.shared (whole k b)) ∨
        ∃ k res, s.threads t = .leaves k res ∧ (s.shared, res) = whole k b)

omit [DecidableEq ι] in
/-- At the start the lock is free, and nothing has been done. -/
lemma Midway.start : Midway P whole b (Locked.start b : Locked ι κ π ρ σ) := .inl ⟨rfl, rfl, fun _ => id⟩

/-- Who has the lock after one thread has moved. -/
lemma holds_update {threads : ι → At κ π ρ} {t : ι} {a : At κ π ρ} {Q : ι → Prop}
    (own : a.holds ↔ Q t) (others : ∀ u, u ≠ t → ((threads u).holds ↔ Q u)) :
    ∀ u, (update threads t a u).holds ↔ Q u := by
  intro u
  by_cases same : u = t
  · subst same
    rw [update_self]
    exact own
  · rw [update_of_ne same]
    exact others u same

/-- Nobody has the lock after the thread that may have had it has moved. -/
lemma not_holds_update {threads : ι → At κ π ρ} {t : ι} {a : At κ π ρ} (own : ¬a.holds)
    (others : ∀ u, u ≠ t → ¬(threads u).holds) (u : ι) : ¬(update threads t a u).holds :=
  fun h => (holds_update (Q := fun _ => False) (iff_of_false own id)
    (fun u ne => iff_of_false (others u ne) id) u).mp h

/-- A thread without the lock moves on without it. -/
lemma Midway.stay (mid : Midway P whole b s) {t : ι} {a : At κ π ρ} (out : ¬(s.threads t).holds)
    (still : ¬a.holds) : Midway P whole b { s with threads := update s.threads t a } := by
  rcases mid with ⟨free, same, none⟩ | ⟨u, held, only, place⟩
  · exact .inl ⟨free, same, not_holds_update still fun v _ => none v⟩
  · have ne : t ≠ u := fun same => out ((only t).mpr same)
    have kept : update s.threads t a u = s.threads u := update_of_ne ne.symm _ _
    refine .inr ⟨u, held, holds_update (iff_of_false still ne) fun v _ => only v, ?_⟩
    simp only [kept]
    exact place

omit [DecidableEq ι] in
/-- A thread with the lock is the one that is on its way. -/
lemma Midway.own (mid : Midway P whole b s) {t : ι} (holds : (s.threads t).holds) :
    s.held = true ∧ (∀ u, (s.threads u).holds ↔ u = t) ∧
      ((∃ k place, s.threads t = .inside k place ∧ P.Ends place s.shared (whole k b)) ∨
        ∃ k res, s.threads t = .leaves k res ∧ (s.shared, res) = whole k b) := by
  obtain ⟨u, held, only, place⟩ := mid.resolve_left fun free => free.2.2 t holds
  obtain rfl := (only t).mp holds
  exact ⟨held, only, place⟩

/-- A step changes nothing that counts, or a call returns. -/
lemma Midway.step (splits : P.Splits whole) (mid : Midway P whole b s) (i : ι × κ) :
    (Locked.returns s i = none ∧ Midway P whole b (s.step P i)) ∨
      ∃ e, Locked.returns s i = some e ∧ answers whole b e ∧
        Midway P whole (serial_step whole b e) (s.step P i) := by
  cases e : s.threads i.1 with
  | idle =>
    refine .inl ⟨by simp [Locked.returns, e], ?_⟩
    simp only [Locked.step, e]
    exact mid.stay (by rw [e]; exact id) id
  | waits k =>
    refine .inl ⟨by simp [Locked.returns, e], ?_⟩
    cases held : s.held with
    | true =>
      simp only [Locked.step, e, held, if_true]
      exact mid
    | false =>
      -- the thread takes the lock
      obtain ⟨_, same, none⟩ := mid.resolve_right fun taken => by simp [held] at taken
      simp only [Locked.step, e, held, Bool.false_eq_true, if_false]
      refine .inr ⟨i.1, rfl, holds_update (iff_of_true trivial rfl) fun u ne => ?_, .inl ⟨k, P.start k, ?_, ?_⟩⟩
      · exact iff_of_false (none u) ne
      · exact update_self ..
      · rw [same]
        exact splits k b
  | inside k place =>
    refine .inl ⟨by simp [Locked.returns, e], ?_⟩
    obtain ⟨held, only, ⟨k', place', e', ends⟩ | ⟨_, _, e', _⟩⟩ := mid.own (t := i.1) (by rw [e]; trivial)
    · obtain ⟨rfl, rfl⟩ : k = k' ∧ place = place' := by simpa [e] using e'
      cases eq : whole k b with
      | mk s' r =>
        rw [eq] at ends
        cases ends with
        | last tick =>
          simp only [Locked.step, e, tick]
          refine .inr ⟨i.1, held, holds_update (iff_of_true trivial rfl) fun u _ => only u, .inr ⟨k, r, ?_, ?_⟩⟩
          · exact update_self ..
          · exact eq.symm
        | @more _ next _ _ _ tick ends =>
          simp only [Locked.step, e, tick]
          refine .inr ⟨i.1, held, holds_update (iff_of_true trivial rfl) fun u _ => only u, .inl ⟨k, next, ?_, ?_⟩⟩
          · exact update_self ..
          · rwa [eq]
    · simp [e] at e'
  | leaves k res =>
    obtain ⟨held, only, ⟨_, _, e', _⟩ | ⟨k', res', e', done⟩⟩ := mid.own (t := i.1) (by rw [e]; trivial)
    · simp [e] at e'
    · obtain ⟨rfl, rfl⟩ : k = k' ∧ res = res' := by simpa [e] using e'
      refine .inr ⟨⟨i.1, k, res⟩, by simp [Locked.returns, e], congrArg Prod.snd done.symm, ?_⟩
      simp only [Locked.step, e]
      exact .inl ⟨rfl, congrArg Prod.fst done, not_holds_update id fun v ne h => ne ((only v).mp h)⟩

/-- The calls that have returned in a run, and the shared state they have led to. -/
structure Serialised (P : Proc κ π ρ σ) (whole : κ → σ → σ × ρ) (s₀ : σ) (s : Locked ι κ π ρ σ)
    (es : List (Returned ι κ ρ)) : Prop where
  answers : Always (serial_step whole) (answers whole) s₀ es
  midway : Midway P whole (run (serial_step whole) s₀ es) s

/-- In every run under the lock the calls that have returned have returned what they return one after the
other. -/
theorem serialised (splits : P.Splits whole) (s₀ : σ) (h : List (ι × κ)) :
    Serialised P whole s₀ (run (Locked.step P) (Locked.start s₀) h) (returned P s₀ h) := by
  refine trace_invariant (I := fun s es => Serialised P whole s₀ s es) (fun s es i ser => ?_)
    ⟨trivial, .start⟩ h
  rcases ser.midway.step splits i with ⟨none, mid⟩ | ⟨e, some, right, mid⟩
  · rw [none, Option.toList_none, List.append_nil]
    exact ⟨ser.answers, mid⟩
  · rw [some, Option.toList_some]
    refine ⟨always_append.mpr ⟨ser.answers, right, trivial⟩, ?_⟩
    rw [run_append]
    exact mid

end Atomic

end CS519
