import Mathlib.Tactic
import CS519.Locks.Lock

/-!
# Locks of two states

A lock that is taken by one access, which succeeds in its initial state only and leads to another one, and
given back by one access that leads to the first state again (`TwoState`). Exactly in the second state one
thread is inside, so no second thread can enter (`two_state_after`, `two_state_excludes`).

The compare-and-swap and the test-and-set lock are such locks: their word is 1 exactly while one thread is
inside.
-/

namespace CS519.Locks

/-- The lock is taken by one access, which succeeds in its initial state only, and given back by another. -/
structure TwoState (L : Lock) (taken : L.Shared) : Prop where
  acquires : ∀ a, a = L.acquire
  releases : ∀ r, r = L.release
  free : ∀ a, L.acquire_step a L.init = (taken, none)
  blocked : ∀ a, L.acquire_step a taken = (taken, some a)
  release : ∀ r, L.release_step r taken = (L.init, none)

/-- The compare-and-swap lock takes its word from 0 to 1 and back. -/
lemma caslock_two_state : TwoState caslock (1 : uint) :=
  ⟨fun _ => rfl, fun _ => rfl, fun _ => rfl, fun _ => rfl, fun _ => rfl⟩

/-- So does the test-and-set lock. -/
lemma taslock_two_state : TwoState taslock (1 : uint) :=
  ⟨fun _ => rfl, fun _ => rfl, fun _ => rfl, fun _ => rfl, fun _ => rfl⟩

/-- The lock is free and nobody is inside, or it is taken and one thread is. -/
def OneInside {L : Lock} {N : ℕ} (taken : L.Shared) (s : Threads L N) : Prop :=
  (s.lock = L.init ∧ ∀ u, ¬s.inside u) ∨ ∃ t, s.lock = taken ∧ ∀ u, s.inside u ↔ u = t

section TwoState
variable {L : Lock} {N : ℕ} {taken : L.Shared} {s : Threads L N}

/-- A thread that is inside is the only one, and the lock is taken. -/
lemma OneInside.of_inside (one : OneInside taken s) {t : Fin N} (here : s.inside t) :
    s.lock = taken ∧ ∀ u, s.inside u ↔ u = t := by
  rcases one with ⟨_, out⟩ | ⟨v, lock, only⟩
  · exact absurd here (out t)
  · obtain rfl := (only t).mp here
    exact ⟨lock, only⟩

/-- The lock is free while nobody is inside. -/
lemma OneInside.of_outside (one : OneInside taken s) (out : ∀ u, ¬s.inside u) : s.lock = L.init := by
  rcases one with ⟨free, _⟩ | ⟨v, _, only⟩
  · exact free
  · exact absurd ((only v).mpr rfl) (out v)

/-- A thread moves without entering or leaving. -/
lemma OneInside.stay (one : OneInside taken s) {t : Fin N} {phase : Phase L}
    (same : phase.inside ↔ s.inside t) : OneInside taken (s.move t s.lock phase) := by
  have inside : ∀ u, (s.move t s.lock phase).inside u ↔ s.inside u := by
    intro u
    by_cases e : u = t
    · subst e
      rw [Threads.move_inside_self]
      exact same
    · exact Threads.move_inside_of_ne s s.lock phase e
  rcases one with ⟨free, out⟩ | ⟨v, lock, only⟩
  · exact .inl ⟨free, fun u => (inside u).not.mpr (out u)⟩
  · exact .inr ⟨v, lock, fun u => (inside u).trans (only u)⟩

/-- A step with what its access does written out. -/
lemma step_of_next {t : Fin N} {lock : L.Shared} {phase : Phase L}
    (next : (s.phase t).next s.lock = (lock, phase)) : s.step t = s.move t lock phase := by
  rw [Threads.step, next]

/-- Every access keeps the state of the lock right. -/
lemma OneInside.step (two : TwoState L taken) (one : OneInside taken s) (t : Fin N) :
    OneInside taken (s.step t) := by
  cases e : s.phase t with
  | outside =>
    simp only [Threads.step, e, Phase.next]
    exact one.stay (by rw [Threads.inside, e]; rfl)
  | critical =>
    simp only [Threads.step, e, Phase.next]
    exact one.stay (by rw [Threads.inside, e]; rfl)
  | acquiring a =>
    rcases one with ⟨free, out⟩ | ⟨u, lock, only⟩
    · -- the thread takes the lock
      rw [step_of_next (by rw [e, Phase.next, free, two.free a])]
      refine .inr ⟨t, rfl, fun u => ?_⟩
      by_cases same : u = t
      · subst same
        exact iff_of_true ((Threads.move_inside_self s _ _).mpr trivial) rfl
      · rw [Threads.move_inside_of_ne s _ _ same]
        exact iff_of_false (out u) same
    · rw [step_of_next (by rw [e, Phase.next, lock, two.blocked a])]
      have same : OneInside taken (s.move t s.lock (.acquiring a)) :=
        OneInside.stay (.inr ⟨u, lock, only⟩) (by rw [Threads.inside, e])
      rwa [lock] at same
  | releasing r =>
    have here : s.inside t := by
      rw [Threads.inside, e]
      trivial
    obtain ⟨lock, only⟩ := one.of_inside here
    rw [step_of_next (by rw [e, Phase.next, lock, two.release r])]
    refine .inl ⟨rfl, fun u => ?_⟩
    by_cases same : u = t
    · subst same
      exact (Threads.move_inside_self s _ _).not.mpr id
    · rw [Threads.move_inside_of_ne s _ _ same, only u]
      exact same

/-- The lock is taken exactly while one thread is inside. -/
lemma OneInside.iff (one : OneInside taken s) (ne : taken ≠ L.init) :
    s.lock = taken ↔ ∃! t, s.inside t := by
  rcases one with ⟨free, out⟩ | ⟨t, lock, only⟩
  · refine iff_of_false (fun e => ne (e.symm.trans free)) ?_
    rintro ⟨t, inside, _⟩
    exact out t inside
  · exact iff_of_true lock ⟨t, (only t).mpr rfl, fun u inside => (only u).mp inside⟩

/-- What the invariant of one access says of all schedules. -/
lemma two_state_after (two : TwoState L taken) (h : List (Fin N)) :
    OneInside taken (Threads.after L h) :=
  run_invariant (fun _ t one => one.step two t) (.inl ⟨rfl, fun _ => id⟩) h

/-- No second thread can enter. -/
lemma two_state_excludes (two : TwoState L taken) : L.Excludes N := by
  intro h t u ht hu
  exact ((two_state_after two h).of_inside hu).2 t |>.mp ht

end TwoState

end CS519.Locks
