import Mathlib.Algebra.BigOperators.Group.Finset.Basic
import Mathlib.Data.List.GetD
import Mathlib.Data.Nat.Find
import Mathlib.Tactic.Abel
import CS519.Run

/-!
# Fair schedules

A system that has a finite amount of work: a step leaves the state as it is, because its process is blocked
or has nothing to do, or it lowers a measure of the work that is left (`WorksOff`). Then no run has more
steps that do something than there is work at its start (`WorksOff.length_le`), and under every schedule
that lets each process move again and again the system comes to rest: from some point on the state stays
as it is, and no process can change it (`WorksOff.settles`). No schedule has to favour a process that can
move just then. Where only a part of the state comes to rest, `comes_to_rest` says so of the sequence of its
values.

What is left to show for a program is what it means that all of its processes are at rest.

A system without an end reaches a goal by a rank that no step raises and that one process at a time has to
lower (`Fair.reaches`).
-/

namespace CS519
open Function
variable {σ ι : Type*}

/-- The first inputs of an infinite schedule. -/
def firsts (w : ℕ → ι) (n : ℕ) : List ι := (List.range n).map w

/-- Each of the inputs `P` comes again and again. -/
def Fair (P : ι → Prop) (w : ℕ → ι) : Prop := ∀ i, P i → ∀ n, ∃ k, n ≤ k ∧ w k = i

/-- The inputs of a list that starts with `i`, one after the other and over again. -/
def round_robin (i : ι) (l : List ι) (n : ℕ) : ι := (i :: l).getD (n % (l.length + 1)) i

/-- The first events, and those after them. -/
lemma firsts_add (w : ℕ → ι) (n d : ℕ) : firsts w (n + d) = firsts w n ++ firsts (fun k => w (n + k)) d := by
  rw [firsts, List.range_add, List.map_append, List.map_map]
  rfl

/-- Turns in a fixed order are fair to all that have one. -/
lemma fair_round_robin (i : ι) (l : List ι) : Fair (· ∈ i :: l) (round_robin i l) := by
  intro x mem n
  obtain ⟨j, lt, rfl⟩ := List.mem_iff_getElem.mp mem
  have turn : (n * (l.length + 1) + j) % (l.length + 1) = j := Nat.mul_add_mod_of_lt lt
  refine ⟨n * (l.length + 1) + j, ?_, ?_⟩
  · exact (Nat.le_mul_of_pos_right n l.length.succ_pos).trans (Nat.le_add_right _ _)
  · rw [round_robin, turn]
    exact List.getD_eq_getElem _ i lt

/-- A schedule of rounds starts the next round after each one. -/
lemma firsts_round_robin (i : ι) (l : List ι) (q : ℕ) {r : ℕ} (le : r ≤ l.length + 1) :
    firsts (round_robin i l) (q * (l.length + 1) + r) =
      firsts (round_robin i l) (q * (l.length + 1)) ++ (i :: l).take r := by
  rw [firsts_add]
  congr 1
  refine List.ext_getElem (by simpa [firsts] using le) fun k hk _ => ?_
  have lt : k < l.length + 1 := (by simpa [firsts] using hk : k < r).trans_le le
  have turn : (q * (l.length + 1) + k) % (l.length + 1) = k := Nat.mul_add_mod_of_lt lt
  rw [List.getElem_take]
  simp only [firsts, List.getElem_map, List.getElem_range, round_robin, turn]
  exact List.getD_eq_getElem _ i lt

/-- What every round preserves holds after each round, and what holds in all states of a round holds in all
states. -/
theorem round_robin_invariant {step : σ → ι → σ} {I Q : σ → Prop} {i : ι} {l : List ι}
    (round : ∀ s, I s → I (run step s (i :: l)) ∧ Throughout step Q s (i :: l)) {s : σ} (hs : I s) :
    (∀ q, I (run step s (firsts (round_robin i l) (q * (l.length + 1))))) ∧
      ∀ n, Q (run step s (firsts (round_robin i l) n)) := by
  have rounds : ∀ q, I (run step s (firsts (round_robin i l) (q * (l.length + 1)))) := by
    intro q
    induction q with
    | zero =>
      rw [Nat.zero_mul]
      exact hs
    | succ q ih =>
      rw [Nat.succ_mul, firsts_round_robin i l q le_rfl, run_append,
        List.take_of_length_le (List.length_cons ..).le]
      exact (round _ ih).1
  refine ⟨rounds, fun n => ?_⟩
  have short : n % (l.length + 1) ≤ l.length + 1 := (Nat.mod_lt n l.length.succ_pos).le
  rw [← Nat.div_add_mod' n (l.length + 1), firsts_round_robin i l _ short, run_append]
  exact (round _ (rounds _)).2 _ (List.take_prefix _ _)

/-- A sequence comes to rest if every step leaves it as it is or lowers a rank. -/
theorem comes_to_rest {α : Type*} {view : ℕ → α} {R : ℕ → α → Prop}
    (lowers : ∀ n r, R r (view n) → view (n + 1) = view n ∨ ∃ r' < r, R r' (view (n + 1)))
    {n r : ℕ} (start : R r (view n)) : ∃ m, n ≤ m ∧ ∀ k, m ≤ k → view k = view m := by
  induction r using Nat.strong_induction_on generalizing n with
  | _ r ih =>
    by_cases moves : ∃ d, view (n + d + 1) ≠ view (n + d)
    · -- the rank is lower after the first step that changes something
      classical
      let d := Nat.find moves
      have still : ∀ j, j ≤ d → view (n + j) = view n := by
        intro j le
        induction j with
        | zero => rfl
        | succ j stays =>
          have same := not_not.mp (Nat.find_min moves (Nat.lt_of_succ_le le))
          exact same.trans (stays (Nat.le_of_succ_le le))
      have rank : R r (view (n + d)) := by
        rw [still d le_rfl]
        exact start
      obtain ⟨r', less, next⟩ := (lowers (n + d) r rank).resolve_left (Nat.find_spec moves)
      obtain ⟨m, le, rest⟩ := ih r' less next
      exact ⟨m, (Nat.le_add_right n (d + 1)).trans le, rest⟩
    · have same : ∀ d, view (n + d) = view n := by
        intro d
        induction d with
        | zero => rfl
        | succ d ih => exact (not_not.mp fun ne => moves ⟨d, ne⟩).trans ih
      refine ⟨n, le_rfl, fun k le => ?_⟩
      obtain ⟨d, rfl⟩ := Nat.exists_eq_add_of_le le
      exact same d

/-- None of the inputs `P` changes the state. -/
def Settled (step : σ → ι → σ) (P : ι → Prop) (s : σ) : Prop := ∀ i, P i → step s i = s

/-- In the states with the invariant `I`, a step changes nothing or lowers the measure. -/
structure WorksOff (step : σ → ι → σ) (I : σ → Prop) (work : σ → ℕ) : Prop where
  preserved : ∀ s i, I s → I (step s i)
  lowers : ∀ s i, I s → step s i = s ∨ work (step s i) < work s

section Fair
variable {step : σ → ι → σ} {I : σ → Prop} {work : σ → ℕ} {P : ι → Prop} {s : σ} {w : ℕ → ι}

/-- One event more is one step more. -/
lemma run_firsts_succ (n : ℕ) :
    run step s (firsts w (n + 1)) = step (run step s (firsts w n)) (w n) := by
  rw [firsts, List.range_succ, List.map_append, run_append]
  rfl

/-- The steps of a run that change the state are no more than the work at its start. -/
theorem WorksOff.length_le (off : WorksOff step I work) (hs : I s) {h : List ι}
    (moves : Always step (fun s i => step s i ≠ s) s h) :
    h.length + work (run step s h) ≤ work s := by
  induction h generalizing s with
  | nil => simp
  | cons i h ih =>
    obtain ⟨move, moves⟩ := moves
    have less := (off.lowers s i hs).resolve_left move
    have rest := ih (off.preserved s i hs) moves
    rw [List.length_cons, run_cons]
    omega

/-- Under a fair schedule the system comes to rest. -/
theorem WorksOff.settles (off : WorksOff step I work) (hs : I s) (fair : Fair P w) :
    ∃ n, Settled step P (run step s (firsts w n)) ∧
      ∀ k, n ≤ k → run step s (firsts w k) = run step s (firsts w n) := by
  have lowers : ∀ n r, (I (run step s (firsts w n)) ∧ work (run step s (firsts w n)) = r) →
      run step s (firsts w (n + 1)) = run step s (firsts w n) ∨
        ∃ r' < r, I (run step s (firsts w (n + 1))) ∧ work (run step s (firsts w (n + 1))) = r' := by
    rintro n r ⟨invariant, rfl⟩
    rw [run_firsts_succ]
    exact (off.lowers _ _ invariant).imp id fun less => ⟨_, less, off.preserved _ _ invariant, rfl⟩
  obtain ⟨n, _, same⟩ := comes_to_rest (R := fun r x => I x ∧ work x = r) lowers (n := 0) ⟨hs, rfl⟩
  refine ⟨n, fun i hi => ?_, same⟩
  obtain ⟨k, le, rfl⟩ := fair i hi n
  have next := same (k + 1) (Nat.le_succ_of_le le)
  rwa [run_firsts_succ, same k le] at next

/-- A goal is reached under a fair schedule if there is a rank and an input that the system waits for (`R`):
every step reaches the goal, lowers the rank, or is a step of another input and leaves both as they are. -/
theorem Fair.reaches {Q : σ → Prop} {R : ℕ → ι → σ → Prop} (fair : Fair P w)
    (nears : ∀ r j s i, R r j s → Q (step s i) ∨
      ∃ r' j', R r' j' (step s i) ∧ (r' < r ∨ r' = r ∧ j' = j ∧ i ≠ j))
    (waited : ∀ r j s, R r j s → P j) {r : ℕ} {j : ι} {n : ℕ} (hs : R r j (run step s (firsts w n))) :
    ∃ m, n ≤ m ∧ Q (run step s (firsts w m)) := by
  induction r using Nat.strong_induction_on generalizing n j with
  | _ r ih =>
    obtain ⟨k, le, turn⟩ := fair j (waited r j _ hs) n
    obtain ⟨d, rfl⟩ := Nat.exists_eq_add_of_le le
    -- the steps up to the next one of the input that is waited for
    clear le
    induction d generalizing n with
    | zero =>
      have next : run step s (firsts w (n + 1)) = step (run step s (firsts w n)) (w n) := run_firsts_succ n
      rcases nears r j _ (w n) hs with goal | ⟨r', j', hs', less | ⟨_, _, other⟩⟩
      · exact ⟨n + 1, Nat.le_succ n, by rwa [next]⟩
      · obtain ⟨m, le, goal⟩ := ih r' less (by rwa [next])
        exact ⟨m, Nat.le_of_succ_le le, goal⟩
      · exact absurd turn other
    | succ d wait =>
      have next : run step s (firsts w (n + 1)) = step (run step s (firsts w n)) (w n) := run_firsts_succ n
      rcases nears r j _ (w n) hs with goal | ⟨r', j', hs', less | ⟨rfl, rfl, _⟩⟩
      · exact ⟨n + 1, Nat.le_succ n, by rwa [next]⟩
      · obtain ⟨m, le, goal⟩ := ih r' less (by rwa [next])
        exact ⟨m, Nat.le_of_succ_le le, goal⟩
      · obtain ⟨m, le, goal⟩ := wait (by rwa [next]) (by rwa [Nat.succ_add_eq_add_succ])
        exact ⟨m, Nat.le_of_succ_le le, goal⟩

end Fair

/-- The work of several processes, when one of them moves on. -/
lemma sum_update {κ α M : Type*} [DecidableEq κ] [AddCommMonoid M] (f : κ → α → M) (g : κ → α) {S : Finset κ}
    {k : κ} (hk : k ∈ S) (a : α) :
    ∑ i ∈ S, f i (update g k a i) + f k (g k) = ∑ i ∈ S, f i (g i) + f k a := by
  have others : ∑ i ∈ S.erase k, f i (update g k a i) = ∑ i ∈ S.erase k, f i (g i) :=
    Finset.sum_congr rfl fun i hi => by rw [update_of_ne (Finset.ne_of_mem_erase hi)]
  rw [← Finset.add_sum_erase S _ hk, ← Finset.add_sum_erase S (fun i => f i (g i)) hk, update_self,
    others]
  abel

end CS519
