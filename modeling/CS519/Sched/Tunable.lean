import CS519.Sched.Cfs

/-!
# The queue with a penalty of the caller's choice

The second patch: the system call takes the penalty in seconds, as an `int`, and `put_prev_entity` adds
the product with `NSEC_PER_SEC`, a `u64`, to the virtual time of an inactive task. The rest of the queue is
that of the first patch, with the kernel's 64-bit times.

A penalty is to hold a task back. `not_forward_iff` says when every one of a run does: the caller passed no
negative number, and no runnable task lies so far behind that the penalty carries the task half way round
the range of times. A task that was leftmost when it was picked leaves nobody that far behind
(`not_forward_of_leftmost`), so there the sign alone decides.
-/

namespace CS519.Sched
open Function

section Penalty
variable {κ τ : Type*} [DecidableEq τ] (V : Vruntime κ) (rb : Rebalance τ) (penalty : τ → κ → κ)
  (rq : CfsRq κ τ)

/-- A penalty for an inactive task. -/
def inflate_by (prev : τ) : CfsRq κ τ :=
  if rq.inactive prev then
    { rq with vruntime := update rq.vruntime prev (penalty prev (rq.vruntime prev)) }
  else rq

/-- Put the running task back into the timeline. -/
def put_prev_entity_by (delta_exec : ℕ) : CfsRq κ τ :=
  match rq.curr with
  | none => rq
  | some prev =>
    { __enqueue_entity V rb (inflate_by penalty (update_curr V rq delta_exec) prev) prev with
      curr := none }

/-- The first patch. -/
lemma put_prev_entity_eq (d : ℕ) :
    put_prev_entity V rb rq d =
      put_prev_entity_by V rb (fun _ v => V.add v INACTIVE_PENALTY_NS) rq d := rfl

/-- A preemption changes no flag. -/
@[simp] lemma inactive_put_prev_entity_by (d : ℕ) :
    (put_prev_entity_by V rb penalty rq d).inactive = rq.inactive := by
  cases c : rq.curr with
  | none => simp [put_prev_entity_by, c]
  | some prev =>
    simp only [put_prev_entity_by, c, __enqueue_entity, inflate_by]
    split <;> exact inactive_update_curr V rq d

/-- The times after a put: accounted, and with the penalty for an inactive task. -/
lemma vruntime_put_prev_entity_by (d : ℕ) (t : τ) :
    (put_prev_entity_by V rb penalty rq d).vruntime t =
      if rq.curr = some t ∧ rq.inactive t = true then penalty t ((update_curr V rq d).vruntime t)
      else (update_curr V rq d).vruntime t := by
  cases c : rq.curr with
  | none => simp [put_prev_entity_by, update_curr, c]
  | some prev =>
    have put : (put_prev_entity_by V rb penalty rq d).vruntime =
        (inflate_by penalty (update_curr V rq d) prev).vruntime := by
      simp [put_prev_entity_by, c, __enqueue_entity]
    rw [put, inflate_by, inactive_update_curr]
    by_cases e : t = prev
    · subst e
      cases rq.inactive t <;> simp
    · have ne : prev ≠ t := Ne.symm e
      cases rq.inactive prev <;> simp [e, ne]

end Penalty

/-- The queue with the penalty of every task. -/
structure TunableRq (τ : Type*) extends CfsRq (BitVec 64) τ where
  inactive_penalty : τ → BitVec 64

namespace Tunable

/-- `(u64)penalty_secs * NSEC_PER_SEC`: the conversion extends the sign. -/
def penalty_ns (penalty_secs : BitVec 32) : BitVec 64 :=
  penalty_secs.signExtend 64 * .ofNat 64 NSEC_PER_SEC

section Functions
variable {τ : Type*} [DecidableEq τ] (rb : Rebalance τ) (rq : TunableRq τ)

/-- The system call, made by the running task. -/
def set_inactive (penalty_secs : BitVec 32) : TunableRq τ :=
  match rq.curr with
  | none => rq
  | some task =>
    if !rq.inactive task then
      { rq with
        inactive_penalty := update rq.inactive_penalty task (penalty_ns penalty_secs)
        inactive := update rq.inactive task true }
    else
      { rq with
        vruntime := update rq.vruntime task rq.min_vruntime
        inactive := update rq.inactive task false }

/-- Put the running task back into the timeline, with its own penalty. -/
def put_prev_entity (delta_exec : ℕ) : TunableRq τ :=
  { rq with
    toCfsRq := put_prev_entity_by .u64 rb (fun prev vruntime => vruntime + rq.inactive_penalty prev)
      rq.toCfsRq delta_exec }

end Functions

/-- What can happen on a queue. -/
inductive Event (τ : Type*) where
  | pick
  | execute (delta_exec : ℕ)
  | preempt (delta_exec : ℕ)
  | set_inactive (penalty_secs : BitVec 32)
  | leave (t : τ)
  | arrive (t : τ) (vruntime : BitVec 64)

section Step
variable {τ : Type*} [DecidableEq τ] (rb : Rebalance τ)

def cfs_step (rq : TunableRq τ) : Event τ → TunableRq τ
  | .pick => { rq with toCfsRq := pick_next_entity rb rq.toCfsRq }
  | .execute delta_exec => { rq with toCfsRq := update_curr .u64 rq.toCfsRq delta_exec }
  | .preempt delta_exec => put_prev_entity rb rq delta_exec
  | .set_inactive penalty_secs => set_inactive rq penalty_secs
  | .leave t => { rq with toCfsRq := dequeue_entity rb rq.toCfsRq t }
  | .arrive t vruntime => { rq with toCfsRq := enqueue_entity .u64 rb rq.toCfsRq t vruntime }

/-- An inactive task that is put back is not before its time without the penalty, nor before a runnable
task that it would follow without the penalty. Among those is the task itself, with the time it had. -/
def NotForward (rq : TunableRq τ) : Event τ → Prop
  | .preempt delta_exec => ∀ t, rq.curr = some t → rq.inactive t = true →
    let plain := (update_curr .u64 rq.toCfsRq delta_exec).vruntime t
    let penalised := (put_prev_entity rb rq delta_exec).vruntime t
    Vruntime.u64.entity_before penalised plain = false ∧
      ∀ x, rq.on_rq x → Vruntime.u64.entity_before plain (rq.vruntime x) = false →
        Vruntime.u64.entity_before penalised (rq.vruntime x) = false
  | _ => True

/-- How far a task lies behind `t`, once `t` has executed. -/
def lag (rq : TunableRq τ) (t : τ) (delta_exec : ℕ) (x : τ) : ℤ :=
  Vruntime.u64.delta (Vruntime.u64.add (rq.vruntime t) delta_exec) (rq.vruntime x)

/-- The number that the inactive task has passed is not negative, and the penalty leaves less than half the
range between the task and every runnable one behind it. -/
def Admissible (rq : TunableRq τ) : Event τ → Prop
  | .preempt delta_exec => ∀ t, rq.curr = some t → rq.inactive t = true →
    ∃ penalty_secs : BitVec 32, rq.inactive_penalty t = penalty_ns penalty_secs ∧
      0 ≤ penalty_secs.toInt ∧
      ∀ x, rq.on_rq x → 0 ≤ lag rq t delta_exec x →
        lag rq t delta_exec x + penalty_secs.toInt * NSEC_PER_SEC < 2 ^ 63
  | _ => True

end Step

/-! ## Signed words -/

section Words
variable {a b : BitVec 64}

/-- The penalty does not overflow, whatever the caller passes. -/
lemma toInt_penalty_ns (penalty_secs : BitVec 32) :
    (penalty_ns penalty_secs).toInt = penalty_secs.toInt * NSEC_PER_SEC := by
  have lo := BitVec.le_toInt penalty_secs
  have hi := BitVec.toInt_lt (x := penalty_secs)
  have factor : (BitVec.ofNat 64 NSEC_PER_SEC).toInt = NSEC_PER_SEC := by decide
  rw [penalty_ns, BitVec.toInt_mul, BitVec.toInt_signExtend_of_le (by decide), factor]
  apply Int.bmod_eq_of_le <;> norm_num [NSEC_PER_SEC] at * <;> omega

/-- Two words that are not negative add up to one that is not exactly below half the range. -/
lemma toInt_add_nonneg_iff (ha : 0 ≤ a.toInt) (hb : 0 ≤ b.toInt) :
    0 ≤ (a + b).toInt ↔ a.toInt + b.toInt < 2 ^ 63 := by
  have a_lt := BitVec.toInt_lt (x := a)
  have b_lt := BitVec.toInt_lt (x := b)
  rw [BitVec.toInt_add, Int.bmod_def]
  split <;> omega

/-- A time is not before another one if the difference is not negative. -/
lemma entity_before_eq_false :
    Vruntime.u64.entity_before a b = false ↔ 0 ≤ Vruntime.u64.delta a b := by
  simp [Vruntime.entity_before]

/-- What is added to a time is read back as a signed number. -/
lemma delta_add_self (a p : BitVec 64) : Vruntime.u64.delta (a + p) a = p.toInt := by
  have cancel : a + p - a = p := by grind
  exact congrArg BitVec.toInt cancel

/-- What an increase does to a distance that is not negative. -/
lemma delta_add_nonneg_iff {p : BitVec 64} (h : 0 ≤ Vruntime.u64.delta a b) (hp : 0 ≤ p.toInt) :
    0 ≤ Vruntime.u64.delta (a + p) b ↔ Vruntime.u64.delta a b + p.toInt < 2 ^ 63 := by
  have shift : a + p - b = a - b + p := by grind
  have iff := toInt_add_nonneg_iff h hp
  rwa [← shift] at iff

/-- Numbers below half the range are not negative. -/
lemma toInt_ofNat_of_lt {n : ℕ} (h : n < 2 ^ 63) : (BitVec.ofNat 64 n).toInt = n := by
  rw [BitVec.toInt_ofNat']
  exact Int.bmod_eq_of_le (by omega) (by omega)

/-- What was not before a time lies behind by no more than has passed since. -/
lemma delta_le_of_least {picked : BitVec 64} {n : ℕ} (least : 0 ≤ Vruntime.u64.delta b picked)
    (h : n < 2 ^ 63) : Vruntime.u64.delta (picked + .ofNat 64 n) b ≤ n := by
  have b_lt := BitVec.toInt_lt (x := b - picked)
  have shift : picked + .ofNat 64 n - b = .ofNat 64 n - (b - picked) := by grind
  change (picked + .ofNat 64 n - b).toInt ≤ n
  rw [shift, BitVec.toInt_sub, toInt_ofNat_of_lt h]
  change 0 ≤ (b - picked).toInt at least
  rw [Int.bmod_eq_of_le (by omega) (by omega)]
  omega

end Words

/-! ## What one penalty does -/

section Place
variable {τ : Type*} [DecidableEq τ] (rb : Rebalance τ) {rq : TunableRq τ} {t : τ} {d : ℕ}

/-- The time of an inactive task when it is put back. -/
lemma vruntime_penalised (run : rq.curr = some t) (inactive : rq.inactive t = true) :
    (put_prev_entity rb rq d).vruntime t = rq.vruntime t + .ofNat 64 d + rq.inactive_penalty t := by
  simp [put_prev_entity, vruntime_put_prev_entity_by, run, inactive, update_curr_some _ _ d run]

/-- The penalty that a task has asked for moves it forward neither against itself nor against a runnable
task behind it, exactly if it is not negative and keeps below half the range from each of them. -/
lemma not_forward_preempt (run : rq.curr = some t) (inactive : rq.inactive t = true)
    {penalty_secs : BitVec 32} (passed : rq.inactive_penalty t = penalty_ns penalty_secs) :
    NotForward rb rq (.preempt d) ↔ 0 ≤ penalty_secs.toInt ∧
      ∀ x, rq.on_rq x → 0 ≤ lag rq t d x →
        lag rq t d x + penalty_secs.toInt * NSEC_PER_SEC < 2 ^ 63 := by
  have plain : (update_curr .u64 rq.toCfsRq d).vruntime t = rq.vruntime t + .ofNat 64 d := by
    simp [update_curr_some _ _ d run]
  have penalised := vruntime_penalised rb (d := d) run inactive
  have sign : 0 ≤ (penalty_ns penalty_secs).toInt ↔ 0 ≤ penalty_secs.toInt := by
    rw [toInt_penalty_ns, NSEC_PER_SEC]
    omega
  have only : NotForward rb rq (.preempt d) ↔
      Vruntime.u64.entity_before ((put_prev_entity rb rq d).vruntime t)
          ((update_curr .u64 rq.toCfsRq d).vruntime t) = false ∧
        ∀ x, rq.on_rq x →
          Vruntime.u64.entity_before ((update_curr .u64 rq.toCfsRq d).vruntime t) (rq.vruntime x) =
            false →
          Vruntime.u64.entity_before ((put_prev_entity rb rq d).vruntime t) (rq.vruntime x) = false := by
    constructor
    · intro all
      exact all t run inactive
    · intro one c same _
      rw [Option.some.inj (same.symm.trans run)]
      exact one
  rw [only, penalised, plain, passed, entity_before_eq_false, delta_add_self, sign]
  refine and_congr_right fun nonneg => forall₂_congr fun x _ => ?_
  rw [entity_before_eq_false, entity_before_eq_false]
  refine imp_congr_right fun behind => ?_
  rw [delta_add_nonneg_iff behind (sign.mpr nonneg), toInt_penalty_ns]
  exact Iff.rfl

/-- A task that nobody was before when it was picked leaves nobody far behind: unless it has executed
for more than two centuries since, the sign of its penalty decides. -/
theorem not_forward_of_leftmost (run : rq.curr = some t) (inactive : rq.inactive t = true)
    {penalty_secs : BitVec 32} (passed : rq.inactive_penalty t = penalty_ns penalty_secs)
    {picked : BitVec 64} {sum_exec : ℕ} (executed : rq.vruntime t = picked + .ofNat 64 sum_exec)
    (least : ∀ x ∈ rq.waiting, Vruntime.u64.entity_before (rq.vruntime x) picked = false)
    (short : sum_exec + d + 2 ^ 31 * NSEC_PER_SEC < 2 ^ 63) :
    NotForward rb rq (.preempt d) ↔ 0 ≤ penalty_secs.toInt := by
  have ordered : ∀ x, rq.on_rq x → 0 ≤ Vruntime.u64.delta (rq.vruntime x) picked := by
    rintro x (self | waits)
    · rw [← Option.some.inj (run.symm.trans self), executed, delta_add_self,
        toInt_ofNat_of_lt (by omega)]
      omega
    · exact entity_before_eq_false.mp (least x waits)
  have time : rq.vruntime t + .ofNat 64 d = picked + .ofNat 64 (sum_exec + d) := by
    rw [executed, BitVec.ofNat_add, BitVec.add_assoc]
  rw [not_forward_preempt rb run inactive passed]
  refine and_iff_left_of_imp fun _ x runs _ => ?_
  have near : lag rq t d x ≤ (sum_exec + d : ℕ) := by
    change Vruntime.u64.delta (rq.vruntime t + .ofNat 64 d) (rq.vruntime x) ≤ _
    rw [time]
    exact delta_le_of_least (ordered x runs) (by omega)
  have secs_lt := BitVec.toInt_lt (x := penalty_secs)
  norm_num [NSEC_PER_SEC] at *
  omega

end Place

/-! ## Runs -/

section Runs
variable {τ : Type*} [DecidableEq τ] (rb : Rebalance τ) {rq : TunableRq τ}

/-- The penalty of every inactive task is one that a caller has asked for. -/
def Passed (rq : TunableRq τ) : Prop :=
  ∀ t, rq.inactive t = true →
    ∃ penalty_secs : BitVec 32, rq.inactive_penalty t = penalty_ns penalty_secs

/-- The caller asks for the penalty that it gets. -/
lemma passed_set_inactive (passed : Passed rq) (penalty_secs : BitVec 32) :
    Passed (set_inactive rq penalty_secs) := by
  intro t inactive
  cases run : rq.curr with
  | none =>
    simp only [set_inactive, run] at inactive ⊢
    exact passed t inactive
  | some c =>
    cases flag : rq.inactive c with
    | false =>
      simp only [set_inactive, run, flag, Bool.not_false, if_true] at inactive ⊢
      by_cases e : t = c
      · subst e
        exact ⟨penalty_secs, update_self _ _ _⟩
      · rw [update_of_ne e] at inactive ⊢
        exact passed t inactive
    | true =>
      simp only [set_inactive, run, flag, Bool.not_true, Bool.false_eq_true, if_false] at inactive ⊢
      have ne : t ≠ c := by
        rintro rfl
        simp at inactive
      rw [update_of_ne ne] at inactive
      exact passed t inactive

omit [DecidableEq τ] in
/-- The other functions change neither the flags nor the penalties. -/
lemma Passed.congr (passed : Passed rq) {next : CfsRq (BitVec 64) τ}
    (same : next.inactive = rq.inactive) : Passed { rq with toCfsRq := next } := by
  intro t inactive
  rw [same] at inactive
  exact passed t inactive

/-- Every step keeps it so. -/
lemma passed_step (e : Event τ) (passed : Passed rq) : Passed (cfs_step rb rq e) := by
  cases e with
  | pick =>
    refine passed.congr ?_
    unfold pick_next_entity
    split <;> rfl
  | execute d => exact passed.congr (inactive_update_curr _ _ d)
  | preempt d => exact passed.congr (inactive_put_prev_entity_by _ rb _ _ d)
  | set_inactive penalty_secs => exact passed_set_inactive passed penalty_secs
  | leave t =>
    refine passed.congr ?_
    unfold dequeue_entity
    split <;> rfl
  | arrive t vruntime =>
    refine passed.congr ?_
    unfold enqueue_entity
    split <;> rfl

/-- In every run, no penalty moves its task forward exactly if all of them are admissible. -/
theorem not_forward_iff (passed : Passed rq) (h : List (Event τ)) :
    Always (cfs_step rb) (NotForward rb) rq h ↔ Always (cfs_step rb) Admissible rq h := by
  refine always_congr (I := Passed) (fun _ e => passed_step rb e) (fun rq e passed => ?_) passed h
  cases e with
  | preempt d =>
    constructor
    · intro fair t run inactive
      obtain ⟨penalty_secs, asked⟩ := passed t inactive
      exact ⟨penalty_secs, asked, (not_forward_preempt rb run inactive asked).mp fair⟩
    · intro adm t run inactive
      obtain ⟨penalty_secs, asked, fair⟩ := adm t run inactive
      exact (not_forward_preempt rb run inactive asked).mpr fair t run inactive
  | pick | execute _ | set_inactive _ | leave _ | arrive _ _ => exact Iff.rfl

/-- The tasks 0 and 1 wait with equal times, and both are active. -/
def two_waiting : TunableRq ℕ where
  vruntime _ := 0
  inactive _ := false
  min_vruntime := 0
  curr := none
  tasks_timeline := .node .black .nil 0 (.node .red .nil 1 .nil)
  inactive_penalty _ := 0

/-- A task with a penalty of 30 s is preempted. -/
theorem not_forward_iff_two_waiting :
    Always (cfs_step .plain) (NotForward .plain) two_waiting
        [.pick, .set_inactive 30, .execute 5, .preempt 1] ↔
      Always (cfs_step .plain) Admissible two_waiting
        [.pick, .set_inactive 30, .execute 5, .preempt 1] :=
  not_forward_iff .plain (fun _ inactive => by simp [two_waiting] at inactive) _

/-- A task that passes -1 is put back a second before its time. -/
theorem negative_penalty_forward :
    ¬Always (cfs_step .plain) (NotForward .plain) two_waiting
      [.pick, .set_inactive (-1), .preempt 0] := by
  intro all
  obtain ⟨_, _, put, _⟩ := all
  have := (put 0 rfl rfl).1
  revert this
  decide

end Runs

end Tunable

end CS519.Sched
